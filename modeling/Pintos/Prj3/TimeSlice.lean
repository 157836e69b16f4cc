import Pintos.Prj3.Levels

/-!
# The time slice

`thread_tick` asks for a yield once a thread has received `TIME_SLICE` ticks,
but `thread_alarm` asks for one at every tick.
-/

open pintos.kernel transition

namespace pintos.prj3

variable {k k' k₀ : Kernel} {l : Label} {ls : List Label} {t : ThreadId}

/-- The state is the one right after the processor was given to its running thread. -/
def JustScheduled (k : Kernel) : Prop :=
  ∃ k₁ env, kernel.Reachable k₁ ∧ k₁.code.head? = some .schedule ∧ step k₁ (.next env) = some k

/-- The instruction blocks its thread, yields, or ups a semaphore. -/
def Instr.GivesUp (k : Kernel) : Instr → Prop
  | .schedule | .thread_yield | .thread_block | .thread_sleep _ | .thread_exit | .sema_up _ => True
  | .sema_down_loop s => (k.sema s).value = 0
  | _ => False

instance (k : Kernel) (i : Instr) : Decidable (i.GivesUp k) := by
  cases i <;> unfold Instr.GivesUp <;> infer_instance

/-- During the step thread `t` runs and has the highest priority; it does not
give up the processor or lower its priority. -/
structure Undisturbed (t : ThreadId) (k : Kernel) (l : Label) : Prop where
  runs : k.current = t
  highest : ∀ u ∈ k.ready_list, (k.threads u).priority ≤ (k.threads t).priority
  goes_on : ∀ i ∈ k.executes l, ¬ i.GivesUp k
  keeps : ∀ k', step k l = some k' → (k.threads t).priority ≤ (k'.threads t).priority

instance (t : ThreadId) (k : Kernel) (l : Label) : Decidable (Undisturbed t k l) :=
  decidable_of_iff (k.current = t ∧ (∀ u ∈ k.ready_list, (k.threads u).priority ≤ (k.threads t).priority) ∧
      (∀ i ∈ k.executes l, ¬ i.GivesUp k) ∧
      ∀ k' ∈ step k l, (k.threads t).priority ≤ (k'.threads t).priority)
    ⟨fun ⟨hr, hh, hg, hk⟩ => ⟨hr, hh, hg, hk⟩, fun h => ⟨h.runs, h.highest, h.goes_on, h.keeps⟩⟩

/-- The interrupt that led to this state makes the interrupted thread yield. -/
def MustYield (k : Kernel) : Prop := k.code.head? = some .thread_yield

instance (k : Kernel) : Decidable (MustYield k) := inferInstanceAs (Decidable (_ = _))

/-- No timer interrupt of the run makes the thread yield before it has received
`TIME_SLICE` ticks. -/
def SliceKept (k₀ : Kernel) (ls : List Label) : Prop :=
  ∀ ls₁ ls₂, ls = ls₁ ++ .timer :: ls₂ → ls₁.count .timer + 1 < TIME_SLICE →
    ∀ k k', kernel.Run k₀ ls₁ k → step k .timer = some k' → ¬ MustYield k'

/-- Every timer interrupt makes the interrupted thread yield. -/
theorem Wf.tick_must_yield (h : Wf k) (hs : prj3.step k .timer = some k') : MustYield k' := by
  obtain ⟨hon, he⟩ := step_ok hs
  obtain ⟨-, -, -, hcode, -⟩ := h.tick_levels (show k.intr_level = .INTR_ON from hon) he
  rw [MustYield, hcode]
  rfl

theorem JustScheduled.reachable (h : JustScheduled k) : kernel.Reachable k := by
  obtain ⟨k₁, env, hr, -, hs⟩ := h
  exact hr.step hs

/-- From the moment it is scheduled, an undisturbed thread is left alone by the
timer exactly when no timer interrupt comes. -/
theorem slice_kept (h : JustScheduled k₀)
    (hrun : (kernel.restrict (Undisturbed k₀.current)).Run k₀ ls k) :
    SliceKept k₀ ls ↔ .timer ∉ ls := by
  refine ⟨fun hkept hmem => ?_, fun hno ls₁ ls₂ hls => ?_⟩
  · obtain ⟨ls₁, ls₂, rfl, hfirst⟩ := List.eq_append_cons_of_mem hmem
    obtain ⟨k₁, hrun₁, hrun₂⟩ := System.run_append.mp hrun.of_restrict
    cases hrun₂ with
    | cons hstep _ =>
      have hcount : ls₁.count .timer = 0 := List.count_eq_zero.mpr hfirst
      refine hkept ls₁ ls₂ rfl (by rw [hcount, TIME_SLICE]; decide) _ _ hrun₁ hstep ?_
      exact (reachable_wf (h.reachable.run hrun₁)).tick_must_yield hstep
  · exact absurd (by simp [hls]) hno

/-- `main` creates thread 2 with its own priority, which is then scheduled by
the last of these steps. -/
def schedule_equal : List Label :=
  start_up ++ .call (.thread_create PRI_DEFAULT) ::
    (.replicate 8 (.next ⟨some 2, 0⟩) ++ .replicate 30 (.next ⟨none, 0⟩))

/-- The theorem for the first step of a thread that has just been created. -/
theorem slice_kept_without_tick : ∃ k₀, JustScheduled k₀ ∧ k₀.current = 2 ∧
    SliceKept k₀ [.next ⟨none, 0⟩] := by
  obtain ⟨k₁, hrun, hk⟩ := exists_of_any step (boot false false 0) schedule_equal
    (fun k₁ => k₁.code.head? = some .schedule ∧ (step k₁ (.next ⟨none, 0⟩)).any fun k₀ => k₀.current = 2 ∧
      (runLabels (checked (fun k l => decide (Undisturbed 2 k l)) step) k₀ [.next ⟨none, 0⟩]).isSome)
    (by decide +kernel)
  obtain ⟨hpending, hany⟩ := of_decide_eq_true hk
  obtain ⟨k₀, hs, hk₀⟩ := (Option.any_eq_true _ _).mp hany
  obtain ⟨hcurrent, hsome⟩ := of_decide_eq_true hk₀
  obtain ⟨k, hrun₀⟩ := Option.isSome_iff_exists.mp hsome
  have hr : kernel.Reachable k₁ := runLabels_reachable ⟨false, false, 0, rfl⟩ hrun
  have hjust : JustScheduled k₀ := ⟨k₁, _, hr, hpending, hs⟩
  refine ⟨k₀, hjust, hcurrent, ?_⟩
  refine (slice_kept hjust (k := k) ?_).mpr (by simp)
  rw [hcurrent]
  exact runLabels_checked_run (fun _ _ h => of_decide_eq_true h) hrun₀

/-- The first tick takes the processor from a thread that has just been
scheduled and gives it to one of the same priority. -/
theorem slice_lost_at_first_tick : ∃ k₀ k k', JustScheduled k₀ ∧
    (kernel.restrict (Undisturbed k₀.current)).Run k₀ [.next ⟨none, 0⟩, .timer] k ∧
    ¬ SliceKept k₀ [.next ⟨none, 0⟩, .timer] ∧
    kernel.Run k [.next ⟨none, 0⟩, .next ⟨none, 0⟩] k' ∧ k'.current ≠ k₀.current ∧
    (k'.threads k'.current).priority = (k'.threads k₀.current).priority := by
  obtain ⟨k₁, hrun, hk⟩ := exists_of_any step (boot false false 0) schedule_equal
    (fun k₁ => k₁.code.head? = some .schedule ∧ (step k₁ (.next ⟨none, 0⟩)).any fun k₀ => k₀.current = 2 ∧
      (runLabels (checked (fun k l => decide (Undisturbed 2 k l)) step) k₀ [.next ⟨none, 0⟩, .timer]).any
        fun k => MustYield k ∧ (runLabels step k [.next ⟨none, 0⟩, .next ⟨none, 0⟩]).any fun k' =>
          k'.current ≠ 2 ∧ (k'.threads k'.current).priority = (k'.threads 2).priority)
    (by decide +kernel)
  obtain ⟨hpending, hany⟩ := of_decide_eq_true hk
  obtain ⟨k₀, hs, hk₀⟩ := (Option.any_eq_true _ _).mp hany
  obtain ⟨hcurrent, hany⟩ := of_decide_eq_true hk₀
  obtain ⟨k, hrun₀, hk⟩ := (Option.any_eq_true _ _).mp hany
  obtain ⟨hyield, hany⟩ := of_decide_eq_true hk
  obtain ⟨k', hrun', hk'⟩ := (Option.any_eq_true _ _).mp hany
  obtain ⟨hother, hequal⟩ := of_decide_eq_true hk'
  have hr : kernel.Reachable k₁ := runLabels_reachable ⟨false, false, 0, rfl⟩ hrun
  have hundisturbed : (kernel.restrict (Undisturbed k₀.current)).Run k₀ [.next ⟨none, 0⟩, .timer] k := by
    rw [hcurrent]
    exact runLabels_checked_run (fun _ _ h => of_decide_eq_true h) hrun₀
  refine ⟨k₀, k, k', ⟨k₁, _, hr, hpending, hs⟩, hundisturbed, fun hkept => ?_, runLabels_run hrun', ?_, ?_⟩
  · have hwhole : kernel.Run k₀ ([.next ⟨none, 0⟩] ++ [.timer]) k := hundisturbed.of_restrict
    obtain ⟨k₂, hrun₂, htick⟩ := System.run_append.mp hwhole
    cases htick with
    | cons hstep tail =>
      cases tail
      exact hkept [.next ⟨none, 0⟩] [] rfl (by decide) _ _ hrun₂ hstep hyield
  · rwa [hcurrent]
  · rwa [hcurrent]

end pintos.prj3
