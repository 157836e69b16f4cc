import Pintos.Prj3.SignalOrder

/-!
# Reads of the front of the run queue

`thread_set_priority` and `thread_set_nice` test whether `ready_list` is empty
and then read its front, with interrupts on in between. The front is there when
the thread reads it, unless it was interrupted between the two and all the other
threads had left the run queue when it was switched to again.
-/

open pintos.kernel transition

namespace pintos.prj3

variable {k k' : Kernel} {i : Instr} {is rest code : List Instr} {t : ThreadId} {l : Label}

def Instr.reads : Instr → Bool
  | .max_priority_in_ready _ => true
  | _ => false

/-- The code gets to a read of the front before anything else. -/
def reads_front : List Instr → Bool
  | [] => false
  | i :: rest => if i.passing then reads_front rest else i.reads

theorem reads_front_cons : reads_front (i :: rest) = if i.passing then reads_front rest else i.reads := rfl

/-- The code gets to a read only at the front. -/
def ReadsOnce : List Instr → Prop
  | [] => True
  | i :: rest => (i.passing = false → reads_front rest = false) ∧ ReadsOnce rest

theorem readsOnce_cons :
    ReadsOnce (i :: rest) ↔ (i.passing = false → reads_front rest = false) ∧ ReadsOnce rest :=
  Iff.rfl

@[simp] theorem readsOnce_nil : ReadsOnce [] := trivial

@[simp] theorem reads_front_nil : reads_front [] = false := rfl

theorem Leaves.readsOnce {cur : ThreadId} (h : Leaves cur i is) (hs : ReadsOnce (i :: rest)) :
    ReadsOnce (is ++ rest) := by
  cases h with
  | expands h =>
    cases h with
    | _ => simp_all [readsOnce_cons, reads_front_cons, Instr.passing, Instr.reads]
  | _ => simp_all [readsOnce_cons, reads_front_cons, Instr.passing, Instr.reads]

theorem readsOnce_rule : CodeRule ReadsOnce where
  nil := trivial
  exit := by simp [readsOnce_cons]
  boot := by simp [readsOnce_cons, reads_front_cons, Instr.passing, Instr.reads]
  start f := by simp [readsOnce_cons]
  call c := by simp [readsOnce_cons]
  tail _ _ h := h.2
  leaves _ _ _ _ h hs := h.readsOnce hs
  tick rest h := by simpa [readsOnce_cons, Instr.passing] using h

/-- Only the test and the return from an interrupt lead to a read. -/
theorem Leaves.reads {cur : ThreadId} (h : Leaves cur i is) (hs : ReadsOnce (i :: rest))
    (hreads : reads_front (is ++ rest) = true) (hswitch : (is ++ rest).head? ≠ some .schedule) :
    (∃ p, i = .preempt_test p ∧ is = [.max_priority_in_ready p]) ∨
      i ≠ .schedule ∧ reads_front (i :: rest) = true := by
  cases h with
  | expands h =>
    cases h with
    | _ => simp_all [readsOnce_cons, reads_front_cons, Instr.passing, Instr.reads]
  | _ => simp_all [readsOnce_cons, reads_front_cons, Instr.passing, Instr.reads]

theorem executes_none (hs : step k l = some k') (hi : k.executes l = none) : l = .timer := by
  cases l with
  | next env => exact absurd (List.head?_eq_none_iff.mp hi) (step_ok hs).1.1
  | call c => cases hi
  | timer => rfl

/-- The running thread finds the front that it is about to read. -/
def FrontThere (k : Kernel) : Prop :=
  reads_front k.code = true → k.code.head? ≠ some .schedule → k.ready_list ≠ []

/-- A switch to a thread between its test and its read leaves another thread in the run queue. -/
def LeavesAnother (k : Kernel) (l : Label) : Prop :=
  k.executes l = some .schedule → ∀ t ∈ next_thread_to_run k, reads_front (k.threads t).code = true →
    k.ready_list.tail ≠ []

/-- No other step takes the last thread out of the run queue. -/
theorem step_ready_ne_nil (h : kernel.Reachable k) (hs : step k l = some k')
    (hschedule : k.executes l ≠ some .schedule) (hcurrent : k'.current = k.current)
    (hready : k.ready_list ≠ []) : k'.ready_list ≠ [] := by
  have hw := reachable_wf h
  obtain ⟨t, ts, hts⟩ := List.exists_cons_of_ne_nil hready
  have hmem : t ∈ k.ready_list := by simp [hts]
  by_cases htimer : l = .timer
  · subst htimer
    obtain ⟨hon, he⟩ := step_ok hs
    obtain ⟨k₁, -, hwaking, -, -, rfl⟩ := hw.tick hon he
    have hmem' : t ∈ (accounted k₁).ready_list :=
      (accounted_calm k₁).ready_list.mem_iff.mpr (hwaking.ready_list.mem_iff.mpr (List.mem_append_right _ hmem))
    exact List.ne_nil_of_mem hmem'
  · have hrun : k.code.head? ≠ some .schedule := by
      cases l with
      | next env => exact hschedule
      | call c =>
        have hnil := (step_ok hs).1.1
        simp [hnil]
      | timer => exact absurd rfl htimer
    obtain hmem' | heq := (hw.step_effect htimer hs).ready t hmem
    · exact List.ne_nil_of_mem hmem'
    · exact absurd (heq.trans hcurrent) (hw.ne_current (q := .ready) hrun hmem)

theorem call_reads (c : Call) : reads_front [c.instr] = false := by
  cases c <;> simp [Call.instr, reads_front_cons, Instr.passing, Instr.reads]

/-- After a test that leads to the read there is a front. -/
theorem preempt_test_there {p : Option Int} (honce : ReadsOnce k.code) (hs : step k l = some k')
    (hi : k.executes l = some (.preempt_test p)) (hreads : reads_front k'.code = true) :
    k'.ready_list ≠ [] := by
  obtain ⟨rest, hcode⟩ := executes_next hs hi fun c => by cases c <;> simp [Call.instr]
  rw [hcode] at honce
  obtain ⟨env, rest', hbefore, he⟩ := step_exec hs hi
  have hrest : rest' = rest := by
    obtain h | ⟨hnil, -⟩ := hbefore
    · exact (List.cons.inj (h.symm.trans hcode)).2
    · rw [hcode] at hnil
      cases hnil
  subst hrest
  simp only [exec] at he
  split at he
  · obtain rfl := ok_eq_ok.mp he
    rw [Kernel.code_set_code, honce.1 rfl] at hreads
    cases hreads
  · next hne =>
    obtain rfl := ok_eq_ok.mp he
    exact hne

theorem step_front_there (h : kernel.Reachable k) (ho : FrontThere k) (hleaves : LeavesAnother k l)
    (hs : step k l = some k') : FrontThere k' := by
  have hw := reachable_wf h
  have honce := reachable_codes readsOnce_rule h k.current
  intro hreads hswitch
  have hown := hw.step_own hs
  cases hi : k.executes l with
  | none =>
    obtain rfl : l = .timer := executes_none hs hi
    obtain ⟨hon, he⟩ := step_ok hs
    obtain ⟨hcurrent, -, -, hcode, -⟩ := hw.tick_levels hon he
    have hbefore : reads_front k.code = true := by
      rw [hcode] at hreads
      exact hreads
    exact step_ready_ne_nil h hs (by simp [hi]) hcurrent (ho hbefore (hw.switching.not_pending hon))
  | some i =>
    rw [hi] at hown
    cases hown with
    | switch rest hbefore hcode =>
      obtain ⟨env, rest', -, he⟩ := step_exec hs hi
      obtain ⟨next, hnext, -, sw⟩ := schedule_switches he
      have hnext' : next ∈ next_thread_to_run k := hnext
      have hready : k'.ready_list = k.ready_list.tail := sw.ready_list
      rw [hready]
      refine hleaves hi next hnext' ?_
      have hcode' : k'.code = ((k.set_code rest').threads next).code := by
        rw [Kernel.code, sw.current, sw.started]
      rw [hcode'] at hreads
      by_cases hcur : next = k.current
      · subst hcur
        have hcur' : (k.threads k.current).code = .schedule :: rest := hbefore
        rw [← hcode', Kernel.code, sw.current, hcode] at hreads
        rw [hcur']
        exact hreads
      · simpa [hcur] using hreads
    | exit hbefore hcode =>
      obtain ⟨env, rest, -, he⟩ := step_exec hs hi
      simp only [exec, thread_exit, ASSERT_bind_ok, thread_current_bind_ok, ok_eq_ok] at he
      have hcurrent : k'.current = k.current := by
        obtain ⟨-, -, -, rfl⟩ := he
        rfl
      rw [Kernel.code, hcurrent, hcode] at hreads
      cases hreads
    | replaces i is rest hreplaces =>
      have hcode : k'.code = is ++ rest := by rw [Kernel.code, hreplaces.current, hreplaces.after]
      rw [hcode] at hreads hswitch
      have hbefore : ReadsOnce (i :: rest) := by
        obtain hc | ⟨-, rfl, c, rfl⟩ := hreplaces.before
        · exact hc ▸ honce
        · exact readsOnce_rule.call c
      obtain hl | ⟨s, v, rfl⟩ := hreplaces.leaves
      · obtain ⟨p, rfl, rfl⟩ | ⟨hne, hread⟩ := hl.reads hbefore hreads hswitch
        · exact preempt_test_there honce hs hi (by rw [hcode]; exact hreads)
        · refine step_ready_ne_nil h hs (by simpa [hi] using hne) hreplaces.current ?_
          obtain hc | ⟨-, rfl, c, rfl⟩ := hreplaces.before
          · exact ho (hc ▸ hread) (by simpa [hc] using hne)
          · simp [call_reads] at hread
      · obtain rfl : is = [] := hreplaces.exact
        rw [List.nil_append, hbefore.1 rfl] at hreads
        cases hreads

theorem reachable_front_there (h : (kernel.restrict LeavesAnother).Reachable k) : FrontThere k :=
  h.restrict_invariant (I := FrontThere)
    (fun s hs => by
      obtain ⟨mlfqs, aging, t₀, rfl⟩ := hs
      intro hreads
      simp [Kernel.code, boot, reads_front_cons, Instr.passing, Instr.reads] at hreads)
    fun _ _ _ hr ho hleaves hs => step_front_there hr ho hleaves hs

/-- The handler's own reads come after a test with interrupts off. -/
theorem yield_if_outranked_nil (h : k.ready_list = []) : yield_if_outranked k = .ok k := by
  simp [yield_if_outranked, max_priority_in_ready, h]

/-- In a run whose switches leave another thread ready, `thread_set_priority` and
`thread_set_nice` find a thread at the front of the run queue, and the timer
interrupt looks for none when the queue is empty. -/
theorem front_read_there (h : (kernel.restrict LeavesAnother).Reachable k) :
    (∀ p l k', k.executes l = some (.max_priority_in_ready p) → step k l = some k' →
      ∃ t ∈ k.ready_list, k'.code.head? = some (.compare_front p (some t))) ∧
      ∀ k₁, k₁.ready_list = [] → yield_if_outranked k₁ = .ok k₁ := by
  refine ⟨fun p l k' hi hs => ?_, fun k₁ => yield_if_outranked_nil⟩
  obtain ⟨rest, hcode⟩ := executes_next hs hi fun c => by cases c <;> simp [Call.instr]
  have hne : k.ready_list ≠ [] :=
    reachable_front_there h (by simp [hcode, reads_front_cons, Instr.passing, Instr.reads]) (by simp [hcode])
  obtain ⟨t, ts, hts⟩ := List.exists_cons_of_ne_nil hne
  obtain ⟨env, rest', -, he⟩ := step_exec hs hi
  obtain rfl := ok_eq_ok.mp he
  exact ⟨t, by simp [hts], by simp [hts]⟩

instance (k : Kernel) (l : Label) : Decidable (LeavesAnother k l) :=
  inferInstanceAs (Decidable (_ → ∀ t ∈ _, _ → _))

/-- `main` lowers its priority below that of thread 2, which is ready, up to its read. -/
def lower_priority : List Label :=
  start_up ++ .call (.thread_create 10) :: .replicate 8 (.next ⟨some 2, 0⟩) ++
    .replicate 33 (.next ⟨none, 0⟩) ++
    [.call (.thread_set_priority 5), .next ⟨none, 0⟩]

/-- The theorem at the read of `lower_priority`. -/
theorem front_read_there_lowered : ∃ k k', step k (.next ⟨none, 0⟩) = some k' ∧
    ∃ t ∈ k.ready_list, k'.code.head? = some (.compare_front (some 5) (some t)) := by
  obtain ⟨k, hrun, hk⟩ := exists_of_any (checked (fun k l => decide (LeavesAnother k l)) step)
    (boot false false 0) lower_priority
    (fun k => k.executes (.next ⟨none, 0⟩) = some (.max_priority_in_ready (some 5)) ∧
      (step k (.next ⟨none, 0⟩)).isSome)
    (by decide +kernel)
  obtain ⟨hi, hnext⟩ := of_decide_eq_true hk
  obtain ⟨k', hs⟩ := Option.isSome_iff_exists.mp hnext
  have hreach : (kernel.restrict LeavesAnother).Reachable k :=
    runLabels_checked (fun _ _ h => of_decide_eq_true h) ⟨false, false, 0, rfl⟩ hrun
  obtain ⟨hread, -⟩ := front_read_there hreach
  exact ⟨k, k', hs, hread _ _ _ hi hs⟩

/-- Thread 2 takes over between the test and the read of `main`, and exits: the front
is read in an empty run queue. -/
theorem front_read_sentinel : ∃ k k', kernel.Reachable k ∧ k.ready_list = [] ∧
    k.executes (.next ⟨none, 0⟩) = some (.max_priority_in_ready (some 5)) ∧
    step k (.next ⟨none, 0⟩) = some k' ∧ k'.code.head? = some (.compare_front (some 5) none) := by
  obtain ⟨k, hrun, hk⟩ := exists_of_any step (boot false false 0)
    (lower_priority ++ .timer :: .replicate 3 (.next ⟨none, 0⟩) ++
      .call .thread_exit :: .replicate 4 (.next ⟨none, 0⟩))
    (fun k => k.ready_list = [] ∧ k.executes (.next ⟨none, 0⟩) = some (.max_priority_in_ready (some 5)) ∧
      (step k (.next ⟨none, 0⟩)).any fun k' => k'.code.head? = some (.compare_front (some 5) none))
    (by decide +kernel)
  obtain ⟨hready, hi, hnext⟩ := of_decide_eq_true hk
  obtain ⟨k', hs, hcode⟩ := (Option.any_eq_true _ _).mp hnext
  have hreach : kernel.Reachable k := runLabels_reachable ⟨false, false, 0, rfl⟩ hrun
  exact ⟨k, k', hreach, hready, hi, hs, of_decide_eq_true hcode⟩

end pintos.prj3
