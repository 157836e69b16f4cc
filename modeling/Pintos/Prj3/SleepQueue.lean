import Mathlib.Data.List.Nodup
import Pintos.Prj3.Deadline
import Pintos.Prj3.ReadyOrder

/-!
# The sleep queue

`sleep_list` is in order of the stored deadlines, and for each deadline it is a
first-in, first-out queue, which the tick of the deadline empties.
-/

open twos_complement strict_weak pintos.kernel transition placement

namespace pintos.prj3

variable {k k' k₁ : Kernel} {i : Instr} {rest : List Instr} {t : ThreadId} {l : Label}

/-- The threads that sleep until tick `deadline`, as `sleep_list` has them. -/
def sleepers (k : Kernel) (deadline : Int) : List ThreadId :=
  k.sleep_list.filter fun t => (k.threads t).alarm_ticks = deadline

/-- What holds of `sleep_list` at any time. -/
structure SleepQueue (k : Kernel) : Prop where
  sorted : k.sleep_list.Pairwise fun a b => (k.threads a).alarm_ticks ≤ (k.threads b).alarm_ticks
  nodup : k.sleep_list.Nodup
  asleep : ∀ t ∈ k.sleep_list, (k.threads t).status = .THREAD_BLOCKED ∧ t ∉ k.ready_list

/-- A step other than a tick: no sleeper leaves, and only the running thread
enters, behind all that sleep until the same tick. -/
structure KeepsSleepers (k k' : Kernel) : Prop where
  stays : ∀ t ∈ k.sleep_list, t ∈ k'.sleep_list ∧ (k'.threads t).alarm_ticks = (k.threads t).alarm_ticks
  enters : ∀ t ∈ k'.sleep_list, t ∈ k.sleep_list ∨ t = k.current
  arrival : ∀ deadline, sleepers k' deadline = sleepers k deadline ∨
    k.current ∉ k.sleep_list ∧ sleepers k' deadline = sleepers k deadline ++ [k.current]

/-- A timer interrupt, at the tick that it counts. -/
structure TickWakes (k k' : Kernel) : Prop where
  tick : k'.ticks = k.ticks + 1
  alarm_ticks : ∀ t ∈ k.sleep_list, (k'.threads t).alarm_ticks = (k.threads t).alarm_ticks
  sleep_list : k'.sleep_list = k.sleep_list.filter fun t => k'.ticks < (k.threads t).alarm_ticks
  ready_list : k'.ready_list.Perm
    ((k.sleep_list.filter fun t => (k.threads t).alarm_ticks ≤ k'.ticks) ++ k.ready_list)
  woken : ∀ t ∈ k.sleep_list, (k.threads t).alarm_ticks ≤ k'.ticks → k'.ready_list.count t = 1
  ordered : k'.ready_list.Pairwise fun a b => (k'.threads b).priority ≤ (k'.threads a).priority
  remaining : ∀ t ∈ k'.sleep_list, k'.ticks < (k'.threads t).alarm_ticks

theorem Wf.sleepers_in_order (h : Wf k) (ho : Ordered (alarm_ticks_comp k) k.sleep_list) : SleepQueue k where
  sorted := by
    refine ho.imp fun {a b} hab => ?_
    simpa [alarm_ticks_comp] using hab
  nodup := h.settled.queues.nodup .sleep
  asleep t ht := by
    have hp := h.place_of_sleeper ht
    obtain ⟨-, hstatus, -⟩ := blocked_of_place (by rw [hp]; rfl) (by rw [hp]; simp)
    refine ⟨hstatus, fun hready => ?_⟩
    have hq : t ∈ k.queue .ready := hready
    cases h.settled.queues.unique (q := .sleep) ht hq

/-! ## The tick -/

/-- The woken threads are in order unless the accounting of the tick puts the
ready threads out of it. -/
theorem Wf.tick_wakes (h : Wf k) (hint : ∀ t, IsInt (k.threads t).priority)
    (hsleep : Ordered (alarm_ticks_comp k) k.sleep_list) (hready : Ordered (priority_comp k) k.ready_list)
    (hs : prj3.step k .timer = some k') : TickWakes k k' ↔ KeepsOrder k .timer := by
  have hw' := h.step hs
  have hordered := h.step_ready_ordered hint hs hready
  refine ⟨fun hwakes => hordered.mp (ordered_priority.mpr hwakes.ordered), fun hkeeps => ?_⟩
  obtain ⟨hon, he⟩ := step_ok hs
  obtain ⟨k₁, -, hw, -, -, rfl⟩ := h.tick hon he
  have hcalm := accounted_calm k₁
  have halarm (t : ThreadId) : ((leave_interrupt (accounted k₁)).threads t).alarm_ticks =
      (k.threads t).alarm_ticks := by
    rw [(leave_interrupt_keys _ t).alarm_ticks, hcalm.alarm_ticks, hw.alarm_ticks]
  have hticks : (leave_interrupt (accounted k₁)).ticks = k.ticks + 1 := hcalm.ticks.trans hw.ticks
  have hperm : (leave_interrupt (accounted k₁)).ready_list.Perm (due k ++ k.ready_list) :=
    hcalm.ready_list.trans hw.ready_list
  have hleft : (leave_interrupt (accounted k₁)).sleep_list =
      k.sleep_list.filter fun t => k.ticks + 1 < (k.threads t).alarm_ticks := by
    have hrest : (leave_interrupt (accounted k₁)).sleep_list =
        k.sleep_list.dropWhile fun t => (k.threads t).alarm_ticks ≤ k.ticks + 1 := by
      change (accounted k₁).sleep_list = _
      have happend := List.takeWhile_append_dropWhile
        (p := fun t => decide ((k.threads t).alarm_ticks ≤ k.ticks + 1)) (l := k.sleep_list)
      rw [hcalm.sleep_list]
      exact List.append_cancel_left (hw.sleep_list.symm.trans happend.symm)
    rw [hrest, hsleep.dropWhile_eq_filter (on_time_mono k _)]
    refine List.filter_congr fun t _ => ?_
    rw [← decide_not, decide_eq_decide, not_le]
  have hremaining : ∀ t ∈ (leave_interrupt (accounted k₁)).sleep_list,
      k.ticks + 1 < (k.threads t).alarm_ticks := fun t ht => by
    rw [hleft] at ht
    simpa using (List.mem_filter.mp ht).2
  constructor
  · exact hticks
  · exact fun t _ => halarm t
  · rw [hleft, hticks]
  · rw [hticks, ← due_eq_filter hsleep]
    exact hperm
  · intro t ht hle
    rw [hticks] at hle
    have hdue : t ∈ due k := (mem_due hsleep).mpr ⟨ht, hle⟩
    have hin := hperm.mem_iff.mpr (List.mem_append_left k.ready_list hdue)
    exact List.count_eq_one_of_mem (hw'.settled.queues.nodup .ready) hin
  · exact ordered_priority.mp (hordered.mpr hkeeps)
  · intro t ht
    rw [hticks, halarm]
    exact hremaining t ht

/-! ## The other steps -/

/-- Only the running thread goes to sleep. -/
theorem Wf.step_sleeper (h : Wf k) (hl : l ≠ .timer) (hs : prj3.step k l = some k')
    (ht : t ∈ k'.sleep_list) : t ∈ k.sleep_list ∨ t = k.current := by
  obtain ⟨henabled, he⟩ := step_ok hs
  cases l with
  | timer => exact absurd rfl hl
  | next env =>
    obtain ⟨i, rest, hcode⟩ := List.exists_cons_of_ne_nil henabled.1
    simp only [perform, hcode] at he
    exact ((h.exec_effect hcode henabled.2 he).asleep t ht).imp_right And.left
  | call c =>
    obtain ⟨hcode, hallowed⟩ := henabled
    by_cases hsimple : c.Simple
    · obtain ⟨hw, hc⟩ := h.simple_call hsimple hcode
      have hexec := hw.exec_effect hc (no_page_allowed _) (by rwa [push_pop])
      exact (hexec.asleep t ht).imp_right And.left
    left
    cases c with
    | thread_exit =>
      replace he : prj3.thread_exit k = .ok k' := he
      simp only [prj3.thread_exit, ASSERT_bind_ok, thread_current_bind_ok, ok_eq_ok] at he
      obtain ⟨-, -, -, rfl⟩ := he
      exact ht
    | thread_unblock u =>
      obtain ⟨-, -, rfl⟩ := thread_unblock_ok.mp he
      exact ht
    | sema_init n v =>
      obtain rfl := ok_eq_ok.mp he
      exact ht
    | _ => exact absurd trivial hsimple

/-- The list of sleepers is as it was, or has the running thread inserted. -/
theorem Wf.step_sleep_list (h : Wf k) (hl : l ≠ .timer) (hs : prj3.step k l = some k') :
    k'.sleep_list = k.sleep_list ∨ k.current ∉ k.sleep_list ∧
      k'.sleep_list = list_insert_ordered (alarm_ticks_comp k') k.current k.sleep_list := by
  have hstays := (h.step_effect hl hs).sleepers
  have hnodup := (h.step hs).settled.queues.nodup .sleep
  rcases (h.step_shifts (q := .sleep) hl hs).queue with hsub | ⟨t, hinsert, -⟩
  · left
    have hsubset : k.sleep_list.Subperm k'.sleep_list :=
      List.subperm_of_subset (h.settled.queues.nodup .sleep) fun t ht => (hstays t ht).1
    exact hsub.eq_of_length_le hsubset.length_le
  · right
    replace hinsert : k'.sleep_list = list_insert_ordered (alarm_ticks_comp k') t k.sleep_list := hinsert
    have hnew : t ∉ k.sleep_list := by
      rw [Kernel.queue, hinsert, nodup_list_insert_ordered] at hnodup
      exact hnodup.1
    have ht : t ∈ k'.sleep_list := by
      rw [hinsert]
      exact mem_list_insert_ordered.mpr (.inl rfl)
    obtain rfl := (h.step_sleeper hl hs ht).resolve_left hnew
    exact ⟨hnew, hinsert⟩

theorem Wf.keeps_sleepers (h : Wf k) (hsleep : Ordered (alarm_ticks_comp k) k.sleep_list) (hl : l ≠ .timer)
    (hs : prj3.step k l = some k') : KeepsSleepers k k' := by
  have hstays := (h.step_effect hl hs).sleepers
  have hsame (deadline : Int) : (k.sleep_list.filter fun t => (k'.threads t).alarm_ticks = deadline) =
      sleepers k deadline := by
    refine List.filter_congr fun t ht => ?_
    rw [(hstays t ht).2]
  refine ⟨hstays, fun t ht => h.step_sleeper hl hs ht, fun deadline => ?_⟩
  rcases h.step_sleep_list hl hs with heq | ⟨hnew, hinsert⟩
  · left
    rw [sleepers, heq, hsame]
  · by_cases hd : (k'.threads k.current).alarm_ticks = deadline
    · right
      refine ⟨hnew, ?_⟩
      rw [sleepers, hinsert, list_insert_ordered_filter (by simpa using hd), hsame]
      · intro t ht hless
        simp only [alarm_ticks_comp, decide_eq_true_eq, hd] at hless
        simpa using hless.ne'
      · refine hsleep.imp_of_mem fun {a b} ha hb hab hless => ?_
        simp only [alarm_ticks_comp, decide_eq_true_eq, decide_eq_false_iff_not, (hstays a ha).2,
          (hstays b hb).2] at hab hless ⊢
        omega
    · left
      rw [sleepers, hinsert, list_insert_ordered_filter_other (by simpa using hd), hsame]

/-! ## Runs -/

/-- The sleep queue, in runs whose ticks keep `ready_list` in order. -/
theorem sleep_queue (h : (kernel.restrict KeepsOrder).Reachable k) : SleepQueue k ∧
    ∀ l k', step k l = some k' →
      (l = .timer → (TickWakes k k' ↔ KeepsOrder k l)) ∧ (l ≠ .timer → KeepsSleepers k k') := by
  have hr := h.of_restrict
  have hw := reachable_wf hr
  have hsleep := reachable_sleep_ordered hr
  refine ⟨hw.sleepers_in_order hsleep, fun l k' hs => ⟨?_, fun hl => hw.keeps_sleepers hsleep hl hs⟩⟩
  rintro rfl
  exact hw.tick_wakes (reachable_isInt hr) hsleep (reachable_ready_ordered h) hs

/-- The theorem at the first tick, which wakes `main` at `PRI_MAX` before thread 3. -/
theorem sleep_queue_at_tick : ∃ k k', step k .timer = some k' ∧ k.sleep_list = [0] ∧ k'.sleep_list = [] ∧
    k'.ready_list = [0, 3] ∧ TickWakes k k' := by
  obtain ⟨k, hrun, hk⟩ := exists_of_any
    (checked (fun k l => decide (KeepsOrder k l)) step) (boot false true 0)
    (start_up ++ create_two ++ (sleep_one_tick PRI_MAX).dropLast)
    (fun k => KeepsOrder k .timer ∧ k.sleep_list = [0] ∧
      ((step k .timer).map fun k' => (k'.sleep_list, k'.ready_list)) = some ([], [0, 3]))
    (by decide +kernel)
  obtain ⟨hkeeps, hsleep, hstep⟩ := of_decide_eq_true hk
  obtain ⟨k', hs, hqueues⟩ := Option.map_eq_some_iff.mp hstep
  simp only [Prod.mk.injEq] at hqueues
  have hreach : (kernel.restrict KeepsOrder).Reachable k :=
    runLabels_checked (fun _ _ h => of_decide_eq_true h) ⟨false, true, 0, rfl⟩ hrun
  refine ⟨k, k', hs, hsleep, hqueues.1, hqueues.2, ?_⟩
  exact (((sleep_queue hreach).2 .timer k' hs).1 rfl).mpr hkeeps

/-- At priority `INT_MAX` the woken thread overflows to `INT_MIN`, in front of a
ready thread of priority 1. -/
theorem sleep_queue_overflow : ∃ k k', kernel.Reachable k ∧ step k .timer = some k' ∧ ¬ TickWakes k k' := by
  obtain ⟨k, hrun, hk⟩ := exists_of_any step (boot false true 0)
    (start_up ++ create_two ++ (sleep_one_tick INT_MAX).dropLast)
    (fun k => ((step k .timer).map fun k' =>
      (k'.ready_list, (k'.threads 0).priority, (k'.threads 3).priority)) = some ([0, 3], -2147483648, 1))
    (by decide +kernel)
  obtain ⟨k', hs, hqueues⟩ := Option.map_eq_some_iff.mp (of_decide_eq_true hk)
  simp only [Prod.mk.injEq] at hqueues
  obtain ⟨hready, h0, h3⟩ := hqueues
  refine ⟨k, k', runLabels_reachable ⟨false, true, 0, rfl⟩ hrun, hs, fun hwakes => ?_⟩
  have hordered := hwakes.ordered
  simp [hready, h0, h3] at hordered

end pintos.prj3
