import Pintos.Prj3.ReadyOrder

/-!
# Which waiter `sema_up` wakes

Waiters are inserted in order of priority, and nothing reorders them later. In
mlfqs mode the priorities of waiters are recomputed every four ticks, so the
order stays only if the new priorities agree with it.
-/

open twos_complement strict_weak pintos.kernel transition placement

namespace pintos.prj3

variable {k k' k₁ : Kernel} {t u : ThreadId} {s : SemaRef}

/-! ## `all_list` -/

theorem Wf.step_listed {l : Label} (h : Wf k) (hs : prj3.step k l = some k') (hl : Listed k) :
    Listed k' := by
  by_cases htimer : l = .timer
  · subst htimer
    obtain ⟨hon, he⟩ := step_ok hs
    obtain ⟨k₁, -, hw, -, -, rfl⟩ := h.tick hon he
    have hcalm := accounted_calm k₁
    refine hl.congr (hcalm.all_list.trans hw.all_list) fun t => ?_
    have hlive : Live (leave_interrupt (accounted k₁)) t ↔ Live k₁ t := by
      rw [Live, Live, is_thread, is_thread, ← hcalm.magic, ← hcalm.status]
      by_cases ht : t = (accounted k₁).current <;> simp [leave_interrupt, ht]
    rw [hlive, Live, Live, is_thread, is_thread, hw.magic, hw.status]
    split
    · rename_i hdue
      have hp := h.place_of_sleeper (List.takeWhile_subset _ hdue)
      have hblocked := (blocked_of_place (by rw [hp]; rfl) (by rw [hp]; simp)).2.1
      simp [hblocked]
    · rfl
  · exact (h.step_effect htimer hs).listed hl

/-- In every reachable state `all_list` has each live thread once. -/
theorem reachable_listed (h : kernel.Reachable k) : Listed k := by
  refine h.invariant (fun s hs => ?_) fun _ _ _ hr hl hs => (reachable_wf hr).step_listed hs hl
  obtain ⟨mlfqs, aging, t₀, rfl⟩ := hs
  refine ⟨by simp [boot], fun t => ?_⟩
  by_cases ht : t = t₀ <;> simp [boot, Live, is_thread, ht, Thread.zero]

/-! ## What a tick makes of a thread that does not run -/

theorem aged_threads (hnodup : k.ready_list.Nodup) (ht : t ∉ k.ready_list) :
    (aged k).threads t = k.threads t := by
  rw [aged, foldl_update _ hnodup]
  simp [ht]

theorem ripened_threads (hnodup : k.ready_list.Nodup) (ht : t ∉ k.ready_list) :
    (ripened k).threads t = k.threads t := by
  unfold ripened
  split
  · exact aged_threads hnodup ht
  · rfl

theorem charged_threads (ht : t ≠ k.current) : (charged k).threads t = k.threads t := by
  unfold charged
  split <;> simp [ht]

theorem decay_threads (ht : t ≠ u) : (decay k u).threads t = k.threads t := by
  unfold decay
  split <;> simp [ht]

/-- `recent_cpu` decays in the threads of a list, with the same `load_avg`. -/
theorem foldl_decay_threads {l : List ThreadId} (hl : l.Nodup) (k : Kernel) (ht : t ∈ l)
    (hlive : (k.threads t).status ≠ .THREAD_DYING) (hidle : k.idle_thread ≠ some t) :
    (l.foldl decay k).threads t = { k.threads t with
      recent_cpu := new_recent_cpu k.load_avg (k.threads t).recent_cpu (k.threads t).nice } := by
  have hother (l : List ThreadId) (k : Kernel) (ht : t ∉ l) : (l.foldl decay k).threads t = k.threads t := by
    induction l generalizing k with
    | nil => rfl
    | cons u l ih =>
      rw [List.mem_cons, not_or] at ht
      rw [List.foldl_cons, ih _ ht.2, decay_threads ht.1]
  induction l generalizing k with
  | nil => cases ht
  | cons u l ih =>
    obtain ⟨hul, hl⟩ := List.nodup_cons.mp hl
    rw [List.foldl_cons]
    by_cases htu : t = u
    · subst htu
      rw [hother l _ hul]
      simp [decay, hlive, hidle]
    · have hsame := decay_threads (k := k) htu
      have hload : (decay k u).load_avg = k.load_avg := by
        unfold decay
        split <;> rfl
      have hd := ih hl (decay k u) ((List.mem_cons.mp ht).resolve_left htu) (by rwa [hsame])
        (by rwa [(decay_calm k u).idle])
      rwa [hsame, hload] at hd

theorem decayed_threads (hl : k.all_list.Nodup) (ht : t ∈ k.all_list)
    (hlive : (k.threads t).status ≠ .THREAD_DYING) (hidle : k.idle_thread ≠ some t) :
    (decayed k).threads t = { k.threads t with
      recent_cpu := new_recent_cpu (new_load_avg k.load_avg
        (int32 (k.ready_list.length + if k.idle_thread = some k.current then 0 else 1)))
        (k.threads t).recent_cpu (k.threads t).nice } :=
  foldl_decay_threads hl _ ht hlive hidle

/-- The load average that the next tick computes, if it ends a second. -/
def next_load_avg (k : Kernel) : Int :=
  new_load_avg k.load_avg
    (int32 ((run_queue k).length + if k.idle_thread = some k.current then 0 else 1))

/-- `recent_cpu` of a waiting thread after the accounting of the next tick. -/
def next_recent_cpu (k : Kernel) (t : ThreadId) : Int :=
  if (k.ticks + 1) % TIMER_FREQ = 0 then
    new_recent_cpu (next_load_avg k) (k.threads t).recent_cpu (k.threads t).nice
  else (k.threads t).recent_cpu

/-- The priority that the next tick gives to a waiting thread, if it is a fourth one. -/
def next_priority (k : Kernel) (t : ThreadId) : Int :=
  new_priority (next_recent_cpu k t) (k.threads t).nice

/-- A thread that neither runs nor is ready, nor is the idle thread. -/
structure Waits (k : Kernel) (t : ThreadId) : Prop where
  listed : t ∈ k.all_list
  live : (k.threads t).status ≠ .THREAD_DYING
  idle : k.idle_thread ≠ some t
  current : t ≠ k.current

theorem spent_threads (hl : k.all_list.Nodup) (ht : Waits k t) :
    (spent k).threads t = { k.threads t with
      recent_cpu := if k.ticks % TIMER_FREQ = 0 then
          new_recent_cpu (new_load_avg k.load_avg
            (int32 (k.ready_list.length + if k.idle_thread = some k.current then 0 else 1)))
            (k.threads t).recent_cpu (k.threads t).nice
        else (k.threads t).recent_cpu } := by
  have hcalm := charged_calm k
  have hsame : (charged k).threads t = k.threads t := charged_threads ht.current
  unfold spent
  split
  · rw [decayed_threads (by rw [hcalm.all_list]; exact hl) (by rw [hcalm.all_list]; exact ht.listed)
      (by rw [hsame]; exact ht.live) (by rw [hcalm.idle]; exact ht.idle), hsame,
      (charged_accounts k).ready_list, hcalm.idle, hcalm.current]
    have hload : (charged k).load_avg = k.load_avg := by
      unfold charged
      split <;> rfl
    rw [hload]
  · rw [hsame]

/-- The priority that a tick leaves in a thread that waits. -/
theorem accounted_priority (hl : k₁.all_list.Nodup) (hnodup : k₁.ready_list.Nodup)
    (hw : Waking k k₁ (due k)) (ht : Waits k₁ t) (hready : t ∉ k₁.ready_list) :
    ((accounted k₁).threads t).priority =
      if k.thread_mlfqs = true ∧ (k.ticks + 1) % 4 = 0 then next_priority k t
      else (k.threads t).priority := by
  have hcalm := ripened_calm k₁
  have hsame := ripened_threads hnodup hready
  have hload : (ripened k₁).load_avg = k₁.load_avg := by
    unfold ripened
    split
    · rw [aged, foldl_update _ hnodup]
    · rfl
  have hwaits : Waits (ripened k₁) t :=
    ⟨by rw [hcalm.all_list]; exact ht.listed, by rw [hsame]; exact ht.live,
      by rw [hcalm.idle]; exact ht.idle, by rw [hcalm.current]; exact ht.current⟩
  have hlength : (ripened k₁).ready_list.length = (run_queue k).length :=
    (hcalm.ready_list.trans hw.ready_list).length_eq
  have hspent := spent_threads (by rw [hcalm.all_list]; exact hl) hwaits
  rw [hsame, hcalm.ticks, hw.ticks, hload, hw.load_avg, hlength, hcalm.idle, hw.idle, hcalm.current,
    hw.current, hw.recent_cpu, hw.nice] at hspent
  unfold accounted mlfqs_updated
  rw [hcalm.ticks, hw.ticks, hw.modes.1]
  by_cases hmlfqs : k.thread_mlfqs = true
  · rw [if_pos hmlfqs]
    by_cases hfour : (k.ticks + 1) % 4 = 0
    · have hmem : t ∈ (spent (ripened k₁)).all_list := by
        rw [(spent_calm _).all_list]
        exact hwaits.listed
      rw [if_pos hfour, if_pos ⟨hmlfqs, hfour⟩, sorted, recomputed,
        foldl_update _ (by rw [(spent_calm _).all_list, hcalm.all_list]; exact hl)]
      simp only [hmem, if_true, recompute, hspent]
      rw [hw.nice]
      rfl
    · rw [if_neg hfour, if_neg fun h => hfour h.2, hspent]
      exact hw.priority t
  · rw [if_neg hmlfqs, if_neg fun h => hmlfqs h.1, hsame]
    exact hw.priority t

/-! ## The order of the waiters -/

/-- The threads that wait on each semaphore are in order of priority. -/
def WaitersOrdered (k : Kernel) : Prop := ∀ s, Ordered (priority_comp k) (k.sema s).waiters

/-- At the tick, no recomputation takes place, or the new priorities of the
waiters of each semaphore agree with their order. -/
def KeepsWaiters (k : Kernel) (l : Label) : Prop :=
  l = .timer → k.thread_mlfqs = true → (k.ticks + 1) % 4 = 0 →
    ∀ s, (k.sema s).waiters.Pairwise fun a b => next_priority k b ≤ next_priority k a

theorem Wf.waiter_live (h : Wf k) (ht : t ∈ (k.sema s).waiters) : Live k t := by
  have hp := h.place_of_waiter ht
  obtain ⟨hthread, hblocked, -⟩ := blocked_of_place (by rw [hp]; rfl) (by rw [hp]; simp)
  exact ⟨hthread, by simp [hblocked]⟩

theorem Wf.waits (h : Wf k) (hrun : k.code.head? ≠ some .schedule) (hmem : t ∈ k.all_list)
    (ht : t ∈ (k.sema s).waiters) : Waits k t where
  listed := hmem
  live := (h.waiter_live ht).2
  idle := h.ne_idle (.inr (by simp [h.place_of_waiter ht, Place.blocked]))
  current := h.ne_current (q := .wait s) hrun ht

/-- The priority of a waiter after the next tick. -/
theorem Wf.tick_waiter_priority (h : Wf k) (hrun : k.code.head? ≠ some .schedule) (hl : Listed k)
    (hw₁ : Wf k₁) (hw : Waking k k₁ (due k)) (ht : t ∈ (k.sema s).waiters) :
    ((accounted k₁).threads t).priority =
      if k.thread_mlfqs = true ∧ (k.ticks + 1) % 4 = 0 then next_priority k t
      else (k.threads t).priority := by
  have ht₁ : t ∈ (k₁.sema s).waiters := by
    rw [hw.sema]
    exact ht
  have hrun₁ : k₁.code.head? ≠ some .schedule := by
    rw [Kernel.code, hw.current, hw.code]
    exact hrun
  have hmem : t ∈ k₁.all_list := by
    rw [hw.all_list]
    exact (hl.mem t).mpr (h.waiter_live ht)
  refine accounted_priority (by rw [hw.all_list]; exact hl.nodup) (hw₁.settled.queues.nodup .ready) hw
    (hw₁.waits hrun₁ hmem ht₁) fun hready => ?_
  have hwait : t ∈ k₁.queue (.wait s) := ht₁
  cases hw₁.settled.queues.unique (q := .ready) hready hwait

/-- A step from a state whose waiters are in order keeps them so exactly when
the tick does. -/
theorem Wf.step_waiters_ordered {l : Label} (h : Wf k) (hl : Listed k) (hs : prj3.step k l = some k')
    (ho : WaitersOrdered k) : WaitersOrdered k' ↔ KeepsWaiters k l := by
  by_cases htimer : l = .timer
  · subst htimer
    obtain ⟨hon, he⟩ := step_ok hs
    obtain ⟨k₁, hw₁, hw, ho₁, -, rfl⟩ := h.tick hon he
    have hrun := h.switching.not_pending hon
    have hwaiters : ∀ s, ((leave_interrupt (accounted k₁)).sema s).waiters = (k.sema s).waiters :=
      fun s => by
        change ((accounted k₁).sema s).waiters = _
        rw [(accounted_calm k₁).sema, hw.sema]
    have hpriority : ∀ s, ∀ t ∈ (k.sema s).waiters,
        ((leave_interrupt (accounted k₁)).threads t).priority =
          if k.thread_mlfqs = true ∧ (k.ticks + 1) % 4 = 0 then next_priority k t
          else (k.threads t).priority := fun s t ht => by
      rw [(leave_interrupt_keys _ t).priority]
      exact h.tick_waiter_priority hrun hl hw₁ hw ht
    have hordered : WaitersOrdered (leave_interrupt (accounted k₁)) ↔
        ∀ s, (k.sema s).waiters.Pairwise fun a b =>
          (if k.thread_mlfqs = true ∧ (k.ticks + 1) % 4 = 0 then next_priority k b
            else (k.threads b).priority) ≤
          if k.thread_mlfqs = true ∧ (k.ticks + 1) % 4 = 0 then next_priority k a
            else (k.threads a).priority := by
      refine forall_congr' fun s => ?_
      rw [hwaiters, Ordered]
      refine List.Pairwise.iff_of_mem fun {a b} ha hb => ?_
      rw [← hpriority s a ha, ← hpriority s b hb]
      simp [priority_comp]
    rw [hordered]
    by_cases hre : k.thread_mlfqs = true ∧ (k.ticks + 1) % 4 = 0
    · simp only [hre, and_self, if_true, KeepsWaiters, forall_const]
    · simp only [hre, if_false]
      refine iff_of_true (fun s => ?_) fun _ hmlfqs hfour => absurd ⟨hmlfqs, hfour⟩ hre
      exact ordered_priority.mp (ho s)
  · refine iff_of_true (fun s => (h.step_shifts (q := .wait s) htimer hs).ordered (ho s)) fun ht => ?_
    exact absurd ht htimer

/-- In a run whose ticks keep the order of the waiters, they are in order. -/
theorem reachable_waiters_ordered (h : (kernel.restrict KeepsWaiters).Reachable k) : WaitersOrdered k :=
  h.restrict_invariant (I := WaitersOrdered)
    (fun s hs => by
      obtain ⟨mlfqs, aging, t₀, rfl⟩ := hs
      intro s
      cases s <;> exact List.Pairwise.nil)
    fun _ _ _ hr ho hkeeps hs =>
      ((reachable_wf hr).step_waiters_ordered (reachable_listed hr) hs ho).mpr hkeeps

/-! ## The wake-up -/

/-- The step is the running thread's execution of `sema_up` on `s`, from
kernel code or called by its own function. -/
def Ups (k : Kernel) (s : SemaRef) (l : Label) : Prop :=
  (∃ env rest, l = .next env ∧ k.code = .sema_up s :: rest) ∨ ∃ n, l = .call (.sema_up n) ∧ s = .sema n

/-- `t` is taken off the waiters of `s` and made ready. -/
structure Wakes (k k' : Kernel) (s : SemaRef) (t : ThreadId) : Prop where
  waited : t ∈ (k.sema s).waiters
  left : (k'.sema s).waiters = (k.sema s).waiters.erase t
  status : (k'.threads t).status = .THREAD_READY
  ready : t ∈ k'.ready_list

/-- `sema_up` wakes the first waiter. -/
theorem sema_up_wakes {ws : List ThreadId} (hw : (k.sema s).waiters = t :: ws)
    (he : sema_up k s = .ok k') (hne : t ≠ k.current) : Wakes k k' s t := by
  obtain ⟨k₁, hwake, he⟩ := bind_eq_ok_iff.mp he
  obtain rfl := ok_eq_ok.mp he
  rcases sema_wake_ok.mp hwake with ⟨hnone, -⟩ | ⟨u, us, hu, -, -, rfl⟩
  · change (k.sema s).waiters = [] at hnone
    rw [hw] at hnone
    cases hnone
  · change (k.sema s).waiters = u :: us at hu
    obtain ⟨rfl, rfl⟩ : u = t ∧ us = ws := by simpa [hw, eq_comm] using hu.symm
    refine ⟨by simp [hw], ?_, ?_, ?_⟩
    · simp [hw, make_ready, ready_insert]
    · simp [hne, make_ready, ready_insert]
    · exact mem_list_insert_ordered.mpr (.inl rfl)

/-- In a run whose ticks keep the order of the waiters, `sema_up` wakes one of
the waiters of the highest priority. -/
theorem sema_up_wakes_highest (h : (kernel.restrict KeepsWaiters).Reachable k) {l : Label}
    (hups : Ups k s l) (hs : step k l = some k') (hwait : (k.sema s).waiters ≠ []) :
    ∃ t, Wakes k k' s t ∧ ∀ u ∈ (k.sema s).waiters, (k.threads u).priority ≤ (k.threads t).priority := by
  have hw := reachable_wf h.of_restrict
  obtain ⟨-, he⟩ := step_ok hs
  obtain ⟨t, ws, hws⟩ := List.exists_cons_of_ne_nil hwait
  have hrun : k.code.head? ≠ some .schedule := by
    rcases hups with ⟨env, rest, -, hcode⟩ | ⟨n, rfl, -⟩
    · simp [hcode]
    · have hcode := (step_ok hs).1.1
      simp [hcode]
  have hne : t ≠ k.current := hw.ne_current (q := .wait s) hrun (by simp [Kernel.queue, hws])
  refine ⟨t, ?_, fun u hu => ?_⟩
  · rcases hups with ⟨env, rest, rfl, hcode⟩ | ⟨n, rfl, rfl⟩
    · simp only [perform, hcode] at he
      have hwakes := sema_up_wakes (k := k.pop) hws he hne
      exact ⟨hwakes.waited, hwakes.left, hwakes.status, hwakes.ready⟩
    · exact sema_up_wakes hws he hne
  · have ho := ordered_priority.mp (reachable_waiters_ordered h s)
    rw [hws] at ho hu
    rcases List.mem_cons.mp hu with rfl | hu
    · exact le_rfl
    · exact (List.pairwise_cons.mp ho).1 u hu

/-- In mlfqs mode, `main` and then thread 2 wait on semaphore 5 after the first
tick, which was charged to `main`. Thread 3 runs. -/
def two_waiters : List Label :=
  start_up ++ create_two ++ .timer :: .replicate 5 (.next ⟨none, 0⟩) ++
    .call (.sema_down 5) :: .replicate 3 (.next ⟨none, 0⟩) ++
    .call (.sema_down 5) :: .replicate 3 (.next ⟨none, 0⟩)

/-- The theorem at the wake-up of `main`. -/
theorem sema_up_wakes_main : ∃ k k' t, (k.sema (.sema 5)).waiters = [0, 2] ∧
    step k (.call (.sema_up 5)) = some k' ∧ Wakes k k' (.sema 5) t ∧
    ∀ u ∈ (k.sema (.sema 5)).waiters, (k.threads u).priority ≤ (k.threads t).priority := by
  obtain ⟨k, hrun, hk⟩ := exists_of_any
    (checked (fun (k : Kernel) l => decide (l = Label.timer → (k.ticks + 1) % 4 ≠ 0)) step)
    (boot true false 0) two_waiters
    (fun k => (k.sema (.sema 5)).waiters = [0, 2] ∧ (step k (.call (.sema_up 5))).isSome)
    (by decide +kernel)
  obtain ⟨hwaiters, hup⟩ := of_decide_eq_true hk
  obtain ⟨k', hs⟩ := Option.isSome_iff_exists.mp hup
  have hcheck : ∀ (k : Kernel) l, decide (l = Label.timer → (k.ticks + 1) % 4 ≠ 0) = true →
      KeepsWaiters k l := fun k l h ht _ hfour => absurd hfour (of_decide_eq_true h ht)
  have hreach : (kernel.restrict KeepsWaiters).Reachable k :=
    runLabels_checked hcheck ⟨true, false, 0, rfl⟩ hrun
  obtain ⟨t, ht⟩ := sema_up_wakes_highest hreach (.inr ⟨5, rfl, rfl⟩) hs (by simp [hwaiters])
  exact ⟨k, k', t, hwaiters, hs, ht⟩

/-- Three ticks later the priorities have been recomputed, and `sema_up` wakes
`main`, whose priority is below that of the other waiter. -/
theorem sema_up_wakes_lower : ∃ k k', kernel.Reachable k ∧ step k (.call (.sema_up 5)) = some k' ∧
    Wakes k k' (.sema 5) 0 ∧ 2 ∈ (k.sema (.sema 5)).waiters ∧
    (k.threads 0).priority < (k.threads 2).priority := by
  obtain ⟨k, hrun, hk⟩ := exists_of_any step (boot true false 0)
    (two_waiters ++ .timer :: .replicate 5 (.next ⟨none, 0⟩) ++
      .timer :: .replicate 5 (.next ⟨none, 0⟩) ++ .timer :: .replicate 5 (.next ⟨none, 0⟩))
    (fun k => (k.sema (.sema 5)).waiters = [0, 2] ∧ (k.threads 0).priority = 62 ∧
      (k.threads 2).priority = 63 ∧ k.current = 3 ∧ (step k (.call (.sema_up 5))).isSome)
    (by decide +kernel)
  obtain ⟨hwaiters, h0, h2, hcurrent, hup⟩ := of_decide_eq_true hk
  obtain ⟨k', hs⟩ := Option.isSome_iff_exists.mp hup
  refine ⟨k, k', runLabels_reachable ⟨true, false, 0, rfl⟩ hrun, hs, ?_, by simp [hwaiters], by omega⟩
  exact sema_up_wakes hwaiters (step_ok hs).2 (by simp [hcurrent])

end pintos.prj3
