import Pintos.Prj3.Broadcasts

/-!
# The order in which signals wake

`cond_wait` puts a thread at the back of the waiters and `cond_signal` takes the
front: threads are woken in the order in which they came. That is an order of
priority as long as they come in such an order.
-/

open twos_complement pintos.kernel transition monitor

namespace pintos.prj3

variable {k k' k₁ : Kernel} {env : Env} {i : Instr} {rest : List Instr} {t u : ThreadId} {l : Label}
  {c : CondRef} {lk : LockRef}

/-! ## The priority that an instruction can change -/

/-- The thread whose priority the instruction can change. -/
def Instr.reprioritizes (k : Kernel) (env : Env) : Instr → Option ThreadId
  | .store_priority _ | .thread_set_priority _ => some k.current
  | .schedule => if (k.threads k.current).status = .THREAD_DYING then some k.current else none
  | .palloc_get_page _ _ => env.page
  | .init_thread t _ _ => some t
  | _ => none

theorem push_priority (k : Kernel) (is : List Instr) (t : ThreadId) :
    ((k.push is).threads t).priority = (k.threads t).priority :=
  (set_code_keys k _ t).priority

theorem update_keeps_priority (k : Kernel) (u t : ThreadId) {f : Thread → Thread}
    (hf : ∀ th, (f th).priority = th.priority) :
    ((k.update u f).threads t).priority = (k.threads t).priority := by
  by_cases h : t = u <;> simp [h, hf]

theorem make_ready_priority (k : Kernel) (u t : ThreadId) :
    ((make_ready k u).threads t).priority = (k.threads t).priority := by
  by_cases h : t = u <;> simp [make_ready, ready_insert, h]

theorem block_priority (k : Kernel) (is : List Instr) (t : ThreadId) :
    ((block k is).threads t).priority = (k.threads t).priority := by
  rw [block, push_priority]
  exact update_keeps_priority k k.current t fun _ => rfl

/-- No other priority is changed. -/
theorem exec_priority (he : exec k env i = .ok k') (ht : i.reprioritizes k env ≠ some t) :
    (k'.threads t).priority = (k.threads t).priority := by
  cases i with
  | thread_set_priority p =>
    have hne : t ≠ k.current := fun h => ht (congrArg some h.symm)
    simp only [exec, thread_current_bind_ok, ok_eq_ok] at he
    obtain ⟨-, -, rfl⟩ := he
    rw [push_priority]
    simp [hne]
  | store_priority p =>
    have hne : t ≠ k.current := fun h => ht (congrArg some h.symm)
    obtain rfl := ok_eq_ok.mp he
    simp [hne]
  | schedule =>
    obtain ⟨next, -, -, -, -, hk'⟩ := schedule_ok.mp he
    have hswitch : ((switch_to k next).threads t).priority = (k.threads t).priority :=
      update_keeps_priority k next t (f := fun th => { th with status := .THREAD_RUNNING }) fun _ => rfl
    obtain ⟨-, rfl⟩ | ⟨hf, -, rfl⟩ := hk'
    · exact hswitch
    · have hne : t ≠ k.current := by
        rintro rfl
        simp [Instr.reprioritizes, hf.2.1] at ht
      rw [← hswitch]
      simp only [free_page, Kernel.update]
      rw [if_neg hne]
  | palloc_get_page p f =>
    obtain rfl := ok_eq_ok.mp he
    unfold palloc_get_page
    split
    · exact push_priority _ _ _
    · rename_i u hu
      have hne : t ≠ u := fun h => ht (h ▸ hu)
      rw [push_priority]
      simp only [Kernel.update]
      rw [if_neg hne]
  | init_thread u p f =>
    obtain ⟨-, rfl⟩ := init_thread_ok.mp he
    have hne : t ≠ u := fun h => ht (congrArg some h.symm)
    rw [push_priority]
    simp only [init_page, Kernel.update]
    rw [if_neg hne]
  | thread_yield =>
    obtain ⟨k₁, hy, he⟩ := bind_eq_ok_iff.mp he
    obtain ⟨-, -, -, rfl⟩ := thread_yield_ok.mp hy
    obtain rfl := ok_eq_ok.mp he
    rw [push_priority, update_keeps_priority]
    · split
      · exact update_keeps_priority _ _ _ (f := fun th => { th with arrival := k.arrivals }) fun _ => rfl
      · rfl
    · exact fun _ => rfl
  | thread_unblock u =>
    obtain ⟨-, -, rfl⟩ := thread_unblock_ok.mp he
    exact make_ready_priority k u t
  | thread_block =>
    obtain ⟨k₁, hb, he⟩ := bind_eq_ok_iff.mp he
    obtain ⟨-, -, -, -, rfl⟩ := thread_block_ok.mp hb
    obtain rfl := ok_eq_ok.mp he
    exact block_priority k _ t
  | sema_up s =>
    obtain ⟨k₁, hwake, he⟩ := bind_eq_ok_iff.mp he
    obtain rfl := ok_eq_ok.mp he
    rw [push_priority]
    obtain ⟨-, rfl⟩ | ⟨u, ws, -, -, -, rfl⟩ := sema_wake_ok.mp hwake
    · rfl
    · exact make_ready_priority _ u t
  | sema_down_loop s =>
    by_cases hv : (k.sema s).value = 0
    · obtain ⟨-, -, -, -, rfl⟩ := (sema_down_loop_ok hv).mp he
      exact block_priority _ _ t
    · simp only [exec, sema_down_loop, if_neg hv, ok_eq_ok] at he
      rw [he]
      rfl
  | thread_sleep n =>
    obtain ⟨-, -, -, -, rfl⟩ := thread_sleep_ok.mp he
    rw [block_priority]
    exact update_keeps_priority k k.current t (f := fun th => { th with alarm_ticks := int32 n }) fun _ => rfl
  | _ =>
    simp only [exec, sema_try_down, thread_exit, alloc_frames, ASSERT_bind_ok, thread_current_bind_ok] at he
    repeat' split at he
    all_goals
      simp only [ok_eq_ok] at he
      simp only [he, push_priority, Kernel.set_sema, Kernel.set_holder, Kernel.set_cond]
      try exact update_keeps_priority _ _ t fun _ => rfl

/-! ## The waiters of a condition -/

theorem reachable_waiting (h : kernel.Reachable k) (hu : u ∈ waiting k c) :
    ∃ lk, route (k.threads u).code = .waiting c lk := by
  obtain ⟨a, ha⟩ : ∃ a, with_cond_history.Reachable (k, a) := h.observed
  have hvalid := reachable_monitor ha
  have hpoint := hvalid.waiting_of_queued ((hvalid.queued u c).mp hu)
  cases hr : route (k.threads u).code with
  | waiting c' lk =>
    simp only [monitor_of, hr, Route.point, Point.waiting.injEq] at hpoint
    exact ⟨lk, by rw [hpoint]⟩
  | _ => simp [monitor_of, hr, Route.point] at hpoint

/-- Only the timer interrupt changes the priority of a thread that waits for a condition. -/
theorem waiting_priority (h : kernel.Reachable k) (hu : u ∈ waiting k c) (htimer : l ≠ .timer)
    (hs : step k l = some k') : (k'.threads u).priority = (k.threads u).priority := by
  obtain ⟨lk, hroute⟩ := reachable_waiting h hu
  have hw := reachable_wf h
  have hrouted := reachable_codes routed_rule h u
  have hcode : (k.threads u).code ≠ [] := by
    intro hnil
    rw [hnil] at hroute
    cases hroute
  obtain ⟨henabled, he⟩ := step_ok hs
  cases l with
  | timer => exact absurd rfl htimer
  | call c' =>
    refine exec_priority (t := u) he fun hre => ?_
    have hcurrent : u = k.current := by cases c' <;> simp_all [Call.instr, Instr.reprioritizes]
    exact hcode (hcurrent ▸ henabled.1)
  | next env =>
    obtain ⟨i, rest, hnext⟩ := List.exists_cons_of_ne_nil henabled.1
    simp only [perform, hnext] at he
    have hpop : (k.pop.threads u).priority = (k.threads u).priority := (set_code_keys k _ u).priority
    rw [← hpop]
    refine exec_priority (t := u) he fun hre => ?_
    have hcur : (k.threads k.current).code = i :: rest := hnext
    cases i with
    | store_priority p | thread_set_priority p =>
      obtain rfl : k.current = u := Option.some.inj hre
      rw [hcur] at hroute hrouted
      have hout : route rest = .out := hrouted.1 rfl
      rw [route_cons, hout] at hroute
      cases hroute
    | schedule =>
      -- A dying thread has nothing left but its last call of `schedule`.
      simp only [Instr.reprioritizes] at hre
      split at hre
      · next hdying =>
        obtain rfl : k.current = u := Option.some.inj hre
        have hplace : place k k.current = .dying :=
          place_dying.mpr ⟨hw.settled.current, (set_code_status k _ k.current) ▸ hdying⟩
        obtain ⟨-, hnil⟩ | ⟨-, hlast⟩ := hw.settled.dying k.current hplace
        · exact hcode hnil
        · have hlast' : (k.threads k.current).code = [.schedule] := hlast
          rw [hlast'] at hroute
          cases hroute
      · cases hre
    | palloc_get_page p f =>
      obtain ⟨hfree, hne⟩ := henabled.2 u hre
      refine hcode (hw.settled.unused u fun hthread => ?_)
      obtain hused | hinitial := hw.settled.used u hthread
      · rw [hfree] at hused
        cases hused
      · exact hne hinitial
    | init_thread u' p f =>
      obtain rfl : u' = u := Option.some.inj hre
      have hunused := hw.creators.target k.current (.init_thread u' p f) (by simp [hcur]) u' _ rfl
      exact hcode (hw.settled.unused u' (place_eq_unused.mp hunused))
    | _ => cases hre

/-! ## The order -/

/-- The priority that a thread has after the next tick, without mlfqs. -/
def ripe_priority (k : Kernel) (t : ThreadId) : Int :=
  if k.thread_prior_aging = true ∧ t ∈ run_queue k then (age (k.threads t)).priority
  else (k.threads t).priority

theorem tick_ripe_priority (h : kernel.Reachable k) (hmlfqs : k.thread_mlfqs = false)
    (hs : step k .timer = some k') (t : ThreadId) : (k'.threads t).priority = ripe_priority k t := by
  obtain ⟨hon, he⟩ := step_ok hs
  obtain ⟨k₁, hw₁, hw, -, -, rfl⟩ := (reachable_wf h).tick hon he
  have hmode : k₁.thread_mlfqs = false := by rw [hw.modes.1, hmlfqs]
  rw [(leave_interrupt_keys _ t).priority, accounted, if_neg (by simp [hmode]), ripened, hw.modes.2,
    ripe_priority]
  by_cases haging : k.thread_prior_aging = true
  · have hnodup : k₁.ready_list.Nodup := hw₁.settled.queues.nodup .ready
    rw [if_pos haging, aged, foldl_update _ hnodup]
    simp only [hw.mem_ready, haging, true_and]
    split
    · simp only [age, hw.priority]
    · exact hw.priority t
  · rw [if_neg haging, if_neg fun h => haging h.1]
    exact hw.priority t

/-- The waiters of a condition are in order of priority. -/
def SignalsInOrder (c : CondRef) (k : Kernel) : Prop :=
  (waiting k c).Pairwise fun a b => (k.threads b).priority ≤ (k.threads a).priority

/-- A thread that starts to wait has no higher priority than those that wait already,
and a tick with aging leaves the waiters in the order of their priorities. -/
def ComesInOrder (c : CondRef) (k : Kernel) (l : Label) : Prop :=
  (∀ lk, k.executes l = some (.cond_wait c lk) →
    ∀ u ∈ waiting k c, (k.threads k.current).priority ≤ (k.threads u).priority) ∧
    (l = .timer → k.thread_prior_aging = true →
      (waiting k c).Pairwise fun a b => ripe_priority k b ≤ ripe_priority k a)

instance (c : CondRef) (k : Kernel) (l : Label) : Decidable (ComesInOrder c k l) :=
  decidable_of_iff
    ((∀ i ∈ k.executes l, (match i with | .cond_wait c' _ => decide (c' = c) | _ => false) = true →
      ∀ u ∈ waiting k c, (k.threads k.current).priority ≤ (k.threads u).priority) ∧
      (l = .timer → k.thread_prior_aging = true →
        (waiting k c).Pairwise fun a b => ripe_priority k b ≤ ripe_priority k a))
    (and_congr_left' ⟨fun h lk hi => h _ hi (by simp), fun h i hi hwait => by
      cases i with
      | cond_wait c' lk =>
        obtain rfl : c' = c := of_decide_eq_true hwait
        exact h lk hi
      | _ => cases hwait⟩)

theorem executes_timer (k : Kernel) : k.executes .timer = none := rfl

/-- A step from a state whose waiters are in order keeps them so exactly when the
step comes in order. -/
theorem step_signals_in_order (h : kernel.Reachable k) (hmlfqs : k.thread_mlfqs = false)
    (hs : step k l = some k') (ho : SignalsInOrder c k) : SignalsInOrder c k' ↔ ComesInOrder c k l := by
  have hsync := (reachable_wf h).step_syncs hs
  by_cases htimer : l = .timer
  · subst htimer
    have hwaiting : waiting k' c = waiting k c :=
      hsync.waiting (fun _ => by simp [executes_timer]) fun _ => by simp [executes_timer]
    rw [SignalsInOrder, hwaiting]
    simp only [tick_ripe_priority h hmlfqs hs]
    constructor
    · exact fun hripe => ⟨fun _ hi => by simp [executes_timer] at hi, fun _ _ => hripe⟩
    · rintro ⟨-, htick⟩
      by_cases haging : k.thread_prior_aging = true
      · exact htick rfl haging
      · refine ho.imp fun {a b} hab => ?_
        simpa [ripe_priority, haging] using hab
  · have hkept : ∀ u ∈ waiting k c, (k'.threads u).priority = (k.threads u).priority :=
      fun u hu => waiting_priority h hu htimer hs
    have hcame (hno : ∀ lk, k.executes l ≠ some (.cond_wait c lk)) : ComesInOrder c k l :=
      ⟨fun lk hi => absurd hi (hno lk), fun ht => absurd ht htimer⟩
    by_cases hwait : ∃ lk, k.executes l = some (.cond_wait c lk)
    · obtain ⟨lk, hi⟩ := hwait
      have hwaiting : waiting k' c = waiting k c ++ [k.current] := by
        rw [waiting, hsync.cond_waiters, hi, Option.elim_some, waiting]
        simp [Instr.cond_after, SemaRef.owner]
      have hcurrent : (k'.threads k.current).priority = (k.threads k.current).priority := by
        obtain ⟨env, rest, -, he⟩ := step_exec hs hi
        rw [exec_priority (t := k.current) he (by simp [Instr.reprioritizes])]
        exact (set_code_keys k rest k.current).priority
      rw [SignalsInOrder, hwaiting, List.pairwise_append]
      constructor
      · rintro ⟨-, -, hlast⟩
        refine ⟨fun _ _ u hu => ?_, fun ht => absurd ht htimer⟩
        rw [← hcurrent, ← hkept u hu]
        exact hlast u hu k.current (by simp)
      · rintro ⟨hcomes, -⟩
        refine ⟨ho.imp_of_mem fun {a b} ha hb hab => ?_, List.pairwise_singleton _ _, fun u hu v hv => ?_⟩
        · rw [hkept a ha, hkept b hb]
          exact hab
        · obtain rfl := List.mem_singleton.mp hv
          rw [hcurrent, hkept u hu]
          exact hcomes lk hi u hu
    · have hno : ∀ lk, k.executes l ≠ some (.cond_wait c lk) := fun lk hi => hwait ⟨lk, hi⟩
      have hsub : (waiting k' c).Sublist (waiting k c) := by
        by_cases hsignal : ∃ lk, k.executes l = some (.cond_signal c lk)
        · obtain ⟨lk, hi⟩ := hsignal
          rw [waiting, hsync.cond_waiters, hi, Option.elim_some, waiting]
          simp only [Instr.cond_after, if_true]
          exact (List.tail_sublist _).filterMap _
        · rw [hsync.waiting hno fun lk hi => hsignal ⟨lk, hi⟩]
      refine iff_of_true ?_ (hcame hno)
      refine (ho.sublist hsub).imp_of_mem fun {a b} ha hb hab => ?_
      rw [hkept a (hsub.subset ha), hkept b (hsub.subset hb)]
      exact hab

/-- The scheduler mode is set at boot. -/
theorem step_mlfqs (h : kernel.Reachable k) (hs : step k l = some k') : k'.thread_mlfqs = k.thread_mlfqs := by
  by_cases htimer : l = .timer
  · subst htimer
    obtain ⟨hon, he⟩ := step_ok hs
    obtain ⟨k₁, -, hw, -, -, rfl⟩ := (reachable_wf h).tick hon he
    exact (accounted_calm k₁).modes.1.trans hw.modes.1
  · exact ((reachable_wf h).step_effect htimer hs).modes.1

/-- A run without mlfqs in which the waiters of `c` come in order has them in order. -/
theorem reachable_signals_in_order (h : (kernel.restrict (ComesInOrder c)).Reachable k)
    (hmlfqs : k.thread_mlfqs = false) : SignalsInOrder c k := by
  refine h.restrict_invariant (I := fun k => k.thread_mlfqs = false → SignalsInOrder c k) (fun s hs => ?_)
    (fun k l k' hr ho hcomes hs hm => ?_) hmlfqs
  · obtain ⟨mlfqs, aging, t₀, rfl⟩ := hs
    exact fun _ => List.Pairwise.nil
  · have hmode : k.thread_mlfqs = false := (step_mlfqs hr hs).symm.trans hm
    exact (step_signals_in_order hr hmode hs (ho hmode)).mpr hcomes

/-- The signal takes `t` off the waiters of `c`, and its caller ups `t`'s semaphore next. -/
structure SignalWakes (k k' : Kernel) (c : CondRef) (t : ThreadId) : Prop where
  waited : t ∈ waiting k c
  left : waiting k' c = (waiting k c).erase t
  up : k'.code.head? = some (.sema_up (.waiter t))

/-- `cond_signal` wakes the first waiter. -/
theorem cond_signal_takes_first (h : kernel.Reachable k) (hi : k.executes l = some (.cond_signal c lk))
    (hs : step k l = some k') {ts : List ThreadId} (hts : waiting k c = t :: ts) : SignalWakes k k' c t := by
  have hwaiters := reachable_cond_waiters h
  obtain ⟨env, rest, -, he⟩ := step_exec hs hi
  cases hlist : k.cond_waiters c with
  | nil => simp [waiting, hlist] at hts
  | cons w ws =>
    obtain ⟨u, rfl⟩ := hwaiters c w (by simp [hlist])
    have hts' : u :: ws.filterMap SemaRef.owner = t :: ts := by
      rw [← hts, waiting, hlist]
      rfl
    obtain ⟨rfl, hws⟩ := List.cons.inj hts'
    refine ⟨by simp [hts], ?_, ?_⟩
    · rw [waiting, ((reachable_wf h).step_syncs hs).cond_waiters, hi, Option.elim_some, hts,
        List.erase_cons_head]
      simp [Instr.cond_after, hlist, hws]
    · have hsame : (k.set_code rest).cond_waiters c = .waiter u :: ws := hlist
      simp only [exec, ASSERT_bind_ok, thread_current_bind_ok, hsame, ok_eq_ok] at he
      obtain ⟨-, -, -, -, rfl⟩ := he
      simp

/-- In a run without mlfqs in which the waiters of a condition come in order of
priority, `cond_signal` wakes one of the waiters of the highest priority. -/
theorem cond_signal_wakes_highest (h : (kernel.restrict (ComesInOrder c)).Reachable k)
    (hmlfqs : k.thread_mlfqs = false) (hi : k.executes l = some (.cond_signal c lk))
    (hs : step k l = some k') (hwait : waiting k c ≠ []) :
    ∃ t, SignalWakes k k' c t ∧ ∀ u ∈ waiting k c, (k.threads u).priority ≤ (k.threads t).priority := by
  obtain ⟨t, ts, hts⟩ := List.exists_cons_of_ne_nil hwait
  have ho := reachable_signals_in_order h hmlfqs
  refine ⟨t, ?_, fun u hu => ?_⟩
  · have hreach : kernel.Reachable k := h.of_restrict
    exact cond_signal_takes_first hreach hi hs hts
  · rw [SignalsInOrder, hts] at ho
    rw [hts] at hu
    obtain rfl | hu := List.mem_cons.mp hu
    · exact le_refl _
    · exact (List.pairwise_cons.mp ho).1 u hu

/-- `main` creates a thread of the given priority on page `t` that takes lock 0 and waits for
condition 0. -/
def create_waiter_at (priority : Int) (t : ThreadId) : List Label :=
  .call (.thread_create priority) :: .replicate 8 (.next ⟨some t, 0⟩) ++ .replicate 32 (.next ⟨none, 0⟩) ++
    acquire_lock ++ .call (.cond_wait 0 0) :: .replicate 13 (.next ⟨none, 0⟩)

/-- The theorem when a thread of priority 50 waits before one of priority 40. -/
theorem cond_signal_wakes_fifty : ∃ k k' t, waiting k 0 = [2, 3] ∧ step k (.call (.cond_signal 0 0)) = some k' ∧
    SignalWakes k k' 0 t ∧ ∀ u ∈ waiting k 0, (k.threads u).priority ≤ (k.threads t).priority := by
  obtain ⟨k, hrun, hk⟩ := exists_of_any (checked (fun k l => decide (ComesInOrder 0 k l)) step)
    (boot false false 0)
    (start_up ++ create_waiter_at 50 2 ++ create_waiter_at 40 3 ++ acquire_lock)
    (fun k => waiting k 0 = [2, 3] ∧ k.thread_mlfqs = false ∧ (step k (.call (.cond_signal 0 0))).isSome)
    (by decide +kernel)
  obtain ⟨hwaiting, hmlfqs, hsignal⟩ := of_decide_eq_true hk
  obtain ⟨k', hs⟩ := Option.isSome_iff_exists.mp hsignal
  have hreach : (kernel.restrict (ComesInOrder 0)).Reachable k :=
    runLabels_checked (fun _ _ h => of_decide_eq_true h) ⟨false, false, 0, rfl⟩ hrun
  have hexecutes : k.executes (.call (.cond_signal 0 0)) = some (.cond_signal 0 (.lock 0)) := rfl
  obtain ⟨t, ht⟩ := cond_signal_wakes_highest hreach hmlfqs hexecutes hs (by simp [hwaiting])
  exact ⟨k, k', t, hwaiting, hs, ht⟩

/-- A thread of priority 40 that waits before one of priority 50 is woken first. -/
theorem cond_signal_wakes_lower : ∃ k k', kernel.Reachable k ∧ k.thread_mlfqs = false ∧
    step k (.call (.cond_signal 0 0)) = some k' ∧ SignalWakes k k' 0 2 ∧ 3 ∈ waiting k 0 ∧
    (k.threads 2).priority < (k.threads 3).priority := by
  obtain ⟨k, hrun, hk⟩ := exists_of_any step (boot false false 0)
    (start_up ++ create_waiter_at 40 2 ++ create_waiter_at 50 3 ++ acquire_lock)
    (fun k => waiting k 0 = [2, 3] ∧ (k.threads 2).priority = 40 ∧ (k.threads 3).priority = 50 ∧
      k.thread_mlfqs = false ∧ (step k (.call (.cond_signal 0 0))).isSome)
    (by decide +kernel)
  obtain ⟨hwaiting, h2, h3, hmlfqs, hsignal⟩ := of_decide_eq_true hk
  obtain ⟨k', hs⟩ := Option.isSome_iff_exists.mp hsignal
  have hreach : kernel.Reachable k := runLabels_reachable ⟨false, false, 0, rfl⟩ hrun
  have hexecutes : k.executes (.call (.cond_signal 0 0)) = some (.cond_signal 0 (.lock 0)) := rfl
  exact ⟨k, k', hreach, hmlfqs, hs, cond_signal_takes_first hreach hexecutes hs hwaiting,
    by simp [hwaiting], by omega⟩

end pintos.prj3
