import Pintos.Prj1.IntqContents

/-!
# Runs of the input queue

A reader that takes the lock after it slept on it waits for a byte without a look at the
queue. The queue does what it is for in the runs in which no reader does so while a byte
is there.
-/

open state_error

namespace pintos.prj1

section Steps

variable {s : State} {t : Tid}

/-- A signal to nobody. -/
theorem signal_run {waiter : Waiter} (hholds : waiter.holds s.buffer = true)
    (hnone : waiter.get s.buffer = none) :
    signal waiter s = .ok ((), s) := by
  rw [signal, Exec.bind_run Exec.get_run, Exec.bind_run (Exec.ASSERT_run hholds _), hnone]
  rfl

theorem thread_unblock_run (hblocked : (s.threads t).blocked = true) : thread_unblock t s =
    .ok ((), { s with threads := Function.update s.threads t ⟨(s.threads t).point, false⟩ }) := by
  rw [thread_unblock, Exec.bind_run Exec.get_run, Exec.bind_run (Exec.ASSERT_run hblocked _)]
  rfl

/-- A signal to the reader that sleeps. -/
theorem signal_wakes {waiter : Waiter} (hholds : waiter.holds s.buffer = true)
    (hsome : waiter.get s.buffer = some t) (hblocked : (s.threads t).blocked = true) :
    signal waiter s = .ok ((), { s with
      buffer := waiter.set s.buffer none
      threads := Function.update s.threads t ⟨(s.threads t).point, false⟩ }) := by
  rw [signal, Exec.bind_run Exec.get_run, Exec.bind_run (Exec.ASSERT_run hholds _), hsome]
  dsimp only
  rw [Exec.bind_run (thread_unblock_run hblocked)]
  rfl

/-- A reader that is outside reads or sleeps. -/
theorem Inv.intq_getc (h : Inv (s.without t)) : ∃ s', intq_getc t s = .ok ((), s') ∧ Inv s' := by
  rw [prj1.intq_getc, Exec.bind_run Exec.get_run]
  cases hempty : intq_empty s.buffer with
  | true =>
    have hheld : s.buffer.lock.holder ≠ some t := fun hheld => by
      have hpoint := (h.core.readers.holder t).mp hheld
      simp [State.without] at hpoint
    rw [if_pos rfl, Exec.bind_run (Exec.ASSERT_run hheld _)]
    exact h.core.acquire_and_wait fun _ => hempty
  | false =>
    have hvalid : s.buffer.Valid := h.core.valid
    have hsleeper : s.buffer.not_empty = none := by
      by_contra hne
      have htrue := h.core.sleeper hne
      exact Bool.false_ne_true (hempty.symm.trans htrue)
    have hholds : Waiter.holds { s.buffer with tail := next s.buffer.tail } .not_full = true := by
      rw [Waiter.holds, not_full_of_get hvalid hempty]
      rfl
    have hsignal : signal .not_full { s with buffer := { s.buffer with tail := next s.buffer.tail } } = _ :=
      signal_run hholds h.core.not_full
    rw [if_neg Bool.false_ne_true, modify_buffer, Exec.bind_run (Exec.modify_run _), Exec.bind_run hsignal,
      set_thread, Exec.bind_run (Exec.modify_run _), Exec.modify_run]
    refine ⟨_, rfl, ⟨⟨hvalid.head, next_lt _⟩, ?_, h.core.not_full, h.core.value, ?_,
      h.core.readers⟩, h.pending⟩
    · have hfifo : s.put = s.got.map Prod.snd ++ s.buffer.contents := h.core.fifo
      rw [hfifo, contents_get hvalid hempty]
      simp
    · intro hne
      contradiction

theorem sema_up_nil (hwaiters : s.buffer.lock.semaphore.waiters = []) : sema_up s =
    .ok ((), { s with buffer.lock.semaphore.value := s.buffer.lock.semaphore.value + 1 }) := by
  rw [sema_up, Exec.bind_run Exec.get_run, hwaiters]
  rfl

theorem sema_up_cons {waiters : List Tid} (hwaiters : s.buffer.lock.semaphore.waiters = t :: waiters)
    (hblocked : (s.threads t).blocked = true) : sema_up s = .ok ((), { s with
      buffer.lock.semaphore := ⟨s.buffer.lock.semaphore.value + 1, waiters⟩
      threads := Function.update s.threads t ⟨(s.threads t).point, false⟩ }) := by
  rw [sema_up, Exec.bind_run Exec.get_run, hwaiters]
  dsimp only
  rw [modify_buffer, Exec.bind_run (Exec.modify_run _)]
  refine (Exec.bind_run (thread_unblock_run ?_)).trans rfl
  exact hblocked

/-- The reader that holds the lock lets it go. -/
theorem Inv.lock_release (h : Inv s) (hpoint : (s.threads t).point = .in_wait)
    (hblocked : (s.threads t).blocked = false) :
    ∃ s', lock_release t s = .ok ((), s') ∧ Inv (s'.without t) := by
  have hreaders := h.core.readers
  have hheld := (hreaders.holder t).mpr hpoint
  have hvalue : s.buffer.lock.semaphore.value + 1 = 1 := by
    rw [h.core.value, hheld]
    rfl
  have hsleeper : s.buffer.not_empty = none := by
    by_contra hne
    obtain ⟨u, hu⟩ := Option.ne_none_iff_exists'.mp hne
    obtain ⟨hwait, hsleeps⟩ := (hreaders.sleeper u).mp hu
    obtain rfl : u = t := Option.some.inj (((hreaders.holder u).mpr hwait).symm.trans hheld)
    exact Bool.false_ne_true (hblocked.symm.trans hsleeps)
  have hvalid : s.buffer.Valid := h.core.valid
  rw [hheld] at hreaders
  rw [prj1.lock_release, Exec.bind_run Exec.get_run, Exec.bind_run (Exec.ASSERT_run hheld _), modify_buffer,
    Exec.bind_run (Exec.modify_run _)]
  cases hwaiters : s.buffer.lock.semaphore.waiters with
  | nil =>
    rw [hwaiters, hsleeper] at hreaders
    refine ⟨_, sema_up_nil hwaiters,
      ⟨⟨hvalid.head, hvalid.tail⟩, h.core.fifo, h.core.not_full, hvalue, h.core.sleeper, ?_⟩, ?_⟩
    · simp only [State.without, hwaiters, hsleeper]
      exact hreaders.lets_go
    · intro hne
      contradiction
  | cons u waiters =>
    rw [hwaiters, hsleeper] at hreaders
    obtain ⟨hdown, hslept⟩ := (hreaders.waiters u).mp List.mem_cons_self
    have hne : u ≠ t := fun hut => by
      rw [hut, hpoint] at hdown
      contradiction
    refine ⟨_, sema_up_cons hwaiters hslept,
      ⟨⟨hvalid.head, hvalid.tail⟩, h.core.fifo, h.core.not_full, hvalue, h.core.sleeper, ?_⟩, ?_⟩
    · simp only [State.without, hsleeper]
      exact hreaders.unblocks.lets_go
    · intro _
      exact .inr ⟨u, by simp [State.without, hne, hdown]⟩

/-- A handler puts a byte. -/
theorem Inv.put (h : Inv s) (hfull : intq_full s.buffer = false) (byte : BitVec 8) :
    ∃ s', (Action.put byte).exec s = .ok ((), s') ∧ Inv s' := by
  have hvalid := h.core.valid.push byte
  have hfifo : s.put ++ [byte] = s.got.map Prod.snd ++ (s.buffer.push byte).contents := by
    rw [contents_put h.core.valid hfull, ← List.append_assoc, ← h.core.fifo]
  have hholds : Waiter.holds (s.buffer.push byte) .not_empty = true := by
    rw [Waiter.holds, not_empty_of_put hfull byte]
    rfl
  have hreaders := h.core.readers
  rw [Action.exec, Exec.bind_run (Exec.modify_run _), intq_putc, modify_buffer,
    Exec.bind_run (Exec.modify_run _)]
  obtain hsleeper | ⟨t, hsleeper⟩ := Option.eq_none_or_eq_some s.buffer.not_empty
  · refine ⟨_, signal_run hholds hsleeper, ⟨hvalid, hfifo, h.core.not_full, h.core.value, ?_,
      hreaders⟩, h.pending⟩
    intro hne
    contradiction
  · rw [hsleeper] at hreaders
    obtain ⟨hpoint, hblocked⟩ := (hreaders.sleeper t).mp rfl
    have hheld : s.buffer.lock.holder ≠ none := by
      rw [(hreaders.holder t).mpr hpoint]
      exact Option.some_ne_none t
    refine ⟨_, signal_wakes hholds hsleeper hblocked,
      ⟨⟨hvalid.head, hvalid.tail⟩, hfifo, h.core.not_full, h.core.value, ?_, hreaders.wakes⟩,
      fun _ => .inl hheld⟩
    intro hne
    contradiction

end Steps

/-- A reader that slept on the lock does not take it while there is a byte. -/
def Action.Safe (s : State) : Action → Prop
  | resume t => (s.threads t).point = .in_sema_down → s.buffer.lock.semaphore.value ≠ 0 →
      intq_empty s.buffer = true
  | _ => True

section Runs

variable {s : State} {garbage : Nat → BitVec 8}

theorem Inv.init : Inv (init garbage) := by
  have hpos : 0 < INTQ_BUFSIZE := by decide
  refine ⟨⟨⟨hpos, hpos⟩, by simp [prj1.init, intq.contents, intq.size], rfl, rfl, fun hne => absurd rfl hne, ?_⟩, fun hne => absurd rfl hne⟩
  exact ⟨List.nodup_nil, by simp [prj1.init], by simp [prj1.init], by simp [prj1.init], by simp [prj1.init]⟩

/-- A step that can be taken and is safe. -/
theorem Inv.exec {action : Action} (h : Inv s) (henabled : action.Enabled s) (hsafe : action.Safe s) :
    ∃ s', action.exec s = .ok ((), s') ∧ Inv s' := by
  cases action with
  | call t =>
    have hblocked := h.core.readers.outside t henabled
    have hthread : s.threads t = ⟨.outside, false⟩ := by
      rw [← hblocked, ← henabled]
    rw [← without_of_outside hthread] at h
    exact h.intq_getc
  | resume t =>
    obtain ⟨hinside, hblocked⟩ := henabled
    rw [Action.exec, Exec.bind_run Exec.get_run]
    cases hpoint : (s.threads t).point with
    | outside => contradiction
    | in_sema_down =>
      have hcore : Core (s.without t) :=
        { h.core with readers := h.core.readers.leaves hpoint hblocked }
      exact hcore.acquire_and_wait (hsafe hpoint)
    | in_wait =>
      obtain ⟨s', hrelease, hinv⟩ := h.lock_release hpoint hblocked
      dsimp only
      rw [Exec.bind_run hrelease]
      exact hinv.intq_getc
  | put byte => exact h.put henabled byte

/-- A step that is not safe. -/
theorem exec_of_not_safe {action : Action} (hsafe : ¬action.Safe s) :
    action.exec s = .error .wait_condition := by
  cases action with
  | call t => exact absurd trivial hsafe
  | put byte => exact absurd trivial hsafe
  | resume t =>
    simp only [Action.Safe, not_forall, Bool.not_eq_true] at hsafe
    obtain ⟨hpoint, hvalue, hempty⟩ := hsafe
    rw [Action.exec, Exec.bind_run Exec.get_run, hpoint]
    exact acquire_and_wait_fails hvalue hempty

theorem run_concat (action : Action) (before : List Action) : run s (before ++ [action]) =
    (run s before).bind fun s => run s [action] := by
  induction before generalizing s with
  | nil => rfl
  | cons first before ih =>
    rw [List.cons_append, run, run]
    split
    · cases first.exec s with
      | error e => rfl
      | ok r => exact ih
    · rfl

/-- A step that ends well. -/
theorem run_single {action : Action} {s' : State} (henabled : action.Enabled s)
    (hexec : action.exec s = .ok ((), s')) :
    run s [action] = some s' := by
  rw [run, if_pos henabled, hexec]
  rfl

theorem run_single_of_error {action : Action} {e : Failed} (hexec : action.exec s = .error e) :
    run s [action] = none := by
  rw [run]
  split
  · rw [hexec]
  · rfl

/-- What a schedule reaches without a false `ASSERT` satisfies the invariant. -/
theorem Inv.run {actions : List Action} {s' : State} (h : Inv s) (hrun : run s actions = some s') : Inv s' := by
  induction actions generalizing s with
  | nil =>
    obtain rfl := Option.some.inj hrun
    exact h
  | cons action actions ih =>
    rw [prj1.run] at hrun
    split at hrun
    case isFalse => contradiction
    case isTrue henabled =>
      by_cases hsafe : action.Safe s
      · obtain ⟨t, hexec, hinv⟩ := h.exec henabled hsafe
        rw [hexec] at hrun
        exact ih hinv hrun
      · rw [exec_of_not_safe hsafe] at hrun
        contradiction

end Runs

/-- What the queue is for: bytes are returned once and in the order in which they were put,
and a reader that slept does not go on sleeping while there is a byte. -/
structure Good (s : State) : Prop where
  fifo : s.put = s.got.map Prod.snd ++ s.buffer.contents
  awake : s.buffer.contents ≠ [] → ∀ t, (s.threads t).point = .in_wait → (s.threads t).blocked = false
  progress : s.buffer.contents ≠ [] → (∃ t, (s.threads t).blocked = true) →
    ∃ t, (s.threads t).point ≠ .outside ∧ (s.threads t).blocked = false

theorem Inv.good {s : State} (h : Inv s) : Good s := by
  have hreaders := h.core.readers
  have hawake : s.buffer.contents ≠ [] → ∀ t, (s.threads t).point = .in_wait →
      (s.threads t).blocked = false := by
    intro hcontents t hpoint
    by_contra hblocked
    have hsleeper := (hreaders.sleeper t).mpr ⟨hpoint, by simpa using hblocked⟩
    have hempty := h.core.sleeper (by simp [hsleeper])
    exact hcontents ((intq_empty_iff h.core.valid).mp hempty)
  refine ⟨h.core.fifo, hawake, ?_⟩
  rintro hcontents ⟨t, hblocked⟩
  cases hpoint : (s.threads t).point with
  | outside => simp [hreaders.outside t hpoint] at hblocked
  | in_wait => simp [hawake hcontents t hpoint] at hblocked
  | in_sema_down =>
    have hmem := (hreaders.waiters t).mpr ⟨hpoint, hblocked⟩
    obtain hheld | ⟨u, hu, hready⟩ := h.pending (List.ne_nil_of_mem hmem)
    · obtain ⟨u, hu⟩ := Option.ne_none_iff_exists'.mp hheld
      have hwait := (hreaders.holder u).mp hu
      exact ⟨u, by simp [hwait], hawake hcontents u hwait⟩
    · exact ⟨u, by simp [hu], hready⟩

/-- In a schedule the queue does what it is for, without a false `ASSERT`, if and only if no
reader takes the lock that it slept on while there is a byte. -/
theorem input_queue_correct_iff (garbage : Nat → BitVec 8) (actions : List Action) :
    (∀ before action s, before ++ [action] <+: actions → run (init garbage) before = some s → action.Enabled s →
      ∃ s', run (init garbage) (before ++ [action]) = some s' ∧ Good s') ↔
    ∀ before action s, before ++ [action] <+: actions → run (init garbage) before = some s → action.Enabled s →
      action.Safe s := by
  constructor
  · intro h before action s hpre hrun henabled
    by_contra hsafe
    obtain ⟨s', hrun', _⟩ := h before action s hpre hrun henabled
    rw [run_concat, hrun, Option.bind_some, run_single_of_error (exec_of_not_safe hsafe)] at hrun'
    contradiction
  · intro h before action s hpre hrun henabled
    have hinv := Inv.init.run hrun
    obtain ⟨s', hexec, hinv'⟩ := hinv.exec henabled (h before action s hpre hrun henabled)
    refine ⟨s', ?_, hinv'.good⟩
    rw [run_concat, hrun]
    exact run_single henabled hexec

/-- Two readers sleep, one waiting for a byte and one for the lock. Two bytes are put, and
the second reader finds the lock free and a byte in the queue. -/
theorem second_reader_panics : ∃ before action s, run (init fun _ => 0) before = some s ∧ action.Enabled s ∧
    run (init fun _ => 0) (before ++ [action]) = none ∧ action.exec s = .error .wait_condition := by
  refine ⟨[.call 0, .call 1, .put 1, .put 2, .resume 0], .resume 1, _, rfl, ?_, rfl, ?_⟩
  · decide
  · rfl

end pintos.prj1
