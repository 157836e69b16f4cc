import Pintos.Prj1.Intq
import Mathlib.Data.List.Nodup
import Mathlib.Data.List.Range

/-!
# The bytes in the input queue

The ring buffer as a sequence, and what the invariant of the queue and its readers says.
-/

open state_error

namespace pintos.prj1

/-- The number of bytes in the queue. -/
def intq.size (q : intq) : Nat := (q.head + INTQ_BUFSIZE - q.tail) % INTQ_BUFSIZE

/-- The bytes in the queue, in the order in which they were put. -/
def intq.contents (q : intq) : List (BitVec 8) :=
  (List.range q.size).map fun i => q.buf ((q.tail + i) % INTQ_BUFSIZE)

/-- The indices are inside the buffer. -/
structure intq.Valid (q : intq) : Prop where
  head : q.head < INTQ_BUFSIZE
  tail : q.tail < INTQ_BUFSIZE

/-- The queue with one more byte. -/
def intq.push (q : intq) (byte : BitVec 8) : intq :=
  { q with buf := Function.update q.buf q.head byte, head := next q.head }

section Contents

variable {q : intq}

theorem next_lt (pos : Nat) : next pos < INTQ_BUFSIZE := Nat.mod_lt _ (by decide)

theorem intq.Valid.push (hq : q.Valid) (byte : BitVec 8) : (q.push byte).Valid :=
  ⟨next_lt q.head, hq.tail⟩

theorem intq_empty_iff (hq : q.Valid) : intq_empty q = true ↔ q.contents = [] := by
  obtain ⟨hhead, htail⟩ := hq
  rw [intq_empty, decide_eq_true_iff, intq.contents, List.map_eq_nil_iff, List.range_eq_nil, intq.size]
  rw [INTQ_BUFSIZE] at *
  omega

/-- The bytes after one is put. -/
theorem contents_put (hq : q.Valid) (hfull : intq_full q = false) (byte : BitVec 8) :
    (q.push byte).contents = q.contents ++ [byte] := by
  obtain ⟨hhead, htail⟩ := hq
  rw [intq_full, decide_eq_false_iff_not, next] at hfull
  have hsize : (q.push byte).size = q.size + 1 := by
    simp only [intq.size, intq.push, next]
    rw [INTQ_BUFSIZE] at *
    omega
  rw [intq.contents, hsize, List.range_succ, List.map_append, intq.contents]
  congr 1
  · apply List.map_congr_left
    intro i hi
    rw [List.mem_range, intq.size] at hi
    apply Function.update_of_ne
    change (q.tail + i) % INTQ_BUFSIZE ≠ q.head
    rw [INTQ_BUFSIZE] at *
    omega
  · have hlast : (q.tail + q.size) % INTQ_BUFSIZE = q.head := by
      rw [intq.size]
      rw [INTQ_BUFSIZE] at *
      omega
    simp [intq.push, hlast]

/-- The bytes before one is taken. -/
theorem contents_get (hq : q.Valid) (hempty : intq_empty q = false) :
    q.contents = q.buf q.tail :: intq.contents { q with tail := next q.tail } := by
  obtain ⟨hhead, htail⟩ := hq
  rw [intq_empty, decide_eq_false_iff_not] at hempty
  have hsize : q.size = intq.size { q with tail := next q.tail } + 1 := by
    simp only [intq.size, next]
    rw [INTQ_BUFSIZE] at *
    omega
  rw [intq.contents, hsize, List.range_succ_eq_map, List.map_cons, List.map_map, intq.contents]
  congr 1
  · rw [Nat.add_zero, Nat.mod_eq_of_lt htail]
  · apply List.map_congr_left
    intro i _
    simp only [Function.comp_apply, next]
    congr 1
    rw [INTQ_BUFSIZE]
    omega

theorem not_full_of_get (hq : q.Valid) (hempty : intq_empty q = false) :
    intq_full { q with tail := next q.tail } = false := by
  obtain ⟨hhead, htail⟩ := hq
  rw [intq_empty, decide_eq_false_iff_not] at hempty
  rw [intq_full, decide_eq_false_iff_not]
  simp only [next]
  rw [INTQ_BUFSIZE] at *
  omega

theorem not_empty_of_put (hfull : intq_full q = false) (byte : BitVec 8) :
    intq_empty (q.push byte) = false := by
  rw [intq_full, decide_eq_false_iff_not] at hfull
  rw [intq_empty, decide_eq_false_iff_not]
  exact hfull

end Contents

/-- Where the readers are: the one that has the lock, those that sleep on it and the one
that sleeps on the queue. -/
structure Readers (holder : Option Tid) (waiters : List Tid) (sleeper : Option Tid) (threads : Tid → thread) :
    Prop where
  nodup : waiters.Nodup
  holder : ∀ t, holder = some t ↔ (threads t).point = .in_wait
  waiters : ∀ t, t ∈ waiters ↔ (threads t).point = .in_sema_down ∧ (threads t).blocked = true
  sleeper : ∀ t, sleeper = some t ↔ (threads t).point = .in_wait ∧ (threads t).blocked = true
  outside : ∀ t, (threads t).point = .outside → (threads t).blocked = false

/-- Readers sleep on the lock only while it is held, or one of them is on its way to take it. -/
def Pending (holder : Option Tid) (waiters : List Tid) (threads : Tid → thread) : Prop :=
  waiters ≠ [] → holder ≠ none ∨ ∃ t, (threads t).point = .in_sema_down ∧ (threads t).blocked = false

section Readers

variable {holder sleeper : Option Tid} {waiters : List Tid} {threads : Tid → thread} {t : Tid}

/-- A reader sleeps on the lock. -/
theorem Readers.sleeps (h : Readers holder waiters sleeper (Function.update threads t ⟨.outside, false⟩)) :
    Readers holder (waiters ++ [t]) sleeper (Function.update threads t ⟨.in_sema_down, true⟩) := by
  refine ⟨?_, fun u => ?_, fun u => ?_, fun u => ?_, fun u => ?_⟩
  · have ht := h.waiters t
    rw [Function.update_self] at ht
    rw [← List.concat_eq_append]
    exact List.Nodup.concat (fun hmem => nomatch (ht.mp hmem).1) h.nodup
  · have hu := h.holder u
    by_cases htu : u = t <;> simp_all
  · have hu := h.waiters u
    by_cases htu : u = t <;> simp_all
  · have hu := h.sleeper u
    by_cases htu : u = t <;> simp_all
  · have hu := h.outside u
    by_cases htu : u = t <;> simp_all

/-- A reader takes the lock and sleeps on the queue. -/
theorem Readers.takes (h : Readers none waiters sleeper (Function.update threads t ⟨.outside, false⟩)) :
    Readers (some t) waiters (some t) (Function.update threads t ⟨.in_wait, true⟩) := by
  refine ⟨h.nodup, fun u => ?_, fun u => ?_, fun u => ?_, fun u => ?_⟩
  · have hu := h.holder u
    by_cases htu : u = t <;> simp_all [Ne.symm]
  · have hu := h.waiters u
    by_cases htu : u = t <;> simp_all
  · have hu := h.holder u
    by_cases htu : u = t <;> simp_all [Ne.symm]
  · have hu := h.outside u
    by_cases htu : u = t <;> simp_all

/-- The reader that sleeps on the queue is unblocked. -/
theorem Readers.wakes (h : Readers holder waiters (some t) threads) :
    Readers holder waiters none (Function.update threads t ⟨(threads t).point, false⟩) := by
  obtain ⟨hpoint, hblocked⟩ := (h.sleeper t).mp rfl
  refine ⟨h.nodup, fun u => ?_, fun u => ?_, fun u => ?_, fun u => ?_⟩
  · have hu := h.holder u
    by_cases htu : u = t <;> simp_all
  · have hu := h.waiters u
    by_cases htu : u = t <;> simp_all
  · have hu := h.sleeper u
    by_cases htu : u = t <;> simp_all [Ne.symm]
  · have hu := h.outside u
    by_cases htu : u = t <;> simp_all

/-- The reader that slept on the lock first is unblocked. -/
theorem Readers.unblocks (h : Readers holder (t :: waiters) sleeper threads) :
    Readers holder waiters sleeper (Function.update threads t ⟨(threads t).point, false⟩) := by
  obtain ⟨hpoint, hblocked⟩ := (h.waiters t).mp List.mem_cons_self
  obtain ⟨hnot, hnodup⟩ := List.nodup_cons.mp h.nodup
  refine ⟨hnodup, fun u => ?_, fun u => ?_, fun u => ?_, fun u => ?_⟩
  · have hu := h.holder u
    by_cases htu : u = t <;> simp_all
  · have hu := h.waiters u
    by_cases htu : u = t <;> simp_all
  · have hu := h.sleeper u
    by_cases htu : u = t <;> simp_all
  · have hu := h.outside u
    by_cases htu : u = t <;> simp_all

/-- The reader that holds the lock lets it go. -/
theorem Readers.lets_go (h : Readers (some t) waiters none threads) :
    Readers none waiters none (Function.update threads t ⟨.outside, false⟩) := by
  have hpoint := (h.holder t).mp rfl
  refine ⟨h.nodup, fun u => ?_, fun u => ?_, fun u => ?_, fun u => ?_⟩
  · have hu := h.holder u
    by_cases htu : u = t <;> simp_all [Ne.symm]
  · have hu := h.waiters u
    by_cases htu : u = t <;> simp_all
  · have hu := h.holder u
    by_cases htu : u = t <;> simp_all [Ne.symm]
  · have hu := h.outside u
    by_cases htu : u = t <;> simp_all

/-- A reader that was unblocked and looks for the lock again. -/
theorem Readers.leaves (h : Readers holder waiters sleeper threads) (hpoint : (threads t).point = .in_sema_down)
    (hblocked : (threads t).blocked = false) :
    Readers holder waiters sleeper (Function.update threads t ⟨.outside, false⟩) := by
  refine ⟨h.nodup, fun u => ?_, fun u => ?_, fun u => ?_, fun u => ?_⟩
  · have hu := h.holder u
    by_cases htu : u = t <;> simp_all
  · have hu := h.waiters u
    by_cases htu : u = t <;> simp_all
  · have hu := h.sleeper u
    by_cases htu : u = t <;> simp_all
  · have hu := h.outside u
    by_cases htu : u = t <;> simp_all

end Readers

/-- The invariant, apart from what wakes the readers that sleep on the lock. -/
structure Core (s : State) : Prop where
  valid : s.buffer.Valid
  fifo : s.put = s.got.map Prod.snd ++ s.buffer.contents
  not_full : s.buffer.not_full = none
  value : s.buffer.lock.semaphore.value = if s.buffer.lock.holder.isSome then 0 else 1
  sleeper : s.buffer.not_empty ≠ none → intq_empty s.buffer = true
  readers : Readers s.buffer.lock.holder s.buffer.lock.semaphore.waiters s.buffer.not_empty s.threads

/-- The invariant. -/
structure Inv (s : State) : Prop where
  core : Core s
  pending : Pending s.buffer.lock.holder s.buffer.lock.semaphore.waiters s.threads

/-- The reader is taken as one that is outside. -/
def State.without (s : State) (t : Tid) : State :=
  { s with threads := Function.update s.threads t ⟨.outside, false⟩ }

section Steps

variable {s : State} {t : Tid}

/-- What a sequence of computations does, by the end of its first part. -/
theorem bind_apply {α β : Type} (f : Kernel α) (g : α → Kernel β) (s : State) :
    (f >>= g) s = match f s with
      | .ok (a, s) => g a s
      | .error e => .error e := by
  cases h : f s with
  | error e => exact Exec.bind_error h
  | ok r => exact Exec.bind_run h

/-- A reader that does not get the lock sleeps. -/
theorem acquire_and_wait_sleeps (hvalue : s.buffer.lock.semaphore.value = 0) : acquire_and_wait t s =
    .ok ((), { s with
      buffer := { s.buffer with lock.semaphore.waiters := s.buffer.lock.semaphore.waiters ++ [t] }
      threads := Function.update s.threads t ⟨.in_sema_down, true⟩ }) := by
  simp [acquire_and_wait, sema_down, bind_apply, hvalue, modify_buffer, thread_block, set_thread]

/-- A reader that gets the lock waits for a byte. -/
theorem acquire_and_wait_waits (hvalue : s.buffer.lock.semaphore.value ≠ 0)
    (hempty : intq_empty s.buffer = true) :
    acquire_and_wait t s = .ok ((), { s with
      buffer := { s.buffer with
        lock := ⟨some t, { s.buffer.lock.semaphore with value := s.buffer.lock.semaphore.value - 1 }⟩
        not_empty := some t }
      threads := Function.update s.threads t ⟨.in_wait, true⟩ }) := by
  simp [acquire_and_wait, sema_down, bind_apply, hvalue, modify_buffer, thread_block, set_thread, wait,
    Exec.ASSERT, Waiter.holds, Waiter.set, intq_empty] at hempty ⊢
  simp [hempty]

/-- A reader that gets the lock while there is a byte does not. -/
theorem acquire_and_wait_fails (hvalue : s.buffer.lock.semaphore.value ≠ 0)
    (hempty : intq_empty s.buffer = false) :
    acquire_and_wait t s = .error .wait_condition := by
  have hfalse : ¬s.buffer.head = s.buffer.tail := by simpa [intq_empty] using hempty
  simp [acquire_and_wait, sema_down, bind_apply, hvalue, modify_buffer, wait, Exec.ASSERT, Waiter.holds,
    intq_empty, hfalse]
  rfl

/-- A reader that is outside can be taken as outside. -/
theorem without_of_outside (hpoint : s.threads t = ⟨.outside, false⟩) : s.without t = s := by
  rw [State.without, ← hpoint, Function.update_eq_self]

/-- The lock is held or it is free. -/
theorem Core.value_cases (h : Core s) :
    (s.buffer.lock.semaphore.value = 0 ∧ s.buffer.lock.holder ≠ none) ∨
      (s.buffer.lock.semaphore.value = 1 ∧ s.buffer.lock.holder = none) := by
  have hvalue := h.value
  cases hholder : s.buffer.lock.holder with
  | none => exact .inr ⟨by simpa [hholder] using hvalue, rfl⟩
  | some u => exact .inl ⟨by simpa [hholder] using hvalue, by simp⟩

/-- A reader that takes the lock or sleeps on it keeps the invariant. -/
theorem Core.acquire_and_wait (h : Core (s.without t))
    (hsafe : s.buffer.lock.semaphore.value ≠ 0 → intq_empty s.buffer = true) :
    ∃ s', acquire_and_wait t s = .ok ((), s') ∧ Inv s' := by
  have hreaders := h.readers
  obtain ⟨hzero, hheld⟩ | ⟨hone, hfree⟩ := h.value_cases
  · refine ⟨_, acquire_and_wait_sleeps hzero,
      ⟨⟨h.valid.head, h.valid.tail⟩, h.fifo, h.not_full, h.value, h.sleeper, hreaders.sleeps⟩,
      fun _ => .inl hheld⟩
  · have hvalue : s.buffer.lock.semaphore.value ≠ 0 := fun hzero => by
      have hone : s.buffer.lock.semaphore.value = 1 := hone
      omega
    have hempty := hsafe hvalue
    rw [hfree] at hreaders
    refine ⟨_, acquire_and_wait_waits hvalue hempty,
      ⟨⟨h.valid.head, h.valid.tail⟩, h.fifo, h.not_full, ?_, fun _ => hempty, hreaders.takes⟩,
      fun _ => .inl (by simp)⟩
    change s.buffer.lock.semaphore.value - 1 = 0
    exact Nat.sub_eq_zero_of_le (Nat.le_of_eq hone)

end Steps

end pintos.prj1
