import Pintos.Lib.StateError
import Mathlib.Logic.Function.Basic

/-!
# The input queue (`devices/intq.c`, `devices/input.c`)

Readers run with interrupts off. A reader gives up the processor where it sleeps, in
`sema_down` or in `wait`, and goes on from there when it has been unblocked. Between
these points it runs alone; interrupt handlers put bytes while no reader runs.
-/

open state_error

namespace pintos.prj1

abbrev Tid := Nat

/-- `INTQ_BUFSIZE`. -/
def INTQ_BUFSIZE : Nat := 64

structure semaphore where
  value : Nat
  waiters : List Tid
  deriving DecidableEq, Repr

structure lock where
  holder : Option Tid
  semaphore : semaphore
  deriving DecidableEq, Repr

structure intq where
  lock : lock
  not_full : Option Tid
  not_empty : Option Tid
  buf : Nat → BitVec 8
  head : Nat
  tail : Nat

/-- Where a reader goes on. -/
inductive Point where
  | outside
  | in_sema_down
  | in_wait
  deriving DecidableEq, Repr

/-- A reader. -/
structure thread where
  point : Point
  blocked : Bool
  deriving DecidableEq, Repr

/-- The queue and its readers. `put` and `got` are history variables: the bytes put, and
the bytes returned with the readers that called. -/
structure State where
  buffer : intq
  threads : Tid → thread
  put : List (BitVec 8)
  got : List (Tid × BitVec 8)

/-- A false `ASSERT`. -/
inductive Failed where
  | wait_condition
  | signal_condition
  | unblock_running
  | acquire_held
  | release_not_held
  deriving DecidableEq, Repr

abbrev Kernel (α : Type) := Exec State Failed α

/-- `next`. -/
def next (pos : Nat) : Nat := (pos + 1) % INTQ_BUFSIZE

/-- `intq_empty`. -/
def intq_empty (q : intq) : Bool := q.head = q.tail

/-- `intq_full`. -/
def intq_full (q : intq) : Bool := next q.head = q.tail

/-- The address of a member of the queue, and the condition that it stands for. -/
inductive Waiter where
  | not_full
  | not_empty
  deriving DecidableEq, Repr

/-- `*waiter`. -/
def Waiter.get (q : intq) : Waiter → Option Tid
  | not_full => q.not_full
  | not_empty => q.not_empty

/-- `*waiter = t`. -/
def Waiter.set (q : intq) (t : Option Tid) : Waiter → intq
  | not_full => { q with not_full := t }
  | not_empty => { q with not_empty := t }

/-- What the condition is. -/
def Waiter.holds (q : intq) : Waiter → Bool
  | not_full => !intq_full q
  | not_empty => !intq_empty q

/-- Changes the queue. -/
def modify_buffer (f : intq → intq) : Kernel Unit := Exec.modify fun s => { s with buffer := f s.buffer }

/-- Changes a reader. -/
def set_thread (t : Tid) (thread : thread) : Kernel Unit :=
  Exec.modify fun s => { s with threads := Function.update s.threads t thread }

/-- `thread_block`, at the given point. -/
def thread_block (t : Tid) (point : Point) : Kernel Unit := set_thread t ⟨point, true⟩

/-- `thread_unblock`. -/
def thread_unblock (t : Tid) : Kernel Unit := do
  let s ← Exec.get
  Exec.ASSERT ((s.threads t).blocked = true) .unblock_running
  set_thread t ⟨(s.threads t).point, false⟩

/-- `wait`, until the thread sleeps. -/
def wait (t : Tid) (waiter : Waiter) : Kernel Unit := do
  let s ← Exec.get
  Exec.ASSERT (waiter.holds s.buffer = false) .wait_condition
  modify_buffer fun q => waiter.set q (some t)
  thread_block t .in_wait

/-- `signal`. -/
def signal (waiter : Waiter) : Kernel Unit := do
  let s ← Exec.get
  Exec.ASSERT (waiter.holds s.buffer = true) .signal_condition
  match waiter.get s.buffer with
  | some t => do
    thread_unblock t
    modify_buffer fun q => waiter.set q none
  | none => return ()

/-- The loop of `sema_down` on the lock, until it ends or the thread sleeps: whether it
ends. -/
def sema_down (t : Tid) : Kernel Bool := do
  let s ← Exec.get
  let sema := s.buffer.lock.semaphore
  if sema.value = 0 then
    modify_buffer fun q => { q with lock.semaphore.waiters := sema.waiters ++ [t] }
    thread_block t .in_sema_down
    return false
  else
    modify_buffer fun q => { q with lock.semaphore.value := sema.value - 1 }
    return true

/-- `sema_up` on the lock. -/
def sema_up : Kernel Unit := do
  let s ← Exec.get
  match s.buffer.lock.semaphore.waiters with
  | [] => pure ()
  | t :: waiters => do
    modify_buffer fun q => { q with lock.semaphore.waiters := waiters }
    thread_unblock t
  modify_buffer fun q => { q with lock.semaphore.value := q.lock.semaphore.value + 1 }

/-- The rest of `lock_acquire` from `sema_down` on, and `wait`, until the thread sleeps. -/
def acquire_and_wait (t : Tid) : Kernel Unit := do
  if ← sema_down t then
    modify_buffer fun q => { q with lock.holder := some t }
    wait t .not_empty
  else return ()

/-- `lock_release`. -/
def lock_release (t : Tid) : Kernel Unit := do
  let s ← Exec.get
  Exec.ASSERT (s.buffer.lock.holder = some t) .release_not_held
  modify_buffer fun q => { q with lock.holder := none }
  sema_up

/-- `intq_getc` from the test of its loop on, until it returns or the thread sleeps. -/
def intq_getc (t : Tid) : Kernel Unit := do
  let s ← Exec.get
  if intq_empty s.buffer then
    Exec.ASSERT (s.buffer.lock.holder ≠ some t) .acquire_held
    acquire_and_wait t
  else
    let byte := s.buffer.buf s.buffer.tail
    modify_buffer fun q => { q with tail := next q.tail }
    signal .not_full
    set_thread t ⟨.outside, false⟩
    Exec.modify fun s => { s with got := s.got ++ [(t, byte)] }

/-- `intq_putc` of an interrupt handler, with room for the byte. -/
def intq_putc (byte : BitVec 8) : Kernel Unit := do
  modify_buffer fun q => { q with buf := Function.update q.buf q.head byte, head := next q.head }
  signal .not_empty

/-- A step: a reader calls `input_getc`, a reader that is ready goes on, or an interrupt
handler calls `input_putc`. -/
inductive Action where
  | call (t : Tid)
  | resume (t : Tid)
  | put (byte : BitVec 8)
  deriving DecidableEq, Repr

/-- The step can be taken. -/
def Action.Enabled (s : State) : Action → Prop
  | call t => (s.threads t).point = .outside
  | resume t => (s.threads t).point ≠ .outside ∧ (s.threads t).blocked = false
  | put _ => intq_full s.buffer = false

instance (s : State) (action : Action) : Decidable (action.Enabled s) :=
  match action with
  | .call t => inferInstanceAs (Decidable ((s.threads t).point = .outside))
  | .resume t => inferInstanceAs (Decidable ((s.threads t).point ≠ .outside ∧ (s.threads t).blocked = false))
  | .put _ => inferInstanceAs (Decidable (intq_full s.buffer = false))

def Action.exec : Action → Kernel Unit
  | call t => intq_getc t
  | resume t => do
    let s ← Exec.get
    match (s.threads t).point with
    | .outside => return ()
    | .in_sema_down => acquire_and_wait t
    | .in_wait => do
      lock_release t
      intq_getc t
  | put byte => do
    Exec.modify fun s => { s with put := s.put ++ [byte] }
    intq_putc byte

/-- `intq_init`, with nobody reading. -/
def init (garbage : Nat → BitVec 8) : State where
  buffer :=
    { lock := ⟨none, ⟨1, []⟩⟩, not_full := none, not_empty := none, buf := garbage, head := 0, tail := 0 }
  threads := fun _ => ⟨.outside, false⟩
  put := []
  got := []

/-- A schedule: where every step can be taken and no `ASSERT` fails, the state it ends in. -/
def run (s : State) : List Action → Option State
  | [] => some s
  | action :: actions =>
    if action.Enabled s then
      match action.exec s with
      | .ok (_, s) => run s actions
      | .error _ => none
    else none

end pintos.prj1
