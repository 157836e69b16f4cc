import Pintos.Prj3.FixedPoint
import Pintos.Kernel.List
import Mathlib.Tactic.Simps.Basic

/-!
# The kernel state (`threads/thread.h`, `threads/synch.h`)

A thread is the address of the page that holds its `struct thread`. The kernel
stack of a thread that is switched away is the list of instructions it has
still to execute; an empty list means that the thread runs its own function.
-/

open twos_complement pintos.kernel

namespace pintos.prj3

/-- Address of the page of a `struct thread`. -/
abbrev ThreadId := Nat

inductive IntrLevel where
  | INTR_OFF
  | INTR_ON
  deriving DecidableEq, Repr

inductive ThreadStatus where
  | THREAD_RUNNING
  | THREAD_READY
  | THREAD_BLOCKED
  | THREAD_DYING
  deriving DecidableEq, Repr

/-- The function a thread executes: `idle`, or any other kernel code. -/
inductive ThreadFunc where
  | idle
  | other
  deriving DecidableEq, Repr

/-- Address of a `struct lock`. -/
inductive LockRef where
  | tid_lock
  | pool_lock
  | lock (n : Nat)
  deriving DecidableEq, Repr

/-- Address of a `struct semaphore`: the one on the stack of `thread_start`,
the one inside a lock, the one on the stack of a thread in `cond_wait`, or any
other. -/
inductive SemaRef where
  | idle_started
  | lock (l : LockRef)
  | waiter (t : ThreadId)
  | sema (n : Nat)
  deriving DecidableEq, Repr

/-- Address of a `struct condition`. -/
abbrev CondRef := Nat

/-- The frames whose return to the caller is marked, with the locals that
matter there. -/
inductive Frame where
  | thread_create (tid : Option ThreadId)
  | thread_set_priority
  | thread_set_nice
  | thread_block
  | thread_sleep
  | timer_sleep (start ticks : Int)
  | timer_interrupt
  | sema_down (s : SemaRef)
  | sema_try_down (s : SemaRef) (success : Bool)
  | sema_up (s : SemaRef)
  | lock_acquire (l : LockRef)
  | lock_try_acquire (l : LockRef) (success : Bool)
  | lock_release (l : LockRef)
  | cond_wait (c : CondRef) (l : LockRef)
  | cond_signal (c : CondRef) (l : LockRef)
  | cond_broadcast (c : CondRef) (l : LockRef)
  deriving DecidableEq, Repr

/-- What a thread has still to execute. Each instruction is the code between
two points at which an interrupt can be taken, or a piece of it. -/
inductive Instr where
  | intr_set_level (level : IntrLevel)
  | schedule
  | ret (f : Frame)
  | kernel_thread (f : ThreadFunc)
  | idle
  | idle_loop
  | thread_yield
  | thread_block
  | thread_unblock (t : ThreadId)
  | thread_exit
  | thread_create (priority : Int) (f : ThreadFunc)
  | palloc_get_page (priority : Int) (f : ThreadFunc)
  | init_thread (t : ThreadId) (priority : Int) (f : ThreadFunc)
  | next_tid (t : ThreadId)
  | set_tid (t : ThreadId) (tid : Int)
  | inherit (t : ThreadId)
  | alloc_frames (t : ThreadId) (f : ThreadFunc)
  | thread_set_priority (new_priority : Int)
  | thread_set_nice (nice : Int)
  | recompute_priority
  | store_priority (priority : Int)
  | preempt_test (priority : Option Int)
  | max_priority_in_ready (priority : Option Int)
  | compare_front (priority : Option Int) (e : Option ThreadId)
  | thread_sleep (alarm_ticks : Int)
  | timer_sleep (ticks : Int)
  | timer_sleep_from (start ticks : Int)
  | sema_init (s : SemaRef) (value : Nat)
  | sema_down (s : SemaRef)
  | sema_down_loop (s : SemaRef)
  | sema_try_down (s : SemaRef)
  | sema_up (s : SemaRef)
  | lock_acquire (l : LockRef)
  | set_holder (l : LockRef)
  | lock_try_acquire (l : LockRef)
  | lock_release (l : LockRef)
  | cond_wait (c : CondRef) (l : LockRef)
  | cond_signal (c : CondRef) (l : LockRef)
  | cond_broadcast (c : CondRef) (l : LockRef)
  deriving DecidableEq, Repr

/-- `struct thread`. `magic` tells whether the member has its proper value, and
`arrival` is a history variable: the number of insertions into `ready_list`
before the thread's last one. -/
structure Thread where
  tid : Int
  status : ThreadStatus
  priority : Int
  alarm_ticks : Int
  recent_cpu : Int
  nice : Int
  magic : Bool
  code : List Instr
  arrival : Nat
  deriving DecidableEq, Repr

/-- A zeroed page read as a `struct thread`. -/
def Thread.zero : Thread where
  tid := 0
  status := .THREAD_RUNNING
  priority := 0
  alarm_ticks := 0
  recent_cpu := 0
  nice := 0
  magic := false
  code := []
  arrival := 0

structure Semaphore where
  value : Nat
  waiters : List ThreadId
  deriving DecidableEq, Repr

/-- The kernel's memory and the processor's interrupt flag. `used_map` is the
set of pages handed out by the page allocator. -/
structure Kernel where
  thread_mlfqs : Bool
  thread_prior_aging : Bool
  used_map : ThreadId → Bool
  threads : ThreadId → Thread
  current : ThreadId
  ready_list : List ThreadId
  all_list : List ThreadId
  sleep_list : List ThreadId
  idle_thread : Option ThreadId
  initial_thread : ThreadId
  next_tid : Int
  thread_ticks : Nat
  load_avg : Int
  ticks : Int
  sema : SemaRef → Semaphore
  holder : LockRef → Option ThreadId
  cond_waiters : CondRef → List SemaRef
  intr_level : IntrLevel
  in_external_intr : Bool
  yield_on_return : Bool
  arrivals : Nat

/-- The assertions and checks whose failure stops the kernel. -/
inductive Assertion where
  | is_thread
  | status_running
  | status_not_running
  | status_blocked
  | not_intr_context
  | intr_context
  | intr_off
  | intr_on
  | priority_range
  | lock_held
  | lock_not_held
  | page_in_use
  deriving DecidableEq, Repr

/-- `ASSERT`. -/
def ASSERT (p : Prop) [Decidable p] (a : Assertion) : Except Assertion Unit :=
  if p then .ok () else .error a

theorem ASSERT_ok_iff {p : Prop} [Decidable p] {a : Assertion} {u : Unit} :
    ASSERT p a = .ok u ↔ p := by
  unfold ASSERT
  split <;> simp_all

theorem bind_eq_ok_iff {A B : Type} {x : Except Assertion A} {f : A → Except Assertion B} {b : B} :
    (x >>= f) = .ok b ↔ ∃ a, x = .ok a ∧ f a = .ok b := by
  cases x <;> simp [Bind.bind, Except.bind]

/-! ## Access to one thread, semaphore, lock or condition -/

@[simps]
def Kernel.update (k : Kernel) (t : ThreadId) (f : Thread → Thread) : Kernel :=
  { k with threads := fun u => if u = t then f (k.threads t) else k.threads u }

@[simps]
def Kernel.set_sema (k : Kernel) (s : SemaRef) (v : Semaphore) : Kernel :=
  { k with sema := fun s' => if s' = s then v else k.sema s' }

@[simps]
def Kernel.set_holder (k : Kernel) (l : LockRef) (h : Option ThreadId) : Kernel :=
  { k with holder := fun l' => if l' = l then h else k.holder l' }

@[simps]
def Kernel.set_cond (k : Kernel) (c : CondRef) (w : List SemaRef) : Kernel :=
  { k with cond_waiters := fun c' => if c' = c then w else k.cond_waiters c' }

/-- The instructions the running thread has still to execute. -/
def Kernel.code (k : Kernel) : List Instr := (k.threads k.current).code

@[simps]
def Thread.set_code (th : Thread) (code : List Instr) : Thread := { th with code }

/-- Give the running thread other instructions to execute. -/
@[simps]
def Kernel.set_code (k : Kernel) (code : List Instr) : Kernel :=
  { k with threads := fun u => if u = k.current then (k.threads k.current).set_code code else k.threads u }

/-- Put instructions in front of the running thread's code. -/
abbrev Kernel.push (k : Kernel) (is : List Instr) : Kernel := k.set_code (is ++ k.code)

/-- Drop the running thread's next instruction. -/
abbrev Kernel.pop (k : Kernel) : Kernel := k.set_code k.code.tail

@[simp] theorem Kernel.code_set_code (k : Kernel) (code : List Instr) :
    (k.set_code code).code = code := by
  simp [Kernel.code]

theorem Kernel.set_code_self (k : Kernel) : k.set_code k.code = k := by
  cases k
  simp only [Kernel.set_code, Kernel.code, Kernel.mk.injEq, and_self, and_true, true_and]
  funext u
  split
  · rename_i h
    rw [h]
    rfl
  · rfl

theorem Kernel.set_code_set_code (k : Kernel) (code code' : List Instr) :
    (k.set_code code).set_code code' = k.set_code code' := by
  simp only [Kernel.set_code, ↓reduceIte, Kernel.mk.injEq, and_self, and_true, true_and]
  funext u
  split <;> rfl

end pintos.prj3
