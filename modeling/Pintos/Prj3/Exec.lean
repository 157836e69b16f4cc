import Pintos.Lib.Transition
import Pintos.Prj3.Scheduler

/-!
# Execution of kernel code (`threads/thread.c`, `threads/synch.c`, `devices/timer.c`)

`exec` executes one instruction of the running thread; a call puts the callee's
instructions in front of the caller's. `step` adds what the environment decides:
which function a thread calls next, which page the allocator finds, and when
the timer interrupts.
-/

open twos_complement pintos.kernel transition

namespace pintos.prj3

/-- What the environment supplies to an instruction: the page found by the
allocator, and the word that a read through the tail of `ready_list` returns. -/
structure Env where
  page : Option ThreadId
  sentinel : Int
  deriving DecidableEq, Repr

/-- The waiting part of `sema_down`: one turn of its loop. -/
def sema_down_loop (k : Kernel) (s : SemaRef) : Except Assertion Kernel := do
  if (k.sema s).value = 0 then
    let cur ← thread_current k
    let k := k.set_sema s { k.sema s with
      waiters := list_insert_ordered (priority_comp k) cur (k.sema s).waiters }
    let k ← thread_block k
    .ok (k.push [.schedule, .sema_down_loop s])
  else .ok (k.set_sema s { k.sema s with value := (k.sema s).value - 1 })

/-- The first half of `sema_up`: wake the first waiter and increment the value. -/
def sema_wake (k : Kernel) (s : SemaRef) : Except Assertion Kernel :=
  match (k.sema s).waiters with
  | [] => .ok k
  | t :: rest => thread_unblock (k.set_sema s { k.sema s with waiters := rest }) t

/-- `sema_up` up to its call of `thread_yield`. -/
def sema_up (k : Kernel) (s : SemaRef) : Except Assertion Kernel := do
  let old_level := k.intr_level
  let k ← sema_wake { k with intr_level := .INTR_OFF } s
  let k := k.set_sema s { k.sema s with value := ((k.sema s).value + 1) % 2 ^ 32 }
  .ok (k.push [.thread_yield, .intr_set_level old_level, .ret (.sema_up s)])

/-- `sema_try_down`. -/
def sema_try_down (k : Kernel) (s : SemaRef) : Kernel × Bool :=
  if (k.sema s).value > 0 then
    (k.set_sema s { k.sema s with value := (k.sema s).value - 1 }, true)
  else (k, false)

/-- `thread_sleep`. -/
def thread_sleep (k : Kernel) (alarm_ticks : Int) : Except Assertion Kernel := do
  let cur ← thread_current k
  let k := k.update cur fun th => { th with alarm_ticks := int32 alarm_ticks }
  let k := { k with sleep_list := list_insert_ordered (alarm_ticks_comp k) cur k.sleep_list }
  let k ← thread_block k
  .ok (k.push [.schedule, .ret .thread_sleep])

/-- `thread_exit` up to its call of `schedule`. -/
def thread_exit (k : Kernel) : Except Assertion Kernel := do
  ASSERT (k.in_external_intr = false) .not_intr_context
  let k := { k with intr_level := .INTR_OFF }
  let cur ← thread_current k
  let k := { k with all_list := k.all_list.erase cur }
  .ok (k.update cur fun th => { th with status := .THREAD_DYING, code := [.schedule] })

/-- `palloc_get_page`, between the acquisition and the release of the pool's
lock. The page goes to `init_thread`; without one `thread_create` returns
`TID_ERROR`. -/
def palloc_get_page (k : Kernel) (priority : Int) (f : ThreadFunc) (page : Option ThreadId) :
    Kernel :=
  match page with
  | none => k.push [.lock_release .pool_lock, .ret (.thread_create none)]
  | some t =>
    let k := { k.update t (fun _ => .zero) with used_map := fun u => if u = t then true else k.used_map u }
    k.push [.lock_release .pool_lock, .init_thread t priority f]

/-- `init_thread`, after which `thread_create` allocates a tid and fills in the
new thread's stack. -/
def init_thread (k : Kernel) (t : ThreadId) (priority : Int) (f : ThreadFunc) :
    Except Assertion Kernel := do
  ASSERT (PRI_MIN ≤ priority ∧ priority ≤ PRI_MAX) .priority_range
  let k := k.update t fun _ =>
    { Thread.zero with status := .THREAD_BLOCKED, priority, magic := true }
  let k := { k with all_list := k.all_list ++ [t] }
  .ok (k.push [.lock_acquire .tid_lock, .next_tid t, .inherit t, .alloc_frames t f])

/-- The stack frames of a new thread, which `thread_create` then unblocks. -/
def alloc_frames (k : Kernel) (t : ThreadId) (f : ThreadFunc) : Except Assertion Kernel := do
  ASSERT (is_thread k t) .is_thread
  let k := k.update t fun th => { th with code := [.kernel_thread f] }
  .ok (k.push [.thread_unblock t, .thread_yield, .ret (.thread_create (some t))])

/-- The priority read through `e`: the first thread of `ready_list`, or none
when the list was empty and `e` is its tail element. -/
def priority_at (k : Kernel) (sentinel : Int) : Option ThreadId → Int
  | some t => (k.threads t).priority
  | none => sentinel

/-- Execute one instruction, which has been taken off the running thread's code. -/
def exec (k : Kernel) (env : Env) : Instr → Except Assertion Kernel
  | .intr_set_level level => do
    ASSERT (level = .INTR_ON → k.in_external_intr = false) .not_intr_context
    .ok { k with intr_level := level }
  | .schedule => schedule k
  | .ret _ => .ok k
  | .kernel_thread f =>
    let k := { k with intr_level := .INTR_ON }
    match f with
    | .idle => .ok (k.push [.idle])
    | .other => .ok k
  | .idle => do
    let cur ← thread_current k
    .ok (({ k with idle_thread := some cur } : Kernel).push [.sema_up .idle_started, .idle_loop])
  | .idle_loop =>
    .ok (({ k with intr_level := .INTR_OFF } : Kernel).push
      [.thread_block, .intr_set_level .INTR_ON, .idle_loop])
  | .thread_yield => do
    let old_level := k.intr_level
    let k ← thread_yield k
    .ok (k.push [.schedule, .intr_set_level old_level])
  | .thread_block => do
    let k ← thread_block k
    .ok (k.push [.schedule, .ret .thread_block])
  | .thread_unblock t => thread_unblock k t
  | .thread_exit => thread_exit k
  | .thread_create priority f =>
    .ok (k.push [.lock_acquire .pool_lock, .palloc_get_page priority f])
  | .palloc_get_page priority f => .ok (palloc_get_page k priority f env.page)
  | .init_thread t priority f => init_thread k t priority f
  | .next_tid t =>
    .ok (({ k with next_tid := int32 (k.next_tid + 1) } : Kernel).push
      [.lock_release .tid_lock, .set_tid t k.next_tid])
  | .set_tid t tid => .ok (k.update t fun th => { th with tid })
  | .inherit t =>
    if k.thread_mlfqs then
      .ok (k.update t fun th => { th with
        nice := (k.threads k.current).nice, recent_cpu := (k.threads k.current).recent_cpu })
    else .ok k
  | .alloc_frames t f => alloc_frames k t f
  | .thread_set_priority new_priority => do
    let cur ← thread_current k
    let k := k.update cur fun th => { th with priority := int32 new_priority }
    .ok (k.push [.preempt_test (some (int32 new_priority)), .ret .thread_set_priority])
  | .thread_set_nice nice => do
    let cur ← thread_current k
    let k := k.update cur fun th => { th with nice := int32 nice }
    .ok (k.push [.recompute_priority, .preempt_test none, .ret .thread_set_nice])
  | .recompute_priority =>
    .ok (k.push [.store_priority
      (new_priority (k.threads k.current).recent_cpu (k.threads k.current).nice)])
  | .store_priority priority =>
    .ok (k.update k.current fun th => { th with priority := int32 priority })
  | .preempt_test priority =>
    if k.ready_list = [] then .ok k else .ok (k.push [.max_priority_in_ready priority])
  | .max_priority_in_ready priority =>
    .ok (k.push [.compare_front priority k.ready_list.head?])
  | .compare_front priority e =>
    if priority.getD (k.threads k.current).priority < priority_at k env.sentinel e then
      .ok (k.push [.thread_yield])
    else .ok k
  | .thread_sleep alarm_ticks => thread_sleep k alarm_ticks
  | .timer_sleep ticks => .ok (k.push [.timer_sleep_from k.ticks (int64 ticks)])
  | .timer_sleep_from start ticks => do
    ASSERT (k.intr_level = .INTR_ON) .intr_on
    .ok (({ k with intr_level := .INTR_OFF } : Kernel).push
      [.thread_sleep (int64 (start + ticks)), .intr_set_level .INTR_ON,
        .ret (.timer_sleep start ticks)])
  | .sema_init s value => .ok (k.set_sema s { value := value % 2 ^ 32, waiters := [] })
  | .sema_down s => do
    ASSERT (k.in_external_intr = false) .not_intr_context
    .ok (({ k with intr_level := .INTR_OFF } : Kernel).push
      [.sema_down_loop s, .intr_set_level k.intr_level, .ret (.sema_down s)])
  | .sema_down_loop s => sema_down_loop k s
  | .sema_try_down s =>
    let (k, success) := sema_try_down k s
    .ok (k.push [.ret (.sema_try_down s success)])
  | .sema_up s => sema_up k s
  | .lock_acquire l => do
    ASSERT (k.in_external_intr = false) .not_intr_context
    let cur ← thread_current k
    ASSERT (k.holder l ≠ some cur) .lock_not_held
    .ok (k.push [.sema_down (.lock l), .set_holder l, .ret (.lock_acquire l)])
  | .set_holder l => do
    let cur ← thread_current k
    .ok (k.set_holder l (some cur))
  | .lock_try_acquire l => do
    let cur ← thread_current k
    ASSERT (k.holder l ≠ some cur) .lock_not_held
    let (k, success) := sema_try_down k (.lock l)
    if success then .ok (k.push [.set_holder l, .ret (.lock_try_acquire l true)])
    else .ok (k.push [.ret (.lock_try_acquire l false)])
  | .lock_release l => do
    let cur ← thread_current k
    ASSERT (k.holder l = some cur) .lock_held
    .ok ((k.set_holder l none).push [.sema_up (.lock l), .ret (.lock_release l)])
  | .cond_wait c l => do
    ASSERT (k.in_external_intr = false) .not_intr_context
    let cur ← thread_current k
    ASSERT (k.holder l = some cur) .lock_held
    let k := k.set_sema (.waiter cur) { value := 0, waiters := [] }
    let k := k.set_cond c (k.cond_waiters c ++ [.waiter cur])
    .ok (k.push [.lock_release l, .sema_down (.waiter cur), .lock_acquire l, .ret (.cond_wait c l)])
  | .cond_signal c l => do
    ASSERT (k.in_external_intr = false) .not_intr_context
    let cur ← thread_current k
    ASSERT (k.holder l = some cur) .lock_held
    match k.cond_waiters c with
    | [] => .ok (k.push [.ret (.cond_signal c l)])
    | w :: rest => .ok ((k.set_cond c rest).push [.sema_up w, .ret (.cond_signal c l)])
  | .cond_broadcast c l =>
    match k.cond_waiters c with
    | [] => .ok (k.push [.ret (.cond_broadcast c l)])
    | _ :: _ => .ok (k.push [.cond_signal c l, .cond_broadcast c l])

/-- The kernel functions that a thread's own function may call. -/
inductive Call where
  | intr_set_level (level : IntrLevel)
  | thread_create (priority : Int)
  | thread_exit
  | thread_yield
  | thread_block
  | thread_unblock (t : ThreadId)
  | thread_set_priority (new_priority : Int)
  | thread_set_nice (nice : Int)
  | thread_sleep (alarm_ticks : Int)
  | timer_sleep (ticks : Int)
  | sema_init (n : Nat) (value : Nat)
  | sema_down (n : Nat)
  | sema_try_down (n : Nat)
  | sema_up (n : Nat)
  | lock_acquire (n : Nat)
  | lock_try_acquire (n : Nat)
  | lock_release (n : Nat)
  | cond_wait (c : CondRef) (n : Nat)
  | cond_signal (c : CondRef) (n : Nat)
  | cond_broadcast (c : CondRef) (n : Nat)
  deriving DecidableEq, Repr

def Call.instr : Call → Instr
  | .intr_set_level level => .intr_set_level level
  | .thread_create priority => .thread_create priority .other
  | .thread_exit => .thread_exit
  | .thread_yield => .thread_yield
  | .thread_block => .thread_block
  | .thread_unblock t => .thread_unblock t
  | .thread_set_priority new_priority => .thread_set_priority new_priority
  | .thread_set_nice nice => .thread_set_nice nice
  | .thread_sleep alarm_ticks => .thread_sleep alarm_ticks
  | .timer_sleep ticks => .timer_sleep ticks
  | .sema_init n value => .sema_init (.sema n) value
  | .sema_down n => .sema_down (.sema n)
  | .sema_try_down n => .sema_try_down (.sema n)
  | .sema_up n => .sema_up (.sema n)
  | .lock_acquire n => .lock_acquire (.lock n)
  | .lock_try_acquire n => .lock_try_acquire (.lock n)
  | .lock_release n => .lock_release (.lock n)
  | .cond_wait c n => .cond_wait c (.lock n)
  | .cond_signal c n => .cond_signal c (.lock n)
  | .cond_broadcast c n => .cond_broadcast c (.lock n)

/-- The thread blocked itself by calling `thread_block` directly, as `wait` of
`intq.c` does; whoever knows it wakes it with `thread_unblock`. -/
def Parked (k : Kernel) (t : ThreadId) : Prop :=
  is_thread k t ∧ (k.threads t).status = .THREAD_BLOCKED ∧
    (k.threads t).code.head? = some (.ret .thread_block) ∧ k.idle_thread ≠ some t

instance (k : Kernel) (t : ThreadId) : Decidable (Parked k t) :=
  inferInstanceAs (Decidable (_ ∧ _ ∧ _ ∧ _))

/-- What a function promises when it calls the kernel: it wakes only a thread
that blocked itself, and initializes no semaphore that threads wait on. -/
def Call.Allowed (k : Kernel) : Call → Prop
  | .thread_unblock t => Parked k t
  | .sema_init n _ => (k.sema (.sema n)).waiters = []
  | _ => True

instance (k : Kernel) (c : Call) : Decidable (c.Allowed k) := by
  cases c <;> unfold Call.Allowed <;> infer_instance

/-- The page allocator returns a page of its pool that is not in use. -/
def Env.Allowed (k : Kernel) (env : Env) : Prop :=
  ∀ t ∈ env.page, k.used_map t = false ∧ t ≠ k.initial_thread

instance (k : Kernel) (env : Env) : Decidable (env.Allowed k) :=
  match h : env.page with
  | none => .isTrue (by simp [Env.Allowed, h])
  | some t => decidable_of_iff (k.used_map t = false ∧ t ≠ k.initial_thread)
      (by simp [Env.Allowed, h])

/-- Outside the page allocator nothing is promised. -/
theorem no_page_allowed (k : Kernel) : Env.Allowed k ⟨none, 0⟩ := by simp [Env.Allowed]

/-- What happens next: the running thread executes its next instruction, its
own function calls the kernel, or the timer interrupts it. -/
inductive Label where
  | next (env : Env)
  | call (c : Call)
  | timer
  deriving DecidableEq, Repr

/-- The label can happen in the state. -/
def Enabled (k : Kernel) : Label → Prop
  | .next env => k.code ≠ [] ∧ env.Allowed k
  | .call c => k.code = [] ∧ c.Allowed k
  | .timer => k.intr_level = .INTR_ON

instance (k : Kernel) (l : Label) : Decidable (Enabled k l) := by
  cases l <;> unfold Enabled <;> infer_instance

/-- What the label does. -/
def perform (k : Kernel) : Label → Except Assertion Kernel
  | .next env =>
    match k.code with
    | [] => .ok k
    | i :: _ => exec k.pop env i
  | .call c => exec k ⟨none, 0⟩ c.instr
  | .timer => intr_handler k

/-- One step; a failed assertion stops the kernel. -/
def step (k : Kernel) (l : Label) : Option Kernel :=
  if Enabled k l then (perform k l).toOption else none

/-- The instruction that a label executes. -/
def Kernel.executes (k : Kernel) : Label → Option Instr
  | .next _ => k.code.head?
  | .call c => some c.instr
  | .timer => none

/-- The state in which `main`, inside `thread_start`, has initialized
`idle_started` to 0. It is the only thread, and runs with interrupts off. -/
def boot (thread_mlfqs thread_prior_aging : Bool) (initial_thread : ThreadId) : Kernel where
  thread_mlfqs
  thread_prior_aging
  used_map _ := false
  threads t :=
    if t = initial_thread then
      { Thread.zero with
        tid := 1
        priority := PRI_DEFAULT
        magic := true
        -- the rest of `thread_start`, after which `main` goes on as any other code
        code := [.thread_create PRI_MIN .idle, .intr_set_level .INTR_ON, .sema_down .idle_started] }
    else Thread.zero
  current := initial_thread
  ready_list := []
  all_list := [initial_thread]
  sleep_list := []
  idle_thread := none
  initial_thread
  next_tid := 2
  thread_ticks := 0
  load_avg := 0
  ticks := 0
  sema s :=
    match s with
    | .lock _ => { value := 1, waiters := [] }
    | _ => { value := 0, waiters := [] }
  holder _ := none
  cond_waiters _ := []
  intr_level := .INTR_OFF
  in_external_intr := false
  yield_on_return := false
  arrivals := 0

/-- The kernel as a transition system, in any scheduler mode. -/
def kernel : System Kernel Label :=
  .ofStep (fun k => ∃ mlfqs aging t, k = boot mlfqs aging t) step

/-- The steps that take `main` from `boot` to its own code. The idle thread is
created on page 1. -/
def start_up : List Label :=
  .replicate 9 (.next ⟨some 1, 0⟩) ++ .replicate 45 (.next ⟨none, 0⟩)

end pintos.prj3
