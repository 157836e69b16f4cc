import Pintos.Prj3.Thread

/-!
# The scheduler (`threads/thread.c`, `devices/timer.c`)

The functions that touch the run queue, the sleep queue and thread states, and
the timer interrupt. Each runs with interrupts off.
-/

open twos_complement pintos.kernel

namespace pintos.prj3

/-- `TIME_SLICE`. -/
def TIME_SLICE : Nat := 4

/-- `TIMER_FREQ`. -/
def TIMER_FREQ : Int := 100

/-- `is_thread`, for an address that is not null. -/
def is_thread (k : Kernel) (t : ThreadId) : Prop := (k.threads t).magic = true

instance (k : Kernel) (t : ThreadId) : Decidable (is_thread k t) :=
  inferInstanceAs (Decidable (_ = true))

/-- `thread_current`: the running thread, with its sanity checks. -/
def thread_current (k : Kernel) : Except Assertion ThreadId := do
  ASSERT (is_thread k k.current) .is_thread
  ASSERT ((k.threads k.current).status = .THREAD_RUNNING) .status_running
  .ok k.current

/-- `priority_comp`. -/
def priority_comp (k : Kernel) (e1 e2 : ThreadId) : Bool :=
  decide ((k.threads e1).priority > (k.threads e2).priority)

/-- `alarm_ticks_comp`. -/
def alarm_ticks_comp (k : Kernel) (e1 e2 : ThreadId) : Bool :=
  decide ((k.threads e1).alarm_ticks < (k.threads e2).alarm_ticks)

/-- `list_insert_ordered (&ready_list, &t->elem, priority_comp, NULL)`, with the
history variable. -/
def ready_insert (k : Kernel) (t : ThreadId) : Kernel :=
  { k.update t (fun th => { th with arrival := k.arrivals }) with
    ready_list := list_insert_ordered (priority_comp k) t k.ready_list
    arrivals := k.arrivals + 1 }

/-- `thread_unblock`. -/
def thread_unblock (k : Kernel) (t : ThreadId) : Except Assertion Kernel := do
  ASSERT (is_thread k t) .is_thread
  ASSERT ((k.threads t).status = .THREAD_BLOCKED) .status_blocked
  .ok ((ready_insert k t).update t fun th => { th with status := .THREAD_READY })

/-- `thread_block` up to its call of `schedule`. -/
def thread_block (k : Kernel) : Except Assertion Kernel := do
  ASSERT (k.in_external_intr = false) .not_intr_context
  ASSERT (k.intr_level = .INTR_OFF) .intr_off
  let cur ← thread_current k
  .ok (k.update cur fun th => { th with status := .THREAD_BLOCKED })

/-- `thread_yield` up to its call of `schedule`. -/
def thread_yield (k : Kernel) : Except Assertion Kernel := do
  let cur ← thread_current k
  ASSERT (k.in_external_intr = false) .not_intr_context
  let k := { k with intr_level := .INTR_OFF }
  let k := if k.idle_thread ≠ some cur then ready_insert k cur else k
  .ok (k.update cur fun th => { th with status := .THREAD_READY })

/-- `next_thread_to_run`, without taking the thread off the list. -/
def next_thread_to_run (k : Kernel) : Option ThreadId :=
  match k.ready_list with
  | [] => k.idle_thread
  | t :: _ => some t

/-- `palloc_free_page`, which overwrites the page. -/
def palloc_free_page (k : Kernel) (t : ThreadId) : Except Assertion Kernel := do
  ASSERT (k.used_map t = true) .page_in_use
  .ok { k.update t (fun _ => .zero) with used_map := fun u => if u = t then false else k.used_map u }

/-- `thread_schedule_tail`, executed by the thread switched to; `prev` is the
thread switched from, if another one. -/
def thread_schedule_tail (k : Kernel) (prev : Option ThreadId) : Except Assertion Kernel := do
  ASSERT (k.intr_level = .INTR_OFF) .intr_off
  let k := { k.update k.current (fun th => { th with status := .THREAD_RUNNING }) with
    thread_ticks := 0 }
  match prev with
  | none => .ok k
  | some prev =>
    if (k.threads prev).status = .THREAD_DYING ∧ prev ≠ k.initial_thread then palloc_free_page k prev
    else .ok k

/-- `schedule`. -/
def schedule (k : Kernel) : Except Assertion Kernel := do
  let cur := k.current
  match next_thread_to_run k with
  | none => .error .is_thread
  | some next =>
    let k := { k with ready_list := k.ready_list.tail }
    ASSERT (k.intr_level = .INTR_OFF) .intr_off
    ASSERT ((k.threads cur).status ≠ .THREAD_RUNNING) .status_not_running
    ASSERT (is_thread k next) .is_thread
    thread_schedule_tail { k with current := next } (if cur ≠ next then some cur else none)

/-- `intr_yield_on_return`. -/
def intr_yield_on_return (k : Kernel) : Except Assertion Kernel := do
  ASSERT (k.in_external_intr = true) .intr_context
  .ok { k with yield_on_return := true }

/-- `thread_tick`, without the statistics. -/
def thread_tick (k : Kernel) : Except Assertion Kernel := do
  let _ ← thread_current k
  let k := { k with thread_ticks := (k.thread_ticks + 1) % 2 ^ 32 }
  if k.thread_ticks ≥ TIME_SLICE then intr_yield_on_return k else .ok k

/-- The loop of `thread_alarm` over the sleepers from `iter` on. -/
def thread_alarm_loop (ticks : Int) : List ThreadId → Kernel → Except Assertion Kernel
  | [], k => .ok k
  | t :: iter, k =>
    if (k.threads t).alarm_ticks > ticks then .ok k
    else do
      let k ← thread_unblock { k with sleep_list := k.sleep_list.erase t } t
      thread_alarm_loop ticks iter k

/-- `thread_alarm`. -/
def thread_alarm (k : Kernel) (ticks : Int) : Except Assertion Kernel := do
  let k ← thread_alarm_loop ticks k.sleep_list k
  intr_yield_on_return k

/-- `max_priority_in_ready` on a non-empty list. -/
def max_priority_in_ready (k : Kernel) : Option Int :=
  k.ready_list.head?.map fun t => (k.threads t).priority

/-- The test that ends `thread_priority_aging` and `update_priority`. -/
def yield_if_outranked (k : Kernel) : Except Assertion Kernel :=
  match max_priority_in_ready k with
  | none => .ok k
  | some m => do
    let cur ← thread_current k
    if (k.threads cur).priority < m then intr_yield_on_return k else .ok k

/-- One turn of the loop of `thread_priority_aging`. -/
def age (th : Thread) : Thread :=
  let priority := int32 (th.priority + 1)
  { th with priority := if priority > PRI_MAX then PRI_MAX else priority }

/-- `thread_priority_aging`. -/
def thread_priority_aging (k : Kernel) : Except Assertion Kernel :=
  yield_if_outranked (k.ready_list.foldl (fun k t => k.update t age) k)

/-- `update_periodic_recent_cpu`. -/
def update_periodic_recent_cpu (k : Kernel) : Except Assertion Kernel := do
  let cur ← thread_current k
  if k.idle_thread ≠ some cur then
    .ok (k.update cur fun th => { th with recent_cpu := fp_add_int th.recent_cpu 1 })
  else .ok k

/-- `update_load_avg`. -/
def update_load_avg (k : Kernel) : Except Assertion Kernel := do
  let cur ← thread_current k
  let ready_threads := int32 (k.ready_list.length + if k.idle_thread = some cur then 0 else 1)
  .ok { k with load_avg := new_load_avg k.load_avg ready_threads }

/-- One turn of the loop of `update_recent_cpu`. -/
def decay (k : Kernel) (t : ThreadId) : Kernel :=
  if (k.threads t).status ≠ .THREAD_DYING ∧ k.idle_thread ≠ some t then
    k.update t fun th => { th with recent_cpu := new_recent_cpu k.load_avg th.recent_cpu th.nice }
  else k

/-- `update_recent_cpu`. -/
def update_recent_cpu (k : Kernel) : Kernel := k.all_list.foldl decay k

/-- One turn of the loop of `update_priority`. -/
def recompute (th : Thread) : Thread :=
  { th with priority := new_priority th.recent_cpu th.nice }

/-- `update_priority`. -/
def update_priority (k : Kernel) : Except Assertion Kernel :=
  let k := k.all_list.foldl (fun k t => k.update t recompute) k
  yield_if_outranked { k with ready_list := list_sort (priority_comp k) k.ready_list }

/-- What the mlfqs part of `timer_interrupt` does once a second. -/
def mlfqs_second (k : Kernel) : Except Assertion Kernel :=
  if k.ticks % TIMER_FREQ = 0 then do
    let k ← update_load_avg k
    .ok (update_recent_cpu k)
  else .ok k

/-- The mlfqs part of `timer_interrupt`. -/
def mlfqs_tick (k : Kernel) : Except Assertion Kernel := do
  let k ← update_periodic_recent_cpu k
  let k ← mlfqs_second k
  if k.ticks % 4 = 0 then update_priority k else .ok k

/-- The aging part of `timer_interrupt`. -/
def aging_tick (k : Kernel) : Except Assertion Kernel :=
  if k.thread_prior_aging then thread_priority_aging k else .ok k

/-- `timer_interrupt`. -/
def timer_interrupt (k : Kernel) : Except Assertion Kernel := do
  let k := { k with ticks := k.ticks + 1 }
  let k ← thread_tick k
  let k ← thread_alarm k k.ticks
  let k ← aging_tick k
  if k.thread_mlfqs then mlfqs_tick k else .ok k

/-- `intr_handler` for the timer, taken while the running thread executes with
interrupts on. The yield and the return from the interrupt are left to the
interrupted thread's code. -/
def intr_handler (k : Kernel) : Except Assertion Kernel := do
  ASSERT (k.in_external_intr = false) .not_intr_context
  let k := { k with intr_level := .INTR_OFF, in_external_intr := true, yield_on_return := false }
  let k ← timer_interrupt k
  let k := { k with in_external_intr := false }
  let return_ := [.intr_set_level .INTR_ON, .ret .timer_interrupt]
  .ok (k.push (if k.yield_on_return then .thread_yield :: return_ else return_))

end pintos.prj3
