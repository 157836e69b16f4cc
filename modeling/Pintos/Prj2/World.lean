import Pintos.Prj2.Stages
import Pintos.Lib.Transition
import Mathlib.Logic.Function.Basic

/-!
# Processes side by side (`threads/thread.c`, `userprog/process.c`)

All processes at once, each with the kernel code that it has still to execute. A
step is one request of one of them; the rest of the kernel, and what a process
does in user mode, answer as they like.
-/

open interaction transition

namespace pintos.prj2

/-- The fields of `struct thread` that processes use, and the code that is still
to be executed in the kernel: in user mode there is none. -/
structure Thread where
  tid : Int
  own : Own
  parent : ThreadId
  child_list : List ThreadId
  exit_status : Int
  ready_to_exit : Bool
  deleted_from_parent : Bool
  load_finish : Bool
  child_load_success : Bool
  fd_wait : Nat
  code : Kernel (Option Int)

/-- A store to a field that only the thread itself uses. -/
def Own.store (own : Own) : OwnStore → Own
  | .files fd file => { own with files := Function.update own.files fd file }
  | .fd_used fd used => { own with fd_used := Function.update own.fd_used fd used }
  | .current_file file => { own with current_file := file }

/-- A `struct thread` after `init_thread` and what `thread_create` stores. -/
def Thread.new (tid : Int) (name : Str) (parent : ThreadId) (code : Kernel (Option Int)) : Thread where
  tid
  own := { name := name.take 15, files := fun _ => none, fd_used := fun _ => false, current_file := none }
  parent
  child_list := []
  exit_status := 0
  ready_to_exit := false
  deleted_from_parent := false
  load_finish := false
  child_load_success := true
  fd_wait := 1
  code

/-- The pages that hold a `struct thread`, and the global variables. -/
structure World where
  threads : ThreadId → Option Thread
  initial_thread : ThreadId
  idle_thread : ThreadId
  mutex : Nat
  next_tid : Int

namespace World

/-- A store to a `struct thread`. -/
def update (w : World) (t : ThreadId) (f : Thread → Thread) : World :=
  { w with threads := Function.update w.threads t ((w.threads t).map f) }

def set_code (w : World) (t : ThreadId) (code : Kernel (Option Int)) : World :=
  w.update t fun th => { th with code }

/-- `thread_create`, in the page `c`. -/
def create (w : World) (t c : ThreadId) (name fn_copy : Str) : World :=
  let w' := w.update t fun th => { th with child_list := th.child_list ++ [c] }
  { w' with
    threads := Function.update w'.threads c (some (.new w.next_tid name t (start_process fn_copy)))
    next_tid := w.next_tid + 1 }

/-- After `thread_start`: the initial thread, which is its own parent, and the idle thread. -/
def boot (main idle : ThreadId) : World where
  threads t :=
    if t = main then some { Thread.new 1 [] main (.ret none) with child_list := [main, idle] }
    else if t = idle then some (.new 2 [] main (.ret none))
    else none
  initial_thread := main
  idle_thread := idle
  mutex := 1
  next_tid := 3

end World

/-- What a request is answered by user memory, by the rest of the kernel, and by
the page allocator. -/
structure Env where
  byte : Byte
  word : Word
  answer : (q : Query) → q.Ans
  page : Option ThreadId

namespace World

/-- The request goes to memory that holds no `struct thread` or no such field. -/
def strays (w : World) (th : Thread) : Op → Bool
  | .wild => true
  | .parent_child_load_success | .parent_load_finish => (w.threads th.parent).isNone
  | .find_child _ => th.child_list.any fun c => (w.threads c).isNone
  | .poll_ready_to_exit c | .child_exit_status c | .list_remove c | .deleted_from_parent c =>
    (w.threads c).isNone
  | _ => false

/-- The child with the `tid`, as `process_wait` looks for it. -/
def find_child (w : World) (children : List ThreadId) (child_tid : Int) : Option ThreadId :=
  children.find? fun c => (w.threads c).any fun child => child.tid = child_tid

/-- The answer to a request, and what it does. There is none while the thread has to wait. -/
def reply (w : World) (t : ThreadId) (th : Thread) (env : Env) : (o : Op) → Option (o.Ans × World)
  | .load _ => some (env.byte, w)
  | .load_word _ => some (env.word, w)
  | .store _ _ => some ((), w)
  | .query q => some (env.answer q, w)
  | .own => some (th.own, w)
  | .set_own s => some ((), w.update t fun th => { th with own := th.own.store s })
  | .sema_down .mutex => if 0 < w.mutex then some ((), { w with mutex := w.mutex - 1 }) else none
  | .sema_up .mutex => some ((), { w with mutex := w.mutex + 1 })
  | .sema_down .fd_wait =>
    if 0 < th.fd_wait then some ((), w.update t fun th => { th with fd_wait := th.fd_wait - 1 }) else none
  | .sema_up .fd_wait => some ((), w.update t fun th => { th with fd_wait := th.fd_wait + 1 })
  | .thread_create name fn_copy =>
    match env.page with
    | none => some (none, w)
    | some c => if (w.threads c).isNone then some (some w.next_tid, w.create t c name fn_copy) else none
  | .poll_load_finish => if th.load_finish then some ((), w) else none
  | .child_load_success => some (th.child_load_success, w)
  | .parent_child_load_success =>
    some ((), w.update th.parent fun p => { p with child_load_success := false })
  | .parent_load_finish => some ((), w.update th.parent fun p => { p with load_finish := true })
  | .find_child child_tid => some (w.find_child th.child_list child_tid, w)
  | .poll_ready_to_exit c => if (w.threads c).any Thread.ready_to_exit then some ((), w) else none
  | .child_exit_status c => (w.threads c).map fun child => (child.exit_status, w)
  | .list_remove c => some ((), w.update t fun th => { th with child_list := th.child_list.erase c })
  | .deleted_from_parent c => some ((), w.update c fun child => { child with deleted_from_parent := true })
  | .exit_status status => some ((), w.update t fun th => { th with exit_status := status })
  | .ready_to_exit => some ((), w.update t fun th => { th with ready_to_exit := true })
  | .poll_deleted_from_parent => if th.deleted_from_parent then some ((), w) else none
  | .palloc_free_page | .mark _ => some ((), w)
  | .schedule_dying | .shutdown_power_off | .panic | .spin | .wild => none

end World

/-- What a thread does next: it enters the kernel, makes a request, faults or is gone.
After a stray access the world may be any. -/
inductive Event where
  | syscall (esp : Addr)
  | exception (f : IntrFrame)
  | run_task (task : Str)
  | go (env : Env)
  | fault (addr : Addr)
  | die
  | stray (w : World)

structure Label where
  thread : ThreadId
  event : Event

/-- Whether the thread runs a user program. -/
def World.runs_user (w : World) (t : ThreadId) : Bool := t ≠ w.initial_thread && t ≠ w.idle_thread

/-- One step of one thread. -/
def World.step (w : World) (l : Label) : Option World := do
  let t := l.thread
  let th ← w.threads t
  match l.event, th.code with
  | .syscall esp, .ret _ => if w.runs_user t then some (w.set_code t (syscall_handler esp)) else none
  | .exception f, .ret _ =>
    if w.runs_user t ∧ f.cs = .SEL_UCSEG then some (w.set_code t (intr_handler f)) else none
  | .run_task task, .ret _ => if t = w.initial_thread then some (w.set_code t (run_task task)) else none
  | .go env, .ask o k =>
    if w.strays th o then none
    else do
      let (r, w') ← w.reply t th env o
      return w'.set_code t (k r)
  | .fault addr, .ask o _ =>
    if o.accesses then some (w.set_code t (page_fault (kernel_fault addr))) else none
  | .die, .ask .schedule_dying _ => some { w with threads := Function.update w.threads t none }
  | .stray w', .ask o _ => if w.strays th o then some w' else none
  | _, _ => none

/-- Processes from boot on. -/
def processes : System World Label :=
  .ofStep (fun w => ∃ main idle, main ≠ idle ∧ w = .boot main idle) World.step

/-! ## What has happened -/

/-- Something that happens to threads, by their `tid`. -/
inductive Note where
  | created (tid child : Int)
  | loaded (tid : Int) (success : Bool)
  | ended (tid : Int) (how : Ending)
  | accessed (tid child : Int)
  | removed (tid child : Int)
  | released (tid child : Int)
  | waited (tid child status : Int)
  | exec_called (tid : Int)
  | exec_returned (tid res : Int)
  deriving DecidableEq

namespace World

/-- The accesses of a thread to the `struct thread` of others. -/
def accessed (w : World) (th : Thread) (children : List ThreadId) : List Note :=
  children.filterMap fun c => (w.threads c).map fun child => .accessed th.tid child.tid

/-- What a request does that is of note. Operations on a list access its elements. -/
def notes (w : World) (th : Thread) : (o : Op) → o.Ans → List Note
  | .thread_create _ _, some child => .created th.tid child :: w.accessed th th.child_list
  | .find_child _, _ => w.accessed th th.child_list
  | .poll_ready_to_exit c, _ => w.accessed th [c]
  | .child_exit_status c, _ => w.accessed th [c]
  | .list_remove c, _ =>
    ((w.threads c).toList.map fun child => .removed th.tid child.tid) ++ w.accessed th th.child_list
  | .deleted_from_parent c, _ =>
    ((w.threads c).toList.map fun child => .released th.tid child.tid) ++ w.accessed th [c]
  | .mark (.loaded success), _ => [.loaded th.tid success]
  | .mark (.ended how), _ => [.ended th.tid how]
  | .mark (.waited tid status), _ => [.waited th.tid tid status]
  | .mark .exec_called, _ => [.exec_called th.tid]
  | .mark (.exec_returned res), _ => [.exec_returned th.tid res]
  | _, _ => []

end World

/-- Where the threads are, and what has happened, the latest first. -/
structure History where
  points : ThreadId → Point
  notes : List Note

/-- At the end of boot the initial thread has two children, of which it is one. -/
def History.boot : History where
  points _ := ⟨.running, .idle⟩
  notes := [.created 1 2, .created 1 1]

/-- The page of the thread that a request makes. -/
def Op.new_page (env : Env) : Op → Option ThreadId
  | .thread_create _ _ => env.page
  | _ => none

/-- What a step adds. -/
def World.record (w : World) (l : Label) (h : History) : History :=
  match w.threads l.thread with
  | none => h
  | some th =>
    match l.event, th.code with
    | .go env, .ask o _ =>
      match w.reply l.thread th env o with
      | none => h
      | some (r, _) =>
        let point := ((h.points l.thread).next o).elim (h.points l.thread) (· r)
        let points := Function.update h.points l.thread point
        { points := (o.new_page env).elim points fun c => Function.update points c ⟨.loading, .idle⟩
          notes := w.notes th o r ++ h.notes }
    | .fault _, .ask _ _ => { h with points := Function.update h.points l.thread ⟨.running, .idle⟩ }
    | _, _ => h

/-- Processes from boot on, with their history. -/
def observed_processes : System (World × History) Label :=
  processes.observe (fun _ => .boot) World.record

end pintos.prj2
