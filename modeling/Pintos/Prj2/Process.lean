import Pintos.Prj2.FileSystem

/-!
# Processes (`userprog/process.c`, `userprog/exception.c`, `threads/thread.c`)

The code that starts, waits for and ends processes. Code that comes back to user
mode ends with the value it leaves in `eax`, if it leaves one.
-/

open interaction

namespace pintos.prj2

/-- `thread_exit`. The polling loop waits for `process_wait` of the parent;
`process_exit` gives up the page directory only. -/
def thread_exit {α : Type} : Kernel α := do
  request .ready_to_exit
  request .poll_deleted_from_parent
  final .schedule_dying rfl

/-- Free an entry of the file table. -/
def free_fd (fd : Nat) : Kernel Unit := do
  sema_down .fd_wait
  request (.set_own (.fd_used fd false))
  request (.set_own (.files fd none))
  sema_up .fd_wait

/-- The loop of `exit` over the file table. -/
def close_files (cur : Own) : List Nat → Kernel Unit
  | [] => return ()
  | i :: rest => do
    when (cur.fd_used i) (free_fd i)
    close_files cur rest

/-- Number of entries of the file table. -/
def FD_CNT : Nat := 130

def exit {α : Type} (status : Int) : Kernel α := do
  mark (.ended (.exit status))
  request (.exit_status status)
  let cur ← request .own
  close_files cur (List.range' 2 (FD_CNT - 2))
  thread_exit

def check_address (addr : Addr) : Kernel Unit :=
  if is_user_vaddr addr then return () else exit (-1)

/-! ## Exceptions -/

/-- The code segment of an interrupt frame. -/
inductive Segment where
  | SEL_UCSEG
  | SEL_KCSEG
  deriving DecidableEq

/-- What a handler reads of `struct intr_frame`, with the fault address. -/
structure IntrFrame where
  cs : Segment
  vec_no : Nat
  error_code : BitVec 3
  fault_addr : Addr
  deriving DecidableEq

/-- The vectors that `exception_init` gives to `kill`. -/
def kill_vectors : List Nat := [0, 1, 3, 4, 5, 6, 7, 11, 12, 13, 16, 19]

def kill (f : IntrFrame) : Kernel (Option Int) :=
  match f.cs with
  | .SEL_UCSEG => do
    mark (.ended (.killed f.vec_no))
    thread_exit
  | .SEL_KCSEG => panic

/-- Whether `page_fault` ends the process itself: the fault is not a store by
user code to a user page that is present. -/
def IntrFrame.exits (f : IntrFrame) : Bool :=
  let not_present := !f.error_code.getLsbD 0
  let write := f.error_code.getLsbD 1
  let user := f.error_code.getLsbD 2
  !user || !write || not_present || !is_user_vaddr f.fault_addr

def page_fault (f : IntrFrame) : Kernel (Option Int) :=
  if f.exits then exit (-1) else kill f

/-- `intr_handler` for an exception; a vector without a handler is only counted. -/
def intr_handler (f : IntrFrame) : Kernel (Option Int) :=
  if f.vec_no ∈ kill_vectors then kill f
  else if f.vec_no = 14 then page_fault f
  else return none

/-- The frame of a page fault that kernel code takes at `addr`. -/
def kernel_fault (addr : Addr) : IntrFrame where
  cs := .SEL_KCSEG
  vec_no := 14
  error_code := 0
  fault_addr := addr

/-! ## Starting a process -/

/-- Whether a character ends the first word of a command line. -/
def ends_command (ch : Byte) : Bool := ch = 0x0A || ch = 0x20 || ch = 0

/-- The loop of `get_command`. The buffer has 128 bytes; without memory for it
the first store is a page fault. -/
def get_command_loop (file_name : CharPtr) (buffer : Bool) : Nat → Nat → Str → Kernel Str
  | 0, _, _ => spin
  | n + 1, idx, command => do
    let ch ← file_name.get idx
    if !buffer then exit (-1)
    else
      when (128 ≤ idx) wild
      if ends_command ch then return command
      else get_command_loop file_name buffer n (idx + 1) (command ++ [ch])

def get_command (site : Site) (file_name : CharPtr) : Kernel Str := do
  let buffer ← ask (.malloc site 128)
  get_command_loop file_name buffer ADDR_CNT 0 []

/-- `set_argv`: the words of the command line. -/
def set_argv (file_name : Str) : List Str := (file_name.splitOn 0x20).filter (· ≠ [])

/-- The body of `load`. `argv` has room for 128 words, and `set_stack` can run
below the pages of the user stack. -/
def load_body (file_name : Str) : Kernel Bool := do
  if ← ask .pagedir_create then
    let command ← get_command .load (.kernel file_name)
    match ← filesys_open (.kernel command) with
    | none => return false
    | some _ =>
      if ← ask .load_segments then
        when (128 < (set_argv file_name).length) wild
        if ← ask (.setup_stack file_name) then return true else exit (-1)
      else return false
  else return false

def load (file_name : Str) : Kernel Bool := do
  let success ← load_body file_name
  when (!success) (request .parent_child_load_success)
  mark (.loaded success)
  return success

def start_process (file_name : Str) : Kernel (Option Int) := do
  let success ← load file_name
  request .parent_load_finish
  request .palloc_free_page
  if !success then
    mark (.ended .load_failed)
    thread_exit
  else return none

def TID_ERROR : Int := -1

/-- `PGSIZE` -/
def PGSIZE : Nat := 4096

def thread_create (name fn_copy : Str) : Kernel Int := do
  return (← request (.thread_create name fn_copy)).getD TID_ERROR

def process_execute (file_name : CharPtr) : Kernel Int := do
  if ← ask .palloc_get_page then
    let fn_copy ← strlcpy file_name PGSIZE
    let command ← get_command .process_execute file_name
    let tid ← thread_create command fn_copy
    request .poll_load_finish
    when (tid = TID_ERROR) (request .palloc_free_page)
    return tid
  else return TID_ERROR

def process_wait (child_tid : Int) : Kernel Int := do
  match ← request (.find_child child_tid) with
  | some child => do
    request (.poll_ready_to_exit child)
    let exit_status ← request (.child_exit_status child)
    request (.list_remove child)
    request (.deleted_from_parent child)
    mark (.waited child_tid exit_status)
    return exit_status
  | none => do
    mark (.waited child_tid (-1))
    return -1

/-- `run_task` of `threads/init.c`, an action of the initial thread. -/
def run_task (task : Str) : Kernel (Option Int) := do
  let tid ← process_execute (.kernel task)
  let _ ← process_wait tid
  return none

end pintos.prj2
