import Pintos.Prj2.Process
import Pintos.Lib.TwosComplement

/-!
# System calls (`userprog/syscall.c`)
-/

open interaction twos_complement

namespace pintos.prj2

/-- System call numbers (`lib/syscall-nr.h`) that the handler knows. -/
inductive Sysno where
  | SYS_HALT | SYS_EXIT | SYS_EXEC | SYS_WAIT | SYS_CREATE | SYS_REMOVE | SYS_OPEN
  | SYS_FILESIZE | SYS_READ | SYS_WRITE | SYS_SEEK | SYS_TELL | SYS_CLOSE | SYS_FIBO | SYS_MAX
  deriving DecidableEq

namespace Sysno

/-- In the order of the enumeration. -/
def all : List Sysno :=
  [SYS_HALT, SYS_EXIT, SYS_EXEC, SYS_WAIT, SYS_CREATE, SYS_REMOVE, SYS_OPEN, SYS_FILESIZE,
    SYS_READ, SYS_WRITE, SYS_SEEK, SYS_TELL, SYS_CLOSE, SYS_FIBO, SYS_MAX]

/-- The case of the `switch` that a word selects. -/
def ofWord (w : Word) : Option Sysno := all[w.toNat]?

end Sysno

def fib_loop : Nat → Int → Int → Int
  | 0, a, _ => a
  | n + 1, a, b => fib_loop n b (int32 (a + b))

/-- `fibonacci`. Without memory for the array its first store is a page fault;
from `n = 2 ^ 30` on, and for a negative `n`, the array is too short for it. -/
def fibonacci (n : Int) : Kernel Int := do
  if ← ask (.malloc .fibonacci ((4 * (n + 1)) % 4294967296).toNat) then
    when (n < 0 ∨ 1073741824 ≤ n) wild
    return fib_loop n.toNat 0 1
  else exit (-1)

def max_of_four_int (a b c d : Int) : Int :=
  let m1 := if a > b then a else b
  let m2 := if c > d then c else d
  if m1 > m2 then m1 else m2

/-- `exec` after the file has been opened, if it could be. -/
def exec_file (file : Option FilePtr) (filename : CharPtr) : Kernel Int :=
  if file.isSome then process_execute filename else return -1

def exec (filename : CharPtr) : Kernel Int := do
  mark .exec_called
  let command ← get_command .exec filename
  let file ← filesys_open (.kernel command)
  let res ← exec_file file filename
  let success ← request .child_load_success
  let res := if success then res else -1
  mark (.exec_returned res)
  return res

def wait (pid : Int) : Kernel Int := process_wait pid

def create (file : CharPtr) (initial_size : Int) : Kernel Bool :=
  if file.is_null then exit (-1) else filesys_create file initial_size

def remove (file : CharPtr) : Kernel Bool := filesys_remove file

/-- Enter a file in a free place of the file table, if there is one. -/
def install_file (cur : Own) (new_file : FilePtr) : Kernel Int :=
  match (List.range' 2 (FD_CNT - 2)).find? fun i => !cur.fd_used i with
  | some i => do
    sema_down .fd_wait
    request (.set_own (.files i (some new_file)))
    request (.set_own (.fd_used i true))
    sema_up .fd_wait
    return i
  | none => return -1

/-- What `open` does with the file system locked. -/
def open_locked (cur : Own) (file : CharPtr) : Kernel Int := do
  match ← filesys_open file with
  | none => return -1
  | some new_file => do
    let res ← install_file cur new_file
    let differ ← strcmp file (.kernel cur.name)
    when (differ = 0) (request (.set_own (.current_file (some new_file))))
    return res

/-- `open` -/
def open_ (file : CharPtr) : Kernel Int := do
  if file.is_null then return -1
  else
    let cur ← request .own
    sema_down .mutex
    let res ← open_locked cur file
    sema_up .mutex
    return res

/-- `cur->files[fd]`. Outside the table this loads, and the caller then uses or
overwrites, other memory. -/
def file_of (cur : Own) (fd : Int) : Kernel (Option FilePtr) := do
  when (fd < 0 ∨ FD_CNT ≤ fd) wild
  return cur.files fd.toNat

def filesize (fd : Int) : Kernel Int := do
  let cur ← request .own
  match ← file_of cur fd with
  | none => panic
  | some file => return (← ask (.file file)).length

/-- The loop of `read` over the keyboard. -/
def read_input (buffer : Addr) : Nat → Nat → Kernel Unit
  | 0, _ => return ()
  | n + 1, i => do
    let c ← ask (.input_getc i)
    store_byte (buffer + BitVec.ofNat 32 i) c
    read_input buffer n (i + 1)

/-- What `read` does with the file system locked. -/
def read_locked (cur : Own) (fd : Int) (buffer : Addr) (size : Word) : Kernel Int := do
  if fd = 0 then
    read_input buffer size.toNat 0
    return size.toInt
  else if 2 ≤ fd ∧ fd < FD_CNT then
    match cur.files fd.toNat with
    | none => return -1
    | some file => return (← file_read file buffer size.toInt)
  else return -1

def read (fd : Int) (buffer : Addr) (size : Word) : Kernel Int := do
  check_address buffer
  let cur ← request .own
  sema_down .mutex
  let res ← read_locked cur fd buffer size
  sema_up .mutex
  return res

/-- What `write` does with the file system locked; `putbuf` loads one character
at a time. -/
def write_locked (cur : Own) (fd : Int) (buffer : Addr) (size : Word) : Kernel Int := do
  if fd = 1 then
    let _ ← memcpy_from (.user buffer) size.toNat 0
    return size.toInt
  else if 2 ≤ fd ∧ fd < FD_CNT then
    match cur.files fd.toNat with
    | none => return -1
    | some file => return (← file_write file (cur.current_file = some file) buffer size.toInt)
  else return -1

def write (fd : Int) (buffer : Addr) (size : Word) : Kernel Int := do
  check_address buffer
  let cur ← request .own
  sema_down .mutex
  let res ← write_locked cur fd buffer size
  sema_up .mutex
  return res

/-- `seek`; `file_seek` asserts that the position is not negative. -/
def seek (fd : Int) (position : Word) : Kernel Unit := do
  let cur ← request .own
  match ← file_of cur fd with
  | none => panic
  | some _ => if position.toInt < 0 then panic else return ()

def tell (fd : Int) : Kernel Int := do
  let cur ← request .own
  match ← file_of cur fd with
  | none => panic
  | some file => return (← ask (.file file)).pos

def close (fd : Int) : Kernel Unit := do
  let cur ← request .own
  let _ ← file_of cur fd
  free_fd fd.toNat

/-- `f->esp + 4 * i` -/
def arg_addr (esp : Addr) (i : Nat) : Addr := esp + BitVec.ofNat 32 (4 * i)

/-- `check_address` on the argument words `1, .., argc`. -/
def check_args (esp : Addr) : Nat → Kernel Unit
  | 0 => return ()
  | argc + 1 => do
    check_args esp argc
    check_address (arg_addr esp (argc + 1))

/-- Argument word `i`. -/
def arg (esp : Addr) (i : Nat) : Kernel Word := load_word (arg_addr esp i)

/-- One case of the `switch`. -/
def dispatch (esp : Addr) : Sysno → Kernel (Option Int)
  | .SYS_HALT => shutdown_power_off
  | .SYS_EXIT => do
    check_args esp 1
    let status ← arg esp 1
    exit status.toInt
  | .SYS_EXEC => do
    check_args esp 1
    let filename ← arg esp 1
    return some (← exec (.user filename))
  | .SYS_WAIT => do
    check_args esp 1
    let pid ← arg esp 1
    return some (← wait pid.toInt)
  | .SYS_CREATE => do
    check_args esp 2
    let file ← arg esp 1
    let initial_size ← arg esp 2
    return some (← create (.user file) initial_size.toInt).toInt
  | .SYS_REMOVE => do
    check_args esp 1
    let file ← arg esp 1
    return some (← remove (.user file)).toInt
  | .SYS_OPEN => do
    check_args esp 1
    let file ← arg esp 1
    return some (← open_ (.user file))
  | .SYS_FILESIZE => do
    check_args esp 1
    let fd ← arg esp 1
    return some (← filesize fd.toInt)
  | .SYS_READ => do
    check_args esp 3
    let fd ← arg esp 1
    let buffer ← arg esp 2
    let size ← arg esp 3
    return some (← read fd.toInt buffer size)
  | .SYS_WRITE => do
    check_args esp 3
    let fd ← arg esp 1
    let buffer ← arg esp 2
    let size ← arg esp 3
    return some (← write fd.toInt buffer size)
  | .SYS_SEEK => do
    check_args esp 2
    let fd ← arg esp 1
    let position ← arg esp 2
    seek fd.toInt position
    return none
  | .SYS_TELL => do
    check_args esp 1
    let fd ← arg esp 1
    return some (← tell fd.toInt)
  | .SYS_CLOSE => do
    check_args esp 1
    let fd ← arg esp 1
    close fd.toInt
    return none
  | .SYS_FIBO => do
    check_args esp 1
    let n ← arg esp 1
    return some (← fibonacci n.toInt)
  | .SYS_MAX => do
    check_args esp 4
    let a ← arg esp 1
    let b ← arg esp 2
    let c ← arg esp 3
    let d ← arg esp 4
    return some (max_of_four_int a.toInt b.toInt c.toInt d.toInt)

/-- `syscall_handler`: the value that the call leaves in `eax`, if it does. -/
def syscall_handler (esp : Addr) : Kernel (Option Int) := do
  check_address esp
  let syscall ← load_word esp
  match Sysno.ofWord syscall with
  | some nr => dispatch esp nr
  | none => return none

end pintos.prj2
