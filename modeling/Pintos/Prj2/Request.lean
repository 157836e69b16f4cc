import Pintos.Lib.Interaction
import Pintos.Prj2.Memory

/-!
# What kernel code asks of the machine

The code a process runs in the kernel is a program over the requests below. A
request is the code between two points at which another thread can run: one
access through a user pointer, one access to a `struct thread` that others also
use, one semaphore operation, one turn of a polling loop, or one call into the
rest of the kernel.
-/

open interaction

namespace pintos.prj2

/-- Address of the page of a `struct thread`. -/
abbrev ThreadId := Nat

/-- Address of a `struct file`. -/
abbrev FilePtr := Nat

/-- A kernel string, without its terminator. -/
abbrev Str := List Byte

/-- A `struct file` with what its inode holds; offsets are not negative. -/
structure File where
  length : Nat
  pos : Nat
  deny_write : Bool
  data : Nat → Byte

def NAME_MAX : Nat := 14

/-- An entry of a directory. `dir_add` writes only names that fit. -/
structure DirEntry where
  name : Str
  in_use : Bool
  length_le : name.length ≤ NAME_MAX
  no_nul : 0 ∉ name
  deriving DecidableEq

/-- The fields of a `struct thread` that only the thread itself uses. -/
structure Own where
  name : Str
  files : Nat → Option FilePtr
  fd_used : Nat → Bool
  current_file : Option FilePtr

/-- A store to one of these fields. -/
inductive OwnStore where
  | files (fd : Nat) (file : Option FilePtr)
  | fd_used (fd : Nat) (used : Bool)
  | current_file (file : Option FilePtr)
  deriving DecidableEq

/-- The places that call `malloc`. -/
inductive Site where
  | exec
  | process_execute
  | load
  | fibonacci
  | inode
  deriving DecidableEq

/-- A question to the rest of the kernel: memory, file system, keyboard and the
loader. Whether `malloc` and the page allocator find memory is part of the
answers. -/
inductive Query where
  | malloc (site : Site) (size : Nat)
  | palloc_get_page
  | pagedir_create
  | dir_open_root
  | file_open
  | file (f : FilePtr)
  | free_map_allocate
  | inode_create (length : Int)
  | dir_write
  | input_getc (i : Nat)
  | load_segments
  | setup_stack (fn_copy : Str)
  deriving DecidableEq

@[reducible] def Query.Ans : Query → Type
  | malloc _ _ => Bool
  | palloc_get_page => Bool
  | pagedir_create => Bool
  | dir_open_root => Option (List DirEntry)
  | file_open => Option FilePtr
  | file _ => File
  | free_map_allocate => Bool
  | inode_create _ => Bool
  | dir_write => Bool
  | input_getc _ => Byte
  | load_segments => Bool
  | setup_stack _ => Bool

/-- The semaphores of the system calls. -/
inductive Sema where
  | mutex
  | fd_wait
  deriving DecidableEq

/-- How a process ends: by `exit`, by `kill` after an exception, or because its
executable cannot be loaded. -/
inductive Ending where
  | exit (status : Int)
  | killed (vec_no : Nat)
  | load_failed
  deriving DecidableEq

/-- Points of the source that the history of a run records. They are no code. -/
inductive Mark where
  | exec_called
  | exec_returned (res : Int)
  | loaded (success : Bool)
  | ended (how : Ending)
  | waited (tid : Int) (status : Int)
  deriving DecidableEq

inductive Op where
  | load (addr : Addr)
  | load_word (addr : Addr)
  | store (addr : Addr) (c : Byte)
  | query (q : Query)
  | own
  | set_own (w : OwnStore)
  | sema_down (sema : Sema)
  | sema_up (sema : Sema)
  | thread_create (name fn_copy : Str)
  | palloc_free_page
  | poll_load_finish
  | child_load_success
  | parent_child_load_success
  | parent_load_finish
  | find_child (child_tid : Int)
  | poll_ready_to_exit (child : ThreadId)
  | child_exit_status (child : ThreadId)
  | list_remove (child : ThreadId)
  | deleted_from_parent (child : ThreadId)
  | exit_status (status : Int)
  | ready_to_exit
  | poll_deleted_from_parent
  | schedule_dying
  | shutdown_power_off
  | panic
  | spin
  | wild
  | mark (m : Mark)
  deriving DecidableEq

@[reducible] def Op.Ans : Op → Type
  | load _ => Byte
  | load_word _ => Word
  | query q => q.Ans
  | own => Own
  | thread_create _ _ => Option Int
  | child_load_success => Bool
  | find_child _ => Option ThreadId
  | child_exit_status _ => Int
  | schedule_dying => Empty
  | shutdown_power_off => Empty
  | panic => Empty
  | spin => Empty
  | _ => Unit

/-- Kernel code that ends with a value. -/
abbrev Kernel (α : Type) := Prog Op Op.Ans α

def request (o : Op) : Kernel o.Ans := .ask o .ret

/-- A question to the rest of the kernel. -/
def ask (q : Query) : Kernel q.Ans := request (.query q)

/-- The byte at a user address. -/
def load_byte (addr : Addr) : Kernel Byte := request (.load addr)

/-- The word at a user address. -/
def load_word (addr : Addr) : Kernel Word := request (.load_word addr)

/-- Store a byte at a user address. -/
def store_byte (addr : Addr) (c : Byte) : Kernel Unit := request (.store addr c)

def sema_down (sema : Sema) : Kernel Unit := request (.sema_down sema)

def sema_up (sema : Sema) : Kernel Unit := request (.sema_up sema)

/-- `if (c) code;` -/
def when (c : Prop) [Decidable c] (code : Kernel Unit) : Kernel Unit :=
  if c then code else return ()

def mark (m : Mark) : Kernel Unit := request (.mark m)

/-- A request that the code does not come back from. -/
def final {α : Type} (o : Op) (h : o.Ans = Empty) : Kernel α :=
  .ask o fun r => (h ▸ r : Empty).elim

/-- A failed assertion: the kernel panics. -/
def panic {α : Type} : Kernel α := final .panic rfl

def shutdown_power_off {α : Type} : Kernel α := final .shutdown_power_off rfl

/-- A loop that turns forever. -/
def spin {α : Type} : Kernel α := final .spin rfl

/-- A store outside the object it is meant for, or a load from there whose value
is used as an address. -/
def wild : Kernel Unit := request .wild

end pintos.prj2
