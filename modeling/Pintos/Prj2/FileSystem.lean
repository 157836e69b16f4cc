import Pintos.Prj2.Request
import Mathlib.Data.List.Basic

/-!
# Strings, directories and file data (`lib/string.c`, `filesys`)

A pointer to characters is a user address or a kernel string. A loop over a user
string that finds no end runs through the whole address space and never stops.
-/

open interaction

namespace pintos.prj2

/-- `const char *`. -/
inductive CharPtr where
  | user (addr : Addr)
  | kernel (s : Str)

namespace CharPtr

/-- `p[i]`. -/
def get (p : CharPtr) (i : Nat) : Kernel Byte :=
  match p with
  | user addr => load_byte (addr + BitVec.ofNat 32 i)
  | kernel s => return s.getD i 0

def is_null : CharPtr → Bool
  | user addr => addr = 0
  | kernel _ => false

end CharPtr

/-- Number of addresses. -/
def ADDR_CNT : Nat := 4294967296

def strlen_loop (string : CharPtr) : Nat → Nat → Kernel Nat
  | 0, _ => spin
  | n + 1, i => do
    let c ← string.get i
    if c = 0 then return i else strlen_loop string n (i + 1)

def strlen (string : CharPtr) : Kernel Nat :=
  if string.is_null then panic else strlen_loop string ADDR_CNT 0

def strcmp_loop (a b : CharPtr) : Nat → Nat → Kernel Int
  | 0, _ => spin
  | n + 1, i => do
    let c ← a.get i
    let d ← b.get i
    if c ≠ 0 ∧ c = d then strcmp_loop a b n (i + 1)
    else return if c < d then -1 else if d < c then 1 else 0

def strcmp (a b : CharPtr) : Kernel Int :=
  if a.is_null || b.is_null then panic else strcmp_loop a b ADDR_CNT 0

/-- The bytes that `memcpy` copies out of `src`, from byte `i` on. -/
def memcpy_from (src : CharPtr) : Nat → Nat → Kernel Str
  | 0, _ => return []
  | n + 1, i => do
    let c ← src.get i
    return c :: (← memcpy_from src n (i + 1))

/-- `strlcpy` into a kernel buffer of `size` bytes: the string that is there
afterwards. -/
def strlcpy (src : CharPtr) (size : Nat) : Kernel Str := do
  let src_len ← strlen src
  memcpy_from src (min src_len (size - 1)) 0

/-- The stores of `memcpy` to user memory, from byte `i` on. -/
def memcpy_to (dst : Addr) (c : Nat → Byte) : Nat → Nat → Kernel Unit
  | 0, _ => return ()
  | n + 1, i => do
    store_byte (dst + BitVec.ofNat 32 i) (c i)
    memcpy_to dst c n (i + 1)

/-- `lookup`: whether an entry in use has the name. -/
def lookup (name : CharPtr) : List DirEntry → Kernel Bool
  | [] => return false
  | e :: rest => do
    if e.in_use then
      if (← strcmp name (.kernel e.name)) = 0 then return true else lookup name rest
    else lookup name rest

/-- `dir_add`. The slot that is written holds a kernel copy of the name. -/
def dir_add (dir : List DirEntry) (name : CharPtr) : Kernel Bool := do
  if name.is_null then panic
  else
    let c ← name.get 0
    if c = 0 then return false
    else
      let len ← strlen name
      if NAME_MAX < len then return false
      else if ← lookup name dir then return false
      else
        let _ ← strlcpy name (NAME_MAX + 1)
        ask .dir_write

/-- `dir_remove`. -/
def dir_remove (dir : List DirEntry) (name : CharPtr) : Kernel Bool := do
  if name.is_null then panic
  else if ← lookup name dir then ask .dir_write
  else return false

/-- Code that works on the root directory, or fails if it cannot be opened. -/
def with_root {α : Type} (failure : α) (body : List DirEntry → Kernel α) : Kernel α := do
  match ← ask .dir_open_root with
  | none => return failure
  | some dir => body dir

/-- `dir_lookup`, and `file_open` of the inode found. -/
def open_in (name : CharPtr) (dir : List DirEntry) : Kernel (Option FilePtr) := do
  if name.is_null then panic
  else if ← lookup name dir then ask .file_open
  else return none

/-- `filesys_open`: the opened file, if an entry has the name and memory is found. -/
def filesys_open (name : CharPtr) : Kernel (Option FilePtr) := with_root none (open_in name)

/-- `filesys_create` in the root directory; `inode_create` asserts that the
length is not negative. -/
def create_in (name : CharPtr) (initial_size : Int) (dir : List DirEntry) : Kernel Bool := do
  if ← ask .free_map_allocate then
    if initial_size < 0 then panic
    else if ← ask (.inode_create initial_size) then dir_add dir name
    else return false
  else return false

/-- `filesys_create` -/
def filesys_create (name : CharPtr) (initial_size : Int) : Kernel Bool :=
  with_root false (create_in name initial_size)

/-- `filesys_remove` -/
def filesys_remove (name : CharPtr) : Kernel Bool := with_root false fun dir => dir_remove dir name

def BLOCK_SECTOR_SIZE : Nat := 512

/-- Bytes that one turn of the loops below moves: what is left of the request, of
the file and of the sector. -/
def chunk_size (file : File) (size offset : Nat) : Nat :=
  min size (min (file.length - offset) (BLOCK_SECTOR_SIZE - offset % BLOCK_SECTOR_SIZE))

/-- Whether a turn moves a full sector without the bounce buffer. -/
def full_sector (file : File) (size offset : Nat) : Bool :=
  offset % BLOCK_SECTOR_SIZE = 0 && chunk_size file size offset = BLOCK_SECTOR_SIZE

/-- The loops of `inode_read_at` and `inode_write_at`, which move `copy i n` bytes
from byte `i` of the buffer on in a turn. The bounce buffer is allocated in the
first turn that needs it. -/
def inode_loop (file : File) (copy : Nat → Nat → Kernel Unit) :
    Nat → Nat → Nat → Nat → Bool → Kernel Nat
  | 0, _, _, bytes, _ => return bytes
  | n + 1, size, offset, bytes, bounce => do
    let chunk := chunk_size file size offset
    if chunk = 0 then return bytes
    else if full_sector file size offset || bounce then
      copy bytes chunk
      inode_loop file copy n (size - chunk) (offset + chunk) (bytes + chunk) bounce
    else if ← ask (.malloc .inode BLOCK_SECTOR_SIZE) then
      copy bytes chunk
      inode_loop file copy n (size - chunk) (offset + chunk) (bytes + chunk) true
    else return bytes

/-- `inode_read_at` into a user buffer. A negative size reads nothing. -/
def inode_read_at (file : File) (buffer : Addr) (size : Int) (offset : Nat) : Kernel Nat :=
  inode_loop file (fun i n => memcpy_to buffer (fun j => file.data (offset + j)) n i) size.toNat
    size.toNat offset 0 false

/-- `inode_write_at` from a user buffer. -/
def inode_write_at (file : File) (buffer : Addr) (size : Int) (offset : Nat) : Kernel Nat :=
  if file.deny_write then return 0
  else inode_loop file (fun i n => do let _ ← memcpy_from (.user buffer) n i) size.toNat
    size.toNat offset 0 false

/-- `file_read`. -/
def file_read (f : FilePtr) (buffer : Addr) (size : Int) : Kernel Nat := do
  let file ← ask (.file f)
  inode_read_at file buffer size file.pos

/-- `file_write`, after `file_deny_write` if `deny` is set. -/
def file_write (f : FilePtr) (deny : Bool) (buffer : Addr) (size : Int) : Kernel Nat := do
  let file ← ask (.file f)
  inode_write_at { file with deny_write := file.deny_write || deny } buffer size file.pos

end pintos.prj2
