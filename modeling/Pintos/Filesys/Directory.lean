import Pintos.Filesys.Inode

/-!
# Directories and the file system (`filesys/directory.c`, `filesys/filesys.c`)

A directory is a file of entries. An entry is the 20 bytes of its `struct
dir_entry`, and a file name the characters before its null byte.
-/

open twos_complement bytes state_error

namespace pintos.filesys

def FREE_MAP_SECTOR : Nat := 0

def ROOT_DIR_SECTOR : Nat := 1

/-- Maximum length of a file name component. -/
def NAME_MAX : Nat := 14

/-- `sizeof (struct dir_entry)`. -/
def ENTRY_SIZE : Nat := 20

/-- A directory. -/
structure dir where
  inode : Ptr
  pos : Int

namespace dir_entry

/-- Sector number of header. -/
def inode_sector (e : Bytes) : Nat := word e 0

/-- In use or free? -/
def in_use (e : Bytes) : Bool := e 19 ≠ 0

/-- `!strcmp (name, s)`, for the string from byte `pos` on. -/
def same_name : List Byte → Bytes → Nat → Bool
  | [], e, pos => e pos == 0
  | c :: name, e, pos => e pos == c && same_name name e (pos + 1)

/-- Whether the entry is in use for the name. -/
def is_for (e : Bytes) (name : List Byte) : Bool := in_use e && same_name name e 4

/-- The characters that `strlcpy` copies from the name. -/
def name (e : Bytes) : List Byte := ((List.range NAME_MAX).map fun i => e (4 + i)).takeWhile (· != 0)

/-- The entry after `e.in_use = true`, the copy of the name and `e.inode_sector = ..`. -/
def set (e : Bytes) (name : List Byte) (inode_sector : Nat) : Bytes :=
  store_word (copy (fun i => if i = 19 then 1 else e i) 4 (fun i => name.getD i 0) 0 (name.length + 1))
    0 inode_sector

/-- The entry after `e.in_use = false`. -/
def clear (e : Bytes) : Bytes := fun i => if i = 19 then 0 else e i

end dir_entry

/-- `dir_create`. -/
def dir_create (sector entry_cnt : Nat) : Fs Bool := inode_create sector (entry_cnt * ENTRY_SIZE : Nat)

/-- `dir_open`. -/
def dir_open (inode : Option Ptr) : Fs (Option dir) := do
  let block ← malloc
  match inode, block with
  | some p, some _ => return some { inode := p, pos := 0 }
  | _, _ => do
    inode_close inode
    return none

/-- `dir_open_root`. -/
def dir_open_root : Fs (Option dir) := do dir_open (← inode_open ROOT_DIR_SECTOR)

/-- `dir_close`. -/
def dir_close : Option dir → Fs Unit
  | none => return ()
  | some d => inode_close (some d.inode)

/-- The most turns that a loop over the entries of a directory takes. -/
def entry_turns (d : dir) : Fs Nat := do
  let inode ← deref d.inode
  return inode.data.length.toNat + 1

/-- The loop of `lookup`, from offset `ofs` on. -/
def lookup_loop (d : dir) (name : List Byte) : Nat → Nat → Bytes → Fs (Option (Bytes × Nat))
  | 0, _, _ => Exec.throw .endless_directory
  | n + 1, ofs, e => do
    let (bytes_read, e) ← inode_read_at d.inode e ENTRY_SIZE ofs
    if bytes_read = ENTRY_SIZE then
      if dir_entry.is_for e name then return some (e, ofs) else lookup_loop d name n (ofs + ENTRY_SIZE) e
    else return none

/-- `lookup`: the entry and its offset. -/
def lookup (d : dir) (name : List Byte) : Fs (Option (Bytes × Nat)) := do
  let turns ← entry_turns d
  let s ← Exec.get
  lookup_loop d name turns 0 s.garbage

/-- `dir_lookup`. -/
def dir_lookup (d : dir) (name : List Byte) : Fs (Option Ptr) := do
  match ← lookup d name with
  | some (e, _) => inode_open (dir_entry.inode_sector e)
  | none => return none

/-- The loop of `dir_add`: what is in the entry, and its offset. -/
def free_slot_loop (d : dir) : Nat → Nat → Bytes → Fs (Bytes × Nat)
  | 0, _, _ => Exec.throw .endless_directory
  | n + 1, ofs, e => do
    let (bytes_read, e) ← inode_read_at d.inode e ENTRY_SIZE ofs
    if bytes_read = ENTRY_SIZE then
      if !dir_entry.in_use e then return (e, ofs) else free_slot_loop d n (ofs + ENTRY_SIZE) e
    else return (e, ofs)

/-- `dir_add`. -/
def dir_add (d : dir) (name : List Byte) (inode_sector : Nat) : Fs Bool := do
  if name = [] ∨ name.length > NAME_MAX then return false
  else
    match ← lookup d name with
    | some _ => return false
    | none => do
      let turns ← entry_turns d
      let s ← Exec.get
      let (e, ofs) ← free_slot_loop d turns 0 s.garbage
      return (← inode_write_at d.inode (dir_entry.set e name inode_sector) ENTRY_SIZE ofs) = ENTRY_SIZE

/-- `dir_remove`. -/
def dir_remove (d : dir) (name : List Byte) : Fs Bool := do
  match ← lookup d name with
  | none => return false
  | some (e, ofs) =>
    match ← inode_open (dir_entry.inode_sector e) with
    | none => return false
    | some p => do
      let written ← inode_write_at d.inode (dir_entry.clear e) ENTRY_SIZE ofs
      if written = ENTRY_SIZE then
        inode_remove p
        inode_close (some p)
        return true
      else
        inode_close (some p)
        return false

/-- The loop of `dir_readdir`: the entry that is in use, if there is one, and `pos`. -/
def readdir_loop (d : dir) : Nat → Int → Bytes → Fs (Option Bytes × Int)
  | 0, _, _ => Exec.throw .endless_directory
  | n + 1, pos, e => do
    let (bytes_read, e) ← inode_read_at d.inode e ENTRY_SIZE pos
    if bytes_read = ENTRY_SIZE then
      let pos := int32 (pos + ENTRY_SIZE)
      if dir_entry.in_use e then return (some e, pos) else readdir_loop d n pos e
    else return (none, pos)

/-- `dir_readdir`: the name, if there is an entry, and the directory. -/
def dir_readdir (d : dir) : Fs (Option (List Byte) × dir) := do
  let turns ← entry_turns d
  let s ← Exec.get
  let (e, pos) ← readdir_loop d turns d.pos s.garbage
  return (e.map dir_entry.name, { d with pos })

/-- The conditions of `filesys_create` in turn: whether all hold, and `inode_sector`. -/
def create_in (dir : Option dir) (name : List Byte) (initial_size : Int) : Fs (Bool × Nat) := do
  match dir with
  | none => return (false, 0)
  | some d =>
    match ← free_map_allocate 1 with
    | none => return (false, 0)
    | some inode_sector =>
      if ← inode_create inode_sector initial_size then
        return (← dir_add d name inode_sector, inode_sector)
      else return (false, inode_sector)

/-- `filesys_create`. -/
def filesys_create (name : List Byte) (initial_size : Int) : Fs Bool := do
  let dir ← dir_open_root
  let (success, inode_sector) ← create_in dir name initial_size
  if success = false ∧ inode_sector ≠ 0 then free_map_release inode_sector 1
  dir_close dir
  return success

/-- `filesys_open`. -/
def filesys_open (name : List Byte) : Fs (Option Ptr) := do
  let dir ← dir_open_root
  let inode ← match dir with
    | some d => dir_lookup d name
    | none => pure none
  dir_close dir
  file_open inode

/-- `filesys_remove`. -/
def filesys_remove (name : List Byte) : Fs Bool := do
  let dir ← dir_open_root
  let success ← match dir with
    | some d => dir_remove d name
    | none => pure false
  dir_close dir
  return success

/-- `malloc` of so many bytes: a null pointer where that is none. -/
def malloc_bytes (size : Nat) : Fs (Option Ptr) := if size = 0 then return none else malloc

/-- `bitmap_create`. The bits of the last element after those of the map stay as they are
in memory. -/
def bitmap_create (bit_cnt : Nat) : Fs (Option bitmap) := do
  match ← malloc with
  | none => return none
  | some _ =>
    let bits ← malloc_bytes (byte_cnt bit_cnt)
    if bits.isSome ∨ bit_cnt = 0 then
      let s ← Exec.get
      return some { bit_cnt, bits := fun i => if i < bit_cnt then false else (s.garbage
        (i / 8)).getLsbD (i % 8) }
    else return none

/-- `free_map_init`. A map without bits has no elements to mark them in. -/
def free_map_init : Fs Unit := do
  let s ← Exec.get
  match ← bitmap_create s.fs_device.size with
  | none => Exec.throw .init
  | some b =>
    Exec.ASSERT (b.bit_cnt ≠ 0) .wild_pointer
    Exec.modify fun s => { s with free_map := (b.mark FREE_MAP_SECTOR).mark ROOT_DIR_SECTOR }

/-- `free_map_close`. -/
def free_map_close : Fs Unit := do
  let s ← Exec.get
  file_close s.free_map_file

/-- `free_map_create`. -/
def free_map_create : Fs Unit := do
  let s ← Exec.get
  if ← inode_create FREE_MAP_SECTOR (int32 (byte_cnt s.free_map.bit_cnt)) then
    let f ← file_open (← inode_open FREE_MAP_SECTOR)
    Exec.modify fun s => { s with free_map_file := f }
    match f with
    | none => Exec.throw .init
    | some f => if ← bitmap_write f then return () else Exec.throw .init
  else Exec.throw .init

/-- `do_format`. -/
def do_format : Fs Unit := do
  free_map_create
  if ← dir_create ROOT_DIR_SECTOR 16 then
    let s ← Exec.get
    file_close s.free_map_file
  else Exec.throw .init

/-- `filesys_init`, on the device in the state. -/
def filesys_init (format : Bool) : Fs Unit := do
  Exec.modify fun s => { s with open_inodes := [] }
  free_map_init
  if format then do_format
  free_map_open

end pintos.filesys
