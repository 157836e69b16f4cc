import Pintos.Lib.Bytes
import Pintos.Lib.StateError

/-!
# State of the file system (`devices/block.c`, `filesys/inode.c`, `filesys/file.c`)

The block device, the structures in memory and the answers of `malloc`. A call
takes the state along and can end in a kernel panic.
-/

open twos_complement bytes state_error

namespace pintos.filesys

/-- A `uint8_t`. -/
abbrev Byte := BitVec 8

/-- What a pointer to bytes points to. -/
abbrev Bytes := Nat → Byte

def BLOCK_SECTOR_SIZE : Nat := 512

/-- A block device: its size in sectors, and the bytes of each sector. -/
structure block where
  size : Nat
  sector : Nat → Bytes

/-- The on-disk inode. -/
structure inode_disk where
  start : Nat
  length : Int
  magic : Nat
  deriving DecidableEq, Repr

/-- The address of a structure in memory. -/
abbrev Ptr := Nat

/-- The in-memory inode. -/
structure inode where
  sector : Nat
  open_cnt : Int
  removed : Bool
  deny_write_cnt : Int
  data : inode_disk
  deriving DecidableEq, Repr

/-- An open file. -/
structure file where
  inode : Ptr
  pos : Int
  deny_write : Bool
  deriving DecidableEq, Repr

/-- An array of bits. -/
structure bitmap where
  bit_cnt : Nat
  bits : Nat → Bool

/-- The kernel panics of the file system. -/
inductive Panic where
  | access_past_end
  | wild_pointer
  | bitmap_range
  | release_of_free_sector
  | negative_length
  | deny_write_cnt
  | init
  | endless_directory
  deriving DecidableEq, Repr

/-- The state of the file system. `malloc` has been asked `asked` times and its
answer to the `n`th question is a new block or, where `oom n` holds, a null
pointer. `garbage` is what an uninitialised local variable holds. -/
structure State where
  fs_device : block
  oom : Nat → Bool
  asked : Nat
  garbage : Bytes
  inodes : Ptr → Option inode
  open_inodes : List Ptr
  files : Ptr → Option file
  free_map : bitmap
  free_map_file : Option Ptr

/-- Code of the file system. -/
abbrev Fs (α : Type) := Exec State Panic α

/-- `malloc` and `calloc`. -/
def malloc : Fs (Option Ptr) := fun s =>
  .ok (if s.oom s.asked then none else some s.asked, { s with asked := s.asked + 1 })

/-- `block_read`: the bytes of a sector. -/
def block_read (sector : Nat) : Fs Bytes := do
  let s ← Exec.get
  Exec.ASSERT (sector < s.fs_device.size) .access_past_end
  return s.fs_device.sector sector

/-- A device after a write to one of its sectors. -/
def block.store (b : block) (sector : Nat) (buffer : Bytes) : block :=
  { b with sector := fun k =>
      if k = sector then copy (b.sector k) 0 buffer 0 BLOCK_SECTOR_SIZE else b.sector k }

theorem block.store_same {b : block} {sector : Nat} {buffer : Bytes} {i : Nat} (hi : i < BLOCK_SECTOR_SIZE) :
    (b.store sector buffer).sector sector i = buffer i := by
  simp only [block.store, if_true]
  rw [copy_inside (Nat.zero_le i) (by omega)]
  simp

theorem block.store_ne {b : block} {sector k : Nat} (buffer : Bytes) (hk : k ≠ sector) :
    (b.store sector buffer).sector k = b.sector k :=
  if_neg hk

/-- `block_write`. -/
def block_write (sector : Nat) (buffer : Bytes) : Fs Unit := do
  let s ← Exec.get
  Exec.ASSERT (sector < s.fs_device.size) .access_past_end
  Exec.modify fun s => { s with fs_device := s.fs_device.store sector buffer }

section Access

variable {s : State} {sector : Nat}

theorem block_read_run (h : sector < s.fs_device.size) :
    block_read sector s = .ok (s.fs_device.sector sector, s) := by
  rw [block_read, Exec.bind_run Exec.get_run, Exec.bind_run (Exec.ASSERT_run h _)]
  rfl

theorem block_write_run (h : sector < s.fs_device.size) (buffer : Bytes) :
    block_write sector buffer s = .ok ((), { s with fs_device := s.fs_device.store sector buffer }) := by
  rw [block_write, Exec.bind_run Exec.get_run, Exec.bind_run (Exec.ASSERT_run h _)]
  rfl

end Access

end pintos.filesys
