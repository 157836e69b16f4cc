import Pintos.Filesys.InodeData
import Mathlib.Data.List.Range

/-!
# The free map (`lib/kernel/bitmap.c`, `filesys/free-map.c`)

One bit for each sector of the device, set where the sector is in use. The map is
kept in memory and written to its file after each change.
-/

open twos_complement bytes state_error

namespace pintos.filesys

/-- `elem_cnt`: the number of 32-bit elements for `bit_cnt` bits. -/
def elem_cnt (bit_cnt : Nat) : Nat := uint32 (bit_cnt + 32 - 1) / 32

/-- `byte_cnt`: the number of bytes for `bit_cnt` bits. -/
def byte_cnt (bit_cnt : Nat) : Nat := uint32 (4 * elem_cnt bit_cnt)

namespace bitmap

/-- `bitmap_mark`. -/
def mark (b : bitmap) (idx : Nat) : bitmap :=
  { b with bits := fun i => if i = idx then true else b.bits i }

/-- `bitmap_contains`, on a range inside the map. -/
def contains (b : bitmap) (start cnt : Nat) (value : Bool) : Bool :=
  (List.range cnt).any fun i => b.bits (start + i) == value

/-- `bitmap_all`, on a range inside the map. -/
def all (b : bitmap) (start cnt : Nat) : Bool := !b.contains start cnt false

/-- `bitmap_scan`: the first group of `cnt` bits that are all set to `value`. -/
def scan (b : bitmap) (start cnt : Nat) (value : Bool) : Option Nat :=
  if cnt ≤ b.bit_cnt then
    (List.range' start (b.bit_cnt - cnt + 1 - start)).find? fun i => !b.contains i cnt (!value)
  else none

/-- The map after `bitmap_set_multiple`. -/
def set (b : bitmap) (start cnt : Nat) (value : Bool) : bitmap :=
  { b with bits := fun i => if start ≤ i ∧ i < start + cnt then value else b.bits i }

/-- The elements of the map as bytes: bit `k` is bit `k % 8` of byte `k / 8`. -/
def bytes (b : bitmap) : Bytes := fun i => BitVec.ofNat 8 (((List.range 8).map fun j =>
  if b.bits (8 * i + j) then 2 ^ j else 0).sum)

/-- The map whose elements are these bytes. The bits after the last one are
cleared. -/
def read (b : bitmap) (buffer : Bytes) : bitmap :=
  { b with bits := fun i => if i < b.bit_cnt then (buffer (i / 8)).getLsbD (i % 8) else false }

end bitmap

/-- A range of bits that the functions on bitmaps accept. -/
def bitmap_check (start cnt : Nat) : Fs Unit := do
  let s ← Exec.get
  Exec.ASSERT (start ≤ s.free_map.bit_cnt) .bitmap_range
  Exec.ASSERT (uint32 (start + cnt) ≤ s.free_map.bit_cnt) .bitmap_range

/-- `bitmap_set_multiple` on the free map. -/
def bitmap_set_multiple (start cnt : Nat) (value : Bool) : Fs Unit := do
  bitmap_check start cnt
  Exec.modify fun s => { s with free_map := s.free_map.set start cnt value }

/-- `bitmap_scan_and_flip` on the free map. -/
def bitmap_scan_and_flip (start cnt : Nat) (value : Bool) : Fs (Option Nat) := do
  let s ← Exec.get
  match s.free_map.scan start cnt value with
  | some idx => do
    bitmap_set_multiple idx cnt (!value)
    return some idx
  | none => return none

/-- The struct that the pointer to a file points to. -/
def deref_file (f : Ptr) : Fs file := fun s =>
  match s.files f with
  | some file => .ok (file, s)
  | none => .error .wild_pointer

/-- `file_read_at`. -/
def file_read_at (f : Ptr) (buffer : Bytes) (size file_ofs : Int) : Fs (Int × Bytes) := do
  let file ← deref_file f
  inode_read_at file.inode buffer size file_ofs

/-- `file_write_at`. -/
def file_write_at (f : Ptr) (buffer : Bytes) (size file_ofs : Int) : Fs Int := do
  let file ← deref_file f
  inode_write_at file.inode buffer size file_ofs

/-- `bitmap_write` of the free map. -/
def bitmap_write (f : Ptr) : Fs Bool := do
  let s ← Exec.get
  let size := int32 (byte_cnt s.free_map.bit_cnt)
  return (← file_write_at f s.free_map.bytes size 0) = size

/-- `bitmap_read` into the free map. -/
def bitmap_read (f : Ptr) : Fs Bool := do
  let s ← Exec.get
  if s.free_map.bit_cnt > 0 then
    let size := int32 (byte_cnt s.free_map.bit_cnt)
    let (bytes_read, buffer) ← file_read_at f s.free_map.bytes size 0
    Exec.modify fun s => { s with free_map := s.free_map.read buffer }
    return bytes_read = size
  else return true

/-- `free_map_file == NULL || bitmap_write (free_map, free_map_file)`. -/
def free_map_save : Fs Bool := do
  let s ← Exec.get
  match s.free_map_file with
  | none => return true
  | some f => bitmap_write f

/-- `free_map_allocate`: the first of the sectors. -/
def free_map_allocate (cnt : Nat) : Fs (Option Nat) := do
  match ← bitmap_scan_and_flip 0 cnt false with
  | none => return none
  | some sector =>
    if ← free_map_save then return some sector
    else
      bitmap_set_multiple sector cnt false
      return none

/-- `free_map_release`. -/
def free_map_release (sector cnt : Nat) : Fs Unit := do
  bitmap_check sector cnt
  let s ← Exec.get
  Exec.ASSERT (s.free_map.all sector cnt = true) .release_of_free_sector
  bitmap_set_multiple sector cnt false
  match s.free_map_file with
  | none => Exec.throw .wild_pointer
  | some f => do
    let _ ← bitmap_write f
    return ()

end pintos.filesys
