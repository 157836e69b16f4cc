import Pintos.Filesys.Device

/-!
# Reading and writing the data of an inode (`filesys/inode.c`)

`inode_read_at` and `inode_write_at` go through a file sector by sector. A whole
sector goes directly to or from the caller's buffer, a part of one through a
bounce buffer.
-/

open twos_complement bytes state_error

namespace pintos.filesys

/-- `BLOCK_SECTOR_SIZE`, a number of bytes. -/
abbrev SECTOR_SIZE : Int := 512

/-- A 32-bit unsigned integer. -/
def uint32 (x : Int) : Nat := (x % 2 ^ 32).toNat

/-- `bytes_to_sectors`: the number of sectors to allocate. -/
def bytes_to_sectors (size : Int) : Nat :=
  uint32 ((int32 (int32 (size + SECTOR_SIZE) - 1)).tdiv SECTOR_SIZE)

/-- `inode_length`. -/
def inode_length (inode : inode) : Int := inode.data.length

/-- `byte_to_sector`. -/
def byte_to_sector (inode : inode) (pos : Int) : Nat :=
  if pos < inode.data.length then uint32 (inode.data.start + pos.tdiv SECTOR_SIZE)
  else uint32 (-1)

/-- The bytes left in the sector. -/
def sector_left (offset : Int) : Int := int32 (SECTOR_SIZE - offset.tmod SECTOR_SIZE)

/-- The number of bytes of this sector that one turn of the loop transfers: the
least of what is asked for, what is left in the inode and what is left in the
sector. -/
def chunk_size (inode : inode) (size offset : Int) : Int :=
  let inode_left := int32 (inode_length inode - offset)
  let min_left := if inode_left < sector_left offset then inode_left else sector_left offset
  if size < min_left then size else min_left

theorem chunk_size_le (inode : inode) (size offset : Int) : chunk_size inode size offset ≤ size := by
  simp only [chunk_size]
  split_ifs <;> omega

/-- The loops end: the size gets smaller. -/
theorem size_decreases {inode : inode} {size offset : Int} (hchunk : ¬ chunk_size inode size offset ≤ 0) :
    (int32 (size - chunk_size inode size offset)).toNat < size.toNat := by
  have hle := chunk_size_le inode size offset
  have hwrap := int32_le (x := size - chunk_size inode size offset) (by omega)
  omega

/-- The bounce buffer: it is allocated when it is needed first. -/
def need_bounce (bounce : Bool) : Fs Bool :=
  if bounce then return true else return (← malloc).isSome

/-- The loop of `inode_read_at`: the bytes read so far are in `buffer`. -/
def inode_read_loop (inode : inode) (buffer : Bytes) (size offset bytes_read : Int) (bounce : Bool) :
    Fs (Int × Bytes) :=
  if size > 0 then
    let sector_idx := byte_to_sector inode offset
    let sector_ofs := offset.tmod SECTOR_SIZE
    let chunk := chunk_size inode size offset
    if _hchunk : chunk ≤ 0 then return (bytes_read, buffer)
    else if sector_ofs = 0 ∧ chunk = SECTOR_SIZE then do
      let sector ← block_read sector_idx
      inode_read_loop inode (copy buffer bytes_read.toNat sector 0 BLOCK_SECTOR_SIZE)
        (int32 (size - chunk)) (int32 (offset + chunk)) (int32 (bytes_read + chunk)) bounce
    else do
      if ← need_bounce bounce then
        let sector ← block_read sector_idx
        inode_read_loop inode (copy buffer bytes_read.toNat sector sector_ofs.toNat chunk.toNat)
          (int32 (size - chunk)) (int32 (offset + chunk)) (int32 (bytes_read + chunk)) true
      else return (bytes_read, buffer)
  else return (bytes_read, buffer)
termination_by size.toNat
decreasing_by all_goals exact size_decreases _hchunk

/-- The struct that `p` points to. -/
def deref (p : Ptr) : Fs inode := fun s =>
  match s.inodes p with
  | some inode => .ok (inode, s)
  | none => .error .wild_pointer

/-- `inode_read_at`: the number of bytes read, and the caller's buffer. -/
def inode_read_at (p : Ptr) (buffer : Bytes) (size offset : Int) : Fs (Int × Bytes) := do
  let inode ← deref p
  inode_read_loop inode buffer size offset 0 false

/-- The loop of `inode_write_at`. -/
def inode_write_loop (inode : inode) (buffer : Bytes) (size offset bytes_written : Int)
    (bounce : Bool) : Fs Int :=
  if size > 0 then
    let sector_idx := byte_to_sector inode offset
    let sector_ofs := offset.tmod SECTOR_SIZE
    let chunk := chunk_size inode size offset
    if _hchunk : chunk ≤ 0 then return bytes_written
    else if sector_ofs = 0 ∧ chunk = SECTOR_SIZE then do
      block_write sector_idx (drop buffer bytes_written.toNat)
      inode_write_loop inode buffer
        (int32 (size - chunk)) (int32 (offset + chunk)) (int32 (bytes_written + chunk)) bounce
    else do
      if ← need_bounce bounce then
        -- A sector that is not written as a whole is read first.
        let sector ← if sector_ofs > 0 ∨ chunk < sector_left offset then block_read sector_idx
          else pure fun _ => 0
        block_write sector_idx (copy sector sector_ofs.toNat buffer bytes_written.toNat chunk.toNat)
        inode_write_loop inode buffer
          (int32 (size - chunk)) (int32 (offset + chunk)) (int32 (bytes_written + chunk)) true
      else return bytes_written
  else return bytes_written
termination_by size.toNat
decreasing_by all_goals exact size_decreases _hchunk

/-- `inode_write_at`: the number of bytes written. -/
def inode_write_at (p : Ptr) (buffer : Bytes) (size offset : Int) : Fs Int := do
  let inode ← deref p
  if inode.deny_write_cnt ≠ 0 then return 0
  else inode_write_loop inode buffer size offset 0 false

end pintos.filesys
