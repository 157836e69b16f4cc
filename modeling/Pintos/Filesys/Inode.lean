import Pintos.Filesys.FreeMap

/-!
# Inodes and open files (`filesys/inode.c`, `filesys/file.c`)

Creating an inode on the device, and the in-memory inodes that openers share.
-/

open twos_complement bytes state_error

namespace pintos.filesys

def INODE_MAGIC : Nat := 0x494e4f44

/-- An on-disk inode as the bytes of a sector. -/
def inode_disk.bytes (d : inode_disk) : Bytes :=
  store_word (store_word (store_word (fun _ => 0) 0 d.start) 4 (uint32 d.length)) 8 d.magic

/-- The on-disk inode in the bytes of a sector. -/
def inode_disk.of_bytes (b : Bytes) : inode_disk where
  start := word b 0
  length := int32 (word b 4)
  magic := word b 8

/-- The loop of `inode_create` that fills the data sectors with zeros. -/
def zero_loop (start : Nat) : Nat → Nat → Fs Unit
  | 0, _ => return ()
  | n + 1, i => do
    block_write (uint32 (start + i)) fun _ => 0
    zero_loop start n (i + 1)

/-- `inode_create`. -/
def inode_create (sector : Nat) (length : Int) : Fs Bool := do
  Exec.ASSERT (length ≥ 0) .negative_length
  match ← malloc with
  | none => return false
  | some _ =>
    let sectors := bytes_to_sectors length
    match ← free_map_allocate sectors with
    | none => return false
    | some start =>
      block_write sector (inode_disk.bytes { start, length, magic := INODE_MAGIC })
      zero_loop start sectors 0
      return true

/-- Change the struct that `p` points to. -/
def store_inode (p : Ptr) (inode : Option inode) : Fs Unit :=
  Exec.modify fun s => { s with inodes := fun q => if q = p then inode else s.inodes q }

/-- `inode_reopen`. Each opener is a block of memory, so that `open_cnt` does not
overflow. -/
def inode_reopen (p : Ptr) : Fs Unit := do
  let inode ← deref p
  store_inode p (some { inode with open_cnt := inode.open_cnt + 1 })

/-- The inode among `open_inodes` that is in `sector`. -/
def open_inode_at (sector : Nat) : List Ptr → Fs (Option Ptr)
  | [] => return none
  | p :: rest => do
    let inode ← deref p
    if inode.sector = sector then return some p else open_inode_at sector rest

/-- `inode_open`. -/
def inode_open (sector : Nat) : Fs (Option Ptr) := do
  let s ← Exec.get
  match ← open_inode_at sector s.open_inodes with
  | some p => do
    inode_reopen p
    return some p
  | none =>
    match ← malloc with
    | none => return none
    | some p =>
      Exec.modify fun s => { s with open_inodes := p :: s.open_inodes }
      let data ← block_read sector
      let data := inode_disk.of_bytes data
      store_inode p (some { sector, open_cnt := 1, removed := false, deny_write_cnt := 0, data })
      return some p

/-- `inode_close`. -/
def inode_close : Option Ptr → Fs Unit
  | none => return ()
  | some p => do
    let inode ← deref p
    let open_cnt := inode.open_cnt - 1
    store_inode p (some { inode with open_cnt })
    if open_cnt = 0 then
      Exec.modify fun s => { s with open_inodes := s.open_inodes.erase p }
      if inode.removed then
        free_map_release inode.sector 1
        free_map_release inode.data.start (bytes_to_sectors inode.data.length)
      store_inode p none

/-- `inode_remove`. -/
def inode_remove (p : Ptr) : Fs Unit := do
  let inode ← deref p
  store_inode p (some { inode with removed := true })

/-- `inode_deny_write`. -/
def inode_deny_write (p : Ptr) : Fs Unit := do
  let inode ← deref p
  let deny_write_cnt := inode.deny_write_cnt + 1
  store_inode p (some { inode with deny_write_cnt })
  Exec.ASSERT (deny_write_cnt ≤ inode.open_cnt) .deny_write_cnt

/-- `inode_allow_write`. -/
def inode_allow_write (p : Ptr) : Fs Unit := do
  let inode ← deref p
  Exec.ASSERT (inode.deny_write_cnt > 0) .deny_write_cnt
  Exec.ASSERT (inode.deny_write_cnt ≤ inode.open_cnt) .deny_write_cnt
  store_inode p (some { inode with deny_write_cnt := inode.deny_write_cnt - 1 })

/-- Change the struct that the pointer to a file points to. -/
def store_file (f : Ptr) (file : Option file) : Fs Unit :=
  Exec.modify fun s => { s with files := fun g => if g = f then file else s.files g }

/-- `file_open`. -/
def file_open (inode : Option Ptr) : Fs (Option Ptr) := do
  let f ← malloc
  match inode, f with
  | some p, some f => do
    store_file f (some { inode := p, pos := 0, deny_write := false })
    return some f
  | _, _ => do
    inode_close inode
    return none

/-- `file_reopen`. -/
def file_reopen (f : Ptr) : Fs (Option Ptr) := do
  let file ← deref_file f
  inode_reopen file.inode
  file_open (some file.inode)

/-- `file_read`: the number of bytes read, and the caller's buffer. -/
def file_read (f : Ptr) (buffer : Bytes) (size : Int) : Fs (Int × Bytes) := do
  let file ← deref_file f
  let (bytes_read, buffer) ← inode_read_at file.inode buffer size file.pos
  let file ← deref_file f
  store_file f (some { file with pos := int32 (file.pos + bytes_read) })
  return (bytes_read, buffer)

/-- `file_write`: the number of bytes written. -/
def file_write (f : Ptr) (buffer : Bytes) (size : Int) : Fs Int := do
  let file ← deref_file f
  let bytes_written ← inode_write_at file.inode buffer size file.pos
  let file ← deref_file f
  store_file f (some { file with pos := int32 (file.pos + bytes_written) })
  return bytes_written

/-- `file_deny_write`. -/
def file_deny_write (f : Ptr) : Fs Unit := do
  let file ← deref_file f
  if !file.deny_write then
    store_file f (some { file with deny_write := true })
    inode_deny_write file.inode

/-- `file_allow_write`. -/
def file_allow_write (f : Ptr) : Fs Unit := do
  let file ← deref_file f
  if file.deny_write then
    store_file f (some { file with deny_write := false })
    inode_allow_write file.inode

/-- `file_close`. -/
def file_close : Option Ptr → Fs Unit
  | none => return ()
  | some f => do
    file_allow_write f
    let file ← deref_file f
    inode_close (some file.inode)
    store_file f none

/-- `free_map_open`. -/
def free_map_open : Fs Unit := do
  let f ← file_open (← inode_open 0)
  Exec.modify fun s => { s with free_map_file := f }
  match f with
  | none => Exec.throw .init
  | some f => if ← bitmap_read f then return () else Exec.throw .init

end pintos.filesys
