import Pintos.Filesys.FlatFile
import Pintos.Filesys.Sectors

/-!
# The file of the free map

What is in memory and on the device while the free map's file is open, and what the
calls that change the map leave of it.
-/

open twos_complement bytes state_error

namespace pintos.filesys

/-- The bits of a sum of powers of two. -/
theorem testBit_sum_two_pow (f : Nat → Bool) (n : Nat) :
    ((List.range n).map fun j => if f j then 2 ^ j else 0).sum < 2 ^ n ∧
      ∀ k < n, (((List.range n).map fun j => if f j then 2 ^ j else 0).sum).testBit k = f k := by
  induction n with
  | zero => exact ⟨by simp, nofun⟩
  | succ n ih =>
    obtain ⟨hlt, hbits⟩ := ih
    simp only [List.range_succ, List.map_append, List.map_cons, List.map_nil, List.sum_append, List.sum_cons,
      List.sum_nil, Nat.add_zero]
    refine ⟨?_, ?_⟩
    · rw [Nat.pow_succ]
      split_ifs <;> omega
    · intro k hk
      obtain hk | rfl := Nat.lt_succ_iff_lt_or_eq.mp hk
      · split_ifs with hn
        · rw [Nat.add_comm, Nat.testBit_two_pow_add_gt hk, hbits k hk]
        · exact hbits k hk
      · split_ifs with hn
        · rw [Nat.add_comm, Nat.testBit_two_pow_add_eq, Nat.testBit_lt_two_pow hlt, hn]
          rfl
        · rw [Nat.add_zero, Nat.testBit_lt_two_pow hlt]
          simpa using hn

namespace bitmap

/-- A bit of the map in the bytes of its elements. -/
theorem getLsbD_bytes (b : bitmap) (i : Nat) : (b.bytes (i / 8)).getLsbD (i % 8) = b.bits i := by
  have hlt : i % 8 < 8 := Nat.mod_lt i (by omega)
  rw [bytes, BitVec.getLsbD_ofNat, (testBit_sum_two_pow _ 8).2 _ hlt, Nat.div_add_mod]
  simp [hlt]

end bitmap

/-- The elements have room for the bits, unless their number is too large to be
rounded up. -/
theorem le_byte_cnt {n : Nat} (hlt : n < 2 ^ 32) (hne : byte_cnt n ≠ 0) :
    n ≤ 8 * byte_cnt n ∧ byte_cnt n < 2 ^ 29 ∧ 0 < n := by
  simp only [byte_cnt, elem_cnt, uint32] at *
  omega

/-- The in-memory inode of the free map, opened once. -/
def map_inode (d : inode_disk) : inode :=
  { sector := FREE_MAP_SECTOR, open_cnt := 1, removed := false, deny_write_cnt := 0, data := d }

/-- The on-disk inode `d` of the free map, apart from the data that it has. -/
structure MapInode (s : State) (d : inode_disk) : Prop where
  bit_cnt : s.free_map.bit_cnt = s.fs_device.size
  disk : disk_inode s FREE_MAP_SECTOR = d
  on_device : OnDevice s.fs_device d
  apart : ¬ d.Owns FREE_MAP_SECTOR
  length : d.length = byte_cnt s.fs_device.size
  room : byte_cnt s.fs_device.size ≠ 0

/-- The free map's file is open, and so is no other. -/
structure MapFile (s : State) (d : inode_disk) (f p : Ptr) : Prop extends MapInode s d where
  free_map_file : s.free_map_file = some f
  file : s.files f = some { inode := p, pos := 0, deny_write := false }
  inode : s.inodes p = some (map_inode d)
  open_inodes : s.open_inodes = [p]

/-- The file has the bits of the map. -/
def Stored (s : State) (d : inode_disk) : Prop :=
  ∀ i < s.fs_device.size, (s.fs_device.content d.start (i / 8)).getLsbD (i % 8) = s.free_map.bits i

/-- No bit after those of the map is set. -/
def TailClear (s : State) : Prop := ∀ i, s.fs_device.size ≤ i → s.free_map.bits i = false

section File

variable {s s' : State} {d : inode_disk} {f p : Ptr}

theorem deref_file_run {file : file} (hf : s.files f = some file) : deref_file f s = .ok (file, s) := by
  simp only [deref_file, hf]

theorem file_write_at_eq {file : file} (hf : s.files f = some file) (buffer : Bytes) (size file_ofs : Int) :
    file_write_at f buffer size file_ofs s = inode_write_at file.inode buffer size file_ofs s := by
  rw [file_write_at, Exec.bind_run (deref_file_run hf)]

theorem file_read_at_eq {file : file} (hf : s.files f = some file) (buffer : Bytes) (size file_ofs : Int) :
    file_read_at f buffer size file_ofs s = inode_read_at file.inode buffer size file_ofs s := by
  rw [file_read_at, Exec.bind_run (deref_file_run hf)]

theorem free_map_save_eq (hf : s.free_map_file = some f) : free_map_save s = bitmap_write f s := by
  rw [free_map_save, Exec.bind_run Exec.get_run, hf]

theorem MapInode.size_pos (h : MapInode s d) : 0 < s.fs_device.size :=
  (le_byte_cnt h.on_device.size_lt h.room).2.2

/-- The size of the file does not overflow. -/
theorem MapInode.size_eq (h : MapInode s d) : int32 (byte_cnt s.free_map.bit_cnt) = d.length := by
  have hsmall := (le_byte_cnt h.on_device.size_lt h.room).2.1
  rw [h.bit_cnt, h.length]
  apply int32_of_range <;> omega

theorem MapFile.ready (h : MapFile s d f p) : FreeMapReady s (some d) where
  bit_cnt := h.bit_cnt
  size_lt := h.on_device.size_lt
  absent := nofun
  file := by
    rintro d' hd
    obtain rfl := Option.some.inj hd
    exact ⟨f, _, _, h.free_map_file, h.file, h.inode, rfl, rfl, h.on_device⟩

theorem MapInode.only {S : Nat → Prop} (h : MapInode s d) (honly : OnlyDevice S s s')
    (hS : ¬ S FREE_MAP_SECTOR) :
    MapInode s' d where
  bit_cnt := by
    rw [honly.size, honly.same]
    exact h.bit_cnt
  disk := by
    rw [disk_inode, honly.sector _ hS]
    exact h.disk
  on_device := ⟨h.on_device.length_nonneg, h.on_device.length_le, honly.size ▸ h.on_device.sectors,
    honly.size ▸ h.on_device.size_lt⟩
  apart := h.apart
  length := honly.size ▸ h.length
  room := honly.size ▸ h.room

/-- What is written to other sectors than the one of the inode. -/
theorem MapFile.only {S : Nat → Prop} (h : MapFile s d f p) (honly : OnlyDevice S s s')
    (hS : ¬ S FREE_MAP_SECTOR) :
    MapFile s' d f p where
  toMapInode := h.toMapInode.only honly hS
  free_map_file := by
    rw [honly.same]
    exact h.free_map_file
  file := by
    rw [honly.same]
    exact h.file
  inode := by
    rw [honly.same]
    exact h.inode
  open_inodes := by
    rw [honly.same]
    exact h.open_inodes

/-- Marking sectors in memory. -/
theorem MapFile.mark (h : MapFile s d f p) (start cnt : Nat) (value : Bool) :
    MapFile { s with free_map := s.free_map.set start cnt value } d f p :=
  { h with
    bit_cnt := h.bit_cnt
    disk := h.disk
    on_device := h.on_device }

theorem MapFile.apart_map (h : MapFile s d f p) : ¬ MapSector (some d) FREE_MAP_SECTOR := by
  rintro ⟨d', hd, howns⟩
  obtain rfl := Option.some.inj hd
  exact h.apart howns

/-- The map is written as a whole where memory does not run out. -/
theorem MapFile.bitmap_write_run (h : MapFile s d f p) :
    ∃ b t, bitmap_write f s = .ok (b, t) ∧ MapFile t d f p ∧ OnlyDevice (MapSector (some d)) s t ∧
      (b = true → Stored t d) ∧ ((∀ i, s.oom i = false) → b = true) := by
  have hwrite := inode_write_at_run h.inode rfl h.on_device s.free_map.bytes
    (show 0 ≤ 2147483647 by omega) h.on_device.length_le
  obtain ⟨n, asked, hrun, hasked, hstop⟩ := hwrite
  have hat := (file_write_at_eq h.file s.free_map.bytes d.length 0).trans hrun
  have hle := hstop.le
  have hnonneg := h.on_device.length_nonneg
  have hfull : transfer_size d.length d.length (0 : Nat) = d.length.toNat := by
    simp only [transfer_size]
    omega
  simp only [map_inode] at hrun hstop hle
  rw [hfull] at hstop hle
  have honly := overwrite_only h.on_device s.free_map.bytes hasked
    (show ((0 + n : Nat) : Int) ≤ d.length by omega)
  have hsector : ∀ k, d.Owns k → MapSector (some d) k := fun k hk => ⟨d, rfl, hk⟩
  refine ⟨decide ((n : Int) = d.length), _, ?_, h.only honly h.apart, honly.mono hsector, ?_, ?_⟩
  · rw [bitmap_write, Exec.bind_run Exec.get_run, h.size_eq, Exec.bind_run hat]
    rfl
  · intro hall
    have hn : n = byte_cnt s.fs_device.size := by
      have hlen := h.length
      have heq := of_decide_eq_true hall
      omega
    intro i hi
    have hroom := (le_byte_cnt h.on_device.size_lt h.room).1
    change i < s.fs_device.size at hi
    change ((s.fs_device.overwrite (512 * d.start + 0) s.free_map.bytes n).content d.start
      (i / 8)).getLsbD (i % 8) = _
    rw [block.content_overwrite, copy_inside (by omega) (by omega), Nat.sub_zero, Nat.zero_add]
    exact s.free_map.getLsbD_bytes i
  · intro hmem
    obtain hall | ⟨-, -, i, hi⟩ := hstop
    · rw [decide_eq_true_iff]
      omega
    · rw [hmem] at hi
      contradiction

/-- The map is read as a whole where memory does not run out. -/
theorem MapFile.bitmap_read_run (h : MapFile s d f p) :
    ∃ b t, bitmap_read f s = .ok (b, t) ∧ MapFile t d f p ∧ t.fs_device = s.fs_device ∧
      t.oom = s.oom ∧ TailClear t ∧
      (b = true → Stored t d) ∧ ((∀ i, s.oom i = false) → b = true) := by
  have hread := inode_read_at_run h.inode h.on_device s.free_map.bytes
    (show 0 ≤ 2147483647 by omega) h.on_device.length_le
  obtain ⟨n, asked, hrun, hasked, hstop⟩ := hread
  have hat := (file_read_at_eq h.file s.free_map.bytes d.length 0).trans hrun
  have hpos : s.free_map.bit_cnt > 0 := by
    rw [h.bit_cnt]
    exact h.size_pos
  have hnonneg := h.on_device.length_nonneg
  have hfull : transfer_size d.length d.length (0 : Nat) = d.length.toNat := by
    simp only [transfer_size]
    omega
  simp only [map_inode] at hstop
  rw [hfull] at hstop
  refine ⟨decide ((n : Int) = d.length), { s with
      asked := asked
      free_map := s.free_map.read (copy s.free_map.bytes 0 (s.fs_device.content d.start) 0 n) }, ?_, ?_,
        rfl, rfl, ?_, ?_, ?_⟩
  · rw [bitmap_read, Exec.bind_run Exec.get_run, if_pos hpos]
    simp only [h.size_eq]
    rw [Exec.bind_run hat]
    rfl
  · exact { h with bit_cnt := h.bit_cnt, disk := h.disk, on_device := h.on_device }
  · intro i hi
    exact if_neg (by rw [h.bit_cnt]; exact Nat.not_lt.mpr hi)
  · intro hall i hi
    have hn : n = byte_cnt s.fs_device.size := by
      have hlen := h.length
      have heq := of_decide_eq_true hall
      omega
    have hroom := (le_byte_cnt h.on_device.size_lt h.room).1
    change i < s.fs_device.size at hi
    have hlow : i < s.free_map.bit_cnt := h.bit_cnt ▸ hi
    simp only [bitmap.read, if_pos hlow]
    rw [copy_inside (by omega) (by omega), Nat.sub_zero, Nat.zero_add]
  · intro hmem
    obtain hall | ⟨-, -, i, hi⟩ := hstop
    · rw [decide_eq_true_iff]
      omega
    · rw [hmem] at hi
      contradiction

end File

section Opening

variable {s : State} {d : inode_disk}

/-- The state after the inode of the map was opened. -/
def opened_inode (s : State) (d : inode_disk) : State :=
  { s with
    asked := s.asked + 1
    open_inodes := s.asked :: s.open_inodes
    inodes := fun q => if q = s.asked then some (map_inode d) else s.inodes q }

/-- The state after its file was opened. -/
def opened (s : State) (d : inode_disk) : State :=
  { opened_inode s d with
    asked := s.asked + 2
    files := fun g => if g = s.asked + 1 then some { inode := s.asked, pos := 0, deny_write := false }
      else s.files g }

theorem inode_open_no_memory (sector : Nat) (hclosed : s.open_inodes = []) (hoom : s.oom s.asked = true) :
    inode_open sector s = .ok (none, { s with asked := s.asked + 1 }) := by
  have hmalloc : malloc s = .ok (none, { s with asked := s.asked + 1 }) := by simp [malloc, hoom]
  have hnone : open_inode_at sector s.open_inodes s = .ok (none, s) := by
    rw [hclosed]
    rfl
  rw [inode_open, Exec.bind_run Exec.get_run, Exec.bind_run hnone]
  simp only [Exec.bind_run hmalloc]
  rfl

/-- The last opener of an inode closes it. -/
theorem inode_close_last {p : Ptr} {inode : inode} (hp : s.inodes p = some inode) (hcnt : inode.open_cnt = 1)
    (hstays : inode.removed = false) : inode_close (some p) s = .ok ((), { s with
      open_inodes := s.open_inodes.erase p
      inodes := fun q => if q = p then none else s.inodes q }) := by
  have hderef : deref p s = .ok (inode, s) := by simp only [deref, hp]
  have hnone : (fun q => if q = p then none else if q = p then some
      { inode with open_cnt := inode.open_cnt - 1 }
      else s.inodes q) = fun q => if q = p then none else s.inodes q := by
    funext q
    split_ifs <;> rfl
  have hzero : inode.open_cnt - 1 = 0 := by omega
  rw [inode_close, Exec.bind_run hderef, store_inode, Exec.bind_run (Exec.modify_run _), if_pos hzero,
    Exec.bind_run (Exec.modify_run _), if_neg (by simp [hstays])]
  simp only [store_inode, Exec.modify_run, hnone]

/-- A file that cannot be opened for want of memory. -/
theorem file_open_no_memory {p : Ptr} {inode : inode} (hp : s.inodes p = some inode) (hcnt : inode.open_cnt = 1)
    (hstays : inode.removed = false) (hoom : s.oom s.asked = true) :
    ∃ v, file_open (some p) s = .ok (none, v) := by
  have hmalloc : malloc s = .ok (none, { s with asked := s.asked + 1 }) := by simp [malloc, hoom]
  have hclose := inode_close_last (s := { s with asked := s.asked + 1 }) hp hcnt hstays
  rw [file_open, Exec.bind_run hmalloc]
  exact ⟨_, Exec.bind_run hclose⟩

theorem file_open_run {p : Ptr} (hmem : s.oom s.asked = false) : file_open (some p) s =
    .ok (some s.asked, { s with
      asked := s.asked + 1
      files := fun g => if g = s.asked then some
        { inode := p, pos := 0, deny_write := false } else s.files g }) := by
  have hmalloc : malloc s = .ok (some s.asked, { s with asked := s.asked + 1 }) := by simp [malloc, hmem]
  rw [file_open, Exec.bind_run hmalloc]
  rfl

/-- The file of the map is opened, or memory has run out. -/
theorem open_map_file (h : MapInode s d) (hclosed : s.open_inodes = []) :
    ∃ r u f v, inode_open FREE_MAP_SECTOR s = .ok (r, u) ∧ file_open r u = .ok (f, v) ∧
      (f = none ∧ OutOfMemory s ∨ f = some (s.asked + 1) ∧ v = opened s d) := by
  cases hoom : s.oom s.asked with
  | true =>
    have hopen := inode_open_no_memory FREE_MAP_SECTOR hclosed hoom
    exact ⟨_, _, none, _, hopen, rfl, .inl ⟨rfl, _, hoom⟩⟩
  | false =>
    have hopen : inode_open FREE_MAP_SECTOR s = .ok (some s.asked, opened_inode s d) := by
      rw [← h.disk]
      exact inode_open_first h.size_pos (by rw [hclosed]; nofun) hoom
    cases hoom' : s.oom (s.asked + 1) with
    | true =>
      obtain ⟨v, hfile⟩ := file_open_no_memory (s := opened_inode s d) (if_pos rfl) rfl rfl hoom'
      exact ⟨_, _, none, v, hopen, hfile, .inl ⟨rfl, _, hoom'⟩⟩
    | false => exact ⟨_, _, _, _, hopen, file_open_run hoom', .inr ⟨rfl, rfl⟩⟩

/-- The opened file is the one of the map. -/
theorem MapInode.opened (h : MapInode s d) (hclosed : s.open_inodes = []) :
    MapFile { opened s d with free_map_file := some (s.asked + 1) } d (s.asked + 1) s.asked where
  bit_cnt := h.bit_cnt
  disk := h.disk
  on_device := h.on_device
  apart := h.apart
  length := h.length
  room := h.room
  free_map_file := rfl
  file := if_pos rfl
  inode := if_pos rfl
  open_inodes := by simp only [filesys.opened, opened_inode, hclosed]

/-- The file of the map is closed. -/
theorem MapFile.free_map_close {f p : Ptr} (h : MapFile s d f p) : free_map_close s = .ok ((), { s with
    open_inodes := []
    inodes := fun q => if q = p then none else s.inodes q
    files := fun g => if g = f then none else s.files g }) := by
  have hderef := deref_file_run h.file
  have hallow : file_allow_write f s = .ok ((), s) := by
    rw [file_allow_write, Exec.bind_run hderef]
    rfl
  have hclose := inode_close_last h.inode rfl rfl
  have herase : s.open_inodes.erase p = [] := by simp [h.open_inodes]
  rw [herase] at hclose
  rw [filesys.free_map_close, Exec.bind_run Exec.get_run, congrArg file_close h.free_map_file, file_close,
    Exec.bind_run hallow, Exec.bind_run hderef, Exec.bind_run hclose]
  rfl

end Opening

end pintos.filesys
