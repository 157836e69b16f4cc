import Pintos.Filesys.Persistence

/-!
# Formatting the file system

The sectors of the free map's file are allocated before there is such a file. After
`filesys_init` the file is open and the map in memory is the one that was read from it,
and every call after that keeps file and map alike.
-/

open twos_complement bytes state_error

namespace pintos.filesys

section Format

variable {s t : State} {d : inode_disk} {f p : Ptr}

/-- The first two sectors are marked as used. -/
structure MapMarked (s : State) : Prop where
  free_map : s.free_map.bits FREE_MAP_SECTOR = true
  root : s.free_map.bits ROOT_DIR_SECTOR = true

/-- What is marked stays marked. -/
theorem MapMarked.mark {b : bitmap} {start cnt : Nat} (h : MapMarked s) (hb : b = s.free_map.set start cnt true)
    (hmap : t.free_map = b) : MapMarked t := by
  obtain ⟨hzero, hone⟩ := h
  constructor
  · rw [hmap, hb]
    simp only [bitmap.set]
    split_ifs
    · rfl
    · exact hzero
  · rw [hmap, hb]
    simp only [bitmap.set]
    split_ifs
    · rfl
    · exact hone

/-- Sectors that were free are none of the first two. -/
theorem MapMarked.apart (h : MapMarked s) {start cnt : Nat}
    (hfree : ∀ i < cnt, s.free_map.bits (start + i) = false) :
    cnt = 0 ∨ 2 ≤ start := by
  by_contra hnot
  have hfirst := hfree 0 (by omega)
  obtain hstart | hstart : start = FREE_MAP_SECTOR ∨ start = ROOT_DIR_SECTOR := by
    rw [FREE_MAP_SECTOR, ROOT_DIR_SECTOR]
    omega
  · rw [Nat.add_zero, hstart, h.free_map] at hfirst
    contradiction
  · rw [Nat.add_zero, hstart, h.root] at hfirst
    contradiction

/-- What is left when sectors have been allocated for the free map. -/
structure MapAllocated (s t : State) : Prop where
  size : t.fs_device.size = s.fs_device.size
  oom : t.oom = s.oom
  marked : MapMarked t
  free_map : ∃ start, 2 ≤ start ∧ start < s.fs_device.size ∧
    t.free_map = s.free_map.set start (bytes_to_sectors (byte_cnt s.fs_device.size)) true

theorem MapAllocated.big (h : MapAllocated s t) : 2 ≤ t.fs_device.size := by
  obtain ⟨start, hlow, hin, -⟩ := h.free_map
  rw [h.size]
  omega

/-- The inode that `inode_create` made for the free map. -/
theorem Created.map_inode {start : Nat} (h : Created FREE_MAP_SECTOR (byte_cnt s.fs_device.size) none s start t)
    (hlt : s.fs_device.size < 2 ^ 32) (hcnt : s.free_map.bit_cnt = s.fs_device.size)
    (hroom : byte_cnt s.fs_device.size ≠ 0) (hmarked : MapMarked s) :
    MapInode t { start, length := byte_cnt s.fs_device.size, magic := INODE_MAGIC } ∧ MapAllocated s t := by
  obtain ⟨hinside, hfree, honly, hinode, -⟩ := h
  obtain ⟨hfits, hsmall, hpos⟩ := le_byte_cnt hlt hroom
  have hsize : t.fs_device.size = s.fs_device.size := honly.size
  have hmap : t.free_map = s.free_map.set start (bytes_to_sectors (byte_cnt s.fs_device.size)) true := by
    rw [honly.same]
  have hsectors : ((byte_cnt s.fs_device.size : Int).toNat + 511) / 512 ≤
      bytes_to_sectors (byte_cnt s.fs_device.size) :=
    le_bytes_to_sectors (by omega) (by omega)
  have hstart := (hmarked.apart hfree).resolve_left (by omega)
  refine ⟨⟨?_, hinode, ⟨?_, ?_, ?_, ?_⟩, ?_, ?_, ?_⟩, hsize, by rw [honly.same], hmarked.mark rfl hmap,
    start, hstart, by omega, hmap⟩
  · rw [hmap, hsize]
    exact hcnt
  · simp only
    omega
  · simp only
    omega
  · simp only [hsize]
    omega
  · omega
  · rintro ⟨howns, -⟩
    simp only [FREE_MAP_SECTOR] at howns
    omega
  · rw [hsize]
  · rw [hsize]
    exact hroom

/-- The inode of the free map is created and its file opened and written. -/
theorem free_map_create_run (hfile : s.free_map_file = none) (hlt : s.fs_device.size < 2 ^ 32)
    (hcnt : s.free_map.bit_cnt = s.fs_device.size) (hroom : byte_cnt s.fs_device.size ≠ 0)
    (hmarked : MapMarked s) (hclosed : s.open_inodes = []) :
    (∀ t, free_map_create s = .ok ((), t) →
      (∃ d f p, MapFile t d f p) ∧ MapAllocated s t) ∧
    ((∀ i, s.oom i = false) → (∃ u, inode_create FREE_MAP_SECTOR (byte_cnt s.fs_device.size) s =
    .ok (true, u)) →
      ∃ t, free_map_create s = .ok ((), t)) := by
  obtain ⟨hfits, hsmall, hpos⟩ := le_byte_cnt hlt hroom
  have hlength : int32 (byte_cnt s.free_map.bit_cnt) = byte_cnt s.fs_device.size := by
    rw [hcnt]
    apply int32_of_range <;> omega
  have hready : FreeMapReady s none := ⟨hcnt, hlt, fun _ => hfile, nofun⟩
  have hsector : FREE_MAP_SECTOR < s.fs_device.size := hpos
  obtain ⟨r, u, hcreate, -, hcreated⟩ := inode_create_run hready hsector hmarked.free_map
    (show (0 : Int) ≤ byte_cnt s.fs_device.size by omega) (by omega)
  rw [free_map_create, Exec.bind_run Exec.get_run, hlength, Exec.bind_run hcreate]
  cases r with
  | false =>
    refine ⟨nofun, ?_⟩
    rintro - ⟨u', htrue⟩
    exact nomatch (Exec.ok_inj hcreate htrue).1
  | true =>
    obtain ⟨start, h⟩ := hcreated rfl
    obtain ⟨hinode, hdone⟩ := h.map_inode hlt hcnt hroom hmarked
    have hclosed' : u.open_inodes = [] := by
      rw [h.only.same]
      exact hclosed
    have hoom := hdone.oom
    obtain ⟨r, v, f, w, hopen, hfile, hcases⟩ := open_map_file hinode hclosed'
    rw [if_pos rfl, Exec.bind_run hopen, Exec.bind_run hfile, Exec.bind_run (Exec.modify_run _)]
    obtain ⟨rfl, i, hi⟩ | ⟨rfl, rfl⟩ := hcases
    · refine ⟨nofun, fun hmem => ?_⟩
      exact absurd ⟨i, hoom ▸ hi⟩ (not_outOfMemory hmem)
    · obtain ⟨b, t, hwrite, hmap, honly, -, hmem⟩ := (hinode.opened hclosed').bitmap_write_run
      dsimp only
      rw [Exec.bind_run hwrite]
      cases b with
      | false =>
        refine ⟨nofun, fun hall _ => ?_⟩
        exact nomatch hmem fun i => (congrFun hoom i).trans (hall i)
      | true =>
        refine ⟨?_, fun _ _ => ⟨t, rfl⟩⟩
        intro t' hrun
        obtain ⟨-, rfl⟩ := Exec.ok_inj rfl hrun
        have hsame : t.free_map = u.free_map := by rw [honly.same]; rfl
        refine ⟨⟨_, _, _, hmap⟩, honly.size.trans hdone.size, ?_, ⟨?_, ?_⟩, ?_⟩
        · rw [honly.same]
          exact hoom
        · rw [hsame]
          exact hdone.marked.free_map
        · rw [hsame]
          exact hdone.marked.root
        · rw [hsame]
          exact hdone.free_map

/-- The root directory is created. -/
theorem MapFile.root_created (h : MapFile s d f p) (hmarked : MapMarked s) (hbig : 2 ≤ s.fs_device.size) :
    ∃ r t, dir_create ROOT_DIR_SECTOR 16 s = .ok (r, t) ∧ (r = true → MapFile t d f p ∧ t.oom = s.oom) := by
  have hsector : ROOT_DIR_SECTOR < s.fs_device.size := by
    rw [ROOT_DIR_SECTOR]
    omega
  obtain ⟨r, t, hcreate, -, hcreated⟩ := inode_create_run h.ready hsector hmarked.root
    (show (0 : Int) ≤ (16 * ENTRY_SIZE : Nat) by decide) (by decide)
  refine ⟨r, t, hcreate, ?_⟩
  rintro rfl
  obtain ⟨start, hinside, hfree, honly, -⟩ := hcreated rfl
  refine ⟨(h.mark _ _ _).only honly ?_, by rw [honly.same]⟩
  have hstart := hmarked.apart hfree
  rintro (hmap | hroot | hdata)
  · exact h.apart_map hmap
  · exact absurd hroot (by decide)
  · rw [FREE_MAP_SECTOR] at hdata
    omega

/-- The calls of `do_format`. What they do is for their own lemmas. -/
theorem do_format_eq_ok (hrun : do_format s = .ok ((), t)) : ∃ u v, free_map_create s = .ok ((), u) ∧
    dir_create ROOT_DIR_SECTOR 16 u = .ok (true, v) ∧ free_map_close v = .ok ((), t) := by
  rw [do_format] at hrun
  generalize free_map_create = f, dir_create ROOT_DIR_SECTOR 16 = g at hrun ⊢
  rw [Exec.bind_eq_ok] at hrun
  obtain ⟨⟨⟩, u, hf, hrun⟩ := hrun
  rw [Exec.bind_eq_ok] at hrun
  obtain ⟨r, v, hg, hrun⟩ := hrun
  cases r with
  | false => exact nomatch hrun
  | true => exact ⟨u, v, hf, hg, hrun⟩

theorem filesys_init_eq_ok (hrun : filesys_init true s = .ok ((), t)) : ∃ u v,
    free_map_init { s with open_inodes := [] } = .ok ((), u) ∧ do_format u = .ok ((), v) ∧
    free_map_open v = .ok ((), t) := by
  rw [filesys_init, Exec.bind_run (Exec.modify_run _)] at hrun
  generalize free_map_init = f, do_format = g, free_map_open = h at hrun ⊢
  rw [Exec.bind_eq_ok] at hrun
  obtain ⟨⟨⟩, u, hf, hrun⟩ := hrun
  rw [if_pos rfl, Exec.bind_eq_ok] at hrun
  obtain ⟨⟨⟩, v, hg, hrun⟩ := hrun
  exact ⟨u, v, hf, hg, hrun⟩

/-- `filesys_init` on a device that is formatted. -/
theorem filesys_init_ok (hfile : s.free_map_file = none) (hlt : s.fs_device.size < 2 ^ 32)
    (hrun : filesys_init true s = .ok ((), t)) : ∃ d f p, MapFile t d f p ∧ TailClear t ∧ Stored t d ∧
    t.oom = s.oom := by
  obtain ⟨u, v, hinit, hformat, hopen⟩ := filesys_init_eq_ok hrun
  obtain ⟨asked, b, hu, hcnt, hzero, hone, hroom, -⟩ := (free_map_init_run _).1 u hinit
  have hstart : u.free_map_file = none ∧ u.fs_device = s.fs_device ∧ u.free_map = b ∧ u.open_inodes = [] ∧
      u.oom = s.oom := by
    rw [hu]
    exact ⟨hfile, rfl, rfl, rfl, rfl⟩
  obtain ⟨hfile', hdevice, hmap, hclosed, hoom⟩ := hstart
  obtain ⟨w, x, hcreate, hdir, hclose⟩ := do_format_eq_ok hformat
  obtain ⟨⟨d, f, p, hmap⟩, hdone⟩ := (free_map_create_run hfile' (hdevice ▸ hlt) (hmap ▸ hdevice ▸ hcnt)
    (hdevice ▸ hroom) ⟨hmap ▸ hzero, hmap ▸ hone⟩ hclosed).1 w hcreate
  obtain ⟨r, y, hdir', hroot⟩ := hmap.root_created hdone.marked hdone.big
  obtain ⟨rfl, rfl⟩ := Exec.ok_inj hdir' hdir
  obtain ⟨hmap', hoom''⟩ := hroot rfl
  obtain ⟨-, rfl⟩ := Exec.ok_inj hmap'.free_map_close hclose
  obtain ⟨⟨f', p', hmap⟩, htail, hstored, -, hlast⟩ := (free_map_open_run hmap'.closed rfl).1 t hopen
  exact ⟨d, f', p', hmap, htail, hstored, hlast.trans (hoom''.trans (hdone.oom.trans hoom))⟩

end Format

section Success

variable {s t : State} {fm : Option inode_disk}

/-- A scan finds a group if there is one. -/
theorem bitmap.scan_of_group {b : bitmap} {idx cnt : Nat} {value : Bool} (hfits : idx + cnt ≤ b.bit_cnt)
    (hbits : ∀ i < cnt, b.bits (idx + i) = value) : ∃ start, b.scan 0 cnt value = some start := by
  rw [scan, if_pos (by omega), ← Option.isSome_iff_exists, List.find?_isSome]
  refine ⟨idx, ?_, ?_⟩
  · rw [List.mem_range'_1]
    omega
  · rw [Bool.not_eq_true', contains_eq_false]
    simpa using hbits

/-- Sectors are allocated where there are some and the map can be written. -/
theorem free_map_allocate_succeeds (hready : FreeMapReady s fm) (idx : Nat) {cnt : Nat}
    (hfits : idx + cnt ≤ s.fs_device.size) (hfree : ∀ i < cnt, s.free_map.bits (idx + i) = false)
    (hsave : ∀ start, ∃ t, free_map_save { s with free_map := s.free_map.set start cnt true } = .ok (true, t)) :
    ∃ start t, free_map_allocate cnt s = .ok (some start, t) := by
  obtain ⟨start, hscan⟩ := bitmap.scan_of_group (hready.bit_cnt ▸ hfits) hfree
  obtain ⟨hinside, -⟩ := bitmap.scan_eq_some hscan
  have hset := bitmap_set_multiple_run hready (hready.bit_cnt ▸ hinside) true
  have hflip : bitmap_scan_and_flip 0 cnt false s =
      .ok (some start, { s with free_map := s.free_map.set start cnt true }) := by
    rw [bitmap_scan_and_flip, Exec.bind_run Exec.get_run]
    simp only [hscan]
    exact Exec.bind_run hset
  obtain ⟨t, hsaved⟩ := hsave start
  rw [free_map_allocate, Exec.bind_run hflip]
  simp only [Exec.bind_run hsaved]
  exact ⟨start, t, rfl⟩

/-- An inode is created where its sectors are allocated. -/
theorem inode_create_succeeds (hready : FreeMapReady s fm) {sector : Nat} (hsector : sector < s.fs_device.size)
    {length : Int} (hnonneg : 0 ≤ length) (hmem : s.oom s.asked = false)
    (halloc : ∃ start t, free_map_allocate (bytes_to_sectors length) { s with asked := s.asked + 1 } =
      .ok (some start, t)) : ∃ u, inode_create sector length s = .ok (true, u) := by
  obtain ⟨start, t, halloc⟩ := halloc
  have hmalloc : malloc s = .ok (some s.asked, { s with asked := s.asked + 1 }) := by simp [malloc, hmem]
  have hasked : FreeMapReady { s with asked := s.asked + 1 } fm :=
    hready.only (S := fun _ => False) ⟨rfl, Nat.le_succ _, rfl, fun _ _ => rfl⟩
  obtain ⟨r, t', halloc', -, hsome⟩ := free_map_allocate_run hasked (bytes_to_sectors length)
  obtain ⟨rfl, rfl⟩ := Exec.ok_inj halloc' halloc
  obtain ⟨hfits, -, honly⟩ := hsome start rfl
  have hsize : t'.fs_device.size = s.fs_device.size := honly.size
  have hwrite := block_write_run (s := t') (hsize ▸ hsector)
      (inode_disk.bytes { start, length, magic := INODE_MAGIC })
  obtain ⟨u, hzeros, -, -⟩ := zero_loop_run start (bytes_to_sectors length) 0
    { t' with
      fs_device := t'.fs_device.store sector (inode_disk.bytes { start, length, magic := INODE_MAGIC }) }
    (by simpa [block.store, hsize] using hfits) (by simpa [block.store, hsize] using hready.size_lt)
  rw [inode_create, Exec.bind_run (Exec.ASSERT_run hnonneg _), Exec.bind_run hmalloc]
  dsimp only
  rw [Exec.bind_run halloc]
  dsimp only
  rw [Exec.bind_run hwrite, Exec.bind_run hzeros]
  exact ⟨u, rfl⟩

/-- The number of sectors for a map. -/
theorem map_sectors {n : Nat} (hlow : 4 ≤ n) (hlt : n < 2 ^ 32) (hroom : byte_cnt n ≠ 0) :
    bytes_to_sectors (byte_cnt n) + 3 ≤ n := by
  have hcnt : byte_cnt n = 4 * ((n + 31) / 32) := by
    simp only [byte_cnt, elem_cnt, uint32] at *
    omega
  have hsum : int32 (int32 ((byte_cnt n : Int) + 512) - 1) = byte_cnt n + 511 := by
    rw [int32_of_range (x := (byte_cnt n : Int) + 512) (by omega) (by omega)]
    rw [int32_of_range] <;> omega
  rw [bytes_to_sectors, SECTOR_SIZE, hsum, Int.tdiv_eq_ediv_of_nonneg (by omega), uint32]
  omega

/-- Without a file there is nothing to save. -/
theorem free_map_save_without_file (hfile : s.free_map_file = none) : free_map_save s = .ok (true, s) := by
  rw [free_map_save, Exec.bind_run Exec.get_run, hfile]
  rfl

theorem free_map_create_succeeds (hready : FreeMapReady s none) (hmem : ∀ i, s.oom i = false)
    (hroom : byte_cnt s.fs_device.size ≠ 0) (hmarked : MapMarked s) (hclosed : s.open_inodes = [])
    (hlow : 4 ≤ s.fs_device.size) (hclear : ∀ i, 2 ≤ i → i < s.fs_device.size → s.free_map.bits i = false) :
    ∃ t, free_map_create s = .ok ((), t) := by
  have hsectors := map_sectors hlow hready.size_lt hroom
  have hsector : FREE_MAP_SECTOR < s.fs_device.size := by
    rw [FREE_MAP_SECTOR]
    omega
  have hasked : FreeMapReady { s with asked := s.asked + 1 } none :=
    ⟨hready.bit_cnt, hready.size_lt, hready.absent, by simp⟩
  apply (free_map_create_run (hready.absent rfl) hready.size_lt hready.bit_cnt hroom hmarked hclosed).2 hmem
  apply inode_create_succeeds hready hsector (by omega) (hmem _)
  refine free_map_allocate_succeeds hasked 2 ?_ ?_ fun start => ?_
  · change 2 + bytes_to_sectors (byte_cnt s.fs_device.size) ≤ s.fs_device.size
    omega
  · intro i hi
    exact hclear (2 + i) (by omega) (by omega)
  · exact ⟨_, free_map_save_without_file (hready.absent rfl)⟩

theorem MapFile.root_succeeds {d : inode_disk} {f p : Ptr} (h : MapFile s d f p) (hmem : ∀ i, s.oom i = false)
    (hbig : 2 ≤ s.fs_device.size) {j : Nat} (hj : j < s.fs_device.size) (hfree : s.free_map.bits j = false) :
    ∃ t, dir_create ROOT_DIR_SECTOR 16 s = .ok (true, t) := by
  have hsector : ROOT_DIR_SECTOR < s.fs_device.size := by
    rw [ROOT_DIR_SECTOR]
    omega
  have hone : bytes_to_sectors (16 * ENTRY_SIZE : Nat) = 1 := by decide
  have hasked : OnlyDevice (fun _ => False) s { s with asked := s.asked + 1 } :=
    ⟨rfl, Nat.le_succ _, rfl, fun _ _ => rfl⟩
  have h' := h.only hasked fun hnot => hnot
  apply inode_create_succeeds h.ready hsector (by decide) (hmem _)
  rw [hone]
  refine free_map_allocate_succeeds h'.ready j hj ?_ fun start => ?_
  · intro i hi
    rw [Nat.lt_one_iff.mp hi]
    exact hfree
  · obtain ⟨b, t, hwrite, -, -, -, htrue⟩ := (h'.mark start 1 true).bitmap_write_run
    rw [htrue hmem] at hwrite
    exact ⟨t, (free_map_save_eq (h'.mark start 1 true).free_map_file).trans hwrite⟩

/-- A sector is left for the root directory. -/
theorem MapAllocated.free_sector (h : MapAllocated s t) (hlow : 4 ≤ s.fs_device.size)
    (hlt : s.fs_device.size < 2 ^ 32) (hroom : byte_cnt s.fs_device.size ≠ 0)
    (hclear : ∀ i, 2 ≤ i → i < s.fs_device.size → s.free_map.bits i = false) :
    ∃ j < t.fs_device.size, t.free_map.bits j = false := by
  have hsectors := map_sectors hlow hlt hroom
  obtain ⟨start, hstart, hin, hmap⟩ := h.free_map
  rw [h.size, hmap]
  by_cases hfirst : start = 2
  · refine ⟨start + bytes_to_sectors (byte_cnt s.fs_device.size), by omega, ?_⟩
    exact (if_neg (by omega)).trans (hclear _ (by omega) (by omega))
  · exact ⟨2, by omega, (if_neg (by omega)).trans (hclear 2 (by omega) (by omega))⟩

/-- The calls of `do_format` in turn. -/
theorem do_format_run {u v : State} (hcreate : free_map_create s = .ok ((), u))
    (hdir : dir_create ROOT_DIR_SECTOR 16 u = .ok (true, v)) (hclose : free_map_close v = .ok ((), t)) :
    do_format s = .ok ((), t) := by
  rw [do_format]
  generalize free_map_create = f, dir_create ROOT_DIR_SECTOR 16 = g at hcreate hdir ⊢
  rw [Exec.bind_run hcreate, Exec.bind_run hdir]
  exact hclose

theorem filesys_init_run {u v : State} (hinit : free_map_init { s with open_inodes := [] } = .ok ((), u))
    (hformat : do_format u = .ok ((), v)) (hopen : free_map_open v = .ok ((), t)) :
    filesys_init true s = .ok ((), t) := by
  rw [filesys_init, Exec.bind_run (Exec.modify_run _)]
  generalize free_map_init = f, do_format = g, free_map_open = h at hinit hformat hopen ⊢
  rw [Exec.bind_run hinit, if_pos rfl, Exec.bind_run hformat]
  exact hopen

/-- Formatting succeeds where memory suffices, on every device with room for the free map
and the root directory. -/
theorem filesys_init_succeeds (hfile : s.free_map_file = none) (hmem : ∀ i, s.oom i = false)
    (hlt : s.fs_device.size < 2 ^ 32) (hroom : byte_cnt s.fs_device.size ≠ 0) (hlow : 4 ≤ s.fs_device.size) :
    ∃ t, filesys_init true s = .ok ((), t) := by
  obtain ⟨u, hinit⟩ := (free_map_init_run { s with open_inodes := [] }).2 hmem hroom
  obtain ⟨asked, b, hu, hcnt, hzero, hone, -, hclear⟩ := (free_map_init_run _).1 u hinit
  have hstart : u.free_map_file = none ∧ u.fs_device = s.fs_device ∧ u.free_map = b ∧ u.open_inodes = [] ∧
      u.oom = s.oom := by
    rw [hu]
    exact ⟨hfile, rfl, rfl, rfl, rfl⟩
  obtain ⟨hfile', hdevice, hmap, hclosed, hoom⟩ := hstart
  have hmarked : MapMarked u := ⟨hmap ▸ hzero, hmap ▸ hone⟩
  have hready : FreeMapReady u none := ⟨hmap ▸ hdevice ▸ hcnt, hdevice ▸ hlt, fun _ => hfile', nofun⟩
  obtain ⟨w, hcreate⟩ := free_map_create_succeeds hready (hoom ▸ hmem) (hdevice ▸ hroom) hmarked hclosed
    (hdevice ▸ hlow) (hmap ▸ hdevice ▸ hclear)
  obtain ⟨⟨d, f, p, hmap'⟩, hdone⟩ := (free_map_create_run hfile' (hdevice ▸ hlt) hready.bit_cnt
    (hdevice ▸ hroom)
    hmarked hclosed).1 w hcreate
  obtain ⟨j, hj, hfree⟩ := hdone.free_sector (hdevice ▸ hlow) (hdevice ▸ hlt) (hdevice ▸ hroom)
    (hmap ▸ hdevice ▸ hclear)
  have hmem' : ∀ i, w.oom i = false := hdone.oom ▸ hoom ▸ hmem
  obtain ⟨x, hdir⟩ := hmap'.root_succeeds hmem' hdone.big hj hfree
  obtain ⟨r, y, hdir', hroot⟩ := hmap'.root_created hdone.marked hdone.big
  obtain ⟨rfl, rfl⟩ := Exec.ok_inj hdir' hdir
  obtain ⟨hmap'', hoom'⟩ := hroot rfl
  have hformat := do_format_run hcreate hdir hmap''.free_map_close
  obtain ⟨t, hopen⟩ := (free_map_open_run hmap''.closed rfl).2 (hoom' ▸ hmem')
  exact ⟨t, filesys_init_run hinit hformat hopen⟩

end Success

/-- A bit in the file of the free map, as it is on the device. -/
def stored_bit (s : State) (i : Nat) : Bool :=
  (s.fs_device.content (disk_inode s FREE_MAP_SECTOR).start (i / 8)).getLsbD (i % 8)

/-- After formatting and any calls, the free map's file has the bits of the map in memory,
and the map is the same when the file has been closed and opened again, if each
`bitmap_write` succeeded; an allocation that fails leaves the map in memory as it was. -/
theorem free_map_persists {s₀ s t : State} {cs : List Call} (hfile : s₀.free_map_file = none)
    (hsize : s₀.fs_device.size < 2 ^ 32) (hformat : filesys_init true s₀ = .ok ((), s))
    (hcalls : calls cs s = .ok ((), t)) :
    (AllSaved s cs →
      (∀ i < t.fs_device.size, ((i / 8 : Nat) : Int) < (disk_inode t FREE_MAP_SECTOR).length ∧
        stored_bit t i = t.free_map.bits i) ∧
      (∀ u, reopen t = .ok ((), u) → u.free_map = t.free_map ∧
        ∀ i, t.fs_device.size ≤ i → u.free_map.bits i = false) ∧
      ((∀ i, t.oom i = false) → ∃ u, reopen t = .ok ((), u))) ∧
    (∀ cnt u, free_map_allocate cnt t = .ok (none, u) → u.free_map = t.free_map) := by
  obtain ⟨d, f, p, hmap, htail, hstored, -⟩ := filesys_init_ok hfile hsize hformat
  obtain ⟨hmap', htail', hstored'⟩ := hmap.calls htail hcalls
  refine ⟨fun hsaved => ⟨?_, ?_, ?_⟩, ?_⟩
  · intro i hi
    have hroom := (le_byte_cnt hmap'.on_device.size_lt hmap'.room).1
    have hlength := hmap'.length
    rw [stored_bit, hmap'.disk]
    exact ⟨by omega, hstored' hsaved hstored i hi⟩
  · intro u hrun
    have hsame := (hmap'.reopen htail' (hstored' hsaved hstored)).1 u hrun
    rw [hsame]
    exact ⟨rfl, htail'⟩
  · exact (hmap'.reopen htail' (hstored' hsaved hstored)).2
  · intro cnt u hrun
    obtain ⟨r, v, halloc, -, -, -, hnone, -⟩ := hmap'.free_map_allocate htail' cnt
    obtain ⟨rfl, rfl⟩ := Exec.ok_inj halloc hrun
    exact hnone rfl

/-- A device of five sectors is formatted and its last sector allocated. -/
theorem free_map_persists_small : ∃ s t u,
    filesys_init true { small_device with fs_device := { size := 5, sector := fun _ _ => 1 } } = .ok ((), s) ∧
      calls [.allocate 1] s = .ok ((), t) ∧ reopen t = .ok ((), u) ∧ u.free_map = t.free_map := by
  obtain ⟨s, hformat⟩ := filesys_init_succeeds
    (s := { small_device with fs_device := { size := 5, sector := fun _ _ => 1 } }) rfl (fun _ => rfl)
    (by decide : 5 < 2 ^ 32) (by decide : byte_cnt 5 ≠ 0) (by decide : 4 ≤ 5)
  obtain ⟨d, f, p, hmap, htail, -, hoom⟩ := filesys_init_ok rfl (by decide : 5 < 2 ^ 32) hformat
  have hmem : ∀ i, s.oom i = false := fun i => congrFun hoom i
  obtain ⟨r, t, halloc, -, -, hoom', -⟩ := hmap.free_map_allocate htail 1
  have hcalls : calls [.allocate 1] s = .ok ((), t) := by
    rw [calls, Call.exec, Exec.bind_run (Exec.bind_run halloc)]
    rfl
  have hsaved : AllSaved s [.allocate 1] := by
    refine ⟨fun start f' _ hf => ?_, fun _ _ => trivial⟩
    obtain ⟨b, v, hwrite, -, -, -, htrue⟩ := (hmap.mark start 1 true).bitmap_write_run
    obtain rfl := Option.some.inj (hmap.free_map_file.symm.trans hf)
    exact ⟨v, htrue hmem ▸ hwrite⟩
  obtain ⟨-, hreopen, hsucceeds⟩ := (free_map_persists rfl (by decide : 5 < 2 ^ 32) hformat hcalls).1 hsaved
  obtain ⟨u, hrun⟩ := hsucceeds fun i => (congrFun hoom' i).trans (hmem i)
  exact ⟨s, t, u, hformat, hcalls, hrun, (hreopen u hrun).1⟩

end pintos.filesys
