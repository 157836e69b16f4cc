import Pintos.Filesys.Sound
import Pintos.Filesys.Formatting

/-!
# A file system that has just been formatted

It is in order: the free map and the root directory have their sectors, and no file is named.
-/

open twos_complement bytes state_error ownership

namespace pintos.filesys

variable {s t u : State} {d : inode_disk} {f p : Ptr}

/-- Nothing is open. -/
structure Blank (s : State) : Prop where
  inodes : ∀ p, s.inodes p = none
  files : ∀ f, s.files f = none
  open_inodes : s.open_inodes = []

/-- The free map's file is open, and no other file or inode is in memory. -/
structure MapOnly (s : State) (d : inode_disk) (f p : Ptr) : Prop extends MapFile s d f p where
  no_inode : ∀ q, q ≠ p → s.inodes q = none
  no_file : ∀ g, g ≠ f → s.files g = none
  inode_lt : p < s.asked
  file_lt : f < s.asked

theorem MapOnly.same (h : MapOnly s d f p) (hmap : MapFile t d f p) (hopen : SameOpen s t) :
    MapOnly t d f p where
  toMapFile := hmap
  no_inode q hq := by
    rw [hopen.inodes]
    exact h.no_inode q hq
  no_file g hg := by
    rw [hopen.files]
    exact h.no_file g hg
  inode_lt := h.inode_lt.trans_le hopen.asked
  file_lt := h.file_lt.trans_le hopen.asked

theorem MapInode.opened_only (h : MapInode s d) (hblank : Blank s) :
    MapOnly { filesys.opened s d with free_map_file := some (s.asked + 1) } d (s.asked + 1) s.asked where
  toMapFile := h.opened hblank.open_inodes
  no_inode q hq := (if_neg hq).trans (hblank.inodes q)
  no_file g hg := (if_neg hg).trans (hblank.files g)
  inode_lt := Nat.lt_add_of_pos_right Nat.two_pos
  file_lt := Nat.lt_succ_self _

/-- The calls of `free_map_create`. -/
theorem free_map_create_eq_ok (hrun : free_map_create s = .ok ((), t)) : ∃ u r v f w,
    inode_create FREE_MAP_SECTOR (int32 (byte_cnt s.free_map.bit_cnt)) s = .ok (true, u) ∧
    inode_open FREE_MAP_SECTOR u = .ok (r, v) ∧ file_open r v = .ok (some f, w) ∧
    bitmap_write f { w with free_map_file := some f } = .ok (true, t) := by
  rw [free_map_create, Exec.bind_run Exec.get_run] at hrun
  generalize int32 (byte_cnt s.free_map.bit_cnt) = length at hrun ⊢
  rw [Exec.bind_eq_ok] at hrun
  obtain ⟨created, u, hcreate, hrun⟩ := hrun
  cases created with
  | false => cases hrun
  | true =>
    rw [if_pos rfl, Exec.bind_eq_ok] at hrun
    obtain ⟨r, v, hopen, hrun⟩ := hrun
    rw [Exec.bind_eq_ok] at hrun
    obtain ⟨f, w, hfile, hrun⟩ := hrun
    rw [Exec.bind_run (Exec.modify_run _)] at hrun
    cases f with
    | none => cases hrun
    | some f =>
      simp only [Exec.bind_eq_ok] at hrun
      obtain ⟨b, x, hwrite, hrun⟩ := hrun
      cases b with
      | false => cases hrun
      | true =>
        obtain ⟨-, rfl⟩ := Exec.ok_inj rfl hrun
        exact ⟨u, r, v, f, w, hcreate, hopen, hfile, hwrite⟩

/-- The sectors of the free map's file, once it has been created. -/
structure MapCreated (s t : State) (start : Nat) : Prop where
  low : 2 ≤ start
  fits : start + bytes_to_sectors (byte_cnt s.fs_device.size) ≤ s.fs_device.size
  size : t.fs_device.size = s.fs_device.size
  oom : t.oom = s.oom
  asked : s.asked ≤ t.asked
  free_map : t.free_map = s.free_map.set start (bytes_to_sectors (byte_cnt s.fs_device.size)) true

/-- The on-disk inode of the free map. -/
def map_disk (s : State) (start : Nat) : inode_disk :=
  { start, length := byte_cnt s.fs_device.size, magic := INODE_MAGIC }

theorem free_map_create_mounts (hrun : free_map_create s = .ok ((), t)) (hready : FreeMapReady s none)
    (hroom : byte_cnt s.fs_device.size ≠ 0) (hmarked : MapMarked s) (hblank : Blank s) :
    ∃ start f p, MapOnly t (map_disk s start) f p ∧ Stored t (map_disk s start) ∧ MapCreated s t start := by
  obtain ⟨hfits, hsmall, hpos⟩ := le_byte_cnt hready.size_lt hroom
  have hlength : int32 (byte_cnt s.free_map.bit_cnt) = byte_cnt s.fs_device.size := by
    rw [hready.bit_cnt]
    apply int32_of_range <;> omega
  obtain ⟨u, r, v, f, w, hcreate, hopen, hfile, hwrite⟩ := free_map_create_eq_ok hrun
  rw [hlength] at hcreate
  obtain ⟨created, u', hcreate', -, hcreated⟩ := inode_create_run hready (show FREE_MAP_SECTOR < _ from hpos)
    hmarked.free_map (show (0 : Int) ≤ byte_cnt s.fs_device.size by omega) (by omega)
  obtain ⟨rfl, rfl⟩ := Exec.ok_inj hcreate' hcreate
  obtain ⟨start, hmade⟩ := hcreated rfl
  obtain ⟨hinode, hdone⟩ := hmade.map_inode hready.size_lt hready.bit_cnt hroom hmarked
  have hopened := (inode_create_leaves _ _).ok _ _ _ hcreate
  have hblank' : Blank u' := by
    refine ⟨?_, ?_, ?_⟩
    · rw [hopened.inodes]
      exact hblank.inodes
    · rw [hopened.files]
      exact hblank.files
    · rw [hopened.open_inodes]
      exact hblank.open_inodes
  obtain ⟨r', v', f', w', hopen', hfile', hcases⟩ := open_map_file hinode hblank'.open_inodes
  obtain ⟨rfl, rfl⟩ := Exec.ok_inj hopen' hopen
  obtain ⟨rfl, rfl⟩ := Exec.ok_inj hfile' hfile
  obtain ⟨hnone, -⟩ | ⟨hsome, rfl⟩ := hcases
  · cases hnone
  · obtain rfl := Option.some.inj hsome
    have honly := hinode.opened_only hblank'
    obtain ⟨b, t', hwrite', hmap, hdevice, hstored, -⟩ := honly.bitmap_write_run
    obtain ⟨rfl, rfl⟩ := Exec.ok_inj hwrite' hwrite
    have hstart := (hmarked.apart hmade.free).resolve_left fun hzero => by
      have hle := le_bytes_to_sectors (show (0 : Int) ≤ byte_cnt s.fs_device.size by omega) (by omega)
      omega
    have hrest : SameOpen { opened u' (map_disk s start) with free_map_file := some (u'.asked + 1) } t' ∧
        t'.free_map = u'.free_map ∧ t'.oom = u'.oom := by
      rw [hdevice.same]
      exact ⟨⟨rfl, rfl, rfl, hdevice.asked⟩, rfl, rfl⟩
    refine ⟨start, _, _, honly.same hmap hrest.1, hstored rfl, hstart, hmade.fits,
      hdevice.size.trans hdone.size,
      hrest.2.2.trans hdone.oom, ?_, ?_⟩
    · have hmore : u'.asked + 2 ≤ t'.asked := hrest.1.asked
      exact hopened.asked.trans (by omega)
    · rw [hrest.2.1, hmade.only.same]

section Root

/-- The calls of `inode_create`. -/
theorem inode_create_eq_ok {sector : Nat} {length : Int} (hrun : inode_create sector length s = .ok (true, t)) :
    ∃ m u start v w, malloc s = .ok (some m, u) ∧
      free_map_allocate (bytes_to_sectors length) u = .ok (some start, v) ∧
      block_write sector (inode_disk.bytes { start, length, magic := INODE_MAGIC }) v = .ok ((), w) ∧
      zero_loop start (bytes_to_sectors length) 0 w = .ok ((), t) := by
  rw [inode_create, Exec.ASSERT_bind_eq_ok] at hrun
  obtain ⟨-, hrun⟩ := hrun
  generalize bytes_to_sectors length = cnt at hrun ⊢
  rw [Exec.bind_eq_ok] at hrun
  obtain ⟨m, u, hmalloc, hrun⟩ := hrun
  cases m with
  | none => cases hrun
  | some m =>
    simp only [Exec.bind_eq_ok] at hrun
    obtain ⟨r, v, halloc, hrun⟩ := hrun
    cases r with
    | none => cases hrun
    | some start =>
      simp only [Exec.bind_eq_ok] at hrun
      obtain ⟨⟨⟩, w, hwrite, ⟨⟩, x, hzeros, hrun⟩ := hrun
      obtain ⟨-, rfl⟩ := Exec.ok_inj rfl hrun
      exact ⟨m, u, start, v, w, hmalloc, halloc, hwrite, hzeros⟩

/-- An allocation that succeeds has written the map. -/
theorem MapFile.allocate_stored {cnt start : Nat} (h : MapFile s d f p)
    (hrun : filesys.free_map_allocate cnt s = .ok (some start, t)) : Stored t d := by
  cases hscan : s.free_map.scan 0 cnt false with
  | none =>
    have hflip : bitmap_scan_and_flip 0 cnt false s = .ok (none, s) := by
      rw [bitmap_scan_and_flip, Exec.bind_run Exec.get_run]
      simp only [hscan]
      rfl
    rw [filesys.free_map_allocate, Exec.bind_run hflip] at hrun
    cases (Exec.ok_inj rfl hrun).1
  | some first =>
    obtain ⟨hfits, -⟩ := bitmap.scan_eq_some hscan
    rw [h.bit_cnt] at hfits
    have hflip : bitmap_scan_and_flip 0 cnt false s =
        .ok (some first, { s with free_map := s.free_map.set first cnt true }) := by
      rw [bitmap_scan_and_flip, Exec.bind_run Exec.get_run]
      simp only [hscan]
      exact Exec.bind_run (bitmap_set_multiple_run h.ready hfits true)
    obtain ⟨saved, u, hwrite, hmap, honly, hstored, -⟩ := (h.mark first cnt true).bitmap_write_run
    have hsave := (free_map_save_eq (h.mark first cnt true).free_map_file).trans hwrite
    rw [filesys.free_map_allocate, Exec.bind_run hflip] at hrun
    simp only [Exec.bind_run hsave] at hrun
    cases saved with
    | true =>
      obtain ⟨-, rfl⟩ := Exec.ok_inj rfl hrun
      exact hstored rfl
    | false =>
      have hback := bitmap_set_multiple_run hmap.ready (honly.size ▸ hfits) false
      rw [if_neg Bool.false_ne_true, Exec.bind_run hback] at hrun
      cases (Exec.ok_inj rfl hrun).1

/-- The file keeps the map while other sectors are written. -/
theorem Stored.only {S : Nat → Prop} (h : Stored s d) (hon : OnDevice s.fs_device d)
    (hlength : d.length = byte_cnt s.fs_device.size) (hroom : byte_cnt s.fs_device.size ≠ 0)
    (honly : OnlyDevice S s t) (hS : ∀ x, S x → ¬ d.Owns x) : Stored t d := by
  intro i hi
  rw [honly.size] at hi
  have hbytes := (le_byte_cnt hon.size_lt hroom).1
  have hsectors := le_bytes_to_sectors hon.length_nonneg hon.length_le
  have hmap : t.free_map = s.free_map := by rw [honly.same]
  rw [hmap, ← h i hi, block.content, block.content, honly.sector]
  exact fun hx => hS _ hx ⟨Nat.le_add_right _ _, by omega⟩

/-- The root directory, once it has been created. -/
structure RootCreated (s t : State) (start : Nat) : Prop where
  low : 2 ≤ start
  fits : start < s.fs_device.size
  free : s.free_map.bits start = false
  inode : disk_inode t ROOT_DIR_SECTOR = { start, length := 320, magic := INODE_MAGIC }
  zeros : ∀ o < 512, t.fs_device.sector start o = 0
  size : t.fs_device.size = s.fs_device.size
  oom : t.oom = s.oom
  free_map : t.free_map = s.free_map.set start 1 true

theorem MapOnly.root_mounts (h : MapOnly s d f p) (hmarked : MapMarked s)
    (hlow : 2 ≤ d.start) (hused : ∀ x, d.Owns x → s.free_map.bits x = true) (hbig : 2 ≤ s.fs_device.size)
    (hrun : dir_create ROOT_DIR_SECTOR 16 s = .ok (true, t)) :
    ∃ start, MapOnly t d f p ∧ Stored t d ∧ RootCreated s t start := by
  have hcount : bytes_to_sectors (16 * ENTRY_SIZE : Nat) = 1 := by decide
  have hsector : ROOT_DIR_SECTOR < s.fs_device.size := by
    rw [ROOT_DIR_SECTOR]
    omega
  obtain ⟨r, t', hrun', -, hcreated⟩ := inode_create_run h.ready hsector hmarked.root
    (show (0 : Int) ≤ (16 * ENTRY_SIZE : Nat) by decide) (by decide)
  obtain ⟨rfl, rfl⟩ := Exec.ok_inj hrun' hrun
  obtain ⟨start, hmade⟩ := hcreated rfl
  have hfits := hmade.fits
  have hfree := hmade.free 0 (by rw [hcount]; omega)
  rw [hcount] at hfits
  rw [Nat.add_zero] at hfree
  have hopen := (inode_create_leaves _ _).ok _ _ _ hrun
  have hstart := (hmarked.apart hmade.free).resolve_left (by rw [hcount]; omega)
  have hfile : MapFile t' d f p := by
    refine (h.mark _ _ _).only hmade.only ?_
    rintro (hmap | hroot | hdata)
    · exact h.apart_map hmap
    · exact absurd hroot (by decide)
    · rw [FREE_MAP_SECTOR] at hdata
      omega
  refine ⟨start, h.same hfile hopen, ?_, hstart,
    by omega, hfree, hmade.inode, fun o ho => ?_, hmade.only.size, ?_, ?_⟩
  · obtain ⟨m, u, start', v, w, hmalloc, halloc, hwrite, hzeros⟩ := inode_create_eq_ok hrun
    obtain ⟨-, rfl⟩ := Exec.ok_inj hmalloc rfl
    have hmore : MapFile { s with asked := s.asked + 1 } d f p :=
      h.only (S := fun _ => False) ⟨rfl, Nat.le_succ _, rfl, fun _ _ => rfl⟩ not_false
    obtain ⟨r, v', halloc', -, hsome⟩ := free_map_allocate_run hmore.ready
      (bytes_to_sectors (16 * ENTRY_SIZE : Nat))
    obtain ⟨rfl, rfl⟩ := Exec.ok_inj halloc' halloc
    obtain ⟨-, hunused, honly⟩ := hsome start' rfl
    have hvsize : v'.fs_device.size = s.fs_device.size := honly.size
    rw [block_write, Exec.bind_run Exec.get_run, Exec.ASSERT_bind_eq_ok] at hwrite
    obtain ⟨hin, hwrite⟩ := hwrite
    obtain ⟨-, hw⟩ := Exec.ok_inj hwrite (Exec.modify_run _)
    have hstore : OnlyDevice (fun x => x = ROOT_DIR_SECTOR) v' w := by
      rw [hw]
      exact ⟨rfl, Nat.le_refl _, rfl, fun x hx => block.store_ne _ hx⟩
    have hfree' : s.free_map.bits start' = false := hunused 0 (by rw [hcount]; omega)
    have hroom : start' + 1 ≤ v'.fs_device.size := by
      have hin' := (hsome start' rfl).fits
      rw [hcount] at hin'
      exact hvsize ▸ hin'
    have hwsize : w.fs_device.size = v'.fs_device.size := hstore.size
    rw [hcount] at hzeros
    obtain ⟨t, hloop, hwritten, -⟩ := zero_loop_run start' 1 0 w (hwsize ▸ hroom)
      (hwsize ▸ hvsize ▸ h.ready.size_lt)
    obtain ⟨-, rfl⟩ := Exec.ok_inj hloop hzeros
    have hall : OnlyDevice (fun x => x = ROOT_DIR_SECTOR ∨ x = start') v' t :=
      (hstore.mono fun x => .inl).trans (hwritten.mono fun x hx => .inr (by omega))
    refine (hmore.allocate_stored halloc).only ?_ (hvsize ▸ h.length) (hvsize ▸ h.room) hall ?_
    · exact ⟨h.on_device.length_nonneg, h.on_device.length_le, hvsize ▸ h.on_device.sectors,
        hvsize ▸ h.on_device.size_lt⟩
    · rintro x (rfl | rfl) howns
      · exact absurd (hlow.trans howns.1) (by decide)
      · rw [hused _ howns] at hfree'
        cases hfree'
  · exact hmade.zero start (Nat.le_refl _) (by rw [hcount]; omega) o ho
  · rw [hmade.only.same]
  · rw [hmade.only.same, hcount]

end Root

section Init

theorem free_map_open_mounts (h : MapInode s d) (hblank : Blank s) (hrun : free_map_open s = .ok ((), t)) :
    ∃ f p, MapOnly t d f p ∧ Stored t d ∧ t.fs_device = s.fs_device ∧ t.oom = s.oom ∧ s.asked ≤ t.asked := by
  obtain ⟨r, u, f, v, hinode, hfile, hcases⟩ := open_map_file h hblank.open_inodes
  simp only [FREE_MAP_SECTOR] at hinode
  rw [free_map_open, Exec.bind_run hinode, Exec.bind_run hfile, Exec.bind_run (Exec.modify_run _)] at hrun
  obtain ⟨rfl, -⟩ | ⟨rfl, rfl⟩ := hcases
  · cases hrun
  · have honly := h.opened_only hblank
    obtain ⟨b, t', hread, hmap, hdevice, hoom, -, hstored, -⟩ := honly.bitmap_read_run
    have hopen := (bitmap_read_leaves _).ok _ _ _ hread
    simp only [Exec.bind_run hread] at hrun
    cases b with
    | false => cases hrun
    | true =>
      obtain ⟨-, rfl⟩ := Exec.ok_inj rfl hrun
      have hmore : s.asked + 2 ≤ t'.asked := hopen.asked
      exact ⟨_, _, honly.same hmap hopen, hstored rfl, hdevice, hoom, by omega⟩

/-- The data of a new root directory fills a sector. -/
theorem root_on_device {b : block} {root : Nat} (hin : root < b.size) (hlt : b.size < 2 ^ 32) :
    OnDevice b { start := root, length := 320, magic := INODE_MAGIC } := by
  have hlength : (320 : Int).toNat = 320 := rfl
  constructor
  · simp only
    omega
  · simp only
    omega
  · simp only [hlength]
    omega
  · exact hlt

/-- The one opener of the one inode is counted. -/
theorem MapOnly.counted (h : MapOnly s d f p) : Counted (fun _ => 0) s := by
  have hhandles : ∀ q, (table (fun _ => 0) s).handles q = if q = p then {f} else ∅ := by
    intro q
    ext g
    simp only [sharing.Table.handles, table, Set.mem_ofPred_eq]
    by_cases hg : g = f
    · rw [hg, h.file]
      split_ifs with hq
      · simp [hq]
      · simpa using Ne.symm hq
    · rw [h.no_file g hg]
      split_ifs <;> simp [hg]
  have hflags : (table (fun _ => 0) s).flags p = 0 := by
    have hnone : (table (fun _ => 0) s).flagged p = ∅ := by
      ext g
      by_cases hg : g = f
      · simp [sharing.Table.flagged, table, hg, h.file]
      · simp [sharing.Table.flagged, table, h.no_file g hg]
    rw [sharing.Table.flags, hnone, Set.ncard_empty]
  refine ⟨fun g hg => h.no_file g fun heq => ?_, fun q hq => h.no_inode q fun heq => ?_, fun q => ?_⟩
  · exact absurd (heq ▸ h.file_lt) (Nat.not_lt.mpr hg)
  · exact absurd (heq ▸ h.inode_lt) (Nat.not_lt.mpr hq)
  · by_cases hq : q = p
    · have hreferences : (table (fun _ => 0) s).references p = 1 := by
        rw [sharing.Table.references, hhandles, if_pos rfl, Set.ncard_singleton]
        rfl
      rw [hq, h.inode, Counts, hreferences, hflags]
      exact ⟨Nat.one_pos, rfl, rfl⟩
    · rw [h.no_inode q hq, Counts, sharing.Table.references, hhandles, if_neg hq, Set.ncard_empty]
      rfl

/-- A state of the device and the map in which only the free map and the root directory are there. -/
theorem MapOnly.mounted {start root : Nat} (h : MapOnly s (map_disk u start) f p)
    (hdev : s.fs_device.size = u.fs_device.size)
    (hstart : 2 ≤ start) (hroot : disk_inode s ROOT_DIR_SECTOR =
    { start := root, length := 320, magic := INODE_MAGIC })
    (hlow : 2 ≤ root) (hin : root < u.fs_device.size) (hapart : ¬ (map_disk u start).Owns root)
    (hzeros : ∀ o < 512, s.fs_device.sector root o = 0)
    (hfits : start + bytes_to_sectors (byte_cnt u.fs_device.size) ≤ u.fs_device.size)
    (hused : ∀ x, x = FREE_MAP_SECTOR ∨ x = ROOT_DIR_SECTOR ∨ (map_disk u start).Owns x ∨ x = root →
      s.free_map.bits x = true) :
    Sound (fun _ => 0) s ∧ ∀ i < 16, dir_entry.in_use (entry s i) = false := by
  have hcount : bytes_to_sectors 320 = 1 := by decide
  have hentries : ∀ i < 16, dir_entry.in_use (entry s i) = false := by
    intro i hi
    rw [dir_entry.in_use, entry, hroot, drop, block.content, ENTRY_SIZE]
    have hsector : root + (20 * i + 19) / 512 = root := by omega
    simp only [hsector, hzeros _ (show (20 * i + 19) % 512 < 512 by omega)]
    decide
  have hnamed : ∀ k, ¬ Named s k := by
    rintro k ⟨i, hi, huse, -⟩
    rw [hentries i hi] at huse
    cases huse
  have hinode : ∀ q i, s.inodes q = some i → q = p ∧ i = map_inode (map_disk u start) := by
    intro q i hq
    by_cases hqp : q = p
    · subst hqp
      exact ⟨rfl, Option.some.inj (hq.symm.trans h.inode)⟩
    · rw [h.no_inode q hqp] at hq
      cases hq
  have hthere : ∀ k ∈ There s, k = FREE_MAP_SECTOR ∨ k = ROOT_DIR_SECTOR := by
    rintro k (hk | hk | hk | ⟨q, i, hq, rfl⟩)
    · exact .inl hk
    · exact .inr hk
    · exact absurd hk (hnamed k)
    · rw [(hinode q i hq).2]
      exact .inl rfl
  have hmap_inode : disk_inode s FREE_MAP_SECTOR = map_disk u start := h.disk
  have hroot_owns : ∀ x, inode_disk.Owns { start := root, length := 320, magic := INODE_MAGIC } x ↔
      x = root := by
    intro x
    simp only [inode_disk.Owns, hcount]
    omega
  have hmap_owns : ∀ x, (map_disk u start).Owns x → 2 ≤ x ∧ x < s.fs_device.size := by
    rintro x ⟨hle, hlt⟩
    have hend : x < start + bytes_to_sectors (byte_cnt u.fs_device.size) := hlt
    have hbegin : start ≤ x := hle
    omega
  have hmap_sectors : sectors_of s FREE_MAP_SECTOR = {x | x = FREE_MAP_SECTOR ∨ (map_disk u start).Owns x} := by
    rw [sectors_of, hmap_inode]
  have hroot_sectors : sectors_of s ROOT_DIR_SECTOR = {x | x = ROOT_DIR_SECTOR ∨ x = root} := by
    simp only [sectors_of, hroot, hroot_owns]
  have hdisjoint : Disjoint (sectors_of s FREE_MAP_SECTOR) (sectors_of s ROOT_DIR_SECTOR) := by
    rw [hmap_sectors, hroot_sectors, Set.disjoint_left]
    rintro x (rfl | hx) (hy | hy)
    · cases hy
    · rw [FREE_MAP_SECTOR] at hy
      omega
    · have hlow := (hmap_owns x hx).1
      rw [hy, ROOT_DIR_SECTOR] at hlow
      omega
    · exact hapart (hy ▸ hx)
  refine ⟨⟨h.counted, ⟨⟨?_, ?_⟩, ?_, ?_, .inl rfl, .inr (.inl rfl), fun k hk => absurd hk (hnamed k), ?_, ?_,
    fun k hk => absurd hk (hnamed k)⟩, ?_, ?_, ?_, ?_, ?_, ?_, ?_, ?_, ?_, ?_, ?_⟩, hentries⟩
  · intro k hk x hx
    obtain rfl | rfl := hthere k hk
    · rw [hmap_sectors] at hx
      exact hused x (hx.imp_right fun howns => .inr (.inl howns))
    · rw [hroot_sectors] at hx
      exact hused x (.inr (hx.imp_right .inr))
  · intro k hk l hl hne
    obtain rfl | rfl := hthere k hk <;> obtain rfl | rfl := hthere l hl
    · exact absurd rfl hne
    · exact hdisjoint
    · exact hdisjoint.symm
    · exact absurd rfl hne
  · intro k hk x hx
    obtain rfl | rfl := hthere k hk
    · rw [hmap_sectors] at hx
      obtain rfl | hx := hx
      · exact h.size_pos
      · exact (hmap_owns x hx).2
    · rw [hroot_sectors] at hx
      obtain rfl | rfl := hx
      · rw [ROOT_DIR_SECTOR]
        omega
      · omega
  · intro k hk
    obtain rfl | rfl := hthere k hk
    · rw [hmap_inode]
      exact h.apart
    · rw [hroot, hroot_owns, ROOT_DIR_SECTOR]
      omega
  · rw [hroot]
  · intro i hi j hj huse
    rw [hentries i hi] at huse
    cases huse
  · exact h.bit_cnt
  · rw [h.disk]
    exact h.length
  · exact ⟨f, _, _, h.free_map_file, h.file, rfl, h.inode, rfl⟩
  · intro g file i hg hne hi
    have hgf : g ≠ f := by
      rintro rfl
      exact hne h.free_map_file
    rw [h.no_file g hgf] at hg
    cases hg
  · intro q
    rw [h.open_inodes, List.mem_singleton]
    by_cases hq : q = p
    · simp [hq, h.inode]
    · simp [hq, h.no_inode q hq]
  · rw [h.open_inodes]
    exact List.nodup_singleton p
  · intro q q' i i' hq hq' _
    rw [(hinode q i hq).1, (hinode q' i' hq').1]
  · intro q i hq
    rw [(hinode q i hq).2]
    exact h.disk.symm
  · intro q i hq hremoved
    rw [(hinode q i hq).2] at hremoved
    cases hremoved
  · intro k hk
    obtain rfl | rfl := hthere k hk
    · constructor
      · rw [hmap_inode]
        exact h.on_device
      · rw [hmap_inode, hdev]
        exact hfits
    · constructor
      · rw [hroot]
        exact root_on_device (hdev ▸ hin) h.on_device.size_lt
      · rw [hroot, hcount, hdev]
        exact hin
  · intro i hi huse
    rw [hentries i hi] at huse
    cases huse

/-- What formatting leaves: a file system in order that names no file, and in which only the free map is open. -/
structure Formatted (s t : State) : Prop where
  sound : Sound (fun _ => 0) t
  empty : ∀ i < 16, dir_entry.in_use (entry t i) = false
  closed : ∀ g, t.free_map_file ≠ some g → t.files g = none
  size : t.fs_device.size = s.fs_device.size
  oom : t.oom = s.oom
  tight : ∀ x < t.fs_device.size, t.free_map.bits x = true → ∃ k ∈ There t, x ∈ sectors_of t k

/-- The free map's file is closed, and nothing else is open. -/
theorem MapOnly.blank (h : MapOnly s d f p) : Blank { s with
    open_inodes := []
    inodes := fun q => if q = p then none else s.inodes q
    files := fun g => if g = f then none else s.files g } where
  inodes q := by
    simp only
    split_ifs with hq
    · rfl
    · exact h.no_inode q hq
  files g := by
    simp only
    split_ifs with hg
    · rfl
    · exact h.no_file g hg
  open_inodes := rfl

theorem filesys_init_mounts (hinodes : ∀ p, s.inodes p = none) (hfiles : ∀ f, s.files f = none)
    (hfile : s.free_map_file = none) (hlt : s.fs_device.size < 2 ^ 32)
    (hrun : filesys_init true s = .ok ((), t)) :
    Formatted s t := by
  obtain ⟨u, v, hinit, hformat, hopen⟩ := filesys_init_eq_ok hrun
  obtain ⟨asked, b, hu, hcnt, hzero, hone, hroom, hclear⟩ := (free_map_init_run _).1 u hinit
  have hbegin : u.free_map_file = none ∧ u.fs_device = s.fs_device ∧ u.free_map = b ∧
      u.oom = s.oom ∧ Blank u := by
    rw [hu]
    exact ⟨hfile, rfl, rfl, rfl, hinodes, hfiles, rfl⟩
  obtain ⟨hfile', hdevice, hmap, hoom, hblank⟩ := hbegin
  obtain ⟨w, x, hcreate, hdir, hclose⟩ := do_format_eq_ok hformat
  have hready : FreeMapReady u none := ⟨hmap ▸ hdevice ▸ hcnt, hdevice ▸ hlt, fun _ => hfile',
      fun _ hd => by cases hd⟩
  have hmarked : MapMarked u := ⟨hmap ▸ hzero, hmap ▸ hone⟩
  -- The free map's file, and then the root directory.
  obtain ⟨start, f, p, honly, -, hmade⟩ := free_map_create_mounts hcreate hready
    (hdevice ▸ hroom) hmarked hblank
  have hused : ∀ y, (map_disk u start).Owns y → w.free_map.bits y = true := by
    rintro y ⟨hle, hlt⟩
    rw [hmade.free_map]
    exact if_pos ⟨hle, hlt⟩
  have hsize := hmade.size
  have hfits := hmade.fits
  have hlow := hmade.low
  have hmarked' := hmarked.mark rfl hmade.free_map
  obtain ⟨root, honly', hstored, hroot⟩ := honly.root_mounts hmarked' hlow hused (by omega) hdir
  obtain ⟨-, rfl⟩ := Exec.ok_inj honly'.free_map_close hclose
  obtain ⟨f', p', hlast, hstored', hdevice', hoom'⟩ := free_map_open_mounts honly'.closed honly'.blank hopen
  -- What is read back is what the map was.
  have hbits : ∀ y < u.fs_device.size, t.free_map.bits y = x.free_map.bits y := by
    intro y hy
    have hin : y < x.fs_device.size := by rwa [hroot.size, hmade.size]
    rw [← hstored y hin, ← hstored' y (hdevice' ▸ hin), hdevice']
  have hrootsize := hroot.fits
  have hsound := hlast.mounted (by rw [hdevice', hroot.size, hmade.size]) hlow
    (by rw [disk_inode, hdevice']; exact hroot.inode) hroot.low (by omega)
    (fun howns => by have hfree := hroot.free; rw [hused _ howns] at hfree; cases hfree)
    (fun o ho => by rw [hdevice']; exact hroot.zeros o ho) hfits ?_
  · refine ⟨hsound.1, hsound.2, fun g hg => hlast.no_file g fun heq => ?_, ?_, ?_, fun y hy hbit => ?_⟩
    · exact hg (heq ▸ hlast.free_map_file)
    · rw [hdevice', hroot.size, hmade.size, hdevice]
    · rw [hoom'.1, hroot.oom, hmade.oom, hoom]
    · have hin : y < u.fs_device.size := by rwa [hdevice', hroot.size, hmade.size] at hy
      have hmapped : disk_inode t FREE_MAP_SECTOR = map_disk u start := hlast.disk
      have hdir : disk_inode t ROOT_DIR_SECTOR = { start := root, length := 320, magic := INODE_MAGIC } := by
        rw [disk_inode, hdevice']
        exact hroot.inode
      rw [hbits y hin, hroot.free_map, hmade.free_map] at hbit
      simp only [bitmap.set] at hbit
      split_ifs at hbit with hdata hmap'
      · refine ⟨ROOT_DIR_SECTOR, .inr (.inl rfl), .inr ?_⟩
        rw [hdir]
        exact hdata
      · refine ⟨FREE_MAP_SECTOR, .inl rfl, .inr ?_⟩
        rw [hmapped]
        exact hmap'
      · have hfirst : y = FREE_MAP_SECTOR ∨ y = ROOT_DIR_SECTOR := by
          by_contra hnot
          rw [hmap, hclear y (by rw [FREE_MAP_SECTOR, ROOT_DIR_SECTOR] at hnot; omega) (hdevice ▸ hin)] at hbit
          cases hbit
        obtain rfl | rfl := hfirst
        · exact ⟨FREE_MAP_SECTOR, .inl rfl, sector_mem _ _⟩
        · exact ⟨ROOT_DIR_SECTOR, .inr (.inl rfl), sector_mem _ _⟩
  · intro y hy
    have hin : y < u.fs_device.size := by
      obtain rfl | rfl | ⟨-, howns⟩ | rfl := hy
      · rw [FREE_MAP_SECTOR]
        omega
      · rw [ROOT_DIR_SECTOR]
        omega
      · have hend : y < start + bytes_to_sectors (byte_cnt u.fs_device.size) := howns
        omega
      · omega
    rw [hbits y hin, hroot.free_map]
    simp only [bitmap.set]
    split_ifs with hfresh
    · rfl
    · obtain rfl | rfl | howns | rfl := hy
      · exact hmarked'.free_map
      · exact hmarked'.root
      · exact hused y howns
      · omega

end Init

end pintos.filesys
