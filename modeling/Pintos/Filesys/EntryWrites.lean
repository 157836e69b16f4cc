import Pintos.Filesys.FileData

/-!
# Writing an entry of the root directory

The entry that is written names a new file, or nothing. The other entries, and the files, are as they were.
-/

open twos_complement bytes state_error ownership

namespace pintos.filesys

variable {held : Ptr → Nat} {s t u : State} {p f : Ptr} {inode : filesys.inode} {k n i : Nat} {e : Bytes}

/-- The root directory, once it is open. -/
theorem Sound.root_dir (h : Sound held s) (hp : s.inodes p = some inode)
    (hroot : inode.sector = ROOT_DIR_SECTOR) :
    IsDir s p inode 16 := by
  have hdata := h.data p inode hp
  rw [hroot] at hdata
  refine ⟨hp, hdata ▸ (h.lies _ h.disk.root_there).on_device, ?_, fun i hi => ?_⟩
  · rw [hdata, h.disk.root_length]
    rfl
  · have hgood := h.good i hi
    rwa [entry, ← hdata] at hgood

/-- A file on the device that nobody knows of yet. -/
structure NewFile (s : State) (k : Nat) : Prop where
  used : sectors_of s k ⊆ used s
  apart : ∀ l ∈ There s, ∀ x ∈ sectors_of s k, x ∉ sectors_of s l
  in_range : ∀ x ∈ sectors_of s k, x < s.fs_device.size
  inode_apart : ¬ (disk_inode s k).Owns k
  lies : Lies s k

theorem NewFile.absent (h : NewFile s k) : k ∉ There s := fun hk =>
  h.apart k hk k (sector_mem s k) (sector_mem s k)

/-- What writing entry `i` leaves behind. -/
structure EntryWritten (held : Ptr → Nat) (i : Nat) (e : Bytes) (s t : State) : Prop where
  sound : Sound held t
  size : t.fs_device.size = s.fs_device.size
  oom : t.oom = s.oom
  map_file : t.free_map_file = s.free_map_file
  free_map : t.free_map = s.free_map
  same_open : SameOpen s t
  entries : ∀ j < 16, ∀ b < 20, entry t j b = if j = i then e b else entry s j b
  files : ∀ l, l ∈ Users s ∨ NewFile s l → ∀ x ∈ sectors_of s l, t.fs_device.sector x = s.fs_device.sector x
  there : ∀ l ∈ There t, l ∈ There s ∨ NewFile s l ∧ dir_entry.in_use e = true ∧ dir_entry.inode_sector e = l

/-- Only the sector of the entries is written. -/
theorem write_slot_sector (b : block) (d : inode_disk) (e : Bytes) {x : Nat} (hi : i < 16) (hx : x ≠ d.start) :
    (write_slot b d i e).sector x = b.sector x := by
  funext o
  apply block.overwrite_outside
  rw [ENTRY_SIZE]
  omega

section Write

variable (h : Sound held s) (hp : s.inodes p = some inode)
  (hroot : inode.sector = ROOT_DIR_SECTOR) (hi : i < 16)
  {asked : Nat} (ht : t = { s with
    fs_device := write_slot s.fs_device inode.data i e
    asked := asked })

include h hp hroot hi ht

theorem entry_write_sector {x : Nat} (hx : x ≠ root_sector s) :
    t.fs_device.sector x = s.fs_device.sector x := by
  have hdata := h.data p inode hp
  rw [hroot] at hdata
  rw [ht]
  exact write_slot_sector _ _ _ hi (by rwa [hdata])

/-- The sector of the entries belongs to the root directory. -/
theorem entry_write_file (hk : k ∈ There s ∨ NewFile s k) : (∀ x ∈ sectors_of s k, k ≠ ROOT_DIR_SECTOR →
    x ≠ root_sector s) ∧ disk_inode t k = disk_inode s k := by
  have hroot_in : root_sector s ∈ sectors_of s ROOT_DIR_SECTOR := .inr h.disk.root_owns
  have hother : ∀ x ∈ sectors_of s k, k ≠ ROOT_DIR_SECTOR → x ≠ root_sector s := by
    rintro x hx hne rfl
    obtain hk | hk := hk
    · exact hne (h.disk.owned.owner_unique hk h.disk.root_there hx hroot_in)
    · exact hk.apart _ h.disk.root_there _ hx hroot_in
  refine ⟨hother, ?_⟩
  have hne : k ≠ root_sector s := by
    by_cases heq : k = ROOT_DIR_SECTOR
    · rintro hsame
      have howns := h.disk.root_owns
      rw [← hsame, heq] at howns
      exact h.disk.inode_apart _ h.disk.root_there howns
    · exact hother k (sector_mem s k) heq
  rw [disk_inode, entry_write_sector h hp hroot hi ht hne]
  rfl

theorem entry_write (j : Nat) {b : Nat} (hb : b < 20) : entry t j b = if j = i then e b else entry s j b := by
  have hdata := h.data p inode hp
  rw [hroot] at hdata
  have hslot := slot_write_slot s.fs_device inode.data i j e hb
  rw [entry, (entry_write_file h hp hroot hi ht (.inl h.disk.root_there)).2, entry, ← hdata, ht]
  exact hslot

theorem entry_write_in_use (j : Nat) :
    dir_entry.in_use (entry t j) = if j = i then dir_entry.in_use e else dir_entry.in_use (entry s j) := by
  split_ifs with hj
  · exact in_use_congr fun b hb => (entry_write h hp hroot hi ht j hb).trans (if_pos hj)
  · exact in_use_congr fun b hb => (entry_write h hp hroot hi ht j hb).trans (if_neg hj)

theorem entry_write_inode_sector (j : Nat) : dir_entry.inode_sector (entry t j) =
    if j = i then dir_entry.inode_sector e else dir_entry.inode_sector (entry s j) := by
  split_ifs with hj
  · exact inode_sector_congr fun b hb => (entry_write h hp hroot hi ht j hb).trans (if_pos hj)
  · exact inode_sector_congr fun b hb => (entry_write h hp hroot hi ht j hb).trans (if_neg hj)

theorem entry_write_named (hk : Named t k) :
    Named s k ∨ dir_entry.in_use e = true ∧ dir_entry.inode_sector e = k := by
  obtain ⟨j, hj, huse, hsector⟩ := hk
  rw [entry_write_in_use h hp hroot hi ht] at huse
  rw [entry_write_inode_sector h hp hroot hi ht] at hsector
  split_ifs at huse hsector with hji
  · exact .inr ⟨huse, hsector⟩
  · exact .inl ⟨j, hj, huse, hsector⟩

variable (hnew : dir_entry.in_use e = true → NewFile s (dir_entry.inode_sector e))

include hnew

theorem entry_write_there (hk : k ∈ There t) : k ∈ There s ∨
    NewFile s k ∧ dir_entry.in_use e = true ∧ dir_entry.inode_sector e = k := by
  obtain hk | hk | hk | ⟨q, j, hq, rfl⟩ := hk
  · exact .inl (.inl hk)
  · exact .inl (.inr (.inl hk))
  · obtain hk | ⟨huse, rfl⟩ := entry_write_named h hp hroot hi ht hk
    · exact .inl (named_there hk)
    · exact .inr ⟨hnew huse, huse, rfl⟩
  · rw [ht] at hq
    exact .inl (opened_there hq)

theorem entry_write_disk : Disk (There t) t := by
  have hinode : ∀ k ∈ There t, disk_inode t k = disk_inode s k := fun k hk =>
    (entry_write_file h hp hroot hi ht ((entry_write_there h hp hroot hi ht hnew hk).imp_right And.left)).2
  have hsectors : ∀ k ∈ There t, sectors_of t k = sectors_of s k := by
    intro k hk
    rw [sectors_of, hinode k hk]
    rfl
  have hdevice : t.fs_device.size = s.fs_device.size ∧ t.free_map = s.free_map := by
    rw [ht]
    exact ⟨rfl, rfl⟩
  have hused : used t = used s := by rw [used, hdevice.2, used]
  refine ⟨⟨fun k hk => ?_, fun k hk l hl hne => ?_⟩, fun k hk x hx => ?_, fun k hk => ?_, .inl rfl,
    .inr (.inl rfl),
    fun k => named_there, ?_, fun j hj l hl hjuse hluse hsame => ?_, fun k hk => ?_⟩
  · rw [hsectors k hk, hused]
    obtain hk | ⟨hk, -⟩ := entry_write_there h hp hroot hi ht hnew hk
    · exact h.disk.owned.used k hk
    · exact hk.used
  · simp only [Function.onFun, hsectors k hk, hsectors l hl]
    obtain hk | ⟨hk, -, hke⟩ := entry_write_there h hp hroot hi ht hnew hk <;>
      obtain hl | ⟨hl, -, hle⟩ := entry_write_there h hp hroot hi ht hnew hl
    · exact h.disk.owned.apart hk hl hne
    · exact Set.disjoint_right.mpr (hl.apart k hk)
    · exact Set.disjoint_left.mpr (hk.apart l hl)
    · exact absurd (hke.symm.trans hle) hne
  · rw [hsectors k hk] at hx
    rw [hdevice.1]
    obtain hk | ⟨hk, -⟩ := entry_write_there h hp hroot hi ht hnew hk
    · exact h.disk.in_range k hk x hx
    · exact hk.in_range x hx
  · rw [hinode k hk]
    obtain hk | ⟨hk, -⟩ := entry_write_there h hp hroot hi ht hnew hk
    · exact h.disk.inode_apart k hk
    · exact hk.inode_apart
  · rw [hinode _ (.inr (.inl rfl))]
    exact h.disk.root_length
  · rw [entry_write_in_use h hp hroot hi ht] at hjuse hluse
    rw [entry_write_inode_sector h hp hroot hi ht, entry_write_inode_sector h hp hroot hi ht] at hsame
    -- The new file is not named by another entry.
    have hfresh : ∀ m < 16, dir_entry.in_use e = true → dir_entry.in_use (entry s m) = true →
        dir_entry.inode_sector (entry s m) ≠ dir_entry.inode_sector e := by
      intro m hm huse hmuse heq
      exact (hnew huse).absent (named_there ⟨m, hm, hmuse, heq⟩)
    split_ifs at hjuse hluse hsame with hji hli hli
    · rw [hji, hli]
    · exact absurd hsame.symm (hfresh l hl hjuse hluse)
    · exact absurd hsame (hfresh j hj hluse hjuse)
    · exact h.disk.one_name j hj l hl hjuse hluse hsame
  · obtain hk | ⟨huse, rfl⟩ := entry_write_named h hp hroot hi ht hk
    · exact h.disk.named_ne k hk
    · have habsent := (hnew huse).absent
      exact ⟨fun heq => habsent (.inl heq), fun heq => habsent (.inr (.inl heq))⟩

theorem Sound.write_entry (hgood : dir_entry.Good e) (hasked : s.asked ≤ asked) :
    EntryWritten held i e s t := by
  have hinode : ∀ k ∈ There t, disk_inode t k = disk_inode s k := fun k hk =>
    (entry_write_file h hp hroot hi ht ((entry_write_there h hp hroot hi ht hnew hk).imp_right And.left)).2
  have hrest : t.fs_device.size = s.fs_device.size ∧ t.oom = s.oom ∧ t.free_map_file = s.free_map_file ∧
      t.free_map = s.free_map ∧ SameOpen s t := by
    rw [ht]
    exact ⟨rfl, rfl, rfl, rfl, rfl, rfl, rfl, hasked⟩
  obtain ⟨hsize, hoom, hfile, hmap, hopen⟩ := hrest
  refine ⟨⟨h.counted.same hopen, entry_write_disk h hp hroot hi ht hnew, ?_, ?_, ?_, ?_, ?_, ?_, ?_,
    ?_, ?_, ?_, ?_⟩,
    hsize, hoom, hfile, hmap, hopen, fun j _ b hb => entry_write h hp hroot hi ht j hb, fun l hl x hx => ?_,
    fun l => entry_write_there h hp hroot hi ht hnew⟩
  · rw [hmap, hsize]
    exact h.bit_cnt
  · rw [hinode _ (.inl rfl), hsize]
    exact h.map_length
  · rw [hfile, hopen.files, hopen.inodes]
    exact h.map_file
  · rw [hfile, hopen.files, hopen.inodes]
    exact h.user_files
  · rw [hopen.open_inodes, hopen.inodes]
    exact h.listed
  · rw [hopen.open_inodes]
    exact h.nodup
  · rw [hopen.inodes]
    exact h.one_inode
  · intro q j hq
    rw [hinode _ (opened_there hq)]
    exact h.data q j (hopen.inodes ▸ hq)
  · intro q j hq hremoved
    rw [hopen.inodes] at hq
    obtain ⟨hunnamed, huser⟩ := h.removed q j hq hremoved
    refine ⟨fun hnamed => ?_, huser⟩
    obtain hnamed | ⟨huse, heq⟩ := entry_write_named h hp hroot hi ht hnamed
    · exact hunnamed hnamed
    · exact (hnew huse).absent (heq ▸ opened_there hq)
  · intro k hk
    obtain hk' | ⟨hk', -⟩ := entry_write_there h hp hroot hi ht hnew hk
    · exact (h.lies k hk').congr hsize (hinode k hk)
    · exact hk'.lies.congr hsize (hinode k hk)
  · intro j hj
    by_cases hji : j = i
    · exact hgood.congr fun b hb => (entry_write h hp hroot hi ht j hb).trans (if_pos hji)
    · exact (h.good j hj).congr fun b hb => (entry_write h hp hroot hi ht j hb).trans (if_neg hji)
  · have hknown : l ∈ There s ∨ NewFile s l := hl.imp_left And.left
    refine entry_write_sector h hp hroot hi ht ((entry_write_file h hp hroot hi ht hknown).1 x hx ?_)
    rintro rfl
    obtain hl | hl := hl
    · exact hl.2.2 rfl
    · exact hl.absent h.disk.root_there

end Write

namespace EntryWritten

variable (h : EntryWritten held i e s t)

include h

theorem in_use {j : Nat} (hj : j < 16) :
    dir_entry.in_use (entry t j) = if j = i then dir_entry.in_use e else dir_entry.in_use (entry s j) := by
  split_ifs with hji
  · exact in_use_congr fun b hb => (h.entries j hj b hb).trans (if_pos hji)
  · exact in_use_congr fun b hb => (h.entries j hj b hb).trans (if_neg hji)

theorem inode_sector {j : Nat} (hj : j < 16) : dir_entry.inode_sector (entry t j) =
    if j = i then dir_entry.inode_sector e else dir_entry.inode_sector (entry s j) := by
  split_ifs with hji
  · exact inode_sector_congr fun b hb => (h.entries j hj b hb).trans (if_pos hji)
  · exact inode_sector_congr fun b hb => (h.entries j hj b hb).trans (if_neg hji)

theorem spells {j : Nat} {name : List Byte} (hj : j < 16) : dir_entry.Spells (entry t j) name ↔
    if j = i then dir_entry.Spells e name else dir_entry.Spells (entry s j) name := by
  split_ifs with hji
  · exact dir_entry.spells_congr fun b hb => (h.entries j hj b hb).trans (if_pos hji)
  · exact dir_entry.spells_congr fun b hb => (h.entries j hj b hb).trans (if_neg hji)

/-- The files of the other entries stay there, and those that are open. -/
theorem stays (hk : k ∈ There s) (hother : (dir_entry.in_use (entry s i) = true →
    dir_entry.inode_sector (entry s i) ≠ k) ∨ Opened s k) : k ∈ There t := by
  obtain hk | hk | ⟨j, hj, huse, hsector⟩ | ⟨q, inode, hq, hsector⟩ := hk
  · exact .inl hk
  · exact .inr (.inl hk)
  · obtain hother | ⟨q, inode, hq, hsector'⟩ := hother
    · have hji : j ≠ i := by
        rintro rfl
        exact hother huse hsector
      exact named_there ⟨j, hj, (h.in_use hj).trans ((if_neg hji).trans huse),
        (h.inode_sector hj).trans ((if_neg hji).trans hsector)⟩
    · exact .inr (.inr (.inr ⟨q, inode, h.same_open.inodes ▸ hq, hsector'⟩))
  · exact .inr (.inr (.inr ⟨q, inode, h.same_open.inodes ▸ hq, hsector⟩))

theorem handle_eq : handle t = handle s := by
  simp only [funext_iff, filesys.handle, h.same_open.files, h.same_open.inodes, implies_true]

end EntryWritten

end pintos.filesys
