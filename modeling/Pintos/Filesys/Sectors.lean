import Pintos.Lib.Ownership
import Pintos.Filesys.Creation
import Pintos.Filesys.Directory

/-!
# Which file owns a sector

A file is known by the sector of its inode. It owns that sector and its data
sectors. What the device and the free map have to satisfy speaks of the files that
are there: the free map, the root directory, and those that are named or open.
-/

open twos_complement bytes state_error ownership

namespace pintos.filesys

/-- The inode in a sector. -/
def disk_inode (s : State) (k : Nat) : inode_disk := inode_disk.of_bytes (s.fs_device.sector k)

/-- An entry of the root directory. -/
def entry (s : State) (i : Nat) : Bytes :=
  drop (s.fs_device.content (disk_inode s ROOT_DIR_SECTOR).start) (ENTRY_SIZE * i)

/-- The root directory names the file. -/
def Named (s : State) (k : Nat) : Prop :=
  ∃ i < 16, dir_entry.in_use (entry s i) = true ∧ dir_entry.inode_sector (entry s i) = k

/-- The sectors of a file. -/
def sectors_of (s : State) (k : Nat) : Set Nat := {x | x = k ∨ (disk_inode s k).Owns x}

/-- The sectors that are marked as used. -/
def used (s : State) : Set Nat := {x | s.free_map.bits x = true}

/-- What holds on the device and of the free map, for the files that are there. -/
structure Disk (there : Set Nat) (s : State) : Prop where
  owned : Owned there (sectors_of s) (used s)
  in_range : ∀ k ∈ there, ∀ x ∈ sectors_of s k, x < s.fs_device.size
  inode_apart : ∀ k ∈ there, ¬ (disk_inode s k).Owns k
  free_map_there : FREE_MAP_SECTOR ∈ there
  root_there : ROOT_DIR_SECTOR ∈ there
  named_there : ∀ k, Named s k → k ∈ there
  root_length : (disk_inode s ROOT_DIR_SECTOR).length = 320
  one_name : ∀ i < 16, ∀ j < 16, dir_entry.in_use (entry s i) = true → dir_entry.in_use (entry s j) = true →
    dir_entry.inode_sector (entry s i) = dir_entry.inode_sector (entry s j) → i = j
  named_ne : ∀ k, Named s k → k ≠ FREE_MAP_SECTOR ∧ k ≠ ROOT_DIR_SECTOR

/-- A sector that is in use but belongs to no file. -/
structure Spare (there : Set Nat) (s : State) (x : Nat) : Prop where
  used : x ∈ used s
  in_range : x < s.fs_device.size
  nobody : ∀ k ∈ there, x ∉ sectors_of s k

section Disk

variable {there there' : Set Nat} {s s' : State} {k x : Nat}

theorem sector_mem (s : State) (k : Nat) : k ∈ sectors_of s k := Or.inl rfl

/-- The only data sector of the root directory. -/
def root_sector (s : State) : Nat := (disk_inode s ROOT_DIR_SECTOR).start

theorem Disk.root_owns (h : Disk there s) : (disk_inode s ROOT_DIR_SECTOR).Owns (root_sector s) := by
  have hcount : bytes_to_sectors 320 = 1 := by decide
  rw [inode_disk.Owns, h.root_length, hcount, root_sector]
  omega

/-- The files that stay there. -/
theorem Disk.leave (h : Disk there s) (hsub : there' ⊆ there) (hfree : FREE_MAP_SECTOR ∈ there')
    (hroot : ROOT_DIR_SECTOR ∈ there') (hnamed : ∀ k, Named s k → k ∈ there') : Disk there' s where
  owned := h.owned.leave hsub
  in_range k hk := h.in_range k (hsub hk)
  inode_apart k hk := h.inode_apart k (hsub hk)
  free_map_there := hfree
  root_there := hroot
  named_there := hnamed
  root_length := h.root_length
  one_name := h.one_name
  named_ne := h.named_ne

/-- The device is the same for the files that are there. -/
structure SameFiles (there : Set Nat) (s s' : State) : Prop where
  size : s'.fs_device.size = s.fs_device.size
  inode : ∀ k ∈ there, s'.fs_device.sector k = s.fs_device.sector k
  root : s'.fs_device.sector (root_sector s) = s.fs_device.sector (root_sector s)

namespace SameFiles

theorem disk_inode_eq (h : SameFiles there s s') (hk : k ∈ there) : disk_inode s' k = disk_inode s k := by
  rw [disk_inode, h.inode k hk]
  rfl

theorem sectors_of_eq (h : SameFiles there s s') (hk : k ∈ there) : sectors_of s' k = sectors_of s k := by
  rw [sectors_of, h.disk_inode_eq hk]
  rfl

/-- An entry lies in one sector. -/
theorem entry_eq (h : SameFiles there s s') (hd : Disk there s) {i j : Nat} (hi : i < 16) (hj : j < 20) :
    entry s' i j = entry s i j := by
  have hdiv : (ENTRY_SIZE * i + j) / 512 = 0 := by
    rw [ENTRY_SIZE]
    omega
  simp only [entry, drop, block.content, h.disk_inode_eq hd.root_there, hdiv, Nat.add_zero]
  exact congrFun h.root _

end SameFiles

/-- An entry is what its 20 bytes say. -/
theorem in_use_congr {e e' : Bytes} (h : ∀ j < 20, e' j = e j) : dir_entry.in_use e' = dir_entry.in_use e := by
  rw [dir_entry.in_use, h 19 (by omega)]
  rfl

theorem inode_sector_congr {e e' : Bytes} (h : ∀ j < 20, e' j = e j) :
    dir_entry.inode_sector e' = dir_entry.inode_sector e := by
  apply word_congr
  intro j hj
  exact h _ (by omega)

theorem SameFiles.named_iff (h : SameFiles there s s') (hd : Disk there s) : Named s' k ↔ Named s k := by
  apply exists_congr
  intro i
  apply and_congr_right
  intro hi
  rw [in_use_congr fun j hj => h.entry_eq hd hi hj, inode_sector_congr fun j hj => h.entry_eq hd hi hj]

/-- The files that are there are untouched and their sectors are still in use. -/
theorem Disk.same_files (h : Disk there s) (hsame : SameFiles there s s')
    (hused : ∀ k ∈ there, sectors_of s k ⊆ used s') : Disk there s' where
  owned := by
    have howned : Owned there (sectors_of s) (used s') := ⟨hused, h.owned.apart⟩
    exact howned.congr fun k hk => hsame.sectors_of_eq hk
  in_range k hk x hx := by
    rw [hsame.sectors_of_eq hk] at hx
    rw [hsame.size]
    exact h.in_range k hk x hx
  inode_apart k hk := by
    rw [hsame.disk_inode_eq hk]
    exact h.inode_apart k hk
  free_map_there := h.free_map_there
  root_there := h.root_there
  named_there k hk := h.named_there k ((hsame.named_iff h).mp hk)
  root_length := by
    rw [hsame.disk_inode_eq h.root_there]
    exact h.root_length
  one_name i hi j hj := by
    rw [in_use_congr fun l hl => hsame.entry_eq h hi hl, in_use_congr fun l hl => hsame.entry_eq h hj hl,
      inode_sector_congr fun l hl => hsame.entry_eq h hi hl,
        inode_sector_congr fun l hl => hsame.entry_eq h hj hl]
    exact h.one_name i hi j hj
  named_ne k hk := h.named_ne k ((hsame.named_iff h).mp hk)

/-- Writing the free map's file and sectors that are free touches no other file. -/
theorem Disk.written (h : Disk there s) (hsize : s'.fs_device.size = s.fs_device.size)
    (hsector : ∀ x, ¬ MapSector (some (disk_inode s FREE_MAP_SECTOR)) x → x ∈ used s →
      s'.fs_device.sector x = s.fs_device.sector x) : SameFiles there s s' := by
  have hkept : ∀ k ∈ there, ∀ x ∈ sectors_of s k, (k = FREE_MAP_SECTOR → x = k) →
      s'.fs_device.sector x = s.fs_device.sector x := by
    intro k hk x hx hmap
    refine hsector x ?_ (h.owned.used k hk hx)
    rintro ⟨d, hd, howns⟩
    obtain rfl := Option.some.inj hd
    have hsame := h.owned.owner_unique hk h.free_map_there hx (Or.inr howns)
    rw [hmap hsame, hsame] at howns
    exact h.inode_apart _ h.free_map_there howns
  exact ⟨hsize, fun k hk => hkept k hk k (sector_mem s k) fun _ => rfl,
    hkept _ h.root_there _ (Or.inr h.root_owns) nofun⟩

theorem SameFiles.spare (h : SameFiles there s s') (hx : Spare there s x) (hused : x ∈ used s') :
    Spare there s' x where
  used := hused
  in_range := h.size ▸ hx.in_range
  nobody k hk := by
    rw [h.sectors_of_eq hk]
    exact hx.nobody k hk

end Disk

end pintos.filesys
