import Pintos.Filesys.Entries
import Pintos.Filesys.CreateAtomic
import Pintos.Filesys.DenyCalls

/-!
# A file system in order

Which file owns which sectors, which inodes are open and how often: the invariant of the file
system between its steps, and what the steps on the device and on the open inodes do to it.
-/

open twos_complement bytes state_error ownership

namespace pintos.filesys

/-- The inode of the file is open. -/
def Opened (s : State) (k : Nat) : Prop := ∃ p inode, s.inodes p = some inode ∧ inode.sector = k

/-- The files that are there: those that are named or open, the free map and the root directory. -/
def There (s : State) : Set Nat := {k | k = FREE_MAP_SECTOR ∨ k = ROOT_DIR_SECTOR ∨ Named s k ∨ Opened s k}

/-- The data of the file lies on the device, in the sectors that it owns. -/
structure Lies (s : State) (k : Nat) : Prop where
  on_device : OnDevice s.fs_device (disk_inode s k)
  fits : (disk_inode s k).start + bytes_to_sectors (disk_inode s k).length ≤ s.fs_device.size

/-- A sector that users may have opened. -/
def UserSector (k : Nat) : Prop := k ≠ FREE_MAP_SECTOR ∧ k ≠ ROOT_DIR_SECTOR

/-- A file that may be removed when its last opener goes. -/
def Removable (s : State) (k : Nat) : Prop := ¬ Named s k ∧ UserSector k

/-- The file system is in order. `held` are the references to inodes besides those of files. -/
structure Sound (held : Ptr → Nat) (s : State) : Prop where
  counted : Counted held s
  disk : Disk (There s) s
  bit_cnt : s.free_map.bit_cnt = s.fs_device.size
  map_length : (disk_inode s FREE_MAP_SECTOR).length = byte_cnt s.fs_device.size
  map_file : ∃ f file i, s.free_map_file = some f ∧ s.files f = some file ∧ file.deny_write = false ∧
    s.inodes file.inode = some i ∧ i.sector = FREE_MAP_SECTOR
  user_files : ∀ f file i, s.files f = some file → s.free_map_file ≠ some f → s.inodes file.inode = some i →
    UserSector i.sector
  listed : ∀ p, p ∈ s.open_inodes ↔ (s.inodes p).isSome
  nodup : s.open_inodes.Nodup
  one_inode : ∀ p q i j, s.inodes p = some i → s.inodes q = some j → i.sector = j.sector → p = q
  data : ∀ p i, s.inodes p = some i → i.data = disk_inode s i.sector
  removed : ∀ p i, s.inodes p = some i → i.removed = true → Removable s i.sector
  lies : ∀ k ∈ There s, Lies s k
  good : ∀ i < 16, dir_entry.Good (entry s i)

variable {held : Ptr → Nat} {s t u : State} {p f : Ptr} {inode : filesys.inode} {k : Nat}

section Counts

/-- Users do not deny writes to the free map and the root directory. -/
theorem Sound.deny_write_cnt (h : Sound held s) (hp : s.inodes p = some inode)
    (hsector : inode.sector = FREE_MAP_SECTOR ∨ inode.sector = ROOT_DIR_SECTOR) : inode.deny_write_cnt = 0 := by
  obtain ⟨-, -, hdeny⟩ := h.counted.at_inode hp
  have hnone : (table held s).flagged p = ∅ := by
    ext f
    simp only [sharing.Table.flagged, Set.mem_ofPred_eq, table, Option.map_eq_some_iff, Set.mem_empty_iff_false,
      iff_false]
    rintro ⟨file, hf, heq⟩
    obtain ⟨rfl, hflag⟩ := Prod.mk.inj heq
    obtain ⟨f', file', i', hf', hfile', hallowed, -⟩ := h.map_file
    by_cases hmap : s.free_map_file = some f
    · obtain rfl := Option.some.inj (hf'.symm.trans hmap)
      obtain rfl := Option.some.inj (hfile'.symm.trans hf)
      rw [hallowed] at hflag
      cases hflag
    · obtain ⟨hfree, hroot⟩ := h.user_files f file inode hf hmap hp
      exact hsector.elim hfree hroot
  rw [hdeny, sharing.Table.flags, hnone, Set.ncard_empty]
  rfl

/-- The file of the free map can be written. -/
theorem Sound.map (h : Sound held s) : MapReady s (disk_inode s FREE_MAP_SECTOR) := by
  obtain ⟨f, file, i, hf, hfile, -, hinode, hsector⟩ := h.map_file
  have hlies := h.lies _ h.disk.free_map_there
  refine ⟨⟨h.bit_cnt, hlies.on_device.size_lt, by intros; contradiction, fun d hd => ?_⟩, h.map_length⟩
  obtain rfl := Option.some.inj hd
  exact ⟨f, file, i, hf, hfile, hinode, h.deny_write_cnt hinode (.inl hsector),
    hsector ▸ h.data _ i hinode, hlies.on_device⟩

end Counts

section Devices

theorem named_there (h : Named s k) : k ∈ There s := .inr (.inr (.inl h))

theorem opened_there (hp : s.inodes p = some inode) : inode.sector ∈ There s :=
  .inr (.inr (.inr ⟨p, inode, hp, rfl⟩))

theorem there_congr (hnamed : ∀ k, Named t k ↔ Named s k) (hinodes : t.inodes = s.inodes) :
    There t = There s := by
  ext k
  simp only [There, Set.mem_ofPred_eq, hnamed, Opened, hinodes]

theorem Lies.congr (h : Lies s k) (hsize : t.fs_device.size = s.fs_device.size)
    (hinode : disk_inode t k = disk_inode s k) : Lies t k := by
  obtain ⟨⟨hnonneg, hle, hsectors, hlt⟩, hfits⟩ := h
  refine ⟨⟨hinode ▸ hnonneg, hinode ▸ hle, ?_, by omega⟩, ?_⟩
  · rw [hinode, hsize]
    exact hsectors
  · rw [hinode, hsize]
    exact hfits

/-- The files in `K` are untouched on the device. -/
def Untouched (K : Set Nat) (s t : State) : Prop :=
  ∀ k ∈ K, ∀ x ∈ sectors_of s k, t.fs_device.sector x = s.fs_device.sector x

namespace Untouched

variable {K : Set Nat}

theorem disk_inode_eq (h : Untouched K s t) (hk : k ∈ K) : disk_inode t k = disk_inode s k := by
  rw [disk_inode, h k hk k (sector_mem s k)]
  rfl

theorem sectors_of_eq (h : Untouched K s t) (hk : k ∈ K) : sectors_of t k = sectors_of s k := by
  rw [sectors_of, h.disk_inode_eq hk]
  rfl

theorem trans (h : Untouched K s t) (h' : Untouched K t u) : Untouched K s u := by
  intro k hk x hx
  rw [h' k hk x (h.sectors_of_eq hk ▸ hx), h k hk x hx]

theorem of_device (h : t.fs_device = s.fs_device) : Untouched K s t := fun _ _ _ _ => by rw [h]

end Untouched

/-- The files of users. -/
def Users (s : State) : Set Nat := {k | k ∈ There s ∧ UserSector k}

/-- What users see of an open file. -/
structure OpenFile where
  file : Nat
  pos : Int
  deny_write : Bool
  deriving DecidableEq, Repr

/-- The file that is open as `f`. -/
def handle (s : State) (f : Ptr) : Option OpenFile :=
  (s.files f).bind fun file => (s.inodes file.inode).map fun inode =>
    { file := inode.sector, pos := file.pos, deny_write := file.deny_write }

theorem handle_run {file : filesys.file} (hf : s.files f = some file) (hp : s.inodes file.inode = some inode) :
    handle s f = some { file := inode.sector, pos := file.pos, deny_write := file.deny_write } := by
  rw [handle, hf, Option.bind_some, hp, Option.map_some]

theorem handle_congr {held' : Ptr → Nat} (h : Counted held s) (h' : Counted held' t)
    (hfiles : t.files = s.files)
    (hagree : ∀ q i j, s.inodes q = some i → t.inodes q = some j → j.sector = i.sector) :
    handle t = handle s := by
  funext f
  cases hf : s.files f with
  | none => simp [handle, hfiles, hf]
  | some file =>
    have hf' : t.files f = some file := hfiles ▸ hf
    obtain ⟨i, hi⟩ := h.inode_of_file hf
    obtain ⟨j, hj⟩ := h'.inode_of_file hf'
    rw [handle_run hf hi, handle_run hf' hj, hagree _ i j hi hj]

/-- Nothing has changed for users on the device. -/
structure Calm (s t : State) : Prop where
  size : t.fs_device.size = s.fs_device.size
  oom : t.oom = s.oom
  asked : s.asked ≤ t.asked
  map_file : t.free_map_file = s.free_map_file
  users : Untouched (Users s ∩ Users t) s t
  entries : ∀ i < 16, ∀ j < 20, entry t i j = entry s i j
  sectors : ∀ k ∈ There s, k ∈ There t → sectors_of t k = sectors_of s k

theorem Calm.trans (h : Calm s t) (h' : Calm t u) (hthere : There s ∩ There u ⊆ There t) : Calm s u where
  size := h'.size.trans h.size
  oom := h'.oom.trans h.oom
  asked := h.asked.trans h'.asked
  map_file := h'.map_file.trans h.map_file
  users := by
    have husers : Users s ∩ Users u ⊆ Users t := fun k hk => ⟨hthere ⟨hk.1.1, hk.2.1⟩, hk.1.2⟩
    have hfirst : Untouched (Users s ∩ Users u) s t := fun k hk => h.users k ⟨hk.1, husers hk⟩
    have hsecond : Untouched (Users s ∩ Users u) t u := fun k hk => h'.users k ⟨husers hk, hk.2⟩
    exact hfirst.trans hsecond
  entries i hi j hj := (h'.entries i hi j hj).trans (h.entries i hi j hj)
  sectors k hk hk' := (h'.sectors k (hthere ⟨hk, hk'⟩) hk').trans (h.sectors k hk (hthere ⟨hk, hk'⟩))

/-- A step that changes nothing for users and leaves the file system in order. -/
structure Steady (held : Ptr → Nat) (s t : State) : Prop extends Calm s t where
  sound : Sound held t
  there : There t = There s
  handle : handle t = handle s

theorem Steady.trans {held' : Ptr → Nat} (h : Steady held s t) (h' : Steady held' t u) : Steady held' s u where
  toCalm := h.toCalm.trans h'.toCalm (h.there ▸ Set.inter_subset_left)
  sound := h'.sound
  there := h'.there.trans h.there
  handle := h'.handle.trans h.handle

theorem Steady.users_eq (h : Steady held s t) : Users t = Users s := by
  simp only [Users, h.there]

theorem Steady.untouched (h : Steady held s t) : Untouched (Users s) s t := fun k hk =>
  h.users k ⟨hk, h.users_eq ▸ hk⟩

/-- The open inodes are the same, and the files that are there untouched and in use: the file system stays in
order. -/
theorem Sound.on_device (h : Sound held s) (hopen : SameOpen s t) (hfile : t.free_map_file = s.free_map_file)
    (hsame : SameFiles (There s) s t) (hused : ∀ k ∈ There s, sectors_of s k ⊆ used t)
    (hcnt : t.free_map.bit_cnt = s.free_map.bit_cnt) : Sound held t ∧ There t = There s := by
  have hnamed : ∀ k, Named t k ↔ Named s k := fun k => hsame.named_iff h.disk
  have hthere := there_congr hnamed hopen.inodes
  have hsize := hsame.size
  refine ⟨⟨h.counted.same hopen, ?_, ?_, ?_, ?_, ?_, ?_, ?_, ?_, ?_, ?_, ?_, ?_⟩, hthere⟩
  · rw [hthere]
    exact h.disk.same_files hsame hused
  · rw [hcnt, h.bit_cnt, hsize]
  · rw [hsame.disk_inode_eq h.disk.free_map_there, hsize]
    exact h.map_length
  · rw [hfile, hopen.files, hopen.inodes]
    exact h.map_file
  · rw [hfile, hopen.files, hopen.inodes]
    exact h.user_files
  · rw [hopen.open_inodes, hopen.inodes]
    exact h.listed
  · rw [hopen.open_inodes]
    exact h.nodup
  · rw [hopen.inodes]
    exact h.one_inode
  · rw [hopen.inodes]
    intro p i hp
    rw [hsame.disk_inode_eq (opened_there hp)]
    exact h.data p i hp
  · rw [hopen.inodes]
    intro p i hp hremoved
    rw [Removable, hnamed]
    exact h.removed p i hp hremoved
  · rw [hthere]
    exact fun k hk => (h.lies k hk).congr hsize (hsame.disk_inode_eq hk)
  · exact fun i hi => (h.good i hi).congr fun j hj => hsame.entry_eq h.disk hi hj

theorem SameFiles.of_device {there : Set Nat} (hdevice : t.fs_device = s.fs_device) : SameFiles there s t := by
  refine ⟨?_, fun k _ => ?_, ?_⟩ <;> rw [hdevice]

/-- The sectors of files stay in use, and none of them is written but those of the free map. -/
theorem Sound.only_device {S : Nat → Prop} {b : bitmap} (h : Sound held s) (hb : b.bit_cnt = s.free_map.bit_cnt)
    (hused : ∀ k ∈ There s, ∀ x ∈ sectors_of s k, b.bits x = true)
    (hS : ∀ x, S x → ∀ k ∈ There s, x ∈ sectors_of s k → MapSector (some (disk_inode s FREE_MAP_SECTOR)) x)
    (honly : OnlyDevice S { s with free_map := b } t) : Steady held s t := by
  have hkept : ∀ k ∈ There s, ∀ x ∈ sectors_of s k, (k = FREE_MAP_SECTOR → x = k) →
      t.fs_device.sector x = s.fs_device.sector x := by
    intro k hk x hx hfirst
    refine honly.sector x fun hwritten => ?_
    obtain ⟨d, hd, howns⟩ := hS x hwritten k hk hx
    obtain rfl := Option.some.inj hd
    have hmap := h.disk.owned.owner_unique hk h.disk.free_map_there hx (.inr howns)
    rw [hfirst hmap, hmap] at howns
    exact h.disk.inode_apart _ h.disk.free_map_there howns
  have hsame : SameFiles (There s) s t := ⟨honly.size, fun k hk => hkept k hk k (sector_mem s k) fun _ => rfl,
    hkept _ h.disk.root_there _ (.inr h.disk.root_owns) (by intros; contradiction)⟩
  have hrest : t.free_map = b ∧ t.free_map_file = s.free_map_file ∧ t.oom = s.oom ∧ SameOpen s t := by
    rw [honly.same]
    exact ⟨rfl, rfl, rfl, rfl, rfl, rfl, honly.asked⟩
  obtain ⟨hmap, hfile, hoom, hopen⟩ := hrest
  have hused' : ∀ k ∈ There s, sectors_of s k ⊆ used t := by
    intro k hk x hx
    rw [used, Set.mem_ofPred_eq, hmap]
    exact hused k hk x hx
  obtain ⟨hsound, hthere⟩ := h.on_device hopen hfile hsame hused' (hmap ▸ hb)
  refine ⟨⟨honly.size, hoom, honly.asked, hfile, ?_, fun i hi j hj => hsame.entry_eq h.disk hi hj,
    fun k hk _ => hsame.sectors_of_eq hk⟩, hsound, hthere, ?_⟩
  · rintro k ⟨⟨hk, hne, -⟩, -⟩ x hx
    exact hkept k hk x hx fun heq => absurd heq hne
  · simp only [funext_iff, filesys.handle, hopen.files, hopen.inodes, implies_true]

theorem Sound.only_asked (h : Sound held s) (hasked : OnlyAsked s t) : Steady held s t :=
  h.only_device rfl h.disk.owned.used (fun _ => False.elim) (hasked.only_device fun _ => False)

/-- Nothing is written but the free map. -/
theorem Sound.only_map {b : bitmap} (h : Sound held s) (hb : b.bit_cnt = s.free_map.bit_cnt)
    (hused : ∀ k ∈ There s, ∀ x ∈ sectors_of s k, b.bits x = true)
    (honly : OnlyDevice (MapSector (some (disk_inode s FREE_MAP_SECTOR))) { s with free_map := b } t) :
    Steady held s t :=
  h.only_device hb hused (fun _ hx _ _ _ => hx) honly

end Devices

section Inodes

variable {held' : Ptr → Nat}

/-- The device and the free map are the same. -/
structure SameDevice (s t : State) : Prop where
  fs_device : t.fs_device = s.fs_device
  free_map : t.free_map = s.free_map
  free_map_file : t.free_map_file = s.free_map_file
  oom : t.oom = s.oom
  asked : s.asked ≤ t.asked

theorem SameDevice.disk_inode_eq (h : SameDevice s t) (k : Nat) : disk_inode t k = disk_inode s k := by
  rw [disk_inode, h.fs_device]
  rfl

theorem SameDevice.entry_eq (h : SameDevice s t) (i : Nat) : entry t i = entry s i := by
  rw [entry, h.fs_device, h.disk_inode_eq]
  rfl

theorem SameDevice.named_iff (h : SameDevice s t) : Named t k ↔ Named s k := by
  simp only [Named, h.entry_eq]

theorem SameDevice.calm (h : SameDevice s t) : Calm s t where
  size := by rw [h.fs_device]
  oom := h.oom
  asked := h.asked
  map_file := h.free_map_file
  users := Untouched.of_device h.fs_device
  entries i _ j _ := by rw [h.entry_eq]
  sectors k _ _ := by
    rw [sectors_of, h.disk_inode_eq]
    rfl

/-- The open files are the same, but for files of users. -/
def KeepsFiles (s t : State) : Prop := ∀ g, t.files g = s.files g ∨ (s.free_map_file ≠ some g ∧
  ∀ file i, t.files g = some file → t.inodes file.inode = some i → UserSector i.sector)

/-- The structures in memory change, of files that are there. -/
theorem Sound.in_memory (h : Sound held s) (hdevice : SameDevice s t) (hthere : There t ⊆ There s)
    (hcounted : Counted held' t) (hfiles : KeepsFiles s t)
    (hagree : ∀ q i j, s.inodes q = some i → t.inodes q = some j → j.sector = i.sector)
    (hlisted : ∀ p, p ∈ t.open_inodes ↔ (t.inodes p).isSome) (hnodup : t.open_inodes.Nodup)
    (hone : ∀ p q i j, t.inodes p = some i → t.inodes q = some j → i.sector = j.sector → p = q)
    (hdata : ∀ p i, t.inodes p = some i → i.data = disk_inode s i.sector)
    (hremoved : ∀ p i, t.inodes p = some i → i.removed = true → Removable s i.sector) : Sound held' t where
  counted := hcounted
  disk := by
    have hsame : SameFiles (There s) s t := SameFiles.of_device hdevice.fs_device
    have hused : used t = used s := by rw [used, hdevice.free_map, used]
    have hdisk := h.disk.same_files hsame (by rw [hused]; exact h.disk.owned.used)
    exact hdisk.leave hthere (.inl rfl) (.inr (.inl rfl)) fun k => named_there
  bit_cnt := by
    rw [hdevice.free_map, hdevice.fs_device]
    exact h.bit_cnt
  map_length := by
    rw [hdevice.disk_inode_eq, hdevice.fs_device]
    exact h.map_length
  map_file := by
    obtain ⟨f, file, i, hf, hfile, hallowed, hi, hsector⟩ := h.map_file
    have hfile' : t.files f = some file := ((hfiles f).resolve_right fun hother => hother.1 hf).trans hfile
    obtain ⟨j, hj⟩ := hcounted.inode_of_file hfile'
    exact ⟨f, file, j, hdevice.free_map_file.trans hf, hfile', hallowed, hj, (hagree _ i j hi hj).trans hsector⟩
  user_files f file j hf hne hj := by
    obtain hsame | ⟨-, hother⟩ := hfiles f
    · rw [hsame] at hf
      rw [hdevice.free_map_file] at hne
      obtain ⟨i, hi⟩ := h.counted.inode_of_file hf
      rw [hagree _ i j hi hj]
      exact h.user_files f file i hf hne hi
    · exact hother file j hf hj
  listed := hlisted
  nodup := hnodup
  one_inode := hone
  data p i hp := by
    rw [hdevice.disk_inode_eq]
    exact hdata p i hp
  removed p i hp hr := by
    rw [Removable, hdevice.named_iff]
    exact hremoved p i hp hr
  lies k hk := (h.lies k (hthere hk)).congr (by rw [hdevice.fs_device]) (hdevice.disk_inode_eq k)
  good i hi := by
    rw [hdevice.entry_eq]
    exact h.good i hi

/-- An inode in memory changes, but for its sector and its data. -/
theorem Sound.restate (h : Sound held s) (hp : s.inodes p = some inode) {changed : filesys.inode}
    (hsector : changed.sector = inode.sector) (hdata : changed.data = inode.data)
    (hremoved : changed.removed = true → Removable s inode.sector) {files : Ptr → Option filesys.file}
    (ht : t = { s with
      files := files
      inodes := fun q => if q = p then some changed else s.inodes q })
    (hfiles : KeepsFiles s t) (hcounted : Counted held' t) : Sound held' t ∧ Calm s t ∧ There t = There s ∧
      ∀ q i j, s.inodes q = some i → t.inodes q = some j → j.sector = i.sector := by
  have hinodes : ∀ q i, t.inodes q = some i → ∃ j, s.inodes q = some j ∧ i.sector = j.sector ∧ i.data = j.data ∧
      (i.removed = true → Removable s j.sector) := by
    intro q i hq
    rw [ht] at hq
    simp only at hq
    split_ifs at hq with hqp
    · obtain rfl := Option.some.inj hq
      exact ⟨inode, hqp ▸ hp, hsector, hdata, hremoved⟩
    · exact ⟨i, hq, rfl, rfl, h.removed q i hq⟩
  have hback : ∀ q j, s.inodes q = some j → ∃ i, t.inodes q = some i ∧ i.sector = j.sector := by
    intro q j hq
    rw [ht]
    simp only
    split_ifs with hqp
    · obtain rfl := Option.some.inj (hp.symm.trans (hqp ▸ hq))
      exact ⟨_, rfl, hsector⟩
    · exact ⟨j, hq, rfl⟩
  have hdevice : SameDevice s t := by
    rw [ht]
    exact ⟨rfl, rfl, rfl, rfl, Nat.le_refl _⟩
  have hthere : There t = There s := by
    ext k
    simp only [There, Set.mem_ofPred_eq, hdevice.named_iff, Opened]
    refine or_congr_right (or_congr_right (or_congr_right ⟨?_, ?_⟩))
    · rintro ⟨q, i, hq, rfl⟩
      obtain ⟨j, hj, hsector, -⟩ := hinodes q i hq
      exact ⟨q, j, hj, hsector.symm⟩
    · rintro ⟨q, j, hq, rfl⟩
      obtain ⟨i, hi, hsector⟩ := hback q j hq
      exact ⟨q, i, hi, hsector⟩
  have hopen : t.open_inodes = s.open_inodes := by rw [ht]
  have hagree : ∀ q i j, s.inodes q = some i → t.inodes q = some j → j.sector = i.sector := by
    intro q i j hi hj
    obtain ⟨i', hi', hsector, -⟩ := hinodes q j hj
    obtain rfl := Option.some.inj (hi.symm.trans hi')
    exact hsector
  refine ⟨h.in_memory hdevice hthere.subset hcounted hfiles hagree (fun q => ?_) ?_ ?_ ?_ ?_,
    hdevice.calm, hthere,
    hagree⟩
  · rw [hopen, h.listed, Option.isSome_iff_exists, Option.isSome_iff_exists]
    constructor
    · rintro ⟨j, hj⟩
      obtain ⟨i, hi, -⟩ := hback q j hj
      exact ⟨i, hi⟩
    · rintro ⟨i, hi⟩
      obtain ⟨j, hj, -⟩ := hinodes q i hi
      exact ⟨j, hj⟩
  · rw [hopen]
    exact h.nodup
  · intro q q' i i' hi hi' hsector
    obtain ⟨j, hj, hs, -⟩ := hinodes q i hi
    obtain ⟨j', hj', hs', -⟩ := hinodes q' i' hi'
    exact h.one_inode q q' j j' hj hj' (by rw [← hs, ← hs', hsector])
  · intro q i hi
    obtain ⟨j, hj, hs, hd, -⟩ := hinodes q i hi
    rw [hs, hd]
    exact h.data q j hj
  · intro q i hi hr
    obtain ⟨j, hj, hs, -, hrem⟩ := hinodes q i hi
    rw [hs]
    exact hrem hr

/-- The number of openers changes. -/
theorem Sound.recount (h : Sound held s) (hp : s.inodes p = some inode) {cnt : Int}
    (ht : t = { s with inodes := fun q => if q = p then some { inode with open_cnt := cnt } else s.inodes q })
    (hcounted : Counted held' t) : Steady held' s t := by
  have hfiles : t.files = s.files := by rw [ht]
  have hsound := @Sound.restate _ _ t _ _ _ h hp { inode with open_cnt := cnt } rfl rfl
      (h.removed p inode hp) s.files ht
    (fun g => .inl (congrFun hfiles g)) hcounted
  exact ⟨hsound.2.1, hsound.1, hsound.2.2.1, handle_congr h.counted hcounted hfiles hsound.2.2.2⟩

/-- The inode of a file that is there is read into a new block. -/
theorem Sound.first_opener (h : Sound held s) (hk : k ∈ There s)
    (hnone : ∀ p ∈ s.open_inodes, ∀ inode, s.inodes p = some inode → inode.sector ≠ k)
    (ht : t = { s with
      asked := s.asked + 1
      open_inodes := s.asked :: s.open_inodes
      inodes := fun q => if q = s.asked then some { sector := k, open_cnt := 1, removed := false,
                                                    deny_write_cnt := 0, data := disk_inode s k }
        else s.inodes q }) : Steady (acquire held s.asked) s t := by
  have hfresh : s.inodes s.asked = none := h.counted.inodes _ (Nat.le_refl _)
  have hinodes : t.inodes = fun q => if q = s.asked then some
      { sector := k, open_cnt := 1, removed := false, deny_write_cnt := 0, data := disk_inode s k }
      else s.inodes q := by rw [ht]
  have hnew : ∀ q i, t.inodes q = some i → (q = s.asked ∧ i.sector = k ∧ i.removed = false ∧
      i.data = disk_inode s k) ∨
      (q ≠ s.asked ∧ s.inodes q = some i) := by
    intro q i hq
    rw [hinodes] at hq
    simp only at hq
    split_ifs at hq with hqp
    · obtain rfl := Option.some.inj hq
      exact .inl ⟨hqp, rfl, rfl, rfl⟩
    · exact .inr ⟨hqp, hq⟩
  have hold : ∀ q i, s.inodes q = some i → t.inodes q = some i := by
    intro q i hq
    rw [hinodes]
    refine (if_neg ?_).trans hq
    rintro rfl
    rw [hfresh] at hq
    cases hq
  have hopen : t.open_inodes = s.asked :: s.open_inodes ∧ t.files = s.files ∧ t.asked = s.asked + 1 := by
    rw [ht]
    exact ⟨rfl, rfl, rfl⟩
  have hdevice : SameDevice s t := by
    rw [ht]
    exact ⟨rfl, rfl, rfl, rfl, Nat.le_succ _⟩
  have hthere : There t = There s := by
    ext l
    simp only [There, Set.mem_ofPred_eq, hdevice.named_iff, Opened]
    constructor
    · rintro (hl | hl | hl | ⟨q, i, hq, rfl⟩)
      · exact .inl hl
      · exact .inr (.inl hl)
      · exact .inr (.inr (.inl hl))
      · obtain ⟨-, hsector, -⟩ | ⟨-, hq⟩ := hnew q i hq
        · exact hsector ▸ hk
        · exact opened_there hq
    · rintro (hl | hl | hl | ⟨q, i, hq, rfl⟩)
      · exact .inl hl
      · exact .inr (.inl hl)
      · exact .inr (.inr (.inl hl))
      · exact .inr (.inr (.inr ⟨q, i, hold q i hq, rfl⟩))
  have hother : ∀ q i, s.inodes q = some i → i.sector ≠ k := fun q i hq =>
    hnone q ((h.listed q).mpr (Option.isSome_iff_exists.mpr ⟨i, hq⟩)) i hq
  have hasked : s.asked < t.asked := hopen.2.2 ▸ Nat.lt_succ_self _
  have hcounted := h.counted.create hasked.le (Nat.le_refl _) hasked hopen.2.1 hinodes rfl rfl
  have hagree : ∀ q i j, s.inodes q = some i → t.inodes q = some j → j.sector = i.sector := by
    intro q i j hi hj
    rw [hold q i hi] at hj
    rw [Option.some.inj hj]
  refine ⟨hdevice.calm, h.in_memory hdevice hthere.subset hcounted (fun g => .inl (congrFun hopen.2.1 g)) hagree
    (fun q => ?_) ?_ ?_ ?_ ?_, hthere,
    handle_congr h.counted hcounted hopen.2.1 hagree⟩
  · rw [hopen.1, List.mem_cons, h.listed, hinodes]
    by_cases hq : q = s.asked
    · simp [hq]
    · simp [hq]
  · rw [hopen.1, List.nodup_cons]
    refine ⟨fun hmem => ?_, h.nodup⟩
    rw [h.listed, hfresh] at hmem
    cases hmem
  · intro q q' i i' hi hi' hsector
    obtain ⟨rfl, hk', -⟩ | ⟨-, hq⟩ := hnew q i hi <;> obtain ⟨rfl, hk'', -⟩ | ⟨-, hq'⟩ := hnew q' i' hi'
    · rfl
    · exact absurd (hsector.symm.trans hk') (hother q' i' hq')
    · exact absurd (hsector.trans hk'') (hother q i hq)
    · exact h.one_inode q q' i i' hq hq' hsector
  · intro q i hi
    obtain ⟨-, hsector, -, hdata⟩ | ⟨-, hq⟩ := hnew q i hi
    · rw [hdata, hsector]
    · exact h.data q i hq
  · intro q i hi hr
    obtain ⟨-, -, hrem, -⟩ | ⟨-, hq⟩ := hnew q i hi
    · rw [hr] at hrem
      cases hrem
    · exact h.removed q i hq hr

/-- The inodes in memory stay there. -/
def KeepsInodes (s t : State) : Prop :=
  ∀ q i, s.inodes q = some i → ∃ j, t.inodes q = some j ∧ j.sector = i.sector

/-- A file that is there is opened, or memory is out. -/
theorem Sound.inode_open (h : Sound held s) (hk : k ∈ There s) : Returns (inode_open k) s fun r t =>
    (r = none → OnlyAsked s t ∧ OutOfMemory s) ∧
    ∀ p, r = some p → Steady (acquire held p) s t ∧ KeepsInodes s t ∧ t.free_map = s.free_map ∧
      ∃ inode, t.inodes p = some inode ∧ inode.sector = k := by
  have hmemory : ∀ p ∈ s.open_inodes, ∃ inode, s.inodes p = some inode := fun p hp =>
    Option.isSome_iff_exists.mp ((h.listed p).mp hp)
  rw [filesys.inode_open]
  apply Exec.Ends.after Exec.get_run
  obtain ⟨p, -, inode, hp, hsector, hfound⟩ | ⟨hnone, hfound⟩ := open_inode_at_first k s.open_inodes hmemory
  · apply Exec.Ends.after hfound
    apply Exec.Ends.after (Exec.bind_run (deref_run hp))
    refine Exec.Ends.of_ok rfl ⟨by intros; contradiction, ?_⟩
    rintro q ⟨⟩
    have hsteady := h.recount hp rfl (h.counted.reopen hp (Nat.le_refl _) rfl rfl)
    refine ⟨hsteady, fun q i hq => ?_, rfl, _, if_pos rfl, hsector⟩
    by_cases hqp : q = p
    · obtain rfl := Option.some.inj (hp.symm.trans (hqp ▸ hq))
      exact ⟨_, if_pos hqp, rfl⟩
    · exact ⟨i, (if_neg hqp).trans hq, rfl⟩
  · apply Exec.Ends.after hfound
    apply (malloc_returns s).bind
    rintro r t ⟨rfl, hblock, hout⟩
    cases r with
    | none => exact Exec.Ends.of_ok rfl ⟨fun _ => ⟨⟨rfl, Nat.le_succ _⟩, hout rfl⟩, by intros; contradiction⟩
    | some p =>
      obtain rfl := hblock p rfl
      have hin : k < s.fs_device.size := h.disk.in_range k hk k (sector_mem s k)
      have hread := block_read_run
        (s := { s with asked := s.asked + 1, open_inodes := s.asked :: s.open_inodes }) hin
      apply Exec.Ends.after (Exec.modify_run _)
      apply Exec.Ends.after hread
      apply Exec.Ends.after (Exec.modify_run _)
      refine Exec.Ends.of_ok rfl ⟨by intros; contradiction, ?_⟩
      rintro q ⟨⟩
      refine ⟨h.first_opener hk hnone rfl, fun q i hq => ⟨i, (if_neg ?_).trans hq, rfl⟩, rfl, _,
        if_pos rfl, rfl⟩
      rintro rfl
      rw [h.counted.inodes _ (Nat.le_refl _)] at hq
      cases hq

end Inodes

end pintos.filesys
