import Pintos.Filesys.RootCalls

/-!
# Creating a file

A sector for the inode, sectors for the data, and the entry of the name: what each of them leaves of a file
system in order.
-/

open twos_complement bytes state_error ownership

namespace pintos.filesys

variable {held : Ptr → Nat} {s t u : State} {p f : Ptr} {inode : filesys.inode} {k i : Nat} {e : Bytes}
  {name : List Byte} {size : Int}

section Allocation

/-- A free sector belongs to no file. -/
theorem Sound.free_nobody (h : Sound held s) {x : Nat} (hfree : s.free_map.bits x = false) :
    ∀ l ∈ There s, x ∉ sectors_of s l := by
  intro l hl hx
  have hused : s.free_map.bits x = true := h.disk.owned.used l hl hx
  rw [hfree] at hused
  cases hused

/-- A sector is allocated, or there is none, or no memory. -/
theorem Sound.free_map_allocate (h : Sound held s) : Returns (free_map_allocate 1) s fun r t =>
    SameOpen s t ∧ Steady held s t ∧
    (r = none → OutOfMemory s ∨ s.free_map.scan 0 1 false = none) ∧
    ∀ k, r = some k → s.free_map.scan 0 1 false = some k ∧ t.free_map = s.free_map.set k 1 true ∧
      Spare (There t) t k := by
  obtain ⟨r, t, hrun, hnone, hsome⟩ := free_map_allocate_run h.map.ready 1
  obtain ⟨-, -, hfound⟩ := (h.map.free_map_allocate_asks 1).1 r t hrun
  apply Exec.Ends.of_ok hrun
  refine ⟨(free_map_allocate_leaves 1).ok _ _ _ hrun, ?_⟩
  cases r with
  | none =>
    have honly := hnone rfl
    refine ⟨h.only_map rfl h.disk.owned.used honly, fun _ => ?_, by intros; contradiction⟩
    by_contra hnot
    obtain ⟨hmemory, hscan⟩ := not_or.mp hnot
    obtain ⟨k, hk⟩ := Option.ne_none_iff_exists'.mp hscan
    have hgot := (hfound k).mpr ⟨hk, fun i _ => Bool.eq_false_iff.mpr fun hout => hmemory ⟨_, hout⟩⟩
    cases hgot
  | some k =>
    obtain ⟨hfits, hfree, honly⟩ := hsome k rfl
    have hk : s.free_map.bits k = false := hfree 0 Nat.one_pos
    have hmap : t.free_map = s.free_map.set k 1 true := by rw [honly.same]
    have hsteady : Steady held s t := by
      refine h.only_map (b := s.free_map.set k 1 true) rfl (fun l hl x hx => ?_) honly
      have hused : s.free_map.bits x = true := h.disk.owned.used l hl hx
      simp only [bitmap.set, hused, ite_self]
    refine ⟨hsteady, by intros; contradiction, ?_⟩
    rintro l ⟨⟩
    refine ⟨((hfound k).mp rfl).1, hmap, ?_, ?_, fun l hl hx => ?_⟩
    · simp [used, hmap, bitmap.set]
    · rw [hsteady.size]
      omega
    · rw [hsteady.sectors l (hsteady.there ▸ hl) hl] at hx
      exact h.free_nobody hk l (hsteady.there ▸ hl) hx

theorem Steady.spare (h : Steady held s t) (hspare : Spare (There s) s k) (hused : k ∈ used t) :
    Spare (There t) t k where
  used := hused
  in_range := h.size ▸ hspare.in_range
  nobody l hl hx := by
    rw [h.sectors l (h.there ▸ hl) hl] at hx
    exact hspare.nobody l (h.there ▸ hl) hx

/-- The sectors of an inode that has just been written, with free sectors for its data. -/
theorem Created.new_file (h : Sound held s) (hspare : Spare (There s) s k) {start : Nat} (hnonneg : 0 ≤ size)
    (hle : size ≤ 2147483647) (hsteady : Steady held s t)
    (hcreated : Created k size (some (disk_inode s FREE_MAP_SECTOR)) s start t) : NewFile t k := by
  obtain ⟨hfits, hfree, honly, hinode, -⟩ := hcreated
  have hdisk : disk_inode t k = { start, length := size, magic := INODE_MAGIC } := hinode
  have hmap : t.free_map = s.free_map.set start (bytes_to_sectors size) true := by rw [honly.same]
  have hunused : ∀ x, start ≤ x → x < start + bytes_to_sectors size → s.free_map.bits x = false := by
    intro x hlow hhigh
    have hbit := hfree (x - start) (by omega)
    rwa [Nat.add_sub_cancel' hlow] at hbit
  have hroom := le_bytes_to_sectors hnonneg hle
  have hmember : ∀ x, x ∈ sectors_of t k ↔ x = k ∨ start ≤ x ∧ x < start + bytes_to_sectors size := by
    intro x
    rw [sectors_of, hdisk]
    rfl
  have hlt := hspare.in_range
  refine ⟨fun x hx => ?_, fun l hl => ?_, fun x hx => ?_, ?_, ⟨?_, ?_⟩⟩
  · rw [used, Set.mem_ofPred_eq, hmap]
    obtain rfl | hdata := (hmember x).mp hx
    · have hbit : s.free_map.bits x = true := hspare.used
      simp only [bitmap.set, hbit, ite_self]
    · exact if_pos hdata
  · rw [hsteady.there] at hl
    rw [hsteady.sectors l hl (hsteady.there ▸ hl)]
    intro x hx hx'
    obtain rfl | ⟨hlow, hhigh⟩ := (hmember x).mp hx
    · exact hspare.nobody l hl hx'
    · exact h.free_nobody (hunused x hlow hhigh) l hl hx'
  · rw [hsteady.size]
    obtain rfl | ⟨-, hhigh⟩ := (hmember x).mp hx
    · exact hlt
    · omega
  · rw [hdisk]
    rintro ⟨hlow, hhigh⟩
    have hbit : s.free_map.bits k = true := hspare.used
    rw [hunused k hlow hhigh] at hbit
    cases hbit
  · rw [hdisk]
    refine ⟨hnonneg, hle, ?_, hsteady.size ▸ h.map.ready.size_lt⟩
    rw [hsteady.size]
    simp only
    omega
  · rw [hdisk, hsteady.size]
    exact hfits

/-- An inode is written to a sector, and its data are zeros, or there is no room or no memory. -/
theorem Sound.inode_create (h : Sound held s) (hspare : Spare (There s) s k) (hnonneg : 0 ≤ size)
    (hle : size ≤ 2147483647) : Returns (inode_create k size) s fun r t =>
      SameOpen s t ∧ Steady held s t ∧ Spare (There t) t k ∧
      (r = false → OutOfMemory s ∨ s.free_map.scan 0 (bytes_to_sectors size) false = none) ∧
      (r = true → (s.free_map.scan 0 (bytes_to_sectors size) false).isSome ∧ NewFile t k ∧
        (disk_inode t k).length = size ∧
        ∀ i : Nat, (i : Int) < size → t.fs_device.content (disk_inode t k).start i = 0) := by
  obtain ⟨r, t, hrun, hfalse, htrue⟩ := inode_create_run h.map.ready hspare.in_range hspare.used hnonneg hle
  have hcreated : r = true ↔ _ := (h.map.inode_create_asks k hnonneg).1 r t hrun
  apply Exec.Ends.of_ok hrun
  refine ⟨(inode_create_leaves k size).ok _ _ _ hrun, ?_⟩
  cases r with
  | false =>
    have honly := hfalse rfl
    have hsteady : Steady held s t := h.only_map rfl h.disk.owned.used honly
    have hused : k ∈ used t := by
      rw [used, honly.same]
      exact hspare.used
    refine ⟨hsteady, hsteady.spare hspare hused, fun _ => ?_, by intros; contradiction⟩
    by_contra hnot
    obtain ⟨hmemory, hscan⟩ := not_or.mp hnot
    have hgot := hcreated.mpr ⟨Option.isSome_iff_ne_none.mpr hscan,
      fun i _ => Bool.eq_false_iff.mpr fun hout => hmemory ⟨_, hout⟩⟩
    cases hgot
  | true =>
    obtain ⟨start, hmade⟩ := htrue rfl
    have honly := hmade.only
    have hunused : ∀ x, start ≤ x → x < start + bytes_to_sectors size → s.free_map.bits x = false := by
      intro x hlow hhigh
      have hbit := hmade.free (x - start) (by omega)
      rwa [Nat.add_sub_cancel' hlow] at hbit
    have hsteady : Steady held s t := by
      refine h.only_device (b := s.free_map.set start (bytes_to_sectors size) true) rfl
        (fun l hl x hx => ?_) ?_ honly
      · have hused : s.free_map.bits x = true := h.disk.owned.used l hl hx
        simp only [bitmap.set, hused, ite_self]
      · rintro x (hmap | rfl | ⟨hlow, hhigh⟩) l hl hx
        · exact hmap
        · exact absurd hx (hspare.nobody l hl)
        · exact absurd hx (h.free_nobody (hunused x hlow hhigh) l hl)
    have hused : k ∈ used t := by
      have hbit : s.free_map.bits k = true := hspare.used
      rw [used, honly.same]
      simp only [Set.mem_ofPred_eq, bitmap.set, hbit, ite_self]
    have hdisk : disk_inode t k = { start, length := size, magic := INODE_MAGIC } := hmade.inode
    refine ⟨hsteady, hsteady.spare hspare hused, by intros; contradiction, fun _ => ⟨(hcreated.mp rfl).1,
      hmade.new_file h hspare hnonneg hle hsteady, by rw [hdisk], fun i hi => ?_⟩⟩
    have hroom := le_bytes_to_sectors hnonneg hle
    rw [hdisk, block.content]
    exact hmade.zero _ (Nat.le_add_right _ _) (by omega) _ (Nat.mod_lt _ (by omega))

/-- A sector that belongs to no file is given back. -/
theorem Sound.free_map_release (h : Sound held s) (hspare : Spare (There s) s k) :
    Returns (free_map_release k 1) s fun _ t => SameOpen s t ∧ Steady held s t := by
  have hused : s.free_map.bits k = true := hspare.used
  obtain ⟨t, hrun, hopen, honly⟩ := @free_map_release_only s _ h.map.ready k 1 hspare.in_range fun x hlow hhigh => by
    obtain rfl : x = k := by omega
    exact hused
  refine Exec.Ends.of_ok hrun ⟨hopen, h.only_map (b := s.free_map.set k 1 false) rfl
    (fun l hl x hx => ?_) honly⟩
  have hbit : s.free_map.bits x = true := h.disk.owned.used l hl hx
  have hne : ¬ (k ≤ x ∧ x < k + 1) := by
    intro hin
    obtain rfl : x = k := by omega
    exact hspare.nobody l hl hx
  simp only [bitmap.set, hbit, if_neg hne]

end Allocation

section Directory

variable {d : dir}

/-- A new file is entered under a valid name that is not there yet, if an entry is free and there is memory. -/
theorem Sound.dir_add (h : Sound held s) (hroot : IsRoot s d.inode) (hname : 0 ∉ name) (hnew : NewFile s k) :
    Returns (dir_add d name k) s fun r t =>
      (r = false → Steady held s t ∧ OnlyAsked s t ∧ (OutOfMemory s ∨ ¬ dir_entry.Valid name ∨
      (∃ l, Names s name l) ∨
        ∀ i < 16, dir_entry.in_use (entry s i) = true)) ∧
      (r = true → dir_entry.Valid name ∧ ∃ i < 16, ∃ e, EntryWritten held i (dir_entry.set e name k) s t ∧
        (OutOfMemory s ∨ (∀ l, ¬ Names s name l) ∧ dir_entry.in_use (entry s i) = false)) := by
  obtain ⟨root, hp, hsector⟩ := hroot
  have hdir := h.root_dir hp hsector
  have hlt : k < 2 ^ 32 := (hnew.in_range k (sector_mem s k)).trans h.map.ready.size_lt
  rw [filesys.dir_add]
  split_ifs with hinvalid
  · have hnot : ¬ dir_entry.Valid name := by
      intro hvalid
      have hlength := hvalid.length_le
      exact hinvalid.elim hvalid.ne_nil (by omega)
    have hsame : OnlyAsked s s := Std.Refl.refl s
    exact Exec.Ends.of_ok rfl ⟨fun _ => ⟨h.only_asked hsame, hsame, .inr (.inl hnot)⟩, by intros; contradiction⟩
  · have hvalid : dir_entry.Valid name :=
      ⟨fun hnil => hinvalid (.inl hnil), Nat.le_of_not_lt fun hlong => hinvalid (.inr hlong), hname⟩
    apply (h.lookup ⟨root, hp, hsector⟩ hname).bind
    rintro found t ⟨hasked, hsome, hnone⟩
    cases found with
    | some found =>
      obtain ⟨i, hi, -, -, huse, hspells⟩ := hsome found.1 found.2 rfl
      exact Exec.Ends.of_ok rfl ⟨fun _ => ⟨h.only_asked hasked, hasked,
        .inr (.inr (.inl ⟨_, i, hi, huse, hspells, rfl⟩))⟩, by intros; contradiction⟩
    | none =>
      have hdir' := hdir.asked hasked
      apply Exec.Ends.after (entry_turns_returns hdir')
      apply Exec.Ends.after Exec.get_run
      have hdata := h.data _ root hp
      have hslot : ∀ i, slot s.fs_device root.data i = entry s i := by
        intro i
        rw [hdata, hsector]
        rfl
      have hdevice : t.fs_device = s.fs_device ∧ t.oom = s.oom := by
        rw [hasked.same]
        exact ⟨rfl, rfl⟩
      apply (free_slot_loop_returns (ENTRY_SIZE * 16 + 1) 0 t.garbage t hdir' (Nat.zero_le _)
        (by rw [ENTRY_SIZE]; omega)).bind
      rintro ⟨e, ofs⟩ u ⟨hasked', i, hi, rfl, hwhere⟩
      simp only [hdevice.1, hslot, OutOfMemory, hdevice.2] at hwhere
      have hboth : OnlyAsked s u := IsTrans.trans _ _ _ hasked hasked'
      apply ((hdir'.asked hasked').write (h.deny_write_cnt hp (.inr hsector)) (by omega)
        (dir_entry.set e name k) hi).bind
      rintro written v ⟨hfull, hpart⟩
      refine Exec.Ends.of_ok rfl ⟨fun hfalse => ?_, fun htrue => ?_⟩
      · obtain ⟨hasked'', hwhy⟩ := hpart (by simpa using hfalse)
        have hall : OnlyAsked s v := IsTrans.trans _ _ _ hboth hasked''
        refine ⟨h.only_asked hall, hall, ?_⟩
        obtain rfl | hout := hwhy
        · obtain hout | ⟨-, hused⟩ := hwhere
          · exact .inl hout
          · exact .inr (.inr (.inr fun j hj => hused j (Nat.zero_le j) hj))
        · exact .inl (hout.before (h.only_asked hboth).toCalm)
      · obtain ⟨hlow, hmore, hv⟩ := hfull (by simpa using htrue)
        have ht : v = { s with
            fs_device := write_slot s.fs_device root.data i (dir_entry.set e name k)
            asked := v.asked } := by
          rw [hv, hboth.same]
        have hwritten := h.write_entry hp hsector hlow ht
          (fun _ => by rwa [dir_entry.set_inode_sector hlt]) (fun _ => ⟨name, dir_entry.set_name hvalid⟩)
          (hboth.asked.trans hmore)
        refine ⟨hvalid, i, hlow, e, hwritten, ?_⟩
        obtain hout | ⟨hfree, -⟩ := hwhere
        · exact .inl hout
        · exact (hnone rfl).imp_right fun hnot => ⟨hnot, hfree hlow⟩

end Directory

/-- There are sectors for a file of this size. -/
def HasRoom (s : State) (size : Int) : Prop := ∃ sector, s.free_map.scan 0 1 false = some sector ∧
  ((s.free_map.set sector 1 true).scan 0 (bytes_to_sectors size) false).isSome

/-- Why a file cannot be created. -/
def CannotCreate (s : State) (name : List Byte) (size : Int) : Prop :=
  ¬ dir_entry.Valid name ∨ (∃ k, Names s name k) ∨ (∀ i < 16, dir_entry.in_use (entry s i) = true) ∨
    ¬ HasRoom s size

/-- A new file has been entered. -/
structure Entered (held : Ptr → Nat) (name : List Byte) (size : Int) (k : Nat) (s t : State) : Prop where
  sound : Sound held t
  dev_size : t.fs_device.size = s.fs_device.size
  oom : t.oom = s.oom
  asked : s.asked ≤ t.asked
  map_file : t.free_map_file = s.free_map_file
  valid : dir_entry.Valid name
  entry : ∃ i < 16, dir_entry.in_use (filesys.entry t i) = true ∧ dir_entry.Spells (filesys.entry t i) name ∧
    dir_entry.inode_sector (filesys.entry t i) = k ∧
    (∀ j < 16, j ≠ i → ∀ b < 20, filesys.entry t j b = filesys.entry s j b) ∧
    (OutOfMemory s ∨ (∀ l, ¬ Names s name l) ∧ dir_entry.in_use (filesys.entry s i) = false ∧ HasRoom s size)
  fresh : k ∉ There s
  length : (disk_inode t k).length = size
  zeros : ∀ i : Nat, (i : Int) < size → t.fs_device.content (disk_inode t k).start i = 0
  there : ∀ l ∈ There t, l ∈ There s ∨ l = k
  stays : OutOfMemory s ∨ There s ⊆ There t
  users : Untouched (Users s ∩ Users t) s t
  handle : handle t = handle s

/-- The last step of a creation. -/
theorem Steady.entered (h : Steady held s t) (hvalid : dir_entry.Valid name) (hi : i < 16)
    (hwritten : EntryWritten held i (dir_entry.set e name k) t u) (hnew : NewFile t k)
    (hlength : (disk_inode t k).length = size) (hnonneg : 0 ≤ size) (hle : size ≤ 2147483647)
    (hzeros : ∀ i : Nat, (i : Int) < size → t.fs_device.content (disk_inode t k).start i = 0)
    (hfree : OutOfMemory s ∨ (∀ l, ¬ Names s name l) ∧ dir_entry.in_use (entry s i) = false ∧ HasRoom s size) :
    Entered held name size k s u := by
  have hlt : k < 2 ^ 32 := (hnew.in_range k (sector_mem t k)).trans h.sound.map.ready.size_lt
  have hsame : disk_inode u k = disk_inode t k := by
    rw [disk_inode, hwritten.files k (.inr hnew) k (sector_mem t k)]
    rfl
  have hroom := le_bytes_to_sectors hnonneg hle
  refine ⟨hwritten.sound, ?_, ?_, ?_, ?_, hvalid, ⟨i, hi, ?_, ?_, ?_, fun j hj hne b hb => ?_, hfree⟩, ?_, ?_,
    fun x hx => ?_, fun l hl => ?_, ?_, ?_, ?_⟩
  · rw [hwritten.size, h.size]
  · rw [hwritten.oom, h.oom]
  · exact h.asked.trans hwritten.same_open.asked
  · rw [hwritten.map_file, h.map_file]
  · rw [hwritten.in_use hi, if_pos rfl, dir_entry.set_in_use hvalid]
  · rw [hwritten.spells hi, if_pos rfl]
    exact dir_entry.set_name hvalid
  · rw [hwritten.inode_sector hi, if_pos rfl, dir_entry.set_inode_sector hlt]
  · rw [hwritten.entries j hj b hb, if_neg hne, h.entries j hj b hb]
  · rw [← h.there]
    exact hnew.absent
  · rw [hsame, hlength]
  · rw [hsame, block.content, hwritten.files k (.inr hnew) _ (.inr ⟨Nat.le_add_right _ _, ?_⟩)]
    · exact hzeros x hx
    · rw [hlength]
      omega
  · obtain hl | ⟨-, -, rfl⟩ := hwritten.there l hl
    · exact .inl (h.there ▸ hl)
    · exact .inr (dir_entry.set_inode_sector hlt)
  · refine hfree.imp_right ?_
    rintro ⟨-, hunused, -⟩ l hl
    refine hwritten.stays (h.there.symm ▸ hl) (.inl fun huse => ?_)
    rw [in_use_congr (h.entries i hi), hunused] at huse
    cases huse
  · have hfirst : Untouched (Users s ∩ Users u) s t := fun l hl => h.untouched l hl.1
    have hlast : Untouched (Users s ∩ Users u) t u := fun l hl => hwritten.files l (.inl (h.users_eq ▸ hl.1))
    exact hfirst.trans hlast
  · rw [hwritten.handle_eq, h.handle]

theorem Sound.create_in {d : dir} (h : Sound held s) (hroot : IsRoot s d.inode) (hname : 0 ∉ name)
    (hnonneg : 0 ≤ size) (hle : size ≤ 2147483647) : Returns (create_in (some d) name size) s fun r t =>
      (r.1 = false → Steady held s t ∧ (r.2 ≠ 0 → Spare (There t) t r.2) ∧
        (OutOfMemory s ∨ CannotCreate s name size)) ∧
      (r.1 = true → Entered held name size r.2 s t) := by
  rw [filesys.create_in]
  apply h.free_map_allocate.bind
  rintro sector t ⟨hopen, hsteady, hnone, hsome⟩
  cases sector with
  | none =>
    refine Exec.Ends.of_ok rfl ⟨fun _ => ⟨hsteady, fun hne => absurd rfl hne,
      (hnone rfl).imp_right fun hscan => ?_⟩,
      by intros; contradiction⟩
    refine .inr (.inr (.inr ?_))
    rintro ⟨k, hk, -⟩
    rw [hscan] at hk
    cases hk
  | some k =>
    obtain ⟨hscan, hmap, hspare⟩ := hsome k rfl
    apply (hsteady.sound.inode_create hspare hnonneg hle).bind
    rintro created u ⟨hopen', hsteady', hspare', hfailed, hmade⟩
    have hboth := hsteady.trans hsteady'
    cases created with
    | false =>
      refine Exec.Ends.of_ok rfl ⟨fun _ => ⟨hboth, fun _ => hspare', ?_⟩, by intros; contradiction⟩
      refine (hfailed rfl).imp (fun hout => hout.before hsteady.toCalm) fun hnoscan => .inr (.inr (.inr ?_))
      rintro ⟨l, hl, hroom⟩
      obtain rfl := Option.some.inj (hscan.symm.trans hl)
      rw [← hmap, hnoscan] at hroom
      cases hroom
    | true =>
      obtain ⟨hroom, hnew, hlength, hzeros⟩ := hmade rfl
      have hroot' : IsRoot u d.inode := (hroot.keeps hopen.keeps).keeps hopen'.keeps
      have hnames : ∀ l, Names u name l ↔ Names s name l := fun l => names_congr hboth.entries
      have hentries : ∀ i < 16, dir_entry.in_use (entry u i) = dir_entry.in_use (entry s i) := fun i hi =>
        in_use_congr (hboth.entries i hi)
      rw [if_pos rfl]
      apply (hboth.sound.dir_add hroot' hname hnew).bind
      rintro added v ⟨hfalse, htrue⟩
      refine Exec.Ends.of_ok rfl ⟨fun hadded => ?_, fun hadded => ?_⟩
      · obtain ⟨hlast, hasked, hwhy⟩ := hfalse hadded
        refine ⟨hboth.trans hlast, fun _ => hlast.spare hspare' ?_, ?_⟩
        · rw [used, hasked.same]
          exact hspare'.used
        · obtain hout | hinvalid | ⟨l, hl⟩ | hfull := hwhy
          · exact .inl (hout.before hboth.toCalm)
          · exact .inr (.inl hinvalid)
          · exact .inr (.inr (.inl ⟨l, (hnames l).mp hl⟩))
          · exact .inr (.inr (.inr (.inl fun i hi => hentries i hi ▸ hfull i hi)))
      · obtain ⟨hvalid, i, hi, e, hwritten, hfree⟩ := htrue hadded
        refine hboth.entered hvalid hi hwritten hnew hlength hnonneg hle hzeros ?_
        refine hfree.imp (fun hout => hout.before hboth.toCalm) ?_
        rintro ⟨hnot, hunused⟩
        exact ⟨fun l hl => hnot l ((hnames l).mpr hl), hentries i hi ▸ hunused, k, hscan, hmap ▸ hroom⟩

theorem Entered.user (h : Entered held name size k s t) : k ∈ Users t := by
  obtain ⟨i, hi, huse, -, hsector, -⟩ := h.entry
  exact h.sound.named_user ⟨i, hi, huse, hsector⟩

/-- The data of a file that is untouched. -/
theorem Untouched.content_eq {K : Set Nat} (h : Untouched K s t) (hk : k ∈ K) (hlies : Lies s k) {x : Nat}
    (hx : (x : Int) < (disk_inode s k).length) :
    t.fs_device.content (disk_inode s k).start x = s.fs_device.content (disk_inode s k).start x := by
  have hroom := le_bytes_to_sectors hlies.on_device.length_nonneg hlies.on_device.length_le
  rw [block.content, h k hk _ (.inr ⟨Nat.le_add_right _ _, by omega⟩)]
  rfl

/-- The root directory is opened before, and closed after that. -/
theorem Entered.between {held' : Ptr → Nat} {v : State} (h : Entered held' name size k t u)
    (hbefore : Steady held' s t)
    (hmap : t.free_map = s.free_map) (hafter : Steady held u v) : Entered held name size k s v := by
  obtain ⟨i, hi, huse, hspells, hsector, hentries, hfree⟩ := h.entry
  have hinode := hafter.untouched.disk_inode_eq h.user
  refine ⟨hafter.sound, ?_, ?_, ?_, ?_, h.valid, ⟨i, hi, ?_, ?_, ?_, fun j hj hne b hb => ?_, ?_⟩, ?_, ?_,
    fun x hx => ?_, fun l hl => ?_, ?_, ?_, ?_⟩
  · rw [hafter.size, h.dev_size, hbefore.size]
  · rw [hafter.oom, h.oom, hbefore.oom]
  · exact hbefore.asked.trans (h.asked.trans hafter.asked)
  · rw [hafter.map_file, h.map_file, hbefore.map_file]
  · rw [in_use_congr (hafter.entries i hi), huse]
  · exact (dir_entry.spells_congr (hafter.entries i hi)).mpr hspells
  · rw [inode_sector_congr (hafter.entries i hi), hsector]
  · rw [hafter.entries j hj b hb, hentries j hj hne b hb, hbefore.entries j hj b hb]
  · refine hfree.imp (fun hout => hout.before hbefore.toCalm) ?_
    rintro ⟨hnot, hunused, hroom⟩
    refine ⟨fun l hl => hnot l ((names_congr hbefore.entries).mpr hl), ?_, ?_⟩
    · rw [← hunused, in_use_congr (hbefore.entries i hi)]
    · rwa [HasRoom, hmap] at hroom
  · rw [← hbefore.there]
    exact h.fresh
  · rw [hinode, h.length]
  · rw [hinode, hafter.untouched.content_eq h.user (h.sound.lies k h.user.1) (h.length ▸ hx)]
    exact h.zeros x hx
  · rw [hafter.there] at hl
    rw [← hbefore.there]
    exact h.there l hl
  · refine h.stays.imp (fun hout => hout.before hbefore.toCalm) fun hsub => ?_
    rw [← hbefore.there, hafter.there]
    exact hsub
  · have hfirst : Untouched (Users s ∩ Users v) s t := fun l hl => hbefore.untouched l hl.1
    have hsecond : Untouched (Users s ∩ Users v) t u := fun l hl =>
      h.users l ⟨hbefore.users_eq ▸ hl.1, hafter.users_eq ▸ hl.2⟩
    have hthird : Untouched (Users s ∩ Users v) u v := fun l hl => hafter.untouched l (hafter.users_eq ▸ hl.2)
    exact (hfirst.trans hsecond).trans hthird
  · rw [hafter.handle, h.handle, hbefore.handle]

theorem CannotCreate.before (h : CannotCreate t name size) (hsteady : Steady held s t)
    (hmap : t.free_map = s.free_map) : CannotCreate s name size := by
  obtain hinvalid | ⟨k, hk⟩ | hfull | hroom := h
  · exact .inl hinvalid
  · exact .inr (.inl ⟨k, (names_congr hsteady.entries).mp hk⟩)
  · refine .inr (.inr (.inl fun i hi => ?_))
    rw [← hfull i hi, in_use_congr (hsteady.entries i hi)]
  · rw [HasRoom, hmap] at hroom
    exact .inr (.inr (.inr hroom))

/-- A file is created where nothing stands against it and memory is there. -/
theorem Sound.filesys_create (h : Sound held s) (hname : 0 ∉ name) (hnonneg : 0 ≤ size)
    (hle : size ≤ 2147483647) :
    Returns (filesys_create name size) s fun r t =>
      (r = false → Steady held s t ∧ (OutOfMemory s ∨ CannotCreate s name size)) ∧
      (r = true → ∃ k, Entered held name size k s t) := by
  rw [filesys.filesys_create]
  apply h.dir_open_root.bind
  rintro dir t ⟨hnone, hsome⟩
  cases dir with
  | none =>
    obtain ⟨hmemory, hsteady⟩ := hnone rfl
    exact Exec.Ends.of_ok rfl ⟨fun _ => ⟨hsteady, .inl hmemory⟩, by intros; contradiction⟩
  | some d =>
    obtain ⟨hopened, hroot, hmap⟩ := hsome d rfl
    apply (Returns.and (hopened.sound.create_in hroot hname hnonneg hle)
      fun a u hrun => (create_in_leaves (some d) name size).ok _ _ _ hrun).bind
    rintro ⟨success, sector⟩ u ⟨hopen, hfailed, hentered⟩
    have hroot' : IsRoot u d.inode := hroot.keeps hopen.keeps
    dsimp only at hfailed hentered ⊢
    cases success with
    | true =>
      have hdone := hentered rfl
      rw [if_neg (by simp)]
      apply (hdone.sound.dir_close hroot').bind
      rintro _ v ⟨hclosed, -⟩
      exact Exec.Ends.of_ok rfl ⟨by intros; contradiction, fun _ => ⟨sector, hdone.between hopened hmap hclosed⟩⟩
    | false =>
      obtain ⟨hsteady, hspare, hwhy⟩ := hfailed rfl
      have hwhy' : OutOfMemory s ∨ CannotCreate s name size :=
        hwhy.imp (fun hout => hout.before hopened.toCalm) fun hnot => hnot.before hopened hmap
      have hclose : ∀ v, Steady (acquire held d.inode) s v → IsRoot v d.inode → Returns (do
          filesys.dir_close (some d)
          return false) v fun r t => (r = false → Steady held s t ∧
            (OutOfMemory s ∨ CannotCreate s name size)) ∧
            (r = true → ∃ k, Entered held name size k s t) := by
        intro v hv hroot_v
        apply (hv.sound.dir_close hroot_v).bind
        rintro _ w ⟨hclosed, -⟩
        exact Exec.Ends.of_ok rfl ⟨fun _ => ⟨hv.trans hclosed, hwhy'⟩, by intros; contradiction⟩
      by_cases hzero : sector = 0
      · rw [if_neg fun hboth => hboth.2 hzero]
        exact hclose u (hopened.trans hsteady) hroot'
      · rw [if_pos ⟨rfl, hzero⟩]
        apply (hsteady.sound.free_map_release (hspare hzero)).bind
        rintro _ v ⟨hopen', hreleased⟩
        exact hclose v ((hopened.trans hsteady).trans hreleased) (hroot'.keeps hopen'.keeps)

end pintos.filesys
