import Pintos.Filesys.EntryWrites

/-!
# Looking names up in the root directory

The root directory is opened for each call and closed again. What a name is looked up as, and what is
opened then.
-/

open twos_complement bytes state_error ownership

namespace pintos.filesys

/-- The root directory has the name, for the file. -/
def Names (s : State) (name : List Byte) (k : Nat) : Prop :=
  ∃ i < 16, dir_entry.in_use (entry s i) = true ∧ dir_entry.Spells (entry s i) name ∧
    dir_entry.inode_sector (entry s i) = k

variable {held : Ptr → Nat} {s t u : State} {p f : Ptr} {inode : filesys.inode} {k i : Nat} {e : Bytes}
  {name : List Byte}

theorem Names.named (h : Names s name k) : Named s k := by
  obtain ⟨i, hi, huse, -, hsector⟩ := h
  exact ⟨i, hi, huse, hsector⟩

theorem names_congr (h : ∀ i < 16, ∀ j < 20, entry t i j = entry s i j) : Names t name k ↔ Names s name k := by
  apply exists_congr
  intro i
  apply and_congr_right
  intro hi
  rw [in_use_congr (h i hi), inode_sector_congr (h i hi), dir_entry.spells_congr (h i hi)]

theorem Calm.named_iff (h : Calm s t) : Named t k ↔ Named s k := by
  apply exists_congr
  intro i
  apply and_congr_right
  intro hi
  rw [in_use_congr (h.entries i hi), inode_sector_congr (h.entries i hi)]

/-- A named file is one of a user. -/
theorem Sound.named_user (h : Sound held s) (hk : Named s k) : k ∈ Users s :=
  ⟨named_there hk, h.disk.named_ne k hk⟩

/-- A file that is still named stays there when it is closed. -/
theorem Closed.steady (h : Closed held p inode s t) (hstays : inode.sector = ROOT_DIR_SECTOR ∨
    Named s inode.sector) : Steady (release held p) s t := by
  refine ⟨h.toCalm, h.sound, h.there_eq ?_, h.handle⟩
  obtain hroot | hnamed := hstays
  · exact .inr (.inl hroot)
  · exact named_there (h.named_iff.mpr hnamed)

section Root

/-- The root directory is open as `p`. -/
def IsRoot (s : State) (p : Ptr) : Prop := ∃ inode, s.inodes p = some inode ∧ inode.sector = ROOT_DIR_SECTOR

theorem IsRoot.keeps (h : IsRoot s p) (hkeeps : KeepsInodes s t) : IsRoot t p := by
  obtain ⟨inode, hp, hroot⟩ := h
  obtain ⟨j, hj, hsector⟩ := hkeeps p inode hp
  exact ⟨j, hj, hsector.trans hroot⟩

theorem SameOpen.keeps (h : SameOpen s t) : KeepsInodes s t := fun _ i hq => ⟨i, h.inodes ▸ hq, rfl⟩

theorem KeepsInodes.trans (h : KeepsInodes s t) (h' : KeepsInodes t u) : KeepsInodes s u := by
  intro q i hq
  obtain ⟨j, hj, hsector⟩ := h q i hq
  obtain ⟨l, hl, hsector'⟩ := h' q j hj
  exact ⟨l, hl, hsector'.trans hsector⟩

theorem Sound.dir_open_root (h : Sound held s) : Returns dir_open_root s fun r t =>
    (r = none → OutOfMemory s ∧ Steady held s t) ∧
    ∀ d, r = some d → Steady (acquire held d.inode) s t ∧ IsRoot t d.inode ∧ t.free_map = s.free_map := by
  rw [filesys.dir_open_root]
  apply (h.inode_open h.disk.root_there).bind
  rintro r t ⟨hnone, hsome⟩
  rw [dir_open]
  apply (malloc_returns t).bind
  rintro block u ⟨rfl, -, hout⟩
  have hasked : OnlyAsked t { t with asked := t.asked + 1 } := ⟨rfl, Nat.le_succ _⟩
  cases r with
  | none =>
    obtain ⟨hsame, hmemory⟩ := hnone rfl
    exact Exec.Ends.of_ok rfl ⟨fun _ => ⟨hmemory, h.only_asked (IsTrans.trans _ _ _ hsame hasked)⟩,
      by intros; contradiction⟩
  | some p =>
    obtain ⟨hsteady, -, hmap, inode, hp, hroot⟩ := hsome p rfl
    have hafter := hsteady.trans (hsteady.sound.only_asked hasked)
    cases block with
    | some block =>
      refine Exec.Ends.of_ok rfl ⟨by intros; contradiction, ?_⟩
      rintro d ⟨⟩
      exact ⟨hafter, ⟨inode, hp, hroot⟩, hmap⟩
    | none =>
      apply (hafter.sound.inode_close (acquire_pos held p) hp).bind
      intro _ v hclosed
      refine Exec.Ends.of_ok rfl ⟨fun _ => ⟨?_, ?_⟩, by intros; contradiction⟩
      · obtain ⟨n, hn⟩ := hout rfl
        exact ⟨n, hsteady.oom ▸ hn⟩
      · have hback := hafter.trans (hclosed.steady (.inl hroot))
        rwa [release_acquire] at hback

theorem Sound.dir_close {d : dir} (h : Sound (acquire held d.inode) s) (hroot : IsRoot s d.inode) :
    Returns (dir_close (some d)) s fun _ t => Steady held s t ∧
      ∀ q i j, s.inodes q = some i → t.inodes q = some j → j.sector = i.sector := by
  obtain ⟨inode, hp, hsector⟩ := hroot
  apply (h.inode_close (acquire_pos held _) hp).mono
  intro _ t hclosed
  have hback := hclosed.steady (.inl hsector)
  rw [release_acquire] at hback
  exact ⟨hback, hclosed.agree⟩

end Root

section Lookup

variable {d : dir}

/-- What the search finds, said of the root directory. -/
theorem Sound.lookup (h : Sound held s) (hroot : IsRoot s d.inode) (hname : 0 ∉ name) :
    Returns (lookup d name) s fun r t => OnlyAsked s t ∧
      (∀ e ofs, r = some (e, ofs) → ∃ i < 16, ofs = ENTRY_SIZE * i ∧ (∀ j < 20, e j = entry s i j) ∧
        dir_entry.in_use (entry s i) = true ∧ dir_entry.Spells (entry s i) name) ∧
      (r = none → OutOfMemory s ∨ ∀ k, ¬ Names s name k) := by
  obtain ⟨inode, hp, hsector⟩ := hroot
  have hdata := h.data _ inode hp
  have hslot : ∀ i, slot s.fs_device inode.data i = entry s i := by
    intro i
    rw [hdata, hsector]
    rfl
  apply (lookup_returns (h.root_dir hp hsector) hname).mono
  rintro r t ⟨hasked, hfinds⟩
  refine ⟨hasked, ?_, ?_⟩
  · rintro e ofs rfl
    simpa only [Finds, hslot] using hfinds
  · rintro rfl
    simp only [Finds, hslot] at hfinds
    refine hfinds.imp_right ?_
    rintro hnone k ⟨i, hi, huse, hspells, -⟩
    exact hnone i (Nat.zero_le i) hi huse hspells

theorem Sound.dir_lookup (h : Sound held s) (hroot : IsRoot s d.inode) (hname : 0 ∉ name) :
    Returns (dir_lookup d name) s fun r t =>
      (r = none → Steady held s t ∧ KeepsInodes s t ∧ (OutOfMemory s ∨ ∀ k, ¬ Names s name k)) ∧
      ∀ p, r = some p → Steady (acquire held p) s t ∧ KeepsInodes s t ∧
        ∃ inode, t.inodes p = some inode ∧ Names s name inode.sector := by
  rw [filesys.dir_lookup]
  apply (h.lookup hroot hname).bind
  rintro r t ⟨hasked, hsome, hnone⟩
  have hsteady := h.only_asked hasked
  have hkeeps := hasked.same_open.keeps
  cases r with
  | none => exact Exec.Ends.of_ok rfl ⟨fun _ => ⟨hsteady, hkeeps, hnone rfl⟩, by intros; contradiction⟩
  | some r =>
    obtain ⟨i, hi, -, heq, huse, hspells⟩ := hsome r.1 r.2 rfl
    have hsector := inode_sector_congr heq
    have hnamed : Named s (dir_entry.inode_sector r.1) := ⟨i, hi, huse, hsector.symm⟩
    have hthere : dir_entry.inode_sector r.1 ∈ There t := hsteady.there ▸ named_there hnamed
    apply (hsteady.sound.inode_open hthere).mono
    rintro r' u ⟨hnone', hsome'⟩
    refine ⟨fun hr => ?_, fun p hr => ?_⟩
    · obtain ⟨hasked', n, hn⟩ := hnone' hr
      have hboth := IsTrans.trans _ _ _ hasked hasked'
      exact ⟨h.only_asked hboth, hboth.same_open.keeps, .inl ⟨n, hsteady.oom ▸ hn⟩⟩
    · obtain ⟨hopened, hkeeps', -, inode, hp, heq'⟩ := hsome' p hr
      exact ⟨hsteady.trans hopened, hkeeps.trans hkeeps', inode, hp, i, hi, huse, hspells,
        (hsector.symm.trans heq'.symm)⟩

end Lookup

theorem file_open_none (s : State) : Returns (file_open none) s fun r t => r = none ∧ OnlyAsked s t := by
  rw [file_open]
  apply (malloc_returns s).bind
  rintro r t ⟨rfl, -⟩
  exact Exec.Ends.of_ok rfl ⟨rfl, rfl, Nat.le_succ _⟩

theorem handle_none (hf : s.files f = none) : handle s f = none := by
  rw [handle, hf, Option.bind_none]

theorem Steady.handled {v : Option OpenFile} {held' : Ptr → Nat} (h : Steady held s t)
    (h' : Handled held' f v t u) :
    Handled held' f v s u where
  toCalm := h.toCalm.trans h'.toCalm (h.there ▸ Set.inter_subset_left)
  sound := h'.sound
  there := h'.there.trans h.there
  handle := h'.handle.trans (h.handle ▸ rfl)

theorem OutOfMemory.before (h : OutOfMemory t) (hcalm : Calm s t) : OutOfMemory s := by
  obtain ⟨n, hn⟩ := h
  exact ⟨n, hcalm.oom ▸ hn⟩

theorem acquire_comm (held : Ptr → Nat) (p q : Ptr) : acquire (acquire held p) q =
    acquire (acquire held q) p := by
  funext r
  simp only [acquire]
  split_ifs <;> rfl

/-- A file is opened by its name, if it has one and there is memory. -/
theorem Sound.filesys_open (h : Sound held s) (hname : 0 ∉ name) : Returns (filesys_open name) s fun r t =>
    (∀ f, r = some f → s.free_map_file ≠ some f ∧ handle s f = none ∧ ∃ k, Names s name k ∧
      Handled held f (some { file := k, pos := 0, deny_write := false }) s t) ∧
    (r = none → Steady held s t ∧ (OutOfMemory s ∨ ∀ k, ¬ Names s name k)) := by
  have hopen_none : ∀ t, Steady held s t → (OutOfMemory s ∨ ∀ k, ¬ Names s name k) →
      Returns (filesys.file_open none) t fun r u => (∀ f, r = some f → s.free_map_file ≠ some f ∧
        handle s f = none ∧ ∃ k,
        Names s name k ∧ Handled held f (some { file := k, pos := 0, deny_write := false }) s u) ∧
        (r = none → Steady held s u ∧ (OutOfMemory s ∨ ∀ k, ¬ Names s name k)) := by
    intro t hsteady hwhy
    apply (file_open_none t).mono
    rintro r u ⟨rfl, hasked⟩
    exact ⟨by intros; contradiction, fun _ => ⟨hsteady.trans (hsteady.sound.only_asked hasked), hwhy⟩⟩
  rw [filesys.filesys_open]
  apply h.dir_open_root.bind
  rintro dir t ⟨hnone, hsome⟩
  cases dir with
  | none =>
    obtain ⟨hmemory, hsteady⟩ := hnone rfl
    exact hopen_none t hsteady (.inl hmemory)
  | some d =>
    obtain ⟨hopened, hroot, -⟩ := hsome d rfl
    have hnames : ∀ k, Names t name k ↔ Names s name k := fun k => names_congr hopened.entries
    apply (hopened.sound.dir_lookup hroot hname).bind
    rintro r u ⟨habsent, hfound⟩
    cases r with
    | none =>
      obtain ⟨hsteady, hkeeps, hwhy⟩ := habsent rfl
      apply (hsteady.sound.dir_close (hroot.keeps hkeeps)).bind
      rintro _ v ⟨hclosed, -⟩
      refine hopen_none v ((hopened.trans hsteady).trans hclosed)
        (hwhy.imp (fun hout => hout.before hopened.toCalm) ?_)
      exact fun hnot k hk => hnot k ((hnames k).mpr hk)
    | some p =>
      obtain ⟨hsteady, hkeeps, inode, hp, hnamed⟩ := hfound p rfl
      have hboth := hopened.trans hsteady
      have hsound := hboth.sound
      rw [acquire_comm] at hsound
      apply (hsound.dir_close (hroot.keeps hkeeps)).bind
      rintro _ v ⟨hclosed, hagree⟩
      have hafter := hboth.trans hclosed
      obtain ⟨inode', hp'⟩ := hafter.sound.counted.inode_of_held (acquire_pos held p)
      have hsector : inode'.sector = inode.sector := hagree p inode inode' hp hp'
      have hnamed' : Named s inode'.sector := by
        rw [hsector]
        exact ((hnames _).mp hnamed).named
      apply (hafter.sound.file_open (acquire_pos held p) hp' (h.disk.named_ne _ hnamed')).mono
      rintro r w ⟨hsome', hnone'⟩
      refine ⟨fun f hf => ?_, fun hr => ?_⟩
      · obtain ⟨hfree, hmap, hhandled⟩ := hsome' f hf
        rw [release_acquire] at hhandled
        refine ⟨hafter.map_file ▸ hmap, ?_, inode.sector, (hnames _).mp hnamed,
          hsector ▸ hafter.handled hhandled⟩
        rw [← hafter.handle]
        exact handle_none hfree
      · obtain ⟨hout, hgone⟩ := hnone' hr
        have hback := hafter.trans (hgone.steady (.inr (hafter.named_iff.mpr hnamed')))
        rw [release_acquire] at hback
        exact ⟨hback, .inl (hout.before hafter.toCalm)⟩

end pintos.filesys
