import Pintos.Filesys.RootCalls

/-!
# Removing a file

The entry of the name is cleared, and the file goes with its last opener.
-/

open twos_complement bytes state_error ownership

namespace pintos.filesys

variable {held : Ptr → Nat} {s t u : State} {p f : Ptr} {inode : filesys.inode} {k i : Nat} {e : Bytes}
  {name : List Byte}

/-- Entry `i`, of a file, has been cleared. -/
structure Removed (held : Ptr → Nat) (name : List Byte) (k : Nat) (s t : State) : Prop where
  sound : Sound held t
  size : t.fs_device.size = s.fs_device.size
  oom : t.oom = s.oom
  asked : s.asked ≤ t.asked
  map_file : t.free_map_file = s.free_map_file
  entry : ∃ i < 16, dir_entry.in_use (entry s i) = true ∧ dir_entry.Spells (entry s i) name ∧
    dir_entry.inode_sector (entry s i) = k ∧ dir_entry.in_use (filesys.entry t i) = false ∧
    ∀ j < 16, j ≠ i → ∀ b < 20, filesys.entry t j b = filesys.entry s j b
  there : There t ⊆ There s
  others : ∀ l ∈ There s, l ≠ k → l ∈ There t
  users : Untouched (Users s ∩ Users t) s t
  handle : handle t = handle s

/-- A file without a name is removed with its last opener. -/
theorem Sound.inode_remove (h : Sound held s) (hp : s.inodes p = some inode)
    (hremovable : Removable s inode.sector) : Returns (inode_remove p) s fun _ t => Steady held s t ∧
      KeepsInodes s t := by
  apply Exec.Ends.after (deref_run hp)
  have hcounts := h.counted.at_inode hp
  have hcounted : Counted held
      { s with inodes := fun q => if q = p then some { inode with removed := true } else s.inodes q } :=
    h.counted.set_inode (Nat.le_refl _) (h.counted.lt_asked_of_inode hp) h.counted.files rfl
      (fun _ _ => ⟨rfl, rfl⟩)
      hcounts
  obtain ⟨hsound, hcalm, hthere, hagree⟩ := @Sound.restate _ _ _ _ _ _ h hp
    { inode with removed := true } rfl rfl
    (fun _ => hremovable) s.files rfl (fun _ => .inl rfl) hcounted
  refine Exec.Ends.of_ok (Exec.modify_run _) ⟨⟨hcalm, hsound, hthere, ?_⟩, fun q i hq => ?_⟩
  · exact handle_congr h.counted hcounted rfl hagree
  · by_cases hqp : q = p
    · obtain rfl := Option.some.inj (hp.symm.trans (hqp ▸ hq))
      exact ⟨_, if_pos hqp, rfl⟩
    · exact ⟨i, (if_neg hqp).trans hq, rfl⟩

/-- The steps of a removal, one after the other. -/
theorem Steady.removed {held' : Ptr → Nat} {v w : State} (h : Steady held' s t) (hi : i < 16)
    (huse : dir_entry.in_use (entry s i) = true) (hspells : dir_entry.Spells (entry s i) name)
    (hclear : dir_entry.in_use e = false) (hentry : EntryWritten held' i e t u) (hthere : There u = There t)
    (hgone : Steady held' u v) (hclosed : Closed held' p inode v w)
    (hsector : inode.sector = dir_entry.inode_sector (entry s i)) :
    Removed (release held' p) name (dir_entry.inode_sector (entry s i)) s w := by
  have hthere_v : There v = There s := hgone.there.trans (hthere.trans h.there)
  have hentries : ∀ j < 16, ∀ b < 20, entry w j b = if j = i then e b else entry s j b := by
    intro j hj b hb
    rw [hclosed.entries j hj b hb, hgone.entries j hj b hb, hentry.entries j hj b hb, h.entries j hj b hb]
  have husers : Users t = Users s ∧ Users u = Users s ∧ Users v = Users s := by
    simp only [Users, hthere_v, hthere, h.there, and_self]
  refine ⟨hclosed.sound, ?_, ?_, ?_, ?_, ⟨i, hi, huse, hspells, rfl, ?_, fun j hj hne b hb => ?_⟩,
    hthere_v ▸ hclosed.there,
    fun l hl hne => hclosed.others l (hthere_v ▸ hl) (hsector ▸ hne), ?_, ?_⟩
  · rw [hclosed.size, hgone.size, hentry.size, h.size]
  · rw [hclosed.oom, hgone.oom, hentry.oom, h.oom]
  · exact (h.asked.trans hentry.same_open.asked).trans (hgone.asked.trans hclosed.asked)
  · rw [hclosed.map_file, hgone.map_file, hentry.map_file, h.map_file]
  · rw [in_use_congr fun b hb => (hentries i hi b hb).trans (if_pos rfl), hclear]
  · exact (hentries j hj b hb).trans (if_neg hne)
  · have hfirst : Untouched (Users s ∩ Users w) s t := fun l hl => h.users l ⟨hl.1, husers.1 ▸ hl.1⟩
    have hsecond : Untouched (Users s ∩ Users w) t u := fun l hl => hentry.files l (.inl (husers.1 ▸ hl.1))
    have hthird : Untouched (Users s ∩ Users w) u v := fun l hl =>
      hgone.users l ⟨husers.2.1 ▸ hl.1, husers.2.2 ▸ hl.1⟩
    have hlast : Untouched (Users s ∩ Users w) v w := fun l hl => hclosed.users l ⟨husers.2.2 ▸ hl.1, hl.2⟩
    exact (hfirst.trans hsecond).trans (hthird.trans hlast)
  · rw [hclosed.handle, hgone.handle, hentry.handle_eq, h.handle]

/-- The root directory stays open while there is a reference to it. -/
theorem IsRoot.closed {q : Ptr} (h : IsRoot s q) (hsound : Sound held t) (hheld : 0 < held q)
    (hclosed : Closed (acquire held p) p inode s t) : IsRoot t q := by
  obtain ⟨i, hi, hroot⟩ := h
  obtain ⟨j, hj⟩ := hsound.counted.inode_of_held hheld
  exact ⟨j, hj, (hclosed.agree q i j hi hj).trans hroot⟩

section Directory

variable {d : dir}

theorem Sound.dir_remove (h : Sound held s) (hheld : 0 < held d.inode) (hroot : IsRoot s d.inode)
    (hname : 0 ∉ name) :
    Returns (dir_remove d name) s fun r t => IsRoot t d.inode ∧
      (r = false → Steady held s t ∧ (OutOfMemory s ∨ ∀ k, ¬ Names s name k)) ∧
      (r = true → ∃ k, Removed held name k s t) := by
  rw [filesys.dir_remove]
  apply (h.lookup hroot hname).bind
  rintro r t ⟨hasked, hsome, hnone⟩
  have hsteady := h.only_asked hasked
  have hroot' : IsRoot t d.inode := hroot.keeps hasked.same_open.keeps
  cases r with
  | none => exact Exec.Ends.of_ok rfl ⟨hroot', fun _ => ⟨hsteady, hnone rfl⟩, by intros; contradiction⟩
  | some r =>
    obtain ⟨e, ofs⟩ := r
    obtain ⟨i, hi, rfl, heq, huse, hspells⟩ := hsome e ofs rfl
    obtain ⟨k, hk⟩ : ∃ k, k = dir_entry.inode_sector (entry s i) := ⟨_, rfl⟩
    have hsector : dir_entry.inode_sector e = k := hk ▸ inode_sector_congr heq
    have hnamed : Named s k := ⟨i, hi, huse, hk.symm⟩
    have hthere : k ∈ There t := hsteady.there ▸ named_there hnamed
    simp only [hsector]
    apply (hsteady.sound.inode_open hthere).bind
    rintro r u ⟨hnone', hsome'⟩
    cases r with
    | none =>
      obtain ⟨hasked', hout⟩ := hnone' rfl
      exact Exec.Ends.of_ok rfl ⟨hroot'.keeps hasked'.same_open.keeps, fun _ =>
        ⟨hsteady.trans (hsteady.sound.only_asked hasked'), .inl (hout.before hsteady.toCalm)⟩,
        by intros; contradiction⟩
    | some p =>
      obtain ⟨hopened, hkeeps, -, inode, hp, hpk⟩ := hsome' p rfl
      have hboth := hsteady.trans hopened
      obtain ⟨root, hr, hrsector⟩ := hroot'.keeps hkeeps
      have hdir := hboth.sound.root_dir hr hrsector
      apply (hdir.write (hboth.sound.deny_write_cnt hr (.inr hrsector)) (by omega)
        (dir_entry.clear e) hi.le).bind
      rintro written v ⟨hfull, hpart⟩
      split_ifs with hwritten
      · obtain ⟨-, hmore, hv⟩ := hfull hwritten
        have hclear := dir_entry.clear_in_use e
        have hentry := hboth.sound.write_entry hr hrsector hi hv (by simp [hclear])
            (by simp [dir_entry.Good, hclear])
          hmore
        have hp' : v.inodes p = some inode := hentry.same_open.inodes ▸ hp
        have hopened' : Opened u k := ⟨p, inode, hp, hpk⟩
        have hi' : dir_entry.in_use (entry u i) = true ∧ dir_entry.inode_sector (entry u i) = k := by
          rw [in_use_congr (hboth.entries i hi), inode_sector_congr (hboth.entries i hi)]
          exact ⟨huse, hk.symm⟩
        have hunnamed : ¬ Named v k := by
          rintro ⟨j, hj, hjuse, hjk⟩
          rw [hentry.in_use hj, hclear] at hjuse
          rw [hentry.inode_sector hj] at hjk
          split_ifs at hjuse hjk with hji
          exact hji (hboth.sound.disk.one_name j hj i hi hjuse hi'.1 (hjk.trans hi'.2.symm))
        have hthere' : There v = There u := by
          apply Set.Subset.antisymm
          · intro l hl
            obtain hl | ⟨-, huse', -⟩ := hentry.there l hl
            · exact hl
            · rw [hclear] at huse'
              cases huse'
          · intro l hl
            refine hentry.stays hl ?_
            by_cases heq : k = l
            · exact .inr (heq ▸ hopened')
            · exact .inl fun _ hsame => heq (hi'.2.symm.trans hsame)
        have hremovable : Removable v inode.sector := hpk ▸ ⟨hunnamed, h.disk.named_ne k hnamed⟩
        apply (hentry.sound.inode_remove hp' hremovable).bind
        rintro _ w ⟨hgone, hkeeps'⟩
        obtain ⟨inode', hp'', hsector'⟩ := hkeeps' p inode hp'
        apply (hgone.sound.inode_close (acquire_pos held p) hp'').bind
        intro _ x hclosed
        have hremoved := hboth.removed hi huse hspells hclear hentry hthere' hgone hclosed
          (hsector'.trans (hpk.trans hk))
        rw [release_acquire] at hremoved
        have hroot_w : IsRoot w d.inode := ((hroot'.keeps hkeeps).keeps hentry.same_open.keeps).keeps hkeeps'
        exact Exec.Ends.of_ok rfl ⟨hroot_w.closed hremoved.sound hheld hclosed,
          by intros; contradiction, fun _ => ⟨_, hremoved⟩⟩
      · obtain ⟨hasked', hwhy⟩ := hpart hwritten
        have hout : OutOfMemory u := hwhy.resolve_left (by omega)
        have hafter := hboth.trans (hboth.sound.only_asked hasked')
        have hp' : v.inodes p = some inode := hasked'.same_open.inodes ▸ hp
        have hstays : Named v inode.sector := by
          rw [hpk, hafter.named_iff]
          exact hnamed
        apply (hafter.sound.inode_close (acquire_pos held p) hp').bind
        intro _ w hclosed
        have hback := hafter.trans (hclosed.steady (.inr hstays))
        rw [release_acquire] at hback
        have hroot_v : IsRoot v d.inode := (hroot'.keeps hkeeps).keeps hasked'.same_open.keeps
        exact Exec.Ends.of_ok rfl ⟨hroot_v.closed hback.sound hheld hclosed,
          fun _ => ⟨hback, .inl (hout.before hboth.toCalm)⟩, by intros; contradiction⟩

end Directory

/-- The root directory is opened before, and closed after that. -/
theorem Removed.between {held' : Ptr → Nat} {v : State} (h : Removed held' name k t u)
    (hbefore : Steady held' s t) (hafter : Steady held u v) : Removed held name k s v := by
  obtain ⟨i, hi, huse, hspells, hsector, hclear, hentries⟩ := h.entry
  have husers : Users t = Users s ∧ Users v = Users u := by
    simp only [Users, hbefore.there, hafter.there, and_self]
  refine ⟨hafter.sound, ?_, ?_, ?_, ?_, ⟨i, hi, ?_, ?_, ?_, ?_, fun j hj hne b hb => ?_⟩, ?_,
    fun l hl hne => ?_, ?_, ?_⟩
  · rw [hafter.size, h.size, hbefore.size]
  · rw [hafter.oom, h.oom, hbefore.oom]
  · exact hbefore.asked.trans (h.asked.trans hafter.asked)
  · rw [hafter.map_file, h.map_file, hbefore.map_file]
  · rw [← huse, in_use_congr (hbefore.entries i hi)]
  · exact (dir_entry.spells_congr (hbefore.entries i hi)).mp hspells
  · rw [← hsector, inode_sector_congr (hbefore.entries i hi)]
  · rw [in_use_congr (hafter.entries i hi), hclear]
  · rw [hafter.entries j hj b hb, hentries j hj hne b hb, hbefore.entries j hj b hb]
  · rw [hafter.there, ← hbefore.there]
    exact h.there
  · exact hafter.there ▸ h.others l (hbefore.there ▸ hl) hne
  · have hfirst : Untouched (Users s ∩ Users v) s t := fun l hl => hbefore.users l ⟨hl.1, husers.1 ▸ hl.1⟩
    have hsecond : Untouched (Users s ∩ Users v) t u := fun l hl => h.users l ⟨husers.1 ▸ hl.1, husers.2 ▸ hl.2⟩
    have hthird : Untouched (Users s ∩ Users v) u v := fun l hl => hafter.users l ⟨husers.2 ▸ hl.2, hl.2⟩
    exact (hfirst.trans hsecond).trans hthird
  · rw [hafter.handle, h.handle, hbefore.handle]

/-- A file is removed by its name, if it has one and there is memory. -/
theorem Sound.filesys_remove (h : Sound held s) (hname : 0 ∉ name) : Returns (filesys_remove name) s fun r t =>
    (r = false → Steady held s t ∧ (OutOfMemory s ∨ ∀ k, ¬ Names s name k)) ∧
    (r = true → ∃ k, Removed held name k s t) := by
  rw [filesys.filesys_remove]
  apply h.dir_open_root.bind
  rintro dir t ⟨hnone, hsome⟩
  cases dir with
  | none =>
    obtain ⟨hmemory, hsteady⟩ := hnone rfl
    exact Exec.Ends.of_ok rfl ⟨fun _ => ⟨hsteady, .inl hmemory⟩, by intros; contradiction⟩
  | some d =>
    obtain ⟨hopened, hroot, -⟩ := hsome d rfl
    have hnames : ∀ k, Names t name k ↔ Names s name k := fun k => names_congr hopened.entries
    apply (hopened.sound.dir_remove (acquire_pos held _) hroot hname).bind
    rintro r u ⟨hroot', hfailed, hremoved⟩
    cases r with
    | false =>
      obtain ⟨hsteady, hwhy⟩ := hfailed rfl
      apply (hsteady.sound.dir_close hroot').bind
      rintro _ v ⟨hclosed, -⟩
      refine Exec.Ends.of_ok rfl ⟨fun _ => ⟨(hopened.trans hsteady).trans hclosed,
        hwhy.imp (fun hout => hout.before hopened.toCalm) ?_⟩, by intros; contradiction⟩
      exact fun hnot k hk => hnot k ((hnames k).mpr hk)
    | true =>
      obtain ⟨k, hremoved⟩ := hremoved rfl
      apply (hremoved.sound.dir_close hroot').bind
      rintro _ v ⟨hclosed, -⟩
      exact Exec.Ends.of_ok rfl ⟨by intros; contradiction, fun _ => ⟨k, hremoved.between hopened hclosed⟩⟩

end pintos.filesys
