import Pintos.Filesys.WriteDeny

/-!
# What the functions on inodes and files do to the counts

Each function keeps the counts of the inodes right, and so none fails a check of them.
-/

open twos_complement bytes state_error sharing

namespace pintos.filesys

section Functions

variable {held : Ptr → Nat} {s : State} {f p : Ptr} {file : file} {inode : inode}

theorem inode_reopen_ends (h : Counted held s) (hp : s.inodes p = some inode) :
    Ends (inode_reopen p) s fun _ s' => Counted (acquire held p) s' := by
  apply Exec.Ends.after (deref_run hp)
  exact Exec.Ends.of_ok rfl (h.reopen hp (Nat.le_refl _) rfl rfl)

/-- The search for an open inode. -/
theorem open_inode_at_ends (sector : Nat) (l : List Ptr) :
    Ends (open_inode_at sector l) s fun r s' => s' = s ∧ ∀ p, r = some p → ∃ inode,
      s.inodes p = some inode := by
  induction l with
  | nil => exact Exec.Ends.of_ok rfl ⟨rfl, by rintro _ ⟨⟩⟩
  | cons q l ih =>
    rw [open_inode_at]
    cases hq : s.inodes q with
    | none =>
      have hwild : deref q s = .error .wild_pointer := by simp only [deref, hq]
      exact Exec.Ends.of_error (Exec.bind_error hwild) (by rintro ⟨⟩)
    | some inode =>
      apply Exec.Ends.after (deref_run hq)
      split_ifs
      · apply Exec.Ends.of_ok rfl
        refine ⟨rfl, ?_⟩
        rintro p ⟨⟩
        exact ⟨inode, hq⟩
      · exact ih

theorem inode_open_ends (h : Counted held s) (sector : Nat) :
    Ends (inode_open sector) s fun p s' => Counted (p.elim held (acquire held)) s' := by
  rw [inode_open]
  apply Exec.Ends.after Exec.get_run
  apply (open_inode_at_ends sector s.open_inodes).bind
  rintro r t ⟨rfl, hfound⟩
  cases r with
  | some p =>
    obtain ⟨inode, hp⟩ := hfound p rfl
    apply (inode_reopen_ends h hp).bind
    exact fun _ u hu => Exec.Ends.of_ok rfl hu
  | none =>
    apply (malloc_ends t).bind
    rintro r u ⟨rfl, hblock, -⟩
    cases r with
    | none => exact Exec.Ends.of_ok rfl (h.same ⟨rfl, rfl, rfl, Nat.le_succ _⟩)
    | some p =>
      obtain rfl := hblock p rfl
      apply Exec.Ends.after (Exec.modify_run _)
      apply (Exec.Ends.of_frame (block_read_reads sector).leaves fun _ _ => id).bind
      intro data u hu
      apply Exec.Ends.after (Exec.modify_run _)
      apply Exec.Ends.of_ok rfl
      refine h.create (Nat.le_of_succ_le hu.asked) (Nat.le_refl _) hu.asked hu.files
        (congrArg (fun m q => if q = t.asked then some _ else m q) hu.inodes) ?_ ?_
      · rfl
      · rfl

/-- One opener less. The sectors of a file that was removed are given back by the last one. -/
theorem inode_close_ends (hp : s.inodes p = some inode) :
    Ends (inode_close (some p)) s fun _ s' => s.asked ≤ s'.asked ∧ s'.files = s.files ∧
      s'.inodes = fun q => if q = p then dropped inode else s.inodes q := by
  rw [inode_close]
  apply Exec.Ends.after (deref_run hp)
  apply Exec.Ends.after (Exec.modify_run _)
  by_cases hlast : inode.open_cnt - 1 = 0
  · rw [if_pos hlast]
    apply Exec.Ends.after (Exec.modify_run _)
    have hgone : ∀ t : State, t.asked ≥ s.asked → t.files = s.files →
        (t.inodes = fun q => if q = p then some { inode with open_cnt := inode.open_cnt - 1 } else s.inodes q) →
        Ends (store_inode p none) t fun _ s' => s.asked ≤ s'.asked ∧ s'.files = s.files ∧
          s'.inodes = fun q => if q = p then dropped inode else s.inodes q := by
      intro t hasked hfiles hinodes
      apply Exec.Ends.of_ok rfl
      refine ⟨hasked, hfiles, ?_⟩
      simp only [hinodes, dropped, if_pos hlast]
      funext q
      split_ifs <;> rfl
    split_ifs with hremoved
    · apply (Exec.Ends.of_frame (free_map_release_leaves _ _) fun _ _ => id).bind
      intro _ t ht
      apply (Exec.Ends.of_frame (free_map_release_leaves _ _) fun _ _ => id).bind
      intro _ u hu
      exact hgone u (ht.asked.trans hu.asked) (hu.files.trans ht.files) (hu.inodes.trans ht.inodes)
    · exact hgone _ (Nat.le_refl _) rfl rfl
  · rw [if_neg hlast]
    apply Exec.Ends.of_ok rfl
    refine ⟨Nat.le_refl _, rfl, ?_⟩
    simp only [dropped, if_neg hlast]

theorem inode_remove_ends (h : Counted held s) (hp : s.inodes p = some inode) :
    Ends (inode_remove p) s fun _ s' => Counted held s' := by
  apply Exec.Ends.after (deref_run hp)
  apply Exec.Ends.of_ok rfl
  have hcounts := h.at_inode hp
  exact h.set_inode (Nat.le_refl _) (h.lt_asked_of_inode hp) h.files rfl (fun _ _ => ⟨rfl, rfl⟩) hcounts

@[simp] theorem release_acquire (held : Ptr → Nat) (p : Ptr) : release (acquire held p) p = held := by
  funext q
  simp only [release, acquire]
  split_ifs <;> omega

theorem acquire_pos (held : Ptr → Nat) (p : Ptr) : 0 < acquire held p p := by
  simp [acquire]

theorem file_open_ends {inode : Option Ptr} (h : Counted held s) (hheld : ∀ p, inode = some p → 0 < held p) :
    Ends (file_open inode) s fun _ s' => Counted (inode.elim held (release held)) s' := by
  rw [file_open]
  apply (malloc_ends s).bind
  rintro r t ⟨rfl, hblock, -⟩
  have hasked : Counted held { s with asked := s.asked + 1 } := h.same ⟨rfl, rfl, rfl, Nat.le_succ _⟩
  cases inode with
  | none => exact Exec.Ends.of_ok rfl hasked
  | some p =>
    have hp := hheld p rfl
    cases r with
    | some f =>
      obtain rfl := hblock f rfl
      exact Exec.Ends.of_ok rfl (h.attach hp (Nat.le_succ _) (Nat.le_refl _) (Nat.lt_succ_self _) rfl rfl)
    | none =>
      obtain ⟨inode, hinode⟩ := h.inode_of_held hp
      have hclose := inode_close_ends (s := { s with asked := s.asked + 1 }) hinode
      apply hclose.bind
      rintro _ u ⟨hless, hfiles, hinodes⟩
      exact Exec.Ends.of_ok rfl (hasked.close hp hinode hless hfiles hinodes)

theorem file_reopen_ends (h : Counted held s) (hf : s.files f = some file) :
    Ends (file_reopen f) s fun _ s' => Counted held s' := by
  obtain ⟨inode, hp⟩ := h.inode_of_file hf
  have hderef : deref_file f s = .ok (file, s) := by simp only [deref_file, hf]
  apply Exec.Ends.after hderef
  apply (inode_reopen_ends h hp).bind
  intro _ t ht
  apply (file_open_ends ht ?_).mono
  · intro _ u hu
    simpa using hu
  · rintro p ⟨⟩
    exact acquire_pos held file.inode

/-- Denying writes passes its check. -/
theorem file_deny_write_run (h : Counted held s) (hf : s.files f = some file) :
    ∃ s', file_deny_write f s = .ok ((), s') ∧ Counted held s' := by
  obtain ⟨inode, hp⟩ := h.inode_of_file hf
  have hderef : deref_file f s = .ok (file, s) := by simp only [deref_file, hf]
  rw [file_deny_write, Exec.bind_run hderef]
  cases hdeny : file.deny_write with
  | true => exact ⟨s, rfl, h⟩
  | false =>
    obtain ⟨s', hs'⟩ : ∃ s' : State, s' = { s with
        files := fun g => if g = f then some { file with deny_write := true } else s.files g
        inodes := fun q => if q = file.inode then
          some { inode with deny_write_cnt := inode.deny_write_cnt + 1 } else s.inodes q } := ⟨_, rfl⟩
    have hcounted : Counted held s' := by
      rw [hs']
      exact h.deny hf hdeny hp (Nat.le_refl _) rfl rfl
    have hinode : s'.inodes file.inode = some { inode with deny_write_cnt := inode.deny_write_cnt + 1 } := by
      simp [hs']
    have hle := hcounted.deny_write_cnt_le hinode
    refine ⟨s', ?_, hcounted⟩
    rw [if_pos (by simp), store_file, Exec.bind_run (Exec.modify_run _), inode_deny_write]
    have hderef' : deref file.inode { s with
        files := fun g => if g = f then some { file with deny_write := true } else s.files g } =
        .ok (inode, { s with
          files := fun g => if g = f then some
            { file with deny_write := true } else s.files g }) := deref_run hp
    rw [Exec.bind_run hderef', store_inode, Exec.bind_run (Exec.modify_run _), Exec.ASSERT_run hle, hs']

/-- Allowing writes passes its checks. -/
theorem file_allow_write_run (h : Counted held s) (hf : s.files f = some file) :
    ∃ s', file_allow_write f s = .ok ((), s') ∧ Counted held s' ∧ s'.asked = s.asked ∧
      s'.files = fun g => if g = f then some { file with deny_write := false } else s.files g := by
  obtain ⟨inode, hp⟩ := h.inode_of_file hf
  have hderef : deref_file f s = .ok (file, s) := by simp only [deref_file, hf]
  rw [file_allow_write, Exec.bind_run hderef]
  cases hdeny : file.deny_write with
  | false =>
    refine ⟨s, rfl, h, rfl, ?_⟩
    funext g
    split_ifs with hg
    · rw [hg, hf, ← hdeny]
    · rfl
  | true =>
    have hpos := h.deny_write_cnt_pos hf hdeny hp
    have hle := h.deny_write_cnt_le hp
    rw [if_pos rfl, store_file, Exec.bind_run (Exec.modify_run _), inode_allow_write]
    have hderef' : deref file.inode { s with
        files := fun g => if g = f then some { file with deny_write := false } else s.files g } =
        .ok (inode, { s with
          files := fun g => if g = f then some
            { file with deny_write := false } else s.files g }) := deref_run hp
    rw [Exec.bind_run hderef', Exec.bind_run (Exec.ASSERT_run hpos _), Exec.bind_run (Exec.ASSERT_run hle _)]
    exact ⟨_, rfl, h.allow hf hdeny hp (Nat.le_refl _) rfl rfl, rfl, rfl⟩

/-- Closing a file leaves the other files alone. -/
theorem file_close_ends (h : Counted held s) (hf : s.files f = some file) :
    Ends (file_close (some f)) s fun _ s' => Counted held s' ∧
      s'.files = fun g => if g = f then none else s.files g := by
  obtain ⟨t, hallow, hcounted, hasked, hfiles⟩ := file_allow_write_run h hf
  obtain ⟨allowed, hallowed⟩ : ∃ g : filesys.file, g = { file with deny_write := false } := ⟨_, rfl⟩
  rw [← hallowed] at hfiles
  have hft : t.files f = some allowed := by simp [hfiles]
  have hdeny : allowed.deny_write = false := by rw [hallowed]
  have hderef : deref_file f t = .ok (allowed, t) := by simp only [deref_file, hft]
  obtain ⟨inode, hp⟩ := hcounted.inode_of_file hft
  rw [file_close]
  apply Exec.Ends.after hallow
  apply Exec.Ends.after hderef
  apply (inode_close_ends hp).bind
  rintro _ u ⟨hless, hfiles', hinodes⟩
  apply Exec.Ends.of_ok rfl
  refine ⟨?_, ?_⟩
  · -- The file hands its reference over, which is then dropped.
    have hdetached : Counted (acquire held allowed.inode) { t with
        files := fun g => if g = f then none else t.files g } :=
          hcounted.detach hft hdeny (Nat.le_refl _) rfl rfl
    have hclosed : Counted (release (acquire held allowed.inode) allowed.inode) { u with
        files := fun g => if g = f then none else u.files g } :=
      hdetached.close (acquire_pos held _) hp hless (congrArg
        (fun m g => if g = f then none else m g) hfiles') hinodes
    rwa [release_acquire] at hclosed
  · simp only [hfiles', hfiles]
    funext g
    split_ifs <;> rfl

/-- Moving bytes and the position of a file. -/
theorem file_moves_ends {α : Type} (h : Counted held s) (hf : s.files f = some file) (moved : α → Int)
    {code : Fs α} (hcode : LeavesOpen code) :
    Ends (do
      let a ← code
      let file ← deref_file f
      store_file f (some { file with pos := int32 (file.pos + moved a) })
      return a) s fun _ s' => Counted held s' := by
  apply (Exec.Ends.of_frame hcode fun _ _ => id).bind
  intro a t ht
  have hft : t.files f = some file := (congrFun ht.files f).trans hf
  have hderef : deref_file f t = .ok (file, t) := by simp only [deref_file, hft]
  apply Exec.Ends.after hderef
  exact Exec.Ends.of_ok rfl ((h.same ht).seek hft (Nat.le_refl _) rfl rfl)

theorem file_read_ends (h : Counted held s) (hf : s.files f = some file) (buffer : Bytes) (size : Int) :
    Ends (file_read f buffer size) s fun _ s' => Counted held s' := by
  have hderef : deref_file f s = .ok (file, s) := by simp only [deref_file, hf]
  apply Exec.Ends.after hderef
  exact file_moves_ends h hf Prod.fst (inode_read_at_reads _ _ _ _).leaves

theorem file_write_ends (h : Counted held s) (hf : s.files f = some file) (buffer : Bytes) (size : Int) :
    Ends (file_write f buffer size) s fun _ s' => Counted held s' := by
  have hderef : deref_file f s = .ok (file, s) := by simp only [deref_file, hf]
  apply Exec.Ends.after hderef
  exact file_moves_ends h hf id (inode_write_at_leaves _ _ _ _)

theorem free_map_open_ends (h : Counted held s) :
    Ends free_map_open s fun _ s' => Counted held s' := by
  apply (inode_open_ends h 0).bind
  intro p t ht
  apply (file_open_ends ht ?_).bind
  · intro f u hu
    have hcounted : Counted held u := by
      cases p with
      | none => exact hu
      | some p => simpa using hu
    apply Exec.Ends.after (Exec.modify_run _)
    cases f with
    | none => exact Exec.Ends.of_error rfl nofun
    | some f =>
      apply (Exec.Ends.of_frame (bitmap_read_leaves f) fun _ _ => id).bind
      intro ok v hv
      split_ifs
      · exact Exec.Ends.of_ok rfl (hcounted.same ⟨hv.files, hv.inodes, hv.open_inodes, hv.asked⟩)
      · exact Exec.Ends.of_error rfl nofun
  · rintro p rfl
    exact acquire_pos held p

end Functions

end pintos.filesys
