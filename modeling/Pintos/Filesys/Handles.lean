import Pintos.Filesys.Closing

/-!
# Open files of users (`filesys/file.c`)

What opening, closing and moving in a file leave of a file system in order.
-/

open twos_complement bytes state_error ownership

namespace pintos.filesys

/-- `file_length`. -/
def file_length (f : Ptr) : Fs Int := do
  let file ← deref_file f
  let inode ← deref file.inode
  return inode_length inode

/-- `file_seek`. -/
def file_seek (f : Ptr) (new_pos : Int) : Fs Unit := do
  Exec.ASSERT (new_pos ≥ 0) .negative_length
  let file ← deref_file f
  store_file f (some { file with pos := new_pos })

/-- `file_tell`. -/
def file_tell (f : Ptr) : Fs Int := do
  let file ← deref_file f
  return file.pos

variable {held : Ptr → Nat} {s t u : State} {p f : Ptr} {inode : filesys.inode} {file : filesys.file} {k : Nat}

/-- A step that changes one open file for users and leaves the file system in order. -/
structure Handled (held : Ptr → Nat) (f : Ptr) (v : Option OpenFile) (s t : State) : Prop extends Calm s t where
  sound : Sound held t
  there : There t = There s
  handle : handle t = Function.update (filesys.handle s) f v

section Files

variable {held' : Ptr → Nat}

/-- The open files are the same but for one of a user. -/
theorem keeps_files {v : Option filesys.file} (hf : s.free_map_file ≠ some f)
    (hfiles : t.files = fun g => if g = f then v else s.files g)
    (hv : ∀ file i, v = some file → t.inodes file.inode = some i → UserSector i.sector) : KeepsFiles s t := by
  intro g
  rw [hfiles]
  simp only
  split_ifs with hg
  · exact .inr ⟨hg ▸ hf, hv⟩
  · exact .inl rfl

theorem handle_update {v : Option filesys.file} (h : Counted held s) (h' : Counted held' t)
    (hfiles : t.files = fun g => if g = f then v else s.files g)
    (hagree : ∀ q i j, s.inodes q = some i → t.inodes q = some j → j.sector = i.sector) :
    handle t = Function.update (handle s) f (handle t f) := by
  funext g
  by_cases hg : g = f
  · rw [hg, Function.update_self]
  · rw [Function.update_of_ne hg]
    have hsame : t.files g = s.files g := by
      rw [hfiles]
      exact if_neg hg
    cases hf : s.files g with
    | none => simp [handle, hsame, hf]
    | some file =>
      have hf' : t.files g = some file := hsame.trans hf
      obtain ⟨i, hi⟩ := h.inode_of_file hf
      obtain ⟨j, hj⟩ := h'.inode_of_file hf'
      rw [handle_run hf hi, handle_run hf' hj, hagree _ i j hi hj]

/-- One open file of a user changes, and no inode. -/
theorem Sound.on_file (h : Sound held s) (hf : s.free_map_file ≠ some f) {v : Option filesys.file} {asked : Nat}
    (hasked : s.asked ≤ asked) (ht : t = { s with
      asked := asked
      files := fun g => if g = f then v else s.files g })
    (hv : ∀ file i, v = some file → s.inodes file.inode = some i → UserSector i.sector)
    (hcounted : Counted held' t) : Handled held' f (filesys.handle t f) s t := by
  have hinodes : t.inodes = s.inodes ∧ t.open_inodes = s.open_inodes := by
    rw [ht]
    exact ⟨rfl, rfl⟩
  have hfiles : t.files = fun g => if g = f then v else s.files g := by rw [ht]
  have hdevice : SameDevice s t := by
    rw [ht]
    exact ⟨rfl, rfl, rfl, rfl, hasked⟩
  have hthere : There t = There s := there_congr (fun k => hdevice.named_iff) hinodes.1
  have hagree : ∀ q i j, s.inodes q = some i → t.inodes q = some j → j.sector = i.sector := by
    intro q i j hi hj
    rw [hinodes.1, hi] at hj
    rw [Option.some.inj hj]
  refine ⟨hdevice.calm, h.in_memory hdevice hthere.subset hcounted
    (keeps_files hf hfiles ?_) hagree ?_ ?_ ?_ ?_ ?_,
    hthere, handle_update h.counted hcounted hfiles hagree⟩
  · rw [hinodes.1]
    exact hv
  · rw [hinodes.1, hinodes.2]
    exact h.listed
  · rw [hinodes.2]
    exact h.nodup
  · rw [hinodes.1]
    exact h.one_inode
  · rw [hinodes.1]
    exact h.data
  · rw [hinodes.1]
    exact h.removed

/-- One open file of a user changes, and the counts of its inode. -/
theorem Sound.on_file_inode (h : Sound held s) (hf : s.free_map_file ≠ some f) (hstruct : s.files f = some file)
    (hp : s.inodes file.inode = some inode) {deny_write : Bool} {deny_write_cnt : Int} (ht : t = { s with
      files := fun g => if g = f then some { file with deny_write } else s.files g
      inodes := fun q => if q = file.inode then some { inode with deny_write_cnt } else s.inodes q })
    (hcounted : Counted held t) :
    Handled held f (some { file := inode.sector, pos := file.pos, deny_write }) s t := by
  have hfiles : t.files = fun g => if g = f then some { file with deny_write } else s.files g := by rw [ht]
  have huser : ∀ i, t.inodes file.inode = some i → i.sector = inode.sector := by
    intro i hi
    rw [ht] at hi
    simp only [if_true] at hi
    rw [← Option.some.inj hi]
  have hkeeps : KeepsFiles s t := by
    refine keeps_files hf hfiles ?_
    rintro file' i ⟨⟩ hi
    rw [huser i hi]
    exact h.user_files f file inode hstruct hf hp
  obtain ⟨hsound, hcalm, hthere, hagree⟩ := @Sound.restate _ _ t _ _ _ h hp
    { inode with deny_write_cnt } rfl rfl (h.removed _ inode hp) _ ht hkeeps hcounted
  have hself : filesys.handle t f = some { file := inode.sector, pos := file.pos, deny_write } := by
    have hopen : t.files f = some { file with deny_write } := by
      rw [hfiles]
      exact if_pos rfl
    have hinode : t.inodes file.inode = some { inode with deny_write_cnt } := by
      rw [ht]
      exact if_pos rfl
    rw [handle_run hopen hinode]
  exact ⟨hcalm, hsound, hthere, hself ▸ handle_update h.counted hcounted hfiles hagree⟩

end Files

section Calls

/-- A file is attached to an inode that is open, or memory is out and the inode is closed. -/
theorem Sound.file_open (h : Sound held s) (hheld : 0 < held p) (hp : s.inodes p = some inode)
    (huser : UserSector inode.sector) : Returns (file_open (some p)) s fun r t =>
      (∀ f, r = some f → s.files f = none ∧ s.free_map_file ≠ some f ∧ Handled (release held p) f
        (some { file := inode.sector, pos := 0, deny_write := false }) s t) ∧
      (r = none → OutOfMemory s ∧ Closed held p inode s t) := by
  have hnone : s.files s.asked = none := h.counted.files _ (Nat.le_refl _)
  have hmap : s.free_map_file ≠ some s.asked := by
    obtain ⟨g, file, -, hg, hfile, -⟩ := h.map_file
    rw [hg]
    rintro ⟨⟩
    rw [hnone] at hfile
    cases hfile
  rw [filesys.file_open]
  apply (malloc_returns s).bind
  rintro r t ⟨rfl, hblock, hout⟩
  cases r with
  | some f =>
    obtain rfl := hblock f rfl
    apply Exec.Ends.after (Exec.modify_run _)
    refine Exec.Ends.of_ok rfl ⟨?_, by intros; contradiction⟩
    rintro g ⟨⟩
    have hhandled := h.on_file hmap (Nat.le_succ _) rfl (v :=
        some { inode := p, pos := 0, deny_write := false })
      (by
        rintro file i ⟨⟩ hi
        obtain rfl := Option.some.inj (hp.symm.trans hi)
        exact huser)
      (h.counted.attach hheld (Nat.le_succ _) (Nat.le_refl _) (Nat.lt_succ_self _) rfl rfl)
    rw [handle_run (if_pos rfl) hp] at hhandled
    exact ⟨hnone, hmap, hhandled⟩
  | none =>
    have hasked : OnlyAsked s { s with asked := s.asked + 1 } := ⟨rfl, Nat.le_succ _⟩
    apply ((h.only_asked hasked).sound.inode_close hheld hp).bind
    intro _ u hclosed
    refine Exec.Ends.of_ok rfl ⟨by intros; contradiction, fun _ => ⟨hout rfl, ?_⟩⟩
    obtain ⟨hcalm, hsound, hthere, hothers, hfiles, hhandle, hstays, hgone, hagree, hfreed⟩ := hclosed
    exact ⟨(h.only_asked hasked).toCalm.trans hcalm Set.inter_subset_left, hsound, hthere, hothers,
      hfiles, hhandle,
      hstays, hgone, hagree, hfreed⟩

theorem Sound.handled_refl (h : Sound held s) (f : Ptr) : Handled held f (filesys.handle s f) s s :=
  ⟨⟨rfl, rfl, Nat.le_refl _, rfl, Untouched.of_device rfl, fun _ _ _ _ => rfl, fun _ _ _ => rfl⟩, h, rfl,
    by simp⟩

theorem deref_beside (hp : s.inodes p = some inode) (files : Ptr → Option filesys.file) :
    deref p { s with files := files } = .ok (inode, { s with files := files }) :=
  deref_run hp

/-- A file denies writes. -/
theorem Sound.file_deny_write (h : Sound held s) (hf : s.free_map_file ≠ some f)
    (hstruct : s.files f = some file)
    (hp : s.inodes file.inode = some inode) : Returns (file_deny_write f) s fun _ t =>
      Handled held f (some { file := inode.sector, pos := file.pos, deny_write := true }) s t := by
  rw [filesys.file_deny_write]
  apply Exec.Ends.after (deref_file_run hstruct)
  cases hdeny : file.deny_write with
  | true =>
    have hrefl := h.handled_refl f
    rw [handle_run hstruct hp, hdeny] at hrefl
    exact Exec.Ends.of_ok rfl hrefl
  | false =>
    have hcounted := @Counted.deny _ _ { s with
      files := fun g => if g = f then some { file with deny_write := true } else s.files g
      inodes := fun q => if q = file.inode then
        some { inode with deny_write_cnt := inode.deny_write_cnt + 1 } else s.inodes q } _ _ _ h.counted hstruct hdeny hp
      (Nat.le_refl _) rfl rfl
    have hle := hcounted.deny_write_cnt_le (if_pos rfl)
    rw [if_pos (by simp)]
    apply Exec.Ends.after (Exec.modify_run _)
    rw [inode_deny_write]
    apply Exec.Ends.after (deref_beside hp _)
    apply Exec.Ends.after (Exec.modify_run _)
    exact Exec.Ends.of_ok (Exec.ASSERT_run hle _) (h.on_file_inode hf hstruct hp rfl hcounted)

/-- A file stops denying writes. -/
theorem Sound.file_allow_write (h : Sound held s) (hf : s.free_map_file ≠ some f)
    (hstruct : s.files f = some file)
    (hp : s.inodes file.inode = some inode) : Returns (file_allow_write f) s fun _ t =>
      t.files f = some { file with deny_write := false } ∧
      (∃ i, t.inodes file.inode = some i ∧ i.sector = inode.sector ∧ i.open_cnt = inode.open_cnt) ∧
      Handled held f (some { file := inode.sector, pos := file.pos, deny_write := false }) s t := by
  rw [filesys.file_allow_write]
  apply Exec.Ends.after (deref_file_run hstruct)
  cases hdeny : file.deny_write with
  | false =>
    have hrefl := h.handled_refl f
    rw [handle_run hstruct hp, hdeny] at hrefl
    have hsame : { file with deny_write := false } = file := by rw [← hdeny]
    exact Exec.Ends.of_ok rfl ⟨hsame ▸ hstruct, ⟨inode, hp, rfl, rfl⟩, hrefl⟩
  | true =>
    have hpos := h.counted.deny_write_cnt_pos hstruct hdeny hp
    have hle := h.counted.deny_write_cnt_le hp
    rw [if_pos rfl]
    apply Exec.Ends.after (Exec.modify_run _)
    rw [inode_allow_write]
    apply Exec.Ends.after (deref_beside hp _)
    apply Exec.Ends.after (Exec.ASSERT_run hpos _)
    apply Exec.Ends.after (Exec.ASSERT_run hle _)
    refine Exec.Ends.of_ok (Exec.modify_run _) ⟨if_pos rfl, ⟨_, if_pos rfl, rfl, rfl⟩, ?_⟩
    exact h.on_file_inode hf hstruct hp rfl (h.counted.allow hstruct hdeny hp (Nat.le_refl _) rfl rfl)

/-- What closing a file leaves behind. -/
structure FileClosed (held : Ptr → Nat) (f : Ptr) (k : Nat) (s t : State) : Prop extends Calm s t where
  sound : Sound held t
  there : There t ⊆ There s
  others : ∀ l ∈ There s, l ≠ k → l ∈ There t
  handle : handle t = Function.update (filesys.handle s) f none

theorem Sound.file_close (h : Sound held s) (hf : s.free_map_file ≠ some f) (hstruct : s.files f = some file)
    (hp : s.inodes file.inode = some inode) :
    Returns (file_close (some f)) s fun _ t => FileClosed held f inode.sector s t := by
  rw [filesys.file_close]
  apply (h.file_allow_write hf hstruct hp).bind
  rintro _ t ⟨hstruct', ⟨i, hi, hsector, -⟩, hallowed⟩
  apply Exec.Ends.after (deref_file_run hstruct')
  have hmap : t.free_map_file ≠ some f := hallowed.map_file ▸ hf
  -- The file hands its reference over, which is then dropped.
  have hdetached := hallowed.sound.on_file (v := none) hmap (Nat.le_refl _) rfl
      (fun _ _ hnone => by cases hnone)
    (hallowed.sound.counted.detach hstruct' rfl (Nat.le_refl _) rfl rfl)
  have hnone : filesys.handle { t with files := fun g => if g = f then none else t.files g } f = none := by
    simp [filesys.handle]
  rw [hnone] at hdetached
  have hkept : ∀ g, t.free_map_file = some g → t.files g = if g = f then none else t.files g := by
    intro g hg
    rw [if_neg]
    rintro rfl
    exact hmap hg
  apply (hdetached.sound.inode_close_beside hkept (acquire_pos held _) hi).bind
  rintro _ u ⟨hfiles, hclosed⟩
  have hstore : store_file f none u = .ok ((),
      { u with files := fun g => if g = f then none else t.files g }) := by
    rw [store_file, Exec.modify_run, hfiles]
  apply Exec.Ends.of_ok hstore
  obtain ⟨hcalm, hsound, hthere, hothers, -, hhandle, -⟩ := hclosed
  rw [release_acquire] at hsound
  rw [hdetached.there, hallowed.there] at hthere hothers
  refine ⟨?_, hsound, hthere, fun l hl hne => hothers l hl (hsector ▸ hne), ?_⟩
  · refine (hallowed.toCalm.trans hdetached.toCalm ?_).trans hcalm ?_
    · exact hallowed.there ▸ Set.inter_subset_left
    · rw [hdetached.there, hallowed.there]
      exact Set.inter_subset_left
  · rw [hhandle, hdetached.handle, hallowed.handle, Function.update_idem]

/-- A file of the same inode is opened, or memory is out. -/
theorem Sound.file_reopen (h : Sound held s) (hf : s.free_map_file ≠ some f) (hstruct : s.files f = some file)
    (hp : s.inodes file.inode = some inode) : Returns (file_reopen f) s fun r t =>
      (∀ g, r = some g → s.files g = none ∧ s.free_map_file ≠ some g ∧ Handled held g
        (some { file := inode.sector, pos := 0, deny_write := false }) s t) ∧
      (r = none → OutOfMemory s ∧ Sound held t ∧ Calm s t ∧ There t = There s ∧ handle t = handle s) := by
  rw [filesys.file_reopen]
  apply Exec.Ends.after (deref_file_run hstruct)
  apply Exec.Ends.after (Exec.bind_run (deref_run hp))
  have hreopened := h.recount hp rfl (h.counted.reopen hp (Nat.le_refl _) rfl rfl)
  have huser := h.user_files f file inode hstruct hf hp
  apply (hreopened.sound.file_open (acquire_pos held _) (if_pos rfl) huser).mono
  rintro r t ⟨hopened, hclosed⟩
  refine ⟨fun g hg => ?_, fun hr => ?_⟩
  · obtain ⟨hnone, hmap, hcalm, hsound, hthere, hhandle⟩ := hopened g hg
    rw [release_acquire] at hsound
    refine ⟨hnone, hmap, hreopened.toCalm.trans hcalm ?_, hsound, hthere.trans hreopened.there, ?_⟩
    · exact hreopened.there ▸ Set.inter_subset_left
    · rw [hhandle, hreopened.handle]
  · obtain ⟨hout, hcalm, hsound, -, -, -, hhandle, hstays, -⟩ := hclosed hr
    rw [release_acquire] at hsound
    -- The file itself has the inode open.
    have hmore : inode.open_cnt + 1 ≠ 1 := by
      obtain ⟨hpos, hopen, -⟩ := h.counted.at_inode hp
      omega
    refine ⟨hout, hsound, hreopened.toCalm.trans hcalm ?_, (hstays hmore).trans hreopened.there,
      hhandle.trans hreopened.handle⟩
    exact hreopened.there ▸ Set.inter_subset_left

theorem handle_store (hp : s.inodes file.inode = some inode) :
    handle { s with files := fun g => if g = f then some file else s.files g } f =
      some { file := inode.sector, pos := file.pos, deny_write := file.deny_write } :=
  handle_run (s := { s with files := fun g => if g = f then some file else s.files g }) (if_pos rfl) hp

/-- The position of a file changes. -/
theorem Sound.set_pos (h : Sound held s) (hf : s.free_map_file ≠ some f) (hstruct : s.files f = some file)
    (hp : s.inodes file.inode = some inode) (pos : Int) : Returns
    (store_file f (some { file with pos := pos })) s
      fun _ t => t.fs_device = s.fs_device ∧
        Handled held f (some { file := inode.sector, pos, deny_write := file.deny_write }) s t := by
  refine Exec.Ends.of_ok (Exec.modify_run _) ⟨rfl, ?_⟩
  have hhandled := h.on_file hf (Nat.le_refl _) rfl (v := some { file with pos := pos })
    (by
      rintro file' i ⟨⟩ hi
      exact h.user_files f file i hstruct hf hi)
    (h.counted.seek hstruct (Nat.le_refl _) rfl rfl)
  rwa [@handle_store s f inode { file with pos := pos } hp] at hhandled

theorem Sound.file_seek (h : Sound held s) (hf : s.free_map_file ≠ some f) (hstruct : s.files f = some file)
    (hp : s.inodes file.inode = some inode) {pos : Int} (hpos : 0 ≤ pos) : Returns (file_seek f pos) s
      fun _ t => Handled held f (some { file := inode.sector, pos, deny_write := file.deny_write }) s t := by
  rw [filesys.file_seek]
  apply Exec.Ends.after (Exec.ASSERT_run hpos _)
  apply Exec.Ends.after (deref_file_run hstruct)
  exact (h.set_pos hf hstruct hp pos).mono fun _ _ => And.right

theorem file_tell_run (hstruct : s.files f = some file) : file_tell f s = .ok (file.pos, s) := by
  rw [file_tell, Exec.bind_run (deref_file_run hstruct)]
  rfl

theorem Sound.file_length_run (h : Sound held s) (hstruct : s.files f = some file)
    (hp : s.inodes file.inode = some inode) :
    file_length f s = .ok ((disk_inode s inode.sector).length, s) := by
  rw [file_length, Exec.bind_run (deref_file_run hstruct), Exec.bind_run (deref_run hp), inode_length,
    h.data _ inode hp]
  rfl

end Calls

end pintos.filesys
