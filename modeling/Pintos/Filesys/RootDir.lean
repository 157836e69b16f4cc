import Pintos.Filesys.Questions

/-!
# Opening and closing the root directory

What `filesys_create` and its siblings do around their work: the root directory is opened, and
closing it puts the open inodes back as they were.
-/

open twos_complement bytes state_error

namespace pintos.filesys

/-- The inode in the sector is open. -/
def is_open (s : State) (sector : Nat) : Bool :=
  s.open_inodes.any fun p => (s.inodes p).any fun inode => inode.sector == sector

/-- How often opening the root directory asks for memory. -/
def root_questions (s : State) : Nat := if is_open s ROOT_DIR_SECTOR then 1 else 2

/-- A file system in use: its files on the device, the free map in its file, and the inodes that
are open. -/
structure Mounted (there : Set Nat) (s : State) : Prop where
  disk : Disk there s
  map : MapReady s (disk_inode s FREE_MAP_SECTOR)
  fresh : ∀ p, s.asked ≤ p → s.inodes p = none
  in_memory : ∀ p ∈ s.open_inodes, ∃ inode, s.inodes p = some inode ∧ 0 < inode.open_cnt
  root : ∀ p ∈ s.open_inodes, ∀ inode, s.inodes p = some inode → inode.sector = ROOT_DIR_SECTOR →
    inode.data = disk_inode s ROOT_DIR_SECTOR ∧ inode.removed = false

/-- One opener more of the inode `p`, which may have been read for it. -/
inductive OpenedBy (s : State) (p : Ptr) : State → Prop where
  | again {inode : inode} {asked : Nat} (hp : s.inodes p = some inode) (hcnt : 0 < inode.open_cnt)
      (hasked : s.asked ≤ asked) : OpenedBy s p { s with
        asked := asked
        inodes := fun q => if q = p then some { inode with open_cnt := inode.open_cnt + 1 } else s.inodes q }
  | first {inode : inode} {asked : Nat} (hp : s.inodes p = none) (hcnt : inode.open_cnt = 1)
      (hasked : s.asked ≤ asked) : OpenedBy s p { s with
        asked := asked
        open_inodes := p :: s.open_inodes
        inodes := fun q => if q = p then some inode else s.inodes q }

theorem OnlyAsked.only_device {s t : State} (h : OnlyAsked s t) (S : Nat → Prop) : OnlyDevice S s t := by
  rw [h.same]
  exact ⟨rfl, h.asked, rfl, fun _ _ => rfl⟩

section Opening

variable {there : Set Nat} {s t : State} {p : Ptr} {inode : inode}

theorem open_inode_at_first (sector : Nat) (l : List Ptr) (h : ∀ p ∈ l, ∃ inode, s.inodes p = some inode) :
    (∃ p ∈ l, ∃ inode, s.inodes p = some inode ∧ inode.sector = sector ∧
      open_inode_at sector l s = .ok (some p, s)) ∨
    (∀ p ∈ l, ∀ inode, s.inodes p = some inode → inode.sector ≠ sector) ∧
      open_inode_at sector l s = .ok (none, s) := by
  induction l with
  | nil => exact .inr ⟨nofun, rfl⟩
  | cons q l ih =>
    obtain ⟨inode, hq⟩ := h q (by simp)
    have hstep : open_inode_at sector (q :: l) s =
        (if inode.sector = sector then .ok (some q, s) else open_inode_at sector l s) := by
      rw [open_inode_at, Exec.bind_run (deref_run hq)]
      split_ifs <;> rfl
    by_cases hsector : inode.sector = sector
    · rw [if_pos hsector] at hstep
      exact .inl ⟨q, by simp, inode, hq, hsector, hstep⟩
    · rw [if_neg hsector] at hstep
      rw [hstep]
      obtain ⟨p, hp, hrest⟩ | ⟨hnone, hrest⟩ := ih fun p hp => h p (by simp [hp])
      · exact .inl ⟨p, by simp [hp], hrest⟩
      · refine .inr ⟨?_, hrest⟩
        intro p hp i hi
        obtain rfl | hp := List.mem_cons.mp hp
        · obtain rfl := Option.some.inj (hq.symm.trans hi)
          exact hsector
        · exact hnone p hp i hi

theorem is_open_eq_true (sector : Nat) : is_open s sector = true ↔
    ∃ p ∈ s.open_inodes, ∃ inode, s.inodes p = some inode ∧ inode.sector = sector := by
  simp only [is_open, List.any_eq_true, Option.any_eq_true, beq_iff_eq]

namespace OpenedBy

theorem oom (h : OpenedBy s p t) : t.oom = s.oom := by
  cases h <;> rfl

theorem asked (h : OpenedBy s p t) : s.asked ≤ t.asked := by
  cases h <;> assumption

theorem ask (h : OpenedBy s p t) : OpenedBy s p { t with asked := t.asked + 1 } := by
  cases h with
  | again hp hcnt hasked => exact .again hp hcnt (Nat.le_succ_of_le hasked)
  | first hp hcnt hasked => exact .first hp hcnt (Nat.le_succ_of_le hasked)

/-- The rest of the state is as it was. -/
theorem rest (h : OpenedBy s p t) : { t with inodes := s.inodes, open_inodes := s.open_inodes } =
    { s with asked := t.asked } := by
  cases h <;> rfl

end OpenedBy

/-- The inode that is closed again goes back to where it was. -/
theorem OpenedBy.inode_close (h : OpenedBy s p t) {u : State} (hinodes : u.inodes = t.inodes)
    (hopen : u.open_inodes = t.open_inodes) (hstays : ∀ inode, t.inodes p = some inode →
    inode.removed = false) :
    inode_close (some p) u = .ok ((), { u with inodes := s.inodes, open_inodes := s.open_inodes }) := by
  cases h with
  | @again inode asked hp hcnt hasked =>
    have hu : u.inodes p = some { inode with open_cnt := inode.open_cnt + 1 } := by simp [hinodes]
    have hne : ¬ inode.open_cnt + 1 - 1 = 0 := by omega
    rw [filesys.inode_close, Exec.bind_run (deref_run hu), store_inode,
      Exec.bind_run (Exec.modify_run _), if_neg hne]
    have hback : (fun q => if q = p then some
        { inode with open_cnt := inode.open_cnt + 1 - 1 } else u.inodes q) =
        s.inodes := by
      funext q
      split_ifs with hq
      · rw [hq, hp, Int.add_sub_cancel]
      · simp [hinodes, hq]
    simp only at hopen
    rw [Exec.pure_run, hback, ← hopen]
  | @first inode asked hp hcnt hasked =>
    have hu : u.inodes p = some inode := by simp [hinodes]
    rw [inode_close_last hu hcnt (hstays inode (by simp))]
    have hback : (fun q => if q = p then none else u.inodes q) = s.inodes := by
      funext q
      split_ifs with hq
      · rw [hq, hp]
      · simp [hinodes, hq]
    simp only at hopen
    rw [hback, hopen, List.erase_cons_head]

/-- The root directory has been opened as `p`. -/
structure RootOpened (s : State) (p : Ptr) (t : State) : Prop where
  opened : OpenedBy s p t
  inode : ∃ inode, t.inodes p = some inode ∧ inode.data = disk_inode s ROOT_DIR_SECTOR ∧ inode.removed = false

theorem Mounted.inode_open (h : Mounted there s) : Ends (inode_open ROOT_DIR_SECTOR) s fun r t =>
    (r = none → t = { s with asked := s.asked + 1 } ∧ ¬ Memory s (root_questions s - 1)) ∧
    ∀ p, r = some p → RootOpened s p t ∧ t.asked = s.asked + (root_questions s - 1) ∧
      Memory s (root_questions s - 1) := by
  have hmemory : ∀ p ∈ s.open_inodes, ∃ inode, s.inodes p = some inode := by
    intro p hp
    obtain ⟨inode, hinode, -⟩ := h.in_memory p hp
    exact ⟨inode, hinode⟩
  rw [filesys.inode_open]
  apply Exec.Ends.after Exec.get_run
  obtain ⟨p, hp, inode, hinode, hsector, hfound⟩ | ⟨hnone, hfound⟩ :=
    open_inode_at_first ROOT_DIR_SECTOR s.open_inodes hmemory
  · have hquestions : root_questions s = 1 := by
      rw [root_questions, if_pos ((is_open_eq_true _).mpr ⟨p, hp, inode, hinode, hsector⟩)]
    obtain ⟨hdata, hremoved⟩ := h.root p hp inode hinode hsector
    obtain ⟨inode', hinode', hcnt⟩ := h.in_memory p hp
    obtain rfl := Option.some.inj (hinode.symm.trans hinode')
    apply Exec.Ends.after hfound
    apply Exec.Ends.after (Exec.bind_run (deref_run hinode))
    apply Exec.Ends.of_ok rfl
    refine ⟨by rintro ⟨⟩, ?_⟩
    rintro q ⟨⟩
    rw [hquestions]
    exact ⟨⟨.again hinode hcnt (Nat.le_refl _), _, if_pos rfl, hdata, hremoved⟩, rfl, memory_zero⟩
  · have hclosed : ¬ is_open s ROOT_DIR_SECTOR = true := by
      rw [is_open_eq_true]
      rintro ⟨p, hp, inode, hinode, hsector⟩
      exact hnone p hp inode hinode hsector
    have hquestions : root_questions s = 2 := by rw [root_questions, if_neg hclosed]
    rw [hquestions]
    apply Exec.Ends.after hfound
    apply (malloc_ends s).bind
    rintro r t ⟨rfl, hblock, hgot⟩
    cases r with
    | none =>
      apply Exec.Ends.of_ok rfl
      refine ⟨fun _ => ⟨rfl, ?_⟩, by rintro _ ⟨⟩⟩
      rw [memory_one, hgot.mp rfl]
      simp
    | some p =>
      obtain rfl := hblock p rfl
      have hoom : s.oom s.asked = false := by simpa using hgot
      apply Exec.Ends.after (Exec.modify_run _)
      apply (block_read_ends _ _).bind
      rintro data t ⟨rfl, rfl⟩
      apply Exec.Ends.after (Exec.modify_run _)
      apply Exec.Ends.of_ok rfl
      refine ⟨by rintro ⟨⟩, ?_⟩
      rintro q ⟨⟩
      exact ⟨⟨.first (h.fresh _ (Nat.le_refl _)) rfl (Nat.le_succ _), _, if_pos rfl, rfl, rfl⟩, rfl,
        memory_one.mpr hoom⟩

theorem root_questions_pos (s : State) : root_questions s = (root_questions s - 1) + 1 := by
  rw [root_questions]
  split_ifs <;> rfl

/-- The root directory is opened, or memory is out and nothing has changed. -/
theorem Mounted.dir_open_root (h : Mounted there s) : Ends dir_open_root s fun r t =>
    (r = none → OnlyAsked s t ∧ ¬ Memory s (root_questions s)) ∧
    ∀ d, r = some d → RootOpened s d.inode t ∧ t.asked = s.asked + root_questions s ∧
      Memory s (root_questions s) := by
  rw [filesys.dir_open_root]
  apply h.inode_open.bind
  rintro r t ⟨hnone, hsome⟩
  rw [dir_open]
  apply (malloc_ends t).bind
  rintro b u ⟨rfl, -, hgot⟩
  rw [root_questions_pos, memory_add, memory_one]
  cases r with
  | none =>
    obtain ⟨rfl, hmemory⟩ := hnone rfl
    apply Exec.Ends.of_ok rfl
    refine ⟨fun _ => ⟨⟨rfl, ?_⟩, fun hall => hmemory hall.1⟩, by rintro _ ⟨⟩⟩
    exact (Nat.le_succ _).trans (Nat.le_succ _)
  | some p =>
    obtain ⟨hopened, hasked, hmemory⟩ := hsome p rfl
    obtain ⟨inode, hinode, -, hremoved⟩ := hopened.inode
    cases b with
    | some b =>
      apply Exec.Ends.of_ok rfl
      refine ⟨by rintro ⟨⟩, ?_⟩
      rintro d ⟨⟩
      have hoom : s.oom (s.asked + (root_questions s - 1)) = false := by
        rw [← hasked, ← hopened.opened.oom]
        simpa using hgot
      refine ⟨⟨hopened.opened.ask, hopened.inode⟩, ?_, hmemory, hoom⟩
      simp only
      omega
    | none =>
      have hstays : ∀ i, t.inodes p = some i → i.removed = false := by
        intro i hi
        obtain rfl := Option.some.inj (hinode.symm.trans hi)
        exact hremoved
      have hclose := hopened.opened.inode_close (u := { t with asked := t.asked + 1 }) rfl rfl hstays
      have hoom : s.oom (s.asked + (root_questions s - 1)) = true := by
        rw [← hasked, ← hopened.opened.oom]
        exact hgot.mp rfl
      apply Exec.Ends.after hclose
      apply Exec.Ends.of_ok rfl
      refine ⟨fun _ => ⟨⟨?_, ?_⟩, ?_⟩, by rintro _ ⟨⟩⟩
      · exact congrArg (fun v : State => { v with asked := t.asked + 1 }) hopened.opened.rest
      · exact Nat.le_succ_of_le hopened.opened.asked
      · rintro ⟨-, hnot⟩
        simp only at hnot
        rw [hoom] at hnot
        cases hnot

end Opening

section Entering

variable {s : State} {d : dir} {inode : inode}

theorem lookup_loop_reads (d : dir) (name : List Byte) (n ofs : Nat) (e : Bytes) :
    Reads (lookup_loop d name n ofs e) := by
  induction n generalizing ofs e with
  | zero => exact Exec.Frame.throw nofun
  | succ n ih =>
    apply Exec.Frame.bind (inode_read_at_reads _ _ _ _)
    rintro ⟨bytes_read, e⟩
    simp only
    split_ifs
    · exact Exec.Frame.pure _
    · exact ih _ _
    · exact Exec.Frame.pure _

theorem entry_turns_reads (d : dir) : Reads (entry_turns d) :=
  Exec.Frame.bind (deref_reads _) fun _ => Exec.Frame.pure _

theorem lookup_reads (d : dir) (name : List Byte) : Reads (lookup d name) := by
  apply Exec.Frame.bind (entry_turns_reads d)
  intro turns
  exact Exec.Frame.bind Exec.Frame.get fun _ => lookup_loop_reads _ _ _ _ _

/-- An entry is read as a whole only inside the directory. -/
theorem read_entry_inside (hp : s.inodes d.inode = some inode)
    (hon : OnDevice s.fs_device inode.data) (e : Bytes)
    {ofs : Nat} (ho : (ofs : Int) ≤ inode.data.length) :
    Ends (inode_read_at d.inode e ENTRY_SIZE ofs) s fun r _ =>
      r.1 = ENTRY_SIZE → ((ofs + ENTRY_SIZE : Nat) : Int) ≤ inode.data.length := by
  have hle := hon.length_le
  obtain ⟨n, asked, hrun, -, hstop⟩ := inode_read_at_run hp hon e (show ofs ≤ 2147483647 by omega)
    (show ((ENTRY_SIZE : Nat) : Int) ≤ 2147483647 by decide)
  apply Exec.Ends.of_ok hrun
  intro hfull
  have hmoved := hstop.le
  simp only [transfer_size, ENTRY_SIZE] at *
  omega

/-- The free slot is at an entry of the directory, or at its end. -/
theorem free_slot_loop_ends (n : Nat) : ∀ (ofs : Nat) (e : Bytes) (s : State), s.inodes d.inode = some inode →
    OnDevice s.fs_device inode.data → 20 ∣ ofs → (ofs : Int) ≤ inode.data.length →
    Ends (free_slot_loop d n ofs e) s fun r t => OnlyAsked s t ∧ 20 ∣ r.2 ∧ (r.2 : Int) ≤
      inode.data.length := by
  induction n with
  | zero => exact fun _ _ _ _ _ _ _ => Exec.Ends.of_error rfl nofun
  | succ n ih =>
    intro ofs e s hp hon hdvd hle
    have hinside := read_entry_inside hp hon e hle
    have hreads := Exec.Ends.of_frame (s := s) (inode_read_at_reads d.inode e ENTRY_SIZE ofs) fun _ _ => id
    rw [free_slot_loop]
    apply (Exec.Ends.and hreads hinside).bind
    rintro ⟨bytes_read, e'⟩ t ⟨hasked, hfull⟩
    simp only at hfull ⊢
    split_ifs with hread hfree
    · exact Exec.Ends.of_ok rfl ⟨hasked, hdvd, hle⟩
    · have hpt : t.inodes d.inode = some inode := by
        rw [hasked.same]
        exact hp
      have hont : OnDevice t.fs_device inode.data := by
        rw [hasked.same]
        exact hon
      have hnext : 20 ∣ ofs + ENTRY_SIZE := by
        simp only [ENTRY_SIZE]
        omega
      apply (ih _ _ t hpt hont hnext (hfull hread)).mono
      rintro r u ⟨hasked', hrest⟩
      exact ⟨IsTrans.trans _ _ _ hasked hasked', hrest⟩
    · exact Exec.Ends.of_ok rfl ⟨hasked, hdvd, hle⟩

/-- An entry is written as a whole or not at all: it lies in one sector. -/
theorem write_entry_fails (hp : s.inodes d.inode = some inode) (hon : OnDevice s.fs_device inode.data)
    (hlength : inode.data.length = 320) (e : Bytes) {ofs : Nat} (hdvd : 20 ∣ ofs) (hofs : (ofs : Int) ≤ 320) :
    Ends (inode_write_at d.inode e ENTRY_SIZE ofs) s fun r t => r ≠ ENTRY_SIZE → OnlyAsked s t := by
  by_cases hdeny : inode.deny_write_cnt = 0
  · obtain ⟨n, asked, hrun, hasked, hstop⟩ := inode_write_at_run hp hdeny hon e (show ofs ≤ 2147483647 by omega)
      (show ((ENTRY_SIZE : Nat) : Int) ≤ 2147483647 by decide)
    apply Exec.Ends.of_ok hrun
    intro hpart
    have hzero : n = 0 := by
      simp only [Stopped, transfer_size, hlength, ENTRY_SIZE] at hstop hpart
      obtain hfull | ⟨hless, hwhere, -⟩ := hstop
      · omega
      · obtain hzero | hsector := hwhere
        · exact hzero
        · have hend := Nat.eq_zero_of_dvd_of_lt hsector (show ofs + n < 512 by omega)
          omega
    rw [hzero, block.overwrite_zero]
    exact ⟨rfl, hasked⟩
  · rw [inode_write_at]
    apply Exec.Ends.after (deref_run hp)
    rw [if_pos hdeny]
    exact Exec.Ends.of_ok rfl fun _ => Std.Refl.refl s

/-- A name that is not entered leaves the directory as it is. -/
theorem dir_add_fails (hp : s.inodes d.inode = some inode) (hon : OnDevice s.fs_device inode.data)
    (hlength : inode.data.length = 320) (name : List Byte) (sector : Nat) :
    Ends (dir_add d name sector) s fun r t => r = false → OnlyAsked s t := by
  rw [dir_add]
  split_ifs with hname
  · exact Exec.Ends.of_ok rfl fun _ => Std.Refl.refl s
  · apply (Exec.Ends.of_frame (lookup_reads d name) fun _ _ => id).bind
    intro found t ht
    cases found with
    | some found => exact Exec.Ends.of_ok rfl fun _ => ht
    | none =>
      apply (Exec.Ends.of_frame (entry_turns_reads d) fun _ _ => id).bind
      intro turns u hu
      have hsu := IsTrans.trans _ _ _ ht hu
      have hpu : u.inodes d.inode = some inode := by
        rw [hsu.same]
        exact hp
      have honu : OnDevice u.fs_device inode.data := by
        rw [hsu.same]
        exact hon
      apply Exec.Ends.after Exec.get_run
      apply (free_slot_loop_ends turns 0 u.garbage u hpu honu (Nat.dvd_zero 20) (by omega)).bind
      rintro ⟨e, ofs⟩ v ⟨huv, hdvd, hofs⟩
      have hsv := IsTrans.trans _ _ _ hsu huv
      have hpv : v.inodes d.inode = some inode := by
        rw [hsv.same]
        exact hp
      have honv : OnDevice v.fs_device inode.data := by
        rw [hsv.same]
        exact hon
      rw [hlength] at hofs
      apply (write_entry_fails hpv honv hlength (dir_entry.set e name sector) hdvd hofs).bind
      intro r w hw
      apply Exec.Ends.of_ok rfl
      intro hr
      exact IsTrans.trans _ _ _ hsv (hw (by simpa using hr))

end Entering

end pintos.filesys
