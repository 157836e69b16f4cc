import Pintos.Filesys.Inode

/-!
# What transfers leave alone

Reading and writing, and what the free map does on the device, change neither the open files
nor the open inodes.
-/

open twos_complement bytes state_error

namespace pintos.filesys

/-- The same files and inodes are open. -/
structure SameOpen (s s' : State) : Prop where
  files : s'.files = s.files
  inodes : s'.inodes = s.inodes
  open_inodes : s'.open_inodes = s.open_inodes
  asked : s.asked ≤ s'.asked

namespace SameOpen

instance : Std.Refl SameOpen := ⟨fun _ => ⟨rfl, rfl, rfl, Nat.le_refl _⟩⟩

instance : IsTrans State SameOpen where
  trans _ _ _ h h' := ⟨h'.files.trans h.files, h'.inodes.trans h.inodes,
    h'.open_inodes.trans h.open_inodes, h.asked.trans h'.asked⟩

end SameOpen

/-- Nothing but questions for memory. -/
structure OnlyAsked (s s' : State) : Prop where
  same : s' = { s with asked := s'.asked }
  asked : s.asked ≤ s'.asked

namespace OnlyAsked

instance : Std.Refl OnlyAsked := ⟨fun _ => ⟨rfl, Nat.le_refl _⟩⟩

instance : IsTrans State OnlyAsked where
  trans _ _ _ h h' := ⟨by rw [h'.same, h.same], h.asked.trans h'.asked⟩

theorem same_open {s s' : State} (h : OnlyAsked s s') : SameOpen s s' := by
  rw [h.same]
  exact ⟨rfl, rfl, rfl, h.asked⟩

end OnlyAsked

/-- Any panic but that of a wrong `deny_write_cnt`. -/
def OtherPanic (e : Panic) : Prop := e ≠ .deny_write_cnt

/-- The code leaves the open files and inodes as they are. -/
abbrev LeavesOpen {α : Type} (code : Fs α) : Prop := Exec.Frame SameOpen OtherPanic code

/-- The code only reads, and asks for memory to do so. -/
abbrev Reads {α : Type} (code : Fs α) : Prop := Exec.Frame OnlyAsked OtherPanic code

theorem Reads.leaves {α : Type} {code : Fs α} (h : Reads code) : LeavesOpen code :=
  ⟨fun s a s' hok => (h.ok s a s' hok).same_open, h.error⟩

theorem malloc_reads : Reads malloc := by
  refine ⟨?_, nofun⟩
  rintro s a s' ⟨⟩
  exact ⟨rfl, Nat.le_succ _⟩

theorem block_read_reads (sector : Nat) : Reads (block_read sector) := by
  apply Exec.Frame.bind Exec.Frame.get
  intro s
  exact Exec.Frame.bind (Exec.Frame.ASSERT nofun) fun _ => Exec.Frame.pure _

theorem block_write_leaves (sector : Nat) (buffer : Bytes) : LeavesOpen (block_write sector buffer) := by
  apply Exec.Frame.bind Exec.Frame.get
  intro s
  apply Exec.Frame.bind (Exec.Frame.ASSERT nofun)
  intro _
  exact Exec.Frame.modify fun s => ⟨rfl, rfl, rfl, Nat.le_refl _⟩

theorem need_bounce_reads (bounce : Bool) : Reads (need_bounce bounce) := by
  rw [need_bounce]
  split_ifs
  · exact Exec.Frame.pure true
  · exact Exec.Frame.bind malloc_reads fun _ => Exec.Frame.pure _

theorem deref_reads (p : Ptr) : Reads (deref p) := by
  refine ⟨?_, ?_⟩
  · intro s a s' h
    cases hp : s.inodes p with
    | none => simp [deref, hp] at h
    | some inode =>
      obtain ⟨-, rfl⟩ : inode = a ∧ s = s' := by simpa [deref, hp] using h
      exact Std.Refl.refl s
  · intro s e h
    cases hp : s.inodes p with
    | none =>
      obtain rfl : Panic.wild_pointer = e := by simpa [deref, hp] using h
      exact nofun
    | some inode => simp [deref, hp] at h

theorem deref_file_reads (f : Ptr) : Reads (deref_file f) := by
  refine ⟨?_, ?_⟩
  · intro s a s' h
    cases hf : s.files f with
    | none => simp [deref_file, hf] at h
    | some file =>
      obtain ⟨-, rfl⟩ : file = a ∧ s = s' := by simpa [deref_file, hf] using h
      exact Std.Refl.refl s
  · intro s e h
    cases hf : s.files f with
    | none =>
      obtain rfl : Panic.wild_pointer = e := by simpa [deref_file, hf] using h
      exact nofun
    | some file => simp [deref_file, hf] at h

theorem inode_read_loop_reads (inode : inode) (buffer : Bytes) (size offset bytes_read : Int) (bounce : Bool) :
    Reads (inode_read_loop inode buffer size offset bytes_read bounce) := by
  induction hm : size.toNat using Nat.strong_induction_on generalizing buffer size offset bytes_read bounce with
  | _ m ih =>
    rw [inode_read_loop]
    by_cases hpos : size > 0
    · rw [if_pos hpos]
      by_cases hnone : chunk_size inode size offset ≤ 0
      · rw [dif_pos hnone]
        exact Exec.Frame.pure _
      · have hrest := fun sector ofs bounce => Exec.Frame.bind (block_read_reads sector) fun bytes =>
          ih _ (hm ▸ size_decreases hnone) (copy buffer bytes_read.toNat bytes ofs
            (chunk_size inode size offset).toNat) _ (int32 (offset + chunk_size inode size offset))
            (int32 (bytes_read + chunk_size inode size offset)) bounce rfl
        rw [dif_neg hnone]
        split_ifs with hfull
        · simp only [hfull.2] at hrest ⊢
          exact hrest _ _ _
        · apply Exec.Frame.bind (need_bounce_reads bounce)
          intro ok
          split_ifs
          · exact hrest _ _ _
          · exact Exec.Frame.pure _
    · rw [if_neg hpos]
      exact Exec.Frame.pure _

theorem inode_write_loop_leaves (inode : inode) (buffer : Bytes) (size offset bytes_written : Int)
    (bounce : Bool) :
    LeavesOpen (inode_write_loop inode buffer size offset bytes_written bounce) := by
  induction hm : size.toNat using Nat.strong_induction_on generalizing size offset bytes_written bounce with
  | _ m ih =>
    rw [inode_write_loop]
    by_cases hpos : size > 0
    · rw [if_pos hpos]
      by_cases hnone : chunk_size inode size offset ≤ 0
      · rw [dif_pos hnone]
        exact Exec.Frame.pure _
      · have hrest := fun sector bytes bounce => Exec.Frame.bind (block_write_leaves sector bytes) fun _ =>
          ih _ (hm ▸ size_decreases hnone) _ (int32 (offset + chunk_size inode size offset))
            (int32 (bytes_written + chunk_size inode size offset)) bounce rfl
        rw [dif_neg hnone]
        by_cases hfull : offset.tmod SECTOR_SIZE = 0 ∧ chunk_size inode size offset = SECTOR_SIZE
        · rw [if_pos hfull]
          exact hrest _ _ _
        · rw [if_neg hfull]
          apply Exec.Frame.bind (need_bounce_reads bounce).leaves
          intro ok
          cases ok with
          | false => exact Exec.Frame.pure _
          | true =>
            rw [if_pos rfl]
            split_ifs
            · exact Exec.Frame.bind (block_read_reads _).leaves fun _ => hrest _ _ _
            · exact Exec.Frame.bind (Exec.Frame.pure _) fun _ => hrest _ _ _
    · rw [if_neg hpos]
      exact Exec.Frame.pure _

theorem inode_read_at_reads (p : Ptr) (buffer : Bytes) (size offset : Int) :
    Reads (inode_read_at p buffer size offset) :=
  Exec.Frame.bind (deref_reads p) fun _ => inode_read_loop_reads _ _ _ _ _ _

theorem inode_write_at_leaves (p : Ptr) (buffer : Bytes) (size offset : Int) :
    LeavesOpen (inode_write_at p buffer size offset) := by
  apply Exec.Frame.bind (deref_reads p).leaves
  intro inode
  split_ifs
  · exact Exec.Frame.pure 0
  · exact inode_write_loop_leaves _ _ _ _ _ _

theorem file_write_at_leaves (f : Ptr) (buffer : Bytes) (size file_ofs : Int) :
    LeavesOpen (file_write_at f buffer size file_ofs) :=
  Exec.Frame.bind (deref_file_reads f).leaves fun _ => inode_write_at_leaves _ _ _ _

theorem file_read_at_reads (f : Ptr) (buffer : Bytes) (size file_ofs : Int) :
    Reads (file_read_at f buffer size file_ofs) :=
  Exec.Frame.bind (deref_file_reads f) fun _ => inode_read_at_reads _ _ _ _

theorem bitmap_write_leaves (f : Ptr) : LeavesOpen (bitmap_write f) := by
  apply Exec.Frame.bind Exec.Frame.get
  intro s
  exact Exec.Frame.bind (file_write_at_leaves _ _ _ _) fun _ => Exec.Frame.pure _

theorem bitmap_read_leaves (f : Ptr) : LeavesOpen (bitmap_read f) := by
  apply Exec.Frame.bind Exec.Frame.get
  intro s
  split_ifs
  · apply Exec.Frame.bind (file_read_at_reads _ _ _ _).leaves
    intro r
    apply Exec.Frame.bind (Exec.Frame.modify fun s => ⟨rfl, rfl, rfl, Nat.le_refl _⟩)
    exact fun _ => Exec.Frame.pure _
  · exact Exec.Frame.pure true

theorem bitmap_check_leaves (start cnt : Nat) : LeavesOpen (bitmap_check start cnt) := by
  apply Exec.Frame.bind Exec.Frame.get
  intro s
  exact Exec.Frame.bind (Exec.Frame.ASSERT nofun) fun _ => Exec.Frame.ASSERT nofun

theorem bitmap_set_multiple_leaves (start cnt : Nat) (value : Bool) :
    LeavesOpen (bitmap_set_multiple start cnt value) := by
  apply Exec.Frame.bind (bitmap_check_leaves start cnt)
  intro _
  exact Exec.Frame.modify fun s => ⟨rfl, rfl, rfl, Nat.le_refl _⟩

theorem free_map_release_leaves (sector cnt : Nat) : LeavesOpen (free_map_release sector cnt) := by
  apply Exec.Frame.bind (bitmap_check_leaves sector cnt)
  intro _
  apply Exec.Frame.bind Exec.Frame.get
  intro s
  apply Exec.Frame.bind (Exec.Frame.ASSERT nofun)
  intro _
  apply Exec.Frame.bind (bitmap_set_multiple_leaves sector cnt false)
  intro _
  cases s.free_map_file with
  | none => exact Exec.Frame.throw nofun
  | some f => exact Exec.Frame.bind (bitmap_write_leaves f) fun _ => Exec.Frame.pure ()

theorem free_map_save_leaves : LeavesOpen free_map_save := by
  apply Exec.Frame.bind Exec.Frame.get
  intro s
  cases s.free_map_file with
  | none => exact Exec.Frame.pure true
  | some f => exact bitmap_write_leaves f

theorem free_map_allocate_leaves (cnt : Nat) : LeavesOpen (free_map_allocate cnt) := by
  have hflip : LeavesOpen (bitmap_scan_and_flip 0 cnt false) := by
    apply Exec.Frame.bind Exec.Frame.get
    intro s
    cases s.free_map.scan 0 cnt false with
    | none => exact Exec.Frame.pure none
    | some idx => exact Exec.Frame.bind (bitmap_set_multiple_leaves _ _ _) fun _ => Exec.Frame.pure _
  apply Exec.Frame.bind hflip
  intro r
  cases r with
  | none => exact Exec.Frame.pure none
  | some sector =>
    apply Exec.Frame.bind free_map_save_leaves
    intro saved
    split_ifs
    · exact Exec.Frame.pure _
    · exact Exec.Frame.bind (bitmap_set_multiple_leaves _ _ _) fun _ => Exec.Frame.pure _

theorem zero_loop_leaves (start n i : Nat) : LeavesOpen (zero_loop start n i) := by
  induction n generalizing i with
  | zero => exact Exec.Frame.pure ()
  | succ n ih => exact Exec.Frame.bind (block_write_leaves _ _) fun _ => ih _

theorem inode_create_leaves (sector : Nat) (length : Int) : LeavesOpen (inode_create sector length) := by
  apply Exec.Frame.bind (Exec.Frame.ASSERT nofun)
  intro _
  apply Exec.Frame.bind malloc_reads.leaves
  intro block
  cases block with
  | none => exact Exec.Frame.pure false
  | some block =>
    apply Exec.Frame.bind (free_map_allocate_leaves _)
    intro start
    cases start with
    | none => exact Exec.Frame.pure false
    | some start =>
      apply Exec.Frame.bind (block_write_leaves _ _)
      exact fun _ => Exec.Frame.bind (zero_loop_leaves _ _ _) fun _ => Exec.Frame.pure _

/-- The end of code that fails no check of a `deny_write_cnt`. -/
abbrev Ends {α : Type} (code : Fs α) (s : State) (Q : α → State → Prop) : Prop :=
  Exec.Ends OtherPanic code s Q

theorem deref_run {s : State} {p : Ptr} {inode : inode} (hp : s.inodes p = some inode) :
    deref p s = .ok (inode, s) := by
  simp only [deref, hp]

/-- A block is new, and there is none where memory is out. -/
theorem malloc_ends (s : State) : Ends malloc s fun r s' => s' = { s with asked := s.asked + 1 } ∧
    (∀ p, r = some p → p = s.asked) ∧ (r = none ↔ s.oom s.asked = true) := by
  apply Exec.Ends.of_ok rfl
  refine ⟨rfl, ?_, ?_⟩
  · intro p hp
    cases hoom : s.oom s.asked with
    | true => simp [hoom] at hp
    | false =>
      rw [hoom] at hp
      exact (Option.some.inj hp).symm
  · cases s.oom s.asked <;> simp

/-- The bounce buffer is there already, or memory is asked for. -/
theorem need_bounce_ends (bounce : Bool) (s : State) :
    Ends (need_bounce bounce) s fun ok s' => ok = (bounce || !s.oom s.asked) ∧
      s' = { s with asked := s.asked + if bounce then 0 else 1 } := by
  cases bounce with
  | true => exact Exec.Ends.of_ok rfl ⟨rfl, rfl⟩
  | false =>
    apply Exec.Ends.of_ok rfl
    refine ⟨?_, rfl⟩
    cases s.oom s.asked <;> rfl

theorem block_read_ends (sector : Nat) (s : State) :
    Ends (block_read sector) s fun bytes s' => bytes = s.fs_device.sector sector ∧ s' = s := by
  apply Exec.Ends.after Exec.get_run
  by_cases hin : sector < s.fs_device.size
  · apply Exec.Ends.after (Exec.ASSERT_run hin _)
    exact Exec.Ends.of_ok rfl ⟨rfl, rfl⟩
  · exact Exec.Ends.of_error (Exec.bind_error (Exec.ASSERT_error hin _)) nofun

theorem block_write_ends (sector : Nat) (buffer : Bytes) (s : State) :
    Ends (block_write sector buffer) s fun _ s' => s' =
      { s with fs_device := s.fs_device.store sector buffer } := by
  apply Exec.Ends.after Exec.get_run
  by_cases hin : sector < s.fs_device.size
  · apply Exec.Ends.after (Exec.ASSERT_run hin _)
    exact Exec.Ends.of_ok rfl rfl
  · exact Exec.Ends.of_error (Exec.bind_error (Exec.ASSERT_error hin _)) nofun

theorem bitmap_check_ends (start cnt : Nat) (s : State) : Ends
    (bitmap_check start cnt) s fun _ s' => s' = s := by
  apply Exec.Ends.after Exec.get_run
  by_cases hstart : start ≤ s.free_map.bit_cnt
  · apply Exec.Ends.after (Exec.ASSERT_run hstart _)
    by_cases hend : uint32 (start + cnt) ≤ s.free_map.bit_cnt
    · exact Exec.Ends.of_ok (Exec.ASSERT_run hend _) rfl
    · exact Exec.Ends.of_error (Exec.ASSERT_error hend _) nofun
  · exact Exec.Ends.of_error (Exec.bind_error (Exec.ASSERT_error hstart _)) nofun

theorem bitmap_set_multiple_ends (start cnt : Nat) (value : Bool) (s : State) :
    Ends (bitmap_set_multiple start cnt value) s fun _ s' =>
      s' = { s with free_map := s.free_map.set start cnt value } := by
  apply (bitmap_check_ends start cnt s).bind
  rintro _ t rfl
  exact Exec.Ends.of_ok rfl rfl

end pintos.filesys
