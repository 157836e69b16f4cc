import Pintos.Lib.Transition
import Pintos.Filesys.DenyCalls

/-!
# Denials of writing, over any calls

Any callers open, share, deny, allow and close files. Whatever they do, the count of an inode is
the number of the open files that deny writes to it.
-/

open twos_complement bytes state_error sharing

namespace pintos.filesys

/-- What callers can do with inodes and files. -/
inductive FileCall where
  | inode_open (sector : Nat)
  | inode_reopen (p : Ptr)
  | inode_close (p : Ptr)
  | inode_remove (p : Ptr)
  | free_map_open
  | file_open (inode : Option Ptr)
  | file_reopen (f : Ptr)
  | file_deny_write (f : Ptr)
  | file_allow_write (f : Ptr)
  | file_close (file : Option Ptr)
  | file_read (f : Ptr) (buffer : Bytes) (size : Int)
  | file_write (f : Ptr) (buffer : Bytes) (size : Int)
  | file_write_at (f : Ptr) (buffer : Bytes) (size file_ofs : Int)

namespace FileCall

/-- A caller passes on what it has: open files, inodes that are open, and references to give up. -/
def Allowed (held : Ptr → Nat) (s : State) : FileCall → Prop
  | inode_open _ | free_map_open | file_open none | file_close none => True
  | inode_reopen p | inode_remove p => ∃ inode, s.inodes p = some inode
  | inode_close p | file_open (some p) => 0 < held p
  | file_reopen f | file_deny_write f | file_allow_write f | file_close (some f) | file_read f _ _
  | file_write f _ _ | file_write_at f _ _ _ => ∃ file, s.files f = some file

/-- The call, and the references that there are besides those of files afterwards. -/
def run (held : Ptr → Nat) : FileCall → Fs (Ptr → Nat)
  | inode_open sector => do
    let p ← filesys.inode_open sector
    return p.elim held (acquire held)
  | inode_reopen p => do
    filesys.inode_reopen p
    return acquire held p
  | inode_close p => do
    filesys.inode_close (some p)
    return release held p
  | inode_remove p => do
    filesys.inode_remove p
    return held
  | free_map_open => do
    filesys.free_map_open
    return held
  | file_open inode => do
    let _ ← filesys.file_open inode
    return inode.elim held (release held)
  | file_reopen f => do
    let _ ← filesys.file_reopen f
    return held
  | file_deny_write f => do
    filesys.file_deny_write f
    return held
  | file_allow_write f => do
    filesys.file_allow_write f
    return held
  | file_close file => do
    filesys.file_close file
    return held
  | file_read f buffer size => do
    let _ ← filesys.file_read f buffer size
    return held
  | file_write f buffer size => do
    let _ ← filesys.file_write f buffer size
    return held
  | file_write_at f buffer size file_ofs => do
    let _ ← filesys.file_write_at f buffer size file_ofs
    return held

end FileCall

/-- The calls one after the other, from when nothing is open. -/
def file_calls : transition.System ((Ptr → Nat) × State) FileCall where
  Init w := (∀ p, w.1 p = 0) ∧ (∀ p, w.2.inodes p = none) ∧ ∀ f, w.2.files f = none
  Step w c w' := c.Allowed w.1 w.2 ∧ c.run w.1 w.2 = .ok w'

/-- The open files that deny writes to an inode. -/
def deniers (s : State) (p : Ptr) : Set Ptr :=
  {f | ∃ file, s.files f = some file ∧ file.inode = p ∧ file.deny_write = true}

section Runs

variable {held : Ptr → Nat} {s : State} {f p : Ptr} {inode : inode}

/-- What is done with the result of a function that keeps the counts. -/
theorem Ends.returns {α : Type} {code : Fs α} {held' : α → Ptr → Nat}
    (h : Ends code s fun a s' => Counted (held' a) s') :
    Ends (do
      let a ← code
      return held' a) s fun held s' => Counted held s' :=
  h.bind fun _ _ ht => Exec.Ends.of_ok rfl ht

/-- One call keeps the counts right and fails no check of them. -/
theorem FileCall.run_ends (h : Counted held s) {c : FileCall} (hc : c.Allowed held s) :
    Ends (c.run held) s fun held' s' => Counted held' s' := by
  cases c with
  | inode_open sector => exact Ends.returns (inode_open_ends h sector)
  | inode_reopen p =>
    obtain ⟨inode, hp⟩ := hc
    exact Ends.returns (inode_reopen_ends h hp)
  | inode_close p =>
    obtain ⟨inode, hp⟩ := h.inode_of_held hc
    apply (inode_close_ends hp).bind
    rintro _ t ⟨hasked, hfiles, hinodes⟩
    exact Exec.Ends.of_ok rfl (h.close hc hp hasked hfiles hinodes)
  | inode_remove p =>
    obtain ⟨inode, hp⟩ := hc
    exact Ends.returns (inode_remove_ends h hp)
  | free_map_open => exact Ends.returns (free_map_open_ends h)
  | file_open inode =>
    apply Ends.returns (file_open_ends h ?_)
    rintro p rfl
    exact hc
  | file_reopen f =>
    obtain ⟨file, hf⟩ := hc
    exact Ends.returns (file_reopen_ends h hf)
  | file_deny_write f =>
    obtain ⟨file, hf⟩ := hc
    obtain ⟨t, hrun, ht⟩ := file_deny_write_run h hf
    exact Exec.Ends.after hrun (Exec.Ends.of_ok rfl ht)
  | file_allow_write f =>
    obtain ⟨file, hf⟩ := hc
    obtain ⟨t, hrun, ht, -⟩ := file_allow_write_run h hf
    exact Exec.Ends.after hrun (Exec.Ends.of_ok rfl ht)
  | file_close file =>
    cases file with
    | none => exact Exec.Ends.of_ok rfl h
    | some f =>
      obtain ⟨file, hf⟩ := hc
      exact Ends.returns ((file_close_ends h hf).mono fun _ _ ht => ht.1)
  | file_read f buffer size =>
    obtain ⟨file, hf⟩ := hc
    exact Ends.returns (file_read_ends h hf buffer size)
  | file_write f buffer size =>
    obtain ⟨file, hf⟩ := hc
    exact Ends.returns (file_write_ends h hf buffer size)
  | file_write_at f buffer size file_ofs =>
    exact Ends.returns (Exec.Ends.of_frame (file_write_at_leaves _ _ _ _) fun _ _ ht => h.same ht)

/-- The counts are right when nothing is open. -/
theorem Counted.init {w : (Ptr → Nat) × State} (h : file_calls.Init w) : Counted w.1 w.2 := by
  obtain ⟨hheld, hinodes, hfiles⟩ := h
  refine ⟨fun f _ => hfiles f, fun p _ => hinodes p, ?_⟩
  intro p
  have hnone : (table w.1 w.2).handles p = ∅ := by
    apply Set.eq_empty_iff_forall_notMem.mpr
    intro f hf
    simp [Table.handles, table, hfiles] at hf
  rw [hinodes]
  change ((table w.1 w.2).handles p).ncard + w.1 p = 0
  simp [hnone, hheld]

theorem Counted.reachable {w : (Ptr → Nat) × State} (h : file_calls.Reachable w) : Counted w.1 w.2 := by
  apply h.invariant
  · exact fun w hw => Counted.init hw
  · rintro w c w' - hw ⟨hallowed, hrun⟩
    exact (FileCall.run_ends hw hallowed).1 w'.1 w'.2 hrun

/-- One call more. -/
theorem reachable_call (h : file_calls.Reachable (held, s)) (c : FileCall) (hc : c.Allowed held s)
    {held' : Ptr → Nat} {s' : State} (hrun : c.run held s = .ok (held', s')) :
    file_calls.Reachable (held', s') :=
  h.step ⟨hc, hrun⟩

theorem deniers_eq (held : Ptr → Nat) (s : State) (p : Ptr) : deniers s p = (table held s).flagged p := by
  ext f
  simp only [deniers, Table.flagged, table, Set.mem_ofPred_eq, Option.map_eq_some_iff, Prod.mk.injEq]

end Runs

section Writes

variable {s : State} {p : Ptr} {inode : inode}

/-- A write that begins or ends inside a sector needs memory for it. -/
def NeedsBounce (inode : filesys.inode) (size offset : Int) : Prop :=
  ¬ (offset.tmod SECTOR_SIZE = 0 ∧ chunk_size inode size offset = SECTOR_SIZE)

/-- The write has nothing to do, or no memory for its first sector. -/
def WritesNothing (s : State) (inode : filesys.inode) (size offset : Int) : Prop :=
  size ≤ 0 ∨ int32 (inode_length inode - offset) ≤ 0 ∨ NeedsBounce inode size offset ∧ s.oom s.asked = true

theorem sector_left_pos (offset : Int) : 0 < sector_left offset := by
  have hlow := Int.lt_tmod_of_pos offset (show (0 : Int) < SECTOR_SIZE by decide)
  have hhigh := Int.tmod_lt_of_pos offset (show (0 : Int) < SECTOR_SIZE by decide)
  simp only [sector_left, SECTOR_SIZE] at *
  rw [int32_of_range (by omega) (by omega)]
  omega

theorem chunk_size_nonpos (inode : filesys.inode) (size offset : Int) :
    chunk_size inode size offset ≤ 0 ↔ size ≤ 0 ∨ int32 (inode_length inode - offset) ≤ 0 := by
  have hleft := sector_left_pos offset
  simp only [chunk_size]
  split_ifs <;> omega

/-- The loop counts up, and does so at once where its first sector can be written. -/
theorem inode_write_loop_ends (inode : filesys.inode) (buffer : Bytes) (size offset bytes_written : Int)
    (bounce : Bool) (s : State) (hnonneg : 0 ≤ bytes_written) (hsize : bytes_written + size ≤ 2147483647) :
    Ends (inode_write_loop inode buffer size offset bytes_written bounce) s fun r _ => bytes_written ≤ r ∧
      (0 < chunk_size inode size offset → (NeedsBounce inode size offset → bounce = true ∨
      s.oom s.asked = false) →
        bytes_written < r) := by
  induction hm : size.toNat using Nat.strong_induction_on generalizing size offset bytes_written bounce s with
  | _ m ih =>
    have hle := chunk_size_le inode size offset
    rw [inode_write_loop]
    by_cases hpos : size > 0
    · rw [if_pos hpos]
      by_cases hnone : chunk_size inode size offset ≤ 0
      · rw [dif_pos hnone]
        exact Exec.Ends.of_ok rfl ⟨Int.le_refl _, fun hchunk => absurd hchunk (by omega)⟩
      · -- A turn that writes a sector counts up, and the rest does not count down.
        have hturn : ∀ (sector : Nat) (bytes : Bytes) (bounce : Bool) (t : State), Ends (do
            block_write sector bytes
            inode_write_loop inode buffer (int32 (size - chunk_size inode size offset))
              (int32 (offset + chunk_size inode size offset))
              (int32 (bytes_written + chunk_size inode size offset)) bounce) t fun r _ =>
              bytes_written < r := by
          intro sector bytes bounce t
          have hnext : int32 (bytes_written + chunk_size inode size offset) =
              bytes_written + chunk_size inode size offset := int32_of_range (by omega) (by omega)
          have hrest := int32_le (x := size - chunk_size inode size offset) (by omega)
          apply (Exec.Ends.of_frame (block_write_leaves sector bytes) fun _ _ => id).bind
          intro _ u _
          rw [hnext]
          apply (ih _ (hm ▸ size_decreases hnone) _ _ _ _ _ (by omega) (by omega) rfl).mono
          rintro r v ⟨hcount, -⟩
          omega
        have hfirst : ∀ r, bytes_written < r → bytes_written ≤ r ∧ (0 < chunk_size inode size offset →
            (NeedsBounce inode size offset → bounce = true ∨ s.oom s.asked = false) → bytes_written < r) :=
          fun r hr => ⟨Int.le_of_lt hr, fun _ _ => hr⟩
        rw [dif_neg hnone]
        by_cases hfull : offset.tmod SECTOR_SIZE = 0 ∧ chunk_size inode size offset = SECTOR_SIZE
        · rw [if_pos hfull]
          exact (hturn _ _ _ s).mono fun r _ hr => hfirst r hr
        · rw [if_neg hfull]
          apply (need_bounce_ends bounce s).bind
          rintro ok t ⟨hok, -⟩
          cases ok with
          | false =>
            have hnone : ¬ (bounce = true ∨ s.oom s.asked = false) := by simpa using hok
            apply Exec.Ends.of_ok rfl
            exact ⟨Int.le_refl _, fun _ hmemory => absurd (hmemory hfull) hnone⟩
          | true =>
            rw [if_pos rfl]
            split_ifs
            · apply (Exec.Ends.of_frame (block_read_reads _).leaves fun _ _ => id).bind
              exact fun _ u _ => (hturn _ _ _ u).mono fun r _ hr => hfirst r hr
            · apply Exec.Ends.after (Exec.pure_run _)
              exact (hturn _ _ _ t).mono fun r _ hr => hfirst r hr
    · rw [if_neg hpos]
      exact Exec.Ends.of_ok rfl ⟨Int.le_refl _, fun hchunk => absurd hchunk (by omega)⟩

/-- A write that has nothing to do changes nothing but the number of questions for memory. -/
theorem inode_write_loop_nothing (buffer : Bytes) {size offset : Int} (h : WritesNothing s inode size offset) :
    ∃ s', inode_write_loop inode buffer size offset 0 false s = .ok (0, s') := by
  rw [inode_write_loop]
  by_cases hpos : size > 0
  · rw [if_pos hpos]
    by_cases hnone : chunk_size inode size offset ≤ 0
    · rw [dif_pos hnone]
      exact ⟨s, rfl⟩
    · obtain ⟨hbounce, hoom⟩ : NeedsBounce inode size offset ∧ s.oom s.asked = true := by
        rw [chunk_size_nonpos] at hnone
        obtain hsize | hleft | h := h
        · exact absurd (.inl hsize) hnone
        · exact absurd (.inr hleft) hnone
        · exact h
      have hmalloc : malloc s = .ok (none, { s with asked := s.asked + 1 }) := by simp [malloc, hoom]
      have hneed : need_bounce false s = .ok (false, { s with asked := s.asked + 1 }) := by
        rw [need_bounce, if_neg Bool.false_ne_true, Exec.bind_run hmalloc]
        rfl
      rw [dif_neg hnone, if_neg hbounce, Exec.bind_run hneed]
      exact ⟨_, rfl⟩
  · rw [if_neg hpos]
    exact ⟨s, rfl⟩

/-- A write returns 0 where writes are denied, and where it has nothing to do. -/
theorem inode_write_at_zero_iff (hp : s.inodes p = some inode) (buffer : Bytes) {size offset : Int}
    (hsize : size ≤ 2147483647) : (∃ s', inode_write_at p buffer size offset s = .ok (0, s')) ↔
      inode.deny_write_cnt ≠ 0 ∨ WritesNothing s inode size offset := by
  rw [inode_write_at, Exec.bind_run (deref_run hp)]
  by_cases hdeny : inode.deny_write_cnt ≠ 0
  · rw [if_pos hdeny]
    exact ⟨fun _ => .inl hdeny, fun _ => ⟨s, rfl⟩⟩
  · rw [if_neg hdeny]
    constructor
    · rintro ⟨s', hrun⟩
      right
      by_contra hsome
      simp only [WritesNothing, ← or_assoc, ← chunk_size_nonpos] at hsome
      push Not at hsome
      obtain ⟨-, hcount⟩ := (inode_write_loop_ends inode buffer size offset 0 false s (Int.le_refl _)
        (by omega)).1 0 s' hrun
      have hpos := hcount hsome.1 fun hbounce => .inr (by simpa using hsome.2 hbounce)
      omega
    · rintro (h | h)
      · exact absurd h hdeny
      · exact inode_write_loop_nothing buffer h

end Writes

section Claims

variable {held : Ptr → Nat} {s : State}

/-- What `file_write` returns is what `inode_write_at` does. -/
theorem file_write_zero_iff {f : Ptr} {file : file} (hf : s.files f = some file) (buffer : Bytes) (size : Int) :
    (∃ s', file_write f buffer size s = .ok (0, s')) ↔
      ∃ s', inode_write_at file.inode buffer size file.pos s = .ok (0, s') := by
  have hderef : deref_file f s = .ok (file, s) := by simp only [deref_file, hf]
  rw [file_write, Exec.bind_run hderef]
  constructor
  · rintro ⟨s', hrun⟩
    obtain ⟨r, t, hwrite, hrest⟩ := Exec.bind_eq_ok.mp hrun
    obtain ⟨file', u, -, hrest⟩ := Exec.bind_eq_ok.mp hrest
    obtain ⟨-, v, -, hrest⟩ := Exec.bind_eq_ok.mp hrest
    obtain ⟨rfl, -⟩ := Exec.ok_inj (Exec.pure_run r) hrest
    exact ⟨t, hwrite⟩
  · rintro ⟨t, hwrite⟩
    have hft : t.files f = some file :=
      (congrFun ((inode_write_at_leaves _ _ _ _).ok _ _ _ hwrite).files f).trans hf
    have hderef' : deref_file f t = .ok (file, t) := by simp only [deref_file, hft]
    rw [Exec.bind_run hwrite, Exec.bind_run hderef']
    exact ⟨_, rfl⟩

/-- Whatever was called, each inode is denied as often as open files deny it, no function fails
a check of that, writes return 0 while it is denied, and closing a file withdraws only its own
denial. -/
theorem write_denials_counted (h : file_calls.Reachable (held, s)) :
    (∀ p inode, s.inodes p = some inode → (deniers s p).Finite ∧
      inode.deny_write_cnt = (deniers s p).ncard ∧ inode.deny_write_cnt ≤ inode.open_cnt) ∧
    (∀ c : FileCall, c.Allowed held s → c.run held s ≠ .error .deny_write_cnt) ∧
    ∀ f file, s.files f = some file → ∃ inode, s.inodes file.inode = some inode ∧
      (∃ s', file_deny_write f s = .ok ((), s')) ∧ (∃ s', file_allow_write f s = .ok ((), s')) ∧
      (∀ buffer size, size ≤ 2147483647 → ((∃ s', file_write f buffer size s = .ok (0, s')) ↔
        0 < inode.deny_write_cnt ∨ WritesNothing s inode size file.pos)) ∧
      (∀ buffer size file_ofs, size ≤ 2147483647 →
        ((∃ s', file_write_at f buffer size file_ofs s = .ok (0, s')) ↔
          0 < inode.deny_write_cnt ∨ WritesNothing s inode size file_ofs)) ∧
      ∀ s', file_close (some f) s = .ok ((), s') → ∀ p, deniers s' p = deniers s p \ {f} := by
  have hcounted : Counted held s := Counted.reachable h
  refine ⟨?_, ?_, ?_⟩
  · intro p inode hp
    rw [deniers_eq held]
    exact ⟨hcounted.finite.flagged p, (hcounted.at_inode hp).2.2, hcounted.deny_write_cnt_le hp⟩
  · intro c hc herror
    exact (FileCall.run_ends hcounted hc).2 _ herror rfl
  · intro f file hf
    obtain ⟨inode, hp⟩ := hcounted.inode_of_file hf
    have hpositive : inode.deny_write_cnt ≠ 0 ↔ 0 < inode.deny_write_cnt := by
      have hdeny := (hcounted.at_inode hp).2.2
      omega
    have hderef : deref_file f s = .ok (file, s) := by simp only [deref_file, hf]
    obtain ⟨denied, hdeny, -⟩ := file_deny_write_run hcounted hf
    obtain ⟨allowed, hallow, -⟩ := file_allow_write_run hcounted hf
    refine ⟨inode, hp, ⟨denied, hdeny⟩, ⟨allowed, hallow⟩, ?_, ?_, ?_⟩
    · intro buffer size hsize
      rw [file_write_zero_iff hf, inode_write_at_zero_iff hp buffer hsize, hpositive]
    · intro buffer size file_ofs hsize
      rw [file_write_at, Exec.bind_run hderef, inode_write_at_zero_iff hp buffer hsize, hpositive]
    · intro s' hclose p
      have hfiles := ((file_close_ends hcounted hf).1 _ _ hclose).2
      ext g
      simp only [deniers, hfiles, Set.mem_ofPred_eq, Set.mem_sdiff, Set.mem_singleton_iff]
      split_ifs with hg
      · simp [hg]
      · simp [hg]

/-- A device whose sectors are all zero, and with them the lengths of all files. -/
def blank_device : State where
  fs_device := { size := 4, sector := fun _ _ => 0 }
  oom := fun _ => false
  asked := 0
  garbage := fun _ => 0
  inodes := fun _ => none
  open_inodes := []
  files := fun _ => none
  free_map := { bit_cnt := 4, bits := fun _ => true }
  free_map_file := none

/-- Two files are open on one inode, and the first denies writes to it. -/
theorem write_denials_counted_two : ∃ held s, file_calls.Reachable (held, s) ∧
    (∃ inode, s.inodes 0 = some inode ∧ inode.deny_write_cnt = 1 ∧ (deniers s 0).ncard = 1 ∧
    inode.open_cnt = 2) ∧
    ∃ s', file_write 2 (fun _ => 7) 5 s = .ok (0, s') := by
  have hblank : file_calls.Reachable (fun _ => 0, blank_device) :=
      .init ⟨fun _ => rfl, fun _ => rfl, fun _ => rfl⟩
  have hopen := reachable_call hblank (.inode_open 2) trivial rfl
  have hfile := reachable_call hopen (.file_open (some 0)) Nat.one_pos rfl
  have hagain := reachable_call hfile (.file_reopen 1) ⟨_, rfl⟩ rfl
  have hdenied := reachable_call hagain (.file_deny_write 1) ⟨_, rfl⟩ rfl
  obtain ⟨hcounts, -, hfiles⟩ := write_denials_counted hdenied
  obtain ⟨-, hcount, -⟩ := hcounts 0 _ rfl
  obtain ⟨inode, hinode, -, -, hwrite, -⟩ := hfiles 2 _ rfl
  refine ⟨_, _, hdenied, ⟨_, rfl, rfl, ?_, rfl⟩, ?_⟩
  · exact (Int.natCast_inj.mp hcount).symm
  · apply (hwrite (fun _ => 7) 5 (by decide)).mpr
    left
    obtain rfl := Option.some.inj hinode
    decide

/-- A write at the end of a file returns 0, although no open file denies it. -/
theorem write_at_end_returns_zero : ∃ held s file inode, file_calls.Reachable (held, s) ∧
    s.files 1 = some file ∧ s.inodes file.inode = some inode ∧ deniers s file.inode = ∅ ∧
    inode.deny_write_cnt = 0 ∧ ∃ s', file_write 1 (fun _ => 7) 5 s = .ok (0, s') := by
  have hblank : file_calls.Reachable (fun _ => 0, blank_device) :=
      .init ⟨fun _ => rfl, fun _ => rfl, fun _ => rfl⟩
  have hopen := reachable_call hblank (.inode_open 2) trivial rfl
  have hfile := reachable_call hopen (.file_open (some 0)) Nat.one_pos rfl
  refine ⟨_, _, _, _, hfile, rfl, rfl, ?_, rfl, ?_⟩
  · apply Set.eq_empty_iff_forall_notMem.mpr
    rintro f ⟨file, hf, -, hdeny⟩
    by_cases hone : f = 1
    · subst hone
      obtain rfl := Option.some.inj hf
      cases hdeny
    · simp [blank_device, hone] at hf
  · rw [file_write_zero_iff rfl, inode_write_at_zero_iff rfl _ (by decide)]
    right
    right
    left
    decide

end Claims

end pintos.filesys
