import Pintos.Lib.Transition
import Pintos.Filesys.FileData
import Pintos.Filesys.Removal
import Pintos.Filesys.CreateFile
import Pintos.Filesys.Mounting

/-!
# The file system and its users

Users call the file system in any order, with memory running out at any time. The calls that they may
make, what each of them may answer, and what holds whatever they do.
-/

open twos_complement bytes state_error ownership transition

namespace pintos.filesys

/-- A call of a user. -/
inductive UserCall where
  | filesys_create (name : List Byte) (initial_size : Int)
  | filesys_open (name : List Byte)
  | filesys_remove (name : List Byte)
  | file_reopen (f : Ptr)
  | file_close (f : Ptr)
  | file_read (f : Ptr) (buffer : Bytes) (size : Int)
  | file_write (f : Ptr) (buffer : Bytes) (size : Int)
  | file_deny_write (f : Ptr)
  | file_allow_write (f : Ptr)
  | file_length (f : Ptr)
  | file_seek (f : Ptr) (new_pos : Int)
  | file_tell (f : Ptr)

/-- What a call returns. -/
inductive Answer where
  | done
  | success (b : Bool)
  | file (f : Option Ptr)
  | amount (n : Int)
  | data (n : Int) (buffer : Bytes)

def UserCall.exec : UserCall → Fs Answer
  | filesys_create name initial_size => return .success (← filesys.filesys_create name initial_size)
  | filesys_open name => return .file (← filesys.filesys_open name)
  | filesys_remove name => return .success (← filesys.filesys_remove name)
  | file_reopen f => return .file (← filesys.file_reopen f)
  | file_close f => do
    filesys.file_close (some f)
    return .done
  | file_read f buffer size => do
    let (n, buffer) ← filesys.file_read f buffer size
    return .data n buffer
  | file_write f buffer size => return .amount (← filesys.file_write f buffer size)
  | file_deny_write f => do
    filesys.file_deny_write f
    return .done
  | file_allow_write f => do
    filesys.file_allow_write f
    return .done
  | file_length f => return .amount (← filesys.file_length f)
  | file_seek f new_pos => do
    filesys.file_seek f new_pos
    return .done
  | file_tell f => return .amount (← filesys.file_tell f)

/-- The file that a user has open as `f`. -/
def user_file (s : State) (f : Ptr) : Option OpenFile := if s.free_map_file = some f then none else handle s f

/-- Users call with files that they have opened, with names without null characters, and with sizes and
positions of type `off_t` that are not too small. -/
def UserCall.Allowed (s : State) : UserCall → Prop
  | filesys_create name initial_size => 0 ∉ name ∧ 0 ≤ initial_size ∧ initial_size ≤ 2147483647
  | filesys_open name | filesys_remove name => 0 ∉ name
  | file_read f _ size | file_write f _ size => (user_file s f).isSome ∧ size ≤ 2147483647
  | file_seek f new_pos => (user_file s f).isSome ∧ 0 ≤ new_pos ∧ new_pos ≤ 2147483647
  | file_reopen f | file_close f | file_deny_write f | file_allow_write f | file_length f | file_tell f =>
    (user_file s f).isSome

/-- Before the file system is initialized. -/
structure Unmounted (s : State) : Prop where
  inodes : ∀ p, s.inodes p = none
  files : ∀ f, s.files f = none
  free_map_file : s.free_map_file = none
  size_lt : s.fs_device.size < 2 ^ 32

/-- The file system from the time when it has been formatted. -/
def users : System State (UserCall × Answer) where
  Init s := ∃ s₀, Unmounted s₀ ∧ filesys_init true s₀ = .ok ((), s)
  Step s l t := l.1.Allowed s ∧ l.1.exec s = .ok (l.2, t)

/-- What a file contains. -/
def data (s : State) (k : Nat) : Bytes := s.fs_device.content (disk_inode s k).start

/-- An opener of the file denies writes. -/
def Denied (s : State) (k : Nat) : Prop := ∃ f o, handle s f = some o ∧ o.file = k ∧ o.deny_write = true

/-- Nobody but the files refers to inodes. -/
def nobody : Ptr → Nat := fun _ => 0

variable {s t : State} {c : UserCall} {a : Answer} {f : Ptr} {k : Nat} {o : OpenFile} {held : Ptr → Nat}

/-- The answers to a call in a file system that is in order. -/
inductive Outcome (s : State) : UserCall → Answer → State → Prop where
  | created {name : List Byte} {size : Int} {t : State} (k : Nat) (h : Entered nobody name size k s t) :
      Outcome s (.filesys_create name size) (.success true) t
  | not_created {name : List Byte} {size : Int} {t : State} (h : Steady nobody s t)
      (hwhy : OutOfMemory s ∨ CannotCreate s name size) :
      Outcome s (.filesys_create name size) (.success false) t
  | opened {name : List Byte} {f : Ptr} {k : Nat} {t : State} (hname : Names s name k)
      (hmap : s.free_map_file ≠ some f) (hnew : handle s f = none)
      (h : Handled nobody f (some { file := k, pos := 0, deny_write := false }) s t) :
      Outcome s (.filesys_open name) (.file (some f)) t
  | not_opened {name : List Byte} {t : State} (h : Steady nobody s t)
      (hwhy : OutOfMemory s ∨ ∀ k, ¬ Names s name k) : Outcome s (.filesys_open name) (.file none) t
  | removed {name : List Byte} {k : Nat} {t : State} (h : Removed nobody name k s t) :
      Outcome s (.filesys_remove name) (.success true) t
  | not_removed {name : List Byte} {t : State} (h : Steady nobody s t)
      (hwhy : OutOfMemory s ∨ ∀ k, ¬ Names s name k) : Outcome s (.filesys_remove name) (.success false) t
  | reopened {f g : Ptr} {o : OpenFile} {t : State} (ho : user_file s f = some o)
      (hmap : s.free_map_file ≠ some g) (hnew : handle s g = none)
      (h : Handled nobody g (some { file := o.file, pos := 0, deny_write := false }) s t) :
      Outcome s (.file_reopen f) (.file (some g)) t
  | not_reopened {f : Ptr} {t : State} (h : Steady nobody s t) (hwhy : OutOfMemory s) :
      Outcome s (.file_reopen f) (.file none) t
  | closed {f : Ptr} {o : OpenFile} {t : State} (ho : user_file s f = some o)
      (h : FileClosed nobody f o.file s t) :
      Outcome s (.file_close f) .done t
  | read {f : Ptr} {o : OpenFile} {buffer : Bytes} {size : Int} {n : Nat} {t : State}
      (ho : user_file s f = some o)
      (hn : Stopped s o.pos.toNat n (transfer_size (disk_inode s o.file).length size o.pos))
      (h : Handled nobody f (some { o with pos := o.pos + n }) s t) :
      Outcome s (.file_read f buffer size) (.data n (copy buffer 0 (data s o.file) o.pos.toNat n)) t
  | wrote {f : Ptr} {o : OpenFile} {buffer : Bytes} {size : Int} {n : Nat} {t : State}
      (ho : user_file s f = some o)
      (hdenied : Denied s o.file → n = 0)
      (hn : ¬ Denied s o.file → Stopped s o.pos.toNat n (transfer_size (disk_inode s o.file).length size o.pos))
      (hdata : data t o.file = copy (data s o.file) o.pos.toNat buffer 0 n) (h : Written o.file s t)
      (hsound : Sound nobody t)
      (hhandle : handle t = Function.update (handle s) f (some { o with pos := o.pos + n })) :
      Outcome s (.file_write f buffer size) (.amount n) t
  | denied {f : Ptr} {o : OpenFile} {t : State} (ho : user_file s f = some o)
      (h : Handled nobody f (some { o with deny_write := true }) s t) : Outcome s (.file_deny_write f) .done t
  | allowed {f : Ptr} {o : OpenFile} {t : State} (ho : user_file s f = some o)
      (h : Handled nobody f (some { o with deny_write := false }) s t) : Outcome s (.file_allow_write f) .done t
  | length {f : Ptr} {o : OpenFile} (ho : user_file s f = some o) :
      Outcome s (.file_length f) (.amount (disk_inode s o.file).length) s
  | sought {f : Ptr} {o : OpenFile} {pos : Int} {t : State} (ho : user_file s f = some o) (hpos : 0 ≤ pos)
      (hle : pos ≤ 2147483647) (h : Handled nobody f (some { o with pos }) s t) :
      Outcome s (.file_seek f pos) .done t
  | told {f : Ptr} {o : OpenFile} (ho : user_file s f = some o) : Outcome s (.file_tell f) (.amount o.pos) s

/-- What holds of the file system whatever its users do. -/
structure Ready (s : State) : Prop where
  sound : Sound nobody s
  pos : ∀ f o, user_file s f = some o → 0 ≤ o.pos ∧ o.pos ≤ 2147483647

section Handles

theorem user_file_eq_some : user_file s f = some o ↔ s.free_map_file ≠ some f ∧ handle s f = some o := by
  rw [user_file]
  split_ifs with hf
  · simp [hf]
  · simp [hf]

/-- The structures of a file that a user has open. -/
theorem handle_eq_some (h : handle s f = some o) : ∃ file inode, s.files f = some file ∧
    s.inodes file.inode = some inode ∧ o =
      { file := inode.sector, pos := file.pos, deny_write := file.deny_write } := by
  simp only [handle, Option.bind_eq_some_iff, Option.map_eq_some_iff] at h
  obtain ⟨file, hf, inode, hp, rfl⟩ := h
  exact ⟨file, inode, hf, hp, rfl⟩

theorem Sound.user_file_user (h : Sound held s) (ho : user_file s f = some o) : o.file ∈ Users s := by
  obtain ⟨hmap, hhandle⟩ := user_file_eq_some.mp ho
  obtain ⟨file, inode, hf, hp, rfl⟩ := handle_eq_some hhandle
  exact ⟨opened_there hp, h.user_files f file inode hf hmap hp⟩

/-- Writes are denied as long as an opener denies them. -/
theorem Sound.deny_write_cnt_eq_zero (h : Sound held s) {p : Ptr} {inode : filesys.inode}
    (hp : s.inodes p = some inode) : inode.deny_write_cnt = 0 ↔ ¬ Denied s inode.sector := by
  constructor
  · rintro hzero ⟨f, o, hhandle, hsector, hdeny⟩
    obtain ⟨file, i, hf, hi, rfl⟩ := handle_eq_some hhandle
    have hsame := h.one_inode _ _ _ _ hi hp hsector
    rw [hsame, hp] at hi
    obtain rfl := Option.some.inj hi
    have hpos := h.counted.deny_write_cnt_pos hf hdeny (hsame ▸ hp)
    omega
  · intro hnot
    obtain ⟨-, -, hflags⟩ := h.counted.at_inode hp
    have hnone : (table held s).flagged p = ∅ := by
      ext f
      simp only [sharing.Table.flagged, Set.mem_ofPred_eq, table, Option.map_eq_some_iff,
        Set.mem_empty_iff_false,
        iff_false]
      rintro ⟨file, hf, heq⟩
      obtain ⟨rfl, hflag⟩ := Prod.mk.inj heq
      exact hnot ⟨f, _, handle_run hf hp, rfl, hflag⟩
    rw [hflags, sharing.Table.flags, hnone, Set.ncard_empty]
    rfl

end Handles

section Answers

/-- A call that users may make never panics, whether memory runs out or not. -/
theorem Ready.returns (h : Ready s) (hcall : c.Allowed s) : Returns c.exec s fun a t => Outcome s c a t := by
  have hopen : ∀ f, (user_file s f).isSome → ∃ o file inode, user_file s f = some o ∧ s.free_map_file ≠ some f ∧
      s.files f = some file ∧ s.inodes file.inode = some inode ∧
      o = { file := inode.sector, pos := file.pos, deny_write := file.deny_write } := by
    intro f hf
    obtain ⟨o, ho⟩ := Option.isSome_iff_exists.mp hf
    obtain ⟨hmap, hhandle⟩ := user_file_eq_some.mp ho
    obtain ⟨file, inode, hstruct, hp, heq⟩ := handle_eq_some hhandle
    exact ⟨o, file, inode, ho, hmap, hstruct, hp, heq⟩
  cases c with
  | filesys_create name size =>
    obtain ⟨hname, hnonneg, hle⟩ := hcall
    apply (h.sound.filesys_create hname hnonneg hle).bind
    rintro r t ⟨hno, hyes⟩
    apply Exec.Ends.of_ok rfl
    cases r with
    | false => exact .not_created (hno rfl).1 (hno rfl).2
    | true =>
      obtain ⟨k, hentered⟩ := hyes rfl
      exact .created k hentered
  | filesys_open name =>
    apply (h.sound.filesys_open hcall).bind
    rintro r t ⟨hyes, hno⟩
    apply Exec.Ends.of_ok rfl
    cases r with
    | none => exact .not_opened (hno rfl).1 (hno rfl).2
    | some f =>
      obtain ⟨hmap, hnew, k, hname, hhandled⟩ := hyes f rfl
      exact .opened hname hmap hnew hhandled
  | filesys_remove name =>
    apply (h.sound.filesys_remove hcall).bind
    rintro r t ⟨hno, hyes⟩
    apply Exec.Ends.of_ok rfl
    cases r with
    | false => exact .not_removed (hno rfl).1 (hno rfl).2
    | true =>
      obtain ⟨k, hremoved⟩ := hyes rfl
      exact .removed hremoved
  | file_reopen f =>
    obtain ⟨o, file, inode, ho, hmap, hstruct, hp, rfl⟩ := hopen f hcall
    apply (h.sound.file_reopen hmap hstruct hp).bind
    rintro r t ⟨hyes, hno⟩
    apply Exec.Ends.of_ok rfl
    cases r with
    | none =>
      obtain ⟨hout, hsound, hcalm, hthere, hhandle⟩ := hno rfl
      exact .not_reopened ⟨hcalm, hsound, hthere, hhandle⟩ hout
    | some g =>
      obtain ⟨hnone, hother, hhandled⟩ := hyes g rfl
      exact .reopened ho hother (handle_none hnone) hhandled
  | file_close f =>
    obtain ⟨o, file, inode, ho, hmap, hstruct, hp, rfl⟩ := hopen f hcall
    apply (h.sound.file_close hmap hstruct hp).bind
    exact fun _ t hclosed => Exec.Ends.of_ok rfl (.closed ho hclosed)
  | file_read f buffer size =>
    obtain ⟨o, file, inode, ho, hmap, hstruct, hp, rfl⟩ := hopen f hcall.1
    obtain ⟨hpos, hle⟩ := h.pos f _ ho
    apply (h.sound.file_read hmap hstruct hp hpos hle buffer hcall.2).bind
    rintro _ t ⟨n, rfl, hn, hhandled⟩
    exact Exec.Ends.of_ok rfl (.read ho hn hhandled)
  | file_write f buffer size =>
    obtain ⟨o, file, inode, ho, hmap, hstruct, hp, rfl⟩ := hopen f hcall.1
    obtain ⟨hpos, hle⟩ := h.pos f _ ho
    apply (h.sound.file_write hmap hstruct hp hpos hle buffer hcall.2).bind
    rintro _ t ⟨n, rfl, hcount, hcontent, hwritten, hsound, hhandle⟩
    have hcnt := h.sound.deny_write_cnt_eq_zero hp
    apply Exec.Ends.of_ok rfl
    refine .wrote ho (fun hdenied => ?_) (fun hdenied => ?_) ?_ hwritten hsound hhandle
    · rwa [if_neg fun hzero => hcnt.mp hzero hdenied] at hcount
    · rwa [if_pos (hcnt.mpr hdenied)] at hcount
    · rw [data, hwritten.inode]
      exact hcontent
  | file_deny_write f =>
    obtain ⟨o, file, inode, ho, hmap, hstruct, hp, rfl⟩ := hopen f hcall
    apply (h.sound.file_deny_write hmap hstruct hp).bind
    exact fun _ t hhandled => Exec.Ends.of_ok rfl (.denied ho hhandled)
  | file_allow_write f =>
    obtain ⟨o, file, inode, ho, hmap, hstruct, hp, rfl⟩ := hopen f hcall
    apply (h.sound.file_allow_write hmap hstruct hp).bind
    exact fun _ t hallowed => Exec.Ends.of_ok rfl (.allowed ho hallowed.2.2)
  | file_length f =>
    obtain ⟨o, file, inode, ho, hmap, hstruct, hp, rfl⟩ := hopen f hcall
    apply Exec.Ends.after (h.sound.file_length_run hstruct hp)
    have hlength := Outcome.length ho
    exact Exec.Ends.of_ok (Exec.pure_run _) hlength
  | file_seek f pos =>
    obtain ⟨o, file, inode, ho, hmap, hstruct, hp, rfl⟩ := hopen f hcall.1
    apply (h.sound.file_seek hmap hstruct hp hcall.2.1).bind
    exact fun _ t hhandled => Exec.Ends.of_ok rfl (.sought ho hcall.2.1 hcall.2.2 hhandled)
  | file_tell f =>
    obtain ⟨o, file, inode, ho, hmap, hstruct, hp, rfl⟩ := hopen f hcall
    apply Exec.Ends.after (file_tell_run hstruct)
    exact Exec.Ends.of_ok (Exec.pure_run _) (.told ho)

end Answers

section Runs

/-- What a call changes on the device for users: a file is entered, removed or written, or nothing changes. -/
theorem Outcome.changes (h : Outcome s c a t) : (∃ name size k, Entered nobody name size k s t) ∨
    (∃ name k, Removed nobody name k s t) ∨
    (∃ f buffer size o, c = .file_write f buffer size ∧ user_file s f = some o ∧ Written o.file s t) ∨
    Calm s t := by
  have hrefl : Calm s s := SameDevice.calm ⟨rfl, rfl, rfl, rfl, Nat.le_refl _⟩
  cases h with
  | created k h => exact .inl ⟨_, _, k, h⟩
  | removed h => exact .inr (.inl ⟨_, _, h⟩)
  | wrote ho hdenied hn hdata h hsound hhandle => exact .inr (.inr (.inl ⟨_, _, _, _, rfl, ho, h⟩))
  | not_created h _ => exact .inr (.inr (.inr h.toCalm))
  | opened hname hmap hnew h => exact .inr (.inr (.inr h.toCalm))
  | not_opened h _ => exact .inr (.inr (.inr h.toCalm))
  | not_removed h _ => exact .inr (.inr (.inr h.toCalm))
  | reopened ho hmap hnew h => exact .inr (.inr (.inr h.toCalm))
  | not_reopened h _ => exact .inr (.inr (.inr h.toCalm))
  | closed ho h => exact .inr (.inr (.inr h.toCalm))
  | read ho hn h => exact .inr (.inr (.inr h.toCalm))
  | denied ho h => exact .inr (.inr (.inr h.toCalm))
  | allowed ho h => exact .inr (.inr (.inr h.toCalm))
  | length ho => exact .inr (.inr (.inr hrefl))
  | sought ho hpos hle h => exact .inr (.inr (.inr h.toCalm))
  | told ho => exact .inr (.inr (.inr hrefl))

theorem Outcome.oom (h : Outcome s c a t) : t.oom = s.oom := by
  obtain ⟨name, size, k, h⟩ | ⟨name, k, h⟩ | ⟨f, buffer, size, o, -, -, h⟩ | h := h.changes <;> exact h.oom

theorem user_file_update {v : Option OpenFile} (hmap : t.free_map_file = s.free_map_file)
    (hf : s.free_map_file ≠ some f) (hhandle : handle t = Function.update (handle s) f v) :
    user_file t = Function.update (user_file s) f v := by
  funext g
  by_cases hg : g = f
  · rw [hg, Function.update_self, user_file, hmap, if_neg hf, hhandle, Function.update_self]
  · rw [Function.update_of_ne hg, user_file, hmap, hhandle, Function.update_of_ne hg, user_file]

theorem user_file_congr (hmap : t.free_map_file = s.free_map_file) (hhandle : handle t = handle s) :
    user_file t = user_file s := by
  funext g
  rw [user_file, hmap, hhandle, user_file]

/-- A position stays in range in a transfer. -/
theorem Ready.moved (h : Ready s) (ho : user_file s f = some o) {size : Int} {n : Nat}
    (hn : n ≤ transfer_size (disk_inode s o.file).length size o.pos) : 0 ≤ o.pos + n ∧ o.pos + n ≤
    2147483647 := by
  obtain ⟨hpos, hle⟩ := h.pos f o ho
  have hlies := h.sound.lies _ (h.sound.user_file_user ho).1
  exact ⟨by omega, (moved_pos hlies.on_device hpos hle hn).2⟩

/-- The open files of users after a call: at most one is another. -/
theorem Outcome.user_files (h : Outcome s c a t) (hready : Ready s) : ∃ f v,
    user_file t = Function.update (user_file s) f v ∧
    ∀ o, v = some o → 0 ≤ o.pos ∧ o.pos ≤ 2147483647 := by
  have hsame : user_file t = user_file s → ∃ f v, user_file t = Function.update (user_file s) f v ∧
      ∀ o, v = some o → 0 ≤ o.pos ∧ o.pos ≤ 2147483647 := fun heq =>
    ⟨0, user_file s 0, by rw [heq, Function.update_eq_self], hready.pos 0⟩
  cases h with
  | created k h => exact hsame (user_file_congr h.map_file h.handle)
  | not_created h _ => exact hsame (user_file_congr h.map_file h.handle)
  | opened hname hmap hnew h =>
    refine ⟨_, _, user_file_update h.map_file hmap h.handle, ?_⟩
    rintro o ⟨⟩
    exact ⟨Int.le_refl 0, Int.natCast_nonneg 2147483647⟩
  | not_opened h _ => exact hsame (user_file_congr h.map_file h.handle)
  | removed h => exact hsame (user_file_congr h.map_file h.handle)
  | not_removed h _ => exact hsame (user_file_congr h.map_file h.handle)
  | reopened ho hmap hnew h =>
    refine ⟨_, _, user_file_update h.map_file hmap h.handle, ?_⟩
    rintro o ⟨⟩
    exact ⟨Int.le_refl 0, Int.natCast_nonneg 2147483647⟩
  | not_reopened h _ => exact hsame (user_file_congr h.map_file h.handle)
  | closed ho h =>
    exact ⟨_, _, user_file_update h.map_file (user_file_eq_some.mp ho).1 h.handle,
      fun o hnone => by cases hnone⟩
  | read ho hn h =>
    refine ⟨_, _, user_file_update h.map_file (user_file_eq_some.mp ho).1 h.handle, ?_⟩
    rintro o ⟨⟩
    exact hready.moved ho hn.le
  | @wrote f o buffer size n t ho hdenied hn hdata h hsound hhandle =>
    refine ⟨_, _, user_file_update h.map_file (user_file_eq_some.mp ho).1 hhandle, ?_⟩
    rintro o ⟨⟩
    apply @Ready.moved s f o hready ho size
    by_cases hd : Denied s o.file
    · rw [hdenied hd]
      exact Nat.zero_le _
    · exact (hn hd).le
  | @denied f o t ho h =>
    refine ⟨_, _, user_file_update h.map_file (user_file_eq_some.mp ho).1 h.handle, ?_⟩
    rintro _ ⟨⟩
    exact hready.pos f o ho
  | @allowed f o t ho h =>
    refine ⟨_, _, user_file_update h.map_file (user_file_eq_some.mp ho).1 h.handle, ?_⟩
    rintro _ ⟨⟩
    exact hready.pos f o ho
  | length ho => exact hsame rfl
  | sought ho hpos hle h =>
    refine ⟨_, _, user_file_update h.map_file (user_file_eq_some.mp ho).1 h.handle, ?_⟩
    rintro o ⟨⟩
    exact ⟨hpos, hle⟩
  | told ho => exact hsame rfl

theorem Outcome.sound (h : Outcome s c a t) (hready : Ready s) : Sound nobody t := by
  cases h with
  | created k h => exact h.sound
  | not_created h _ => exact h.sound
  | opened hname hmap hnew h => exact h.sound
  | not_opened h _ => exact h.sound
  | removed h => exact h.sound
  | not_removed h _ => exact h.sound
  | reopened ho hmap hnew h => exact h.sound
  | not_reopened h _ => exact h.sound
  | closed ho h => exact h.sound
  | read ho hn h => exact h.sound
  | wrote ho hdenied hn hdata h hsound hhandle => exact hsound
  | denied ho h => exact h.sound
  | allowed ho h => exact h.sound
  | length ho => exact hready.sound
  | sought ho hpos hle h => exact h.sound
  | told ho => exact hready.sound

theorem Outcome.ready (h : Outcome s c a t) (hready : Ready s) : Ready t := by
  refine ⟨h.sound hready, fun g o ho => ?_⟩
  obtain ⟨f, v, hfiles, hv⟩ := h.user_files hready
  rw [hfiles] at ho
  by_cases hg : g = f
  · rw [hg, Function.update_self] at ho
    exact hv o ho
  · rw [Function.update_of_ne hg] at ho
    exact hready.pos g o ho

/-- A step of the users is one of the answers to their call. -/
theorem Ready.step (h : Ready s) (hstep : users.Step s (c, a) t) : Outcome s c a t :=
  (h.returns hstep.1).1 a t hstep.2

theorem Formatted.ready (h : Formatted s t) : Ready t where
  sound := h.sound
  pos f o ho := by
    obtain ⟨hmap, hhandle⟩ := user_file_eq_some.mp ho
    rw [handle_none (h.closed f hmap)] at hhandle
    cases hhandle

/-- Whatever users call, and whether memory runs out or not, the file system stays in order. -/
theorem users_ready (h : users.Reachable s) : Ready s := by
  refine h.invariant ?_ fun s l t _ hready hstep => (hready.step hstep).ready hready
  rintro s ⟨s₀, hmount, hrun⟩
  exact (filesys_init_mounts hmount.inodes hmount.files hmount.free_map_file hmount.size_lt hrun).ready

end Runs

end pintos.filesys
