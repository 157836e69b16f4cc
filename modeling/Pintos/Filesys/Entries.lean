import Pintos.Filesys.RootDir

/-!
# The entries of a directory

What an entry says, and what the searches in a directory find, with or without memory for them.
-/

open twos_complement bytes state_error

namespace pintos.filesys

/-- The code ends without a panic. -/
abbrev Returns {α : Type} (code : Fs α) (s : State) (Q : α → State → Prop) : Prop :=
  Exec.Ends (fun _ => False) code s Q

section Returns

variable {α : Type} {code : Fs α} {s t : State} {a : α} {Q : α → State → Prop}

theorem returns_iff : Returns code s Q ↔ ∃ a t, code s = .ok (a, t) ∧ Q a t := by
  constructor
  · intro h
    cases hrun : code s with
    | error e => exact (h.2 e hrun).elim
    | ok r => exact ⟨r.1, r.2, rfl, h.1 _ _ hrun⟩
  · rintro ⟨a, t, hrun, hq⟩
    exact Exec.Ends.of_ok hrun hq

theorem Returns.and {Q' : State → State → Prop} (h : Returns code s Q)
    (hcode : ∀ a t, code s = .ok (a, t) → Q' s t) :
    Returns code s fun a t => Q' s t ∧ Q a t :=
  ⟨fun a t hok => ⟨hcode a t hok, h.1 a t hok⟩, h.2⟩

theorem malloc_returns (s : State) : Returns malloc s fun r t => t = { s with asked := s.asked + 1 } ∧
    (∀ p, r = some p → p = s.asked) ∧ (r = none → OutOfMemory s) := by
  apply Exec.Ends.of_ok rfl
  refine ⟨rfl, fun p hp => ?_, fun hnone => ?_⟩
  · split at hp
    · cases hp
    · exact (Option.some.inj hp).symm
  · refine ⟨s.asked, ?_⟩
    by_contra hoom
    rw [if_neg hoom] at hnone
    cases hnone

end Returns

namespace dir_entry

variable {e e' : Bytes} {name name' : List Byte} {pos : Nat}

theorem same_name_congr (h : ∀ j, pos ≤ j → j ≤ pos + name.length → e' j = e j) :
    same_name name e' pos = same_name name e pos := by
  induction name generalizing pos with
  | nil => rw [same_name, same_name, h pos (Nat.le_refl _) (Nat.le_add_right _ _)]
  | cons c name ih =>
    rw [same_name, same_name, h pos (Nat.le_refl _) (Nat.le_add_right _ _), ih]
    intro j hlow hhigh
    apply h j (by omega)
    rw [List.length_cons]
    omega

/-- The characters of the name, and a null byte. -/
theorem same_name_of (h : ∀ j ≤ name.length, e (pos + j) = name.getD j 0) : same_name name e pos = true := by
  induction name generalizing pos with
  | nil =>
    have hzero := h 0 (Nat.le_refl _)
    simpa [same_name] using hzero
  | cons c name ih =>
    have hfirst := h 0 (Nat.zero_le _)
    have hrest := @ih (pos + 1) fun j hj => by
      have hnext := h (j + 1) (by simpa using hj)
      rw [List.getD_cons_succ] at hnext
      rw [← hnext]
      congr 1
      omega
    simp only [Nat.add_zero, List.getD_cons_zero] at hfirst
    rw [same_name, hfirst, hrest]
    simp

/-- There is one string at a place. -/
theorem same_name_unique (h : same_name name e pos = true) (h' : same_name name' e pos = true)
    (hnul : 0 ∉ name) (hnul' : 0 ∉ name') : name = name' := by
  induction name generalizing name' pos with
  | nil =>
    cases name' with
    | nil => rfl
    | cons c name' =>
      simp only [same_name, beq_iff_eq, Bool.and_eq_true] at h h'
      exact absurd (h'.1 ▸ h ▸ List.mem_cons_self) hnul'
  | cons c name ih =>
    cases name' with
    | nil =>
      simp only [same_name, beq_iff_eq, Bool.and_eq_true] at h h'
      exact absurd (h.1 ▸ h' ▸ List.mem_cons_self) hnul
    | cons c' name' =>
      simp only [same_name, beq_iff_eq, Bool.and_eq_true] at h h'
      rw [← h.1, ← h'.1, ih h.2 h'.2 (fun hmem => hnul (List.mem_cons_of_mem _ hmem))
        fun hmem => hnul' (List.mem_cons_of_mem _ hmem)]

/-- A name that a file can have: a string, neither empty nor too long. -/
structure Valid (name : List Byte) : Prop where
  ne_nil : name ≠ []
  length_le : name.length ≤ NAME_MAX
  no_nul : 0 ∉ name

/-- The entry has the name. -/
structure Spells (e : Bytes) (name : List Byte) : Prop where
  valid : Valid name
  same : same_name name e 4 = true

theorem Spells.unique (h : Spells e name) (h' : Spells e name') : name = name' :=
  same_name_unique h.same h'.same h.valid.no_nul h'.valid.no_nul

/-- An entry is what its 20 bytes say. -/
theorem Spells.congr (h : Spells e name) (heq : ∀ j < 20, e' j = e j) : Spells e' name := by
  refine ⟨h.valid, ?_⟩
  rw [same_name_congr, h.same]
  intro j hlow hhigh
  have hlength := h.valid.length_le
  rw [NAME_MAX] at hlength
  exact heq j (by omega)

theorem spells_congr (heq : ∀ j < 20, e' j = e j) : Spells e' name ↔ Spells e name :=
  ⟨fun h => h.congr fun j hj => (heq j hj).symm, fun h => h.congr heq⟩

/-- An entry that is in use has a name. -/
def Good (e : Bytes) : Prop := in_use e = true → ∃ name, Spells e name

theorem Good.is_for_iff (h : Good e) (hname : 0 ∉ name) :
    is_for e name = true ↔ in_use e = true ∧ Spells e name := by
  rw [is_for, Bool.and_eq_true]
  refine and_congr_right fun huse => ⟨fun hsame => ?_, fun hspells => hspells.same⟩
  obtain ⟨name', hspells⟩ := h huse
  rwa [same_name_unique hsame hspells.same hname hspells.valid.no_nul]

theorem Good.congr (h : Good e) (heq : ∀ j < 20, e' j = e j) : Good e' := by
  intro huse
  rw [in_use, heq 19 (by omega)] at huse
  obtain ⟨name, hspells⟩ := h huse
  exact ⟨name, hspells.congr heq⟩

section Write

variable {sector : Nat}

/-- The entry that `dir_add` writes. -/
theorem set_name (hvalid : Valid name) : Spells (set e name sector) name := by
  refine ⟨hvalid, same_name_of fun j hj => ?_⟩
  rw [set, store_word, copy_outside (by omega), copy_inside (by omega) (by omega)]
  congr 1
  omega

theorem set_in_use (hvalid : Valid name) : in_use (set e name sector) = true := by
  have hlength := hvalid.length_le
  rw [NAME_MAX] at hlength
  rw [in_use, set, store_word, copy_outside (by omega), copy_outside (by omega)]
  simp

theorem set_inode_sector (hsector : sector < 2 ^ 32) : inode_sector (set e name sector) = sector :=
  word_store_word _ _ hsector

/-- The entry that `dir_remove` writes is free. -/
theorem clear_in_use (e : Bytes) : in_use (clear e) = false := by
  simp [in_use, clear]

end Write

end dir_entry

section Search

variable {s t : State} {d : dir} {inode : inode} {n : Nat} {name : List Byte}

/-- An entry of the directory whose inode is on the device. -/
def slot (b : block) (d : inode_disk) (i : Nat) : Bytes := drop (b.content d.start) (ENTRY_SIZE * i)

/-- The open inode is a directory of `n` entries. -/
structure IsDir (s : State) (p : Ptr) (inode : filesys.inode) (n : Nat) : Prop where
  is_open : s.inodes p = some inode
  on_device : OnDevice s.fs_device inode.data
  length : inode.data.length = (ENTRY_SIZE * n : Nat)
  good : ∀ i < n, dir_entry.Good (slot s.fs_device inode.data i)

theorem IsDir.asked (h : IsDir s d.inode inode n) (hasked : OnlyAsked s t) : IsDir t d.inode inode n := by
  rw [hasked.same]
  exact ⟨h.is_open, h.on_device, h.length, h.good⟩

/-- An entry is read, unless there is none or no memory. -/
theorem IsDir.read (h : IsDir s d.inode inode n) (e : Bytes) {i : Nat} (hi : i ≤ n) :
    Returns (inode_read_at d.inode e ENTRY_SIZE (ENTRY_SIZE * i : Nat)) s fun r t => OnlyAsked s t ∧
      (r.1 = ENTRY_SIZE → i < n ∧ ∀ j < 20, r.2 j = slot s.fs_device inode.data i j) ∧
      (r.1 ≠ ENTRY_SIZE → i = n ∨ OutOfMemory s) := by
  have hlength := h.length
  have hle := h.on_device.length_le
  obtain ⟨k, asked, hrun, hasked, hstop⟩ := inode_read_at_run h.is_open h.on_device e
    (show ENTRY_SIZE * i ≤ 2147483647 by rw [ENTRY_SIZE] at *; omega)
    (show ((ENTRY_SIZE : Nat) : Int) ≤ 2147483647 by decide)
  apply Exec.Ends.of_ok hrun
  simp only [Stopped, transfer_size, ENTRY_SIZE] at *
  refine ⟨⟨rfl, hasked⟩, fun hfull => ⟨by omega, fun j hj => ?_⟩, fun hpart => ?_⟩
  · rw [copy_inside (Nat.zero_le j) (by omega), slot, drop, ENTRY_SIZE, Nat.sub_zero]
  · obtain hfull | ⟨-, -, hout⟩ := hstop
    · left
      omega
    · exact .inr hout

theorem entry_turns_returns (h : IsDir s d.inode inode n) :
    entry_turns d s = .ok (ENTRY_SIZE * n + 1, s) := by
  rw [entry_turns, Exec.bind_run (deref_run h.is_open), h.length]
  rfl

/-- What a search from entry `k` on finds. -/
def Finds (s : State) (inode : filesys.inode) (n : Nat) (name : List Byte) (k : Nat) :
    Option (Bytes × Nat) → Prop
  | some (e, ofs) => ∃ i < n, ofs = ENTRY_SIZE * i ∧ (∀ j < 20, e j = slot s.fs_device inode.data i j) ∧
      dir_entry.in_use (slot s.fs_device inode.data i) = true ∧
      dir_entry.Spells (slot s.fs_device inode.data i) name
  | none => OutOfMemory s ∨ ∀ i, k ≤ i → i < n → dir_entry.in_use (slot s.fs_device inode.data i) = true →
      ¬ dir_entry.Spells (slot s.fs_device inode.data i) name

theorem lookup_loop_returns (hname : 0 ∉ name) (turns : Nat) : ∀ (k : Nat) (e : Bytes) (s : State),
    IsDir s d.inode inode n → k ≤ n → n < k + turns →
    Returns (lookup_loop d name turns (ENTRY_SIZE * k) e) s fun r t => OnlyAsked s t ∧
      Finds s inode n name k r := by
  induction turns with
  | zero => exact fun k e s _ hk hturns => by omega
  | succ turns ih =>
    intro k e s h hk hturns
    rw [lookup_loop]
    apply (h.read e hk).bind
    rintro ⟨bytes_read, e'⟩ t ⟨hasked, hfull, hpart⟩
    simp only at hfull hpart ⊢
    split_ifs with hread hfor
    · obtain ⟨hkn, heq⟩ := hfull hread
      have hgood := (h.good k hkn).congr heq
      obtain ⟨huse, hspells⟩ := (hgood.is_for_iff hname).mp hfor
      refine Exec.Ends.of_ok rfl ⟨hasked, k, hkn, rfl, heq, ?_, (dir_entry.spells_congr heq).mp hspells⟩
      rw [← huse, in_use_congr heq]
    · obtain ⟨hkn, heq⟩ := hfull hread
      have hgood := (h.good k hkn).congr heq
      apply (ih (k + 1) e' t (h.asked hasked) hkn (by omega)).mono
      rintro r u ⟨hasked', hfinds⟩
      have hdevice : t.fs_device = s.fs_device := by rw [hasked.same]
      have hoom : t.oom = s.oom := by rw [hasked.same]
      refine ⟨IsTrans.trans _ _ _ hasked hasked', ?_⟩
      cases r with
      | some r => simpa only [Finds, hdevice] using hfinds
      | none =>
        simp only [Finds, OutOfMemory, hdevice, hoom] at hfinds ⊢
        refine hfinds.imp_right fun hnone i hki hi huse hspells => ?_
        obtain rfl | hlt := Nat.eq_or_lt_of_le hki
        · refine hfor ((hgood.is_for_iff hname).mpr ⟨?_, hspells.congr heq⟩)
          rw [in_use_congr heq, huse]
        · exact hnone i hlt hi huse hspells
    · refine Exec.Ends.of_ok rfl ⟨hasked, ?_⟩
      obtain rfl | hout := hpart hread
      · exact .inr fun i hki hi => absurd hi (by omega)
      · exact .inl hout

theorem lookup_returns (h : IsDir s d.inode inode n) (hname : 0 ∉ name) :
    Returns (lookup d name) s fun r t => OnlyAsked s t ∧ Finds s inode n name 0 r := by
  rw [lookup]
  apply Exec.Ends.after (entry_turns_returns h)
  apply Exec.Ends.after Exec.get_run
  apply lookup_loop_returns hname _ 0 _ s h (Nat.zero_le n)
  rw [ENTRY_SIZE]
  omega

/-- The slot for a new entry is free, or is at the end, or memory is out. -/
theorem free_slot_loop_returns (turns : Nat) : ∀ (k : Nat) (e : Bytes) (s : State),
    IsDir s d.inode inode n → k ≤ n → n < k + turns →
    Returns (free_slot_loop d turns (ENTRY_SIZE * k) e) s fun r t => OnlyAsked s t ∧
      ∃ i ≤ n, r.2 = ENTRY_SIZE * i ∧ (OutOfMemory s ∨
        (i < n → dir_entry.in_use (slot s.fs_device inode.data i) = false) ∧
        (∀ j, k ≤ j → j < i → dir_entry.in_use (slot s.fs_device inode.data j) = true)) := by
  induction turns with
  | zero => exact fun k e s _ hk hturns => by omega
  | succ turns ih =>
    intro k e s h hk hturns
    rw [free_slot_loop]
    apply (h.read e hk).bind
    rintro ⟨bytes_read, e'⟩ t ⟨hasked, hfull, hpart⟩
    simp only at hfull hpart ⊢
    split_ifs with hread hfree
    · obtain ⟨hkn, heq⟩ := hfull hread
      rw [Bool.not_eq_true', in_use_congr heq] at hfree
      exact Exec.Ends.of_ok rfl ⟨hasked, k, hk, rfl, .inr ⟨fun _ => hfree, fun j hkj hj => by omega⟩⟩
    · obtain ⟨hkn, heq⟩ := hfull hread
      rw [Bool.not_eq_true', in_use_congr heq, Bool.not_eq_false] at hfree
      apply (ih (k + 1) e' t (h.asked hasked) hkn (by omega)).mono
      have hdevice : t.fs_device = s.fs_device := by rw [hasked.same]
      have hoom : t.oom = s.oom := by rw [hasked.same]
      simp only [OutOfMemory, hdevice, hoom]
      rintro r u ⟨hasked', i, hi, hofs, hfound⟩
      refine ⟨IsTrans.trans _ _ _ hasked hasked', i, hi, hofs, hfound.imp_right ?_⟩
      rintro ⟨hfree', hused⟩
      refine ⟨hfree', fun j hkj hj => ?_⟩
      obtain rfl | hlt := Nat.eq_or_lt_of_le hkj
      · exact hfree
      · exact hused j hlt hj
    · refine Exec.Ends.of_ok rfl ⟨hasked, k, hk, rfl, ?_⟩
      obtain rfl | hout := hpart hread
      · exact .inr ⟨fun hlt => absurd hlt (Nat.lt_irrefl _), fun j hkj hj => by omega⟩
      · exact .inl hout

/-- The device after a write to entry `i`. -/
def write_slot (b : block) (d : inode_disk) (i : Nat) (e : Bytes) : block :=
  b.overwrite (512 * d.start + ENTRY_SIZE * i) e ENTRY_SIZE

theorem slot_write_slot (b : block) (d : inode_disk) (i k : Nat) (e : Bytes) {j : Nat} (hj : j < 20) :
    slot (write_slot b d i e) d k j = if k = i then e j else slot b d k j := by
  rw [slot, write_slot, block.content_overwrite, drop]
  simp only [ENTRY_SIZE]
  split_ifs with hk
  · subst hk
    rw [copy_inside (by omega) (by omega)]
    congr 1
    omega
  · rw [copy_outside (by omega)]
    rfl

/-- An entry of a directory in one sector is written as a whole, or not at all. -/
theorem IsDir.write (h : IsDir s d.inode inode n) (hdeny : inode.deny_write_cnt = 0) (hone : n ≤ 25) (e : Bytes)
    {i : Nat} (hi : i ≤ n) :
    Returns (inode_write_at d.inode e ENTRY_SIZE (ENTRY_SIZE * i : Nat)) s fun r t =>
      (r = ENTRY_SIZE → i < n ∧ s.asked ≤ t.asked ∧
        t = { s with fs_device := write_slot s.fs_device inode.data i e, asked := t.asked }) ∧
      (r ≠ ENTRY_SIZE → OnlyAsked s t ∧ (i = n ∨ OutOfMemory s)) := by
  have hlength := h.length
  have hle := h.on_device.length_le
  obtain ⟨k, asked, hrun, hasked, hstop⟩ := inode_write_at_run h.is_open hdeny h.on_device e
    (show ENTRY_SIZE * i ≤ 2147483647 by rw [ENTRY_SIZE] at *; omega)
    (show ((ENTRY_SIZE : Nat) : Int) ≤ 2147483647 by decide)
  apply Exec.Ends.of_ok hrun
  simp only [Stopped, transfer_size, ENTRY_SIZE] at hstop hlength
  refine ⟨fun hfull => ?_, fun hpart => ?_⟩
  · obtain rfl : k = ENTRY_SIZE := by exact_mod_cast hfull
    refine ⟨?_, hasked, rfl⟩
    simp only [ENTRY_SIZE] at hstop
    omega
  · rw [ENTRY_SIZE] at hpart
    obtain ⟨hzero, hwhy⟩ : k = 0 ∧ (i = n ∨ OutOfMemory s) := by
      obtain hfull | ⟨hless, hwhere, hout⟩ := hstop
      · omega
      · refine ⟨?_, .inr hout⟩
        obtain hzero | hsector := hwhere
        · exact hzero
        · have hend := Nat.eq_zero_of_dvd_of_lt hsector (show 20 * i + k < 512 by omega)
          omega
    rw [hzero, block.overwrite_zero]
    exact ⟨⟨rfl, hasked⟩, hwhy⟩

end Search

end pintos.filesys
