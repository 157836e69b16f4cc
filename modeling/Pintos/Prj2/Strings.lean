import Pintos.Prj2.Accesses
import Mathlib.Data.List.GetD

/-!
# Accesses to user strings

Every loop over a user string loads its bytes in order until one meets the
loop's own stopping condition.
-/

open interaction Prog

namespace pintos.prj2

variable {m : Machine} {α : Type} {addr : Addr}

/-- From byte `i` on the string at `addr` ends in user memory: up to some byte all
are at user addresses, and that one meets `stop`, or is not present. -/
def Ends (mem : Memory) (stop : Nat → Byte → Bool) (addr : Addr) (i : Nat) : Prop :=
  ∃ k, i ≤ k ∧ (∀ j, i ≤ j → j < k → is_user_vaddr (addr + BitVec.ofNat 32 j) = true) ∧
    ∀ c, mem.byte (addr + BitVec.ofNat 32 k) = some c →
      is_user_vaddr (addr + BitVec.ofNat 32 k) = true ∧ stop k c = true

/-- The end of a C string. -/
def is_nul (_ : Nat) (c : Byte) : Bool := c = 0

/-- Where `strcmp` stops when it compares with the kernel string `s`. -/
def differs (s : Str) (i : Nat) (c : Byte) : Bool := c = 0 || c ≠ s.getD i 0

theorem differs_iff {s : Str} {i : Nat} {c : Byte} :
    differs s i c = true ↔ ¬(c ≠ 0 ∧ c = s.getD i 0) := by
  simp only [differs, Bool.or_eq_true, decide_eq_true_eq, not_and_or, not_not]

theorem ends_of_none {mem : Memory} {stop : Nat → Byte → Bool} {i : Nat}
    (h : mem.byte (addr + BitVec.ofNat 32 i) = none) : Ends mem stop addr i :=
  ⟨i, le_refl i, fun j hij hji => absurd hji (by omega), fun c hc => by simp [h] at hc⟩

theorem ends_of_some {mem : Memory} {stop : Nat → Byte → Bool} {i : Nat} {c : Byte}
    (h : mem.byte (addr + BitVec.ofNat 32 i) = some c) :
    Ends mem stop addr i ↔ is_user_vaddr (addr + BitVec.ofNat 32 i) = true ∧
      (stop i c = true ∨ Ends mem stop addr (i + 1)) := by
  constructor
  · rintro ⟨k, hik, huser, hend⟩
    rcases Nat.eq_or_lt_of_le hik with rfl | hlt
    · exact ⟨(hend c h).1, .inl (hend c h).2⟩
    · exact ⟨huser i (le_refl i) hlt, .inr ⟨k, hlt, fun j hj => huser j (by omega), hend⟩⟩
  · rintro ⟨huser, hstop | ⟨k, hik, husers, hend⟩⟩
    · refine ⟨i, le_refl i, fun j hij hji => absurd hji (by omega), fun c' hc' => ?_⟩
      cases h.symm.trans hc'
      exact ⟨huser, hstop⟩
    · refine ⟨k, by omega, fun j hij hjk => ?_, hend⟩
      rcases Nat.eq_or_lt_of_le hij with rfl | hlt
      · exact huser
      · exact husers j hlt hjk

/-- A scan that stops more often ends in user memory if the other one does. -/
theorem Ends.mono {mem : Memory} {stop stop' : Nat → Byte → Bool} {i : Nat}
    (h : Ends mem stop addr i) (hstop : ∀ k c, stop k c = true → stop' k c = true) :
    Ends mem stop' addr i := by
  obtain ⟨k, hik, huser, hend⟩ := h
  exact ⟨k, hik, huser, fun c hc => ⟨(hend c hc).1, hstop k c (hend c hc).2⟩⟩

/-- Some byte on from every address is a kernel address. -/
theorem exists_kernel_byte (addr : Addr) :
    ∃ j < ADDR_CNT, is_user_vaddr (addr + BitVec.ofNat 32 j) = false := by
  refine ⟨(PHYS_BASE - addr).toNat, (PHYS_BASE - addr).isLt, ?_⟩
  rw [BitVec.ofNat_toNat, BitVec.setWidth_eq, BitVec.add_comm, BitVec.sub_add_cancel]
  decide

/-- A loop over a user string accesses user memory only exactly when the string
ends there. The induction is on the bytes that are left of the address space. -/
theorem userOnly_scan {γ : Type} (stop : Nat → Byte → Bool) (next : γ → Byte → γ)
    (loop : Nat → Nat → γ → Kernel α)
    (hstep : ∀ n i a, UserOnly m (loop (n + 1) i a) ↔
      ∀ c, m.mem.byte (addr + BitVec.ofNat 32 i) = some c →
        is_user_vaddr (addr + BitVec.ofNat 32 i) = true ∧
          (stop i c = true ∨ UserOnly m (loop n (i + 1) (next a c)))) :
    ∀ n i a, n + i = ADDR_CNT → (∀ j < i, is_user_vaddr (addr + BitVec.ofNat 32 j) = true) →
      (UserOnly m (loop n i a) ↔ Ends m.mem stop addr i) := by
  intro n
  induction n with
  | zero =>
    intro i a hn huser
    obtain ⟨j, hj, hkernel⟩ := exists_kernel_byte addr
    rw [huser j (by omega)] at hkernel
    cases hkernel
  | succ n ih =>
    intro i a hn huser
    rw [hstep]
    cases hbyte : m.mem.byte (addr + BitVec.ofNat 32 i) with
    | none => simpa using ends_of_none hbyte
    | some c =>
      simp only [Option.some.injEq, forall_eq', ends_of_some hbyte]
      refine and_congr_right fun huser_i => or_congr_right ?_
      apply ih _ _ (by omega)
      intro j hj
      rcases Nat.eq_or_lt_of_le (Nat.le_of_lt_succ hj) with rfl | hlt
      · exact huser_i
      · exact huser j hlt

theorem userOnly_get_bind {i : Nat} {f : Byte → Kernel α} :
    UserOnly m ((CharPtr.user addr).get i >>= f) ↔
      ∀ c, m.mem.byte (addr + BitVec.ofNat 32 i) = some c →
        is_user_vaddr (addr + BitVec.ofNat 32 i) = true ∧ UserOnly m (f c) := by
  change UserOnly m (.ask (.load _) f) ↔ _
  rw [userOnly_ask]
  simp only [reply_load, Op.bytes, List.mem_singleton, forall_eq]

theorem value_get_bind {i : Nat} {f : Byte → Kernel α} :
    ((CharPtr.user addr).get i >>= f).value m.reply =
      (m.mem.byte (addr + BitVec.ofNat 32 i)).bind fun c => (f c).value m.reply :=
  rfl

theorem kernel_get (s : Str) (i : Nat) : (CharPtr.kernel s).get i = ret (s.getD i 0) := rfl

/-! ## `strlen` -/

theorem userOnly_strlen_loop_iff :
    UserOnly m (strlen_loop (.user addr) ADDR_CNT 0) ↔ Ends m.mem is_nul addr 0 := by
  refine userOnly_scan is_nul (fun _ _ => ()) (fun n i _ => strlen_loop (.user addr) n i) ?_
    ADDR_CNT 0 () rfl (by omega)
  intro n i _
  rw [strlen_loop, userOnly_get_bind]
  refine forall₂_congr fun c _ => and_congr_right fun _ => ?_
  by_cases hc : c = 0
  · rw [if_pos hc]
    exact iff_of_true (userOnly_ret i) (.inl (by simpa [is_nul] using hc))
  · rw [if_neg hc, or_iff_right (by simpa [is_nul] using hc)]

/-- A null pointer fails the assertion of `strlen`. -/
theorem userOnly_strlen :
    UserOnly m (strlen (.user addr)) ↔ (addr ≠ 0 → Ends m.mem is_nul addr 0) := by
  unfold strlen
  by_cases h : addr = 0
  · rw [if_pos (by simp [CharPtr.is_null, h])]
    exact iff_of_true silent_panic.userOnly fun hne => absurd h hne
  · rw [if_neg (by simpa [CharPtr.is_null] using h), imp_iff_right h]
    exact userOnly_strlen_loop_iff

theorem value_strlen_loop {n i len : Nat}
    (h : (strlen_loop (.user addr) n i).value m.reply = some len) :
    i ≤ len ∧ m.mem.byte (addr + BitVec.ofNat 32 len) = some 0 ∧
      ∀ j, i ≤ j → j < len → ∃ c, m.mem.byte (addr + BitVec.ofNat 32 j) = some c ∧ c ≠ 0 := by
  induction n generalizing i with
  | zero => cases value_spin.symm.trans h
  | succ n ih =>
    rw [strlen_loop, value_get_bind, Option.bind_eq_some_iff] at h
    obtain ⟨c, hc, h⟩ := h
    split at h
    · rename_i hnul
      cases h
      exact ⟨le_refl _, hnul ▸ hc, fun j hij hji => absurd hji (by omega)⟩
    · rename_i hnul
      obtain ⟨hle, hend, hbytes⟩ := ih h
      refine ⟨by omega, hend, fun j hij hjl => ?_⟩
      rcases Nat.eq_or_lt_of_le hij with rfl | hlt
      · exact ⟨c, hc, hnul⟩
      · exact hbytes j hlt hjl

/-- Once a string ends at its terminator, the bytes before are user bytes. -/
theorem Ends.user {len : Nat} (h : Ends m.mem is_nul addr 0)
    (hbytes : ∀ j < len, ∃ c, m.mem.byte (addr + BitVec.ofNat 32 j) = some c ∧ c ≠ 0) :
    ∀ j < len, is_user_vaddr (addr + BitVec.ofNat 32 j) = true := by
  obtain ⟨k, -, huser, hend⟩ := h
  intro j hj
  rcases Nat.lt_or_ge j k with hlt | hge
  · exact huser j (by omega) hlt
  · obtain ⟨c, hc, hne⟩ := hbytes k (by omega)
    exact absurd (by simpa [is_nul] using (hend c hc).2) hne

theorem value_strlen {len : Nat} (h : (strlen (.user addr)).value m.reply = some len) :
    addr ≠ 0 ∧ ∀ j < len, ∃ c, m.mem.byte (addr + BitVec.ofNat 32 j) = some c ∧ c ≠ 0 := by
  unfold strlen at h
  split at h
  · cases value_panic.symm.trans h
  · rename_i hnull
    exact ⟨by simpa [CharPtr.is_null] using hnull, fun j => (value_strlen_loop h).2.2 j (by omega)⟩

theorem userOnly_memcpy_from_of_user {n i : Nat}
    (h : ∀ j, i ≤ j → j < i + n → is_user_vaddr (addr + BitVec.ofNat 32 j) = true) :
    UserOnly m (memcpy_from (.user addr) n i) := by
  induction n generalizing i with
  | zero => exact userOnly_ret []
  | succ n ih =>
    rw [memcpy_from, userOnly_get_bind]
    refine fun c _ => ⟨h i (le_refl i) (by omega), ?_⟩
    rw [userOnly_bind]
    exact ⟨ih fun j hij hji => h j (by omega) (by omega), fun _ _ => userOnly_ret _⟩

theorem userOnly_strlcpy {size : Nat} :
    UserOnly m (strlcpy (.user addr) size) ↔ (addr ≠ 0 → Ends m.mem is_nul addr 0) := by
  rw [strlcpy, userOnly_bind, userOnly_strlen]
  refine and_iff_left_of_imp fun hends len hlen => ?_
  obtain ⟨hne, hbytes⟩ := value_strlen hlen
  refine userOnly_memcpy_from_of_user fun j _ hj => (hends hne).user hbytes j (by omega)

/-! ## `strcmp` and `lookup` -/

theorem userOnly_strcmp_loop (s : Str) {n i : Nat} (hn : n + i = ADDR_CNT)
    (huser : ∀ j < i, is_user_vaddr (addr + BitVec.ofNat 32 j) = true) :
    UserOnly m (strcmp_loop (.user addr) (.kernel s) n i) ↔ Ends m.mem (differs s) addr i := by
  refine userOnly_scan (differs s) (fun _ _ => ())
    (fun n i _ => strcmp_loop (.user addr) (.kernel s) n i) ?_ n i () hn huser
  intro n i _
  rw [strcmp_loop, userOnly_get_bind]
  refine forall₂_congr fun c _ => and_congr_right fun _ => ?_
  rw [kernel_get, ret_bind]
  by_cases hc : c ≠ 0 ∧ c = s.getD i 0
  · rw [if_pos hc, or_iff_right (by rwa [differs_iff, not_not])]
  · rw [if_neg hc]
    exact iff_of_true (userOnly_ret _) (.inl (differs_iff.mpr hc))

theorem userOnly_strcmp (s : Str) :
    UserOnly m (strcmp (.user addr) (.kernel s)) ↔ (addr ≠ 0 → Ends m.mem (differs s) addr 0) := by
  unfold strcmp
  by_cases h : addr = 0
  · rw [if_pos (by simp [CharPtr.is_null, h])]
    exact iff_of_true silent_panic.userOnly fun hne => absurd h hne
  · rw [if_neg (by simpa [CharPtr.is_null] using h), imp_iff_right h]
    exact userOnly_strcmp_loop s rfl (by omega)

/-- A comparison that stays in user memory has seen the end of the string, unless
it finds a difference. -/
theorem ends_of_strcmp_loop {s : Str} {n i : Nat} (hn : n + i = ADDR_CNT)
    (huser : ∀ j < i, is_user_vaddr (addr + BitVec.ofNat 32 j) = true)
    (hends : Ends m.mem (differs s) addr i)
    (hequal : ∀ r, (strcmp_loop (.user addr) (.kernel s) n i).value m.reply = some r → r = 0) :
    Ends m.mem is_nul addr i := by
  induction n generalizing i with
  | zero =>
    obtain ⟨j, hj, hkernel⟩ := exists_kernel_byte addr
    rw [huser j (by omega)] at hkernel
    cases hkernel
  | succ n ih =>
    cases hbyte : m.mem.byte (addr + BitVec.ofNat 32 i) with
    | none => exact ends_of_none hbyte
    | some c =>
      rw [ends_of_some hbyte] at hends ⊢
      obtain ⟨huser_i, hends⟩ := hends
      refine ⟨huser_i, ?_⟩
      rw [strcmp_loop, value_get_bind, hbyte, Option.bind_some, kernel_get, ret_bind] at hequal
      by_cases hc : c ≠ 0 ∧ c = s.getD i 0
      · rw [if_pos hc] at hequal
        rw [or_iff_right (by rwa [differs_iff, not_not])] at hends
        refine .inr (ih (by omega) (fun j hj => ?_) hends hequal)
        rcases Nat.eq_or_lt_of_le (Nat.le_of_lt_succ hj) with rfl | hlt
        · exact huser_i
        · exact huser j hlt
      · rw [if_neg hc] at hequal
        have hzero := hequal _ rfl
        left
        by_contra hnul
        have hne : c ≠ s.getD i 0 := fun heq => hc ⟨by simpa [is_nul] using hnul, heq⟩
        split at hzero
        · cases hzero
        · split at hzero
          · cases hzero
          · exact hne (BitVec.le_antisymm (BitVec.not_lt.mp ‹_›) (BitVec.not_lt.mp ‹_›))

theorem ends_of_strcmp {s : Str} (hne : addr ≠ 0) (hends : Ends m.mem (differs s) addr 0)
    (hequal : ∀ r, (strcmp (.user addr) (.kernel s)).value m.reply = some r → r = 0) :
    Ends m.mem is_nul addr 0 := by
  unfold strcmp at hequal
  rw [if_neg (by simpa [CharPtr.is_null] using hne)] at hequal
  exact ends_of_strcmp_loop rfl (by omega) hends hequal

theorem Ends.differs {s : Str} {i : Nat} (h : Ends m.mem is_nul addr i) :
    Ends m.mem (differs s) addr i :=
  h.mono fun k c hc => differs_iff.mpr fun hne => hne.1 (by simpa [is_nul] using hc)

/-- `lookup` accesses user memory only exactly when the comparison with each entry
in use would. -/
theorem userOnly_lookup (dir : List DirEntry) :
    UserOnly m (lookup (.user addr) dir) ↔
      (addr ≠ 0 → ∀ e ∈ dir, e.in_use = true → Ends m.mem (differs e.name) addr 0) := by
  induction dir with
  | nil => exact iff_of_true (userOnly_ret false) (by simp)
  | cons e rest ih =>
    rw [lookup]
    by_cases huse : e.in_use = true
    · rw [if_pos huse, userOnly_bind, userOnly_strcmp]
      constructor
      · rintro ⟨hfirst, hrest⟩ hne e' he' huse'
        by_cases hequal : ∀ r, (strcmp (.user addr) (.kernel e.name)).value m.reply = some r → r = 0
        · exact (ends_of_strcmp hne (hfirst hne) hequal).differs
        · push Not at hequal
          obtain ⟨r, hr, hr0⟩ := hequal
          have hrest := hrest r hr
          rw [if_neg hr0, ih] at hrest
          rcases List.mem_cons.mp he' with rfl | he'
          · exact hfirst hne
          · exact hrest hne e' he' huse'
      · intro h
        refine ⟨fun hne => h hne e List.mem_cons_self huse, fun r _ => ?_⟩
        split
        · exact userOnly_ret true
        · exact ih.mpr fun hne e' he' => h hne e' (List.mem_cons_of_mem e he')
    · rw [if_neg huse, ih]
      refine imp_congr_right fun _ => ?_
      simp [huse]

/-- A name that is found ends at its terminator. -/
theorem ends_of_lookup {dir : List DirEntry} (hne : addr ≠ 0)
    (hends : ∀ e ∈ dir, e.in_use = true → Ends m.mem (differs e.name) addr 0)
    (h : (lookup (.user addr) dir).value m.reply = some true) : Ends m.mem is_nul addr 0 := by
  induction dir with
  | nil => cases h
  | cons e rest ih =>
    have hrest := fun e' he' => hends e' (List.mem_cons_of_mem e he')
    rw [lookup] at h
    by_cases huse : e.in_use = true
    · rw [if_pos huse] at h
      obtain ⟨r, hr, h⟩ := value_bind_some.mp h
      by_cases hr0 : r = 0
      · refine ends_of_strcmp hne (hends e List.mem_cons_self huse) fun r' hr' => ?_
        cases hr.symm.trans hr'
        exact hr0
      · rw [if_neg hr0] at h
        exact ih hrest h
    · rw [if_neg huse] at h
      exact ih hrest h

theorem getD_eq_zero {s : Str} {i : Nat} (hs : 0 ∉ s) (h : s.getD i 0 = 0) : s.length ≤ i := by
  by_contra hlt
  push Not at hlt
  rw [List.getD_eq_getElem _ _ hlt] at h
  exact hs (h ▸ List.getElem_mem hlt)

theorem drop_eq_cons {s : Str} {i : Nat} (h : s.getD i 0 ≠ 0) :
    s.drop i = s.getD i 0 :: s.drop (i + 1) := by
  have hlt : i < s.length := by
    by_contra hge
    exact h (List.getD_eq_default _ _ (by omega))
  rw [List.getD_eq_getElem _ _ hlt]
  exact List.drop_eq_getElem_cons hlt

/-- `strcmp` of two kernel strings tells whether they are equal. -/
theorem value_strcmp_kernel_loop {a b : Str} (ha : 0 ∉ a) (hb : 0 ∉ b) {n i : Nat}
    (hn : b.length < n + i) (hi : i ≤ b.length) :
    ∃ r, (strcmp_loop (.kernel a) (.kernel b) n i).value m.reply = some r ∧
      (r = 0 ↔ a.drop i = b.drop i) := by
  induction n generalizing i with
  | zero => omega
  | succ n ih =>
    simp only [strcmp_loop, kernel_get, ret_bind]
    by_cases hc : a.getD i 0 ≠ 0 ∧ a.getD i 0 = b.getD i 0
    · have hbi : b.getD i 0 ≠ 0 := hc.2 ▸ hc.1
      have hlt : i < b.length := by
        by_contra hge
        exact hbi (List.getD_eq_default _ _ (by omega))
      rw [if_pos hc, drop_eq_cons hc.1, drop_eq_cons hbi, hc.2, List.cons.injEq,
        and_iff_right rfl]
      exact ih (by omega) hlt
    · rw [if_neg hc]
      refine ⟨_, rfl, ?_⟩
      by_cases heq : a.getD i 0 = b.getD i 0
      · have hzero : a.getD i 0 = 0 := by
          by_contra hne
          exact hc ⟨hne, heq⟩
        rw [List.drop_of_length_le (getD_eq_zero ha hzero),
          List.drop_of_length_le (getD_eq_zero hb (heq ▸ hzero)), heq]
        simp
      · refine iff_of_false (fun hr => ?_) fun hdrop => heq ?_
        · split at hr
          · cases hr
          · split at hr
            · cases hr
            · exact heq (BitVec.le_antisymm (BitVec.not_lt.mp ‹_›) (BitVec.not_lt.mp ‹_›))
        · have hget := congrArg (fun l => l.getD 0 0) hdrop
          simpa using hget

/-- `lookup` of a kernel string finds the entry in use with that name. -/
theorem value_lookup_kernel {s : Str} (hs : 0 ∉ s) (dir : List DirEntry) :
    (lookup (.kernel s) dir).value m.reply =
      some (decide (∃ e ∈ dir, e.in_use = true ∧ e.name = s)) := by
  induction dir with
  | nil => simp [lookup]
  | cons e rest ih =>
    rw [lookup]
    by_cases huse : e.in_use = true
    · obtain ⟨r, hr, hiff⟩ := value_strcmp_kernel_loop (m := m) hs e.no_nul (n := ADDR_CNT) (i := 0)
        (by have := e.length_le; simp only [NAME_MAX, ADDR_CNT] at *; omega) (by omega)
      simp only [List.drop_zero] at hiff
      have hcmp : (strcmp (.kernel s) (.kernel e.name)).value m.reply = some r := hr
      rw [if_pos huse, value_bind, hcmp, Option.bind_some]
      by_cases hr0 : r = 0
      · rw [if_pos hr0]
        simp [huse, (hiff.mp hr0).symm]
      · rw [if_neg hr0, ih]
        have hne : e.name ≠ s := fun h => hr0 (hiff.mpr h.symm)
        simp [hne]
    · rw [if_neg huse, ih]
      simp [huse]

theorem silent_strcmp_kernel_loop (a b : Str) (n i : Nat) :
    Silent (strcmp_loop (.kernel a) (.kernel b) n i) := by
  induction n generalizing i with
  | zero => exact silent_spin
  | succ n ih =>
    simp only [strcmp_loop, kernel_get, ret_bind]
    exact silent_ite (ih (i + 1)) (silent_ret _)

theorem silent_lookup_kernel (s : Str) (dir : List DirEntry) : Silent (lookup (.kernel s) dir) := by
  induction dir with
  | nil => exact silent_ret false
  | cons e rest ih =>
    rw [lookup]
    refine silent_ite (Silent.bind ?_ fun r => silent_ite (silent_ret true) ih) ih
    exact silent_strcmp_kernel_loop s e.name ADDR_CNT 0

/-! ## Opening files -/

theorem silent_filesys_open_kernel (s : Str) : Silent (filesys_open (.kernel s)) :=
  silent_with_root fun dir => silent_ite silent_panic ((silent_lookup_kernel s dir).bind fun _ =>
    silent_ite (silent_ask_query _) (silent_ret none))

/-- The file system opens the file of this name. -/
def Opens (m : Machine) (name : Str) : Prop :=
  ∃ dir f, m.answer (.query .dir_open_root) = some (some dir) ∧
    (∃ e ∈ dir, e.in_use = true ∧ e.name = name) ∧ m.answer (.query .file_open) = some (some f)

theorem value_open_in_some {name : CharPtr} {dir : List DirEntry} {f : FilePtr} :
    (open_in name dir).value m.reply = some (some f) ↔ name.is_null = false ∧
      (lookup name dir).value m.reply = some true ∧ m.answer (.query .file_open) = some (some f) := by
  unfold open_in
  cases hnull : name.is_null with
  | true =>
    rw [if_pos rfl, value_panic]
    simp
  | false =>
    rw [if_neg (by simp), value_bind_some, and_iff_right rfl]
    constructor
    · rintro ⟨found, hfound, h⟩
      cases found with
      | false => cases h
      | true => exact ⟨hfound, value_ask.symm.trans h⟩
    · rintro ⟨hfound, h⟩
      exact ⟨true, hfound, value_ask.trans h⟩

theorem value_filesys_open_some {name : CharPtr} {f : FilePtr} :
    (filesys_open name).value m.reply = some (some f) ↔
      ∃ dir, m.answer (.query .dir_open_root) = some (some dir) ∧ name.is_null = false ∧
        (lookup name dir).value m.reply = some true ∧
          m.answer (.query .file_open) = some (some f) := by
  rw [filesys_open, value_with_root (by simp)]
  simp only [value_open_in_some]

theorem value_filesys_open_kernel {s : Str} (hs : 0 ∉ s) :
    (∃ f, (filesys_open (.kernel s)).value m.reply = some (some f)) ↔ Opens m s := by
  simp only [value_filesys_open_some, value_lookup_kernel hs, Option.some.injEq, decide_eq_true_eq,
    Opens]
  constructor
  · rintro ⟨f, dir, hdir, -, hfound, hopen⟩
    exact ⟨dir, f, hdir, hfound, hopen⟩
  · rintro ⟨dir, f, hdir, hfound, hopen⟩
    exact ⟨f, dir, hdir, rfl, hfound, hopen⟩

/-- Every name in the root directory ends the comparison with it in user memory. -/
def NamesEnd (m : Machine) (addr : Addr) : Prop :=
  ∀ dir, m.answer (.query .dir_open_root) = some (some dir) → addr ≠ 0 →
    ∀ e ∈ dir, e.in_use = true → Ends m.mem (differs e.name) addr 0

theorem is_null_iff : (CharPtr.user addr).is_null = true ↔ addr = 0 := by
  simp [CharPtr.is_null]

theorem userOnly_filesys_open :
    UserOnly m (filesys_open (.user addr)) ↔ NamesEnd m addr := by
  rw [filesys_open, userOnly_with_root]
  refine forall₂_congr fun dir _ => ?_
  unfold open_in
  by_cases hnull : addr = 0
  · rw [if_pos (is_null_iff.mpr hnull)]
    exact iff_of_true silent_panic.userOnly fun hne => absurd hnull hne
  · rw [if_neg (is_null_iff.not.mpr hnull), userOnly_bind, userOnly_lookup]
    refine and_iff_left fun found _ => ?_
    exact (silent_ite (silent_ask_query _) (silent_ret none)).userOnly

theorem ends_of_filesys_open {f : FilePtr} (hends : NamesEnd m addr)
    (h : (filesys_open (.user addr)).value m.reply = some (some f)) : Ends m.mem is_nul addr 0 := by
  obtain ⟨dir, hdir, hnull, hfound, -⟩ := value_filesys_open_some.mp h
  have hne : addr ≠ 0 := fun h0 => by
    rw [is_null_iff.mpr h0] at hnull
    cases hnull
  exact ends_of_lookup hne (hends dir hdir hne) hfound

/-! ## `get_command` -/

/-- Where `get_command` stops. -/
def ends_word (_ : Nat) (c : Byte) : Bool := ends_command c

theorem Ends.word {i : Nat} (h : Ends m.mem is_nul addr i) : Ends m.mem ends_word addr i :=
  h.mono fun k c hc => by
    have hnul : c = 0 := by simpa [is_nul] using hc
    simp [ends_word, ends_command, hnul]

/-- The bytes at `addr` are the word `command` and the character that ends it. -/
structure CommandAt (mem : Memory) (addr : Addr) (command : Str) : Prop where
  chars : ∀ i (h : i < command.length),
    mem.byte (addr + BitVec.ofNat 32 i) = some command[i] ∧ ends_command command[i] = false
  stop : ∃ c, mem.byte (addr + BitVec.ofNat 32 command.length) = some c ∧ ends_command c = true

theorem CommandAt.no_nul {mem : Memory} {command : Str} (h : CommandAt mem addr command) :
    0 ∉ command := by
  intro hmem
  obtain ⟨i, hi, hget⟩ := List.getElem_of_mem hmem
  have hends := (h.chars i hi).2
  rw [hget] at hends
  cases hends

/-- A word does not run around the address space. -/
theorem CommandAt.length_lt {mem : Memory} {command : Str} (h : CommandAt mem addr command) :
    command.length < ADDR_CNT := by
  by_contra hge
  push Not at hge
  obtain ⟨c, hc, hstop⟩ := h.stop
  have hwrap : BitVec.ofNat 32 (command.length - ADDR_CNT) = BitVec.ofNat 32 command.length := by
    apply BitVec.eq_of_toNat_eq
    simp only [BitVec.toNat_ofNat, ADDR_CNT] at *
    omega
  have hchar := h.chars (command.length - ADDR_CNT) (by simp only [ADDR_CNT] at *; omega)
  rw [hwrap, hc, Option.some.injEq] at hchar
  rw [← hchar.1, hstop] at hchar
  cases hchar.2

theorem userOnly_when_wild_bind {c : Prop} [Decidable c] {f : Unit → Kernel α} :
    UserOnly m (when c wild >>= f) ↔ UserOnly m (f ()) := by
  unfold when
  split
  · refine (userOnly_request_bind rfl).trans ⟨fun h => h () rfl, fun h _ _ => h⟩
  · exact Iff.rfl

theorem value_when_wild_bind {c : Prop} [Decidable c] {f : Unit → Kernel α} :
    (when c wild >>= f).value m.reply = (f ()).value m.reply := by
  unfold when
  split <;> rfl

theorem userOnly_get_command_loop {n i : Nat} {command : Str} (hn : n + i = ADDR_CNT)
    (huser : ∀ j < i, is_user_vaddr (addr + BitVec.ofNat 32 j) = true) :
    UserOnly m (get_command_loop (.user addr) true n i command) ↔ Ends m.mem ends_word addr i := by
  refine userOnly_scan ends_word (fun command ch => command ++ [ch])
    (get_command_loop (.user addr) true) ?_ n i command hn huser
  intro n i command
  rw [get_command_loop, userOnly_get_bind]
  refine forall₂_congr fun c _ => and_congr_right fun _ => ?_
  rw [if_neg (by simp), userOnly_when_wild_bind]
  by_cases hc : ends_command c = true
  · rw [if_pos hc]
    exact iff_of_true (userOnly_ret _) (.inl hc)
  · rw [if_neg hc, or_iff_right (by exact hc)]

/-- Without memory for the buffer `get_command` accesses one byte. -/
theorem userOnly_get_command_loop_null {n : Nat} {command : Str} :
    UserOnly m (get_command_loop (.user addr) false (n + 1) 0 command) ↔
      (m.mem.byte addr ≠ none → is_user_vaddr addr = true) := by
  rw [get_command_loop, userOnly_get_bind, show addr + BitVec.ofNat 32 0 = addr by simp]
  cases m.mem.byte addr with
  | none => simp
  | some c => simpa using fun _ => (silent_exit (-1)).userOnly

/-- What a command string must meet, by whether there is memory for the copy of
its first word. -/
def CommandEnds (m : Machine) (site : Site) (addr : Addr) : Prop :=
  (m.answer (.query (.malloc site 128)) = some true → Ends m.mem ends_word addr 0) ∧
    (m.answer (.query (.malloc site 128)) = some false →
      m.mem.byte addr ≠ none → is_user_vaddr addr = true)

theorem userOnly_get_command {site : Site} :
    UserOnly m (get_command site (.user addr)) ↔ CommandEnds m site addr := by
  rw [get_command, userOnly_ask_bind]
  constructor
  · exact fun h => ⟨fun htrue => (userOnly_get_command_loop rfl (by omega)).mp (h true htrue),
      fun hfalse => userOnly_get_command_loop_null.mp (h false hfalse)⟩
  · rintro ⟨htrue, hfalse⟩ buffer hbuffer
    cases buffer with
    | true => exact (userOnly_get_command_loop rfl (by omega)).mpr (htrue hbuffer)
    | false => exact userOnly_get_command_loop_null.mpr (hfalse hbuffer)

theorem commandEnds_of_ends {site : Site} (h : Ends m.mem is_nul addr 0) :
    CommandEnds m site addr := by
  refine ⟨fun _ => h.word, fun _ hbyte => ?_⟩
  obtain ⟨k, -, huser, hend⟩ := h
  obtain ⟨c, hc⟩ := Option.ne_none_iff_exists'.mp hbyte
  cases k with
  | zero => simpa using (hend c (by simpa using hc)).1
  | succ k => simpa using huser 0 (le_refl 0) (by omega)

theorem value_get_command_loop {n i : Nat} {done command : Str} (hi : i = done.length)
    (hdone : ∀ j (h : j < done.length),
      m.mem.byte (addr + BitVec.ofNat 32 j) = some done[j] ∧ ends_command done[j] = false)
    (h : (get_command_loop (.user addr) true n i done).value m.reply = some command) :
    CommandAt m.mem addr command := by
  induction n generalizing i done with
  | zero => cases value_spin.symm.trans h
  | succ n ih =>
    rw [get_command_loop, value_get_bind, Option.bind_eq_some_iff] at h
    obtain ⟨c, hc, h⟩ := h
    rw [if_neg (by simp), value_when_wild_bind] at h
    by_cases hstop : ends_command c = true
    · rw [if_pos hstop] at h
      cases h
      exact ⟨hdone, c, hi ▸ hc, hstop⟩
    · rw [if_neg hstop] at h
      refine ih (by simp [hi]) (fun j hj => ?_) h
      rw [List.length_append, List.length_singleton] at hj
      rcases Nat.eq_or_lt_of_le (Nat.le_of_lt_succ hj) with rfl | hlt
      · rw [List.getElem_concat_length rfl]
        exact ⟨hi ▸ hc, by simpa using hstop⟩
      · rw [List.getElem_append_left hlt]
        exact hdone j hlt

theorem value_get_command_loop_of_commandAt {n i : Nat} {command : Str}
    (h : CommandAt m.mem addr command) (hi : i ≤ command.length) (hn : command.length < n + i) :
    (get_command_loop (.user addr) true n i (command.take i)).value m.reply = some command := by
  induction n generalizing i with
  | zero => omega
  | succ n ih =>
    rw [get_command_loop, value_get_bind]
    rcases Nat.eq_or_lt_of_le hi with rfl | hlt
    · obtain ⟨c, hc, hstop⟩ := h.stop
      rw [hc, Option.bind_some, if_neg (by simp), value_when_wild_bind, if_pos hstop,
        List.take_length]
      rfl
    · obtain ⟨hc, hgo⟩ := h.chars i hlt
      rw [hc, Option.bind_some, if_neg (by simp), value_when_wild_bind, if_neg (by simp [hgo]),
        List.take_append_getElem hlt]
      exact ih hlt (by omega)

/-- `get_command` returns the first word of the command line. -/
theorem value_get_command {site : Site} {command : Str} :
    (get_command site (.user addr)).value m.reply = some command ↔
      m.answer (.query (.malloc site 128)) = some true ∧ CommandAt m.mem addr command := by
  rw [get_command, value_ask_bind_some]
  constructor
  · rintro ⟨buffer, hbuffer, h⟩
    cases buffer with
    | true =>
      exact ⟨hbuffer, value_get_command_loop List.length_nil.symm
        (fun j hj => absurd hj (Nat.not_lt_zero j)) h⟩
    | false =>
      rw [ADDR_CNT, get_command_loop, value_get_bind, Option.bind_eq_some_iff] at h
      obtain ⟨c, -, h⟩ := h
      cases (value_exit (-1)).symm.trans h
  · rintro ⟨hbuffer, h⟩
    exact ⟨true, hbuffer, value_get_command_loop_of_commandAt h (by omega) h.length_lt⟩

end pintos.prj2
