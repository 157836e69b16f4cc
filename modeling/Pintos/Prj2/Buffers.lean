import Pintos.Prj2.Strings

/-!
# Accesses to user buffers

A call moves the bytes of a buffer in order, up to the first one that cannot be
accessed.
-/

open interaction Prog

namespace pintos.prj2

variable {m : Machine} {addr : Addr} {ok : Nat → Prop}

/-- Of the `n` bytes from byte `i` on, those before the first one that is not `ok`
are at user addresses. -/
def Within (ok : Nat → Prop) (addr : Addr) (i n : Nat) : Prop :=
  ∀ j, i ≤ j → j < i + n → (∀ k, i ≤ k → k ≤ j → ok k) →
    is_user_vaddr (addr + BitVec.ofNat 32 j) = true

theorem within_zero {i : Nat} : Within ok addr i 0 := fun j hij hj => absurd hj (by omega)

theorem within_add {i n p : Nat} :
    Within ok addr i (n + p) ↔
      Within ok addr i n ∧ ((∀ k, i ≤ k → k < i + n → ok k) → Within ok addr (i + n) p) := by
  constructor
  · intro h
    refine ⟨fun j hij hj => h j hij (by omega), fun hok j hij hj hjok => ?_⟩
    refine h j (by omega) (by omega) fun k hik hkj => ?_
    rcases Nat.lt_or_ge k (i + n) with hlt | hge
    · exact hok k hik hlt
    · exact hjok k hge hkj
  · rintro ⟨hfirst, hrest⟩ j hij hj hok
    rcases Nat.lt_or_ge j (i + n) with hlt | hge
    · exact hfirst j hij hlt hok
    · exact hrest (fun k hik hk => hok k hik (by omega)) j hge (by omega)
        fun k hik hkj => hok k (by omega) hkj

theorem within_one {i : Nat} :
    Within ok addr i 1 ↔ (ok i → is_user_vaddr (addr + BitVec.ofNat 32 i) = true) := by
  constructor
  · intro h hok
    exact h i (le_refl i) (by omega) fun k hik hki => Nat.le_antisymm hik hki ▸ hok
  · intro h j hij hj hok
    have hji : j = i := by omega
    subst hji
    exact h (hok j hij (le_refl j))

theorem within_succ {i n : Nat} :
    Within ok addr i (n + 1) ↔
      (ok i → is_user_vaddr (addr + BitVec.ofNat 32 i) = true ∧ Within ok addr (i + 1) n) := by
  rw [Nat.add_comm n 1, within_add, within_one]
  have hone : (∀ k, i ≤ k → k < i + 1 → ok k) ↔ ok i :=
    ⟨fun h => h i (le_refl i) (by omega), fun h k hik hk => Nat.le_antisymm hik (by omega) ▸ h⟩
  rw [hone]
  exact imp_and.symm

/-- The first `n` bytes of a buffer end in user memory, or one of those up to the
first kernel address cannot be accessed. -/
def BufferEnds (ok : Nat → Prop) (buffer : Addr) (n : Nat) : Prop :=
  buffer.toNat + n ≤ PHYS_BASE.toNat ∨ ∃ j, buffer.toNat + j ≤ PHYS_BASE.toNat ∧ ¬ok j

/-- The address of byte `j` of a buffer, as long as it is not above the first
kernel address. -/
theorem is_user_vaddr_add {buffer : Addr} {j : Nat} (h : buffer.toNat + j ≤ PHYS_BASE.toNat) :
    is_user_vaddr (buffer + BitVec.ofNat 32 j) = true ↔ buffer.toNat + j < PHYS_BASE.toNat := by
  rw [is_user_vaddr_iff]
  have hsum : (buffer + BitVec.ofNat 32 j).toNat = buffer.toNat + j := by
    rw [BitVec.toNat_add, BitVec.toNat_ofNat]
    have hbase : PHYS_BASE.toNat = 3221225472 := rfl
    omega
  rw [hsum]

theorem within_iff {buffer : Addr} {n : Nat} (hbuffer : is_user_vaddr buffer = true) :
    Within ok buffer 0 n ↔ BufferEnds ok buffer n := by
  have huser := is_user_vaddr_iff.mp hbuffer
  constructor
  · intro h
    by_contra hends
    simp only [BufferEnds, not_or, not_exists, not_and, not_not, not_le] at hends
    obtain ⟨hlong, hok⟩ := hends
    have hbyte := h (PHYS_BASE.toNat - buffer.toNat) (by omega) (by omega)
      fun k _ hk => hok k (by omega)
    rw [is_user_vaddr_add (by omega)] at hbyte
    omega
  · rintro (hshort | ⟨j, hj, hbad⟩) i _ hi hok
    · exact (is_user_vaddr_add (by omega)).mpr (by omega)
    · have hij : i < j := by
        by_contra hge
        exact hbad (hok j (by omega) (by omega))
      exact (is_user_vaddr_add (by omega)).mpr (by omega)

/-! ## Copying -/

/-- The byte `j` of a buffer can be loaded. -/
def Loads (m : Machine) (addr : Addr) (j : Nat) : Prop :=
  m.mem.byte (addr + BitVec.ofNat 32 j) ≠ none

/-- The byte `j` of a buffer can be stored. -/
def Stores (m : Machine) (addr : Addr) (j : Nat) : Prop :=
  m.mem.stores (addr + BitVec.ofNat 32 j) = true

theorem userOnly_memcpy_from {n i : Nat} :
    UserOnly m (memcpy_from (.user addr) n i) ↔ Within (Loads m addr) addr i n := by
  induction n generalizing i with
  | zero => exact iff_of_true (userOnly_ret []) within_zero
  | succ n ih =>
    rw [memcpy_from, userOnly_get_bind, within_succ, Loads]
    cases m.mem.byte (addr + BitVec.ofNat 32 i) with
    | none => simp
    | some c =>
      simp only [Option.some.injEq, forall_eq', ne_eq, reduceCtorEq, not_false_eq_true,
        forall_const, userOnly_bind, ih]
      exact and_congr_right fun _ => and_iff_left fun _ _ => userOnly_ret _

theorem value_memcpy_from {n i : Nat} :
    ((memcpy_from (.user addr) n i).value m.reply).isSome = true ↔
      ∀ k, i ≤ k → k < i + n → Loads m addr k := by
  induction n generalizing i with
  | zero => exact iff_of_true rfl fun k hik hk => absurd hk (by omega)
  | succ n ih =>
    have hsplit : (∀ k, i ≤ k → k < i + (n + 1) → Loads m addr k) ↔
        Loads m addr i ∧ ∀ k, i + 1 ≤ k → k < i + 1 + n → Loads m addr k := by
      constructor
      · exact fun h => ⟨h i (le_refl i) (by omega), fun k hik hk => h k (by omega) (by omega)⟩
      · rintro ⟨hfirst, hrest⟩ k hik hk
        rcases Nat.eq_or_lt_of_le hik with rfl | hlt
        · exact hfirst
        · exact hrest k hlt (by omega)
    rw [hsplit, ← ih, memcpy_from, value_get_bind, Loads]
    cases m.mem.byte (addr + BitVec.ofNat 32 i) with
    | none => simp
    | some c =>
      rw [Option.bind_some, value_bind]
      cases (memcpy_from (.user addr) n (i + 1)).value m.reply <;> simp

theorem userOnly_store_bind {α : Type} {c : Byte} {f : Unit → Kernel α} :
    UserOnly m (store_byte addr c >>= f) ↔
      (m.mem.stores addr = true → is_user_vaddr addr = true ∧ UserOnly m (f ())) := by
  change UserOnly m (.ask (.store addr c) f) ↔ _
  rw [userOnly_ask]
  simp only [reply_store, Op.bytes, List.mem_singleton, forall_eq]
  cases m.mem.stores addr with
  | false => simp
  | true => exact ⟨fun h _ => h () rfl, fun h _ _ => h rfl⟩

theorem value_store_bind {α : Type} {c : Byte} {f : Unit → Kernel α} :
    (store_byte addr c >>= f).value m.reply =
      if m.mem.stores addr = true then (f ()).value m.reply else none := by
  change Prog.value m.reply (.ask (.store addr c) f) = _
  cases h : m.mem.stores addr with
  | false =>
    have hrefuse : m.reply (.store addr c) = none := by rw [reply_store, h]; rfl
    exact value_of_none hrefuse
  | true =>
    have hgrant : m.reply (.store addr c) = some () := by rw [reply_store, h]; rfl
    exact value_of_some hgrant

theorem userOnly_memcpy_to {c : Nat → Byte} {n i : Nat} :
    UserOnly m (memcpy_to addr c n i) ↔ Within (Stores m addr) addr i n := by
  induction n generalizing i with
  | zero => exact iff_of_true (userOnly_ret ()) within_zero
  | succ n ih => rw [memcpy_to, userOnly_store_bind, within_succ, ih, Stores]

theorem value_memcpy_to {c : Nat → Byte} {n i : Nat} :
    ((memcpy_to addr c n i).value m.reply).isSome = true ↔
      ∀ k, i ≤ k → k < i + n → Stores m addr k := by
  induction n generalizing i with
  | zero => exact iff_of_true rfl fun k hik hk => absurd hk (by omega)
  | succ n ih =>
    rw [memcpy_to, value_store_bind]
    constructor
    · intro h k hik hk
      split at h
      · rename_i hstore
        rcases Nat.eq_or_lt_of_le hik with rfl | hlt
        · exact hstore
        · exact ih.mp h k hlt (by omega)
      · cases h
    · intro h
      have hstore : m.mem.stores (addr + BitVec.ofNat 32 i) = true := h i (le_refl i) (by omega)
      rw [if_pos hstore]
      exact ih.mpr fun k hik hk => h k (by omega) (by omega)

/-- The keyboard has a character for the byte and it can be stored. -/
def Receives (m : Machine) (addr : Addr) (j : Nat) : Prop :=
  m.answer (.query (.input_getc j)) ≠ none ∧ Stores m addr j

theorem userOnly_read_input {n i : Nat} :
    UserOnly m (read_input addr n i) ↔ Within (Receives m addr) addr i n := by
  induction n generalizing i with
  | zero => exact iff_of_true (userOnly_ret ()) within_zero
  | succ n ih =>
    rw [read_input, userOnly_ask_bind, within_succ, Receives]
    cases m.answer (.query (.input_getc i)) with
    | none => simp
    | some c =>
      simp only [Option.some.injEq, forall_eq', ne_eq, reduceCtorEq, not_false_eq_true, true_and,
        userOnly_store_bind, ih, Stores]

/-! ## File data -/

/-- The number of bytes that `inode_read_at` and `inode_write_at` move: without a
bounce buffer, full sectors only. -/
def moved (file : File) (bounce : Bool) (size offset : Nat) : Nat :=
  let left := min size (file.length - offset)
  if bounce then left
  else if offset % BLOCK_SECTOR_SIZE = 0 then left / BLOCK_SECTOR_SIZE * BLOCK_SECTOR_SIZE
  else 0

theorem moved_of_chunk_zero {file : File} {bounce : Bool} {size offset : Nat}
    (h : chunk_size file size offset = 0) : moved file bounce size offset = 0 := by
  have hleft : min size (file.length - offset) = 0 := by
    simp only [chunk_size, BLOCK_SECTOR_SIZE] at h
    omega
  simp [moved, hleft]

/-- One turn with the bounce buffer at hand, or of a full sector. -/
theorem moved_turn {file : File} {bounce : Bool} {size offset : Nat}
    (h : (full_sector file size offset || bounce) = true) :
    moved file bounce size offset = chunk_size file size offset +
      moved file bounce (size - chunk_size file size offset)
        (offset + chunk_size file size offset) := by
  have hsector : BLOCK_SECTOR_SIZE = 512 := rfl
  cases bounce with
  | true =>
    simp only [moved, chunk_size, if_true]
    omega
  | false =>
    simp only [Bool.or_false, full_sector, Bool.and_eq_true, decide_eq_true_eq] at h
    obtain ⟨haligned, hchunk⟩ := h
    rw [hchunk]
    simp only [chunk_size] at hchunk
    simp only [moved, Bool.false_eq_true, if_false]
    rw [hsector] at haligned hchunk ⊢
    rw [if_pos haligned, if_pos (by omega)]
    omega

theorem moved_of_partial {file : File} {size offset : Nat}
    (h : full_sector file size offset = false) : moved file false size offset = 0 := by
  have hsector : BLOCK_SECTOR_SIZE = 512 := rfl
  simp only [full_sector, Bool.and_eq_false_iff, decide_eq_false_iff_not] at h
  simp only [chunk_size] at h
  simp only [moved, Bool.false_eq_true, if_false]
  rw [hsector] at h ⊢
  split <;> omega

/-- There is memory for the bounce buffer. -/
def Bounces (m : Machine) : Bool := m.answer (.query (.malloc .inode BLOCK_SECTOR_SIZE)) == some true

/-- What the loops access is what they move. The induction is on the turns that
are left. -/
theorem userOnly_inode_loop {file : File} {copy : Nat → Nat → Kernel Unit}
    (hcopy : ∀ i n, UserOnly m (copy i n) ↔ Within ok addr i n)
    (hvalue : ∀ i n, ((copy i n).value m.reply).isSome = true ↔ ∀ k, i ≤ k → k < i + n → ok k)
    {n size offset bytes : Nat} {bounce : Bool} (hn : size ≤ n) :
    UserOnly m (inode_loop file copy n size offset bytes bounce) ↔
      Within ok addr bytes (moved file (bounce || Bounces m) size offset) := by
  have hturn : ∀ (i c : Nat) (f : Unit → Kernel Nat), UserOnly m (copy i c >>= f) ↔
      Within ok addr i c ∧ ((∀ k, i ≤ k → k < i + c → ok k) → UserOnly m (f ())) := by
    intro i c f
    rw [userOnly_bind, hcopy, ← hvalue]
    cases (copy i c).value m.reply with
    | none => simp
    | some u => exact and_congr_right fun _ => ⟨fun h _ => h () rfl, fun h _ _ => h rfl⟩
  induction n generalizing size offset bytes bounce with
  | zero =>
    have hzero : chunk_size file size offset = 0 := by simp only [chunk_size]; omega
    rw [moved_of_chunk_zero hzero]
    exact iff_of_true (userOnly_ret bytes) within_zero
  | succ n ih =>
    rw [inode_loop]
    by_cases hchunk : chunk_size file size offset = 0
    · rw [if_pos hchunk, moved_of_chunk_zero hchunk]
      exact iff_of_true (userOnly_ret bytes) within_zero
    · have hrest : size - chunk_size file size offset ≤ n := by omega
      rw [if_neg hchunk]
      by_cases hfull : (full_sector file size offset || bounce) = true
      · have hfull' : (full_sector file size offset || (bounce || Bounces m)) = true := by
          rw [← Bool.or_assoc, hfull, Bool.true_or]
        rw [if_pos hfull, hturn, moved_turn hfull', within_add]
        exact and_congr_right fun _ => imp_congr_right fun _ => ih hrest
      · rw [if_neg hfull, userOnly_ask_bind]
        simp only [Bool.or_eq_true, not_or, Bool.not_eq_true] at hfull
        obtain ⟨hshort, hnone⟩ := hfull
        rw [hnone, Bool.false_or]
        cases hmalloc : m.answer (.query (.malloc .inode BLOCK_SECTOR_SIZE)) with
        | none =>
          have hno : Bounces m = false := by simp [Bounces, hmalloc]
          rw [hno, moved_of_partial hshort]
          exact iff_of_true (by simp) within_zero
        | some got =>
          cases got with
          | false =>
            have hno : Bounces m = false := by simp [Bounces, hmalloc]
            rw [hno, moved_of_partial hshort]
            exact iff_of_true (by simp) within_zero
          | true =>
            have hyes : Bounces m = true := by simp [Bounces, hmalloc]
            simp only [Option.some.injEq, forall_eq', if_true]
            rw [hturn, hyes, moved_turn (Bool.or_true _), within_add]
            refine and_congr_right fun _ => imp_congr_right fun _ => ?_
            have hrec : UserOnly m (inode_loop file copy n
                (size - chunk_size file size offset) (offset + chunk_size file size offset)
                (bytes + chunk_size file size offset) true) ↔ _ := ih hrest
            rwa [Bool.true_or] at hrec

theorem userOnly_inode_read_at {file : File} {size : Int} {offset : Nat} :
    UserOnly m (inode_read_at file addr size offset) ↔
      Within (Stores m addr) addr 0 (moved file (Bounces m) size.toNat offset) :=
  userOnly_inode_loop (fun _ _ => userOnly_memcpy_to) (fun _ _ => value_memcpy_to) (le_refl _)

theorem userOnly_inode_write_at {file : File} {size : Int} {offset : Nat} :
    UserOnly m (inode_write_at file addr size offset) ↔
      (file.deny_write = false →
        Within (Loads m addr) addr 0 (moved file (Bounces m) size.toNat offset)) := by
  unfold inode_write_at
  cases file.deny_write with
  | true =>
    rw [if_pos rfl]
    exact iff_of_true (userOnly_ret 0) (by simp)
  | false =>
    rw [if_neg (by simp), imp_iff_right rfl]
    refine userOnly_inode_loop (fun i n => ?_) (fun i n => ?_) (le_refl _)
    · rw [userOnly_bind, userOnly_memcpy_from]
      exact and_iff_left fun _ _ => userOnly_ret ()
    · rw [← value_memcpy_from, value_bind]
      cases (memcpy_from (.user addr) n i).value m.reply <;> rfl

end pintos.prj2
