import Pintos.Lib.Bytes
import Mathlib.Data.Nat.Bitwise
import Mathlib.Tactic.Common

/-!
# Bitmap search (`lib/kernel/bitmap.c`)

A bitmap is a struct at an address that tells where its elements are. A false `ASSERT` ends in
`none`. `bitmap_scan` returns the first group of bits, wherever the elements are.
-/

open bytes

namespace pintos.kernel

/-- The bytes of memory. -/
abbrev Ram := Nat → BitVec 8

def ELEM_BITS : Nat := 32

/-- `sizeof (struct bitmap)`. -/
def sizeof_bitmap : Nat := 8

/-- The member `bit_cnt` of the bitmap at `b`. -/
def bit_cnt (m : Ram) (b : Nat) : Nat := word m b

/-- The member `bits` of the bitmap at `b`. -/
def bits (m : Ram) (b : Nat) : Nat := word m (b + 4)

/-- `elem_idx`. -/
def elem_idx (bit_idx : Nat) : Nat := bit_idx / ELEM_BITS

/-- `bit_mask`. -/
def bit_mask (bit_idx : Nat) : Nat := 2 ^ (bit_idx % ELEM_BITS)

/-- `elem_cnt`. -/
def elem_cnt (bit_cnt : Nat) : Nat := (bit_cnt + ELEM_BITS - 1) % 2 ^ 32 / ELEM_BITS

/-- `byte_cnt`. -/
def byte_cnt (bit_cnt : Nat) : Nat := 4 * elem_cnt bit_cnt

/-- `bitmap_buf_size`. -/
def bitmap_buf_size (bit_cnt : Nat) : Nat := sizeof_bitmap + byte_cnt bit_cnt

section Bits

variable (m : Ram) (b bit_idx : Nat)

/-- The address of the element of a bit. -/
def elem_at : Nat := bits m b + 4 * elem_idx bit_idx

/-- `bitmap_mark`. -/
def bitmap_mark : Ram := store_word m (elem_at m b bit_idx) (word m (elem_at m b bit_idx) ||| bit_mask bit_idx)

/-- `bitmap_reset`; the mask is complemented in 32 bits. -/
def bitmap_reset : Ram :=
  store_word m (elem_at m b bit_idx) (word m (elem_at m b bit_idx) &&& ((2 ^ 32 - 1) ^^^ bit_mask bit_idx))

/-- `bitmap_set`. -/
def bitmap_set (value : Bool) : Option Ram := do
  guard (bit_idx < bit_cnt m b)
  return if value then bitmap_mark m b bit_idx else bitmap_reset m b bit_idx

/-- `bitmap_test`. -/
def bitmap_test : Option Bool := do
  guard (bit_idx < bit_cnt m b)
  return word m (elem_at m b bit_idx) &&& bit_mask bit_idx != 0

end Bits

/-- The checks on a range of bits. -/
def bitmap_range (m : Ram) (b start cnt : Nat) : Option Unit := do
  guard (start ≤ bit_cnt m b)
  guard ((start + cnt) % 2 ^ 32 ≤ bit_cnt m b)

/-- The loop of `bitmap_set_multiple`: `n` bits are left, from `idx` on. -/
def bitmap_set_loop (b : Nat) (value : Bool) : Nat → Nat → Ram → Option Ram
  | 0, _, m => some m
  | n + 1, idx, m => do bitmap_set_loop b value n (idx + 1) (← bitmap_set m b idx value)

/-- `bitmap_set_multiple`. -/
def bitmap_set_multiple (m : Ram) (b start cnt : Nat) (value : Bool) : Option Ram := do
  bitmap_range m b start cnt
  bitmap_set_loop b value cnt start m

/-- `bitmap_set_all`. -/
def bitmap_set_all (m : Ram) (b : Nat) (value : Bool) : Option Ram :=
    bitmap_set_multiple m b 0 (bit_cnt m b) value

/-- `bitmap_create_in_buf`. -/
def bitmap_create_in_buf (m : Ram) (cnt block block_size : Nat) : Option Ram := do
  guard (bitmap_buf_size cnt ≤ block_size)
  let m := store_word m block cnt
  let m := store_word m (block + 4) (block + sizeof_bitmap)
  bitmap_set_all m block false

/-- `bitmap_create`, where `malloc` has returned `b` for the struct and then `p` for the elements:
memory afterwards, and the bitmap. -/
def bitmap_create (m : Ram) (cnt b p : Nat) : Option (Ram × Nat) := do
  if b ≠ 0 then
    let m := store_word m b cnt
    let m := store_word m (b + 4) p
    if p ≠ 0 ∨ cnt = 0 then return (← bitmap_set_all m b false, b)
    else return (m, 0)
  else return (m, 0)

/-- The loop of `bitmap_contains`. -/
def bitmap_contains_loop (m : Ram) (b : Nat) (value : Bool) : Nat → Nat → Option Bool
  | 0, _ => some false
  | n + 1, idx => do
    if (← bitmap_test m b idx) = value then return true
    bitmap_contains_loop m b value n (idx + 1)

/-- `bitmap_contains`. -/
def bitmap_contains (m : Ram) (b start cnt : Nat) (value : Bool) : Option Bool := do
  bitmap_range m b start cnt
  bitmap_contains_loop m b value cnt start

/-- `bitmap_all`. -/
def bitmap_all (m : Ram) (b start cnt : Nat) : Option Bool := do return !(← bitmap_contains m b start cnt false)

/-- The loop of `bitmap_scan`: `n` groups are left, from `i` on. -/
def bitmap_scan_loop (m : Ram) (b cnt : Nat) (value : Bool) : Nat → Nat → Option (Option Nat)
  | 0, _ => some none
  | n + 1, i => do
    if !(← bitmap_contains m b i cnt (!value)) then return some i
    bitmap_scan_loop m b cnt value n (i + 1)

/-- `bitmap_scan`. -/
def bitmap_scan (m : Ram) (b start cnt : Nat) (value : Bool) : Option (Option Nat) := do
  guard (start ≤ bit_cnt m b)
  if cnt ≤ bit_cnt m b then bitmap_scan_loop m b cnt value (bit_cnt m b - cnt + 1 - start) start
  else return none

/-- `bitmap_scan_and_flip`. -/
def bitmap_scan_and_flip (m : Ram) (b start cnt : Nat) (value : Bool) : Option (Ram × Option Nat) := do
  match ← bitmap_scan m b start cnt value with
  | some idx => return (← bitmap_set_multiple m b idx cnt (!value), some idx)
  | none => return (m, none)

/-- Only the elements of the bitmap differ. -/
def ElementsOnly (m m' : Ram) (b n : Nat) : Prop := ∀ a, a < bits m b ∨ bits m b + byte_cnt n ≤ a → m' a = m a

/-- The memory holds a bitmap at `b` with an element for each of its `n` bits. The bits of the
elements are `f`, the unused ones at the end included. -/
structure Stored (m : Ram) (b n : Nat) (f : Nat → Bool) : Prop where
  cnt : bit_cnt m b = n
  room : ∀ i < n, elem_idx i < elem_cnt n
  apart : bits m b + byte_cnt n ≤ b ∨ b + sizeof_bitmap ≤ bits m b
  bit : ∀ i < ELEM_BITS * elem_cnt n, (word m (bits m b + 4 * elem_idx i)).testBit (i % ELEM_BITS) = f i

/-- A group of bits with one value. -/
def Group (f : Nat → Bool) (value : Bool) (start cnt : Nat) : Prop :=
  ∀ i, start ≤ i → i < start + cnt → f i = value

/-- The first group of `cnt` bits at or after `start` is at `idx`. -/
structure FirstGroup (f : Nat → Bool) (value : Bool) (n start cnt idx : Nat) : Prop where
  after : start ≤ idx
  fits : idx + cnt ≤ n
  group : Group f value idx cnt
  least : ∀ i, start ≤ i → i < idx → ¬ Group f value i cnt

namespace Stored

variable {m m' : Ram} {b n start cnt idx : Nat} {f g : Nat → Bool}

theorem ext (h : Stored m b n f) (hfg : ∀ i, f i = g i) : Stored m b n g :=
  ⟨h.cnt, h.room, h.apart, fun i hi => (h.bit i hi).trans (hfg i)⟩

/-- The elements could not be counted if there were more bits. -/
theorem small (h : Stored m b n f) : n + 31 < 2 ^ 32 := by
  have hlt : n < 2 ^ 32 := h.cnt ▸ word_lt m b
  by_contra hlarge
  have hroom := h.room 0 (by omega)
  rw [elem_cnt, ELEM_BITS] at hroom
  omega

theorem bits_eq (h : Stored m b n f) (hm : ElementsOnly m m' b n) : bits m' b = bits m b := by
  have hapart := h.apart
  rw [sizeof_bitmap] at hapart
  apply word_congr
  intro i hi
  apply hm
  omega

theorem bit_cnt_eq (h : Stored m b n f) (hm : ElementsOnly m m' b n) : bit_cnt m' b = n := by
  have hapart := h.apart
  rw [sizeof_bitmap] at hapart
  rw [← h.cnt]
  apply word_congr
  intro i hi
  apply hm
  omega

/-- The element of a bit with one bit changed. -/
theorem store (h : Stored m b n f) {w : Nat} {value : Bool} (hidx : idx < n) (hw : w < 2 ^ 32)
    (hbits : ∀ k < 32, w.testBit k = if k = idx % 32 then value else (word m (elem_at m b idx)).testBit k) :
    Stored (store_word m (elem_at m b idx) w) b n (fun i => if i = idx then value else f i) ∧
      ElementsOnly m (store_word m (elem_at m b idx) w) b n := by
  have hroom := h.room idx hidx
  have hframe : ElementsOnly m (store_word m (elem_at m b idx) w) b n := by
    intro a ha
    rw [byte_cnt] at ha
    apply store_word_outside
    rw [elem_at]
    omega
  refine ⟨⟨h.bit_cnt_eq hframe, h.room, ?_, ?_⟩, hframe⟩
  · rw [h.bits_eq hframe]
    exact h.apart
  · intro i hi
    have hbit := h.bit i hi
    rw [h.bits_eq hframe]
    simp only [elem_idx, ELEM_BITS] at hbit ⊢
    by_cases hsame : i / 32 = idx / 32
    · rw [hsame] at hbit ⊢
      change (word (store_word m (elem_at m b idx) w) (elem_at m b idx)).testBit _ = _
      rw [word_store_word m _ hw, hbits _ (Nat.mod_lt _ (by omega))]
      have hiff : i % 32 = idx % 32 ↔ i = idx := by omega
      simp only [hiff]
      rw [← hbit]
      rfl
    · have hne : i ≠ idx := fun heq => hsame (by rw [heq])
      have hat : elem_at m b idx = bits m b + 4 * (idx / 32) := rfl
      rw [word_store_word_ne m (by omega), hbit, if_neg hne]

theorem set_run (h : Stored m b n f) (hidx : idx < n) (value : Bool) :
    ∃ m', bitmap_set m b idx value = some m' ∧ Stored m' b n (fun i => if i = idx then value else f i) ∧
      ElementsOnly m m' b n := by
  have hlt := word_lt m (elem_at m b idx)
  have hmask : bit_mask idx < 2 ^ 32 := Nat.pow_lt_pow_right (by omega) (Nat.mod_lt _ (by decide))
  have hguard : idx < bit_cnt m b := h.cnt ▸ hidx
  cases value with
  | true =>
    refine ⟨_, by rw [bitmap_set]; simp [hguard]; rfl, h.store hidx (Nat.or_lt_two_pow hlt hmask) ?_⟩
    intro k _
    rw [Nat.testBit_or, bit_mask, Nat.testBit_two_pow, ELEM_BITS]
    obtain rfl | hk := eq_or_ne k (idx % 32)
    · simp
    · simp [hk, hk.symm]
  | false =>
    refine ⟨_, by rw [bitmap_set]; simp [hguard]; rfl, h.store hidx (Nat.lt_of_le_of_lt Nat.and_le_left hlt) ?_⟩
    intro k hk
    rw [Nat.testBit_and, Nat.testBit_xor, Nat.testBit_two_pow_sub_one, bit_mask, Nat.testBit_two_pow, ELEM_BITS]
    obtain rfl | hne := eq_or_ne k (idx % 32)
    · simp [hk]
    · simp [hk, hne, hne.symm]

theorem test_run (h : Stored m b n f) (hidx : idx < n) : bitmap_test m b idx = some (f idx) := by
  have hguard : idx < bit_cnt m b := h.cnt ▸ hidx
  have hroom := h.room idx hidx
  have hin : idx < ELEM_BITS * elem_cnt n := by
    rw [elem_idx, ELEM_BITS] at hroom
    rw [ELEM_BITS]
    omega
  have hbit : (word m (elem_at m b idx) &&& bit_mask idx != 0) = f idx := by
    rw [elem_at, ← h.bit idx hin, bit_mask, Nat.and_two_pow]
    cases (word m (bits m b + 4 * elem_idx idx)).testBit (idx % ELEM_BITS) <;> simp
  simp [bitmap_test, hguard, hbit]

theorem range_run (h : Stored m b n f) (hrange : start + cnt ≤ n) : bitmap_range m b start cnt = some () := by
  have hsmall := h.small
  have hstart : start ≤ bit_cnt m b := by
    rw [h.cnt]
    omega
  have hend : (start + cnt) % 2 ^ 32 ≤ bit_cnt m b := by
    rw [h.cnt]
    omega
  simp only [bitmap_range, hstart, hend, guard_true, Option.bind_eq_bind, Option.pure_def, Option.bind_some]

theorem set_loop_run (value : Bool) (cnt : Nat) : ∀ {m : Ram} {f : Nat → Bool} {idx : Nat}, Stored m b n f →
    idx + cnt ≤ n → ∃ m', bitmap_set_loop b value cnt idx m = some m' ∧
      Stored m' b n (fun i => if idx ≤ i ∧ i < idx + cnt then value else f i) ∧ ElementsOnly m m' b n := by
  induction cnt with
  | zero =>
    intro m f idx h _
    refine ⟨m, rfl, h.ext ?_, fun _ _ => rfl⟩
    intro i
    rw [if_neg (by omega)]
  | succ cnt ih =>
    intro m f idx h hrange
    obtain ⟨m₁, hset, h₁, hframe₁⟩ := h.set_run (by omega : idx < n) value
    obtain ⟨m₂, hloop, h₂, hframe₂⟩ := ih h₁ (by omega : idx + 1 + cnt ≤ n)
    refine ⟨m₂, by rw [bitmap_set_loop, hset]; exact hloop, h₂.ext ?_, ?_⟩
    · intro i
      split_ifs <;> first | rfl | omega
    · intro a ha
      rw [hframe₂ a (by rwa [h.bits_eq hframe₁]), hframe₁ a ha]

theorem set_multiple_run (h : Stored m b n f) (hrange : start + cnt ≤ n) (value : Bool) :
    ∃ m', bitmap_set_multiple m b start cnt value = some m' ∧
      Stored m' b n (fun i => if start ≤ i ∧ i < start + cnt then value else f i) ∧ ElementsOnly m m' b n := by
  obtain ⟨m', hloop, h', hframe⟩ := set_loop_run value cnt h hrange
  refine ⟨m', ?_, h', hframe⟩
  rw [bitmap_set_multiple, h.range_run hrange]
  exact hloop

/-- A new bitmap: `malloc` has returned null for no bytes at all, so there is an element for each
bit if there are any. -/
theorem create_run (m : Ram) {p : Nat} (hn : n < 2 ^ 32) (hb : b ≠ 0) (hp : p < 2 ^ 32) (hsome : p ≠ 0 ∨ n = 0)
    (hnull : byte_cnt n = 0 → p = 0) (hapart : p + byte_cnt n ≤ b ∨ b + sizeof_bitmap ≤ p) :
    ∃ m' f, bitmap_create m n b p = some (m', b) ∧ Stored m' b n f ∧ ∀ i < n, f i = false := by
  have hcnt : bit_cnt (store_word (store_word m b n) (b + 4) p) b = n := by
    rw [bit_cnt, word_store_word_ne _ (Or.inl (Nat.le_refl _)), word_store_word _ _ hn]
  have hbits : bits (store_word (store_word m b n) (b + 4) p) b = p := word_store_word _ _ hp
  have hroom : ∀ i < n, elem_idx i < elem_cnt n := by
    intro i hi
    have hsize : 0 < elem_cnt n := by
      rw [byte_cnt] at hnull
      omega
    rw [elem_cnt, ELEM_BITS] at hsize
    rw [elem_idx, elem_cnt, ELEM_BITS]
    omega
  -- What is in the new elements are the bits at first.
  have h : Stored (store_word (store_word m b n) (b + 4) p) b n _ :=
    ⟨hcnt, hroom, hbits.symm ▸ hapart, fun _ _ => rfl⟩
  obtain ⟨m', hset, h', -⟩ := h.set_multiple_run (by omega : 0 + n ≤ n) false
  refine ⟨m', _, ?_, h', fun i hi => if_pos (by omega)⟩
  simp only [bitmap_create, if_pos hb, if_pos hsome, bitmap_set_all, hcnt, hset, Option.bind_eq_bind,
    Option.bind_some,
    Option.pure_def]

theorem contains_loop_run (h : Stored m b n f) (value : Bool) (cnt : Nat) : ∀ {idx : Nat}, idx + cnt ≤ n →
    ∃ r, bitmap_contains_loop m b value cnt idx = some r ∧
      (r = true ↔ ∃ i, idx ≤ i ∧ i < idx + cnt ∧ f i = value) := by
  induction cnt with
  | zero =>
    intro idx _
    refine ⟨false, rfl, ?_⟩
    constructor
    · intro hfalse
      contradiction
    · rintro ⟨i, hlow, hhigh, -⟩
      omega
  | succ cnt ih =>
    intro idx hrange
    have htest := h.test_run (by omega : idx < n)
    obtain ⟨r, hloop, hr⟩ := ih (by omega : idx + 1 + cnt ≤ n)
    by_cases hvalue : f idx = value
    · exact ⟨true, by simp [bitmap_contains_loop, htest, hvalue], fun _ => ⟨idx, by omega, by omega, hvalue⟩,
        fun _ => rfl⟩
    · refine ⟨r, by simp [bitmap_contains_loop, htest, hvalue, hloop], hr.trans ?_⟩
      constructor
      · rintro ⟨i, hlow, hhigh, hi⟩
        exact ⟨i, by omega, by omega, hi⟩
      · rintro ⟨i, hlow, hhigh, hi⟩
        have hne : i ≠ idx := fun heq => hvalue (heq ▸ hi)
        exact ⟨i, by omega, by omega, hi⟩

theorem contains_run (h : Stored m b n f) (hrange : start + cnt ≤ n) (value : Bool) :
    ∃ r, bitmap_contains m b start cnt value = some r ∧
      (r = true ↔ ∃ i, start ≤ i ∧ i < start + cnt ∧ f i = value) := by
  obtain ⟨r, hloop, hr⟩ := h.contains_loop_run value cnt hrange
  refine ⟨r, ?_, hr⟩
  rw [bitmap_contains, h.range_run hrange]
  exact hloop

/-- A group has no bit of the other value. -/
theorem contains_not_run (h : Stored m b n f) (hrange : start + cnt ≤ n) (value : Bool) :
    ∃ r, bitmap_contains m b start cnt (!value) = some r ∧ (r = false ↔ Group f value start cnt) := by
  obtain ⟨r, hrun, hr⟩ := h.contains_run hrange (!value)
  refine ⟨r, hrun, ?_⟩
  rw [← Bool.not_eq_true, hr]
  constructor
  · intro hnone i hlow hhigh
    by_contra hi
    exact hnone ⟨i, hlow, hhigh, (Bool.eq_not_of_ne hi)⟩
  · rintro hgroup ⟨i, hlow, hhigh, hi⟩
    rw [hgroup i hlow hhigh] at hi
    cases value <;> contradiction

theorem scan_loop_run (h : Stored m b n f) (value : Bool) (groups : Nat) : ∀ {i : Nat},
    i + groups + cnt ≤ n + 1 →
    ∃ r, bitmap_scan_loop m b cnt value groups i = some r ∧
      (∀ idx, r = some idx → FirstGroup f value n i cnt idx) ∧
      (r = none → ∀ idx, i ≤ idx → idx < i + groups → ¬ Group f value idx cnt) := by
  induction groups with
  | zero =>
    intro i _
    refine ⟨none, rfl, fun _ h => by contradiction, ?_⟩
    intro _ idx hlow hhigh
    omega
  | succ groups ih =>
    intro i hrange
    obtain ⟨c, hcontains, hgroup⟩ := h.contains_not_run (by omega : i + cnt ≤ n) value
    cases c with
    | false =>
      refine ⟨some i, by simp [bitmap_scan_loop, hcontains], ?_, fun h => by contradiction⟩
      rintro idx hidx
      obtain rfl := Option.some.inj hidx
      exact ⟨Nat.le_refl _, by omega, hgroup.mp rfl, fun j hj hlt => absurd hj (by omega)⟩
    | true =>
      obtain ⟨r, hloop, hsome, hnone⟩ := ih (by omega : i + 1 + groups + cnt ≤ n + 1)
      have hi : ¬ Group f value i cnt := fun hg => absurd (hgroup.mpr hg) (by decide)
      refine ⟨r, by simp [bitmap_scan_loop, hcontains, hloop], ?_, ?_⟩
      · intro idx hidx
        obtain ⟨hafter, hfits, hg, hleast⟩ := hsome idx hidx
        refine ⟨by omega, hfits, hg, ?_⟩
        intro j hj hlt
        obtain rfl | hne := eq_or_ne j i
        · exact hi
        · exact hleast j (by omega) hlt
      · intro hr idx hlow hhigh
        obtain rfl | hne := eq_or_ne idx i
        · exact hi
        · exact hnone hr idx (by omega) (by omega)

/-- `bitmap_scan` finds the first group, exactly if there is one. -/
theorem scan_run (h : Stored m b n f) (hstart : start ≤ n) (cnt : Nat) (value : Bool) :
    ∃ r, bitmap_scan m b start cnt value = some r ∧ (∀ idx, r = some idx → FirstGroup f value n start cnt idx) ∧
      (r = none → ∀ idx, start ≤ idx → idx + cnt ≤ n → ¬ Group f value idx cnt) := by
  have hguard : start ≤ bit_cnt m b := h.cnt ▸ hstart
  by_cases hcnt : cnt ≤ n
  · by_cases hlast : start + cnt ≤ n
    · obtain ⟨r, hloop, hsome, hnone⟩ :=
        h.scan_loop_run value (n - cnt + 1 - start) (by omega : start + (n - cnt + 1 - start) + cnt ≤ n + 1)
      refine ⟨r, by simp [bitmap_scan, h.cnt, hstart, hcnt, hloop], hsome, ?_⟩
      intro hr idx hlow hhigh
      exact hnone hr idx hlow (by omega)
    · refine ⟨none, ?_, fun _ h => by contradiction, fun _ idx hlow hhigh => by omega⟩
      have hzero : n - cnt + 1 - start = 0 := by omega
      simp [bitmap_scan, h.cnt, hstart, hcnt, hzero, bitmap_scan_loop]
  · refine ⟨none, by simp [bitmap_scan, h.cnt, hstart, hcnt], fun _ h => by contradiction, ?_⟩
    intro _ idx _ hidx
    omega

/-- `bitmap_scan_and_flip` inverts the group that `bitmap_scan` has found. -/
theorem scan_and_flip_run (h : Stored m b n f) (hstart : start ≤ n) (cnt : Nat) (value : Bool) :
    (∃ m' idx, bitmap_scan m b start cnt value = some (some idx) ∧
      bitmap_scan_and_flip m b start cnt value = some (m', some idx) ∧ FirstGroup f value n start cnt idx ∧
      Stored m' b n (fun i => if idx ≤ i ∧ i < idx + cnt then !f i else f i) ∧ ElementsOnly m m' b n) ∨
    (bitmap_scan m b start cnt value = some none ∧ bitmap_scan_and_flip m b start cnt value = some (m, none) ∧
      ∀ idx, start ≤ idx → idx + cnt ≤ n → ¬ Group f value idx cnt) := by
  obtain ⟨r, hscan, hsome, hnone⟩ := h.scan_run hstart cnt value
  cases r with
  | none =>
    right
    exact ⟨hscan, by simp [bitmap_scan_and_flip, hscan], hnone rfl⟩
  | some idx =>
    left
    have hfirst := hsome idx rfl
    obtain ⟨m', hset, h', hframe⟩ := h.set_multiple_run hfirst.fits (!value)
    refine ⟨m', idx, hscan, by simp [bitmap_scan_and_flip, hscan, hset], hfirst, h'.ext ?_, hframe⟩
    intro i
    split_ifs with hi
    · rw [hfirst.group i hi.1 hi.2]
    · rfl

end Stored

def BITMAP_ERROR : Nat := 2 ^ 32 - 1

/-- `bitmap_scan` returns the start of the first group, and `BITMAP_ERROR` exactly if there is no
group; `bitmap_scan_and_flip` returns the same and inverts the group, and nothing else. -/
theorem bitmap_scan_finds {m : Ram} {b n start : Nat} {f : Nat → Bool} (h : Stored m b n f) (hstart : start ≤ n)
    (cnt : Nat) (value : Bool) :
    ∃ r m', bitmap_scan m b start cnt value = some r ∧ bitmap_scan_and_flip m b start cnt value = some (m', r) ∧
      (∀ idx, r = some idx → idx ≠ BITMAP_ERROR ∧ FirstGroup f value n start cnt idx ∧
        Stored m' b n (fun i => if idx ≤ i ∧ i < idx + cnt then !f i else f i) ∧ ElementsOnly m m' b n) ∧
      (r.getD BITMAP_ERROR = BITMAP_ERROR ↔ ∀ i, start ≤ i → i + cnt ≤ n → ¬ Group f value i cnt) ∧
      (r.getD BITMAP_ERROR = BITMAP_ERROR → m' = m) := by
  obtain ⟨m', idx, hscan, hflip, hfirst, h', hframe⟩ | ⟨hscan, hflip, hnone⟩ :=
    h.scan_and_flip_run hstart cnt value
  · have hsmall := h.small
    have hfits := hfirst.fits
    have hne : idx ≠ BITMAP_ERROR := by
      rw [BITMAP_ERROR]
      omega
    refine ⟨some idx, m', hscan, hflip, ?_, iff_of_false hne ?_, fun heq => absurd heq hne⟩
    · rintro _ ⟨⟩
      exact ⟨hne, hfirst, h', hframe⟩
    · intro hnone
      exact hnone idx hfirst.after hfits hfirst.group
  · exact ⟨none, m, hscan, hflip, fun _ h => by contradiction, iff_of_true rfl hnone, fun _ => rfl⟩

/-- Three bits at 8, of which the middle one is set; their element is at 20. -/
def three_bits : Ram := fun a => if a = 8 then 3 else if a = 12 then 20 else if a = 20 then 2 else 0

theorem three_bits_stored : Stored three_bits 8 3 fun i => i = 1 :=
  ⟨by decide, by decide, .inr (by decide), by decide⟩

/-- From the second bit on, the first clear bit is the third one. -/
theorem bitmap_scan_finds_third :
    ∃ r m', bitmap_scan three_bits 8 1 1 false = some r ∧ bitmap_scan_and_flip three_bits 8 1 1 false =
      some (m', r) ∧
      (∀ idx, r = some idx → idx ≠ BITMAP_ERROR ∧ FirstGroup (fun i => i = 1) false 3 1 1 idx ∧
        Stored m' 8 3 (fun i => if idx ≤ i ∧ i < idx + 1 then !decide (i = 1) else decide (i = 1)) ∧
        ElementsOnly three_bits m' 8 3) ∧
      (r.getD BITMAP_ERROR = BITMAP_ERROR ↔ ∀ i, 1 ≤ i → i + 1 ≤ 3 → ¬ Group (fun i => i = 1) false i 1) ∧
      (r.getD BITMAP_ERROR = BITMAP_ERROR → m' = three_bits) :=
  bitmap_scan_finds three_bits_stored (by decide) 1 false

end pintos.kernel
