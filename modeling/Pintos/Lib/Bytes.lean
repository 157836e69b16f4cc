import Pintos.Lib.TwosComplement
import Mathlib.Tactic.Common

/-!
# Memory as a sequence of items

What a pointer points to, as the function from an offset to the item there, with
the copy of a range of items from one place to another. Items can be of any type;
the words of four bytes at the end are little-endian.
-/

namespace bytes

section Copy

variable {α : Type*}

/-- `memcpy`: the `len` items of `src` from `sofs` on replace those of `dst` from
`dofs` on. -/
def copy (dst : Nat → α) (dofs : Nat) (src : Nat → α) (sofs len : Nat) : Nat → α := fun i =>
  if dofs ≤ i ∧ i < dofs + len then src (sofs + (i - dofs)) else dst i

/-- The items from `ofs` on. -/
def drop (src : Nat → α) (ofs : Nat) : Nat → α := fun i => src (ofs + i)

theorem copy_inside {dst src : Nat → α} {dofs sofs len i : Nat} (hlow : dofs ≤ i) (hhigh : i < dofs + len) :
    copy dst dofs src sofs len i = src (sofs + (i - dofs)) :=
  if_pos ⟨hlow, hhigh⟩

theorem copy_outside {dst src : Nat → α} {dofs sofs len i : Nat} (h : i < dofs ∨ dofs + len ≤ i) :
    copy dst dofs src sofs len i = dst i :=
  if_neg (by omega)

@[simp] theorem copy_zero (dst src : Nat → α) (dofs sofs : Nat) : copy dst dofs src sofs 0 = dst := by
  funext i
  apply copy_outside
  omega

/-- Two copies of adjacent ranges are one copy. -/
theorem copy_copy (dst src : Nat → α) (dofs sofs m n : Nat) :
    copy (copy dst dofs src sofs m) (dofs + m) src (sofs + m) n = copy dst dofs src sofs (m + n) := by
  funext i
  simp only [copy]
  split_ifs <;> first | rfl | omega | (congr 1; omega)

/-- Only the items that are copied matter. -/
theorem copy_congr {dst src src' : Nat → α} {dofs sofs sofs' len : Nat}
    (h : ∀ i < len, src (sofs + i) = src' (sofs' + i)) :
    copy dst dofs src sofs len = copy dst dofs src' sofs' len := by
  funext i
  simp only [copy]
  split_ifs with hin
  · apply h
    omega
  · rfl

end Copy

section Word

/-- The byte `k` of a word, counted from the least significant one. -/
def byte_of (w : Nat) (k : Nat) : BitVec 8 := BitVec.ofNat 8 (w / 256 ^ k)

/-- The word in the four bytes from `ofs` on. -/
def word (b : Nat → BitVec 8) (ofs : Nat) : Nat :=
  (b ofs).toNat + 256 * (b (ofs + 1)).toNat + 65536 * (b (ofs + 2)).toNat +
    16777216 * (b (ofs + 3)).toNat

/-- Store a word in the four bytes from `ofs` on. -/
def store_word (b : Nat → BitVec 8) (ofs w : Nat) : Nat → BitVec 8 :=
  copy b ofs (byte_of w) 0 4

theorem word_lt (b : Nat → BitVec 8) (ofs : Nat) : word b ofs < 2 ^ 32 := by
  have h0 := (b ofs).isLt
  have h1 := (b (ofs + 1)).isLt
  have h2 := (b (ofs + 2)).isLt
  have h3 := (b (ofs + 3)).isLt
  simp only [word]
  omega

theorem word_congr {b b' : Nat → BitVec 8} {ofs : Nat} (h : ∀ i < 4, b (ofs + i) = b' (ofs + i)) :
    word b ofs = word b' ofs := by
  simp only [word, h 1 (by omega), h 2 (by omega), h 3 (by omega)]
  rw [show b ofs = b' ofs from h 0 (by omega)]

/-- A word that is stored is read back. -/
theorem word_store_word (b : Nat → BitVec 8) (ofs : Nat) {w : Nat} (hw : w < 2 ^ 32) :
    word (store_word b ofs w) ofs = w := by
  have hbyte : ∀ k < 4, (store_word b ofs w (ofs + k)).toNat = w / 256 ^ k % 256 := by
    intro k hk
    rw [store_word, copy_inside (by omega) (by omega)]
    simp [byte_of]
  have h0 := hbyte 0 (by omega)
  simp only [Nat.add_zero] at h0
  simp only [word, h0, hbyte 1 (by omega), hbyte 2 (by omega), hbyte 3 (by omega)]
  omega

/-- Storing a word leaves the bytes elsewhere alone. -/
theorem store_word_outside {b : Nat → BitVec 8} {ofs w i : Nat} (h : i < ofs ∨ ofs + 4 ≤ i) :
    store_word b ofs w i = b i :=
  copy_outside h

/-- Storing a word leaves the words elsewhere alone. -/
theorem word_store_word_ne (b : Nat → BitVec 8) {ofs ofs' w : Nat} (h : ofs' + 4 ≤ ofs ∨ ofs + 4 ≤ ofs') :
    word (store_word b ofs w) ofs' = word b ofs' := by
  apply word_congr
  intro i hi
  apply copy_outside
  omega

end Word

end bytes
