import Pintos.Libc.Memmove

/-!
# Arrays of elements (`lib/stdlib.c`)

What `sort` and `binary_search` work on: elements of a number of bytes each, one after the other
in memory, and a comparison function with a `strcmp`-type result.
-/

namespace pintos.lib

/-- The bytes of an element. -/
abbrev Item := List (BitVec 8)

/-- The `size` bytes at `p`. -/
def item (m : Memory) (p size : Nat) : Item := (List.range size).map fun i => m (p + i)

/-- An array of `cnt` elements of `size` bytes each. No object is larger than `ptrdiff_t` can
tell. -/
structure array where
  base : Nat
  cnt : Nat
  size : Nat
  size_pos : 0 < size
  not_null : base ≠ 0 ∨ cnt = 0
  fits : size * cnt < 2 ^ 31

namespace array

variable (a : array)

/-- The address of the element with 0-based index `k`. -/
def address (k : Nat) : Nat := a.base + k * a.size

/-- The element with 0-based index `k`. -/
def element (m : Memory) (k : Nat) : Item := item m (a.address k) a.size

/-- `p` points to an element. -/
def Points (p : Nat) : Prop := a.base ≤ p ∧ (p - a.base) % a.size = 0 ∧ (p - a.base) / a.size < a.cnt

instance (p : Nat) : Decidable (a.Points p) := by
  unfold Points
  infer_instance

variable {a}

theorem points_address {k : Nat} (hk : k < a.cnt) : a.Points (a.address k) := by
  rw [Points, address, Nat.add_sub_cancel_left, Nat.mul_mod_left, Nat.mul_div_cancel _ a.size_pos]
  exact ⟨Nat.le_add_right .., rfl, hk⟩

end array

/-- `compare` is a total preorder: its sign turns around with its arguments, and "not greater" is
transitive. -/
structure TotalPreorder (compare : Item → Item → Int) : Prop where
  flip : ∀ x y, 0 < compare x y ↔ compare y x < 0
  trans : ∀ x y z, compare x y ≤ 0 → compare y z ≤ 0 → compare x z ≤ 0

/-- `compare_thunk`. -/
def compare_thunk (x y : Item) (aux : Item → Item → Int) : Int := aux x y

/-- The elements do not decrease. -/
def Sorted (a : array) (m : Memory) (compare : Item → Item → Int) : Prop :=
  ∀ i j, i ≤ j → j < a.cnt → compare (a.element m i) (a.element m j) ≤ 0

/-- The order of the first bytes. -/
def compare_bytes (x y : Item) (_ : Unit) : Int := ((x.headD 0).toNat : Int) - (y.headD 0).toNat

theorem compare_bytes_preorder : TotalPreorder fun x y => compare_bytes x y () := by
  constructor <;> simp only [compare_bytes] <;> omega

/-- Three elements of one byte. -/
def three_bytes : array := ⟨1, 3, 1, by decide, by decide, by decide⟩

end pintos.lib
