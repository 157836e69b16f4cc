import Mathlib.Algebra.Order.Ring.Int
import Mathlib.Tactic.NormNum

/-!
# Two's complement integers

A signed machine integer of `bits` bits is the integer it denotes. Arithmetic
is exact arithmetic followed by `wrap`, the reduction into the signed range.
-/

namespace twos_complement

/-- The signed integer denoted by the low `bits` bits of `x`. -/
def wrap (bits : Nat) (x : Int) : Int := x.bmod (2 ^ bits)

/-- `int32_t`: reduction to 32 bits. -/
abbrev int32 (x : Int) : Int := wrap 32 x

/-- `int64_t`: reduction to 64 bits. -/
abbrev int64 (x : Int) : Int := wrap 64 x

theorem int32_range (x : Int) : -2147483648 ≤ int32 x ∧ int32 x ≤ 2147483647 := by
  have hlow := Int.le_bmod (x := x) (m := 2 ^ 32) (by norm_num)
  have hhigh := Int.bmod_lt (x := x) (m := 2 ^ 32) (by norm_num)
  norm_num at hlow hhigh
  norm_num [int32, wrap]
  omega

/-- A value that fits is not changed. -/
theorem int32_of_range {x : Int} (hlow : -2147483648 ≤ x) (hhigh : x ≤ 2147483647) :
    int32 x = x := by
  apply Int.bmod_eq_of_le <;> norm_num <;> omega

theorem int32_le {x : Int} (hx : 0 ≤ x) : int32 x ≤ x := by
  have hrange := int32_range x
  by_cases hfit : x ≤ 2147483647
  · rw [int32_of_range (by omega) hfit]
  · omega

/-- A value past the largest one comes out negative. -/
theorem int32_of_overflow {x : Int} (hlow : 2147483648 ≤ x) (hhigh : x < 6442450944) :
    int32 x = x - 4294967296 := by
  have hmod := Int.bmod_def x (2 ^ 32)
  norm_num at hmod
  norm_num [int32, wrap]
  omega

theorem int64_of_range {x : Int} (hlow : -9223372036854775808 ≤ x)
    (hhigh : x ≤ 9223372036854775807) : int64 x = x := by
  apply Int.bmod_eq_of_le <;> norm_num <;> omega

@[simp] theorem int32_int32 (x : Int) : int32 (int32 x) = int32 x :=
  int32_of_range (int32_range x).1 (int32_range x).2

end twos_complement
