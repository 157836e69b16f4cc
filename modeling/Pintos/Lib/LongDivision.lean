import Mathlib.Algebra.Order.Ring.Nat
import Mathlib.Tactic.Ring

/-!
# Long division

Division of a number of two digits by one digit, and the quotient that is estimated with the
divisor's leading digits.
-/

namespace long_division

variable {b d e n n0 p r : Nat}

/-- The remainder of the high digit and the low digit have a quotient of one digit. -/
theorem low_quotient_lt (hd : 0 < d) (hn0 : n0 < b) (n1 : Nat) : (b * (n1 % d) + n0) / d < b := by
  have hmod : n1 % d + 1 ≤ d := Nat.mod_lt n1 hd
  rw [Nat.div_lt_iff_lt_mul hd]
  calc b * (n1 % d) + n0
    _ < b * (n1 % d) + b := Nat.add_lt_add_left hn0 _
    _ = b * (n1 % d + 1) := (Nat.mul_succ b _).symm
    _ ≤ b * d := Nat.mul_le_mul_left b hmod

/-- The quotients of the two digits, one after the other, are the quotient. -/
theorem two_digits (hd : 0 < d) (b n1 n0 : Nat) :
    (b * (n1 % d) + n0) / d + b * (n1 / d) = (b * n1 + n0) / d := by
  have hn1 : b * n1 + n0 = b * (n1 % d) + n0 + d * (b * (n1 / d)) := by
    conv_lhs => rw [← Nat.mod_add_div n1 d]
    ring
  rw [hn1, Nat.add_mul_div_left _ _ hd]

/-- A divisor that has lost some of its low digits gives the quotient, or one more. -/
theorem estimate (he : e ≤ d) (hd : d < e + p) (hpos : 0 < e) (hn : n / d + 1 ≤ r) (hr : r * (p - 1) ≤ e) :
    n / d ≤ n / e ∧ n / e ≤ n / d + 1 := by
  refine ⟨Nat.div_le_div_left he hpos, ?_⟩
  have hlost : d ≤ e + (p - 1) := by omega
  have hlt : n < d * (n / d + 1) := Nat.lt_mul_div_succ n (Nat.lt_of_lt_of_le hpos he)
  have hbound : (p - 1) * (n / d + 1) ≤ e := by
    rw [Nat.mul_comm]
    exact (Nat.mul_le_mul_right (p - 1) hn).trans hr
  have hle : d * (n / d + 1) ≤ (n / d + 2) * e := by
    calc d * (n / d + 1)
      _ ≤ (e + (p - 1)) * (n / d + 1) := Nat.mul_le_mul_right _ hlost
      _ = e * (n / d + 1) + (p - 1) * (n / d + 1) := Nat.add_mul ..
      _ ≤ e * (n / d + 1) + e := Nat.add_le_add_left hbound _
      _ = (n / d + 2) * e := by ring
  exact Nat.le_of_lt_succ ((Nat.div_lt_iff_lt_mul hpos).mpr (Nat.lt_of_lt_of_le hlt hle))

end long_division
