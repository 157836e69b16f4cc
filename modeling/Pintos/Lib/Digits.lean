import Mathlib.Data.Nat.Digits.Lemmas
import Mathlib.Algebra.Order.Ring.Int
import Mathlib.Tactic.Common

/-!
# Digits read from the left

A number is read digit by digit from its most significant one, multiplying what
has been read by the base. Zeros in front change nothing, and what has been read
so far, times the base, is never more than the whole.
-/

namespace digits

/-- The number read from `l` after `v`, most significant digit first. -/
def read (b v : Nat) (l : List Nat) : Nat := l.foldl (fun v d => d + v * b) v

@[simp] theorem read_nil (b v : Nat) : read b v [] = v := rfl

@[simp] theorem read_cons (b v d : Nat) (l : List Nat) : read b v (d :: l) = read b (d + v * b) l := rfl

/-- Zeros in front change nothing. -/
theorem read_zeros (b n : Nat) (l : List Nat) : read b 0 (List.replicate n 0 ++ l) = read b 0 l := by
  induction n with
  | zero => rfl
  | succ n ih => simpa [List.replicate_succ] using ih

/-- The digits of a number, most significant first, read back as the number. -/
theorem read_digits (b n : Nat) : read b 0 (Nat.digits b n).reverse = n := by
  rw [read, List.foldl_reverse]
  calc (Nat.digits b n).foldr (fun d v => d + v * b) 0
    _ = Nat.ofDigits b (Nat.digits b n) := by
      simp only [Nat.ofDigits_eq_foldr, Nat.cast_id, mul_comm b]
    _ = n := Nat.ofDigits_digits b n

/-- What has been read is at most the whole. -/
theorem le_read {b : Nat} (hb : 0 < b) (v : Nat) (l : List Nat) : v ≤ read b v l := by
  induction l generalizing v with
  | nil => exact le_refl v
  | cons d l ih =>
    have hmul : v * 1 ≤ v * b := Nat.mul_le_mul_left v hb
    have hle := ih (d + v * b)
    rw [read_cons]
    omega

end digits
