import Pintos.Prj3.FixedPoint

/-!
# Fixed-point arithmetic that stops where an `int` wraps

The functions of `threads/fixed_point.h` again, each with no result when one of
its 32-bit values, the intermediate ones included, does not fit an `int`. What
they do return is what the wrapping functions return.
-/

open twos_complement

namespace pintos.prj3

/-- `x` as an `int`; no result when it does not fit. -/
def fits (x : Int) : Option Int := if int32 x = x then some x else none

theorem fits_eq_some {x v : Int} : fits x = some v ↔ int32 x = x ∧ x = v := by
  simp [fits]

theorem fits_of_range {x : Int} (hlow : -2147483648 ≤ x) (hhigh : x ≤ 2147483647) :
    fits x = some x :=
  fits_eq_some.mpr ⟨int32_of_range hlow hhigh, rfl⟩

namespace checked

def int_to_fp (n : Int) : Option Int := fits (n * F)

def round_to_nearest (x : Int) : Option Int :=
  if x ≥ 0 then fits (x + F / 2) >>= fun s => fits (s.tdiv F)
  else fits (x - F / 2) >>= fun s => fits (s.tdiv F)

def fp_add_fp (x y : Int) : Option Int := fits (x + y)

def fp_add_int (x n : Int) : Option Int := fits (n * F) >>= fun m => fits (x + m)

def fp_mul_fp (x y : Int) : Option Int := fits ((int64 (x * y)).tdiv F)

def fp_mul_int (x n : Int) : Option Int := fits (x * n)

def fp_div_fp (x y : Int) : Option Int := fits ((int64 (x * F)).tdiv y)

def new_load_avg (old_load_avg ready_threads : Int) : Option Int := do
  let decay ← fp_div_fp (← int_to_fp 59) (← int_to_fp 60)
  let weight ← fp_div_fp (← int_to_fp 1) (← int_to_fp 60)
  fp_add_fp (← fp_mul_fp decay old_load_avg) (← fp_mul_int weight ready_threads)

def new_recent_cpu (load_avg recent_cpu nice : Int) : Option Int := do
  let double ← fp_mul_int load_avg 2
  let coefficient ← fp_div_fp double (← fp_add_int double 1)
  fp_add_int (← fp_mul_fp coefficient recent_cpu) nice

end checked

theorem checked_int_to_fp {n v : Int} (h : checked.int_to_fp n = some v) : int_to_fp n = v := by
  obtain ⟨hfit, rfl⟩ := fits_eq_some.mp h
  exact hfit

theorem checked_round_to_nearest {x v : Int} (h : checked.round_to_nearest x = some v) :
    round_to_nearest x = v := by
  simp only [checked.round_to_nearest, round_to_nearest] at h ⊢
  split at h
  all_goals
    obtain ⟨s, hs, h⟩ := Option.bind_eq_some_iff.mp h
    obtain ⟨hfit, rfl⟩ := fits_eq_some.mp hs
    obtain ⟨hfit', rfl⟩ := fits_eq_some.mp h
    simp_all only [ge_iff_le, ↓reduceIte]

theorem checked_fp_add_fp {x y v : Int} (h : checked.fp_add_fp x y = some v) : fp_add_fp x y = v := by
  obtain ⟨hfit, rfl⟩ := fits_eq_some.mp h
  exact hfit

theorem checked_fp_add_int {x n v : Int} (h : checked.fp_add_int x n = some v) :
    fp_add_int x n = v := by
  obtain ⟨m, hm, h⟩ := Option.bind_eq_some_iff.mp h
  obtain ⟨hfit, rfl⟩ := fits_eq_some.mp hm
  obtain ⟨hfit', rfl⟩ := fits_eq_some.mp h
  rw [fp_add_int, hfit, hfit']

theorem checked_fp_mul_fp {x y v : Int} (h : checked.fp_mul_fp x y = some v) : fp_mul_fp x y = v := by
  obtain ⟨hfit, rfl⟩ := fits_eq_some.mp h
  exact hfit

theorem checked_fp_mul_int {x n v : Int} (h : checked.fp_mul_int x n = some v) :
    fp_mul_int x n = v := by
  obtain ⟨hfit, rfl⟩ := fits_eq_some.mp h
  exact hfit

theorem checked_fp_div_fp {x y v : Int} (h : checked.fp_div_fp x y = some v) : fp_div_fp x y = v := by
  obtain ⟨hfit, rfl⟩ := fits_eq_some.mp h
  exact hfit

theorem checked_new_recent_cpu {load cpu nice v : Int}
    (h : checked.new_recent_cpu load cpu nice = some v) : new_recent_cpu load cpu nice = v := by
  simp only [checked.new_recent_cpu, Option.bind_eq_bind, Option.bind_eq_some_iff] at h
  obtain ⟨double, hdouble, more, hmore, coefficient, hcoefficient, product, hproduct, hsum⟩ := h
  rw [new_recent_cpu, checked_fp_mul_int hdouble, checked_fp_add_int hmore,
    checked_fp_div_fp hcoefficient, checked_fp_mul_fp hproduct, checked_fp_add_int hsum]

end pintos.prj3
