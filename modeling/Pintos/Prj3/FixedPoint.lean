import Pintos.Lib.TwosComplement

/-!
# 17.14 fixed-point arithmetic (`threads/fixed_point.h`)

Every operand and result is an `int`; products and quotients of two
fixed-point numbers go through `int64_t`.
-/

open twos_complement

namespace pintos.prj3

/-- `F`: the scale factor. -/
def F : Int := 16384

def int_to_fp (n : Int) : Int := int32 (n * F)

def round_toward_zero (x : Int) : Int := int32 (x.tdiv F)

def round_to_nearest (x : Int) : Int :=
  if x ≥ 0 then int32 ((int32 (x + F / 2)).tdiv F) else int32 ((int32 (x - F / 2)).tdiv F)

def fp_add_fp (x y : Int) : Int := int32 (x + y)

def fp_sub_fp (x y : Int) : Int := int32 (x - y)

def fp_add_int (x n : Int) : Int := int32 (x + int32 (n * F))

def fp_sub_int (x n : Int) : Int := int32 (x - int32 (n * F))

def fp_mul_fp (x y : Int) : Int := int32 ((int64 (x * y)).tdiv F)

def fp_mul_int (x n : Int) : Int := int32 (x * n)

/-- `fp_div_fp`; the quotient by zero, which traps, is not reached. -/
def fp_div_fp (x y : Int) : Int := int32 ((int64 (x * F)).tdiv y)

def fp_div_int (x n : Int) : Int := int32 (x.tdiv n)

/-- `PRI_MIN`: lowest priority. -/
def PRI_MIN : Int := 0

/-- `PRI_DEFAULT`: default priority. -/
def PRI_DEFAULT : Int := 31

/-- `PRI_MAX`: highest priority. -/
def PRI_MAX : Int := 63

/-- `new_priority`: the mlfqs priority, clamped to `[PRI_MIN, PRI_MAX]`. -/
def new_priority (recent_cpu nice : Int) : Int :=
  let new_pri := round_toward_zero (fp_sub_fp
    (fp_sub_fp (int_to_fp PRI_MAX) (fp_div_int recent_cpu 4)) (fp_mul_int (int_to_fp nice) 2))
  if new_pri > PRI_MAX then PRI_MAX else if new_pri < PRI_MIN then PRI_MIN else new_pri

/-- `new_load_avg`. -/
def new_load_avg (old_load_avg ready_threads : Int) : Int :=
  fp_add_fp (fp_mul_fp (fp_div_fp (int_to_fp 59) (int_to_fp 60)) old_load_avg)
    (fp_mul_int (fp_div_fp (int_to_fp 1) (int_to_fp 60)) ready_threads)

/-- `new_recent_cpu`, which reads the global `load_avg`. -/
def new_recent_cpu (load_avg recent_cpu nice : Int) : Int :=
  fp_add_int (fp_mul_fp
    (fp_div_fp (fp_mul_int load_avg 2) (fp_add_int (fp_mul_int load_avg 2) 1)) recent_cpu) nice

theorem new_priority_range (recent_cpu nice : Int) :
    PRI_MIN ≤ new_priority recent_cpu nice ∧ new_priority recent_cpu nice ≤ PRI_MAX := by
  simp only [new_priority]
  split
  · simp [PRI_MIN, PRI_MAX]
  · split
    · simp [PRI_MIN, PRI_MAX]
    · constructor <;> omega

end pintos.prj3
