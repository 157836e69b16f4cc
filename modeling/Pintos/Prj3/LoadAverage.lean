import Pintos.Prj3.NoWrap
import Mathlib.Algebra.Order.Field.Rat
import Mathlib.Tactic.Linarith
import Mathlib.Tactic.Ring
import Mathlib.Data.List.Induction

/-!
# Accuracy of `load_avg`

The exact recurrence loses one sixtieth of its value each second. The computed
one truncates its two coefficients and its product, all downwards, and what a
second adds to its lag is at most `N + 1` units when `N` threads are the most
that were ever ready.
-/

open twos_complement

namespace pintos.prj3

/-- `load_avg` after seconds with the given numbers of ready threads. -/
def load_avg_after (ready : List Int) : Int := ready.foldl new_load_avg 0

/-- The value that `thread_get_load_avg` returns when the global is `load_avg`. -/
def thread_get_load_avg (load_avg : Int) : Int := round_to_nearest (fp_mul_int load_avg 100)

def checked.thread_get_load_avg (load_avg : Int) : Option Int :=
  checked.fp_mul_int load_avg 100 >>= checked.round_to_nearest

/-- The recurrence of the load average, without rounding. -/
def exact_load_avg (ready : List Int) : ℚ :=
  ready.foldl (fun load (r : Int) => 59 / 60 * load + 1 / 60 * (r : ℚ)) 0

/-- What one second computes: the coefficients are 16110 and 273 units of `1/F`. -/
theorem new_load_avg_value {load ready n : Int} (hn : n ≤ 1310) (hload : 0 ≤ load ∧ load ≤ n * F)
    (hready : 0 ≤ ready ∧ ready ≤ n) :
    checked.new_load_avg load ready = some (16110 * load / 16384 + 273 * ready) ∧
      new_load_avg load ready = 16110 * load / 16384 + 273 * ready := by
  have h59 : checked.int_to_fp 59 = some 966656 := by decide
  have h60 : checked.int_to_fp 60 = some 983040 := by decide
  have h1 : checked.int_to_fp 1 = some 16384 := by decide
  have hdecay : checked.fp_div_fp 966656 983040 = some 16110 := by decide
  have hweight : checked.fp_div_fp 16384 983040 = some 273 := by decide
  simp only [F] at hload
  have hmul : checked.fp_mul_fp 16110 load = some (16110 * load / 16384) := by
    rw [checked.fp_mul_fp, int64_of_range (by omega) (by omega), F,
      Int.tdiv_eq_ediv_of_nonneg (by omega)]
    exact fits_of_range (by omega) (by omega)
  have hready' : checked.fp_mul_int 273 ready = some (273 * ready) :=
    fits_of_range (by omega) (by omega)
  have hsum : checked.fp_add_fp (16110 * load / 16384) (273 * ready) =
      some (16110 * load / 16384 + 273 * ready) := fits_of_range (by omega) (by omega)
  refine ⟨?_, ?_⟩
  · simp only [checked.new_load_avg, h59, h60, h1, hdecay, hweight, hmul, hready', hsum,
      Option.bind_eq_bind, Option.bind_some]
  · rw [new_load_avg, checked_int_to_fp h59, checked_int_to_fp h60, checked_int_to_fp h1,
      checked_fp_div_fp hdecay, checked_fp_div_fp hweight, checked_fp_mul_fp hmul,
      checked_fp_mul_int hready', checked_fp_add_fp hsum]

/-- The computed load average, in units of `1/F`, against the exact one. -/
structure Tracks (n load : Int) (exact : ℚ) : Prop where
  nonneg : 0 ≤ load
  le : load ≤ n * F
  below : (load : ℚ) / 2 ^ 14 ≤ exact
  lag : exact - load / 2 ^ 14 ≤ 60 * (n + 1) / 2 ^ 14

theorem Tracks.start {n : Int} (hn : 0 ≤ n) : Tracks n 0 0 := by
  have hn' : (0 : ℚ) ≤ n := by exact_mod_cast hn
  refine ⟨le_refl 0, by simp only [F]; omega, by norm_num, ?_⟩
  simp only [Int.cast_zero, zero_div, sub_zero]
  linarith

/-- The truncated quotient in `ℚ`: at most the quotient, and within one of it. -/
theorem floor_bounds (a : Int) {b : Int} (hb : 0 < b) :
    ((a / b : Int) : ℚ) * b ≤ a ∧ (a : ℚ) < ((a / b : Int) + 1) * b := by
  have hlow : a / b * b ≤ a := Int.ediv_mul_le a (by omega)
  have hhigh : a < (a / b + 1) * b := Int.lt_ediv_add_one_mul_self a hb
  exact ⟨by exact_mod_cast hlow, by exact_mod_cast hhigh⟩

/-- A second shrinks the lag by a sixtieth and adds at most `n + 1` units to it. -/
theorem Tracks.second {n load ready : Int} {exact : ℚ} (hn : n ≤ 1310) (h : Tracks n load exact)
    (hready : 0 ≤ ready ∧ ready ≤ n) :
    Tracks n (new_load_avg load ready) (59 / 60 * exact + 1 / 60 * (ready : ℚ)) := by
  have hvalue := (new_load_avg_value hn ⟨h.nonneg, h.le⟩ hready).2
  have hle := h.le
  have hnonneg := h.nonneg
  simp only [F] at hle
  obtain ⟨hlow, hhigh⟩ := floor_bounds (16110 * load) (b := 16384) (by norm_num)
  have hready0 : (0 : ℚ) ≤ ready := by exact_mod_cast hready.1
  have hreadyn : (ready : ℚ) ≤ n := by exact_mod_cast hready.2
  have hleq : (load : ℚ) ≤ n * 16384 := by exact_mod_cast hle
  have hload0 : (0 : ℚ) ≤ load := by exact_mod_cast hnonneg
  have hbelow := h.below
  have hlag := h.lag
  push_cast at hlow hhigh
  refine ⟨by rw [hvalue]; omega, by rw [hvalue]; simp only [F]; omega, ?_, ?_⟩
  · rw [hvalue]
    push_cast
    linarith
  · rw [hvalue]
    push_cast
    linarith

theorem load_avg_tracks {n : Int} (hn : 0 ≤ n ∧ n ≤ 1310) (ready : List Int)
    (hready : ∀ r ∈ ready, 0 ≤ r ∧ r ≤ n) : Tracks n (load_avg_after ready) (exact_load_avg ready) := by
  induction ready using List.reverseRecOn with
  | nil => exact Tracks.start hn.1
  | append_singleton ready r ih =>
    simp only [load_avg_after, exact_load_avg, List.foldl_append, List.foldl_cons, List.foldl_nil]
    exact (ih fun r' hr' => hready r' (by simp [hr'])).second hn.2 (hready r (by simp))

theorem thread_get_load_avg_checked {n load : Int} (hn : n ≤ 1310) (hload : 0 ≤ load ∧ load ≤ n * F) :
    checked.thread_get_load_avg load = some (thread_get_load_avg load) := by
  simp only [F] at hload
  have hmul : checked.fp_mul_int load 100 = some (load * 100) := fits_of_range (by omega) (by omega)
  have hround : checked.round_to_nearest (load * 100) = some ((load * 100 + 8192).tdiv 16384) := by
    have hfits : fits (load * 100 + 8192) = some (load * 100 + 8192) :=
      fits_of_range (by omega) (by omega)
    rw [checked.round_to_nearest, if_pos (by omega), F,
      show (16384 : Int) / 2 = 8192 by norm_num, hfits, Option.bind_eq_bind, Option.bind_some,
      Int.tdiv_eq_ediv_of_nonneg (by omega)]
    exact fits_of_range (by omega) (by omega)
  rw [checked.thread_get_load_avg, hmul, Option.bind_eq_bind, Option.bind_some, hround,
    thread_get_load_avg, checked_fp_mul_int hmul, checked_round_to_nearest hround]

/-- Over any number of seconds with at most `n ≤ 1310` ready threads each,
    `load_avg` is nonnegative, at most the exact recurrence and at most
    `60 (n + 1)` units below it, and neither the next update nor the report
    wraps an `int`. -/
theorem load_avg_accurate {n : Nat} (hn : n ≤ 1310) (ready : List Int)
    (hready : ∀ r ∈ ready, 0 ≤ r ∧ r ≤ n) :
    (0 : ℚ) ≤ (load_avg_after ready : ℚ) / 2 ^ 14 ∧
      (load_avg_after ready : ℚ) / 2 ^ 14 ≤ exact_load_avg ready ∧
      exact_load_avg ready - (load_avg_after ready : ℚ) / 2 ^ 14 ≤ 60 * (n + 1) / 2 ^ 14 ∧
      ready.foldlM checked.new_load_avg 0 = some (load_avg_after ready) ∧
      checked.thread_get_load_avg (load_avg_after ready) =
        some (thread_get_load_avg (load_avg_after ready)) := by
  have hcount : (0 : Int) ≤ n ∧ (n : Int) ≤ 1310 := by omega
  have htracks := load_avg_tracks hcount ready hready
  have hnonneg : (0 : ℚ) ≤ load_avg_after ready := by exact_mod_cast htracks.nonneg
  refine ⟨by linarith, htracks.below, by simpa only [Int.cast_natCast] using htracks.lag, ?_,
    thread_get_load_avg_checked hcount.2 ⟨htracks.nonneg, htracks.le⟩⟩
  induction ready using List.reverseRecOn with
  | nil => rfl
  | append_singleton ready r ih =>
    have hbefore : ∀ r' ∈ ready, 0 ≤ r' ∧ r' ≤ n := fun r' hr' => hready r' (by simp [hr'])
    have hload := load_avg_tracks hcount ready hbefore
    obtain ⟨hchecked, hvalue⟩ :=
      new_load_avg_value hcount.2 ⟨hload.nonneg, hload.le⟩ (hready r (by simp))
    have hstart := ih hbefore hload (by exact_mod_cast hload.nonneg)
    rw [List.foldlM_append, hstart, Option.bind_eq_bind, Option.bind_some, List.foldlM_cons, hchecked]
    simp only [load_avg_after, List.foldl_append, List.foldl_cons, List.foldl_nil,
      Option.bind_eq_bind, Option.bind_some, List.foldlM_nil, Option.pure_def]
    exact congrArg some hvalue.symm

/-- Two minutes with the most threads that the bound allows. -/
theorem load_avg_accurate_full :
    exact_load_avg (List.replicate 120 1310) -
      (load_avg_after (List.replicate 120 1310) : ℚ) / 2 ^ 14 ≤ 60 * ((1310 : Nat) + 1) / 2 ^ 14 :=
  (load_avg_accurate (le_refl 1310) (List.replicate 120 1310) fun r hr => by
    rw [List.eq_of_mem_replicate hr]
    decide).2.2.1

end pintos.prj3
