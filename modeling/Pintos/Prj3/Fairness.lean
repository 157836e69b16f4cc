import Pintos.Prj3.NoWrap
import Mathlib.Algebra.Order.Field.Rat
import Mathlib.Algebra.Order.Group.MinMax
import Mathlib.Tactic.Linarith

/-!
# Fairness of the mlfqs accounting

Each truncating operation of `new_recent_cpu` and `new_priority` is monotone, so
a thread with less `recent_cpu` and less `nice` than another keeps less of the
first and has at least the other's priority. The priority is the exact formula,
clamped, but for the part of one that truncation drops.
-/

open twos_complement

namespace pintos.prj3

/-- `recent_cpu` after one update a second, with the load averages of these seconds. -/
def recent_cpu_after (nice cpu : Int) (loads : List Int) : Int :=
  loads.foldl (fun cpu load => new_recent_cpu load cpu nice) cpu

/-- The same, with no result when an `int` wraps. -/
def checked.recent_cpu_after (nice cpu : Int) (loads : List Int) : Option Int :=
  loads.foldlM (fun cpu load => checked.new_recent_cpu load cpu nice) cpu

/-- Division towards zero by a positive number is monotone. -/
theorem tdiv_mono {x y b : Int} (hb : 0 < b) (h : x ≤ y) : x.tdiv b ≤ y.tdiv b := by
  obtain hy | hy := Int.lt_or_le y 0
  · have hneg : (-y).tdiv b ≤ (-x).tdiv b := by
      rw [Int.tdiv_eq_ediv_of_nonneg (by omega), Int.tdiv_eq_ediv_of_nonneg (by omega)]
      exact Int.ediv_le_ediv hb (by omega)
    rw [Int.neg_tdiv, Int.neg_tdiv] at hneg
    omega
  · obtain hx | hx := Int.lt_or_le x 0
    · have hlow : 0 ≤ (-x).tdiv b := Int.tdiv_nonneg (by omega) (by omega)
      have hhigh : 0 ≤ y.tdiv b := Int.tdiv_nonneg hy (by omega)
      rw [Int.neg_tdiv] at hlow
      omega
    · rw [Int.tdiv_eq_ediv_of_nonneg hx, Int.tdiv_eq_ediv_of_nonneg hy]
      exact Int.ediv_le_ediv hb h

/-- `x` as an `int`. -/
theorem int32_bounds {x : Int} (h : int32 x = x) : -2147483648 ≤ x ∧ x ≤ 2147483647 := by
  have hrange := int32_range x
  rwa [h] at hrange

theorem fits_bounds {x v : Int} (h : fits x = some v) : x = v ∧ -2147483648 ≤ v ∧ v ≤ 2147483647 := by
  obtain ⟨hfit, rfl⟩ := fits_eq_some.mp h
  exact ⟨rfl, int32_bounds hfit⟩

theorem fp_add_int_checked {x n v : Int} (h : checked.fp_add_int x n = some v) :
    x + n * F = v ∧ -2147483648 ≤ v ∧ v ≤ 2147483647 := by
  rw [checked.fp_add_int, Option.bind_eq_bind, Option.bind_eq_some_iff] at h
  obtain ⟨m, hm, h⟩ := h
  obtain ⟨rfl, -⟩ := fits_bounds hm
  exact fits_bounds h

/-- What an update that does not wrap computes: the coefficient is the same for every thread. -/
theorem new_recent_cpu_checked {load cpu nice v : Int} (hload : 0 ≤ load)
    (hcpu : -2147483648 ≤ cpu ∧ cpu ≤ 2147483647)
    (h : checked.new_recent_cpu load cpu nice = some v) :
    0 ≤ (2 * load * F).tdiv (2 * load + F) ∧
      v = ((2 * load * F).tdiv (2 * load + F) * cpu).tdiv F + nice * F ∧
      -2147483648 ≤ v ∧ v ≤ 2147483647 := by
  simp only [checked.new_recent_cpu, Option.bind_eq_bind, Option.bind_eq_some_iff] at h
  obtain ⟨double, hdouble, more, hmore, coefficient, hcoefficient, product, hproduct, hsum⟩ := h
  obtain ⟨rfl, hdoublerange⟩ := fits_bounds hdouble
  obtain ⟨rfl, -⟩ := fp_add_int_checked hmore
  obtain ⟨hquotient, hrange⟩ := fits_bounds hcoefficient
  obtain ⟨rfl, -⟩ := fits_bounds hproduct
  obtain ⟨rfl, hv⟩ := fp_add_int_checked hsum
  have hF : F = 16384 := rfl
  rw [int64_of_range (by rw [hF]; omega) (by rw [hF]; omega), mul_comm load 2, one_mul] at hquotient
  have hnonneg : 0 ≤ (2 * load * F).tdiv (2 * load + F) :=
    Int.tdiv_nonneg (by rw [hF]; omega) (by rw [hF]; omega)
  have hprod : -9223372036854775808 ≤ coefficient * cpu ∧ coefficient * cpu ≤ 9223372036854775807 := by
    rw [hquotient] at hnonneg
    constructor <;> nlinarith
  rw [int64_of_range hprod.1 hprod.2] at hv ⊢
  exact ⟨hnonneg, by rw [hquotient], hv⟩

/-- One update keeps the order of two threads. -/
theorem new_recent_cpu_checked_mono {load cpu cpu' nice nice' v v' : Int} (hload : 0 ≤ load)
    (hcpu : -2147483648 ≤ cpu ∧ cpu ≤ 2147483647) (hcpu' : -2147483648 ≤ cpu' ∧ cpu' ≤ 2147483647)
    (hle : cpu ≤ cpu') (hnice : nice ≤ nice')
    (h : checked.new_recent_cpu load cpu nice = some v)
    (h' : checked.new_recent_cpu load cpu' nice' = some v') : v ≤ v' := by
  obtain ⟨hnonneg, rfl, -⟩ := new_recent_cpu_checked hload hcpu h
  obtain ⟨-, rfl, -⟩ := new_recent_cpu_checked hload hcpu' h'
  have hmul : (2 * load * F).tdiv (2 * load + F) * cpu ≤ (2 * load * F).tdiv (2 * load + F) * cpu' :=
    mul_le_mul_of_nonneg_left hle hnonneg
  have hdiv := tdiv_mono (show 0 < F by decide) hmul
  simp only [F] at hdiv ⊢
  omega

/-- Updates that do not wrap are those of the code, and keep the order of two threads. -/
theorem recent_cpu_after_mono {nice nice' : Int} (hnice : nice ≤ nice') (loads : List Int)
    (hloads : ∀ load ∈ loads, 0 ≤ load) {cpu cpu' v v' : Int}
    (hcpu : -2147483648 ≤ cpu ∧ cpu ≤ 2147483647) (hcpu' : -2147483648 ≤ cpu' ∧ cpu' ≤ 2147483647)
    (hle : cpu ≤ cpu') (h : checked.recent_cpu_after nice cpu loads = some v)
    (h' : checked.recent_cpu_after nice' cpu' loads = some v') :
    recent_cpu_after nice cpu loads = v ∧ recent_cpu_after nice' cpu' loads = v' ∧ v ≤ v' ∧
      (-2147483648 ≤ v ∧ v ≤ 2147483647) ∧ -2147483648 ≤ v' ∧ v' ≤ 2147483647 := by
  induction loads generalizing cpu cpu' with
  | nil =>
    obtain rfl := Option.some.inj h
    obtain rfl := Option.some.inj h'
    exact ⟨rfl, rfl, hle, hcpu, hcpu'⟩
  | cons load loads ih =>
    simp only [checked.recent_cpu_after, List.foldlM_cons, Option.bind_eq_bind,
      Option.bind_eq_some_iff] at h h'
    obtain ⟨next, hnext, h⟩ := h
    obtain ⟨next', hnext', h'⟩ := h'
    have hload := hloads load (by simp)
    obtain ⟨-, -, hrange⟩ := new_recent_cpu_checked hload hcpu hnext
    obtain ⟨-, -, hrange'⟩ := new_recent_cpu_checked hload hcpu' hnext'
    have horder := new_recent_cpu_checked_mono hload hcpu hcpu' hle hnice hnext hnext'
    simp only [recent_cpu_after, List.foldl_cons, checked_new_recent_cpu hnext,
      checked_new_recent_cpu hnext']
    exact ih (fun l hl => hloads l (by simp [hl])) hrange hrange' horder h h'

/-! ## The priority -/

/-- `new_priority` before it is clamped; nothing wraps for any `int` and any nice value. -/
def unclamped_priority (recent_cpu nice : Int) : Int :=
  (63 * F - recent_cpu.tdiv 4 - 2 * nice * F).tdiv F

theorem quarter_range {cpu : Int} (hcpu : -2147483648 ≤ cpu ∧ cpu ≤ 2147483647) :
    -536870912 ≤ cpu.tdiv 4 ∧ cpu.tdiv 4 ≤ 536870911 :=
  ⟨tdiv_mono (by decide) hcpu.1, tdiv_mono (by decide) hcpu.2⟩

theorem new_priority_eq {cpu nice : Int} (hcpu : -2147483648 ≤ cpu ∧ cpu ≤ 2147483647)
    (hnice : -20 ≤ nice ∧ nice ≤ 20) :
    new_priority cpu nice = max PRI_MIN (min PRI_MAX (unclamped_priority cpu nice)) := by
  have hquarter := quarter_range hcpu
  have hmax : int_to_fp PRI_MAX = 63 * F := by decide
  have hfp : int_to_fp nice = nice * F := int32_of_range (by simp only [F]; omega) (by simp only [F]; omega)
  have hdiv : fp_div_int cpu 4 = cpu.tdiv 4 := int32_of_range (by omega) (by omega)
  have htwice : fp_mul_int (nice * F) 2 = 2 * nice * F := by
    rw [fp_mul_int, int32_of_range] <;> simp only [F] <;> omega
  have hfirst : fp_sub_fp (63 * F) (cpu.tdiv 4) = 63 * F - cpu.tdiv 4 := by
    apply int32_of_range <;> simp only [F] <;> omega
  have hsecond : fp_sub_fp (63 * F - cpu.tdiv 4) (2 * nice * F) =
      63 * F - cpu.tdiv 4 - 2 * nice * F := by
    apply int32_of_range <;> simp only [F] <;> omega
  have hround : round_toward_zero (63 * F - cpu.tdiv 4 - 2 * nice * F) = unclamped_priority cpu nice := by
    have hlow : (-1073741824 : Int).tdiv F ≤ unclamped_priority cpu nice := by
      apply tdiv_mono <;> simp only [F] <;> omega
    have hhigh : unclamped_priority cpu nice ≤ (1073741824 : Int).tdiv F := by
      apply tdiv_mono <;> simp only [F] <;> omega
    have hlow' : (-1073741824 : Int).tdiv F = -65536 := rfl
    have hhigh' : (1073741824 : Int).tdiv F = 65536 := rfl
    rw [hlow'] at hlow
    rw [hhigh'] at hhigh
    rw [round_toward_zero, ← unclamped_priority]
    exact int32_of_range (by omega) (by omega)
  simp only [new_priority, hmax, hfp, hdiv, htwice, hfirst, hsecond, hround]
  simp only [PRI_MIN, PRI_MAX]
  omega

theorem new_priority_antitone {cpu cpu' nice nice' : Int}
    (hcpu : -2147483648 ≤ cpu ∧ cpu ≤ 2147483647) (hcpu' : -2147483648 ≤ cpu' ∧ cpu' ≤ 2147483647)
    (hnice : -20 ≤ nice ∧ nice ≤ 20) (hnice' : -20 ≤ nice' ∧ nice' ≤ 20)
    (hle : cpu ≤ cpu') (hniceness : nice ≤ nice') : new_priority cpu' nice' ≤ new_priority cpu nice := by
  rw [new_priority_eq hcpu hnice, new_priority_eq hcpu' hnice']
  have hquarter := tdiv_mono (show (0 : Int) < 4 by decide) hle
  have hunclamped : unclamped_priority cpu' nice' ≤ unclamped_priority cpu nice := by
    apply tdiv_mono <;> simp only [F] <;> omega
  exact max_le_max_left _ (min_le_min_left _ hunclamped)

/-- The formula of the priority, without rounding. -/
def exact_priority (recent_cpu nice : Int) : ℚ :=
  (PRI_MAX : ℚ) - (recent_cpu : ℚ) / 2 ^ 14 / 4 - 2 * nice

/-- Clamping brings two numbers no further apart. -/
theorem abs_clamp_sub_le (a b x y : ℚ) : |max a (min b x) - max a (min b y)| ≤ |x - y| := by
  rw [max_comm a, max_comm a]
  have hmin := abs_min_sub_min_le_max b x b y
  rw [sub_self, abs_zero, max_eq_right (abs_nonneg _)] at hmin
  exact (abs_max_sub_max_le_abs _ _ a).trans hmin

/-- Truncation drops less than one. -/
theorem tdiv_bounds (x : Int) {b : Int} (hb : 0 < b) :
    b * x.tdiv b - x < b ∧ x - b * x.tdiv b < b := by
  have hsum := Int.mul_tdiv_add_tmod x b
  have hlow := Int.lt_tmod_of_pos x hb
  have hhigh := Int.tmod_lt_of_pos x hb
  omega

theorem unclamped_priority_near (cpu nice : Int) :
    |(unclamped_priority cpu nice : ℚ) - exact_priority cpu nice| ≤ 1 := by
  obtain ⟨hlow, hhigh⟩ := tdiv_bounds (63 * F - cpu.tdiv 4 - 2 * nice * F) (show 0 < F by decide)
  obtain ⟨hlow', hhigh'⟩ := tdiv_bounds cpu (show (0 : Int) < 4 by decide)
  rw [← unclamped_priority] at hlow hhigh
  simp only [F] at hlow hhigh
  have hscaled : -(65536 : Int) ≤ 65536 * unclamped_priority cpu nice - (65536 * 63 - cpu - 131072 * nice) ∧
      65536 * unclamped_priority cpu nice - (65536 * 63 - cpu - 131072 * nice) ≤ 65536 := by omega
  obtain ⟨hbelow, habove⟩ := hscaled
  have hbelow' : -(65536 : ℚ) ≤ 65536 * unclamped_priority cpu nice - (65536 * 63 - cpu - 131072 * nice) := by
    exact_mod_cast hbelow
  have habove' : 65536 * (unclamped_priority cpu nice : ℚ) - (65536 * 63 - cpu - 131072 * nice) ≤ 65536 := by
    exact_mod_cast habove
  rw [exact_priority, PRI_MAX, abs_le]
  push_cast
  constructor <;> linarith

/-- `new_priority` is a priority, and within one of the exact formula clamped to the priorities. -/
theorem new_priority_accurate {cpu nice : Int} (hcpu : -2147483648 ≤ cpu ∧ cpu ≤ 2147483647)
    (hnice : -20 ≤ nice ∧ nice ≤ 20) :
    |(new_priority cpu nice : ℚ) - max (PRI_MIN : ℚ) (min (PRI_MAX : ℚ) (exact_priority cpu nice))| ≤ 1 := by
  rw [new_priority_eq hcpu hnice]
  push_cast
  exact (abs_clamp_sub_le _ _ _ _).trans (unclamped_priority_near cpu nice)

/-- Of two threads whose accounts are in order, with the same load averages and
    no wrap for either, the one with less stays below and has at least the other's
    priority after each second. And every priority is in range and within one
    of the exact formula. -/
theorem accounting_fair :
    (∀ (nice nice' cpu cpu' : Int) (loads : List Int), (-20 ≤ nice ∧ nice ≤ 20) → (-20 ≤ nice' ∧ nice' ≤ 20) →
      int32 cpu = cpu → int32 cpu' = cpu' → cpu ≤ cpu' → nice ≤ nice' → (∀ load ∈ loads, 0 ≤ load) →
      (checked.recent_cpu_after nice cpu loads).isSome → (checked.recent_cpu_after nice' cpu' loads).isSome →
      ∀ seconds ≤ loads.length,
        recent_cpu_after nice cpu (loads.take seconds) ≤ recent_cpu_after nice' cpu' (loads.take seconds) ∧
          new_priority (recent_cpu_after nice' cpu' (loads.take seconds)) nice' ≤
            new_priority (recent_cpu_after nice cpu (loads.take seconds)) nice) ∧
      ∀ cpu nice : Int, int32 cpu = cpu → (-20 ≤ nice ∧ nice ≤ 20) →
        PRI_MIN ≤ new_priority cpu nice ∧ new_priority cpu nice ≤ PRI_MAX ∧
          |(new_priority cpu nice : ℚ) - max (PRI_MIN : ℚ)
            (min (PRI_MAX : ℚ) (exact_priority cpu nice))| ≤ 1 := by
  refine ⟨?_, ?_⟩
  · intro nice nice' cpu cpu' loads hnice hnice' hcpu hcpu' hle hniceness hloads hrun hrun' seconds hseconds
    have hprefix {nice cpu : Int} (hrun : (checked.recent_cpu_after nice cpu loads).isSome) :
        ∃ v, checked.recent_cpu_after nice cpu (loads.take seconds) = some v := by
      obtain ⟨v, hv⟩ := Option.isSome_iff_exists.mp hrun
      rw [checked.recent_cpu_after, ← List.take_append_drop seconds loads, List.foldlM_append,
        Option.bind_eq_bind, Option.bind_eq_some_iff] at hv
      obtain ⟨w, hw, -⟩ := hv
      exact ⟨w, hw⟩
    obtain ⟨v, hv⟩ := hprefix hrun
    obtain ⟨v', hv'⟩ := hprefix hrun'
    obtain ⟨heq, heq', horder, hrange, hrange'⟩ := recent_cpu_after_mono hniceness (loads.take seconds)
      (fun load hload => hloads load (List.mem_of_mem_take hload)) (int32_bounds hcpu)
      (int32_bounds hcpu') hle hv hv'
    rw [heq, heq']
    exact ⟨horder, new_priority_antitone hrange hrange' hnice hnice' horder hniceness⟩
  · intro cpu nice hcpu hnice
    obtain ⟨hlow, hhigh⟩ := new_priority_range cpu nice
    exact ⟨hlow, hhigh, new_priority_accurate (int32_bounds hcpu) hnice⟩

/-- A thread with a negative account and one that was running, over three seconds. -/
theorem accounting_fair_three_seconds :
    recent_cpu_after (-5) (-16384) [16384, 0, 40000] ≤ recent_cpu_after 3 819200 [16384, 0, 40000] :=
  (accounting_fair.1 (-5) 3 (-16384) 819200 [16384, 0, 40000] (by decide) (by decide) (by decide) (by decide)
    (by decide) (by decide) (by decide) (by decide) (by decide) 3 (by decide)).1

end pintos.prj3
