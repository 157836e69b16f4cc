import Pintos.Libc.Elements
import Mathlib.Tactic.IntervalCases

/-!
# Binary search (`lib/stdlib.c`)

The elements before `first` are less than the key, those from `last` on are greater, and every
turn leaves fewer between them.
-/

namespace pintos.lib

section Search

variable {Aux : Type}

/-- The loop of `binary_search`: the element's address, or a null pointer. There is no result
where the key is compared with something else than an element, or `fuel` turns do not do. -/
def binary_search_loop (a : array) (m : Memory) (key : Item) (compare : Item → Item → Aux → Int) (aux : Aux) :
    (fuel first last : Nat) → Option (Option Nat)
  | 0, _, _ => none
  | fuel + 1, first, last =>
    if first < last then
      let range := (last - first) / a.size
      let middle := first + range / 2 * a.size
      if a.Points middle then
        let cmp := compare key (item m middle a.size) aux
        if cmp < 0 then binary_search_loop a m key compare aux fuel first middle
        else if cmp > 0 then binary_search_loop a m key compare aux fuel (middle + a.size) last
        else some (some middle)
      else none
    else some none

/-- `binary_search`. -/
def binary_search (key : Item) (a : array) (m : Memory) (compare : Item → Item → Aux → Int) (aux : Aux) :
    Option (Option Nat) :=
  binary_search_loop a m key compare aux (a.cnt + 1) a.base (a.base + a.size * a.cnt)

/-- `bsearch`. -/
def bsearch (key : Item) (a : array) (m : Memory) (compare : Item → Item → Int) : Option (Option Nat) :=
  binary_search key a m compare_thunk compare

variable {a : array} {m : Memory} {key : Item} {compare : Item → Item → Aux → Int} {aux : Aux} {lo hi mid : Nat}

/-- The element is found, or there is none between `lo` and `hi`. -/
def Found (a : array) (m : Memory) (key : Item) (compare : Item → Item → Aux → Int) (aux : Aux) (lo hi : Nat)
    (r : Option Nat) : Prop :=
  (∀ p, r = some p → ∃ k < a.cnt, p = a.address k ∧ compare key (a.element m k) aux = 0) ∧
    (r = none → ∀ k, lo ≤ k → k < hi → compare key (a.element m k) aux ≠ 0)

/-- What follows an element that the key is before is not the key. -/
theorem TotalPreorder.before (hc : TotalPreorder fun x y => compare x y aux)
    (hs : Sorted a m fun x y => compare x y aux) (hmid : compare key (a.element m mid) aux < 0) {k : Nat}
    (hk : mid ≤ k) (hcnt : k < a.cnt) : compare key (a.element m k) aux ≠ 0 := by
  intro hzero
  have hle : compare (a.element m k) key aux ≤ 0 := by
    by_contra hpos
    have hneg := (hc.flip _ _).mp (not_le.mp hpos)
    omega
  have hmidle := hc.trans _ _ _ (hs mid k hk hcnt) hle
  have hpos := (hc.flip (a.element m mid) key).mpr hmid
  omega

/-- What precedes an element that the key is after is not the key. -/
theorem TotalPreorder.after (hc : TotalPreorder fun x y => compare x y aux)
    (hs : Sorted a m fun x y => compare x y aux) (hmid : 0 < compare key (a.element m mid) aux) {k : Nat}
    (hk : k ≤ mid) (hcnt : mid < a.cnt) : compare key (a.element m k) aux ≠ 0 := by
  intro hzero
  have hle := hc.trans _ _ _ (le_of_eq hzero) (hs k mid hk hcnt)
  omega

theorem binary_search_loop_run (hc : TotalPreorder fun x y => compare x y aux)
    (hs : Sorted a m fun x y => compare x y aux) (fuel : Nat) : ∀ {lo hi : Nat}, lo ≤ hi → hi ≤ a.cnt →
      hi - lo < fuel → ∃ r, binary_search_loop a m key compare aux fuel (a.address lo) (a.address hi) = some r ∧
        Found a m key compare aux lo hi r := by
  induction fuel with
  | zero => omega
  | succ fuel ih =>
    intro lo hi hle hcnt hfuel
    have hsize := a.size_pos
    rw [binary_search_loop]
    by_cases hempty : lo = hi
    · rw [if_neg (by rw [hempty]; exact Nat.lt_irrefl _)]
      refine ⟨none, rfl, by rintro _ ⟨⟩, ?_⟩
      intro _ k hlow hhigh
      omega
    · have hlt : a.address lo < a.address hi :=
        Nat.add_lt_add_left (Nat.mul_lt_mul_of_pos_right (by omega) hsize) _
      have hrange : (a.address hi - a.address lo) / a.size = hi - lo := by
        rw [array.address, array.address, Nat.add_sub_add_left, ← Nat.sub_mul, Nat.mul_div_cancel _ hsize]
      have hmiddle : a.address lo + (hi - lo) / 2 * a.size = a.address (lo + (hi - lo) / 2) := by
        rw [array.address, array.address, Nat.add_assoc, ← Nat.add_mul]
      have hnext : a.address (lo + (hi - lo) / 2) + a.size = a.address (lo + (hi - lo) / 2 + 1) := by
        rw [array.address, array.address, Nat.add_assoc, ← Nat.succ_mul]
      obtain ⟨mid, hmid⟩ : ∃ mid, lo + (hi - lo) / 2 = mid := ⟨_, rfl⟩
      simp only [if_pos hlt, hrange, hmiddle, hnext]
      rw [hmid]
      have hmidcnt : mid < a.cnt := by omega
      rw [if_pos (array.points_address hmidcnt)]
      change ∃ r, (if compare key (a.element m mid) aux < 0 then _ else
        if compare key (a.element m mid) aux > 0 then _ else _) = some r ∧ _
      split_ifs with hneg hpos
      · obtain ⟨r, hrun, hsome, hnone⟩ := @ih lo mid (by omega) (by omega) (by omega)
        refine ⟨r, hrun, hsome, ?_⟩
        intro hr k hlow hhigh
        obtain hk | hk := Nat.lt_or_ge k mid
        · exact hnone hr k hlow hk
        · exact hc.before hs hneg hk (by omega)
      · obtain ⟨r, hrun, hsome, hnone⟩ := @ih (mid + 1) hi (by omega) hcnt (by omega)
        refine ⟨r, hrun, hsome, ?_⟩
        intro hr k hlow hhigh
        obtain hk | hk := Nat.lt_or_ge mid k
        · exact hnone hr k hk hhigh
        · exact hc.after hs hpos hk hmidcnt
      · refine ⟨_, rfl, ?_, by rintro ⟨⟩⟩
        rintro p ⟨⟩
        exact ⟨mid, hmidcnt, rfl, by omega⟩

theorem binary_search_run (hc : TotalPreorder fun x y => compare x y aux)
    (hs : Sorted a m fun x y => compare x y aux) (key : Item) :
    ∃ r, binary_search key a m compare aux = some r ∧ Found a m key compare aux 0 a.cnt r := by
  have hfirst : a.base = a.address 0 := by rw [array.address, Nat.zero_mul, Nat.add_zero]
  have hlast : a.base + a.size * a.cnt = a.address a.cnt := by rw [array.address, Nat.mul_comm]
  rw [binary_search, hlast]
  conv in a.base => rw [hfirst]
  exact binary_search_loop_run hc hs _ (Nat.zero_le _) (Nat.le_refl _) (by omega)

/-- `bsearch` is `binary_search`. -/
theorem bsearch_run {compare : Item → Item → Int} (hc : TotalPreorder compare) (hs : Sorted a m compare)
    (key : Item) :
    ∃ r, bsearch key a m compare = some r ∧ Found a m key compare_thunk compare 0 a.cnt r :=
  @binary_search_run _ a m compare_thunk compare hc hs key

/-- In a sorted array an element that compares equal to the key is found, exactly if there is
one. -/
theorem binary_search_finds (hc : TotalPreorder fun x y => compare x y aux)
    (hs : Sorted a m fun x y => compare x y aux) (key : Item) :
    ∃ r, binary_search key a m compare aux = some r ∧
      (∀ p, r = some p → ∃ k < a.cnt, p = a.address k ∧ compare key (a.element m k) aux = 0) ∧
      (r = none ↔ ∀ k < a.cnt, compare key (a.element m k) aux ≠ 0) := by
  obtain ⟨r, hrun, hsome, hnone⟩ := binary_search_run hc hs key
  refine ⟨r, hrun, hsome, fun hr k hk => hnone hr k (Nat.zero_le k) hk, ?_⟩
  intro hne
  cases r with
  | none => rfl
  | some p =>
    obtain ⟨k, hk, -, hzero⟩ := hsome p rfl
    exact absurd hzero (hne k hk)

end Search

/-- The bytes 1, 2 and 2. -/
def one_two_two : Memory := fun p => if p = 1 then 1 else 2

theorem one_two_two_sorted : Sorted three_bytes one_two_two fun x y => compare_bytes x y () := by
  intro i j hij hj
  have hsmall : i < 3 ∧ j < 3 := ⟨Nat.lt_of_le_of_lt hij hj, hj⟩
  obtain ⟨hi, hj⟩ := hsmall
  interval_cases j <;> interval_cases i <;> decide

/-- A byte that is there twice is found. -/
theorem binary_search_finds_two : ∃ r, binary_search [2] three_bytes one_two_two compare_bytes () = some r ∧
    (∀ p, r = some p → ∃ k < three_bytes.cnt, p = three_bytes.address k ∧
      compare_bytes [2] (three_bytes.element one_two_two k) () = 0) ∧
    (r = none ↔ ∀ k < three_bytes.cnt, compare_bytes [2] (three_bytes.element one_two_two k) () ≠ 0) :=
  binary_search_finds compare_bytes_preorder one_two_two_sorted [2]

end pintos.lib
