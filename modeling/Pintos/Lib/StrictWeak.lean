import Mathlib.Data.List.Basic
import Mathlib.Order.Lattice

/-!
# Strict weak orders given by a comparison function

`less a b` says that `a` comes strictly before `b`. A list is in order when no
later element is `less` than an earlier one. The module relates this to the
number of descents, which natural merging reduces.
-/

namespace strict_weak

variable {α : Type*} {less : α → α → Bool}

/-- A comparison function whose incomparability is an equivalence. -/
structure StrictWeak (less : α → α → Bool) : Prop where
  asymm : ∀ a b, less a b = true → less b a = false
  neg_trans : ∀ a b c, less b a = false → less c b = false → less c a = false

/-- Comparing a key with a strict linear order is a strict weak order. -/
theorem StrictWeak.of_key {β : Type*} [LinearOrder β] {key : α → β}
    (h : ∀ a b, less a b = true ↔ key a < key b) : StrictWeak less where
  asymm a b hab := by
    rw [← Bool.not_eq_true, h, not_lt]
    exact ((h a b).mp hab).le
  neg_trans a b c hba hcb := by
    rw [← Bool.not_eq_true, h, not_lt] at hba hcb ⊢
    exact hba.trans hcb

/-- No later element is `less` than an earlier one. -/
def Ordered (less : α → α → Bool) (l : List α) : Prop :=
  l.Pairwise fun a b => less b a = false

theorem Ordered.tail {a : α} {l : List α} (h : Ordered less (a :: l)) : Ordered less l :=
  (List.pairwise_cons.mp h).2

theorem Ordered.head_le {a : α} {l : List α} (h : Ordered less (a :: l)) :
    ∀ b ∈ l, less b a = false :=
  (List.pairwise_cons.mp h).1

/-- An element that is not after the head of an ordered list is not after any
of its elements. -/
theorem Ordered.cons (hless : StrictWeak less) {a b : α} {l : List α}
    (hab : less b a = false) (h : Ordered less (b :: l)) : Ordered less (a :: b :: l) := by
  refine List.pairwise_cons.mpr ⟨?_, h⟩
  intro c hc
  rcases List.mem_cons.mp hc with rfl | hc
  · exact hab
  · exact hless.neg_trans a b c hab (h.head_le c hc)

/-- Order depends only on how the comparison treats the elements of the list. -/
theorem Ordered.congr {less' : α → α → Bool} {l : List α} (h : Ordered less l)
    (heq : ∀ a ∈ l, ∀ b ∈ l, less b a = false → less' b a = false) : Ordered less' l :=
  List.Pairwise.imp_of_mem (fun ha hb hab => heq _ ha _ hb hab) h

/-- Two elements that one order puts strictly apart are not the other way round
in a second order of the same list. -/
theorem Ordered.agree {less' : α → α → Bool} (hless : StrictWeak less) {l : List α}
    (h : Ordered less l) (h' : Ordered less' l) {a b : α} (ha : a ∈ l) (hb : b ∈ l)
    (hab : less a b = true) : less' b a = false := by
  induction l with
  | nil => cases ha
  | cons c l ih =>
    rcases List.mem_cons.mp ha with rfl | hal <;> rcases List.mem_cons.mp hb with rfl | hbl
    · rw [hless.asymm _ _ hab] at hab
      cases hab
    · exact h'.head_le b hbl
    · rw [h.head_le a hal] at hab
      cases hab
    · exact ih h.tail h'.tail hal hbl

/-- A test that is passed on to smaller elements holds of the front of an
ordered list. -/
theorem Ordered.takeWhile_eq_filter {l : List α} (h : Ordered less l) {p : α → Bool}
    (hp : ∀ a b, less b a = false → p b = true → p a = true) : l.takeWhile p = l.filter p := by
  induction l with
  | nil => rfl
  | cons b l ih =>
    by_cases hb : p b = true
    · rw [List.takeWhile_cons_of_pos hb, List.filter_cons_of_pos hb, ih h.tail]
    · rw [List.takeWhile_cons_of_neg hb, List.filter_cons_of_neg hb, eq_comm, List.filter_eq_nil_iff]
      exact fun a ha hpa => hb (hp b a (h.head_le a ha) hpa)

theorem Ordered.dropWhile_eq_filter {l : List α} (h : Ordered less l) {p : α → Bool}
    (hp : ∀ a b, less b a = false → p b = true → p a = true) :
    l.dropWhile p = l.filter fun a => !p a := by
  induction l with
  | nil => rfl
  | cons b l ih =>
    by_cases hb : p b = true
    · rw [List.dropWhile_cons_of_pos hb, List.filter_cons_of_neg (by simp [hb]), ih h.tail]
    · rw [List.dropWhile_cons_of_neg hb, eq_comm, List.filter_eq_self]
      intro a ha
      rcases List.mem_cons.mp ha with rfl | ha
      · simpa using hb
      · simpa using fun hpa => hb (hp b a (h.head_le a ha) hpa)

/-- The number of maximal runs in which no element is `less` than the one
before it. -/
def runs (less : α → α → Bool) : List α → Nat
  | [] => 0
  | [_] => 1
  | a :: b :: l => (if less b a then 1 else 0) + runs less (b :: l)

theorem runs_cons_le (less : α → α → Bool) (a : α) (l : List α) : runs less (a :: l) ≤ 1 + runs less l := by
  cases l with
  | nil => simp [runs]
  | cons b l =>
    simp only [runs]
    split <;> omega

theorem runs_pos (less : α → α → Bool) (a : α) (l : List α) : 0 < runs less (a :: l) := by
  induction l generalizing a with
  | nil => simp [runs]
  | cons b l ih =>
    have := ih b
    simp only [runs]
    omega

/-- Concatenation adds no run. -/
theorem runs_append_le (less : α → α → Bool) (l₁ l₂ : List α) :
    runs less (l₁ ++ l₂) ≤ runs less l₁ + runs less l₂ := by
  induction l₁ with
  | nil => simp [runs]
  | cons a l₁ ih =>
    cases l₁ with
    | nil => simpa [runs] using runs_cons_le less a l₂
    | cons b l₁ =>
      simp only [List.cons_append, runs] at ih ⊢
      omega

theorem runs_le_length (l : List α) : runs less l ≤ l.length := by
  induction l with
  | nil => simp [runs]
  | cons a l ih =>
    have := runs_cons_le less a l
    simp only [List.length_cons]
    omega

/-- A list of at most one run is in order. -/
theorem ordered_of_runs_le_one (hless : StrictWeak less) {l : List α}
    (h : runs less l ≤ 1) : Ordered less l := by
  induction l with
  | nil => exact List.Pairwise.nil
  | cons a l ih =>
    cases l with
    | nil => exact List.pairwise_singleton _ _
    | cons b l =>
      have hpos := runs_pos less b l
      simp only [runs] at h
      cases hba : less b a with
      | true =>
        simp only [hba, if_true] at h
        omega
      | false =>
        simp only [hba, Bool.false_eq_true, if_false] at h
        exact (ih (by omega)).cons hless hba

theorem runs_le_one_of_ordered {l : List α} (h : Ordered less l) : runs less l ≤ 1 := by
  induction l with
  | nil => simp [runs]
  | cons a l ih =>
    cases l with
    | nil => simp [runs]
    | cons b l =>
      have hba := h.head_le b (by simp)
      simpa [runs, hba] using ih h.tail

end strict_weak
