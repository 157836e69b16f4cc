import Mathlib.Tactic.Common

/-!
# The words of a list

The maximal runs of items other than a separator, in order.
-/

namespace text

variable {α : Type*} [DecidableEq α] {sep : α}

/-- The nonempty pieces between separators. -/
def words (sep : α) (l : List α) : List (List α) := (l.splitOnP fun a => a = sep).filter fun w => w ≠ []

@[simp] theorem words_nil : words sep [] = [] := rfl

/-- A separator at the front belongs to no word. -/
@[simp] theorem words_sep_cons (l : List α) : words sep (sep :: l) = words sep l := by
  rw [words, List.splitOnP_cons_eq_if_modifyHead, if_pos (by simp), List.filter_cons_of_neg (by simp)]
  rfl

/-- A run that a separator ends is a word. -/
theorem words_append_sep {w : List α} (hne : w ≠ []) (hw : ∀ a ∈ w, a ≠ sep) (l : List α) :
    words sep (w ++ sep :: l) = w :: words sep l := by
  rw [words, List.splitOnP_append_cons_of_forall_mem (by simpa using hw) sep (by simp),
    List.filter_cons_of_pos (by simpa using hne)]
  rfl

/-- A run that the list ends is a word. -/
theorem words_run {w : List α} (hne : w ≠ []) (hw : ∀ a ∈ w, a ≠ sep) : words sep w = [w] := by
  rw [words, List.splitOnP_eq_singleton (by simpa using hw), List.filter_cons_of_pos (by simpa using hne)]
  rfl

/-- A list starts with separators and a word, unless it has only separators. -/
theorem words_cases (sep : α) (l : List α) : (∀ a ∈ l, a = sep) ∨
    ∃ n w rest, l = List.replicate n sep ++ (w ++ rest) ∧ w ≠ [] ∧ (∀ a ∈ w, a ≠ sep) ∧
      (rest = [] ∨ ∃ tail, rest = sep :: tail) := by
  induction l with
  | nil => exact Or.inl nofun
  | cons a l ih =>
    by_cases ha : a = sep
    · subst ha
      obtain hall | ⟨n, w, rest, rfl, hrest⟩ := ih
      · exact Or.inl (by simpa using hall)
      · exact Or.inr ⟨n + 1, w, rest, by simp [List.replicate_succ], hrest⟩
    · right
      obtain hall | ⟨n, w, rest, rfl, hne, hw, hrest⟩ := ih
      · cases l with
        | nil => exact ⟨0, [a], [], rfl, by simp, by simpa using ha, Or.inl rfl⟩
        | cons b l =>
          obtain rfl := hall b (by simp)
          exact ⟨0, [a], b :: l, rfl, by simp, by simpa using ha, Or.inr ⟨l, rfl⟩⟩
      · cases n with
        | zero => exact ⟨0, a :: w, rest, rfl, by simp, by simpa using ⟨ha, hw⟩, hrest⟩
        | succ n =>
          exact ⟨0, [a], sep :: (List.replicate n sep ++ (w ++ rest)), by simp [List.replicate_succ], by simp,
            by simpa using ha, Or.inr ⟨_, rfl⟩⟩

/-- A list of separators has no words. -/
theorem words_eq_nil {l : List α} (h : ∀ a ∈ l, a = sep) : words sep l = [] := by
  induction l with
  | nil => rfl
  | cons a l ih =>
    obtain rfl := h a (by simp)
    rw [words_sep_cons]
    exact ih fun b hb => h b (by simp [hb])

/-- Separators at the front belong to no word. -/
theorem words_replicate_append (n : Nat) (l : List α) :
    words sep (List.replicate n sep ++ l) = words sep l := by
  induction n with
  | zero => rfl
  | succ n ih =>
    rw [List.replicate_succ, List.cons_append, words_sep_cons]
    exact ih

/-- Induction over the words of a list: it has none, or the first one ends it, or a
separator follows the first one. -/
theorem words_induction (sep : α) {P : List α → Prop} (none : ∀ l, (∀ a ∈ l, a = sep) → P l)
    (last : ∀ n w, w ≠ [] → (∀ a ∈ w, a ≠ sep) → P (List.replicate n sep ++ w))
    (first : ∀ n w tail, w ≠ [] → (∀ a ∈ w, a ≠ sep) → P tail → P (List.replicate n sep ++ (w ++ sep :: tail)))
    (l : List α) : P l := by
  induction hlen : l.length using Nat.strongRecOn generalizing l with
  | _ len ih =>
    obtain hall | ⟨n, w, rest, rfl, hne, hw, hrest⟩ := words_cases sep l
    · exact none l hall
    · obtain rfl | ⟨tail, rfl⟩ := hrest
      · rw [List.append_nil]
        exact last n w hne hw
      · apply first n w tail hne hw
        apply ih tail.length _ tail rfl
        subst hlen
        simp
        omega

/-- The words of the two shapes in `words_induction`. -/
theorem words_last (n : Nat) {w : List α} (hne : w ≠ []) (hw : ∀ a ∈ w, a ≠ sep) :
    words sep (List.replicate n sep ++ w) = [w] :=
  (words_replicate_append n w).trans (words_run hne hw)

theorem words_first (n : Nat) {w : List α} (hne : w ≠ []) (hw : ∀ a ∈ w, a ≠ sep) (tail : List α) :
    words sep (List.replicate n sep ++ (w ++ sep :: tail)) = w :: words sep tail :=
  (words_replicate_append n _).trans (words_append_sep hne hw tail)

/-- A list has at most as many words as items. -/
theorem words_length_le (sep : α) (l : List α) : (words sep l).length ≤ l.length := by
  induction l using words_induction sep with
  | none l hl => simp [words_eq_nil hl]
  | last n w hne hw =>
    have hpos := List.length_pos_iff.mpr hne
    rw [words_last n hne hw]
    simp
    omega
  | first n w tail hne hw ih =>
    rw [words_first n hne hw]
    simp
    omega

/-- A word is a part of the list. -/
theorem word_part_of {l w : List α} (h : w ∈ words sep l) : w <:+: l := by
  induction l using words_induction sep with
  | none l hl =>
    rw [words_eq_nil hl] at h
    contradiction
  | last n v hne hv =>
    rw [words_last n hne hv, List.mem_singleton] at h
    subst h
    exact (List.suffix_append _ _).isInfix
  | first n v tail hne hv ih =>
    rw [words_first n hne hv, List.mem_cons] at h
    obtain rfl | h := h
    · exact ⟨List.replicate n sep, sep :: tail, by simp⟩
    · exact (ih h).trans ⟨List.replicate n sep ++ v ++ [sep], [], by simp⟩

end text
