import Pintos.Lib.StrictWeak
import Mathlib.Tactic.Common

/-!
# Kernel lists as sequences (`lib/kernel/list.c`)

A list is the sequence of its interior elements. The comparison-driven
operations follow the loops of the source.
-/

open strict_weak

namespace pintos.kernel

variable {α : Type*} {less : α → α → Bool}

/-- `list_insert_ordered`: insert before the first element that the new one is
less than. -/
def list_insert_ordered (less : α → α → Bool) (elem : α) : List α → List α
  | [] => [elem]
  | e :: rest => if less elem e then elem :: e :: rest else e :: list_insert_ordered less elem rest

/-- `find_end_of_run`: the first nondecreasing run and what follows it. -/
def find_end_of_run (less : α → α → Bool) : List α → List α × List α
  | [] => ([], [])
  | [a] => ([a], [])
  | a :: b :: rest =>
    if less b a then ([a], b :: rest)
    else (a :: (find_end_of_run less (b :: rest)).1, (find_end_of_run less (b :: rest)).2)

/-- The loop of `inplace_merge`; every turn moves past one element. -/
def inplace_merge_loop (less : α → α → Bool) : Nat → List α → List α → List α
  | 0, a0, a1b0 => a0 ++ a1b0
  | _ + 1, [], a1b0 => a1b0
  | _ + 1, a0, [] => a0
  | n + 1, a :: a0, b :: a1b0 =>
    if !less b a then a :: inplace_merge_loop less n a0 (b :: a1b0)
    else b :: inplace_merge_loop less n (a :: a0) a1b0

/-- `inplace_merge` of two adjacent runs. -/
def inplace_merge (less : α → α → Bool) (a0 a1b0 : List α) : List α :=
  inplace_merge_loop less (a0.length + a1b0.length) a0 a1b0

/-- One pass of `list_sort`: merge the runs in pairs, counting the output runs.
The first argument bounds the turns of the loop. -/
def list_sort_pass (less : α → α → Bool) : Nat → List α → List α × Nat
  | 0, l => (l, 0)
  | _ + 1, [] => ([], 0)
  | n + 1, a :: l =>
    let first := find_end_of_run less (a :: l)
    if first.2.isEmpty then (first.1, 1)
    else
      let second := find_end_of_run less first.2
      let out := list_sort_pass less n second.2
      (inplace_merge less first.1 second.1 ++ out.1, out.2 + 1)

/-- The outer loop of `list_sort`: pass over the list until one run is left. -/
def list_sort_loop (less : α → α → Bool) : Nat → List α → List α
  | 0, l => l
  | n + 1, l =>
    let out := list_sort_pass less l.length l
    if out.2 > 1 then list_sort_loop less n out.1 else out.1

/-- `list_sort`: natural merge sort. A list has no more runs than elements, so
the loop ends within that many passes. -/
def list_sort (less : α → α → Bool) (l : List α) : List α :=
  list_sort_loop less (l.length + 1) l

/-! ## Ordered insertion -/

theorem list_insert_ordered_perm (elem : α) (l : List α) :
    (list_insert_ordered less elem l).Perm (elem :: l) := by
  induction l with
  | nil => exact .refl _
  | cons e rest ih =>
    simp only [list_insert_ordered]
    split
    · exact .refl _
    · exact (ih.cons e).trans (.swap _ _ _)

@[simp] theorem mem_list_insert_ordered {elem x : α} {l : List α} :
    x ∈ list_insert_ordered less elem l ↔ x = elem ∨ x ∈ l := by
  rw [(list_insert_ordered_perm elem l).mem_iff, List.mem_cons]

@[simp] theorem list_insert_ordered_ne_nil (elem : α) (l : List α) :
    list_insert_ordered less elem l ≠ [] := by
  cases l with
  | nil => simp [list_insert_ordered]
  | cons e rest =>
    simp only [list_insert_ordered]
    split <;> simp

theorem nodup_list_insert_ordered {elem : α} {l : List α} :
    (list_insert_ordered less elem l).Nodup ↔ elem ∉ l ∧ l.Nodup := by
  rw [(list_insert_ordered_perm elem l).nodup_iff, List.nodup_cons]

/-- Insertion keeps any order that `R` puts between the new element and those
it passes or stops at. This is the general form behind sortedness and FIFO
order among equals. -/
theorem list_insert_ordered_pairwise {R : α → α → Prop} {elem : α} {l : List α}
    (hpass : ∀ e ∈ l, less elem e = false → R e elem)
    (hstop : ∀ e ∈ l, less elem e = true → R elem e)
    (htrans : ∀ e ∈ l, ∀ e' ∈ l, R elem e → R e e' → R elem e')
    (h : l.Pairwise R) : (list_insert_ordered less elem l).Pairwise R := by
  induction l with
  | nil => exact List.pairwise_singleton _ _
  | cons e rest ih =>
    obtain ⟨hhead, htail⟩ := List.pairwise_cons.mp h
    simp only [list_insert_ordered]
    split
    · rename_i hless
      have hfirst := hstop e (by simp) hless
      refine List.pairwise_cons.mpr ⟨?_, h⟩
      intro x hx
      rcases List.mem_cons.mp hx with rfl | hx
      · exact hfirst
      · exact htrans e (by simp) x (by simp [hx]) hfirst (hhead x hx)
    · rename_i hless
      refine List.pairwise_cons.mpr ⟨?_, ih ?_ ?_ ?_ htail⟩
      · intro x hx
        rcases mem_list_insert_ordered.mp hx with rfl | hx
        · exact hpass e (by simp) (by simpa using hless)
        · exact hhead x hx
      · exact fun x hx => hpass x (by simp [hx])
      · exact fun x hx => hstop x (by simp [hx])
      · exact fun x hx y hy => htrans x (by simp [hx]) y (by simp [hy])

/-- Ordered insertion into an ordered list. -/
theorem list_insert_ordered_ordered (hless : StrictWeak less) {elem : α} {l : List α}
    (h : Ordered less l) : Ordered less (list_insert_ordered less elem l) := by
  apply list_insert_ordered_pairwise (R := fun a b => less b a = false) _ _ _ h
  · exact fun _ _ hfalse => hfalse
  · exact fun e _ htrue => hless.asymm elem e htrue
  · exact fun e _ e' _ hel hee => hless.neg_trans elem e e' hel hee

/-- An element that is not before `x` is inserted behind it. -/
theorem idxOf_list_insert_ordered [DecidableEq α] (hless : StrictWeak less) {elem x : α} {l : List α}
    (h : Ordered less l) (hx : x ∈ l) (hle : less elem x = false) :
    (list_insert_ordered less elem l).idxOf x = l.idxOf x := by
  induction l with
  | nil => cases hx
  | cons e rest ih =>
    have hhead : less elem e = false := by
      rcases List.mem_cons.mp hx with rfl | hrest
      · exact hle
      · exact hless.neg_trans _ _ _ (h.head_le x hrest) hle
    rw [list_insert_ordered, if_neg (by simp [hhead])]
    by_cases hxe : e = x
    · simp [hxe]
    · rw [List.idxOf_cons_ne _ hxe, List.idxOf_cons_ne _ hxe,
        ih h.tail ((List.mem_cons.mp hx).resolve_left (Ne.symm hxe))]

/-- Removing elements moves the others forward. -/
theorem idxOf_le_of_sublist [DecidableEq α] {x : α} {l l' : List α} (h : l'.Sublist l) (hl : l.Nodup)
    (hx : x ∈ l') : l'.idxOf x ≤ l.idxOf x := by
  induction h with
  | slnil => cases hx
  | cons e hsub ih =>
    obtain ⟨he, hl⟩ := List.nodup_cons.mp hl
    have hne : e ≠ x := fun heq => he (heq ▸ hsub.subset hx)
    rw [List.idxOf_cons_ne _ hne]
    exact Nat.le_succ_of_le (ih hl hx)
  | cons_cons e hsub ih =>
    by_cases he : e = x
    · simp [he]
    · rw [List.idxOf_cons_ne _ he, List.idxOf_cons_ne _ he]
      exact Nat.succ_le_succ (ih (List.nodup_cons.mp hl).2 ((List.mem_cons.mp hx).resolve_left (Ne.symm he)))

/-- Insertion leaves the elements that the new one is not among as they were. -/
theorem list_insert_ordered_filter_other {p : α → Bool} {elem : α} (hp : p elem = false) (l : List α) :
    (list_insert_ordered less elem l).filter p = l.filter p := by
  induction l with
  | nil => simp [list_insert_ordered, hp]
  | cons e rest ih =>
    simp only [list_insert_ordered]
    split
    · simp [hp]
    · simp only [List.filter_cons, ih]

/-- The new element is the last of those that it does not come before. -/
theorem list_insert_ordered_filter {p : α → Bool} {elem : α} {l : List α} (hp : p elem = true)
    (hbefore : ∀ e ∈ l, less elem e = true → p e = false)
    (hrest : l.Pairwise fun e e' => less elem e = true → less elem e' = true) :
    (list_insert_ordered less elem l).filter p = l.filter p ++ [elem] := by
  induction l with
  | nil => simp [list_insert_ordered, hp]
  | cons e rest ih =>
    obtain ⟨hhead, htail⟩ := List.pairwise_cons.mp hrest
    simp only [list_insert_ordered]
    split
    · rename_i hless
      have hnone : (e :: rest).filter p = [] := by
        refine List.filter_eq_nil_iff.mpr fun x hx => ?_
        rcases List.mem_cons.mp hx with rfl | hx
        · simp [hbefore x (.head _) hless]
        · simp [hbefore x (.tail _ hx) (hhead x hx hless)]
      rw [hnone, List.filter_cons, if_pos hp, hnone]
      rfl
    · rw [List.filter_cons, ih (fun x hx => hbefore x (.tail _ hx)) htail, List.filter_cons]
      split <;> rfl

/-! ## Sorting -/

theorem find_end_of_run_append (less : α → α → Bool) (l : List α) :
    (find_end_of_run less l).1 ++ (find_end_of_run less l).2 = l := by
  induction l with
  | nil => rfl
  | cons a l ih =>
    cases l with
    | nil => rfl
    | cons b l =>
      simp only [find_end_of_run]
      split
      · rfl
      · simpa using ih

/-- The run has one of the list's runs; the rest has the others. -/
theorem find_end_of_run_runs (less : α → α → Bool) (a : α) (l : List α) :
    runs less (find_end_of_run less (a :: l)).1 ≤ 1 ∧
      runs less (find_end_of_run less (a :: l)).2 + 1 = runs less (a :: l) ∧
      (∀ x ∈ (find_end_of_run less (a :: l)).1.head?, x = a) ∧
      (find_end_of_run less (a :: l)).1 ≠ [] := by
  induction l generalizing a with
  | nil => simp [find_end_of_run, runs]
  | cons b l ih =>
    obtain ⟨hone, hrest, hhead, hne⟩ := ih b
    simp only [find_end_of_run]
    split
    · rename_i hba
      simp [runs, hba, Nat.add_comm]
    · rename_i hba
      refine ⟨?_, ?_, by simp, by simp⟩
      · cases hrun : (find_end_of_run less (b :: l)).1 with
        | nil => exact absurd hrun hne
        | cons c run =>
          have hc : c = b := hhead c (by simp [hrun])
          subst hc
          rw [hrun] at hone
          simpa [runs, hba] using hone
      · simpa [runs, hba] using hrest

theorem inplace_merge_loop_eq (n : Nat) (a0 a1b0 : List α) (hfuel : a0.length + a1b0.length ≤ n) :
    inplace_merge_loop less n a0 a1b0 = List.merge a0 a1b0 fun x y => !less y x := by
  induction n generalizing a0 a1b0 with
  | zero =>
    have ha : a0 = [] := List.eq_nil_of_length_eq_zero (by omega)
    have hb : a1b0 = [] := List.eq_nil_of_length_eq_zero (by omega)
    simp [ha, hb, inplace_merge_loop]
  | succ n ih =>
    cases a0 with
    | nil => simp [inplace_merge_loop]
    | cons a a0 =>
      cases a1b0 with
      | nil => simp [inplace_merge_loop]
      | cons b a1b0 =>
        simp only [List.length_cons] at hfuel
        rw [inplace_merge_loop, List.cons_merge_cons,
          ih a0 (b :: a1b0) (by simp only [List.length_cons]; omega),
          ih (a :: a0) a1b0 (by simp only [List.length_cons]; omega)]

theorem inplace_merge_perm (less : α → α → Bool) (a0 a1b0 : List α) :
    (inplace_merge less a0 a1b0).Perm (a0 ++ a1b0) := by
  rw [inplace_merge, inplace_merge_loop_eq _ _ _ (Nat.le_refl _)]
  exact List.merge_perm_append _

theorem inplace_merge_ordered (hless : StrictWeak less) {a0 a1b0 : List α}
    (ha : Ordered less a0) (hb : Ordered less a1b0) : Ordered less (inplace_merge less a0 a1b0) := by
  rw [inplace_merge, inplace_merge_loop_eq _ _ _ (Nat.le_refl _)]
  have htrans : ∀ a b c, !less b a → !less c b → !less c a := fun a b c hab hbc => by
    simp only [Bool.not_eq_true'] at hab hbc ⊢
    exact hless.neg_trans a b c hab hbc
  have htotal : ∀ a b, (!less b a || !less a b) = true := fun a b => by
    cases hab : less a b with
    | true => simp [hless.asymm a b hab]
    | false => simp
  have h := List.pairwise_merge htrans htotal a0 a1b0 (by simpa [Ordered] using ha)
    (by simpa [Ordered] using hb)
  simpa [Ordered] using h

/-- A pass permutes the list, leaves at most one run for every run it counts,
and counts about half the runs it found. -/
theorem list_sort_pass_spec (hless : StrictWeak less) (n : Nat) (l : List α)
    (hfuel : l.length ≤ n) :
    (list_sort_pass less n l).1.Perm l ∧
      runs less (list_sort_pass less n l).1 ≤ (list_sort_pass less n l).2 ∧
      2 * (list_sort_pass less n l).2 ≤ runs less l + 1 := by
  induction n generalizing l with
  | zero =>
    have hl : l = [] := List.eq_nil_of_length_eq_zero (by omega)
    simp [hl, list_sort_pass, runs]
  | succ n ih =>
    cases l with
    | nil => simp [list_sort_pass, runs]
    | cons a l =>
      obtain ⟨hone, hrest, _, hne⟩ := find_end_of_run_runs less a l
      have happ := find_end_of_run_append less (a :: l)
      simp only [list_sort_pass]
      split
      · rename_i hempty
        rw [List.isEmpty_iff] at hempty
        rw [hempty, List.append_nil] at happ
        rw [happ] at hone ⊢
        have := runs_pos less a l
        exact ⟨.refl _, hone, by omega⟩
      · rename_i hmore
        rw [List.isEmpty_iff] at hmore
        obtain ⟨b, m, hbm⟩ := List.exists_cons_of_ne_nil hmore
        rw [hbm] at happ hrest ⊢
        obtain ⟨hone', hrest', _, _⟩ := find_end_of_run_runs less b m
        have happ' := find_end_of_run_append less (b :: m)
        have hshort : (find_end_of_run less (b :: m)).2.length ≤ n := by
          have h1 := congrArg List.length happ
          have h2 := congrArg List.length happ'
          have h3 := List.length_pos_iff.mpr hne
          simp only [List.length_append, List.length_cons] at h1 h2 hfuel
          omega
        obtain ⟨hperm, hruns, hcount⟩ := ih _ hshort
        have hmerged : runs less (inplace_merge less (find_end_of_run less (a :: l)).1
            (find_end_of_run less (b :: m)).1) ≤ 1 :=
          runs_le_one_of_ordered (inplace_merge_ordered hless
            (ordered_of_runs_le_one hless hone) (ordered_of_runs_le_one hless hone'))
        refine ⟨?_, ?_, by dsimp only; omega⟩
        · have h := ((inplace_merge_perm less (find_end_of_run less (a :: l)).1
            (find_end_of_run less (b :: m)).1).append hperm)
          rw [List.append_assoc, happ', happ] at h
          exact h
        · have := runs_append_le less (inplace_merge less (find_end_of_run less (a :: l)).1
            (find_end_of_run less (b :: m)).1) (list_sort_pass less n (find_end_of_run less (b :: m)).2).1
          dsimp only
          omega

theorem list_sort_loop_spec (hless : StrictWeak less) (n : Nat) (l : List α)
    (hfuel : runs less l < n) :
    (list_sort_loop less n l).Perm l ∧ Ordered less (list_sort_loop less n l) := by
  induction n generalizing l with
  | zero => omega
  | succ n ih =>
    obtain ⟨hperm, hruns, hcount⟩ := list_sort_pass_spec hless l.length l (Nat.le_refl _)
    simp only [list_sort_loop]
    split
    · obtain ⟨hperm', hordered⟩ := ih (list_sort_pass less l.length l).1 (by omega)
      exact ⟨hperm'.trans hperm, hordered⟩
    · exact ⟨hperm, ordered_of_runs_le_one hless (by omega)⟩

theorem list_sort_perm (hless : StrictWeak less) (l : List α) : (list_sort less l).Perm l :=
  (list_sort_loop_spec hless _ l (Nat.lt_succ_of_le (runs_le_length l))).1

/-- `list_sort` leaves the list in order. -/
theorem list_sort_ordered (hless : StrictWeak less) (l : List α) :
    Ordered less (list_sort less l) :=
  (list_sort_loop_spec hless _ l (Nat.lt_succ_of_le (runs_le_length l))).2

/-! ### Stability

Elements of which none is `less` than another keep their order. -/

section Stability

variable {p : α → Bool}

theorem inplace_merge_loop_filter (hless : StrictWeak less)
    (hp : ∀ a b, p a = true → p b = true → less a b = false) (n : Nat) : ∀ a0 a1b0 : List α, Ordered less a0 →
      (inplace_merge_loop less n a0 a1b0).filter p = a0.filter p ++ a1b0.filter p := by
  induction n with
  | zero => exact fun a0 a1b0 _ => List.filter_append a0 a1b0
  | succ n ih =>
    intro a0 a1b0 hordered
    cases a0 with
    | nil => rfl
    | cons a a0 =>
      cases a1b0 with
      | nil => simp [inplace_merge_loop]
      | cons b a1b0 =>
        rw [inplace_merge_loop]
        split
        · rw [List.filter_cons, ih a0 (b :: a1b0) hordered.tail, List.filter_cons (x := a)]
          split <;> rfl
        · next hba =>
          rw [List.filter_cons, ih (a :: a0) a1b0 hordered]
          by_cases hpb : p b = true
          · -- `b` passes only elements that it is `less` than
            have hnone : (a :: a0).filter p = [] := by
              refine List.filter_eq_nil_iff.mpr fun y hy hpy => hba ?_
              have hya : less y a = false := by
                rcases List.mem_cons.mp hy with rfl | hy
                · exact hp y y hpy hpy
                · exact hordered.head_le y hy
              rw [hless.neg_trans a y b hya (hp b y hpb hpy)]
              rfl
            rw [hnone, if_pos hpb, List.filter_cons_of_pos hpb]
            rfl
          · rw [if_neg hpb, List.filter_cons_of_neg hpb]

theorem list_sort_pass_filter (hless : StrictWeak less)
    (hp : ∀ a b, p a = true → p b = true → less a b = false) (n : Nat) :
    ∀ l : List α, (list_sort_pass less n l).1.filter p = l.filter p := by
  induction n with
  | zero => exact fun _ => rfl
  | succ n ih =>
    intro l
    cases l with
    | nil => rfl
    | cons a l =>
      obtain ⟨hone, -⟩ := find_end_of_run_runs less a l
      have happ := find_end_of_run_append less (a :: l)
      simp only [list_sort_pass]
      split
      · rename_i hempty
        rw [List.isEmpty_iff.mp hempty, List.append_nil] at happ
        rw [happ]
      · rw [List.filter_append, ih, inplace_merge, inplace_merge_loop_filter hless hp _ _ _
          (ordered_of_runs_le_one hless hone),
          List.append_assoc, ← List.filter_append, find_end_of_run_append, ← List.filter_append, happ]

theorem list_sort_loop_filter (hless : StrictWeak less)
    (hp : ∀ a b, p a = true → p b = true → less a b = false) (n : Nat) :
    ∀ l : List α, (list_sort_loop less n l).filter p = l.filter p := by
  induction n with
  | zero => exact fun _ => rfl
  | succ n ih =>
    intro l
    simp only [list_sort_loop]
    split
    · rw [ih, list_sort_pass_filter hless hp]
    · exact list_sort_pass_filter hless hp _ l

/-- `list_sort` is stable. -/
theorem list_sort_filter (hless : StrictWeak less)
    (hp : ∀ a b, p a = true → p b = true → less a b = false) (l : List α) :
    (list_sort less l).filter p = l.filter p :=
  list_sort_loop_filter hless hp _ l

end Stability

@[simp] theorem mem_list_sort (hless : StrictWeak less) {x : α} {l : List α} :
    x ∈ list_sort less l ↔ x ∈ l :=
  (list_sort_perm hless l).mem_iff

end pintos.kernel
