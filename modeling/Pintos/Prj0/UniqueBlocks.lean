import Pintos.Prj0.ListUnique
import Pintos.Lib.StrictWeak
import Mathlib.Data.List.SplitBy

/-!
# What `list_unique` keeps (`list.c`, the same in `lib/kernel/list.c`)

For a strict weak order, `list_unique` keeps the first element of every block of equal
neighbours, and takes the others out in their order.
-/

open links pintos.kernel strict_weak

namespace pintos.prj0_2

section Blocks

variable {α : Type} {less : α → α → Bool}

theorem equal_eq_true {a b : α} : equal less a b = true ↔ less a b = false ∧ less b a = false := by
  rw [equal, Bool.and_eq_true, Bool.not_eq_true', Bool.not_eq_true']

theorem equal_symm {a b : α} (h : equal less a b = true) : equal less b a = true :=
  equal_eq_true.mpr (equal_eq_true.mp h).symm

theorem equal_trans (hless : StrictWeak less) {a b c : α} (hab : equal less a b = true)
    (hbc : equal less b c = true) :
    equal less a c = true := by
  rw [equal_eq_true] at hab hbc ⊢
  exact ⟨hless.neg_trans _ _ _ hbc.1 hab.1, hless.neg_trans _ _ _ hab.2 hbc.2⟩

/-- The blocks of a list: its longest parts in which neighbours are equal. -/
def blocks (less : α → α → Bool) (l : List α) : List (List α) := l.splitBy (equal less)

/-- The elements that all equal the first one are one block. -/
theorem isChain_of_equal (hless : StrictWeak less) {e : α} {group : List α}
    (h : ∀ y ∈ group, equal less e y = true) : (e :: group).IsChain fun a b => equal less a b = true := by
  have hall : (e :: group).Pairwise fun a b => equal less a b = true := by
    refine List.pairwise_cons.mpr ⟨h, ?_⟩
    rw [List.pairwise_iff_forall_sublist]
    intro a b hsub
    exact equal_trans hless (equal_symm (h a (hsub.subset (by simp)))) (h b (hsub.subset (by simp)))
  exact hall.isChain

/-- The scan of `list_unique` finds the blocks; `group` are the repetitions that it has
passed. -/
theorem unique_from_blocks (hless : StrictWeak less) (rest : List α) : ∀ (e : α) (group : List α),
    (∀ y ∈ group, equal less e y = true) →
      (blocks less (e :: group ++ rest)).flatMap (List.take 1) = e :: (unique_from (equal less) e rest).1 ∧
      (blocks less (e :: group ++ rest)).flatMap (List.drop 1) = group ++
      (unique_from (equal less) e rest).2 := by
  induction rest with
  | nil =>
    intro e group hgroup
    rw [List.append_nil, blocks, List.splitBy_of_isChain (List.cons_ne_nil e group)
      (isChain_of_equal hless hgroup)]
    simp [unique_from]
  | cons x rest ih =>
    intro e group hgroup
    by_cases hsame : equal less e x = true
    · obtain ⟨hkept, hremoved⟩ := ih e (group ++ [x]) (by simpa [or_imp, forall_and] using ⟨hgroup, hsame⟩)
      simp only [List.cons_append, List.append_assoc, List.nil_append] at hkept hremoved ⊢
      rw [unique_from, if_pos hsame]
      exact ⟨hkept, hremoved⟩
    · obtain ⟨hkept, hremoved⟩ := ih x [] (by simp)
      have hlast : ∀ y ∈ (e :: group).getLast?, equal less y x = false := by
        intro y hy
        rw [← Bool.not_eq_true]
        intro hyx
        obtain rfl | hmem := List.mem_cons.mp (List.mem_of_getLast? hy)
        · exact hsame hyx
        · exact hsame (equal_trans hless (hgroup y hmem) hyx)
      rw [blocks, List.splitBy_append_cons rest hlast,
        List.splitBy_of_isChain (List.cons_ne_nil e group) (isChain_of_equal hless hgroup),
          unique_from, if_neg hsame]
      rw [List.singleton_append, List.flatMap_cons, List.flatMap_cons]
      exact ⟨congrArg (e :: ·) hkept, congrArg (group ++ ·) hremoved⟩

theorem unique_blocks (hless : StrictWeak less) (l : List α) :
    (unique (equal less) l).1 = (blocks less l).flatMap (List.take 1) ∧
      (unique (equal less) l).2 = (blocks less l).flatMap (List.drop 1) := by
  cases l with
  | nil => exact ⟨rfl, rfl⟩
  | cons e rest =>
    obtain ⟨hkept, hremoved⟩ := unique_from_blocks hless rest e [] (by simp)
    exact ⟨hkept.symm, hremoved.symm⟩

/-- In an ordered list, every element that is kept comes strictly after those before it. -/
theorem unique_from_strict (hless : StrictWeak less) (rest : List α) : ∀ e, Ordered less (e :: rest) →
    (e :: (unique_from (equal less) e rest).1).Pairwise fun a b => less a b = true := by
  induction rest with
  | nil => exact fun e _ => List.pairwise_singleton _ e
  | cons x rest ih =>
    intro e hordered
    rw [unique_from]
    split
    · exact ih e (hordered.sublist (by simp))
    · next hne =>
      have hex : less e x = true := by
        by_contra hnot
        exact hne (equal_eq_true.mpr ⟨Bool.eq_false_iff.mpr hnot, hordered.head_le x List.mem_cons_self⟩)
      have hrest := ih x hordered.tail
      refine List.pairwise_cons.mpr ⟨fun y hy => ?_, hrest⟩
      obtain rfl | hy := List.mem_cons.mp hy
      · exact hex
      · by_contra hnot
        have hxy := List.rel_of_pairwise_cons hrest hy
        have hback := hless.neg_trans _ _ _ (hless.asymm _ _ hxy) (Bool.eq_false_iff.mpr hnot)
        rw [hex] at hback
        cases hback

/-- Of an ordered list, no two elements that are kept are equal. -/
theorem unique_distinct (hless : StrictWeak less) {l : List α} (hordered : Ordered less l) :
    (unique (equal less) l).1.Pairwise fun a b => equal less a b = false := by
  cases l with
  | nil => exact .nil
  | cons e rest =>
    refine (unique_from_strict hless rest e hordered).imp fun {a b} hab => ?_
    rw [equal, hab]
    rfl

end Blocks

variable {Node ι : Type} [DecidableEq Node] [DecidableEq ι] {m : Memory Node} {lists : ι → kernel.list Node}
  {seq : ι → List Node} {i : ι} {less : Node → Node → Bool}

/-- `list_unique` ends and keeps the first element of each block of equal neighbours; the
others come to the end of the list of duplicates, where there is one, in their order. No
element is lost or in two lists. Of an ordered list, no two equal elements are kept. -/
theorem list_unique_keeps_blocks (hless : StrictWeak less) {duplicates : Option ι}
    (hother : duplicates ≠ some i) (hwf : WellFormed m lists seq) : ∃ m' seq',
    (∀ n, (seq i).length ≤ n → list_unique n less (lists i) (duplicates.map lists) m = .ok ((), m')) ∧
      WellFormed m' lists seq' ∧
      seq' i = (blocks less (seq i)).flatMap (List.take 1) ∧
      (∀ j, duplicates = some j → seq' j = seq j ++ (blocks less (seq i)).flatMap (List.drop 1)) ∧
      (∀ j, j ≠ i → duplicates ≠ some j → seq' j = seq j) ∧
      (seq' i ++ (blocks less (seq i)).flatMap (List.drop 1)).Perm (seq i) ∧
      (∀ j, j ≠ i → ∀ x ∈ seq' i, x ∉ seq' j) ∧
      (Ordered less (seq i) → (seq' i).Pairwise fun a b => equal less a b = false) := by
  obtain ⟨m', seq', hrun, hwf', hkept, hremoved, hothers⟩ := list_unique_run less hother hwf
  obtain ⟨hheads, htails⟩ := unique_blocks hless (seq i)
  refine ⟨m', seq', hrun, hwf', hkept.trans hheads, fun j hj => ?_, hothers, ?_,
    fun j hj x hx hxj => ?_, fun h => ?_⟩
  · rw [hremoved j hj, htails]
  · rw [hkept, ← htails]
    exact unique_perm (equal less) (seq i)
  · exact hj (hwf'.disjoint j i x (mem_nodes.mpr (.inr (.inl hxj))) (mem_nodes.mpr (.inr (.inl hx))))
  · rw [hkept]
    exact unique_distinct hless h

/-- A list of the elements 4 and 5, and an empty one. -/
def two_and_none : Memory Nat
  | 0 => ⟨none, some 4⟩
  | 1 => ⟨some 5, none⟩
  | 2 => ⟨none, some 3⟩
  | 3 => ⟨some 2, none⟩
  | 4 => ⟨some 0, some 5⟩
  | _ => ⟨some 4, some 1⟩

theorem two_and_none_formed :
    WellFormed two_and_none (fun i : Bool => if i then ⟨0, 1⟩ else ⟨2, 3⟩) fun i =>
      if i then [4, 5] else [] := by
  refine ⟨fun i => ?_, by decide, by decide, by decide, fun i j x hi hj => ?_⟩
  · cases i with
    | false => exact List.isChain_pair.mpr ⟨rfl, rfl⟩
    | true =>
      refine List.isChain_cons_cons.mpr ⟨⟨rfl, rfl⟩, List.isChain_cons_cons.mpr ⟨⟨rfl, rfl⟩, ?_⟩⟩
      exact List.isChain_pair.mpr ⟨rfl, rfl⟩
  · cases i <;> cases j <;> simp [mem_nodes] at hi hj ⊢ <;> omega

/-- Of two equal elements, the second goes to the other list. -/
theorem list_unique_keeps_blocks_two : ∃ m' seq', (∀ n, 2 ≤ n →
      list_unique n (fun _ _ => false) ⟨0, 1⟩ (some ⟨2, 3⟩) two_and_none = .ok ((), m')) ∧
    WellFormed m' (fun i : Bool => if i then ⟨0, 1⟩ else ⟨2, 3⟩) seq' ∧ seq' true = [4] ∧ seq' false = [5] := by
  obtain ⟨m', seq', hrun, hwf', hkept, hremoved, -⟩ := list_unique_keeps_blocks (i := true)
    (show StrictWeak fun _ _ => false from ⟨by simp, by simp⟩) (show some false ≠ some true by decide)
    two_and_none_formed
  exact ⟨m', seq', hrun, hwf', hkept, hremoved false rfl⟩

end pintos.prj0_2
