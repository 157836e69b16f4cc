import Pintos.Prj0.ListSplice
import Pintos.Lib.Transition

/-!
# Which list commands keep the lists intact

A command with positions that lead to a splice into its own range, a splice backwards, a
swap with a tail, or duplicates that are put back again and again damages the lists, and
no other command does.
-/

open links pintos.kernel state_error transition

namespace pintos.prj0_2

variable {Node ι : Type}

/-- An element is in one of the lists. -/
def Holds (seq : ι → List Node) (x : Node) : Prop := ∃ i, x ∈ seq i

/-- The elements that a command should leave: a new one comes in, one goes out, or only
repetitions are dropped. -/
def ListCommand.Keeps (data : Node → BitVec 32) (seq seq' : ι → List Node) : ListCommand Node ι → Prop
  | .list_insert _ _ elem _ => ∀ x, Holds seq' x ↔ x = elem ∨ Holds seq x
  | .list_remove target position => ∃ e ∈ (seq target)[position]?, ∀ x, Holds seq' x ↔ Holds seq x ∧ x ≠ e
  | .list_splice .. | .list_swap .. | .list_unique _ (some _) => ∀ x, Holds seq' x ↔ Holds seq x
  | .list_unique first none => (∀ x, Holds seq' x → Holds seq x) ∧
      ∀ x, Holds seq x → ¬ Holds seq' x → x ∈ seq first ∧ ∃ y ∈ seq' first, data y = data x

/-- The element that `malloc` returns is in no list. -/
def ListCommand.Allocates (lists : ι → kernel.list Node) (seq : ι → List Node) : ListCommand Node ι → Prop
  | .list_insert _ _ elem _ => Fresh lists seq elem
  | _ => True

/-- Where all positions are in the lists, a splice forwards goes to a place outside of the
range and one backwards to a place between the end and the beginning, a swap does not
concern one tail, and duplicates that are put back settle. -/
def ListCommand.Safe (data : Node → BitVec 32) (seq : ι → List Node) : ListCommand Node ι → Prop
  | .list_insert .. | .list_remove .. => True
  | .list_splice to_ insertPosition from_ start end_ =>
    insertPosition ≤ (seq to_).length → start ≤ (seq from_).length → end_ ≤ (seq from_).length →
      (start < end_ → to_ = from_ → start ≤ insertPosition → end_ ≤ insertPosition) ∧
      (0 < end_ → end_ < start → start < (seq from_).length →
        to_ = from_ ∧ end_ ≤ insertPosition ∧ insertPosition < start)
  | .list_swap target idx1 idx2 => idx1 ≤ (seq target).length → idx2 ≤ (seq target).length →
      (idx1 = (seq target).length ↔ idx2 = (seq target).length)
  | .list_unique first second => second = some first → settled (equal (list_less data)) (seq first) = true

variable [DecidableEq Node]

/-- The command ends. It stops in an `ASSERT` and has changed no link, or leaves
well-formed lists that hold the elements they should. -/
def Intact (lists : ι → kernel.list Node) (data : Node → BitVec 32) (m : Memory Node) (seq : ι → List Node)
    (c : ListCommand Node ι) : Prop :=
  ∃ least, (∀ n, least ≤ n → c.exec lists data n m = .error (.assert, m)) ∨
    ∃ m' seq', (∀ n, least ≤ n → c.exec lists data n m = .ok ((), m')) ∧ WellFormed m' lists seq' ∧
      c.Keeps data seq seq'

variable {m m' : Memory Node} {lists : ι → kernel.list Node} {seq seq' : ι → List Node} {i j : ι}
  {data : Node → BitVec 32} {position : Nat} {elem x : Node} {β : Type}

section Exec

omit [DecidableEq Node]

theorem begin_bind {k : Node → Links Node β} (hwf : WellFormed m lists seq) (i : ι) :
    (list_begin (lists i) >>= k) m = k (following (lists i) (seq i)) m :=
  Exec.bind_run (list_begin_run hwf i)

theorem walk_bind {k : Node → Links Node β} (hwf : WellFormed m lists seq) (i : ι) (position : Nat) :
    (walk position (following (lists i) (seq i)) >>= k) m =
      if position ≤ (seq i).length then k (following (lists i) ((seq i).drop position)) m
      else .error (.assert, m) := by
  by_cases hposition : position ≤ (seq i).length
  · rw [if_pos hposition]
    exact Exec.bind_run (by rw [walk_begin_run hwf, if_pos hposition])
  · rw [if_neg hposition]
    exact Exec.bind_error (by rw [walk_begin_run hwf, if_neg hposition])

end Exec

section Outcomes

variable {c : ListCommand Node ι}

theorem intact_of_assert (h : ∀ n, c.exec lists data n m = .error (.assert, m)) : Intact lists data m seq c :=
  ⟨0, .inl fun n _ => h n⟩

theorem intact_of_ok (h : ∀ n, c.exec lists data n m = .ok ((), m')) (hwf : WellFormed m' lists seq')
    (hkeeps : c.Keeps data seq seq') : Intact lists data m seq c :=
  ⟨0, .inr ⟨m', seq', fun n _ => h n, hwf, hkeeps⟩⟩

/-- A command that follows a null pointer, or never ends, damages the lists. -/
theorem not_intact_of_stop {s : Stop} (h : ∀ n, ∃ m', c.exec lists data n m = .error (s, m'))
    (hs : s ≠ .assert) :
    ¬ Intact lists data m seq c := by
  rintro ⟨least, hassert | ⟨m', seq', hok, -, -⟩⟩
  · obtain ⟨m', hstop⟩ := h least
    rw [hassert least (Nat.le_refl _), Except.error.injEq, Prod.mk.injEq] at hstop
    exact hs hstop.1.symm
  · obtain ⟨m', hstop⟩ := h least
    cases hstop.symm.trans (hok least (Nat.le_refl _))

/-- A command that loses an element damages the lists. -/
theorem not_intact_of_lost (m' : Memory Node) (h : ∀ n, c.exec lists data n m = .ok ((), m'))
    (hlost : ∀ seq', WellFormed m' lists seq' → ¬ c.Keeps data seq seq') : ¬ Intact lists data m seq c := by
  rintro ⟨least, hassert | ⟨m₁, seq', hok, hwf, hkeeps⟩⟩
  · cases (h least).symm.trans (hassert least (Nat.le_refl _))
  · have heq := (h least).symm.trans (hok least (Nat.le_refl _))
    rw [Except.ok.injEq, Prod.mk.injEq] at heq
    obtain ⟨-, rfl⟩ := heq
    exact hlost seq' hwf hkeeps

end Outcomes

section Elements

omit [DecidableEq Node]

variable [DecidableEq ι] {elems : List Node}

theorem holds_update : Holds (Function.update seq i elems) x ↔ x ∈ elems ∨ ∃ j, j ≠ i ∧ x ∈ seq j := by
  constructor
  · rintro ⟨j, hj⟩
    by_cases hji : j = i
    · subst hji
      rw [Function.update_self] at hj
      exact .inl hj
    · rw [Function.update_of_ne hji] at hj
      exact .inr ⟨j, hji, hj⟩
  · rintro (hx | ⟨j, hji, hj⟩)
    · exact ⟨i, by rwa [Function.update_self]⟩
    · exact ⟨j, by rwa [Function.update_of_ne hji]⟩

theorem holds_iff (i : ι) : Holds seq x ↔ x ∈ seq i ∨ ∃ j, j ≠ i ∧ x ∈ seq j := by
  rw [← holds_update, Function.update_eq_self]

/-- The elements of a list are arranged anew. -/
theorem holds_update_perm (hperm : elems.Perm (seq i)) : Holds (Function.update seq i elems) x ↔
    Holds seq x := by
  rw [holds_update, holds_iff i, hperm.mem_iff]

end Elements

variable [DecidableEq ι]

theorem list_insert_intact (hwf : WellFormed m lists seq) (hfresh : Fresh lists seq elem)
    (item_data : BitVec 32) :
    Intact lists data m seq (.list_insert i position elem item_data) := by
  by_cases hposition : position ≤ (seq i).length
  · obtain ⟨m', hrun, hwf', -⟩ := list_insert_run hwf ((seq i).take_append_drop position).symm hfresh
    refine intact_of_ok (fun n => ?_) hwf' fun x => ?_
    · rw [ListCommand.exec, begin_bind hwf, walk_bind hwf, if_pos hposition]
      exact list_insert_of_kernel hrun
    · have hsplit : x ∈ seq i ↔ x ∈ (seq i).take position ∨ x ∈ (seq i).drop position := by
        rw [← List.mem_append, List.take_append_drop]
      rw [holds_update, holds_iff i, hsplit, List.mem_append, List.mem_cons]
      tauto
  · refine intact_of_assert fun n => ?_
    rw [ListCommand.exec, begin_bind hwf, walk_bind hwf, if_neg hposition]

omit [DecidableEq Node] in
/-- A list without one of its elements. -/
theorem holds_update_remove {before after : List Node} (hwf : WellFormed m lists seq)
    (hseq : seq i = before ++ elem :: after) :
    Holds (Function.update seq i (before ++ after)) x ↔ Holds seq x ∧ x ≠ elem := by
  have hnodup := hwf.seq_nodup i
  rw [hseq] at hnodup
  have hnot : elem ∉ before ++ after := (List.nodup_cons.mp (List.nodup_middle.mp hnodup)).1
  have hother : ∀ j, j ≠ i → x ∈ seq j → x ≠ elem := by
    rintro j hji hx rfl
    exact hji (hwf.disjoint j i x (by simp [nodes, hx]) (by simp [nodes, hseq]))
  rw [holds_update, holds_iff i, hseq]
  constructor
  · rintro (hx | ⟨j, hji, hj⟩)
    · exact ⟨.inl (List.perm_middle.mem_iff.mpr (List.mem_cons_of_mem _ hx)), fun heq => hnot (heq ▸ hx)⟩
    · exact ⟨.inr ⟨j, hji, hj⟩, hother j hji hj⟩
  · rintro ⟨hx | hx, hne⟩
    · exact .inl ((List.mem_cons.mp (List.perm_middle.mem_iff.mp hx)).resolve_left hne)
    · exact .inr hx

omit [DecidableEq ι] in
theorem list_remove_tail (hwf : WellFormed m lists seq) (i : ι) :
    list_remove (lists i).tail m = .error (.assert, m) := by
  rw [list_remove, ASSERT_bind, is_interior, hwf.tail_next i]
  simp

omit [DecidableEq Node] [DecidableEq ι] in
theorem seq_split (hlt : position < (seq i).length) :
    seq i = (seq i).take position ++ (seq i)[position] :: (seq i).drop (position + 1) := by
  rw [List.getElem_cons_drop, List.take_append_drop]

theorem list_remove_intact (hwf : WellFormed m lists seq) :
    Intact lists data m seq (.list_remove i position) := by
  by_cases hposition : position ≤ (seq i).length
  · obtain hlt | rfl := Nat.lt_or_eq_of_le hposition
    · have hseq := seq_split hlt
      obtain ⟨m', hrun, hwf', -⟩ := list_remove_run hwf hseq
      refine intact_of_ok (fun n => ?_) hwf' ⟨_, List.getElem?_eq_getElem hlt,
        fun x => holds_update_remove hwf hseq⟩
      rw [ListCommand.exec, begin_bind hwf, walk_bind hwf, if_pos hposition, ← List.getElem_cons_drop hlt]
      exact list_remove_of_kernel hrun
    · refine intact_of_assert fun n => ?_
      rw [ListCommand.exec, begin_bind hwf, walk_bind hwf, if_pos hposition, List.drop_length]
      exact list_remove_tail hwf i
  · refine intact_of_assert fun n => ?_
    rw [ListCommand.exec, begin_bind hwf, walk_bind hwf, if_neg hposition]

omit [DecidableEq Node] [DecidableEq ι] in
/-- Two positions of a list. -/
theorem split_two {l : List Node} {p q : Nat} (hpq : p < q) (hq : q < l.length) :
    ∃ before a between b after, l = before ++ a :: between ++ b :: after ∧
      l.drop p = a :: (between ++ b :: after) ∧
      l.drop q = b :: after := by
  have hp : p < l.length := Nat.lt_trans hpq hq
  have hdrop : (l.drop (p + 1)).drop (q - (p + 1)) = l.drop q := by
    rw [List.drop_drop, Nat.add_sub_cancel' hpq]
  have hsplit : l.drop (p + 1) = (l.drop (p + 1)).take (q - (p + 1)) ++ l[q] :: l.drop (q + 1) := by
    rw [List.getElem_cons_drop, ← hdrop, List.take_append_drop]
  refine ⟨l.take p, l[p], (l.drop (p + 1)).take (q - (p + 1)), l[q], l.drop (q + 1), ?_, ?_, ?_⟩
  · rw [List.append_assoc, List.cons_append, ← hsplit, List.getElem_cons_drop, List.take_append_drop]
  · rw [← hsplit, List.getElem_cons_drop]
  · rw [List.getElem_cons_drop]

omit [DecidableEq Node] [DecidableEq ι] in
theorem swap_perm (before between after : List Node) (a b : Node) :
    (before ++ b :: between ++ a :: after).Perm (before ++ a :: between ++ b :: after) := by
  rw [List.append_assoc, List.append_assoc]
  refine List.Perm.append_left before ?_
  exact (List.perm_middle.cons b).trans ((List.Perm.swap a b _).trans (List.perm_middle.symm.cons a))

omit [DecidableEq Node] in
theorem swap_keeps {before between after : List Node} {a b : Node}
    (hseq : seq i = before ++ a :: between ++ b :: after) :
    Holds (Function.update seq i (before ++ b :: between ++ a :: after)) x ↔ Holds seq x := by
  refine holds_update_perm ?_
  rw [hseq]
  exact swap_perm before between after a b

theorem list_swap_intact {idx1 idx2 : Nat} (hwf : WellFormed m lists seq) :
    Intact lists data m seq (.list_swap i idx1 idx2) ↔ (ListCommand.list_swap i idx1 idx2).Safe data seq := by
  by_cases h1 : idx1 ≤ (seq i).length
  · by_cases h2 : idx2 ≤ (seq i).length
    · have hexec : ∀ n, (ListCommand.list_swap i idx1 idx2).exec lists data n m =
          list_swap (following (lists i) ((seq i).drop idx1)) (following (lists i) ((seq i).drop idx2)) m := by
        intro n
        rw [ListCommand.exec, begin_bind hwf, begin_bind hwf, walk_bind hwf, if_pos h1,
          walk_bind hwf, if_pos h2]
      simp only [ListCommand.Safe, h1, h2, forall_const]
      by_cases heq : idx1 = idx2
      · subst heq
        simp only [iff_true]
        refine intact_of_ok (fun n => ?_) hwf fun x => Iff.rfl
        rw [hexec, list_swap, get_bind, if_pos rfl]
        rfl
      · obtain hlt1 | rfl := Nat.lt_or_eq_of_le h1
        · obtain hlt2 | rfl := Nat.lt_or_eq_of_le h2
          · -- two elements
            refine iff_of_true ?_ (iff_of_false (Nat.ne_of_lt hlt1) (Nat.ne_of_lt hlt2))
            obtain hlt | hlt := Nat.lt_or_gt_of_ne heq
            · obtain ⟨before, a, between, b, after, hseq, hdrop1, hdrop2⟩ := split_two hlt hlt2
              obtain ⟨m', hrun, -, hwf'⟩ := list_swap_run hwf hseq
              refine intact_of_ok (fun n => ?_) hwf' fun x => swap_keeps hseq
              rw [hexec, hdrop1, hdrop2]
              exact hrun
            · obtain ⟨before, a, between, b, after, hseq, hdrop2, hdrop1⟩ := split_two hlt hlt1
              obtain ⟨m', -, hrun, hwf'⟩ := list_swap_run hwf hseq
              refine intact_of_ok (fun n => ?_) hwf' fun x => swap_keeps hseq
              rw [hexec, hdrop1, hdrop2]
              exact hrun
          · refine iff_of_false ?_ fun hiff => Nat.ne_of_lt hlt1 (hiff.mpr rfl)
            obtain ⟨⟨m', hrun⟩, -⟩ := list_swap_tail hwf (seq_split hlt1)
            refine not_intact_of_stop (fun n => ⟨m', ?_⟩) (s := .null) (by decide)
            rw [hexec, ← List.getElem_cons_drop hlt1, List.drop_length]
            exact hrun
        · have hlt2 : idx2 < (seq i).length := Nat.lt_of_le_of_ne h2 (Ne.symm heq)
          refine iff_of_false ?_ fun hiff => heq (hiff.mp rfl).symm
          obtain ⟨-, m', hrun⟩ := list_swap_tail hwf (seq_split hlt2)
          refine not_intact_of_stop (fun n => ⟨m', ?_⟩) (s := .null) (by decide)
          rw [hexec, ← List.getElem_cons_drop hlt2, List.drop_length]
          exact hrun
    · refine iff_of_true (intact_of_assert fun n => ?_) fun _ h => absurd h h2
      rw [ListCommand.exec, begin_bind hwf, begin_bind hwf, walk_bind hwf, if_pos h1, walk_bind hwf, if_neg h2]
  · refine iff_of_true (intact_of_assert fun n => ?_) fun h => absurd h h1
    rw [ListCommand.exec, begin_bind hwf, begin_bind hwf, walk_bind hwf, if_neg h1]

omit [DecidableEq Node] [DecidableEq ι] in
theorem data_eq_of_equal {a b : Node} (h : equal (list_less data) a b = true) : data a = data b := by
  simp only [equal, list_less, BitVec.slt, Bool.and_eq_true, Bool.not_eq_true',
    decide_eq_false_iff_not, not_lt] at h
  exact BitVec.toInt_inj.mp (Int.le_antisymm h.2 h.1)

omit [DecidableEq Node] [DecidableEq ι] in
/-- Duplicates that are dropped are repetitions. -/
theorem unique_keeps_none (hcollected : Collected none seq seq' i (unique (equal (list_less data)) (seq i)).1
    (unique (equal (list_less data)) (seq i)).2) : (ListCommand.list_unique i none).Keeps data seq seq' := by
  obtain ⟨hkept, -, hothers⟩ := hcollected
  have hperm := unique_perm (equal (list_less data)) (seq i)
  constructor
  · rintro x ⟨j, hj⟩
    by_cases hji : j = i
    · subst hji
      exact ⟨j, hperm.mem_iff.mp (List.mem_append_left _ (hkept ▸ hj))⟩
    · exact ⟨j, hothers j hji (by simp) ▸ hj⟩
  · rintro x ⟨j, hj⟩ hnot
    have hji : j = i := by
      by_contra hji
      exact hnot ⟨j, (hothers j hji (by simp)).symm ▸ hj⟩
    subst hji
    refine ⟨hj, ?_⟩
    obtain hx | hx := List.mem_append.mp (hperm.mem_iff.mpr hj)
    · exact absurd ⟨j, hkept ▸ hx⟩ hnot
    · obtain ⟨y, hy, hequal⟩ := unique_removed _ _ x hx
      exact ⟨y, hkept ▸ hy, data_eq_of_equal hequal⟩

omit [DecidableEq Node] [DecidableEq ι] in
/-- Duplicates that go to another list are kept there. -/
theorem unique_keeps_some (hij : j ≠ i) (hcollected : Collected (some j) seq seq' i
    (unique (equal (list_less data)) (seq i)).1 (unique (equal (list_less data)) (seq i)).2) :
    (ListCommand.list_unique i (some j)).Keeps data seq seq' := by
  obtain ⟨hkept, hremoved, hothers⟩ := hcollected
  have hperm := unique_perm (equal (list_less data)) (seq i)
  have hj := hremoved j rfl
  intro x
  constructor
  · rintro ⟨k, hk⟩
    by_cases hki : k = i
    · subst hki
      exact ⟨k, hperm.mem_iff.mp (List.mem_append_left _ (hkept ▸ hk))⟩
    · by_cases hkj : k = j
      · subst hkj
        rw [hj, List.mem_append] at hk
        obtain hk | hk := hk
        · exact ⟨k, hk⟩
        · exact ⟨i, hperm.mem_iff.mp (List.mem_append_right _ hk)⟩
      · exact ⟨k, hothers k hki (by simpa using Ne.symm hkj) ▸ hk⟩
  · rintro ⟨k, hk⟩
    by_cases hki : k = i
    · subst hki
      obtain hx | hx := List.mem_append.mp (hperm.mem_iff.mpr hk)
      · exact ⟨k, hkept ▸ hx⟩
      · exact ⟨j, hj ▸ List.mem_append_right _ hx⟩
    · by_cases hkj : k = j
      · subst hkj
        exact ⟨k, hj ▸ List.mem_append_left _ hk⟩
      · exact ⟨k, (hothers k hki (by simpa using Ne.symm hkj)).symm ▸ hk⟩

theorem list_unique_intact (hwf : WellFormed m lists seq) (second : Option ι) :
    Intact lists data m seq (.list_unique i second) ↔ (ListCommand.list_unique i second).Safe data seq := by
  by_cases hsecond : second = some i
  · subst hsecond
    simp only [ListCommand.Safe, forall_const]
    by_cases hsettled : settled (equal (list_less data)) (seq i) = true
    · obtain ⟨m', elems, least, hrun, hwf', hperm⟩ := list_unique_self hwf hsettled
      refine iff_of_true ⟨least, .inr ⟨m', _, hrun, hwf', fun x => holds_update_perm hperm⟩⟩ hsettled
    · refine iff_of_false (not_intact_of_stop (fun n => ?_) (s := .running) (by decide)) hsettled
      exact list_unique_runs_on hwf (Bool.eq_false_iff.mpr hsettled) n
  · refine iff_of_true ?_ fun h => absurd h hsecond
    obtain ⟨m', seq', hrun, hwf', hcollected⟩ := list_unique_run (list_less data) hsecond hwf
    refine ⟨_, .inr ⟨m', seq', hrun, hwf', ?_⟩⟩
    cases second with
    | none => exact unique_keeps_none hcollected
    | some j => exact unique_keeps_some (fun heq => hsecond (congrArg some heq)) hcollected

end pintos.prj0_2
