import Pintos.Kernel.ListOps

/-!
# Runs of list operations

Any sequence of operations on a family of lists does to memory what it does to the
sequences of their elements.
-/

open links

namespace pintos.kernel

variable {Node ι : Type} [DecidableEq Node] [DecidableEq ι] {m m' : Memory Node} {lists : ι → list Node}
  {seq seq' : ι → List Node} {i j : ι} {before r after : List Node} {elem e : Node}

theorem list_init_run (hwf : WellFormed m lists seq) (i : ι) :
    WellFormed (list_init m (lists i)) lists (Function.update seq i []) ∧
      ∀ x, x ∉ nodes (lists i) (seq i) → list_init m (lists i) x = m x := by
  have hht := hwf.head_ne_tail i i
  have hframe : ∀ x, x ∉ nodes (lists i) (seq i) → list_init m (lists i) x = m x := by
    intro x hx
    simp only [mem_nodes, not_or] at hx
    simp [list_init, hx.1, hx.2.2]
  refine ⟨hwf.replace ?_ ?_ ?_ ?_ ?_ ?_, hframe⟩
  · refine List.isChain_pair.mpr ⟨?_, ?_⟩
    · simp [list_init, hht]
    · simp [list_init]
  · simp [list_init, hht]
  · simp [list_init]
  · simp [nodes, hht]
  · intro x hx
    contradiction
  · intro j hj x hx
    exact hframe x fun hmem => hj (hwf.disjoint j i x hx hmem)

section Traversals

omit [DecidableEq ι]

theorem forward_from (hwf : WellFormed m lists seq) (hseq : seq i = before ++ after) {n : Nat}
    (hn : after.length < n) :
    traverse (list_next m) (lists i).tail n (some (following (lists i) after)) = some after := by
  induction after generalizing before n with
  | nil =>
    obtain ⟨n, rfl⟩ := Nat.exists_eq_succ_of_ne_zero (Nat.ne_of_gt hn)
    exact if_pos rfl
  | cons a rest ih =>
    obtain ⟨n, rfl⟩ := Nat.exists_eq_succ_of_ne_zero (Nat.ne_of_gt (Nat.zero_lt_of_lt hn))
    have hseq' : seq i = (before ++ [a]) ++ rest := by
      rw [hseq, List.append_assoc, List.singleton_append]
    have hnext := (hwf.neighbours hseq').1
    rw [preceding, List.getLastD_concat] at hnext
    have hstep : list_next m a = some (following (lists i) rest) := by
      simp [list_next, hwf.interior hseq, hnext]
    have htail : a ≠ (lists i).tail := by
      intro heq
      apply hwf.tail_not_mem i
      rw [hseq, ← heq]
      exact List.mem_append_right _ List.mem_cons_self
    rw [traverse, following_cons, if_neg fun h => htail (Option.some.inj h)]
    simp [hstep, ih hseq' (Nat.lt_of_succ_lt_succ hn)]

theorem backward_from (hwf : WellFormed m lists seq) {n : Nat} : ∀ {before after : List Node},
    seq i = before ++ after → before.length < n →
    traverse (list_prev m) (lists i).head n (some (preceding (lists i) before)) = some before.reverse := by
  induction n with
  | zero =>
    intro before after _ hn
    exact absurd hn (Nat.not_lt_zero _)
  | succ n ih =>
    intro before after hseq hn
    obtain rfl | ⟨rest, a, rfl⟩ := List.eq_nil_or_concat' before
    · exact if_pos rfl
    · have hseq' : seq i = rest ++ a :: after := by
        rw [hseq, List.append_assoc, List.singleton_append]
      have hprev := (hwf.neighbours hseq').2
      change (m a).prev = _ at hprev
      have hstep : list_prev m a = some (preceding (lists i) rest) := by
        simp [list_prev, hwf.interior hseq', hprev]
      have hhead : a ≠ (lists i).head := by
        intro heq
        apply hwf.head_not_mem i
        rw [hseq', ← heq]
        exact List.mem_append_right _ List.mem_cons_self
      have hlength : rest.length < n := by
        rw [List.length_append, List.length_singleton] at hn
        omega
      rw [traverse, preceding, List.getLastD_concat, if_neg fun h => hhead (Option.some.inj h)]
      simp [hstep, ih hseq' hlength]

/-- The traversals of a list give its elements. -/
theorem WellFormed.traversals (hwf : WellFormed m lists seq) {n : Nat} (hn : (seq i).length < n) :
    forward m n (lists i) = some (seq i) ∧ backward m n (lists i) = some (seq i).reverse := by
  constructor
  · rw [forward, hwf.list_begin i]
    exact forward_from hwf (List.nil_append (seq i)).symm hn
  · rw [backward, hwf.list_rbegin i]
    exact backward_from hwf (List.append_nil (seq i)).symm hn

/-- The links determine the elements. -/
theorem WellFormed.unique (hwf : WellFormed m lists seq) (hwf' : WellFormed m lists seq') : seq = seq' := by
  funext i
  have h := (hwf.traversals (i := i) (Nat.lt_succ_of_le (Nat.le_max_left _ (seq' i).length))).1
  have h' := (hwf'.traversals (i := i) (Nat.lt_succ_of_le (Nat.le_max_right (seq i).length _))).1
  exact Option.some.inj (h.symm.trans h')

end Traversals

/-- What an operation does to the sequences of elements, with the lists concerned and the
element returned. An element to insert is in no list, a range to splice is in one list,
with its end not before its beginning, and is not split by the place that it goes to. -/
inductive Effect (lists : ι → list Node) (seq : ι → List Node) :
    Op Node → List ι → (ι → List Node) → Option Node → Prop where
  | init (i : ι) : Effect lists seq (.init (lists i)) [i] (Function.update seq i []) none
  | insert {i : ι} {before after : List Node} {elem : Node} : seq i = before ++ after → Fresh lists seq elem →
      Effect lists seq (.insert (following (lists i) after) elem) [i]
        (Function.update seq i (before ++ elem :: after)) none
  | remove {i : ι} {before after : List Node} {elem : Node} : seq i = before ++ elem :: after →
      Effect lists seq (.remove elem) [i] (Function.update seq i (before ++ after))
        (some (following (lists i) after))
  | splice {i j : ι} {before r after c d : List Node} : seq i = before ++ r ++ after →
      Function.update seq i (before ++ after) j = c ++ d →
      Effect lists seq
        (.splice (following (lists j) d) (following (lists i) (r ++ after)) (following (lists i) after)) [i, j]
        (Function.update (Function.update seq i (before ++ after)) j (c ++ r ++ d)) none
  | push_front {elem : Node} (i : ι) : Fresh lists seq elem →
      Effect lists seq (.push_front (lists i) elem) [i] (Function.update seq i (elem :: seq i)) none
  | push_back {elem : Node} (i : ι) : Fresh lists seq elem →
      Effect lists seq (.push_back (lists i) elem) [i] (Function.update seq i (seq i ++ [elem])) none
  | pop_front {i : ι} {elem : Node} {after : List Node} : seq i = elem :: after →
      Effect lists seq (.pop_front (lists i)) [i] (Function.update seq i after) (some elem)
  | pop_back {i : ι} {elem : Node} {before : List Node} : seq i = before ++ [elem] →
      Effect lists seq (.pop_back (lists i)) [i] (Function.update seq i before) (some elem)
  | reverse (i : ι) : Effect lists seq (.reverse (lists i)) [i] (Function.update seq i (seq i).reverse) none
  | insert_ordered {elem : Node} (less : Node → Node → Bool) (i : ι) : Fresh lists seq elem →
      Effect lists seq (.insert_ordered less (lists i) elem) [i]
        (Function.update seq i (list_insert_ordered less elem (seq i))) none

/-- The nodes of the lists concerned, before or after an operation. -/
def touched (lists : ι → list Node) (seq seq' : ι → List Node) (concerned : List ι) : Set Node :=
  {x | ∃ i ∈ concerned, x ∈ nodes (lists i) (seq i) ∨ x ∈ nodes (lists i) (seq' i)}

/-- One operation. -/
theorem exec_effect (hwf : WellFormed m lists seq) {op : Op Node} {concerned : List ι} {result : Option Node}
    (heffect : Effect lists seq op concerned seq' result) :
    ∃ m' least, (∀ n, least ≤ n → op.exec n m = some (m', result)) ∧ WellFormed m' lists seq' ∧
      ∀ x, x ∉ touched lists seq seq' concerned → m' x = m x := by
  -- Outside the lists concerned are the nodes of no list, before and after.
  have houtside : ∀ {i : ι} {elems : List Node} {x : Node},
      x ∉ touched lists seq (Function.update seq i elems) [i] →
      x ∉ nodes (lists i) (seq i) ∧ x ∉ nodes (lists i) elems := by
    intro i elems x hx
    constructor
    · exact fun hmem => hx ⟨i, List.mem_singleton_self i, Or.inl hmem⟩
    · intro hmem
      apply hx
      refine ⟨i, List.mem_singleton_self i, Or.inr ?_⟩
      rwa [Function.update_self]
  have hnew : ∀ {i : ι} {elems : List Node} {x elem : Node}, elem ∈ elems →
      x ∉ touched lists seq (Function.update seq i elems) [i] → x ∉ nodes (lists i) (seq i) ∧ x ≠ elem := by
    rintro i elems x elem helem hx
    exact ⟨(houtside hx).1, fun heq => (houtside hx).2 (mem_nodes.mpr (Or.inr (Or.inl (heq ▸ helem))))⟩
  cases heffect with
  | init i =>
    obtain ⟨hwf', hframe⟩ := list_init_run hwf i
    exact ⟨_, 0, fun _ _ => rfl, hwf', fun x hx => hframe x (houtside hx).1⟩
  | insert hseq hfresh =>
    obtain ⟨m', hrun, hwf', hframe⟩ := list_insert_run hwf hseq hfresh
    refine ⟨m', 0, fun _ _ => by rw [Op.exec, hrun]; rfl, hwf', ?_⟩
    intro x hx
    obtain ⟨hlist, helem⟩ := hnew (List.mem_append_right _ List.mem_cons_self) hx
    exact hframe x hlist helem
  | remove hseq =>
    obtain ⟨m', hrun, hwf', hframe⟩ := list_remove_run hwf hseq
    exact ⟨m', 0, fun _ _ => by rw [Op.exec, hrun]; rfl, hwf', fun x hx => hframe x (houtside hx).1⟩
  | @splice i j before r after c d hseq hdest =>
    obtain ⟨m', hrun, hwf', hframe⟩ := list_splice_run hwf hseq hdest
    refine ⟨m', 0, fun _ _ => by rw [Op.exec, hrun]; rfl, hwf', ?_⟩
    intro x hx
    refine hframe x ?_ ?_
    · exact fun hmem => hx ⟨i, List.mem_cons_self, Or.inl hmem⟩
    · exact fun hmem => hx ⟨j, List.mem_cons_of_mem _ (List.mem_singleton_self j), Or.inl hmem⟩
  | push_front i hfresh =>
    obtain ⟨m', hrun, hwf', hframe⟩ := list_push_front_run (i := i) hwf hfresh
    refine ⟨m', 0, fun _ _ => by rw [Op.exec, hrun]; rfl, hwf', ?_⟩
    intro x hx
    obtain ⟨hlist, helem⟩ := hnew List.mem_cons_self hx
    exact hframe x hlist helem
  | push_back i hfresh =>
    obtain ⟨m', hrun, hwf', hframe⟩ := list_push_back_run (i := i) hwf hfresh
    refine ⟨m', 0, fun _ _ => by rw [Op.exec, hrun]; rfl, hwf', ?_⟩
    intro x hx
    obtain ⟨hlist, helem⟩ := hnew (List.mem_append_right _ (List.mem_singleton_self _)) hx
    exact hframe x hlist helem
  | pop_front hseq =>
    obtain ⟨m', hrun, hwf', hframe⟩ := list_pop_front_run hwf hseq
    exact ⟨m', 0, fun _ _ => by rw [Op.exec, hrun]; rfl, hwf', fun x hx => hframe x (houtside hx).1⟩
  | pop_back hseq =>
    obtain ⟨m', hrun, hwf', hframe⟩ := list_pop_back_run hwf hseq
    exact ⟨m', 0, fun _ _ => by rw [Op.exec, hrun]; rfl, hwf', fun x hx => hframe x (houtside hx).1⟩
  | reverse i =>
    obtain ⟨m', hrun, hwf', hframe⟩ := list_reverse_run hwf i
    refine ⟨m', (seq i).length + 1, ?_, hwf', fun x hx => hframe x (houtside hx).1⟩
    intro n hn
    rw [Op.exec, hrun n hn]
    rfl
  | @insert_ordered elem less i hfresh =>
    obtain ⟨m', hrun, hwf', hframe⟩ := list_insert_ordered_run (i := i) less hwf hfresh
    refine ⟨m', (seq i).length + 1, ?_, hwf', ?_⟩
    · intro n hn
      rw [Op.exec, hrun n hn]
      rfl
    · intro x hx
      have hmem : elem ∈ list_insert_ordered less elem (seq i) :=
        (list_insert_ordered_perm elem (seq i)).mem_iff.mpr List.mem_cons_self
      obtain ⟨hlist, helem⟩ := hnew hmem hx
      exact hframe x hlist helem

/-- Operations one after the other. -/
def exec_all (n : Nat) (m : Memory Node) : List (Op Node) → Option (Memory Node × List (Option Node))
  | [] => some (m, [])
  | op :: ops => do
    let (m, result) ← op.exec n m
    let (m, results) ← exec_all n m ops
    return (m, result :: results)

/-- What a sequence of operations does, with all nodes touched. -/
inductive Runs (lists : ι → list Node) :
    (ι → List Node) → List (Op Node) → Set Node → (ι → List Node) → List (Option Node) → Prop where
  | nil (seq : ι → List Node) : Runs lists seq [] ∅ seq []
  | cons {seq seq' seq'' : ι → List Node} {op : Op Node} {ops : List (Op Node)} {concerned : List ι}
      {nodes : Set Node} {result : Option Node} {results : List (Option Node)} :
      Effect lists seq op concerned seq' result → Runs lists seq' ops nodes seq'' results →
      Runs lists seq (op :: ops) (touched lists seq seq' concerned ∪ nodes) seq'' (result :: results)

/-- A run of operations ends, with well-formed lists that hold what the operations on
sequences give, and traversals in both directions that show it. -/
theorem lists_are_sequences (hwf : WellFormed m lists seq) {ops : List (Op Node)} {changed : Set Node}
    {results : List (Option Node)} (hruns : Runs lists seq ops changed seq' results) :
    ∃ m' least, (∀ n, least ≤ n → exec_all n m ops = some (m', results)) ∧ WellFormed m' lists seq' ∧
      (∀ i n, (seq' i).length < n →
        forward m' n (lists i) = some (seq' i) ∧ backward m' n (lists i) = some (seq' i).reverse) ∧
      ∀ x, x ∉ changed → m' x = m x := by
  induction hruns generalizing m with
  | nil seq => exact ⟨m, 0, fun _ _ => rfl, hwf, fun _ _ hn => hwf.traversals hn, fun _ _ => rfl⟩
  | cons heffect _ ih =>
    obtain ⟨m₁, least₁, hrun₁, hwf₁, hframe₁⟩ := exec_effect hwf heffect
    obtain ⟨m₂, least₂, hrun₂, hwf₂, htraversals, hframe₂⟩ := ih hwf₁
    refine ⟨m₂, max least₁ least₂, ?_, hwf₂, htraversals, ?_⟩
    · intro n hn
      rw [exec_all, hrun₁ n (Nat.le_trans (Nat.le_max_left _ _) hn)]
      simp [hrun₂ n (Nat.le_trans (Nat.le_max_right _ _) hn)]
    · intro x hx
      rw [hframe₂ x fun hmem => hx (Or.inr hmem), hframe₁ x fun hmem => hx (Or.inl hmem)]

/-- Two elements put into an empty list, which is then reversed. -/
theorem lists_are_sequences_reverse :
    ∃ m' least, (∀ n, least ≤ n → exec_all n (list_init (fun _ : Nat => ⟨none, none⟩) ⟨0, 1⟩)
        [.push_back ⟨0, 1⟩ 2, .push_back ⟨0, 1⟩ 3, .reverse ⟨0, 1⟩] = some (m', [none, none, none])) ∧
      forward m' 3 ⟨0, 1⟩ = some [3, 2] := by
  have hwf : WellFormed (list_init (fun _ : Nat => ⟨none, none⟩) ⟨0, 1⟩)
      (fun _ : Unit => ⟨0, 1⟩) fun _ => [] := by
    refine ⟨fun _ => List.isChain_pair.mpr ⟨by decide, by decide⟩, fun _ => by decide, fun _ => by decide,
      fun _ => by decide, fun _ _ _ _ _ => rfl⟩
  have hruns : Runs (fun _ : Unit => (⟨0, 1⟩ : list Nat)) (fun _ => [])
      [.push_back ⟨0, 1⟩ 2, .push_back ⟨0, 1⟩ 3, .reverse ⟨0, 1⟩] _ _ _ :=
    .cons (.push_back () (fun | () => by decide)) (.cons (.push_back () (fun | () => by decide))
      (.cons (.reverse ()) (.nil _)))
  obtain ⟨m', least, hrun, -, htraversals, -⟩ := lists_are_sequences hwf hruns
  exact ⟨m', least, hrun, (htraversals () 3 (by decide)).1⟩

end pintos.kernel
