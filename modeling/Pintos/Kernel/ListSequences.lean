import Pintos.Kernel.ListLinks

/-!
# Kernel lists refine sequences

The nodes of a family of lists are linked from head to tail, and no two lists share a
node. Every operation relinks a segment, and so does to the sequences what it should.
-/

open links

namespace pintos.kernel

variable {Node ι : Type}

/-- All nodes of a list with the given elements. -/
def nodes (l : list Node) (elems : List Node) : List Node := l.head :: elems ++ [l.tail]

theorem mem_nodes {l : list Node} {elems : List Node} {x : Node} :
    x ∈ nodes l elems ↔ x = l.head ∨ x ∈ elems ∨ x = l.tail := by
  simp [nodes]

/-- The lists are well formed in memory, with the given elements, and disjoint. -/
structure WellFormed (m : Memory Node) (lists : ι → list Node) (seq : ι → List Node) : Prop where
  linked : ∀ i, Linked m (nodes (lists i) (seq i))
  head_prev : ∀ i, (m (lists i).head).prev = none
  tail_next : ∀ i, (m (lists i).tail).next = none
  nodup : ∀ i, (nodes (lists i) (seq i)).Nodup
  disjoint : ∀ i j x, x ∈ nodes (lists i) (seq i) → x ∈ nodes (lists j) (seq j) → i = j

/-- A node that is in no list. -/
def Fresh (lists : ι → list Node) (seq : ι → List Node) (x : Node) : Prop := ∀ i, x ∉ nodes (lists i) (seq i)

/-- The node after the elements `before` of a list whose other elements are `after`. -/
def following (l : list Node) (after : List Node) : Node := after.headD l.tail

/-- The node before the elements of a list whose earlier elements are `before`. -/
def preceding (l : list Node) (before : List Node) : Node := before.getLastD l.head

@[simp] theorem following_cons (l : list Node) (e : Node) (after : List Node) :
    following l (e :: after) = e := rfl

theorem head?_following (l : list Node) (after : List Node) :
    (after ++ [l.tail]).head? = some (following l after) := by
  cases after <;> rfl

theorem getLast?_preceding (l : list Node) (before : List Node) :
    (l.head :: before).getLast? = some (preceding l before) := by
  rw [List.getLast?_cons, preceding, List.getLastD_eq_getLast?]

theorem following_mem (l : list Node) (before after : List Node) :
    following l after ∈ nodes l (before ++ after) := by
  have hmem : following l after ∈ after ++ [l.tail] := List.mem_of_head? (head?_following l after)
  simp only [List.mem_append, List.mem_singleton] at hmem
  simp only [mem_nodes, List.mem_append]
  tauto

theorem preceding_mem (l : list Node) (before after : List Node) :
    preceding l before ∈ nodes l (before ++ after) := by
  have hmem : preceding l before ∈ l.head :: before := List.mem_of_getLast? (getLast?_preceding l before)
  simp only [List.mem_cons] at hmem
  simp only [mem_nodes, List.mem_append]
  tauto

variable {m m' : Memory Node} {lists : ι → list Node} {seq : ι → List Node}
  {i : ι} {before r after : List Node}

theorem nodes_split (l : list Node) (before after : List Node) :
    nodes l (before ++ after) = (l.head :: before) ++ (after ++ [l.tail]) := by
  simp [nodes]

theorem nodes_split₃ (l : list Node) (before r after : List Node) :
    nodes l (before ++ r ++ after) = (l.head :: before) ++ r ++ (after ++ [l.tail]) := by
  simp [nodes]

/-- The links at a position of a list. -/
theorem WellFormed.neighbours (hwf : WellFormed m lists seq) (hseq : seq i = before ++ after) :
    (m (preceding (lists i) before)).next = some (following (lists i) after) ∧
      (m (following (lists i) after)).prev = some (preceding (lists i) before) := by
  have hlinked := hwf.linked i
  rw [hseq, nodes_split] at hlinked
  exact (Linked.append_iff.mp hlinked).2.2 _ (getLast?_preceding _ _) _ (head?_following _ _)

/-- The node after a position is an interior element or a tail. -/
theorem WellFormed.following_guard (hwf : WellFormed m lists seq) (hseq : seq i = before ++ after) :
    (is_interior m (following (lists i) after) || is_tail m (following (lists i) after)) = true := by
  have hprev := (hwf.neighbours hseq).2
  rw [is_interior, is_tail, hprev]
  cases (m (following (lists i) after)).next <;> rfl

/-- The elements of a list are interior. -/
theorem WellFormed.interior (hwf : WellFormed m lists seq) {e : Node} (hseq : seq i = before ++ e :: after) :
    is_interior m e = true := by
  have hprev := (hwf.neighbours hseq).2
  have hseq' : seq i = (before ++ [e]) ++ after := by
    rw [hseq, List.append_assoc, List.singleton_append]
  have hnext := (hwf.neighbours hseq').1
  rw [preceding, List.getLastD_concat] at hnext
  change (m e).prev = _ at hprev
  rw [is_interior, hprev, hnext]
  rfl

theorem WellFormed.head_ne_tail (hwf : WellFormed m lists seq) (i j : ι) : (lists i).head ≠ (lists j).tail := by
  intro heq
  have hi : (lists i).head ∈ nodes (lists i) (seq i) := mem_nodes.mpr (Or.inl rfl)
  have hj : (lists i).head ∈ nodes (lists j) (seq j) := mem_nodes.mpr (Or.inr (Or.inr heq))
  obtain rfl := hwf.disjoint i j _ hi hj
  exact (List.nodup_cons.mp (hwf.nodup i)).1 (heq ▸ List.mem_append_right _ (List.mem_singleton_self _))

section Relinking

variable [DecidableEq ι]

/-- One list changes: its new nodes are its old ones and fresh ones, and memory changes
only there. -/
theorem WellFormed.replace (hwf : WellFormed m lists seq) {elems : List Node}
    (hlinked : Linked m' (nodes (lists i) elems)) (hhead : (m' (lists i).head).prev = none)
    (htail : (m' (lists i).tail).next = none) (hnodup : (nodes (lists i) elems).Nodup)
    (hnew : ∀ x ∈ elems, x ∈ seq i ∨ Fresh lists seq x)
    (hother : ∀ j, j ≠ i → ∀ x ∈ nodes (lists j) (seq j), m' x = m x) :
    WellFormed m' lists (Function.update seq i elems) := by
  have hold : ∀ x ∈ nodes (lists i) elems, x ∈ nodes (lists i) (seq i) ∨ Fresh lists seq x := by
    intro x hx
    obtain rfl | hx | rfl := mem_nodes.mp hx
    · exact Or.inl (mem_nodes.mpr (Or.inl rfl))
    · exact (hnew x hx).imp_left fun h => mem_nodes.mpr (Or.inr (Or.inl h))
    · exact Or.inl (mem_nodes.mpr (Or.inr (Or.inr rfl)))
  have happart : ∀ j, j ≠ i → ∀ x ∈ nodes (lists i) elems, x ∉ nodes (lists j) (seq j) := by
    intro j hj x hx hmem
    obtain hi | hfresh := hold x hx
    · exact hj (hwf.disjoint j i x hmem hi)
    · exact hfresh j hmem
  refine ⟨?_, ?_, ?_, ?_, ?_⟩
  · intro j
    obtain rfl | hj := eq_or_ne j i
    · rwa [Function.update_self]
    · rw [Function.update_of_ne hj]
      apply (hwf.linked j).congr
      · intro a ha
        rw [hother j hj a (List.dropLast_subset _ ha)]
      · intro b hb
        rw [hother j hj b (List.mem_of_mem_tail hb)]
  · intro j
    obtain rfl | hj := eq_or_ne j i
    · exact hhead
    · rw [hother j hj _ (mem_nodes.mpr (Or.inl rfl))]
      exact hwf.head_prev j
  · intro j
    obtain rfl | hj := eq_or_ne j i
    · exact htail
    · rw [hother j hj _ (mem_nodes.mpr (Or.inr (Or.inr rfl)))]
      exact hwf.tail_next j
  · intro j
    obtain rfl | hj := eq_or_ne j i
    · rwa [Function.update_self]
    · rw [Function.update_of_ne hj]
      exact hwf.nodup j
  · intro j k x hj hk
    obtain rfl | hji := eq_or_ne j i
    · obtain rfl | hki := eq_or_ne k j
      · rfl
      · rw [Function.update_self] at hj
        rw [Function.update_of_ne hki] at hk
        exact absurd hk (happart k hki x hj)
    · rw [Function.update_of_ne hji] at hj
      obtain rfl | hki := eq_or_ne k i
      · rw [Function.update_self] at hk
        exact absurd hj (happart j hji x hk)
      · rw [Function.update_of_ne hki] at hk
        exact hwf.disjoint j k x hj hk

variable [DecidableEq Node]

/-- Taking a segment out of a list: it stays linked, and belongs to no list. -/
theorem WellFormed.cut (hwf : WellFormed m lists seq) (hseq : seq i = before ++ r ++ after)
    (hm' : m' = join m (preceding (lists i) before) (following (lists i) after)) :
    WellFormed m' lists (Function.update seq i (before ++ after)) ∧ Linked m' r ∧ r.Nodup ∧
      (∀ x ∈ r, Fresh lists (Function.update seq i (before ++ after)) x) ∧
      ∀ x, x ∉ nodes (lists i) (seq i) → m' x = m x := by
  have hlinked := hwf.linked i
  have hnodup := hwf.nodup i
  rw [hseq, nodes_split₃] at hlinked hnodup
  obtain ⟨hlist, hr⟩ := hlinked.cut (getLast?_preceding (lists i) before)
    (head?_following (lists i) after) hnodup
  have hpreceding : preceding (lists i) before ∈ nodes (lists i) (seq i) := by
    rw [hseq, List.append_assoc]
    exact preceding_mem _ _ _
  have hfollowing : following (lists i) after ∈ nodes (lists i) (seq i) := hseq ▸ following_mem _ _ _
  have hframe : ∀ x, x ∉ nodes (lists i) (seq i) → m' x = m x := by
    intro x hx
    rw [hm']
    exact join_other m (fun heq => hx (heq ▸ hpreceding)) (fun heq => hx (heq ▸ hfollowing))
  obtain ⟨hn₁r, hn₂, hapart⟩ := List.nodup_append.mp hnodup
  obtain ⟨hn₁, hnr, hapart'⟩ := List.nodup_append.mp hn₁r
  have hkept : (nodes (lists i) (before ++ after)).Nodup := by
    rw [nodes_split]
    exact List.nodup_append.mpr ⟨hn₁, hn₂, fun x hx y hy => hapart x (List.mem_append_left _ hx) y hy⟩
  refine ⟨hwf.replace ?_ ?_ ?_ hkept ?_ ?_, hm' ▸ hr, hnr, ?_, hframe⟩
  · rwa [nodes_split, hm']
  · rw [hm', join_prev_other _ (fun heq => ?_)]
    · exact hwf.head_prev i
    · -- The head is not after any position.
      have hmem := List.mem_of_head? (head?_following (lists i) after)
      exact hapart _ (List.mem_append_left _ List.mem_cons_self) _ hmem heq
  · rw [hm', join_next_other _ (fun heq => ?_)]
    · exact hwf.tail_next i
    · have hmem := List.mem_of_getLast? (getLast?_preceding (lists i) before)
      exact hapart _ (List.mem_append_left _ hmem) _ (List.mem_append_right _
        (List.mem_singleton_self _)) heq.symm
  · intro x hx
    rw [hseq, List.append_assoc]
    exact Or.inl ((List.mem_append.mp hx).elim (List.mem_append_left _)
      fun h => List.mem_append_right _ (List.mem_append_right _ h))
  · intro j hj x hx
    exact hframe x fun hmem => hj (hwf.disjoint j i x hx hmem)
  · intro x hx j hmem
    obtain rfl | hj := eq_or_ne j i
    · rw [Function.update_self, nodes_split, List.mem_append] at hmem
      obtain hmem | hmem := hmem
      · exact hapart' x hmem x hx rfl
      · exact hapart x (List.mem_append_right _ hx) x hmem rfl
    · rw [Function.update_of_ne hj] at hmem
      have hold : x ∈ nodes (lists i) (seq i) := by
        rw [hseq, nodes_split₃]
        exact List.mem_append_left _ (List.mem_append_right _ hx)
      exact hj (hwf.disjoint j i x hmem hold)

/-- Putting a linked segment of fresh nodes into a list. -/
theorem WellFormed.paste (hwf : WellFormed m lists seq) (hseq : seq i = before ++ after) (hr : Linked m r)
    (hnodup : r.Nodup) (hfresh : ∀ x ∈ r, Fresh lists seq x) {f g : Node} (hf : r.head? = some f)
    (hg : r.getLast? = some g)
    (hm' : m' = links.paste m (preceding (lists i) before) f g (following (lists i) after)) :
    WellFormed m' lists (Function.update seq i (before ++ r ++ after)) ∧
      ∀ x, x ∉ nodes (lists i) (seq i) → x ∉ r → m' x = m x := by
  have hlinked := hwf.linked i
  have hnodup' := hwf.nodup i
  have hfresh' : ∀ x ∈ r, x ∉ nodes (lists i) (seq i) := fun x hx => hfresh x hx i
  rw [hseq, nodes_split] at hlinked hnodup' hfresh'
  obtain ⟨hn₁, hn₂, hapart⟩ := List.nodup_append.mp hnodup'
  have hnew : (nodes (lists i) (before ++ r ++ after)).Nodup := by
    rw [nodes_split₃]
    refine List.nodup_append.mpr ⟨List.nodup_append.mpr ⟨hn₁, hnodup, ?_⟩, hn₂, ?_⟩
    · rintro x hx y hy rfl
      exact hfresh' x hy (List.mem_append_left _ hx)
    · rintro x hx y hy rfl
      obtain hx | hx := List.mem_append.mp hx
      · exact hapart x hx x hy rfl
      · exact hfresh' x hx (List.mem_append_right _ hy)
  have hlist := hlinked.paste hr (getLast?_preceding (lists i) before) (head?_following (lists i) after) hf hg
    (nodes_split₃ (lists i) before r after ▸ hnew)
  have hfmem : f ∈ r := List.mem_of_head? hf
  have hgmem : g ∈ r := List.mem_of_getLast? hg
  have hpreceding : preceding (lists i) before ∈ nodes (lists i) (seq i) := hseq ▸ preceding_mem _ _ _
  have hfollowing : following (lists i) after ∈ nodes (lists i) (seq i) := hseq ▸ following_mem _ _ _
  have hframe : ∀ x, x ∉ nodes (lists i) (seq i) → x ∉ r → m' x = m x := by
    intro x hx hxr
    rw [hm']
    exact paste_other (fun heq => hxr (heq ▸ hfmem)) (fun heq => hxr (heq ▸ hgmem))
      (fun heq => hx (heq ▸ hpreceding)) (fun heq => hx (heq ▸ hfollowing))
  have hheadr : (lists i).head ∉ r := fun h => hfresh _ h i (mem_nodes.mpr (Or.inl rfl))
  have htailr : (lists i).tail ∉ r := fun h => hfresh _ h i (mem_nodes.mpr (Or.inr (Or.inr rfl)))
  refine ⟨hwf.replace ?_ ?_ ?_ hnew ?_ ?_, hframe⟩
  · rwa [nodes_split₃, hm']
  · have hne : (lists i).head ≠ following (lists i) after := by
      intro heq
      exact hapart _ List.mem_cons_self _ (List.mem_of_head? (head?_following (lists i) after)) heq
    have hnef : (lists i).head ≠ f := fun heq => hheadr (heq ▸ hfmem)
    simp [hm', links.paste, hne, hnef, hwf.head_prev i]
  · have hne : (lists i).tail ≠ preceding (lists i) before := by
      intro heq
      exact hapart _ (List.mem_of_getLast? (getLast?_preceding (lists i) before)) _
        (List.mem_append_right _ (List.mem_singleton_self _)) heq.symm
    have hneg : (lists i).tail ≠ g := fun heq => htailr (heq ▸ hgmem)
    simp [hm', links.paste, hne, hneg, hwf.tail_next i]
  · intro x hx
    rw [hseq]
    simp only [List.mem_append] at hx ⊢
    obtain (hx | hx) | hx := hx
    · exact Or.inl (Or.inl hx)
    · exact Or.inr (hfresh x hx)
    · exact Or.inl (Or.inr hx)
  · intro j hj x hx
    exact hframe x (fun hmem => hj (hwf.disjoint j i x hx hmem)) fun hxr => hfresh x hxr j hx

end Relinking

end pintos.kernel
