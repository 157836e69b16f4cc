import Pintos.Prj0.ListSteps

/-!
# Swapping two elements (`list_swap`)

The elements of a list change places, whether they are neighbours or not. There is no
`ASSERT`: where one of them is a tail, a null pointer is followed.
-/

open links pintos.kernel state_error

namespace pintos.prj0_2

variable {Node ι : Type} [DecidableEq Node] {m m' m'' : Memory Node} {lists : ι → kernel.list Node}
  {seq : ι → List Node} {i : ι} {before between after : List Node} {a b p n pa na pb nb x : Node}

/-- The links after the elements `a` and `b` changed places, with their neighbours. -/
structure Swapped (m m' : Memory Node) (a b pa na pb nb : Node) : Prop where
  next : ∀ x, (m' x).next = if x = pa then some b else if x = pb then some a else if x = a then some nb
    else if x = b then some na else (m x).next
  prev : ∀ x, (m' x).prev = if x = na then some b else if x = nb then some a else if x = a then some pb
    else if x = b then some pa else (m x).prev

theorem Swapped.unique (h : Swapped m m' a b pa na pb nb) (h' : Swapped m m'' a b pa na pb nb) : m' = m'' := by
  funext x
  exact Link.ext ((h.prev x).trans (h'.prev x).symm) ((h.next x).trans (h'.next x).symm)

/-- The elements are not neighbours, and stand in different places. -/
structure Apart (m : Memory Node) (a b pa na pb nb : Node) : Prop where
  a_prev : (m a).prev = some pa
  a_next : (m a).next = some na
  b_prev : (m b).prev = some pb
  b_next : (m b).next = some nb
  elems : a ≠ b
  befores : pa ≠ pb
  afters : na ≠ nb
  pa_ne : pa ≠ a ∧ pa ≠ b
  na_ne : na ≠ a ∧ na ≠ b
  pb_ne : pb ≠ a ∧ pb ≠ b
  nb_ne : nb ≠ a ∧ nb ≠ b

omit [DecidableEq Node] in
theorem Apart.symm (h : Apart m a b pa na pb nb) : Apart m b a pb nb pa na :=
  ⟨h.b_prev, h.b_next, h.a_prev, h.a_next, h.elems.symm, h.befores.symm, h.afters.symm,
    h.pb_ne.symm, h.nb_ne.symm,
    h.pa_ne.symm, h.na_ne.symm⟩

theorem Swapped.symm (h : Swapped m m' a b pa na pb nb) (hapart : Apart m a b pa na pb nb) :
    Swapped m m' b a pb nb pa na := by
  constructor
  · intro x
    rw [h.next x]
    have := hapart.befores
    have := hapart.elems
    split_ifs <;> simp_all
  · intro x
    rw [h.prev x]
    have := hapart.afters
    have := hapart.elems
    split_ifs <;> simp_all

theorem list_swap_apart (h : Apart m a b pa na pb nb) :
    ∃ m', list_swap a b m = .ok ((), m') ∧ Swapped m m' a b pa na pb nb := by
  have hab : (m a).next ≠ some b := by
    rw [h.a_next, ne_eq, Option.some.injEq]
    exact h.na_ne.2
  have hba : (m b).next ≠ some a := by
    rw [h.b_next, ne_eq, Option.some.injEq]
    exact h.nb_ne.1
  obtain ⟨hpaa, hpab⟩ := h.pa_ne
  obtain ⟨hnaa, hnab⟩ := h.na_ne
  obtain ⟨hpba, hpbb⟩ := h.pb_ne
  obtain ⟨hnba, hnbb⟩ := h.nb_ne
  apply Exists.intro
  apply And.intro
  · rw [list_swap, get_bind, if_neg h.elems, if_neg hab, if_neg hba, follow_bind h.a_prev, store_next_bind,
      follow_bind (e := na) (by simp [hpaa.symm, h.a_next]), store_prev_bind,
      follow_bind (e := pb) (by simp [hnab.symm, h.b_prev]), store_next_bind,
      follow_bind (e := nb) (by simp [hpbb.symm, hpab.symm, h.b_next]), store_prev_bind, store_prev_bind,
      store_next_bind, store_prev_bind, store_next_run]
  · constructor
    · intro x
      simp only [set_next_next, set_prev_next, h.b_next, h.a_next, hpbb.symm, hpab.symm, if_false]
      by_cases hxa : x = a
      · subst hxa
        simp [hpaa.symm, hpba.symm, h.elems]
      · by_cases hxb : x = b
        · subst hxb
          simp [hpab.symm, hpbb.symm, h.elems.symm]
        · have := h.befores
          by_cases hpa : x = pa <;> by_cases hpb : x = pb <;> simp_all
    · intro x
      simp only [set_prev_prev, set_next_prev, h.b_prev, h.a_prev, hnbb.symm, hnab.symm, if_false]
      by_cases hxa : x = a
      · subst hxa
        simp [hnaa.symm, hnba.symm, h.elems]
      · by_cases hxb : x = b
        · subst hxb
          simp [hnab.symm, hnbb.symm, h.elems.symm]
        · have := h.afters
          by_cases hna : x = na <;> by_cases hnb : x = nb <;> simp_all

/-- Cutting both elements out and pasting each in the place of the other. -/
theorem paste_swapped (h : Apart m a b pa na pb nb) :
    Swapped m (paste (paste (join (join m pa na) pb nb) pa b b na) pb a a nb) a b pa na pb nb := by
  obtain ⟨hpaa, hpab⟩ := h.pa_ne
  obtain ⟨hnaa, hnab⟩ := h.na_ne
  obtain ⟨hpba, hpbb⟩ := h.pb_ne
  obtain ⟨hnba, hnbb⟩ := h.nb_ne
  have hbefores := h.befores
  have hafters := h.afters
  have helems := h.elems
  constructor
  · intro x
    simp only [paste, join, set_next_next, set_prev_next]
    by_cases hpa : x = pa
    · subst hpa
      simp [hbefores, hpaa]
    · by_cases hpb : x = pb
      · simp [hpb, hbefores.symm]
      · by_cases hxa : x = a
        · simp [hxa, hpaa.symm, hpba.symm]
        · simp [hpa, hpb, hxa]
  · intro x
    simp only [paste, join, set_prev_prev, set_next_prev]
    by_cases hna : x = na
    · subst hna
      simp [hafters, hnaa]
    · by_cases hnb : x = nb
      · simp [hnb, hafters.symm]
      · by_cases hxa : x = a
        · simp [hxa, hnaa.symm, hnba.symm]
        · simp [hna, hnb, hxa]

/-- The two elements are neighbours: the first is pasted after the second. -/
theorem list_swap_next_run (ha : (m a).prev = some p) (hb : (m b).next = some n) (hab : a ≠ b)
    (hpa : p ≠ a) (hpb : p ≠ b) (hna : n ≠ a) (hnb : n ≠ b) :
    list_swap_next a b m = .ok ((), paste (join m p b) b a a n) := by
  rw [list_swap_next, get_bind, follow_bind ha, store_next_bind, follow_bind (e := n) (by simp [hpb.symm, hb]),
    store_prev_bind, store_prev_bind, store_next_bind, store_prev_bind, store_next_run]
  congr 2
  funext x
  apply Link.ext
  · simp only [paste, join, set_prev_prev, set_next_prev, ha]
    by_cases hxb : x = b
    · subst hxb
      simp [hab.symm, hnb.symm]
    · by_cases hxa : x = a
      · subst hxa
        simp [hab, hna.symm]
      · simp [hxa, hxb]
  · simp only [paste, join, set_next_next, set_prev_next]
    by_cases hxb : x = b
    · subst hxb
      simp
    · by_cases hxa : x = a
      · subst hxa
        simp [hab, hpb.symm, hb]
      · simp [hxa, hxb]

section Lists

variable [DecidableEq ι]

omit [DecidableEq Node] [DecidableEq ι] in
/-- The links of an element. -/
theorem elem_links (hwf : WellFormed m lists seq) (hseq : seq i = before ++ a :: after) :
    (m a).prev = some (preceding (lists i) before) ∧ (m a).next = some (following (lists i) after) := by
  have hseq' : seq i = (before ++ [a]) ++ after := by
    rw [hseq, List.append_assoc, List.singleton_append]
  have hnext := (hwf.neighbours hseq').1
  rw [preceding, List.getLastD_concat] at hnext
  exact ⟨(hwf.neighbours hseq).2, hnext⟩

omit [DecidableEq Node] in
/-- A node that its list has lost is in no list. -/
theorem fresh_of_lost {elems : List Node} (hwf : WellFormed m lists seq) (hx : x ∈ nodes (lists i) (seq i))
    (hlost : x ∉ nodes (lists i) elems) : Fresh lists (Function.update seq i elems) x := by
  intro j hmem
  by_cases hj : j = i
  · subst hj
    rw [Function.update_self] at hmem
    exact hlost hmem
  · rw [Function.update_of_ne hj] at hmem
    exact hj (hwf.disjoint j i x hmem hx)

/-- Two elements with others between them. -/
theorem list_swap_far {c : Node} {rest : List Node} (hwf : WellFormed m lists seq)
    (hbetween : between = c :: rest) (hseq : seq i = before ++ a :: between ++ b :: after) :
    ∃ m', list_swap a b m = .ok ((), m') ∧ list_swap b a m = .ok ((), m') ∧
      WellFormed m' lists (Function.update seq i (before ++ b :: between ++ a :: after)) := by
  obtain ⟨g, hg⟩ : ∃ g, between.getLast? = some g :=
    ⟨_, List.getLast?_eq_some_getLast (hbetween ▸ List.cons_ne_nil c rest)⟩
  have hgmem : g ∈ between := List.mem_of_getLast? hg
  have hcmem : c ∈ between := hbetween ▸ List.mem_cons_self
  have hseqa : seq i = before ++ a :: (between ++ b :: after) := by simp [hseq]
  have hseqb : seq i = (before ++ a :: between) ++ b :: after := hseq
  obtain ⟨ha_prev, ha_next⟩ := elem_links hwf hseqa
  obtain ⟨hb_prev, hb_next⟩ := elem_links hwf hseqb
  have hafter : following (lists i) (between ++ b :: after) = c := by rw [hbetween]; rfl
  have hlast : ∀ front : List Node, preceding (lists i) (front ++ between) = g := by
    intro front
    rw [preceding, List.getLastD_eq_getLast?, List.getLast?_append, hg]
    rfl
  have hbefore : preceding (lists i) (before ++ a :: between) = g := by
    have := hlast (before ++ [a])
    rwa [List.append_assoc, List.singleton_append] at this
  rw [hafter] at ha_next
  rw [hbefore] at hb_prev
  -- No node stands twice.
  have hnodup := hwf.nodup i
  have hsplit : nodes (lists i) (seq i) =
      (lists i).head :: before ++ (a :: (between ++ (b :: (after ++ [(lists i).tail])))) := by
    simp [hseq, nodes]
  rw [hsplit] at hnodup
  obtain ⟨-, hrest, hapart⟩ := List.nodup_append.mp hnodup
  obtain ⟨hanot, hrest⟩ := List.nodup_cons.mp hrest
  obtain ⟨-, hrest, hapart'⟩ := List.nodup_append.mp hrest
  obtain ⟨hbnot, -⟩ := List.nodup_cons.mp hrest
  have hp := List.mem_of_getLast? (getLast?_preceding (lists i) before)
  have hn := List.mem_of_head? (head?_following (lists i) after)
  rw [List.mem_append, List.mem_cons, not_or, not_or] at hanot
  obtain ⟨habetween, hab, haafter⟩ := hanot
  have happ : Apart m a b (preceding (lists i) before) c g (following (lists i) after) := by
    refine ⟨ha_prev, ha_next, hb_prev, hb_next, hab, ?_, ?_, ⟨?_, ?_⟩, ⟨?_, ?_⟩, ⟨?_, ?_⟩, ⟨?_, ?_⟩⟩
    · exact hapart _ hp _ (by simp [hgmem])
    · exact hapart' _ hcmem _ (List.mem_cons_of_mem _ hn)
    · exact hapart _ hp _ (by simp)
    · exact hapart _ hp _ (by simp)
    · rintro rfl
      exact habetween hcmem
    · exact hapart' _ hcmem _ List.mem_cons_self
    · rintro rfl
      exact habetween hgmem
    · exact hapart' _ hgmem _ List.mem_cons_self
    · exact fun heq => haafter (heq ▸ hn)
    · exact fun heq => hbnot (heq ▸ hn)
  -- Both are cut out, and each is pasted in the place of the other.
  obtain ⟨hwf₁, -, -, -, -⟩ := hwf.cut
    (show seq i = before ++ [a] ++ (between ++ b :: after) by simp [hseq]) rfl
  obtain ⟨hwf₂, -, -, hfreshb, -⟩ := hwf₁.cut (i := i)
    (show _ = before ++ between ++ [b] ++ after by simp) rfl
  obtain ⟨hwf₃, -⟩ := hwf₂.paste (i := i) (show _ = before ++ (between ++ after) by simp) (.singleton b)
    (List.nodup_singleton b) (fun x hx => List.mem_singleton.mp hx ▸ hfreshb b
    (List.mem_singleton_self b)) rfl rfl rfl
  have hfresha : Fresh lists (Function.update seq i (before ++ [b] ++ (between ++ after))) a := by
    refine fresh_of_lost hwf (by simp [hseq, nodes]) ?_
    have hbefores : a ∉ (lists i).head :: before := fun hmem => hapart _ hmem a (by simp) rfl
    simp only [List.mem_cons, not_or] at hbefores
    simp only [List.mem_append, List.mem_singleton, not_or] at haafter
    simp only [mem_nodes, List.mem_append, List.mem_singleton, not_or]
    exact ⟨hbefores.1, ⟨⟨hbefores.2, hab⟩, habetween, haafter.1⟩, haafter.2⟩
  simp only [Function.update_idem] at hwf₃
  obtain ⟨hwf₄, -⟩ := hwf₃.paste (i := i) (show _ = before ++ b :: between ++ after by simp) (.singleton a)
    (List.nodup_singleton a) (fun x hx => List.mem_singleton.mp hx ▸ hfresha) rfl rfl rfl
  have hlast' : preceding (lists i) (before ++ b :: between) = g := by
    have := hlast (before ++ [b])
    rwa [List.append_assoc, List.singleton_append] at this
  have hnext : following (lists i) (between ++ after) = c := by rw [hbetween]; rfl
  rw [hafter, hlast before, hnext, hlast', Function.update_idem] at hwf₄
  obtain ⟨m₁, hrun₁, hswapped₁⟩ := list_swap_apart happ
  obtain ⟨m₂, hrun₂, hswapped₂⟩ := list_swap_apart happ.symm
  obtain rfl := hswapped₁.unique (paste_swapped happ)
  obtain rfl := (hswapped₂.symm happ.symm).unique (paste_swapped happ)
  exact ⟨_, hrun₁, hrun₂, by simpa using hwf₄⟩

/-- Two neighbours. -/
theorem list_swap_near (hwf : WellFormed m lists seq) (hseq : seq i = before ++ a :: b :: after) :
    ∃ m', list_swap a b m = .ok ((), m') ∧ list_swap b a m = .ok ((), m') ∧
      WellFormed m' lists (Function.update seq i (before ++ b :: a :: after)) := by
  have hseqb : seq i = (before ++ [a]) ++ b :: after := by simp [hseq]
  obtain ⟨ha_prev, ha_next⟩ := elem_links hwf hseq
  obtain ⟨hb_prev, hb_next⟩ := elem_links hwf hseqb
  rw [following_cons] at ha_next
  -- No node stands twice.
  have hnodup := hwf.nodup i
  have hsplit : nodes (lists i) (seq i) = (lists i).head :: before ++
      (a :: b :: (after ++ [(lists i).tail])) := by
    simp [hseq, nodes]
  rw [hsplit] at hnodup
  obtain ⟨-, hrest, hapart⟩ := List.nodup_append.mp hnodup
  obtain ⟨hanot, hrest⟩ := List.nodup_cons.mp hrest
  obtain ⟨hbnot, -⟩ := List.nodup_cons.mp hrest
  rw [List.mem_cons, not_or] at hanot
  obtain ⟨hab, haafter⟩ := hanot
  have hp := List.mem_of_getLast? (getLast?_preceding (lists i) before)
  have hn := List.mem_of_head? (head?_following (lists i) after)
  have hba : following (lists i) after ≠ a := fun heq => haafter (heq ▸ hn)
  -- The first is cut out, and pasted after the second.
  obtain ⟨hwf₁, -, -, hfresh, -⟩ := hwf.cut (show seq i = before ++ [a] ++ b :: after by simp [hseq]) rfl
  obtain ⟨hwf₂, -⟩ := hwf₁.paste (i := i) (show _ = before ++ [b] ++ after by simp) (.singleton a)
    (List.nodup_singleton a) hfresh (g := a) rfl rfl rfl
  have hlast : preceding (lists i) (before ++ [b]) = b := by rw [preceding, List.getLastD_concat]
  rw [Function.update_idem, hlast, following_cons] at hwf₂
  have hrun := list_swap_next_run ha_prev hb_next hab (hapart _ hp _ (by simp)) (hapart _ hp _ (by simp)) hba
    fun heq => hbnot (heq ▸ hn)
  refine ⟨_, ?_, ?_, by simpa using hwf₂⟩
  · rw [list_swap, get_bind, if_neg hab, if_pos ha_next]
    exact hrun
  · have hnext : (m b).next ≠ some a := by
      rw [hb_next, ne_eq, Option.some.injEq]
      exact hba
    rw [list_swap, get_bind, if_neg (Ne.symm hab), if_neg hnext, if_pos ha_next]
    exact hrun

/-- Swapping two elements of a list, in either order. -/
theorem list_swap_run (hwf : WellFormed m lists seq) (hseq : seq i = before ++ a :: between ++ b :: after) :
    ∃ m', list_swap a b m = .ok ((), m') ∧ list_swap b a m = .ok ((), m') ∧
      WellFormed m' lists (Function.update seq i (before ++ b :: between ++ a :: after)) := by
  cases hbetween : between with
  | nil =>
    have hnear := list_swap_near hwf (show seq i = before ++ a :: b :: after by simp [hseq, hbetween])
    simpa using hnear
  | cons c rest =>
    rw [← hbetween]
    exact list_swap_far hwf hbetween hseq

omit [DecidableEq ι] in
/-- Swapping an element with the tail follows a null pointer, in either order. -/
theorem list_swap_tail (hwf : WellFormed m lists seq) (hseq : seq i = before ++ a :: after) :
    (∃ m', list_swap a (lists i).tail m = .error (.null, m')) ∧
      ∃ m', list_swap (lists i).tail a m = .error (.null, m') := by
  obtain ⟨ha_prev, ha_next⟩ := elem_links hwf hseq
  have htail := hwf.tail_next i
  have htail_prev := (hwf.neighbours (List.append_nil (seq i)).symm).2
  have hnodup := hwf.nodup i
  rw [hseq, nodes_split] at hnodup
  obtain ⟨-, hrest, hapart⟩ := List.nodup_append.mp hnodup
  have hp := List.mem_of_getLast? (getLast?_preceding (lists i) before)
  have hpa : preceding (lists i) before ≠ a := hapart _ hp _ (by simp)
  have hpt : preceding (lists i) before ≠ (lists i).tail := hapart _ hp _ (by simp)
  have hat : a ≠ (lists i).tail := fun heq => (List.nodup_cons.mp hrest).1 (by simp [heq])
  have hlt : preceding (lists i) (seq i) ≠ (lists i).tail := by
    intro heq
    have hnext := (hwf.neighbours (List.append_nil (seq i)).symm).1
    rw [heq, htail] at hnext
    cases hnext
  have hta : (m (lists i).tail).next ≠ some a := by
    rw [htail]
    simp
  change (m (lists i).tail).prev = _ at htail_prev
  have hnear : ∃ m', list_swap_next a (lists i).tail m = .error (.null, m') := by
    rw [list_swap_next, get_bind, follow_bind ha_prev, store_next_bind,
      follow_bind_none (by simp [hpt.symm, htail])]
    exact ⟨_, rfl⟩
  constructor
  · by_cases hnext : (m a).next = some (lists i).tail
    · rw [list_swap, get_bind, if_neg hat, if_pos hnext]
      exact hnear
    · have hne : following (lists i) after ≠ (lists i).tail := fun heq => hnext (heq ▸ ha_next)
      rw [list_swap, get_bind, if_neg hat, if_neg hnext, if_neg hta, follow_bind ha_prev, store_next_bind,
        follow_bind (e := following (lists i) after) (by simp [hpa.symm, ha_next]), store_prev_bind,
        follow_bind (e := preceding (lists i) (seq i)) (by simp [hne.symm, htail_prev]), store_next_bind,
        follow_bind_none (by simp [hlt.symm, hpt.symm, htail])]
      exact ⟨_, rfl⟩
  · by_cases hnext : (m a).next = some (lists i).tail
    · rw [list_swap, get_bind, if_neg hat.symm, if_neg hta, if_pos hnext]
      exact hnear
    · rw [list_swap, get_bind, if_neg hat.symm, if_neg hta, if_neg hnext, follow_bind htail_prev,
        store_next_bind,
        follow_bind_none (by simp [hlt.symm, htail])]
      exact ⟨_, rfl⟩

end Lists

end pintos.prj0_2
