import Pintos.Prj0.ListSwap
import Mathlib.Logic.Equiv.Basic

/-!
# Swapping exchanges places (`list_swap`)

Whether the two elements are the same, neighbours, or far apart, in one list or in two,
each comes to the place of the other, and everything else stays where it is.
-/

open links pintos.kernel state_error

namespace pintos.prj0_2

variable {Node ι : Type} {m m' : Memory Node} {lists : ι → kernel.list Node} {seq : ι → List Node} {i j : ι}
  {a b pa na pb nb p n x y : Node}

/-- The node after a node of a list leads back to it. -/
theorem prev_of_next (hwf : WellFormed m lists seq) (hx : x ∈ nodes (lists i) (seq i))
    (hy : (m x).next = some y) : (m y).prev = some x ∧ y ∈ nodes (lists i) (seq i) ∧ x ≠ y := by
  obtain ⟨before, after, hsplit⟩ := List.append_of_mem hx
  have hlinked := hwf.linked i
  have hnodup := hwf.nodup i
  rw [hsplit] at hlinked hnodup ⊢
  cases after with
  | nil =>
    have htail : x = (lists i).tail := by
      have hlast : (nodes (lists i) (seq i)).getLast? = some (lists i).tail := List.getLast?_concat
      rw [hsplit, List.getLast?_concat] at hlast
      exact Option.some.inj hlast
    rw [htail, hwf.tail_next i] at hy
    cases hy
  | cons z after =>
    have hlinks := (List.isChain_cons_cons.mp (Linked.append_iff.mp hlinked).2.1).1
    obtain rfl := Option.some.inj (hlinks.1.symm.trans hy)
    have hne := (List.nodup_cons.mp (List.nodup_append.mp hnodup).2.1).1
    exact ⟨hlinks.2, by simp, fun heq => hne (heq ▸ List.mem_cons_self)⟩

/-- The node before a node of a list leads on to it. -/
theorem next_of_prev (hwf : WellFormed m lists seq) (hx : x ∈ nodes (lists i) (seq i))
    (hy : (m x).prev = some y) : (m y).next = some x := by
  obtain ⟨before, after, hsplit⟩ := List.append_of_mem hx
  have hlinked := hwf.linked i
  rw [hsplit] at hlinked
  obtain rfl | ⟨before, z, rfl⟩ := List.eq_nil_or_concat' before
  · have hhead : x = (lists i).head := by
      rw [nodes, List.nil_append] at hsplit
      exact (List.cons.inj hsplit).1.symm
    rw [hhead, hwf.head_prev i] at hy
    cases hy
  · have hlinks := (Linked.append_iff.mp hlinked).2.2 z (by simp) x (by simp)
    obtain rfl := Option.some.inj (hlinks.2.symm.trans hy)
    exact hlinks.1

/-- An element with its neighbours. -/
structure Between (m : Memory Node) (p a n : Node) : Prop where
  prev : (m a).prev = some p
  next : (m a).next = some n
  prev_next : (m p).next = some a
  next_prev : (m n).prev = some a
  prev_ne : p ≠ a
  next_ne : n ≠ a

theorem between_of_mem (hwf : WellFormed m lists seq) (ha : a ∈ seq i) : ∃ p n, Between m p a n := by
  obtain ⟨before, after, hseq⟩ := List.append_of_mem ha
  obtain ⟨hprev, hnext⟩ := elem_links hwf hseq
  have hmem : a ∈ nodes (lists i) (seq i) := mem_nodes.mpr (.inr (.inl ha))
  obtain ⟨hback, -, hne⟩ := prev_of_next hwf hmem hnext
  have hforth := next_of_prev hwf hmem hprev
  refine ⟨_, _, hprev, hnext, hforth, hback, fun heq => hne ?_, hne.symm⟩
  rw [heq, hnext] at hforth
  exact (Option.some.inj hforth).symm

/-- An element is no end of a list. -/
theorem ends_ne (hwf : WellFormed m lists seq) (ha : a ∈ seq i) (k : ι) : (lists k).head ≠ a ∧
    (lists k).tail ≠ a := by
  have hmem : a ∈ nodes (lists i) (seq i) := mem_nodes.mpr (.inr (.inl ha))
  constructor
  · rintro rfl
    obtain rfl := hwf.disjoint k i _ (mem_nodes.mpr (.inl rfl)) hmem
    exact hwf.head_not_mem k ha
  · rintro rfl
    obtain rfl := hwf.disjoint k i _ (mem_nodes.mpr (.inr (.inr rfl))) hmem
    exact hwf.tail_not_mem k ha

variable [DecidableEq Node]

/-- Two elements have exchanged their places: every link of the `members` goes to the
corresponding node, and the links that concern neither element are as they were. -/
structure Exchanged (m m' : Memory Node) (a b : Node) (members : Set Node) : Prop where
  next : ∀ x ∈ members, (m' (Equiv.swap a b x)).next = (m x).next.map (Equiv.swap a b)
  prev : ∀ x ∈ members, (m' (Equiv.swap a b x)).prev = (m x).prev.map (Equiv.swap a b)
  next_same : ∀ x, x ≠ a → x ≠ b → (m x).next ≠ some a → (m x).next ≠ some b → (m' x).next = (m x).next
  prev_same : ∀ x, x ≠ a → x ≠ b → (m x).prev ≠ some a → (m x).prev ≠ some b → (m' x).prev = (m x).prev

variable {members : Set Node}

theorem Exchanged.symm (h : Exchanged m m' a b members) : Exchanged m m' b a members where
  next := by
    rw [Equiv.swap_comm]
    exact h.next
  prev := by
    rw [Equiv.swap_comm]
    exact h.prev
  next_same x hb ha hxb hxa := h.next_same x ha hb hxa hxb
  prev_same x hb ha hxb hxa := h.prev_same x ha hb hxa hxb

/-- Lists with two elements exchanged. -/
theorem Exchanged.wellFormed (hwf : WellFormed m lists seq)
    (h : Exchanged m m' a b {x | ∃ k, x ∈ nodes (lists k) (seq k)})
    (ha : a ∈ seq i) (hb : b ∈ seq j) : WellFormed m' lists fun k => (seq k).map (Equiv.swap a b) := by
  have hends : ∀ k, Equiv.swap a b (lists k).head = (lists k).head ∧
      Equiv.swap a b (lists k).tail = (lists k).tail := by
    intro k
    obtain ⟨hahead, hatail⟩ := ends_ne hwf ha k
    obtain ⟨hbhead, hbtail⟩ := ends_ne hwf hb k
    exact ⟨Equiv.swap_apply_of_ne_of_ne hahead hbhead, Equiv.swap_apply_of_ne_of_ne hatail hbtail⟩
  have hnodes : ∀ k, nodes (lists k) ((seq k).map (Equiv.swap a b)) =
      (nodes (lists k) (seq k)).map (Equiv.swap a b) := by
    intro k
    obtain ⟨hhead, htail⟩ := hends k
    simp only [nodes, List.cons_append, List.map_cons, List.map_append, List.map_nil, hhead, htail]
  refine ⟨fun k => ?_, fun k => ?_, fun k => ?_, fun k => ?_, fun k l x hk hl => ?_⟩
  · rw [hnodes]
    exact (hwf.linked k).map _ (fun x hx => h.next x ⟨k, hx⟩) fun x hx => h.prev x ⟨k, hx⟩
  · have hhead := h.prev (lists k).head ⟨k, mem_nodes.mpr (.inl rfl)⟩
    rwa [(hends k).1, hwf.head_prev k] at hhead
  · have htail := h.next (lists k).tail ⟨k, mem_nodes.mpr (.inr (.inr rfl))⟩
    rwa [(hends k).2, hwf.tail_next k] at htail
  · rw [hnodes]
    exact (hwf.nodup k).map (Equiv.injective _)
  · rw [hnodes, List.mem_map] at hk hl
    obtain ⟨y, hyk, rfl⟩ := hk
    obtain ⟨z, hzl, hz⟩ := hl
    obtain rfl := Equiv.injective _ hz
    exact hwf.disjoint k l z hyk hzl

section Cases

variable (hback : ∀ x ∈ members, ∀ y, (m x).next = some y → (m y).prev = some x)
  (hforth : ∀ x ∈ members, ∀ y, (m x).prev = some y → (m y).next = some x)

/-- A link to neither of the two. -/
theorem map_swap_of_ne {v : Option Node} (ha : v ≠ some a) (hb : v ≠ some b) : v.map (Equiv.swap a b) = v := by
  cases v with
  | none => rfl
  | some x =>
    rw [Option.map_some, Equiv.swap_apply_of_ne_of_ne (fun h => ha (congrArg some h)) fun h =>
      hb (congrArg some h)]

include hback hforth

theorem exchanged_apart (ha : Between m pa a na) (hb : Between m pb b nb)
    (hswapped : Swapped m m' a b pa na pb nb)
    (hapart : Apart m a b pa na pb nb) : Exchanged m m' a b members := by
  obtain ⟨hpaa, hpab⟩ := hapart.pa_ne
  obtain ⟨hnaa, hnab⟩ := hapart.na_ne
  obtain ⟨hpba, hpbb⟩ := hapart.pb_ne
  obtain ⟨hnba, hnbb⟩ := hapart.nb_ne
  have hab := hapart.elems
  -- the links of the elements and of their neighbours, and the others
  have hnext_same : ∀ x, x ≠ a → x ≠ b → (m x).next ≠ some a → (m x).next ≠ some b →
      (m' x).next = (m x).next := by
    intro x hxa hxb hxna hxnb
    have hxpa : x ≠ pa := fun h => hxna (h.symm ▸ ha.prev_next)
    have hxpb : x ≠ pb := fun h => hxnb (h.symm ▸ hb.prev_next)
    rw [hswapped.next, if_neg hxpa, if_neg hxpb, if_neg hxa, if_neg hxb]
  have hprev_same : ∀ x, x ≠ a → x ≠ b → (m x).prev ≠ some a → (m x).prev ≠ some b →
      (m' x).prev = (m x).prev := by
    intro x hxa hxb hxpa hxpb
    have hxna : x ≠ na := fun h => hxpa (h.symm ▸ ha.next_prev)
    have hxnb : x ≠ nb := fun h => hxpb (h.symm ▸ hb.next_prev)
    rw [hswapped.prev, if_neg hxna, if_neg hxnb, if_neg hxa, if_neg hxb]
  refine ⟨fun x hx => ?_, fun x hx => ?_, hnext_same, hprev_same⟩
  · by_cases hxa : x = a
    · rw [hxa, Equiv.swap_apply_left, ha.next, hswapped.next, if_neg hpab.symm, if_neg hpbb.symm,
        if_neg hab.symm,
        if_pos rfl, Option.map_some, Equiv.swap_apply_of_ne_of_ne hnaa hnab]
    by_cases hxb : x = b
    · rw [hxb, Equiv.swap_apply_right, hb.next, hswapped.next, if_neg hpaa.symm, if_neg hpba.symm, if_pos rfl,
        Option.map_some, Equiv.swap_apply_of_ne_of_ne hnba hnbb]
    rw [Equiv.swap_apply_of_ne_of_ne hxa hxb]
    by_cases hxna : (m x).next = some a
    · obtain rfl := Option.some.inj ((hback x hx a hxna).symm.trans ha.prev)
      rw [hxna, hswapped.next, if_pos rfl, Option.map_some, Equiv.swap_apply_left]
    by_cases hxnb : (m x).next = some b
    · obtain rfl := Option.some.inj ((hback x hx b hxnb).symm.trans hb.prev)
      rw [hxnb, hswapped.next, if_neg hapart.befores.symm, if_pos rfl, Option.map_some, Equiv.swap_apply_right]
    rw [hnext_same x hxa hxb hxna hxnb, map_swap_of_ne hxna hxnb]
  · by_cases hxa : x = a
    · rw [hxa, Equiv.swap_apply_left, ha.prev, hswapped.prev, if_neg hnab.symm, if_neg hnbb.symm,
        if_neg hab.symm,
        if_pos rfl, Option.map_some, Equiv.swap_apply_of_ne_of_ne hpaa hpab]
    by_cases hxb : x = b
    · rw [hxb, Equiv.swap_apply_right, hb.prev, hswapped.prev, if_neg hnaa.symm, if_neg hnba.symm, if_pos rfl,
        Option.map_some, Equiv.swap_apply_of_ne_of_ne hpba hpbb]
    rw [Equiv.swap_apply_of_ne_of_ne hxa hxb]
    by_cases hxpa : (m x).prev = some a
    · obtain rfl := Option.some.inj ((hforth x hx a hxpa).symm.trans ha.next)
      rw [hxpa, hswapped.prev, if_pos rfl, Option.map_some, Equiv.swap_apply_left]
    by_cases hxpb : (m x).prev = some b
    · obtain rfl := Option.some.inj ((hforth x hx b hxpb).symm.trans hb.next)
      rw [hxpb, hswapped.prev, if_neg hapart.afters.symm, if_pos rfl, Option.map_some, Equiv.swap_apply_right]
    rw [hprev_same x hxa hxb hxpa hxpb, map_swap_of_ne hxpa hxpb]

theorem exchanged_next (ha : Between m p a b) (hb : Between m a b n) (hpb : p ≠ b) (hna : n ≠ a)
    (hm' : m' = paste (join m p b) b a a n) : Exchanged m m' a b members := by
  have hpa := ha.prev_ne
  have hab := hb.prev_ne
  have hnb := hb.next_ne
  have hnext : ∀ x, (m' x).next = if x = p then some b else if x = b then some a else if x = a then some n
      else (m x).next := by
    intro x
    simp only [hm', paste, join, set_prev_next, set_next_next]
    by_cases hxp : x = p
    · simp [hxp, hpa, hpb]
    · by_cases hxb : x = b
      · simp [hxb, hpb.symm]
      · simp [hxp, hxb]
  have hprev : ∀ x, (m' x).prev = if x = n then some a else if x = a then some b else if x = b then some p
      else (m x).prev := by
    intro x
    simp only [hm', paste, join, set_next_prev, set_prev_prev]
  have hnext_same : ∀ x, x ≠ a → x ≠ b → (m x).next ≠ some a → (m x).next ≠ some b →
      (m' x).next = (m x).next := by
    intro x hxa hxb hxna _
    have hxp : x ≠ p := fun h => hxna (h.symm ▸ ha.prev_next)
    rw [hnext, if_neg hxp, if_neg hxb, if_neg hxa]
  have hprev_same : ∀ x, x ≠ a → x ≠ b → (m x).prev ≠ some a → (m x).prev ≠ some b →
      (m' x).prev = (m x).prev := by
    intro x hxa hxb _ hxpb
    have hxn : x ≠ n := fun h => hxpb (h.symm ▸ hb.next_prev)
    rw [hprev, if_neg hxn, if_neg hxa, if_neg hxb]
  refine ⟨fun x hx => ?_, fun x hx => ?_, hnext_same, hprev_same⟩
  · by_cases hxa : x = a
    · rw [hxa, Equiv.swap_apply_left, ha.next, hnext, if_neg hpb.symm, if_pos rfl, Option.map_some,
        Equiv.swap_apply_right]
    by_cases hxb : x = b
    · rw [hxb, Equiv.swap_apply_right, hb.next, hnext, if_neg hpa.symm, if_neg hab, if_pos rfl, Option.map_some,
        Equiv.swap_apply_of_ne_of_ne hna hnb]
    rw [Equiv.swap_apply_of_ne_of_ne hxa hxb]
    by_cases hxna : (m x).next = some a
    · obtain rfl := Option.some.inj ((hback x hx a hxna).symm.trans ha.prev)
      rw [hxna, hnext, if_pos rfl, Option.map_some, Equiv.swap_apply_left]
    have hxnb : (m x).next ≠ some b := fun h => hxa (Option.some.inj ((hback x hx b h).symm.trans hb.prev))
    rw [hnext_same x hxa hxb hxna hxnb, map_swap_of_ne hxna hxnb]
  · by_cases hxa : x = a
    · rw [hxa, Equiv.swap_apply_left, ha.prev, hprev, if_neg hnb.symm, if_neg hab.symm, if_pos rfl,
        Option.map_some,
        Equiv.swap_apply_of_ne_of_ne hpa hpb]
    by_cases hxb : x = b
    · rw [hxb, Equiv.swap_apply_right, hb.prev, hprev, if_neg hna.symm, if_pos rfl, Option.map_some,
        Equiv.swap_apply_left]
    rw [Equiv.swap_apply_of_ne_of_ne hxa hxb]
    by_cases hxpb : (m x).prev = some b
    · obtain rfl := Option.some.inj ((hforth x hx b hxpb).symm.trans hb.next)
      rw [hxpb, hprev, if_pos rfl, Option.map_some, Equiv.swap_apply_right]
    have hxpa : (m x).prev ≠ some a := fun h => hxb (Option.some.inj ((hforth x hx a h).symm.trans ha.next))
    rw [hprev_same x hxa hxb hxpa hxpb, map_swap_of_ne hxpa hxpb]

end Cases

omit [DecidableEq Node] in
theorem apart_of_between (ha : Between m pa a na) (hb : Between m pb b nb) (hab : a ≠ b)
    (hnext : (m a).next ≠ some b) (hnext' : (m b).next ≠ some a) : Apart m a b pa na pb nb where
  a_prev := ha.prev
  a_next := ha.next
  b_prev := hb.prev
  b_next := hb.next
  elems := hab
  befores h := hab (Option.some.inj (ha.prev_next.symm.trans (h ▸ hb.prev_next)))
  afters h := hab (Option.some.inj (ha.next_prev.symm.trans (h ▸ hb.next_prev)))
  pa_ne := ⟨ha.prev_ne, fun h => hnext' (h ▸ ha.prev_next)⟩
  na_ne := ⟨ha.next_ne, fun h => hnext (h ▸ ha.next)⟩
  pb_ne := ⟨fun h => hnext (h ▸ hb.prev_next), hb.prev_ne⟩
  nb_ne := ⟨fun h => hnext' (h ▸ hb.next), hb.next_ne⟩

omit [DecidableEq Node] in
/-- Two neighbours do not stand in a circle. -/
theorem apart_of_next (hwf : WellFormed m lists seq) (ha : a ∈ seq i) (hbetweena : Between m p a b)
    (hbetweenb : Between m a b n) : p ≠ b ∧ n ≠ a := by
  have hpb : p ≠ b := by
    obtain ⟨before, after, hseq⟩ := List.append_of_mem ha
    obtain ⟨hprev, hnext⟩ := elem_links hwf hseq
    obtain rfl := Option.some.inj (hprev.symm.trans hbetweena.prev)
    obtain rfl := Option.some.inj (hnext.symm.trans hbetweena.next)
    have hnodup := hwf.nodup i
    rw [hseq, nodes_split] at hnodup
    refine (List.nodup_append.mp hnodup).2.2 _ (List.mem_of_getLast? (getLast?_preceding _ _)) _ ?_
    exact List.mem_cons_of_mem a (List.mem_of_head? (head?_following _ _))
  refine ⟨hpb, ?_⟩
  rintro rfl
  exact hpb (Option.some.inj (hbetweena.prev.symm.trans hbetweenb.next_prev))

theorem list_swap_exchanged (hwf : WellFormed m lists seq) (ha : a ∈ seq i) (hb : b ∈ seq j) :
    ∃ m', list_swap a b m = .ok ((), m') ∧ Exchanged m m' a b {x | ∃ k, x ∈ nodes (lists k) (seq k)} := by
  obtain ⟨pa, na, hbetweena⟩ := between_of_mem hwf ha
  obtain ⟨pb, nb, hbetweenb⟩ := between_of_mem hwf hb
  have hback : ∀ x ∈ {x | ∃ k, x ∈ nodes (lists k) (seq k)}, ∀ y, (m x).next = some y →
      (m y).prev = some x := by
    rintro x ⟨k, hx⟩ y hy
    exact (prev_of_next hwf hx hy).1
  have hforth : ∀ x ∈ {x | ∃ k, x ∈ nodes (lists k) (seq k)}, ∀ y, (m x).prev = some y →
      (m y).next = some x := by
    rintro x ⟨k, hx⟩ y hy
    exact next_of_prev hwf hx hy
  by_cases hab : a = b
  · subst hab
    refine ⟨m, ?_, ?_⟩
    · rw [list_swap, get_bind, if_pos rfl]
      rfl
    · refine ⟨fun x _ => ?_, fun x _ => ?_, fun _ _ _ _ _ => rfl, fun _ _ _ _ _ => rfl⟩
      · simp
      · simp
  by_cases hnext : (m a).next = some b
  · obtain rfl := Option.some.inj (hbetweena.next.symm.trans hnext)
    obtain rfl := Option.some.inj (hbetweenb.prev.symm.trans hbetweena.next_prev)
    obtain ⟨hpb, hna⟩ := apart_of_next hwf ha hbetweena hbetweenb
    have hrun := list_swap_next_run hbetweena.prev hbetweenb.next hab hbetweena.prev_ne hpb hna hbetweenb.next_ne
    refine ⟨_, ?_, exchanged_next hback hforth hbetweena hbetweenb hpb hna rfl⟩
    rw [list_swap, get_bind, if_neg hab, if_pos hnext]
    exact hrun
  by_cases hnext' : (m b).next = some a
  · obtain rfl := Option.some.inj (hbetweenb.next.symm.trans hnext')
    obtain rfl := Option.some.inj (hbetweena.prev.symm.trans hbetweenb.next_prev)
    obtain ⟨hpa, hnb⟩ := apart_of_next hwf hb hbetweenb hbetweena
    have hrun := list_swap_next_run hbetweenb.prev hbetweena.next
        (Ne.symm hab) hbetweenb.prev_ne hpa hnb hbetweena.next_ne
    refine ⟨_, ?_, (exchanged_next hback hforth hbetweenb hbetweena hpa hnb rfl).symm⟩
    rw [list_swap, get_bind, if_neg hab, if_neg hnext, if_pos hnext']
    exact hrun
  · have hapart := apart_of_between hbetweena hbetweenb hab hnext hnext'
    obtain ⟨m', hrun, hswapped⟩ := list_swap_apart hapart
    exact ⟨m', hrun, exchanged_apart hback hforth hbetweena hbetweenb hswapped hapart⟩

/-- `list_swap` of any two elements: all lists stay well-formed, each of the elements
comes to the place of the other, and the other elements stay where they are, with their
links to neighbours that stay. -/
theorem list_swap_exchanges (hwf : WellFormed m lists seq) (ha : a ∈ seq i) (hb : b ∈ seq j) :
    ∃ m', list_swap a b m = .ok ((), m') ∧
      WellFormed m' lists (fun k => (seq k).map fun x => if x = a then b else if x = b then a else x) ∧
      ∀ x, x ≠ a → x ≠ b →
        ((m x).next ≠ some a → (m x).next ≠ some b → (m' x).next = (m x).next) ∧
        ((m x).prev ≠ some a → (m x).prev ≠ some b → (m' x).prev = (m x).prev) := by
  obtain ⟨m', hrun, hexchanged⟩ := list_swap_exchanged hwf ha hb
  refine ⟨m', hrun, hexchanged.wellFormed hwf ha hb, fun x hxa hxb => ⟨?_, ?_⟩⟩
  · exact hexchanged.next_same x hxa hxb
  · exact hexchanged.prev_same x hxa hxb

/-- Two lists of one element each. -/
def two_lists : Memory Nat
  | 0 => ⟨none, some 4⟩
  | 1 => ⟨some 4, none⟩
  | 2 => ⟨none, some 5⟩
  | 3 => ⟨some 5, none⟩
  | 4 => ⟨some 0, some 1⟩
  | _ => ⟨some 2, some 3⟩

theorem two_lists_formed : WellFormed two_lists (fun i : Bool => if i then ⟨2, 3⟩ else ⟨0, 1⟩)
    fun i => if i then [5] else [4] := by
  refine ⟨?_, by decide, by decide, by decide, ?_⟩
  · intro i
    cases i with
    | false => exact List.isChain_cons_cons.mpr ⟨⟨rfl, rfl⟩, List.isChain_pair.mpr ⟨rfl, rfl⟩⟩
    | true => exact List.isChain_cons_cons.mpr ⟨⟨rfl, rfl⟩, List.isChain_pair.mpr ⟨rfl, rfl⟩⟩
  · intro i j x hi hj
    cases i <;> cases j <;> simp [mem_nodes] at hi hj ⊢ <;> omega

/-- The elements of two lists are swapped. -/
theorem list_swap_exchanges_two_lists :
    ∃ m', list_swap 4 5 two_lists = .ok ((), m') ∧
      WellFormed m' (fun i : Bool => if i then ⟨2, 3⟩ else ⟨0, 1⟩) (fun i => (if i then [5] else [4]).map
        fun x => if x = 4 then 5 else if x = 5 then 4 else x) := by
  obtain ⟨m', hrun, hwf, -⟩ := list_swap_exchanges two_lists_formed (i := false) (j := true) (a := 4) (b := 5)
    (by decide) (by decide)
  exact ⟨m', hrun, hwf⟩

end pintos.prj0_2
