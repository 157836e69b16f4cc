import Pintos.Kernel.ListRuns
import Pintos.Kernel.BitmapBuf

/-!
# Kernel lists in the bytes of memory

A list element is two words: the address of the element before it, and the address of
the element after it. On nodes that do not overlap, the operations do what they do to
links.
-/

open bytes links

namespace pintos.kernel

/-- A node of the lists. -/
def Member {Node ι : Type} (lists : ι → list Node) (seq : ι → List Node) (x : Node) : Prop :=
  ∃ i, x ∈ nodes (lists i) (seq i)

/-- Lists depend on the links of their nodes only. -/
theorem WellFormed.congr {Node ι : Type} {l l' : Memory Node} {lists : ι → list Node} {seq : ι → List Node}
    (h : WellFormed l lists seq) (hl : ∀ x, Member lists seq x → l' x = l x) : WellFormed l' lists seq := by
  refine ⟨?_, ?_, ?_, h.nodup, h.disjoint⟩
  · intro i
    apply (h.linked i).congr
    · intro a ha
      rw [hl a ⟨i, List.dropLast_subset _ ha⟩]
    · intro b hb
      rw [hl b ⟨i, List.mem_of_mem_tail hb⟩]
  · intro i
    rw [hl _ ⟨i, mem_nodes.mpr (Or.inl rfl)⟩]
    exact h.head_prev i
  · intro i
    rw [hl _ ⟨i, mem_nodes.mpr (Or.inr (Or.inr rfl))⟩]
    exact h.tail_next i

end pintos.kernel

namespace pintos.kernel.ram

/-- `sizeof (struct list_elem)`. -/
def sizeof_list_elem : Nat := 8

/-- The pointer in a word; zero is the null pointer. -/
def pointer (w : Nat) : Option Nat := if w = 0 then none else some w

/-- The links in memory. -/
def links_of (m : Ram) : Memory Nat := fun elem => ⟨pointer (word m elem), pointer (word m (elem + 4))⟩

/-- Assignment to `elem->prev`. -/
def set_prev (m : Ram) (elem : Nat) (v : Option Nat) : Ram := store_word m elem (v.getD 0)

/-- Assignment to `elem->next`. -/
def set_next (m : Ram) (elem : Nat) (v : Option Nat) : Ram := store_word m (elem + 4) (v.getD 0)

/-- The list at an address. -/
def list_at (l : Nat) : list Nat := ⟨l, l + sizeof_list_elem⟩

section Operations

variable (m : Ram)

/-- `list_init`. -/
def list_init (l : list Nat) : Ram :=
  let m := set_prev m l.head none
  let m := set_next m l.head (some l.tail)
  let m := set_prev m l.tail (some l.head)
  set_next m l.tail none

/-- `list_insert`. -/
def list_insert (before elem : Nat) : Option Ram := do
  guard (is_interior (links_of m) before || is_tail (links_of m) before)
  let m := set_prev m elem (links_of m before).prev
  let m := set_next m elem (some before)
  let prev ← (links_of m before).prev
  let m := set_next m prev (some elem)
  return set_prev m before (some elem)

/-- `list_push_front`. -/
def list_push_front (l : list Nat) (elem : Nat) : Option Ram := do
  list_insert m (← list_begin (links_of m) l) elem

/-- `list_push_back`. -/
def list_push_back (l : list Nat) (elem : Nat) : Option Ram := list_insert m l.tail elem

/-- `list_remove`: the memory, and the element that followed. -/
def list_remove (elem : Nat) : Option (Ram × Nat) := do
  guard (is_interior (links_of m) elem)
  let prev ← (links_of m elem).prev
  let m := set_next m prev (links_of m elem).next
  let next ← (links_of m elem).next
  let m := set_prev m next (links_of m elem).prev
  return (m, ← (links_of m elem).next)

/-- `list_empty`. -/
def list_empty (l : list Nat) : Bool := kernel.list_empty (links_of m) l

/-- `list_front`. -/
def list_front (l : list Nat) : Option Nat := kernel.list_front (links_of m) l

/-- `list_pop_front`. -/
def list_pop_front (l : list Nat) : Option (Ram × Nat) := do
  let front ← list_front m l
  let (m, _) ← list_remove m front
  return (m, front)

end Operations

/-- Nodes that are addresses of words and do not overlap. -/
structure Placed (S : Nat → Prop) : Prop where
  pos : ∀ a, S a → 0 < a
  small : ∀ a, S a → a < 2 ^ 32
  apart : ∀ a b, S a → S b → a ≠ b → a + sizeof_list_elem ≤ b ∨ b + sizeof_list_elem ≤ a

/-- The byte belongs to no node. -/
def Outside (S : Nat → Prop) (x : Nat) : Prop := ∀ a, S a → x < a ∨ a + sizeof_list_elem ≤ x

/-- Memory has the given links in the nodes, and elsewhere the bytes of `m₀`. -/
structure Mirrors (S : Nat → Prop) (m₀ : Ram) (l : Memory Nat) (m : Ram) : Prop where
  links : ∀ a, S a → links_of m a = l a
  outside : ∀ x, Outside S x → m x = m₀ x

variable {S : Nat → Prop} {m m' m₀ : Ram} {l l' : Memory Nat} {a before elem : Nat} {v : Option Nat}

theorem Placed.mono {S' : Nat → Prop} (h : Placed S) (hle : ∀ a, S' a → S a) : Placed S' :=
  ⟨fun a ha => h.pos a (hle a ha), fun a ha => h.small a (hle a ha),
    fun a b ha hb => h.apart a b (hle a ha) (hle b hb)⟩

theorem links_of_congr (h : ∀ x, a ≤ x → x < a + sizeof_list_elem → m' x = m x) :
    links_of m' a = links_of m a := by
  have hprev : word m' a = word m a := by
    apply word_congr
    intro i hi
    exact h _ (by omega) (by rw [sizeof_list_elem]; omega)
  have hnext : word m' (a + 4) = word m (a + 4) := by
    apply word_congr
    intro i hi
    exact h _ (by omega) (by rw [sizeof_list_elem]; omega)
  simp only [links_of, hprev, hnext]

/-- A pointer to a node is read back as it was stored. -/
theorem pointer_getD (hplaced : Placed S) (hv : ∀ b ∈ v, S b) : v.getD 0 < 2 ^ 32 ∧ pointer (v.getD 0) = v := by
  cases v with
  | none => exact ⟨by decide, rfl⟩
  | some b =>
    have hb := hv b rfl
    exact ⟨hplaced.small b hb, if_neg (Nat.ne_of_gt (hplaced.pos b hb))⟩

theorem Mirrors.refl (S : Nat → Prop) (m : Ram) : Mirrors S m (links_of m) m :=
  ⟨fun _ _ => rfl, fun _ _ => rfl⟩

theorem Mirrors.set_prev (hplaced : Placed S) (h : Mirrors S m₀ l m) (ha : S a) (hv : ∀ b ∈ v, S b) :
    Mirrors S m₀ (links.set_prev l a v) (set_prev m a v) := by
  obtain ⟨hlt, hpointer⟩ := pointer_getD hplaced hv
  refine ⟨?_, ?_⟩
  · intro b hb
    obtain rfl | hne := eq_or_ne b a
    · have hlinks := h.links b hb
      apply Link.ext
      · simp only [links_of, ram.set_prev, word_store_word m b hlt, hpointer, set_prev_prev_self]
      · rw [set_prev_next, ← hlinks]
        simp only [links_of, ram.set_prev, word_store_word_ne m (Or.inr (Nat.le_refl (b + 4)))]
    · rw [set_prev_other _ _ hne, ← h.links b hb]
      apply links_of_congr
      intro x hlow hhigh
      have happart := hplaced.apart b a hb ha hne
      apply store_word_outside
      rw [sizeof_list_elem] at *
      omega
  · intro x hx
    rw [← h.outside x hx]
    have hxa := hx a ha
    apply store_word_outside
    rw [sizeof_list_elem] at hxa
    omega

theorem Mirrors.set_next (hplaced : Placed S) (h : Mirrors S m₀ l m) (ha : S a) (hv : ∀ b ∈ v, S b) :
    Mirrors S m₀ (links.set_next l a v) (set_next m a v) := by
  obtain ⟨hlt, hpointer⟩ := pointer_getD hplaced hv
  refine ⟨?_, ?_⟩
  · intro b hb
    obtain rfl | hne := eq_or_ne b a
    · have hlinks := h.links b hb
      apply Link.ext
      · rw [set_next_prev, ← hlinks]
        simp only [links_of, ram.set_next, word_store_word_ne m (Or.inl (Nat.le_refl (b + 4)))]
      · simp only [links_of, ram.set_next, word_store_word m (b + 4) hlt, hpointer, set_next_next_self]
    · rw [set_next_other _ _ hne, ← h.links b hb]
      apply links_of_congr
      intro x hlow hhigh
      have happart := hplaced.apart b a hb ha hne
      apply store_word_outside
      rw [sizeof_list_elem] at *
      omega
  · intro x hx
    rw [← h.outside x hx]
    have hxa := hx a ha
    apply store_word_outside
    rw [sizeof_list_elem] at hxa
    omega

theorem list_init_mirrors (hplaced : Placed S) (lst : list Nat) (hhead : S lst.head) (htail : S lst.tail) :
    Mirrors S m (kernel.list_init (links_of m) lst) (list_init m lst) := by
  have h₁ := (Mirrors.refl S m).set_prev hplaced hhead (v := none) (by simp)
  have h₂ := h₁.set_next hplaced hhead (v := some lst.tail) (by simpa using htail)
  have h₃ := h₂.set_prev hplaced htail (v := some lst.head) (by simpa using hhead)
  exact h₃.set_next hplaced htail (by simp)

theorem list_insert_mirrors (hplaced : Placed S) (hbefore : S before) (helem : S elem)
    (hprev : ∀ p ∈ (links_of m before).prev, S p) (hrun : kernel.list_insert
    (links_of m) before elem = some l') :
    ∃ m', list_insert m before elem = some m' ∧ Mirrors S m l' m' := by
  have h₁ := (Mirrors.refl S m).set_prev hplaced helem hprev
  have h₂ := h₁.set_next hplaced helem (v := some before) (by simpa using hbefore)
  simp only [kernel.list_insert, Option.bind_eq_bind, Option.bind_eq_some_iff, Option.guard_eq_some'] at hrun
  obtain ⟨-, hguard, prev, hp, hrun⟩ := hrun
  obtain rfl := Option.some.inj hrun
  have hp' := hp
  rw [← h₂.links before hbefore] at hp
  have hSprev : S prev := by
    apply hprev
    by_cases heq : before = elem
    · subst heq
      simpa using hp'
    · rwa [set_next_prev, set_prev_other _ _ heq] at hp'
  have h₃ := h₂.set_next hplaced hSprev (v := some elem) (by simpa using helem)
  have h₄ := h₃.set_prev hplaced hbefore (v := some elem) (by simpa using helem)
  refine ⟨_, ?_, h₄⟩
  simp [list_insert, hguard, hp]

theorem list_remove_mirrors (hplaced : Placed S) (helem : S elem) (hprev : ∀ p ∈ (links_of m elem).prev, S p)
    (hnext : ∀ p ∈ (links_of m elem).next, S p) {next : Nat}
    (hrun : kernel.list_remove (links_of m) elem = some (l', next)) :
    ∃ m', list_remove m elem = some (m', next) ∧ Mirrors S m l' m' := by
  simp only [kernel.list_remove, Option.bind_eq_bind, Option.bind_eq_some_iff, Option.guard_eq_some'] at hrun
  obtain ⟨-, hguard, prev, hp, nxt, hn, last, hlast, hrun⟩ := hrun
  obtain ⟨rfl, rfl⟩ := Prod.mk.inj (Option.some.inj hrun)
  have hSprev := hprev prev hp
  have h₁ := (Mirrors.refl S m).set_next hplaced hSprev hnext
  have hn' := hn
  rw [← h₁.links elem helem] at hn
  have hSnext : S nxt := by
    apply hnext
    by_cases heq : elem = prev
    · subst heq
      simpa using hn'
    · rwa [set_next_other _ _ heq] at hn'
  have h₂ := h₁.set_prev hplaced hSnext (v := (links_of (set_next m prev (links_of m elem).next) elem).prev) (by
    rw [h₁.links elem helem, set_next_prev]
    exact hprev)
  rw [h₁.links elem helem] at h₂
  refine ⟨_, ?_, h₂⟩
  rw [← h₂.links elem helem] at hlast
  rw [h₁.links elem helem] at hn
  rw [set_next_prev, hp] at hlast
  simp [list_remove, hguard, hp, h₁.links elem helem, hn, hlast]

section Lists

variable {ι : Type} [DecidableEq ι] {lists : ι → list Nat} {seq : ι → List Nat} {i : ι} {after r : List Nat}
  {pre : List Nat} {e : Nat}

/-- The nodes of the lists, and another one. -/
def WithNode (lists : ι → list Nat) (seq : ι → List Nat) (elem x : Nat) : Prop := x = elem ∨ Member lists seq x

omit [DecidableEq ι] in
theorem preceding_member (hseq : seq i = pre ++ after) : Member lists seq (preceding (lists i) pre) :=
  ⟨i, hseq ▸ preceding_mem (lists i) pre after⟩

omit [DecidableEq ι] in
theorem following_member (hseq : seq i = pre ++ after) : Member lists seq (following (lists i) after) :=
  ⟨i, hseq ▸ following_mem (lists i) pre after⟩

theorem member_update {elems : List Nat} {x : Nat} (hx : Member lists (Function.update seq i elems) x)
    (hsub : ∀ y ∈ elems, y = elem ∨ y ∈ seq i) : WithNode lists seq elem x := by
  obtain ⟨j, hj⟩ := hx
  obtain rfl | hne := eq_or_ne j i
  · rw [Function.update_self] at hj
    obtain hj | hj | hj := mem_nodes.mp hj
    · exact Or.inr ⟨j, mem_nodes.mpr (Or.inl hj)⟩
    · exact (hsub x hj).imp_right fun h => ⟨j, mem_nodes.mpr (Or.inr (Or.inl h))⟩
    · exact Or.inr ⟨j, mem_nodes.mpr (Or.inr (Or.inr hj))⟩
  · rw [Function.update_of_ne hne] at hj
    exact Or.inr ⟨j, hj⟩

theorem list_insert_run (hwf : WellFormed (links_of m) lists seq) (hplaced : Placed (WithNode lists seq elem))
    (hseq : seq i = pre ++ after) (hfresh : Fresh lists seq elem) :
    ∃ m', list_insert m (following (lists i) after) elem = some m' ∧
      WellFormed (links_of m') lists (Function.update seq i (pre ++ elem :: after)) ∧
      ∀ x, Outside (WithNode lists seq elem) x → m' x = m x := by
  obtain ⟨l', hrun, hwf', -⟩ := kernel.list_insert_run hwf hseq hfresh
  obtain ⟨m', hrun', hmirrors⟩ := list_insert_mirrors hplaced (Or.inr (following_member hseq)) (Or.inl rfl) (by
    intro p hp
    rw [(hwf.neighbours hseq).2] at hp
    obtain rfl := Option.some.inj hp
    exact Or.inr (preceding_member hseq)) hrun
  refine ⟨m', hrun', hwf'.congr ?_, hmirrors.outside⟩
  intro x hx
  apply hmirrors.links
  apply member_update hx
  intro y hy
  rw [hseq]
  simp only [List.mem_append, List.mem_cons] at hy ⊢
  tauto

theorem list_push_front_run (hwf : WellFormed (links_of m) lists seq)
    (hplaced : Placed (WithNode lists seq elem)) (hfresh : Fresh lists seq elem) :
    ∃ m', list_push_front m (lists i) elem = some m' ∧
      WellFormed (links_of m') lists (Function.update seq i (elem :: seq i)) ∧
      ∀ x, Outside (WithNode lists seq elem) x → m' x = m x := by
  obtain ⟨m', hrun, h⟩ := list_insert_run hwf hplaced (List.nil_append (seq i)).symm hfresh
  refine ⟨m', ?_, h⟩
  rw [list_push_front, hwf.list_begin i]
  exact hrun

theorem list_push_back_run (hwf : WellFormed (links_of m) lists seq)
    (hplaced : Placed (WithNode lists seq elem)) (hfresh : Fresh lists seq elem) :
    ∃ m', list_push_back m (lists i) elem = some m' ∧
      WellFormed (links_of m') lists (Function.update seq i (seq i ++ [elem])) ∧
      ∀ x, Outside (WithNode lists seq elem) x → m' x = m x := by
  obtain ⟨m', hrun, h⟩ := list_insert_run hwf hplaced (List.append_nil (seq i)).symm hfresh
  exact ⟨m', hrun, h⟩

theorem list_remove_run (hwf : WellFormed (links_of m) lists seq) (hplaced : Placed (Member lists seq))
    (hseq : seq i = pre ++ e :: after) :
    ∃ m', list_remove m e = some (m', following (lists i) after) ∧
      WellFormed (links_of m') lists (Function.update seq i (pre ++ after)) ∧
      ∀ x, Outside (Member lists seq) x → m' x = m x := by
  have hseq' : seq i = (pre ++ [e]) ++ after := by
    rw [hseq, List.append_assoc, List.singleton_append]
  obtain ⟨l', hrun, hwf', -⟩ := kernel.list_remove_run hwf hseq
  have hprev := (hwf.neighbours hseq).2
  have hnext := (hwf.neighbours hseq').1
  rw [preceding, List.getLastD_concat] at hnext
  change (links_of m e).prev = _ at hprev
  obtain ⟨m', hrun', hmirrors⟩ := list_remove_mirrors hplaced (following_member hseq) (by
    intro p hp
    rw [following_cons, hprev] at hp
    obtain rfl := Option.some.inj hp
    exact preceding_member hseq) (by
    intro p hp
    rw [following_cons, hnext] at hp
    obtain rfl := Option.some.inj hp
    exact following_member hseq') hrun
  refine ⟨m', hrun', hwf'.congr ?_, hmirrors.outside⟩
  intro x hx
  apply hmirrors.links
  have hmember : WithNode lists seq e x := by
    apply member_update hx
    intro y hy
    rw [hseq]
    simp only [List.mem_append, List.mem_cons] at hy ⊢
    tauto
  obtain rfl | hx := hmember
  · exact following_member hseq
  · exact hx

theorem list_pop_front_run (hwf : WellFormed (links_of m) lists seq) (hplaced : Placed (Member lists seq))
    (hseq : seq i = e :: after) :
    ∃ m', list_pop_front m (lists i) = some (m', e) ∧
      WellFormed (links_of m') lists (Function.update seq i after) ∧
      ∀ x, Outside (Member lists seq) x → m' x = m x := by
  have hpos : seq i = [] ++ e :: after := hseq
  obtain ⟨m', hrun, h⟩ := list_remove_run hwf hplaced hpos
  refine ⟨m', ?_, h⟩
  have hbegin : (links_of m (lists i).head).next = some e := by
    have hfirst := hwf.list_begin i
    rwa [hseq] at hfirst
  have hempty : kernel.list_empty (links_of m) (lists i) = false := by
    rw [list_empty_eq hwf, hseq]
    rfl
  simp [list_pop_front, list_front, kernel.list_front, hempty, hbegin, hrun]

end Lists

end pintos.kernel.ram
