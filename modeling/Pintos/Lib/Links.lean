import Mathlib.Data.List.Chain
import Mathlib.Data.List.Nodup
import Mathlib.Logic.Function.Basic

/-!
# Doubly linked nodes

A memory gives every node the nodes before and after it. A sequence of nodes is linked
if each two neighbours point at each other; the other links of its ends may be anything.
-/

namespace links

/-- The links of a node. -/
@[ext]
structure Link (Node : Type) where
  prev : Option Node
  next : Option Node
  deriving DecidableEq, Repr

/-- The links of all nodes. -/
abbrev Memory (Node : Type) := Node → Link Node

variable {Node : Type} [DecidableEq Node]

def set_prev (m : Memory Node) (a : Node) (v : Option Node) : Memory Node :=
  Function.update m a { m a with prev := v }

def set_next (m : Memory Node) (a : Node) (v : Option Node) : Memory Node :=
  Function.update m a { m a with next := v }

section Setters

variable (m : Memory Node) (a b : Node) (v : Option Node)

@[simp] theorem set_prev_prev_self : (set_prev m a v a).prev = v := by simp [set_prev]
@[simp] theorem set_next_next_self : (set_next m a v a).next = v := by simp [set_next]

@[simp] theorem set_prev_next : (set_prev m a v b).next = (m b).next := by
  obtain rfl | hb := eq_or_ne b a
  · simp [set_prev]
  · simp [set_prev, hb]

@[simp] theorem set_next_prev : (set_next m a v b).prev = (m b).prev := by
  obtain rfl | hb := eq_or_ne b a
  · simp [set_next]
  · simp [set_next, hb]

variable {a b}

@[simp] theorem set_prev_other (hb : b ≠ a) : set_prev m a v b = m b := by simp [set_prev, hb]
@[simp] theorem set_next_other (hb : b ≠ a) : set_next m a v b = m b := by simp [set_next, hb]

theorem set_prev_prev : (set_prev m a v b).prev = if b = a then v else (m b).prev := by
  by_cases hb : b = a
  · subst hb
    simp
  · simp [hb]

theorem set_next_next : (set_next m a v b).next = if b = a then v else (m b).next := by
  by_cases hb : b = a
  · subst hb
    simp
  · simp [hb]

end Setters

/-- Makes two nodes neighbours. -/
def join (m : Memory Node) (a b : Node) : Memory Node := set_prev (set_next m a (some b)) b (some a)

@[simp] theorem join_next (m : Memory Node) (a b : Node) : (join m a b a).next = some b := by simp [join]
@[simp] theorem join_prev (m : Memory Node) (a b : Node) : (join m a b b).prev = some a := by simp [join]

theorem join_next_other (m : Memory Node) {a b c : Node} (hc : c ≠ a) : (join m a b c).next = (m c).next := by
  simp [join, hc]

theorem join_prev_other (m : Memory Node) {a b c : Node} (hc : c ≠ b) : (join m a b c).prev = (m c).prev := by
  simp [join, hc]

theorem join_other (m : Memory Node) {a b c : Node} (ha : c ≠ a) (hb : c ≠ b) : join m a b c = m c := by
  simp [join, ha, hb]

/-- Nodes with different ends are joined in any order. -/
theorem join_comm (m : Memory Node) {a b c d : Node} (hac : a ≠ c) (hbd : b ≠ d) :
    join (join m a b) c d = join (join m c d) a b := by
  funext x
  apply Link.ext
  · simp only [join, set_prev_prev, set_next_prev]
    by_cases hb : x = b
    · simp [hb, hbd]
    · simp [hb]
  · simp only [join, set_next_next, set_prev_next]
    by_cases ha : x = a
    · simp [ha, hac]
    · simp [ha]

/-- The nodes of the sequence are linked in its order. -/
def Linked (m : Memory Node) (l : List Node) : Prop :=
  l.IsChain fun a b => (m a).next = some b ∧ (m b).prev = some a

variable {m m' : Memory Node} {l : List Node} {a b : Node}

omit [DecidableEq Node] in
/-- Links in a sequence do not depend on the links that leave it. -/
theorem Linked.congr (h : Linked m l) (hnext : ∀ a ∈ l.dropLast, (m' a).next = (m a).next)
    (hprev : ∀ b ∈ l.tail, (m' b).prev = (m b).prev) : Linked m' l := by
  induction l with
  | nil => exact .nil
  | cons a l ih =>
    cases l with
    | nil => exact .singleton a
    | cons b l =>
      obtain ⟨hab, hrest⟩ := List.isChain_cons_cons.mp h
      refine List.isChain_cons_cons.mpr ⟨⟨?_, ?_⟩, ?_⟩
      · exact (hnext a List.mem_cons_self).trans hab.1
      · exact (hprev b List.mem_cons_self).trans hab.2
      · apply ih hrest
        · intro c hc
          exact hnext c (List.mem_cons_of_mem a hc)
        · intro c hc
          exact hprev c (List.mem_of_mem_tail hc)

omit [DecidableEq Node] in
/-- A sequence whose nodes and links get new names. -/
theorem Linked.map (h : Linked m l) (f : Node → Node) (hnext : ∀ a ∈ l, (m' (f a)).next = (m a).next.map f)
    (hprev : ∀ a ∈ l, (m' (f a)).prev = (m a).prev.map f) : Linked m' (l.map f) := by
  refine List.isChain_map_of_isChain f (R := fun a b => (a ∈ l ∧ b ∈ l) ∧ (m a).next = some b ∧
    (m b).prev = some a)
    ?_ ?_
  · rintro a b ⟨⟨ha, hb⟩, hab, hba⟩
    rw [hnext a ha, hprev b hb, hab, hba]
    exact ⟨rfl, rfl⟩
  · exact List.IsChain.imp_of_mem_imp (fun a b ha hb hab => ⟨⟨ha, hb⟩, hab⟩) h

omit [DecidableEq Node] in
theorem Linked.append_iff {l₁ l₂ : List Node} : Linked m (l₁ ++ l₂) ↔ Linked m l₁ ∧ Linked m l₂ ∧
    ∀ a ∈ l₁.getLast?, ∀ b ∈ l₂.head?, (m a).next = some b ∧ (m b).prev = some a :=
  List.isChain_append

omit [DecidableEq Node] in
/-- Exchanging the two links of every node reverses a sequence. -/
theorem Linked.reverse (h : Linked m l) (hswap : ∀ a ∈ l, m' a = ⟨(m a).next, (m a).prev⟩) :
    Linked m' l.reverse := by
  refine List.isChain_reverse.mpr (List.IsChain.imp_of_mem_imp ?_ h)
  intro a b ha hb hab
  rw [hswap a ha, hswap b hb]
  exact ⟨hab.2, hab.1⟩

/-- New neighbours outside a sequence do not disturb it. -/
theorem Linked.join_other (h : Linked m l) (ha : a ∉ l.dropLast) (hb : b ∉ l.tail) : Linked (join m a b) l := by
  apply h.congr
  · intro c hc
    exact join_next_other m fun heq => ha (heq ▸ hc)
  · intro c hc
    exact join_prev_other m fun heq => hb (heq ▸ hc)

/-- Two sequences become one. -/
theorem Linked.join {l₁ l₂ : List Node} (h₁ : Linked m l₁) (h₂ : Linked m l₂) (ha : l₁.getLast? = some a)
    (hb : l₂.head? = some b) (hnodup : (l₁ ++ l₂).Nodup) : Linked (join m a b) (l₁ ++ l₂) := by
  obtain ⟨l₁, rfl⟩ := List.getLast?_eq_some_iff.mp ha
  obtain ⟨l₂, rfl⟩ := List.head?_eq_some_iff.mp hb
  obtain ⟨hn₁, hn₂, hapart⟩ := List.nodup_append.mp hnodup
  have ha₁ : a ∉ l₁ := fun hmem => (List.nodup_append.mp hn₁).2.2 a hmem a (List.mem_singleton_self a) rfl
  have hb₂ : b ∉ l₂ := (List.nodup_cons.mp hn₂).1
  have hamem : a ∈ l₁ ++ [a] := List.mem_append_right _ (List.mem_singleton_self a)
  refine append_iff.mpr ⟨?_, ?_, ?_⟩
  · apply h₁.join_other
    · rwa [List.dropLast_concat]
    · intro hmem
      exact hapart b (List.mem_of_mem_tail hmem) b List.mem_cons_self rfl
  · apply h₂.join_other
    · intro hmem
      exact hapart a hamem a (List.dropLast_subset _ hmem) rfl
    · exact hb₂
  · intro x hx y hy
    rw [ha] at hx
    rw [hb] at hy
    obtain rfl := Option.some.inj hx
    obtain rfl := Option.some.inj hy
    exact ⟨join_next m a b, join_prev m a b⟩

section Segments

variable {l₁ r l₂ : List Node} {f g : Node}

/-- Taking a segment out of a sequence; the segment stays linked. -/
theorem Linked.cut (h : Linked m (l₁ ++ r ++ l₂)) (ha : l₁.getLast? = some a) (hb : l₂.head? = some b)
    (hnodup : (l₁ ++ r ++ l₂).Nodup) :
    Linked (links.join m a b) (l₁ ++ l₂) ∧ Linked (links.join m a b) r := by
  obtain ⟨h₁r, h₂, -⟩ := append_iff.mp h
  obtain ⟨h₁, hr, -⟩ := append_iff.mp h₁r
  obtain ⟨hn₁r, hn₂, hapart⟩ := List.nodup_append.mp hnodup
  obtain ⟨hn₁, hnr, hapart'⟩ := List.nodup_append.mp hn₁r
  have hamem : a ∈ l₁ := List.mem_of_getLast? ha
  have hbmem : b ∈ l₂ := List.mem_of_head? hb
  constructor
  · refine h₁.join h₂ ha hb (List.nodup_append.mpr ⟨hn₁, hn₂, ?_⟩)
    intro x hx y hy
    exact hapart x (List.mem_append_left _ hx) y hy
  · apply hr.join_other
    · intro hmem
      exact hapart' a hamem a (List.dropLast_subset _ hmem) rfl
    · intro hmem
      exact hapart b (List.mem_append_right _ (List.mem_of_mem_tail hmem)) b hbmem rfl

/-- The links that put a segment from `f` to `g` between `a` and `b`. -/
def paste (m : Memory Node) (a f g b : Node) : Memory Node :=
  set_prev (set_next (set_next (set_prev m f (some a)) g (some b)) a (some f)) b (some g)

theorem paste_eq_join (hfb : f ≠ b) (hag : a ≠ g) : paste m a f g b = links.join (links.join m a f) g b := by
  funext x
  have hprev : (paste m a f g b x).prev = (links.join (links.join m a f) g b x).prev := by
    obtain rfl | hxb := eq_or_ne x b
    · simp [paste]
    · obtain rfl | hxf := eq_or_ne x f
      · simp [paste, join_prev_other _ hxb, hxb]
      · simp [paste, join_prev_other _ hxb, join_prev_other _ hxf, hxb, hxf]
  have hnext : (paste m a f g b x).next = (links.join (links.join m a f) g b x).next := by
    obtain rfl | hxa := eq_or_ne x a
    · simp [paste, join_next_other _ hag]
    · obtain rfl | hxg := eq_or_ne x g
      · simp [paste, hxa]
      · simp [paste, join_next_other _ hxa, join_next_other _ hxg, hxa, hxg]
  exact Link.ext hprev hnext

theorem paste_other {x : Node} (hf : x ≠ f) (hg : x ≠ g) (ha : x ≠ a) (hb : x ≠ b) :
    paste m a f g b x = m x := by
  simp [paste, hf, hg, ha, hb]

/-- Putting a segment into a sequence. -/
theorem Linked.paste (h : Linked m (l₁ ++ l₂)) (hr : Linked m r) (ha : l₁.getLast? = some a)
    (hb : l₂.head? = some b) (hf : r.head? = some f) (hg : r.getLast? = some g)
    (hnodup : (l₁ ++ r ++ l₂).Nodup) : Linked (links.paste m a f g b) (l₁ ++ r ++ l₂) := by
  obtain ⟨h₁, h₂, -⟩ := append_iff.mp h
  obtain ⟨hn₁r, hn₂, hapart⟩ := List.nodup_append.mp hnodup
  obtain ⟨hn₁, hnr, hapart'⟩ := List.nodup_append.mp hn₁r
  have hamem : a ∈ l₁ := List.mem_of_getLast? ha
  have hbmem : b ∈ l₂ := List.mem_of_head? hb
  have hfmem : f ∈ r := List.mem_of_head? hf
  have hgmem : g ∈ r := List.mem_of_getLast? hg
  rw [paste_eq_join (hapart f (List.mem_append_right _ hfmem) b hbmem) (hapart' a hamem g hgmem)]
  have h₂' : Linked (links.join m a f) l₂ := by
    apply h₂.join_other
    · intro hmem
      exact hapart a (List.mem_append_left _ hamem) a (List.dropLast_subset _ hmem) rfl
    · intro hmem
      exact hapart f (List.mem_append_right _ hfmem) f (List.mem_of_mem_tail hmem) rfl
  refine (h₁.join hr ha hf hn₁r).join h₂' ?_ hb hnodup
  rw [List.getLast?_append, hg]
  rfl

end Segments

end links
