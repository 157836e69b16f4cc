import Pintos.Prj0.ListUnique

/-!
# Splices with any positions (`list_splice`)

A range is moved to a place outside of it. Where the place is inside the range, or the
end of the range comes before its beginning, elements get into a circle, and no list
leads to them any more.
-/

open links pintos.kernel state_error

namespace pintos.prj0_2

variable {Node ι : Type} [DecidableEq Node] {m m' : Memory Node} {lists : ι → kernel.list Node}
  {seq seq' : ι → List Node} {i j : ι} {before after r r₁ r₂ c d : List Node}
    {dest first last f g p q n x : Node}

/-- What `list_splice` does to the links. -/
theorem list_splice_links (hdest : (is_interior m dest || is_tail m dest) = true) (hne : first ≠ last)
    (hlast : (is_interior m last || is_tail m last) = true) (hg : (m last).prev = some g)
    (hfirst : is_interior m first = true) (hlast' : is_interior m g = true) (hp : (m first).prev = some p)
    (hn : (m g).next = some n) (hq : (join m p n dest).prev = some q) :
    list_splice dest first last m = .ok ((), paste (join m p n) q first g dest) := by
  have hnext : (set_next m p (m g).next g).next = some n := by
    rw [set_next_next, hn, ite_self]
  have hprev : (set_next m p (m g).next first).prev = some p := by
    rw [set_next_prev, hp]
  have hq' : (set_next (set_prev (join m p n) first (some q)) g (some dest) dest).prev = some q := by
    rw [set_next_prev, set_prev_prev, hq, ite_self]
  rw [list_splice, ASSERT_bind, if_pos hdest, if_neg hne, ASSERT_bind, if_pos hlast,
    follow_bind hg, ASSERT_bind,
    if_pos hfirst, ASSERT_bind, if_pos hlast', follow_bind hp, store_next_bind, follow_bind hnext,
      store_prev_bind,
    hprev, hn]
  change (store_prev first _ >>= _) (join m p n) = _
  rw [store_prev_bind, hq, store_next_bind, follow_bind hq']
  rfl

section Closed

omit [DecidableEq Node]

/-- An element of a list does not lead into a circle. -/
theorem not_closed_next {C : Node → Prop} (hwf : WellFormed m lists seq)
    (hclosed : ∀ y, C y → ∃ z, (m y).next = some z ∧ C z) (i : ι) : ∀ x ∈ seq i, ¬ C x := by
  intro x hx hC
  obtain ⟨before, after, hseq⟩ := List.append_of_mem hx
  induction after generalizing before x with
  | nil =>
    obtain ⟨z, hz, hCz⟩ := hclosed x hC
    obtain rfl := Option.some.inj (hz.symm.trans (elem_links hwf hseq).2)
    obtain ⟨y, hy, -⟩ := hclosed _ hCz
    cases hy.symm.trans (hwf.tail_next i)
  | cons y after ih =>
    obtain ⟨z, hz, hCz⟩ := hclosed x hC
    obtain rfl : z = y := Option.some.inj (hz.symm.trans (elem_links hwf hseq).2)
    exact ih z (by simp [hseq]) hCz (before ++ [x]) (by simp [hseq])

/-- Nor does it come from one. -/
theorem not_closed_prev {C : Node → Prop} (hwf : WellFormed m lists seq)
    (hclosed : ∀ y, C y → ∃ z, (m y).prev = some z ∧ C z) (i : ι) : ∀ x ∈ seq i, ¬ C x := by
  intro x hx hC
  obtain ⟨before, after, hseq⟩ := List.append_of_mem hx
  induction before using List.reverseRecOn generalizing x after with
  | nil =>
    obtain ⟨z, hz, hCz⟩ := hclosed x hC
    obtain rfl := Option.some.inj (hz.symm.trans (elem_links hwf hseq).1)
    obtain ⟨y, hy, -⟩ := hclosed _ hCz
    cases hy.symm.trans (hwf.head_prev i)
  | append_singleton before y ih =>
    obtain ⟨z, hz, hCz⟩ := hclosed x hC
    have hprev := (elem_links hwf hseq).1
    rw [preceding, List.getLastD_concat] at hprev
    obtain rfl : z = y := Option.some.inj (hz.symm.trans hprev)
    exact ih z (by simp [hseq]) hCz (x :: after) (by simp [hseq])

end Closed

theorem paste_next {a b : Node} : (paste m a f g b x).next =
    if x = a then some f else if x = g then some b else (m x).next := by
  simp only [paste, set_prev_next, set_next_next]

theorem paste_prev {a b : Node} : (paste m a f g b x).prev =
    if x = b then some g else if x = f then some a else (m x).prev := by
  simp only [paste, set_prev_prev, set_next_prev]

omit [DecidableEq Node] in
/-- The last element of a range. -/
theorem exists_last (hr : r ≠ []) : ∃ front g, r = front ++ [g] := by
  obtain rfl | ⟨front, g, rfl⟩ := List.eq_nil_or_concat' r
  · exact absurd rfl hr
  · exact ⟨front, g, rfl⟩

/-- A range put before one of its own elements: that element and the rest of the range
lead round in a circle. -/
theorem list_splice_inside (hwf : WellFormed m lists seq) (hseq : seq i = before ++
    (r₁ ++ dest :: r₂) ++ after) :
    ∃ m', list_splice dest (following (lists i) (r₁ ++ dest :: r₂ ++ after)) (following (lists i) after) m =
      .ok ((), m') ∧ ∀ seq' : ι → List Node, WellFormed m' lists seq' → ∀ k, dest ∉ seq' k := by
  obtain ⟨f, r', hr'⟩ := List.exists_cons_of_ne_nil (show r₁ ++ dest :: r₂ ≠ [] by simp)
  obtain ⟨front, g, hg⟩ := exists_last (List.cons_ne_nil dest r₂)
  have hnodup := hwf.nodup i
  rw [hseq, nodes_split₃] at hnodup
  obtain ⟨hnodup₁, -, hapart⟩ := List.nodup_append.mp hnodup
  obtain ⟨-, hnodupr, hapart'⟩ := List.nodup_append.mp hnodup₁
  obtain ⟨-, -, hapartr⟩ := List.nodup_append.mp hnodupr
  have hfmem : f ∈ r₁ ++ dest :: r₂ := hr' ▸ List.mem_cons_self
  have hpmem := List.mem_of_getLast? (getLast?_preceding (lists i) before)
  have hnmem := List.mem_of_head? (head?_following (lists i) after)
  have hseqd : seq i = (before ++ r₁) ++ dest :: (r₂ ++ after) := by simp [hseq]
  have hseqf : seq i = before ++ f :: (r' ++ after) := by simp [hseq, hr']
  have hseqg : seq i = (before ++ r₁ ++ front) ++ g :: after := by simp [hseq, hg]
  have hseqn : seq i = (before ++ r₁ ++ front ++ [g]) ++ after := by simp [hseq, hg]
  have hfirst : following (lists i) (r₁ ++ dest :: r₂ ++ after) = f := by rw [hr']; rfl
  have hdn : dest ≠ following (lists i) after :=
    hapart _ (List.mem_append_right _ (by simp)) _ hnmem
  have hlast := (hwf.neighbours hseqn).2
  rw [preceding, List.getLastD_concat] at hlast
  rw [hfirst]
  refine ⟨_, list_splice_links (p := preceding (lists i) before) (n := following (lists i) after)
    (q := preceding (lists i) (before ++ r₁)) ?_ ?_ (hwf.following_guard hseqn) hlast (hwf.interior hseqf)
    (hwf.interior hseqg) (elem_links hwf hseqf).1 (elem_links hwf hseqg).2 ?_, ?_⟩
  · rw [hwf.interior hseqd, Bool.true_or]
  · exact hapart f (List.mem_append_right _ hfmem) _ hnmem
  · rw [join_prev_other m hdn]
    exact (elem_links hwf hseqd).1
  · intro seq' hwf' k hmem
    refine not_closed_next (C := (· ∈ dest :: r₂)) hwf' (fun y hy => ?_) k dest hmem List.mem_cons_self
    have hyq : y ≠ preceding (lists i) (before ++ r₁) := by
      have hqmem := List.mem_of_getLast? (getLast?_preceding (lists i) (before ++ r₁))
      rw [List.cons_append.symm, List.mem_append] at hqmem
      rintro rfl
      obtain hbefore | hr₁ := hqmem
      · exact hapart' _ hbefore _ (List.mem_append_right _ hy) rfl
      · exact hapartr _ hr₁ _ hy rfl
    have hyp : y ≠ preceding (lists i) before := by
      rintro rfl
      exact hapart' _ hpmem _ (List.mem_append_right _ hy) rfl
    rw [paste_next, if_neg hyq]
    by_cases hyg : y = g
    · exact ⟨dest, by rw [if_pos hyg], List.mem_cons_self⟩
    · obtain ⟨l, back, hsplit⟩ := List.append_of_mem hy
      cases back with
      | nil =>
        rw [hsplit] at hg
        exact absurd (List.append_inj' hg rfl).2 (by simpa using hyg)
      | cons z back =>
        refine ⟨z, ?_, hsplit ▸ by simp⟩
        rw [if_neg hyg, join_next_other m hyp]
        exact (elem_links hwf (show seq i = before ++ r₁ ++ l ++
          y :: (z :: back ++ after) by simp [hseq, hsplit])).2

/-- A range with its end before its beginning: the elements between them lead round in a
circle, unless the place is among them. -/
theorem list_splice_reversed (hwf : WellFormed m lists seq)
    (hseq : seq i = before ++ g :: (n :: r ++ f :: after))
    (hdest : (is_interior m dest || is_tail m dest) = true) (hout : dest ∉ n :: r) :
    ∃ m', list_splice dest f n m = .ok ((), m') ∧
      ∀ seq' : ι → List Node, WellFormed m' lists seq' → ∀ k, n ∉ seq' k := by
  obtain ⟨front, p, hp⟩ := exists_last (List.cons_ne_nil n r)
  have hnodup := hwf.nodup i
  have hsplit : nodes (lists i) (seq i) =
      ((lists i).head :: before ++ [g]) ++ (n :: r ++ (f :: after ++ [(lists i).tail])) := by simp [hseq, nodes]
  rw [hsplit] at hnodup
  obtain ⟨-, hnodupr, -⟩ := List.nodup_append.mp hnodup
  obtain ⟨hnodupn, -, hapart⟩ := List.nodup_append.mp hnodupr
  have hseqn : seq i = (before ++ [g]) ++ n :: (r ++ f :: after) := by simp [hseq]
  have hseqf : seq i = (before ++ g :: front ++ [p]) ++ f :: after := by simp [hseq, hp]
  have hnf : n ≠ f := hapart n List.mem_cons_self f List.mem_cons_self
  have hn_prev := (elem_links hwf hseqn).1
  have hf_prev := (elem_links hwf hseqf).1
  rw [preceding, List.getLastD_concat] at hn_prev hf_prev
  obtain ⟨q, hq⟩ : ∃ q, (m dest).prev = some q := by
    cases hprev : (m dest).prev with
    | none => simp [is_interior, is_tail, hprev] at hdest
    | some q => exact ⟨q, rfl⟩
  have hdn : dest ≠ n := fun heq => hout (heq ▸ List.mem_cons_self)
  have hseqg : seq i = before ++ g :: (n :: r ++ f :: after) := hseq
  refine ⟨_, list_splice_links (p := p) (n := n) (q := q) hdest hnf.symm ?_ hn_prev (hwf.interior hseqf)
    (hwf.interior hseqg) hf_prev (elem_links hwf hseqg).2 ?_, ?_⟩
  · rw [hwf.interior hseqn, Bool.true_or]
  · rw [join_prev_other m hdn, hq]
  · intro seq' hwf' k hmem
    refine not_closed_prev (C := (· ∈ n :: r)) hwf' (fun y hy => ?_) k n hmem List.mem_cons_self
    have hyd : y ≠ dest := fun heq => hout (heq ▸ hy)
    have hyf : y ≠ f := hapart y hy f List.mem_cons_self
    rw [paste_prev, if_neg hyd, if_neg hyf]
    by_cases hyn : y = n
    · exact ⟨p, by rw [hyn, join_prev], hp ▸ List.mem_append_right _ (List.mem_singleton_self p)⟩
    · obtain ⟨l, back, hsplit⟩ := List.append_of_mem hy
      obtain rfl | ⟨l, z, rfl⟩ := List.eq_nil_or_concat' l
      · exact absurd (List.cons.inj hsplit).1.symm hyn
      · refine ⟨z, ?_, hsplit ▸ by simp⟩
        have hseqy : seq i = (before ++ g :: l ++ [z]) ++ y :: (back ++ f :: after) := by
          rw [hseq, hsplit]
          simp
        have hprev := (elem_links hwf hseqy).1
        rw [preceding, List.getLastD_concat] at hprev
        rw [join_prev_other m hyn, hprev]

/-- Where the place comes right after the end, nothing changes. -/
theorem paste_same (hp : (m p).next = some f) (hf : (m f).prev = some p) (hg : (m g).next = some dest)
    (hdest : (m dest).prev = some g) : paste (join m p dest) p f g dest = m := by
  funext x
  apply Link.ext
  · rw [paste_prev]
    by_cases hxd : x = dest
    · rw [if_pos hxd, hxd, hdest]
    · rw [if_neg hxd, join_prev_other m hxd]
      by_cases hxf : x = f
      · rw [if_pos hxf, hxf, hf]
      · rw [if_neg hxf]
  · rw [paste_next]
    by_cases hxp : x = p
    · rw [if_pos hxp, hxp, hp]
    · rw [if_neg hxp, join_next_other m hxp]
      by_cases hxg : x = g
      · rw [if_pos hxg, hxg, hg]
      · rw [if_neg hxg]

/-- The place is among the elements between the end and the beginning: these change
places around it. -/
theorem list_splice_rotate [DecidableEq ι] (hwf : WellFormed m lists seq)
    (hseq : seq i = before ++ g :: (r₁ ++ dest :: r₂ ++ f :: after)) :
    ∃ m', list_splice dest f (following (lists i) (r₁ ++ dest :: r₂ ++ f :: after)) m = .ok ((), m') ∧
      WellFormed m' lists (Function.update seq i (before ++ g :: (dest :: r₂ ++ r₁ ++ f :: after))) := by
  obtain ⟨front, p, hp⟩ := exists_last (List.cons_ne_nil dest r₂)
  have hnodup := hwf.nodup i
  have hsplit : nodes (lists i) (seq i) =
      ((lists i).head :: before ++ [g]) ++ (r₁ ++ (dest :: r₂ ++ (f :: after ++ [(lists i).tail]))) := by
    simp [hseq, nodes]
  rw [hsplit] at hnodup
  obtain ⟨-, hnodup₁, hapart⟩ := List.nodup_append.mp hnodup
  obtain ⟨-, hnodup₂, hapart₁⟩ := List.nodup_append.mp hnodup₁
  obtain ⟨-, -, hapart₂⟩ := List.nodup_append.mp hnodup₂
  have hpmem : p ∈ dest :: r₂ := hp ▸ List.mem_append_right _ (List.mem_singleton_self p)
  have hseqg : seq i = before ++ g :: (r₁ ++ dest :: r₂ ++ f :: after) := hseq
  have hseqd : seq i = (before ++ g :: r₁) ++ dest :: (r₂ ++ f :: after) := by simp [hseq]
  have hseqp : seq i = (before ++ g :: (r₁ ++ front)) ++ p :: (f :: after) := by simp [hseq, hp]
  have hseqf : seq i = (before ++ g :: (r₁ ++ front) ++ [p]) ++ f :: after := by simp [hseq, hp]
  have hp_next := (elem_links hwf hseqp).2
  have hf_prev := (elem_links hwf hseqf).1
  have hg_next := (elem_links hwf hseqg).2
  rw [following_cons] at hp_next
  rw [preceding, List.getLastD_concat] at hf_prev
  have hdest : (is_interior m dest || is_tail m dest) = true := by rw [hwf.interior hseqd, Bool.true_or]
  have hdf : dest ≠ f := hapart₂ _ List.mem_cons_self _ (by simp)
  cases hr₁ : r₁ with
  | nil =>
    subst hr₁
    have hd_prev := (elem_links hwf hseqd).1
    rw [preceding, List.getLastD_concat] at hd_prev
    have hrun := list_splice_links hdest hdf.symm hdest hd_prev (hwf.interior hseqf)
        (hwf.interior hseqg) hf_prev hg_next
      (join_prev m p dest)
    have hsame : paste (join m p dest) p f g dest = m := paste_same hp_next hf_prev hg_next hd_prev
    refine ⟨m, ?_, ?_⟩
    · exact hrun.trans (congrArg (fun m' => Except.ok ((), m')) hsame)
    · have hid : before ++ g :: (dest :: r₂ ++ [] ++ f :: after) = seq i := by simp [hseq]
      rwa [hid, Function.update_eq_self]
  | cons n r =>
    obtain ⟨back, q, hq⟩ := exists_last (hr₁ ▸ List.cons_ne_nil n r)
    have hqmem : q ∈ r₁ := hq ▸ List.mem_append_right _ (List.mem_singleton_self q)
    have hnmem : n ∈ r₁ := hr₁ ▸ List.mem_cons_self
    have hseqn : seq i = (before ++ [g]) ++ n :: (r ++ dest :: r₂ ++ f :: after) := by simp [hseq, hr₁]
    have hseqd' : seq i = (before ++ g :: back ++ [q]) ++ dest :: (r₂ ++ f :: after) := by simp [hseq, hq]
    have hn_prev := (elem_links hwf hseqn).1
    have hd_prev := (elem_links hwf hseqd').1
    rw [preceding, List.getLastD_concat] at hn_prev hd_prev
    have hg_next' : (m g).next = some n := by rw [hg_next, hr₁]; rfl
    have hdn : dest ≠ n := (hapart₁ _ hnmem _ List.mem_cons_self).symm
    have hnf : n ≠ f := hapart₁ _ hnmem _ (by simp)
    have hpq : p ≠ q := (hapart₁ _ hqmem _ (List.mem_append_left _ hpmem)).symm
    have hgq : g ≠ q := hapart _ (by simp) _ (List.mem_append_left _ hqmem)
    have hgp : g ≠ p := hapart _ (by simp) _ (List.mem_append_right _ (List.mem_append_left _ hpmem))
    have hrun := list_splice_links hdest hnf.symm (by rw [hwf.interior hseqn, Bool.true_or]) hn_prev
      (hwf.interior hseqf) (hwf.interior hseqg) hf_prev hg_next' ((join_prev_other m hdn).trans hd_prev)
    -- The elements before the place are cut out, and pasted after those behind it.
    obtain ⟨hwf₁, hlinked, hnodup', hfresh, -⟩ := hwf.cut
      (show seq i = before ++ [g] ++ r₁ ++ (dest :: r₂ ++ f :: after) by simp [hseq]) rfl
    obtain ⟨hwf₂, -⟩ := hwf₁.paste (i := i) (show _ = before ++ g :: dest :: r₂ ++ f :: after by simp)
      hlinked hnodup' hfresh (f := n) (g := q) (by rw [hr₁]; rfl) (by rw [hq, List.getLast?_concat]) rfl
    have hlast : preceding (lists i) (before ++ g :: dest :: r₂) = p := by
      rw [hp, ← List.cons_append, ← List.append_assoc, preceding, List.getLastD_concat]
    have hlast' : preceding (lists i) (before ++ [g]) = g := by rw [preceding, List.getLastD_concat]
    rw [Function.update_idem, hlast, hlast', List.cons_append, following_cons, following_cons] at hwf₂
    have hsame : paste (join m p n) q f g dest = paste (join m g dest) p n q f := by
      rw [paste_eq_join hdf.symm hgq.symm, paste_eq_join hnf hpq, join_comm _ hgq.symm hdf.symm,
        join_comm m hgp.symm hdn.symm]
    refine ⟨paste (join m p n) q f g dest, ?_, ?_⟩
    · simpa using hrun
    · rw [hsame]
      simpa [hr₁] using hwf₂

end pintos.prj0_2
