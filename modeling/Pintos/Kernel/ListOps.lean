import Pintos.Kernel.ListSequences
import Mathlib.Data.Option.Basic

/-!
# What the list operations do to the sequences

One lemma an operation; then runs of operations.
-/

open links

namespace pintos.kernel

variable {Node ι : Type} [DecidableEq Node] [DecidableEq ι] {m m' : Memory Node} {lists : ι → list Node}
  {seq : ι → List Node} {i j : ι} {before r after : List Node} {elem e : Node}

section Positions

omit [DecidableEq Node] [DecidableEq ι]

theorem exists_position {l : list Node} {elems : List Node} {x : Node} (hx : x ∈ elems ++ [l.tail]) :
    ∃ before after, elems = before ++ after ∧ following l after = x := by
  obtain hx | hx := List.mem_append.mp hx
  · obtain ⟨before, after, rfl⟩ := List.append_of_mem hx
    exact ⟨before, x :: after, rfl, rfl⟩
  · exact ⟨elems, [], (List.append_nil _).symm, (List.mem_singleton.mp hx).symm⟩

theorem following_mem_tail (l : list Node) (before after : List Node) :
    following l after ∈ before ++ after ++ [l.tail] := by
  rw [List.append_assoc]
  exact List.mem_append_right _ (List.mem_of_head? (head?_following l after))

theorem WellFormed.guard_of_mem (hwf : WellFormed m lists seq) {x : Node} (hx : x ∈ seq i ++ [(lists i).tail]) :
    (is_interior m x || is_tail m x) = true := by
  obtain ⟨before, after, hseq, rfl⟩ := exists_position hx
  exact hwf.following_guard hseq

theorem WellFormed.head_not_mem (hwf : WellFormed m lists seq) (i : ι) : (lists i).head ∉ seq i :=
  fun hmem => (List.nodup_cons.mp (hwf.nodup i)).1 (List.mem_append_left _ hmem)

theorem WellFormed.tail_not_mem (hwf : WellFormed m lists seq) (i : ι) : (lists i).tail ∉ seq i := by
  intro hmem
  have happart := (List.nodup_append.mp (hwf.nodup i)).2.2
  exact happart _ (List.mem_cons_of_mem _ hmem) _ (List.mem_singleton_self _) rfl

theorem WellFormed.seq_nodup (hwf : WellFormed m lists seq) (i : ι) : (seq i).Nodup :=
  (List.nodup_cons.mp (List.nodup_append.mp (hwf.nodup i)).1).2

theorem WellFormed.list_begin (hwf : WellFormed m lists seq) (i : ι) :
    list_begin m (lists i) = some (following (lists i) (seq i)) :=
  (hwf.neighbours (List.nil_append (seq i)).symm).1

theorem WellFormed.list_rbegin (hwf : WellFormed m lists seq) (i : ι) :
    list_rbegin m (lists i) = some (preceding (lists i) (seq i)) :=
  (hwf.neighbours (List.append_nil (seq i)).symm).2

end Positions

section Insert

theorem list_insert_run (hwf : WellFormed m lists seq) (hseq : seq i = before ++ after)
    (hfresh : Fresh lists seq elem) :
    ∃ m', list_insert m (following (lists i) after) elem = some m' ∧
      WellFormed m' lists (Function.update seq i (before ++ elem :: after)) ∧
      ∀ x, x ∉ nodes (lists i) (seq i) → x ≠ elem → m' x = m x := by
  have hprev := (hwf.neighbours hseq).2
  have hne : following (lists i) after ≠ elem := fun heq => hfresh i (heq ▸ hseq ▸ following_mem _ _ _)
  obtain ⟨hwf', hframe⟩ := hwf.paste hseq (.singleton elem) (List.nodup_singleton elem)
    (fun x hx => List.mem_singleton.mp hx ▸ hfresh) rfl rfl rfl
  refine ⟨_, ?_, ?_, fun x hx hxe => hframe x hx fun hmem => hxe (List.mem_singleton.mp hmem)⟩
  · have hprev' : (set_next (set_prev m elem (m (following (lists i) after)).prev) elem
        (some (following (lists i) after)) (following (lists i) after)).prev =
        some (preceding (lists i) before) := by
      simp [hne, hprev]
    simp only [list_insert, hwf.following_guard hseq, guard_true, hprev', Option.bind_eq_bind, Option.pure_def,
      Option.bind_some]
    rw [hprev]
    rfl
  · simpa using hwf'

theorem list_push_front_run (hwf : WellFormed m lists seq) (hfresh : Fresh lists seq elem) :
    ∃ m', list_push_front m (lists i) elem = some m' ∧
      WellFormed m' lists (Function.update seq i (elem :: seq i)) ∧
      ∀ x, x ∉ nodes (lists i) (seq i) → x ≠ elem → m' x = m x := by
  obtain ⟨m', hrun, hwf', hframe⟩ := list_insert_run hwf (List.nil_append (seq i)).symm hfresh
  refine ⟨m', ?_, hwf', hframe⟩
  rw [list_push_front, hwf.list_begin i]
  exact hrun

theorem list_push_back_run (hwf : WellFormed m lists seq) (hfresh : Fresh lists seq elem) :
    ∃ m', list_push_back m (lists i) elem = some m' ∧
      WellFormed m' lists (Function.update seq i (seq i ++ [elem])) ∧
      ∀ x, x ∉ nodes (lists i) (seq i) → x ≠ elem → m' x = m x :=
  list_insert_run hwf (List.append_nil (seq i)).symm hfresh

omit [DecidableEq ι] in
/-- The loop of `list_insert_ordered` stops where the element belongs. -/
theorem list_insert_ordered_loop_run (less : Node → Node → Bool) (elem : Node) (hwf : WellFormed m lists seq)
    (hseq : seq i = before ++ after) :
    ∃ passed rest, after = passed ++ rest ∧ list_insert_ordered less elem after = passed ++ elem :: rest ∧
      ∀ n, after.length < n →
        list_insert_ordered_loop m less elem (lists i).tail n (some (following (lists i) after)) =
          some (following (lists i) rest) := by
  induction after generalizing before with
  | nil =>
    refine ⟨[], [], rfl, rfl, ?_⟩
    intro n hn
    obtain ⟨n, rfl⟩ := Nat.exists_eq_succ_of_ne_zero (Nat.ne_of_gt hn)
    exact if_pos rfl
  | cons a rest ih =>
    have htail : a ≠ (lists i).tail := by
      intro heq
      apply hwf.tail_not_mem i
      rw [hseq, ← heq]
      exact List.mem_append_right _ List.mem_cons_self
    have hseq' : seq i = (before ++ [a]) ++ rest := by
      rw [hseq, List.append_assoc, List.singleton_append]
    by_cases hless : less elem a = true
    · refine ⟨[], a :: rest, rfl, if_pos hless, ?_⟩
      intro n hn
      obtain ⟨n, rfl⟩ := Nat.exists_eq_succ_of_ne_zero (Nat.ne_of_gt (Nat.zero_lt_of_lt hn))
      rw [list_insert_ordered_loop, following_cons, if_neg (fun h => htail (Option.some.inj h))]
      simp [hless]
    · obtain ⟨passed, rest', hrest, hordered, hloop⟩ := ih hseq'
      refine ⟨a :: passed, rest', by rw [hrest]; rfl, ?_, ?_⟩
      · rw [list_insert_ordered, if_neg hless, hordered]
        rfl
      · intro n hn
        obtain ⟨n, rfl⟩ := Nat.exists_eq_succ_of_ne_zero (Nat.ne_of_gt (Nat.zero_lt_of_lt hn))
        rw [list_insert_ordered_loop, following_cons, if_neg (fun h => htail (Option.some.inj h))]
        have hnext := (hwf.neighbours hseq').1
        rw [preceding, List.getLastD_concat] at hnext
        have hstep : list_next m a = some (following (lists i) rest) := by
          simp [list_next, hwf.interior hseq, hnext]
        simpa [hless, hstep] using hloop n (Nat.lt_of_succ_lt_succ hn)

theorem list_insert_ordered_run (less : Node → Node → Bool) (hwf : WellFormed m lists seq)
    (hfresh : Fresh lists seq elem) :
    ∃ m', (∀ n, (seq i).length < n → list_insert_ordered_links m n less (lists i) elem = some m') ∧
      WellFormed m' lists (Function.update seq i (list_insert_ordered less elem (seq i))) ∧
      ∀ x, x ∉ nodes (lists i) (seq i) → x ≠ elem → m' x = m x := by
  obtain ⟨passed, rest, hseq, hordered, hloop⟩ :=
    list_insert_ordered_loop_run less elem hwf (List.nil_append (seq i)).symm
  obtain ⟨m', hrun, hwf', hframe⟩ := list_insert_run hwf hseq hfresh
  refine ⟨m', ?_, hordered ▸ hwf', hframe⟩
  intro n hn
  rw [list_insert_ordered_links, hwf.list_begin i, hloop n hn]
  exact hrun

end Insert

section Remove

theorem list_remove_run (hwf : WellFormed m lists seq) (hseq : seq i = before ++ e :: after) :
    ∃ m', list_remove m e = some (m', following (lists i) after) ∧
      WellFormed m' lists (Function.update seq i (before ++ after)) ∧
      ∀ x, x ∉ nodes (lists i) (seq i) → m' x = m x := by
  have hseq' : seq i = (before ++ [e]) ++ after := by
    rw [hseq, List.append_assoc, List.singleton_append]
  have hprev := (hwf.neighbours hseq).2
  have hnext := (hwf.neighbours hseq').1
  rw [preceding, List.getLastD_concat] at hnext
  change (m e).prev = _ at hprev
  obtain ⟨hwf', -, -, -, hframe⟩ := hwf.cut hseq' rfl
  have hne : e ≠ preceding (lists i) before := by
    intro heq
    have hnodup := hwf.nodup i
    rw [hseq', nodes_split₃] at hnodup
    have hmem := List.mem_of_getLast? (getLast?_preceding (lists i) before)
    exact (List.nodup_append.mp (List.nodup_append.mp hnodup).1).2.2 _ hmem e
      (List.mem_singleton_self e) heq.symm
  refine ⟨_, ?_, hwf', hframe⟩
  simp [list_remove, hwf.interior hseq, hprev, hnext, hne, join]

omit [DecidableEq ι] in
theorem list_empty_eq (hwf : WellFormed m lists seq) (i : ι) : list_empty m (lists i) = (seq i).isEmpty := by
  rw [list_empty, hwf.list_begin i]
  cases hseq : seq i with
  | nil => simp [following]
  | cons a rest =>
    have hne : a ≠ (lists i).tail := fun heq => hwf.tail_not_mem i (heq ▸ hseq ▸ List.mem_cons_self)
    simp [following, hne]

theorem list_pop_front_run (hwf : WellFormed m lists seq) (hseq : seq i = e :: after) :
    ∃ m', list_pop_front m (lists i) = some (m', e) ∧ WellFormed m' lists (Function.update seq i after) ∧
      ∀ x, x ∉ nodes (lists i) (seq i) → m' x = m x := by
  have hpos : seq i = [] ++ e :: after := hseq
  obtain ⟨m', hrun, hwf', hframe⟩ := list_remove_run hwf hpos
  refine ⟨m', ?_, hwf', hframe⟩
  have hbegin : (m (lists i).head).next = some e := by
    have := hwf.list_begin i
    rwa [hseq] at this
  have hempty : list_empty m (lists i) = false := by
    rw [list_empty_eq hwf, hseq]
    rfl
  simp [list_pop_front, list_front, hempty, hbegin, hrun]

theorem list_pop_back_run (hwf : WellFormed m lists seq) (hseq : seq i = before ++ [e]) :
    ∃ m', list_pop_back m (lists i) = some (m', e) ∧ WellFormed m' lists (Function.update seq i before) ∧
      ∀ x, x ∉ nodes (lists i) (seq i) → m' x = m x := by
  obtain ⟨m', hrun, hwf', hframe⟩ := list_remove_run hwf hseq
  refine ⟨m', ?_, List.append_nil before ▸ hwf', hframe⟩
  have hend : (m (lists i).tail).prev = some e := by
    have hback := hwf.list_rbegin i
    rwa [hseq, preceding, List.getLastD_concat] at hback
  have hempty : list_empty m (lists i) = false := by
    rw [list_empty_eq hwf, hseq]
    cases before <;> rfl
  simp [list_pop_back, list_back, hempty, hend, hrun]

end Remove

section Splice

theorem list_splice_run {c d : List Node} (hwf : WellFormed m lists seq) (hseq : seq i = before ++ r ++ after)
    (hdest : Function.update seq i (before ++ after) j = c ++ d) :
    ∃ m', list_splice m (following (lists j) d) (following (lists i) (r ++ after)) (following (lists i) after) =
        some m' ∧
      WellFormed m' lists (Function.update (Function.update seq i (before ++ after)) j (c ++ r ++ d)) ∧
      ∀ x, x ∉ nodes (lists i) (seq i) → x ∉ nodes (lists j) (seq j) → m' x = m x := by
  have hguard : (is_interior m (following (lists j) d) || is_tail m (following (lists j) d)) = true := by
    have hmem := following_mem_tail (lists j) c d
    rw [← hdest] at hmem
    obtain rfl | hj := eq_or_ne j i
    · rw [Function.update_self] at hmem
      apply hwf.guard_of_mem (i := j)
      rw [hseq]
      simp only [List.mem_append] at hmem ⊢
      tauto
    · rw [Function.update_of_ne hj] at hmem
      exact hwf.guard_of_mem hmem
  obtain rfl | hne := eq_or_ne r []
  · -- Nothing is moved.
    have hsame : Function.update seq i (before ++ after) = seq := by
      rw [← List.append_nil before, ← hseq, Function.update_eq_self]
    rw [hsame] at hdest ⊢
    rw [List.append_nil, ← hdest, Function.update_eq_self]
    refine ⟨m, ?_, hwf, fun _ _ _ => rfl⟩
    simp [list_splice, hguard]
  obtain ⟨f, r', rfl⟩ := List.exists_cons_of_ne_nil hne
  obtain ⟨g, hg⟩ : ∃ g, (f :: r').getLast? = some g := ⟨_, List.getLast?_eq_some_getLast hne⟩
  obtain ⟨r'', hr''⟩ := List.getLast?_eq_some_iff.mp hg
  -- Taking the segment out.
  obtain ⟨hwf₁, hlinked, hnodup, hfresh, hframe₁⟩ := hwf.cut hseq rfl
  obtain ⟨hwf₂, hframe₂⟩ := hwf₁.paste hdest hlinked hnodup hfresh rfl hg rfl
  have hseqf : seq i = before ++ f :: (r' ++ after) := by simp [hseq]
  have hseqg : seq i = (before ++ r'') ++ g :: after := by simp [hseq, hr'']
  have hseqr : seq i = (before ++ f :: r') ++ after := hseq
  have hlast : preceding (lists i) (before ++ f :: r') = g := by
    rw [hr'', ← List.append_assoc, preceding, List.getLastD_concat]
  have hfprev := (hwf.neighbours hseqf).2
  obtain ⟨hgnext, hlprev⟩ := hwf.neighbours hseqr
  rw [hlast] at hgnext hlprev
  change (m f).prev = _ at hfprev
  have hall := hwf.nodup i
  rw [hseq, nodes_split₃] at hall
  obtain ⟨hn₁r, -, hapart⟩ := List.nodup_append.mp hall
  have hpmem := List.mem_of_getLast? (getLast?_preceding (lists i) before)
  have hnmem := List.mem_of_head? (head?_following (lists i) after)
  have hgmem : g ∈ f :: r' := List.mem_of_getLast? hg
  have hfl : f ≠ following (lists i) after := hapart f (List.mem_append_right _ List.mem_cons_self) _ hnmem
  have hgp : g ≠ preceding (lists i) before :=
    ((List.nodup_append.mp hn₁r).2.2 _ hpmem g hgmem).symm
  have hfp : f ≠ preceding (lists i) before :=
    ((List.nodup_append.mp hn₁r).2.2 _ hpmem f List.mem_cons_self).symm
  have hstep : list_prev m (following (lists i) after) = some g := by
    rw [list_prev, hwf.following_guard hseqr, hlprev]
    rfl
  have hbprev := (hwf₁.neighbours hdest).2
  have hbf : following (lists j) d ≠ f := by
    intro heq
    exact hfresh f List.mem_cons_self j (heq ▸ hdest ▸ following_mem _ _ _)
  refine ⟨_, ?_, hwf₂, ?_⟩
  · simp only [list_splice, hguard, guard_true, List.cons_append, following_cons, hfl, if_false, hstep,
      hwf.interior hseqf, hwf.interior hseqg, hfprev, hgnext, Option.bind_eq_bind, Option.pure_def,
        Option.bind_some,
      set_next_other _ _ hgp, set_next_prev]
    have hcut : set_prev (set_next m (preceding (lists i) before) (some (following (lists i) after)))
        (following (lists i) after) (some (preceding (lists i) before)) =
        join m (preceding (lists i) before) (following (lists i) after) := rfl
    rw [hcut, hbprev]
    simp only [set_prev_other _ _ hbf, hbprev, Option.bind_some]
    rfl
  · intro x hi hj
    have hold : x ∉ nodes (lists j) (Function.update seq i (before ++ after) j) := by
      obtain rfl | hji := eq_or_ne j i
      · rw [Function.update_self]
        intro hmem
        apply hi
        rw [hseq]
        simp only [mem_nodes, List.mem_append] at hmem ⊢
        tauto
      · rwa [Function.update_of_ne hji]
    have hxr : x ∉ f :: r' := by
      intro hmem
      apply hi
      rw [hseq, mem_nodes]
      exact Or.inr (Or.inl (List.mem_append_left _ (List.mem_append_right _ hmem)))
    rw [hframe₂ x hold hxr, hframe₁ x hi]

end Splice

section Reverse

omit [DecidableEq ι] in
/-- The loop of `list_reverse` exchanges the links of the elements. -/
theorem list_reverse_loop_run (l : list Node) : ∀ {after : List Node} {m : Memory Node},
    after.Nodup → l.tail ∉ after → Linked m (after ++ [l.tail]) →
    ∃ m', (∀ n, after.length < n → list_reverse_loop l.tail n m (some (following l after)) = some m') ∧
      (∀ x ∈ after, m' x = ⟨(m x).next, (m x).prev⟩) ∧ ∀ x, x ∉ after → m' x = m x := by
  intro after
  induction after with
  | nil =>
    intro m _ _ _
    refine ⟨m, ?_, ?_, fun _ _ => rfl⟩
    · intro n hn
      obtain ⟨n, rfl⟩ := Nat.exists_eq_succ_of_ne_zero (Nat.ne_of_gt hn)
      exact if_pos rfl
    · intro x hx
      contradiction
  | cons a rest ih =>
    intro m hnodup htail hlinked
    obtain ⟨ha, hnodup'⟩ := List.nodup_cons.mp hnodup
    have hat : a ≠ l.tail := fun heq => htail (heq ▸ List.mem_cons_self)
    have hsplit : Linked m ([a] ++ (rest ++ [l.tail])) := hlinked
    obtain ⟨-, hrest, hjoin⟩ := Linked.append_iff.mp hsplit
    obtain ⟨hnext, -⟩ := hjoin a rfl _ (head?_following l rest)
    have hother : ∀ x, x ≠ a → set_next (set_prev m a (m a).next) a (m a).prev x = m x := by
      intro x hx
      rw [set_next_other _ _ hx, set_prev_other _ _ hx]
    have hrest' : Linked (set_next (set_prev m a (m a).next) a (m a).prev) (rest ++ [l.tail]) := by
      apply hrest.congr
      · intro x hx
        rw [List.dropLast_concat] at hx
        rw [hother x fun heq => ha (heq ▸ hx)]
      · intro x hx
        have hmem := List.mem_of_mem_tail hx
        rw [hother x]
        rintro rfl
        obtain hmem | hmem := List.mem_append.mp hmem
        · exact ha hmem
        · exact hat (List.mem_singleton.mp hmem)
    obtain ⟨m', hrun, hswap, hframe⟩ := ih hnodup'
      (fun h => htail (List.mem_cons_of_mem a h)) hrest'
    refine ⟨m', ?_, ?_, ?_⟩
    · intro n hn
      obtain ⟨n, rfl⟩ := Nat.exists_eq_succ_of_ne_zero (Nat.ne_of_gt (Nat.zero_lt_of_lt hn))
      rw [list_reverse_loop, following_cons, if_neg fun h => hat (Option.some.inj h)]
      simpa [hnext] using hrun n (Nat.lt_of_succ_lt_succ hn)
    · intro x hx
      obtain rfl | hx := List.mem_cons.mp hx
      · rw [hframe x ha]
        exact Link.ext (by simp) (by simp)
      · rw [hswap x hx, hother x fun heq => ha (heq ▸ hx)]
    · intro x hx
      obtain ⟨hxa, hx⟩ := not_or.mp fun h => hx (List.mem_cons.mpr h)
      rw [hframe x hx, hother x hxa]

theorem list_reverse_run (hwf : WellFormed m lists seq) (i : ι) :
    ∃ m', (∀ n, (seq i).length < n → list_reverse m n (lists i) = some m') ∧
      WellFormed m' lists (Function.update seq i (seq i).reverse) ∧
      ∀ x, x ∉ nodes (lists i) (seq i) → m' x = m x := by
  obtain hnil | hne := eq_or_ne (seq i) []
  · have hempty : list_empty m (lists i) = true := by
      rw [list_empty_eq hwf, hnil]
      rfl
    refine ⟨m, fun _ _ => by simp [list_reverse, hempty], ?_, fun _ _ => rfl⟩
    rwa [hnil, List.reverse_nil, ← hnil, Function.update_eq_self]
  have hempty : list_empty m (lists i) = false := by
    rw [list_empty_eq hwf]
    exact List.isEmpty_eq_false_iff.mpr hne
  have hlinked := hwf.linked i
  have hnodup := hwf.nodup i
  rw [← List.append_nil (seq i), nodes_split, List.nil_append] at hlinked hnodup
  obtain ⟨hlinkedh, -, -⟩ := Linked.append_iff.mp hlinked
  have hlinkedt : Linked m (seq i ++ [(lists i).tail]) := List.IsChain.tail hlinked
  have hlinkeds : Linked m (seq i) := List.IsChain.tail hlinkedh
  obtain ⟨m₁, hloop, hswap, hframe⟩ :=
    list_reverse_loop_run (lists i) (hwf.seq_nodup i) (hwf.tail_not_mem i) hlinkedt
  -- The first and the last element.
  obtain ⟨x, hx⟩ : ∃ x, (seq i).head? = some x := ⟨_, List.head?_eq_some_head hne⟩
  obtain ⟨y, hy⟩ : ∃ y, (seq i).getLast? = some y := ⟨_, List.getLast?_eq_some_getLast hne⟩
  have hxmem := List.mem_of_head? hx
  have hymem := List.mem_of_getLast? hy
  have hbegin : (m (lists i).head).next = some x := by
    have hfirst := hwf.list_begin i
    obtain ⟨rest, hrest⟩ := List.head?_eq_some_iff.mp hx
    rwa [hrest] at hfirst
  have hend : (m (lists i).tail).prev = some y := by
    have hback := hwf.list_rbegin i
    rwa [preceding, List.getLastD_eq_getLast?, hy] at hback
  have hxprev : (m x).prev = some (lists i).head := by
    obtain ⟨rest, hrest⟩ := List.head?_eq_some_iff.mp hx
    have hpos : seq i = [] ++ x :: rest := hrest
    exact (hwf.neighbours hpos).2
  have hynext : (m y).next = some (lists i).tail := by
    obtain ⟨before, hbefore⟩ := List.getLast?_eq_some_iff.mp hy
    have hpos : seq i = (before ++ [y]) ++ [] := by rw [hbefore, List.append_nil]
    have hnext := (hwf.neighbours hpos).1
    rwa [preceding, List.getLastD_concat] at hnext
  have hhead := hwf.head_not_mem i
  have htail := hwf.tail_not_mem i
  have hht := hwf.head_ne_tail i i
  have hxh : x ≠ (lists i).head := fun heq => hhead (heq ▸ hxmem)
  have hyt : y ≠ (lists i).tail := fun heq => htail (heq ▸ hymem)
  have hxt : x ≠ (lists i).tail := fun heq => htail (heq ▸ hxmem)
  have hyh : y ≠ (lists i).head := fun heq => hhead (heq ▸ hymem)
  have hmh : m₁ (lists i).head = m (lists i).head := hframe _ hhead
  have hmt : m₁ (lists i).tail = m (lists i).tail := hframe _ htail
  -- The ends of the reversed elements meet the header elements.
  have hrev : Linked m₁ (seq i).reverse := hlinkeds.reverse hswap
  have hrevnodup : ([(lists i).head] ++ (seq i).reverse ++ [(lists i).tail]).Nodup := by
    have hperm : ([(lists i).head] ++ (seq i).reverse ++ [(lists i).tail]).Perm
        ([(lists i).head] ++ seq i ++ [(lists i).tail]) :=
      (((List.reverse_perm (seq i)).append_left _).append_right _)
    exact hperm.nodup_iff.mpr hnodup
  have hfirst : Linked (join m₁ (lists i).head y) ([(lists i).head] ++ (seq i).reverse) :=
    Linked.join (.singleton _) hrev rfl (by rw [List.head?_reverse, hy]) (List.nodup_append.mp hrevnodup).1
  have hlist : Linked (join (join m₁ (lists i).head y) x (lists i).tail)
      ([(lists i).head] ++ (seq i).reverse ++ [(lists i).tail]) := by
    refine hfirst.join (.singleton _) ?_ rfl hrevnodup
    rw [List.getLast?_append, List.getLast?_reverse, hx]
    rfl
  have hrun : ∀ n, (seq i).length < n →
      list_reverse m n (lists i) = some (join (join m₁ (lists i).head y) x (lists i).tail) := by
    intro n hn
    rw [list_reverse, hempty]
    simp only [Bool.false_eq_true, if_false, hwf.list_begin i, hloop n hn, Option.bind_eq_bind,
      Option.bind_some,
      Option.pure_def, hmh, hmt, hbegin, hend, set_prev_next, set_next_next_self, set_prev_prev_self]
    have hty : (set_prev (set_next m₁ (lists i).head (some y)) (lists i).tail (some x) y).prev =
        some (lists i).tail := by
      rw [set_prev_other _ _ hyt, set_next_prev, hswap y hymem]
      exact hynext
    have htx : (set_next m₁ (lists i).head (some y) x).next = some (lists i).head := by
      rw [set_next_other _ _ hxh, hswap x hxmem]
      exact hxprev
    rw [hty, htx]
    congr 1
    funext z
    apply Link.ext
    · obtain rfl | hzt := eq_or_ne z (lists i).tail
      · simp [join, hyt.symm]
      · obtain rfl | hzy := eq_or_ne z y
        · simp [join, hzt]
        · simp [join, hzt, hzy]
    · obtain rfl | hzx := eq_or_ne z x
      · simp [join]
      · obtain rfl | hzh := eq_or_ne z (lists i).head
        · simp [join, hzx]
        · simp [join, hzx, hzh]
  have hframe' : ∀ z, z ∉ nodes (lists i) (seq i) → join (join m₁ (lists i).head y) x
      (lists i).tail z = m z := by
    intro z hz
    simp only [mem_nodes, not_or] at hz
    have hzx : z ≠ x := fun heq => hz.2.1 (heq ▸ hxmem)
    have hzy : z ≠ y := fun heq => hz.2.1 (heq ▸ hymem)
    rw [join_other _ hzx hz.2.2, join_other _ hz.1 hzy, hframe z hz.2.1]
  refine ⟨_, hrun, hwf.replace ?_ ?_ ?_ ?_ ?_ ?_, hframe'⟩
  · simpa [nodes] using hlist
  · rw [join_prev_other _ hht, join_prev_other _ hyh.symm, hmh]
    exact hwf.head_prev i
  · rw [join_next_other _ hxt.symm, join_next_other _ hht.symm, hmt]
    exact hwf.tail_next i
  · simpa [nodes] using hrevnodup
  · intro z hz
    exact Or.inl (List.mem_reverse.mp hz)
  · intro j hj z hz
    exact hframe' z fun hmem => hj (hwf.disjoint j i z hz hmem)

end Reverse

end pintos.kernel
