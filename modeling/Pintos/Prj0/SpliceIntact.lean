import Pintos.Prj0.ListIntact

/-!
# Which splices keep the lists intact

The command puts no order on the positions of a range, and does not check that the range
goes to a place outside of it.
-/

open links pintos.kernel state_error

namespace pintos.prj0_2

variable {Node ι : Type} [DecidableEq Node] [DecidableEq ι] {m m' : Memory Node} {lists : ι → kernel.list Node}
  {seq seq' : ι → List Node} {i j : ι} {data : Node → BitVec 32} {x : Node} {pos start end_ : Nat}
  {before r after c d : List Node}

omit [DecidableEq Node] [DecidableEq ι] in
/-- A range of positions of a list. -/
theorem split_range {l : List Node} {p q : Nat} (hpq : p ≤ q) (hq : q ≤ l.length) :
    ∃ before r after, l = before ++ r ++ after ∧ l.drop p = r ++ after ∧ l.drop q = after ∧ before.length = p ∧
      p + r.length = q := by
  have hdrop : (l.drop p).drop (q - p) = l.drop q := by
    rw [List.drop_drop, Nat.add_sub_cancel' hpq]
  have hsplit : l.drop p = (l.drop p).take (q - p) ++ l.drop q := by
    rw [← hdrop, List.take_append_drop]
  refine ⟨l.take p, (l.drop p).take (q - p), l.drop q, ?_, hsplit, rfl, ?_, ?_⟩
  · rw [List.append_assoc, ← hsplit, List.take_append_drop]
  · rw [List.length_take]
    omega
  · rw [List.length_take, List.length_drop]
    omega

omit [DecidableEq ι] in
/-- The command with positions that are all in the lists. -/
theorem splice_exec (hwf : WellFormed m lists seq) (hpos : pos ≤ (seq j).length)
    (hstart : start ≤ (seq i).length) (hend : end_ ≤ (seq i).length) (n : Nat) :
    (ListCommand.list_splice j pos i start end_).exec lists data n m =
      list_splice (following (lists j) ((seq j).drop pos)) (following (lists i) ((seq i).drop start))
        (following (lists i) ((seq i).drop end_)) m := by
  rw [ListCommand.exec, begin_bind hwf, walk_bind hwf, if_pos hpos, begin_bind hwf, begin_bind hwf,
    walk_bind hwf,
    if_pos hstart, walk_bind hwf, if_pos hend]

omit [DecidableEq Node] [DecidableEq ι] in
theorem dest_guard (hwf : WellFormed m lists seq) (j : ι) (pos : Nat) :
    (is_interior m (following (lists j) ((seq j).drop pos)) || is_tail m
    (following (lists j) ((seq j).drop pos))) =
      true :=
  hwf.following_guard ((seq j).take_append_drop pos).symm

omit [DecidableEq ι] in
/-- An empty range. -/
theorem splice_empty (hwf : WellFormed m lists seq) (hpos : pos ≤ (seq j).length)
    (hstart : start ≤ (seq i).length) :
    Intact lists data m seq (.list_splice j pos i start start) := by
  refine intact_of_ok (fun n => ?_) hwf fun x => Iff.rfl
  rw [splice_exec hwf hpos hstart hstart, list_splice, ASSERT_bind, if_pos (dest_guard hwf j pos), if_pos rfl]
  rfl

omit [DecidableEq Node] in
/-- The elements after a range has moved. -/
theorem splice_keeps (hseq : seq i = before ++ r ++ after)
    (hdest : Function.update seq i (before ++ after) j = c ++ d) :
    Holds (Function.update (Function.update seq i (before ++ after)) j (c ++ r ++ d)) x ↔ Holds seq x := by
  have hmoved : Holds (Function.update (Function.update seq i (before ++ after)) j (c ++ r ++ d)) x ↔
      Holds (Function.update seq i (before ++ after)) x ∨ x ∈ r := by
    rw [holds_update, @holds_iff _ _ (Function.update seq i (before ++ after)) x _ j, hdest]
    simp only [List.mem_append]
    rw [@or_right_comm (x ∈ c), or_right_comm]
  rw [hmoved, holds_update, holds_iff i, hseq]
  simp only [List.mem_append]
  rw [@or_right_comm (x ∈ before) (x ∈ r), or_right_comm]

/-- A range that goes to a place outside of it. -/
theorem splice_outside (hwf : WellFormed m lists seq) (hpos : pos ≤ (seq j).length) (hlt : start < end_)
    (hend : end_ ≤ (seq i).length) (hout : j = i → start ≤ pos → end_ ≤ pos) :
    Intact lists data m seq (.list_splice j pos i start end_) := by
  obtain ⟨before, r, after, hseq, hdrops, hdrope, hbefore, hr⟩ := split_range (Nat.le_of_lt hlt) hend
  have hdest : ∃ c d, Function.update seq i (before ++ after) j = c ++ d ∧
      following (lists j) d = following (lists j) ((seq j).drop pos) := by
    by_cases hji : j = i
    · subst hji
      rw [Function.update_self]
      by_cases hfront : pos < start
      · refine ⟨before.take pos, before.drop pos ++ after, ?_, ?_⟩
        · rw [← List.append_assoc, List.take_append_drop]
        · rw [hseq, List.append_assoc, List.drop_append_of_le_length (by omega)]
          obtain ⟨y, rest, hy⟩ := List.exists_cons_of_ne_nil
            (show before.drop pos ≠ [] by rw [ne_eq, List.drop_eq_nil_iff]; omega)
          rw [hy]
          rfl
      · have hback := hout rfl (Nat.not_lt.mp hfront)
        refine ⟨before ++ after.take (pos - end_), after.drop (pos - end_), ?_, ?_⟩
        · rw [List.append_assoc, List.take_append_drop]
        · rw [← hdrope, List.drop_drop, Nat.add_sub_cancel' hback]
    · exact ⟨(seq j).take pos, (seq j).drop pos, by rw [Function.update_of_ne hji, List.take_append_drop], rfl⟩
  obtain ⟨c, d, hdest, hfollowing⟩ := hdest
  obtain ⟨m', hrun, hwf', -⟩ := list_splice_run hwf hseq hdest
  refine intact_of_ok (fun n => ?_) hwf' fun x => splice_keeps hseq hdest
  rw [splice_exec hwf hpos (Nat.le_trans (Nat.le_of_lt hlt) hend) hend, hdrops, hdrope, ← hfollowing]
  exact list_splice_of_kernel hrun

omit [DecidableEq ι] in
/-- A range that goes to a place inside of it. -/
theorem splice_inside (hwf : WellFormed m lists seq) (hstart : start ≤ pos) (hpos : pos < end_)
    (hend : end_ ≤ (seq i).length) : ¬ Intact lists data m seq (.list_splice i pos i start end_) := by
  obtain ⟨before, r₁, back, hseq, hdrops, hdropp, hbefore, hr₁⟩ :=
    split_range hstart (Nat.le_trans (Nat.le_of_lt hpos) hend)
  obtain ⟨-, r, after, -, hdropp', hdrope, -, hr⟩ := split_range (Nat.le_of_lt hpos) hend
  obtain ⟨dest, r₂, rfl⟩ := List.exists_cons_of_ne_nil
    (show r ≠ [] by rintro rfl; simp at hr; omega)
  have hback : back = dest :: r₂ ++ after := hdropp.symm.trans hdropp'
  have hseq' : seq i = before ++ (r₁ ++ dest :: r₂) ++ after := by simp [hseq, hback]
  obtain ⟨m', hrun, hlost⟩ := list_splice_inside hwf hseq'
  refine not_intact_of_lost m' (fun n => ?_) fun seq' hwf' hkeeps => ?_
  · rw [splice_exec hwf (Nat.le_trans (Nat.le_of_lt hpos) hend)
      (Nat.le_trans hstart (Nat.le_trans (Nat.le_of_lt hpos) hend)) hend, hdrops, hdropp, hdrope, hback]
    simpa using hrun
  · obtain ⟨k, hk⟩ := (hkeeps dest).mpr ⟨i, by simp [hseq']⟩
    exact hlost seq' hwf' k hk

omit [DecidableEq Node] [DecidableEq ι] in
theorem drop_ne (hwf : WellFormed m lists seq) (hlt : end_ < start) (hstart : start ≤ (seq i).length) :
    following (lists i) ((seq i).drop start) ≠ following (lists i) ((seq i).drop end_) := by
  obtain ⟨before, r, after, hseq, hdrope, hdrops, -, hr⟩ := split_range (Nat.le_of_lt hlt) hstart
  obtain ⟨e, r', rfl⟩ := List.exists_cons_of_ne_nil (show r ≠ [] by rintro rfl; simp at hr; omega)
  have hnodup := hwf.nodup i
  rw [hseq, nodes_split₃] at hnodup
  rw [hdrops, hdrope]
  exact ((List.nodup_append.mp hnodup).2.2 e (by simp) _ (List.mem_of_head? (head?_following _ _))).symm

omit [DecidableEq ι] in
/-- A range from the tail backwards. -/
theorem splice_at_tail (hwf : WellFormed m lists seq) (hpos : pos ≤ (seq j).length)
    (hlt : end_ < (seq i).length) :
    Intact lists data m seq (.list_splice j pos i (seq i).length end_) := by
  have hseq := seq_split hlt
  have hne := drop_ne hwf hlt (Nat.le_refl _)
  refine intact_of_assert fun n => ?_
  rw [splice_exec hwf hpos (Nat.le_refl _) (Nat.le_of_lt hlt), list_splice, ASSERT_bind,
    if_pos (dest_guard hwf j pos),
    if_neg hne, ASSERT_bind, if_pos (dest_guard hwf i end_), ← List.getElem_cons_drop hlt, following_cons,
    follow_bind (elem_links hwf hseq).1, ASSERT_bind, List.drop_length, following, List.headD_nil, is_interior,
    hwf.tail_next i]
  simp

omit [DecidableEq ι] in
/-- A range backwards to the head. -/
theorem splice_at_head (hwf : WellFormed m lists seq) (hpos : pos ≤ (seq j).length) (hlt : 0 < start)
    (hstart : start < (seq i).length) : Intact lists data m seq (.list_splice j pos i start 0) := by
  have hseq := seq_split hstart
  have hne := drop_ne hwf hlt (Nat.le_of_lt hstart)
  have hbegin := (hwf.neighbours (List.nil_append (seq i)).symm).2
  refine intact_of_assert fun n => ?_
  rw [splice_exec hwf hpos (Nat.le_of_lt hstart) (Nat.zero_le _), list_splice, ASSERT_bind,
    if_pos (dest_guard hwf j pos), if_neg hne, ASSERT_bind, if_pos (dest_guard hwf i 0), List.drop_zero,
    follow_bind hbegin, ASSERT_bind, ← List.getElem_cons_drop hstart, following_cons,
      if_pos (hwf.interior hseq),
    ASSERT_bind, preceding, List.getLastD_nil, is_interior, hwf.head_prev i]
  simp

omit [DecidableEq Node] [DecidableEq ι] in
/-- A range with its end before its beginning. -/
theorem split_backwards (hend : 0 < end_) (hlt : end_ < start) (hstart : start < (seq i).length) :
    ∃ before g r f after, seq i = before ++ g :: (r ++ f :: after) ∧ (seq i).drop end_ = r ++ f :: after ∧
      (seq i).drop start = f :: after ∧ before.length + 1 = end_ ∧ end_ + r.length = start := by
  obtain ⟨front, r, back, hseq, hdrope, hdrops, hfront, hr⟩ :=
    split_range (Nat.le_of_lt hlt) (Nat.le_of_lt hstart)
  obtain ⟨before, g, rfl⟩ := exists_last (show front ≠ [] by rintro rfl; simp at hfront; omega)
  obtain ⟨f, after, rfl⟩ := List.exists_cons_of_ne_nil
    (show back ≠ [] by rintro rfl; rw [List.drop_eq_nil_iff] at hdrops; omega)
  refine ⟨before, g, r, f, after, by simp [hseq], hdrope, hdrops, ?_, hr⟩
  rw [← hfront, List.length_append, List.length_singleton]

/-- Between the end and the beginning, elements change places. -/
theorem splice_between (hwf : WellFormed m lists seq) (hend : 0 < end_) (hlow : end_ ≤ pos)
    (hhigh : pos < start)
    (hstart : start < (seq i).length) : Intact lists data m seq (.list_splice i pos i start end_) := by
  obtain ⟨before, g, r, f, after, hseq, hdrope, hdrops, hbefore, hr⟩ :=
    split_backwards hend (Nat.lt_of_le_of_lt hlow hhigh) hstart
  have hlt : pos - end_ < r.length := by omega
  have hsplit : r = r.take (pos - end_) ++ r[pos - end_] :: r.drop (pos - end_ + 1) := by
    rw [List.getElem_cons_drop, List.take_append_drop]
  have hdropp : (seq i).drop pos = r[pos - end_] :: (r.drop (pos - end_ + 1) ++ f :: after) := by
    rw [← List.cons_append, List.getElem_cons_drop, ← List.drop_append_of_le_length
      (Nat.le_of_lt hlt), ← hdrope,
      List.drop_drop, Nat.add_sub_cancel' hlow]
  rw [hsplit] at hseq hdrope
  obtain ⟨m', hrun, hwf'⟩ := list_splice_rotate hwf hseq
  refine intact_of_ok (fun n => ?_) hwf' fun x => holds_update_perm ?_
  · have hle := Nat.le_of_lt hstart
    rw [splice_exec hwf (by omega) hle (by omega), hdropp, hdrops, hdrope]
    exact hrun
  · rw [hseq]
    exact ((List.perm_append_comm.append_right (f :: after)).cons g).append_left before

omit [DecidableEq Node] [DecidableEq ι] in
theorem following_drop_append_mem (list : kernel.list Node) {l : List Node} (rest : List Node) {p : Nat}
    (hp : p < l.length) : following list (l.drop p ++ rest) ∈ l := by
  rw [← List.getElem_cons_drop hp]
  exact List.getElem_mem hp

omit [DecidableEq ι] in
/-- Elsewhere, the elements between the end and the beginning are lost. -/
theorem splice_backwards (hwf : WellFormed m lists seq) (hpos : pos ≤ (seq j).length) (hend : 0 < end_)
    (hlt : end_ < start) (hstart : start < (seq i).length) (hout : j = i → end_ ≤ pos → start ≤ pos) :
    ¬ Intact lists data m seq (.list_splice j pos i start end_) := by
  obtain ⟨before, g, r, f, after, hseq, hdrope, hdrops, hbefore, hr⟩ := split_backwards hend hlt hstart
  obtain ⟨n, r, rfl⟩ := List.exists_cons_of_ne_nil (show r ≠ [] by rintro rfl; simp at hr; omega)
  have hdest : following (lists j) ((seq j).drop pos) ∉ n :: r := by
    intro hmem
    have hj : following (lists j) ((seq j).drop pos) ∈ nodes (lists j) (seq j) := by
      have := following_mem (lists j) ((seq j).take pos) ((seq j).drop pos)
      rwa [List.take_append_drop] at this
    have hi : following (lists j) ((seq j).drop pos) ∈ nodes (lists i) (seq i) := by
      rw [hseq, mem_nodes]
      exact .inr (.inl (by simp only [List.mem_append, List.mem_cons] at hmem ⊢; tauto))
    obtain rfl := hwf.disjoint j i _ hj hi
    have hnodup := hwf.nodup j
    have hsplit : nodes (lists j) (seq j) =
        ((lists j).head :: before ++ [g]) ++ (n :: r ++ (f :: after ++ [(lists j).tail])) :=
        by simp [hseq, nodes]
    rw [hsplit] at hnodup
    obtain ⟨-, hnodupr, hapart⟩ := List.nodup_append.mp hnodup
    obtain ⟨-, -, hapart'⟩ := List.nodup_append.mp hnodupr
    by_cases hlow : pos < end_
    · -- the place is before the end
      have hmem' : following (lists j) ((seq j).drop pos) ∈ (lists j).head :: before ++ [g] := by
        have hlt : pos < (before ++ [g]).length := by
          rw [List.length_append, List.length_singleton]
          omega
        rw [hseq, List.append_cons before, List.drop_append_of_le_length (Nat.le_of_lt hlt)]
        exact List.mem_cons_of_mem _ (following_drop_append_mem _ _ hlt)
      exact hapart _ hmem' _ (List.mem_append_left _ hmem) rfl
    · have hhigh := hout rfl (Nat.not_lt.mp hlow)
      have hmem' : following (lists j) ((seq j).drop pos) ∈ f :: after ++ [(lists j).tail] := by
        rw [← Nat.add_sub_cancel' hhigh, ← List.drop_drop, hdrops]
        have hmem' := following_mem_tail (lists j) ((f :: after).take (pos - start))
            ((f :: after).drop (pos - start))
        rwa [List.take_append_drop] at hmem'
      exact hapart' _ hmem _ hmem' rfl
  obtain ⟨m', hrun, hlost⟩ := list_splice_reversed hwf hseq (dest_guard hwf j pos) hdest
  refine not_intact_of_lost m' (fun k => ?_) fun seq' hwf' hkeeps => ?_
  · rw [splice_exec hwf hpos (Nat.le_of_lt hstart) (by omega), hdrops, hdrope]
    exact hrun
  · obtain ⟨k, hk⟩ := (hkeeps n).mpr ⟨i, by simp [hseq]⟩
    exact hlost seq' hwf' k hk

theorem list_splice_intact (hwf : WellFormed m lists seq) :
    Intact lists data m seq (.list_splice j pos i start end_) ↔
      (ListCommand.list_splice j pos i start end_).Safe data seq := by
  by_cases hpos : pos ≤ (seq j).length
  case neg =>
    refine iff_of_true (intact_of_assert fun n => ?_) fun h => absurd h hpos
    rw [ListCommand.exec, begin_bind hwf, walk_bind hwf, if_neg hpos]
  by_cases hstart : start ≤ (seq i).length
  case neg =>
    refine iff_of_true (intact_of_assert fun n => ?_) fun _ h => absurd h hstart
    rw [ListCommand.exec, begin_bind hwf, walk_bind hwf, if_pos hpos, begin_bind hwf, begin_bind hwf,
      walk_bind hwf,
      if_neg hstart]
  by_cases hend : end_ ≤ (seq i).length
  case neg =>
    refine iff_of_true (intact_of_assert fun n => ?_) fun _ _ h => absurd h hend
    rw [ListCommand.exec, begin_bind hwf, walk_bind hwf, if_pos hpos, begin_bind hwf, begin_bind hwf,
      walk_bind hwf,
      if_pos hstart, walk_bind hwf, if_neg hend]
  simp only [ListCommand.Safe, hpos, hstart, hend, forall_const]
  obtain hlt | rfl | hlt := Nat.lt_trichotomy start end_
  · rw [and_iff_left fun _ h => absurd h (Nat.lt_asymm hlt)]
    by_cases hout : j = i → start ≤ pos → end_ ≤ pos
    · exact iff_of_true (splice_outside hwf hpos hlt hend hout) fun _ => hout
    · refine iff_of_false ?_ fun h => hout (h hlt)
      simp only [Classical.not_imp, Nat.not_le] at hout
      obtain ⟨rfl, hle, hinside⟩ := hout
      exact splice_inside hwf hle hinside hend
  · refine iff_of_true (splice_empty hwf hpos hstart) ⟨fun h => absurd h (Nat.lt_irrefl _), fun _ h => ?_⟩
    exact absurd h (Nat.lt_irrefl _)
  · rw [and_iff_right fun h => absurd h (Nat.lt_asymm hlt)]
    by_cases htail : start < (seq i).length
    case neg =>
      obtain rfl := Nat.le_antisymm hstart (Nat.not_lt.mp htail)
      exact iff_of_true (splice_at_tail hwf hpos hlt) fun _ _ h => absurd h htail
    obtain rfl | hhead := Nat.eq_zero_or_pos end_
    · exact iff_of_true (splice_at_head hwf hpos hlt htail) fun h => absurd h (Nat.lt_irrefl _)
    by_cases hbetween : j = i ∧ end_ ≤ pos ∧ pos < start
    · obtain ⟨rfl, hlow, hhigh⟩ := hbetween
      exact iff_of_true (splice_between hwf hhead hlow hhigh htail) fun _ _ _ => ⟨rfl, hlow, hhigh⟩
    · refine iff_of_false (splice_backwards hwf hpos hhead hlt htail ?_) fun h => hbetween (h hhead hlt htail)
      intro hji hlow
      exact Nat.not_lt.mp fun hhigh => hbetween ⟨hji, hlow, hhigh⟩

/-- The commands that keep the lists intact are the safe ones. -/
theorem intact_iff_safe (hwf : WellFormed m lists seq) {c : ListCommand Node ι} (hc : c.Allocates lists seq) :
    Intact lists data m seq c ↔ c.Safe data seq := by
  cases c with
  | list_insert target position elem item_data =>
    exact iff_of_true (list_insert_intact hwf hc item_data) trivial
  | list_remove target position => exact iff_of_true (list_remove_intact hwf) trivial
  | list_splice to_ insertPosition from_ start end_ => exact list_splice_intact hwf
  | list_swap target idx1 idx2 => exact list_swap_intact hwf
  | list_unique first second => exact list_unique_intact hwf second

end pintos.prj0_2
