import Pintos.Kernel.List
import Pintos.Prj0.UniqueBlocks

/-!
# Sorting a list (`list.c`, the same in `lib/kernel/list.c`)

`list_sort` merges neighbouring runs in place until one is left. On the links it does what
the sort of the sequence does.
-/

open links pintos.kernel state_error strict_weak

namespace pintos.prj0_2

section Code

variable {Node : Type} [DecidableEq Node]

/-- `list_prev`. -/
def list_prev (elem : Node) : Links Node Node := do
  ASSERT fun m => is_interior m elem || is_tail m elem
  follow fun m => (m elem).prev

/-- The loop of `is_sorted`. -/
def is_sorted_loop (less : Node → Node → Bool) (b : Node) : Nat → Node → Links Node Bool
  | 0, _ => fun m => .error (.running, m)
  | n + 1, a => do
    let a ← list_next a
    if a = b then pure true
    else do
      let prev ← list_prev a
      if less a prev then pure false else is_sorted_loop less b n a

/-- `is_sorted`; `n` bounds the turns of the loop. -/
def is_sorted (n : Nat) (less : Node → Node → Bool) (a b : Node) : Links Node Bool :=
  if a ≠ b then is_sorted_loop less b n a else pure true

/-- The loop of `find_end_of_run`. -/
def find_end_of_run_loop (less : Node → Node → Bool) (b : Node) : Nat → Node → Links Node Node
  | 0, _ => fun m => .error (.running, m)
  | n + 1, a => do
    let a ← list_next a
    if a = b then pure a
    else do
      let prev ← list_prev a
      if less a prev then pure a else find_end_of_run_loop less b n a

/-- `find_end_of_run`. -/
def find_end_of_run (n : Nat) (less : Node → Node → Bool) (a b : Node) : Links Node Node := do
  ASSERT fun _ => a ≠ b
  find_end_of_run_loop less b n a

/-- The loop of `inplace_merge`. -/
def inplace_merge_loop (less : Node → Node → Bool) (b1 : Node) : Nat → Node → Node → Links Node Unit
  | 0, _, _ => fun m => .error (.running, m)
  | n + 1, a0, a1b0 =>
    if a0 ≠ a1b0 ∧ a1b0 ≠ b1 then
      if !less a1b0 a0 then do inplace_merge_loop less b1 n (← list_next a0) a1b0
      else do
        let a1b0 ← list_next a1b0
        list_splice a0 (← list_prev a1b0) a1b0
        inplace_merge_loop less b1 n a0 a1b0
    else pure ()

/-- `inplace_merge`. -/
def inplace_merge (n : Nat) (less : Node → Node → Bool) (a0 a1b0 b1 : Node) : Links Node Unit := do
  let first ← is_sorted n less a0 a1b0
  ASSERT fun _ => first
  let second ← is_sorted n less a1b0 b1
  ASSERT fun _ => second
  inplace_merge_loop less b1 n a0 a1b0

/-- One pass of `list_sort` from `a0` on; `n` bounds the turns of the loops inside. -/
def list_sort_pass (n : Nat) (less : Node → Node → Bool) (list : kernel.list Node) : Nat → Node → Nat →
    Links Node Nat
  | 0, _, _ => fun m => .error (.running, m)
  | t + 1, a0, output_run_cnt =>
    if a0 = list.tail then pure output_run_cnt
    else do
      let a1b0 ← find_end_of_run n less a0 list.tail
      if a1b0 = list.tail then pure (output_run_cnt + 1)
      else do
        let b1 ← find_end_of_run n less a1b0 list.tail
        inplace_merge n less a0 a1b0 b1
        list_sort_pass n less list t b1 (output_run_cnt + 1)

/-- The outer loop of `list_sort`. -/
def list_sort_loop (n : Nat) (less : Node → Node → Bool) (list : kernel.list Node) : Nat → Links Node Unit
  | 0 => fun m => .error (.running, m)
  | t + 1 => do
    let output_run_cnt ← list_sort_pass n less list n (← list_begin list) 0
    if output_run_cnt > 1 then list_sort_loop n less list t else pure ()

/-- `list_sort`; `n` bounds the turns of each loop. -/
def list_sort (n : Nat) (less : Node → Node → Bool) (list : kernel.list Node) : Links Node Unit := do
  list_sort_loop n less list n
  let sorted ← is_sorted n less (← list_begin list) list.tail
  ASSERT fun _ => sorted

end Code

variable {Node ι : Type} [DecidableEq Node] {m m' : Memory Node} {lists : ι → kernel.list Node}
  {seq : ι → List Node} {i : ι} {before after : List Node} {a x : Node} {less : Node → Node → Bool}

section Reads

omit [DecidableEq Node] in
theorem list_prev_run (hwf : WellFormed m lists seq) (hseq : seq i = before ++ after) :
    list_prev (following (lists i) after) m = .ok (preceding (lists i) before, m) := by
  have hprev := (hwf.neighbours hseq).2
  rw [list_prev, ASSERT_bind, if_pos (hwf.following_guard hseq), follow, hprev]

omit [DecidableEq Node] in
theorem list_prev_elem (hwf : WellFormed m lists seq) (hseq : seq i = before ++ a :: x :: after) :
    list_prev x m = .ok (a, m) := by
  have h := list_prev_run hwf (show seq i = (before ++ [a]) ++ x :: after by rw [hseq, List.append_assoc]; rfl)
  rwa [preceding, List.getLastD_concat] at h

omit [DecidableEq Node] in
/-- An element is not where the list goes on after it. -/
theorem elem_ne_following (hwf : WellFormed m lists seq) {middle : List Node}
    (hseq : seq i = before ++ x :: middle ++ after) : x ≠ following (lists i) after := by
  have hnodup := hwf.nodup i
  rw [hseq, nodes_split] at hnodup
  have hapart := (List.nodup_append.mp hnodup).2.2
  exact hapart x (by simp) _ (List.mem_of_head? (head?_following (lists i) after))

theorem is_sorted_loop_run (hwf : WellFormed m lists seq) {run : List Node} :
    ∀ {before : List Node} {a : Node} {n : Nat},
    seq i = before ++ a :: run ++ after → Ordered less (a :: run) → run.length < n →
      is_sorted_loop less (following (lists i) after) n a m = .ok (true, m) := by
  induction run with
  | nil =>
    intro before a n hseq _ hn
    obtain ⟨n, rfl⟩ := Nat.exists_eq_succ_of_ne_zero (Nat.ne_of_gt hn)
    have hseqa : seq i = before ++ a :: after := by simp [hseq]
    rw [is_sorted_loop, Exec.bind_run (list_next_run hwf hseqa), if_pos rfl]
    rfl
  | cons x run ih =>
    intro before a n hseq hordered hn
    obtain ⟨n, rfl⟩ := Nat.exists_eq_succ_of_ne_zero (Nat.ne_of_gt (Nat.zero_lt_of_lt hn))
    have hseqa : seq i = before ++ a :: x :: (run ++ after) := by simp [hseq]
    have hseqx : seq i = (before ++ [a]) ++ x :: run ++ after := by simp [hseq]
    have hle := hordered.head_le x List.mem_cons_self
    rw [is_sorted_loop, Exec.bind_run (list_next_run hwf hseqa), following_cons,
      if_neg (elem_ne_following hwf hseqx),
      Exec.bind_run (list_prev_elem hwf hseqa), hle]
    exact ih hseqx hordered.tail (Nat.lt_of_succ_lt_succ hn)

/-- `is_sorted` on a range that is in order. -/
theorem is_sorted_run (hwf : WellFormed m lists seq) {run : List Node} {n : Nat}
    (hseq : seq i = before ++ run ++ after) (hordered : Ordered less run) (hn : run.length ≤ n) :
    is_sorted n less (following (lists i) (run ++ after)) (following (lists i) after) m = .ok (true, m) := by
  cases run with
  | nil =>
    rw [is_sorted, List.nil_append, if_neg (not_not_intro rfl)]
    rfl
  | cons a run =>
    rw [is_sorted, List.cons_append, following_cons, if_pos (elem_ne_following hwf hseq)]
    exact is_sorted_loop_run hwf hseq hordered hn

theorem find_end_of_run_loop_run (hwf : WellFormed m lists seq) {rest : List Node} :
    ∀ {before : List Node} {a : Node} {n : Nat}, seq i = before ++ a :: rest → rest.length < n →
      find_end_of_run_loop less (lists i).tail n a m =
        .ok (following (lists i) (kernel.find_end_of_run less (a :: rest)).2, m) := by
  induction rest with
  | nil =>
    intro before a n hseq hn
    obtain ⟨n, rfl⟩ := Nat.exists_eq_succ_of_ne_zero (Nat.ne_of_gt hn)
    rw [find_end_of_run_loop, Exec.bind_run (list_next_run hwf hseq), following, List.headD_nil, if_pos rfl]
    rfl
  | cons b rest ih =>
    intro before a n hseq hn
    obtain ⟨n, rfl⟩ := Nat.exists_eq_succ_of_ne_zero (Nat.ne_of_gt (Nat.zero_lt_of_lt hn))
    have hseqb : seq i = (before ++ [a]) ++ b :: rest := by simp [hseq]
    rw [find_end_of_run_loop, Exec.bind_run (list_next_run hwf hseq), following_cons,
      if_neg (append_cons_ne_tail hwf hseqb), Exec.bind_run (list_prev_elem hwf hseq), kernel.find_end_of_run]
    split
    · rfl
    · exact ih hseqb (Nat.lt_of_succ_lt_succ hn)

theorem find_end_of_run_run (hwf : WellFormed m lists seq) {rest : List Node} {n : Nat}
    (hseq : seq i = before ++ a :: rest) (hn : rest.length < n) :
    find_end_of_run n less a (lists i).tail m =
      .ok (following (lists i) (kernel.find_end_of_run less (a :: rest)).2, m) := by
  rw [find_end_of_run, ASSERT_bind, if_pos (decide_eq_true (append_cons_ne_tail hwf hseq))]
  exact find_end_of_run_loop_run hwf hseq hn

end Reads

section Steps

variable {a0 a1b0 b1 c : Node} {n : Nat}

theorem merge_loop_stop (h : a0 = a1b0 ∨ a1b0 = b1) : inplace_merge_loop less b1 (n + 1) a0 a1b0 m =
    .ok ((), m) := by
  rw [inplace_merge_loop, if_neg fun hne => h.elim hne.1 hne.2]
  rfl

theorem merge_loop_pass (hne : a0 ≠ a1b0) (hne' : a1b0 ≠ b1) (hle : less a1b0 a0 = false)
    (hnext : list_next a0 m = .ok (c, m)) :
    inplace_merge_loop less b1 (n + 1) a0 a1b0 m = inplace_merge_loop less b1 n c a1b0 m := by
  rw [inplace_merge_loop, if_pos ⟨hne, hne'⟩, hle, if_pos (by rfl), Exec.bind_run hnext]

theorem merge_loop_move (hne : a0 ≠ a1b0) (hne' : a1b0 ≠ b1) (hlt : less a1b0 a0 = true)
    (hnext : list_next a1b0 m = .ok (c, m)) (hprev : list_prev c m = .ok (a1b0, m))
    (hsplice : list_splice a0 a1b0 c m = .ok ((), m')) :
    inplace_merge_loop less b1 (n + 1) a0 a1b0 m = inplace_merge_loop less b1 n a0 c m' := by
  rw [inplace_merge_loop, if_pos ⟨hne, hne'⟩, hlt, if_neg (by decide), Exec.bind_run hnext, Exec.bind_run hprev,
    Exec.bind_run hsplice]

end Steps

section Sorts

variable [DecidableEq ι]

theorem kernel_merge_end {α : Type} {less : α → α → Bool} {k : Nat} {a0 a1b0 : List α}
    (hend : a0 = [] ∨ a1b0 = []) :
    kernel.inplace_merge_loop less k a0 a1b0 = a0 ++ a1b0 := by
  cases k with
  | zero => rfl
  | succ k =>
    cases a0 with
    | nil => rfl
    | cons a a0 =>
      obtain rfl := hend.resolve_left (List.cons_ne_nil a a0)
      simp [kernel.inplace_merge_loop]

variable (less) in
/-- The loop of `inplace_merge` merges what is left of the two runs. -/
theorem merge_loop_run (k : Nat) : ∀ {before a0 a1b0 : List Node} {m : Memory Node} {seq : ι → List Node},
    WellFormed m lists seq → seq i = before ++ a0 ++ a1b0 ++ after → a0.length + a1b0.length = k →
      ∃ m', (∀ n, k < n → inplace_merge_loop less (following (lists i) after) n
          (following (lists i) (a0 ++ a1b0 ++ after)) (following (lists i) (a1b0 ++ after)) m = .ok ((), m')) ∧
        WellFormed m' lists (Function.update seq i (before ++
          kernel.inplace_merge_loop less k a0 a1b0 ++ after)) := by
  induction k with
  | zero =>
    intro before a0 a1b0 m seq hwf hseq hk
    obtain ⟨ha, hb⟩ := Nat.add_eq_zero_iff.mp hk
    rw [List.length_eq_zero_iff] at ha hb
    subst ha hb
    refine ⟨m, fun n hn => ?_, ?_⟩
    · obtain ⟨n, rfl⟩ := Nat.exists_eq_succ_of_ne_zero (Nat.ne_of_gt hn)
      exact merge_loop_stop (.inl rfl)
    · rwa [kernel_merge_end (.inl rfl), ← List.append_assoc, ← hseq, Function.update_eq_self]
  | succ k ih =>
    intro before a0 a1b0 m seq hwf hseq hk
    by_cases hend : a0 = [] ∨ a1b0 = []
    · refine ⟨m, fun n hn => ?_, ?_⟩
      · obtain ⟨n, rfl⟩ := Nat.exists_eq_succ_of_ne_zero (Nat.ne_of_gt (Nat.zero_lt_of_lt hn))
        apply merge_loop_stop
        obtain rfl | rfl := hend
        · exact .inl rfl
        · exact .inr rfl
      · rwa [kernel_merge_end hend, ← List.append_assoc, ← hseq, Function.update_eq_self]
    obtain ⟨ha0, ha1b0⟩ := not_or.mp hend
    obtain ⟨a, a0, rfl⟩ := List.exists_cons_of_ne_nil ha0
    obtain ⟨b, a1b0, rfl⟩ := List.exists_cons_of_ne_nil ha1b0
    simp only [List.length_cons] at hk
    have hab : a ≠ b := elem_ne_following hwf (show seq i = before ++ a :: a0 ++
        (b :: a1b0 ++ after) by simp [hseq])
    have hb : b ≠ following (lists i) after := elem_ne_following hwf
      (show seq i = (before ++ a :: a0) ++ b :: a1b0 ++ after by simp [hseq])
    by_cases hba : less b a = true
    · -- `b` goes before `a`
      have hseqb : seq i = (before ++ a :: a0) ++ b :: (a1b0 ++ after) := by simp [hseq]
      have hrange : seq i = (before ++ a :: a0) ++ [b] ++ (a1b0 ++ after) := by simp [hseq]
      obtain ⟨m₁, hsplice, hwf₁, -⟩ := list_splice_run (j := i) (c := before) (d := a :: a0 ++ (a1b0 ++ after))
        hwf hrange (by rw [Function.update_self, List.append_assoc])
      rw [Function.update_idem] at hwf₁
      obtain ⟨m', hrun, hwf'⟩ := @ih (before ++ [b]) (a :: a0) a1b0 _ _ hwf₁
        (by simp [Function.update_self]) (by simp only [List.length_cons]; omega)
      rw [Function.update_idem] at hwf'
      refine ⟨m', fun n hn => ?_, ?_⟩
      · obtain ⟨n, rfl⟩ := Nat.exists_eq_succ_of_ne_zero (Nat.ne_of_gt (Nat.zero_lt_of_lt hn))
        have hprev := list_prev_run hwf hrange
        rw [preceding, List.getLastD_concat] at hprev
        rw [← hrun n (Nat.lt_of_succ_lt_succ hn)]
        exact merge_loop_move hab hb hba (list_next_run hwf hseqb) hprev (list_splice_of_kernel hsplice)
      · simpa [kernel.inplace_merge_loop, hba] using hwf'
    · have hseqa : seq i = before ++ a :: (a0 ++ b :: a1b0 ++ after) := by simp [hseq]
      obtain ⟨m', hrun, hwf'⟩ := @ih (before ++ [a]) a0 (b :: a1b0) _ _ hwf
        (by simp [hseq]) (by simp only [List.length_cons]; omega)
      refine ⟨m', fun n hn => ?_, ?_⟩
      · obtain ⟨n, rfl⟩ := Nat.exists_eq_succ_of_ne_zero (Nat.ne_of_gt (Nat.zero_lt_of_lt hn))
        rw [← hrun n (Nat.lt_of_succ_lt_succ hn)]
        exact merge_loop_pass hab hb (Bool.eq_false_iff.mpr hba) (list_next_run hwf hseqa)
      · simpa [kernel.inplace_merge_loop, hba] using hwf'

theorem inplace_merge_run (hwf : WellFormed m lists seq) {a0 a1b0 : List Node}
    (hseq : seq i = before ++ a0 ++ a1b0 ++ after)
    (ha0 : Ordered less a0) (ha1b0 : Ordered less a1b0) : ∃ m', (∀ n, a0.length + a1b0.length < n →
      inplace_merge n less (following (lists i) (a0 ++ a1b0 ++ after)) (following (lists i) (a1b0 ++ after))
        (following (lists i) after) m = .ok ((), m')) ∧
      WellFormed m' lists (Function.update seq i (before ++ kernel.inplace_merge less a0 a1b0 ++ after)) := by
  obtain ⟨m', hrun, hwf'⟩ := merge_loop_run less _ hwf hseq rfl
  refine ⟨m', fun n hn => ?_, hwf'⟩
  have hfirst := is_sorted_run (n := n) hwf (show seq i = before ++ a0 ++
      (a1b0 ++ after) by simp [hseq]) ha0 (by omega)
  have hsecond := is_sorted_run (n := n) hwf hseq ha1b0 (by omega)
  rw [← List.append_assoc] at hfirst
  rw [inplace_merge, Exec.bind_run hfirst, ASSERT_bind, if_pos rfl, Exec.bind_run hsecond,
    ASSERT_bind, if_pos rfl]
  exact hrun n hn

theorem list_sort_pass_run (hless : StrictWeak less) (k : Nat) : ∀ {before l : List Node} {m : Memory Node}
    {seq : ι → List Node}, WellFormed m lists seq → seq i = before ++ l → l.length ≤ k →
      ∃ m', (∀ n t output_run_cnt, l.length < n → l.length < t →
          list_sort_pass n less (lists i) t (following (lists i) l) output_run_cnt m =
            .ok (output_run_cnt + (kernel.list_sort_pass less k l).2, m')) ∧
        WellFormed m' lists (Function.update seq i (before ++ (kernel.list_sort_pass less k l).1)) := by
  induction k with
  | zero =>
    intro before l m seq hwf hseq hk
    obtain rfl := List.length_eq_zero_iff.mp (Nat.le_zero.mp hk)
    refine ⟨m, fun n t cnt _ ht => ?_, ?_⟩
    · obtain ⟨t, rfl⟩ := Nat.exists_eq_succ_of_ne_zero (Nat.ne_of_gt ht)
      rw [list_sort_pass, following, List.headD_nil, if_pos rfl]
      rfl
    · rwa [kernel.list_sort_pass, ← hseq, Function.update_eq_self]
  | succ k ih =>
    intro before l m seq hwf hseq hk
    cases l with
    | nil =>
      refine ⟨m, fun n t cnt _ ht => ?_, ?_⟩
      · obtain ⟨t, rfl⟩ := Nat.exists_eq_succ_of_ne_zero (Nat.ne_of_gt ht)
        rw [list_sort_pass, following, List.headD_nil, if_pos rfl]
        rfl
      · rwa [kernel.list_sort_pass, ← hseq, Function.update_eq_self]
    | cons a l =>
      obtain ⟨first, rest, hpair⟩ : ∃ first rest, kernel.find_end_of_run less (a :: l) =
        (first, rest) := ⟨_, _, rfl⟩
      obtain ⟨hone, -, -, hsome⟩ := find_end_of_run_runs less a l
      have happ := find_end_of_run_append less (a :: l)
      have hfind : ∀ n, (a :: l).length < n → find_end_of_run n less a (lists i).tail m =
          .ok (following (lists i) rest, m) := by
        intro n hn
        rw [find_end_of_run_run hwf hseq (Nat.lt_of_succ_lt hn), hpair]
      rw [hpair] at hone hsome happ
      rw [kernel.list_sort_pass, hpair]
      have hne := append_cons_ne_tail hwf hseq
      cases rest with
      | nil =>
        -- the last run has none to be merged with
        rw [List.append_nil] at happ
        refine ⟨m, fun n t cnt hn ht => ?_, ?_⟩
        · obtain ⟨t, rfl⟩ := Nat.exists_eq_succ_of_ne_zero (Nat.ne_of_gt (Nat.zero_lt_of_lt ht))
          rw [list_sort_pass, following_cons, if_neg hne, Exec.bind_run (hfind n hn), following,
            List.headD_nil, if_pos rfl]
          rfl
        · rw [List.isEmpty_nil, if_pos rfl, happ, ← hseq, Function.update_eq_self]
          exact hwf
      | cons b l' =>
        obtain ⟨second, rest, hpair'⟩ : ∃ second rest, kernel.find_end_of_run less (b :: l') = (second, rest) :=
          ⟨_, _, rfl⟩
        obtain ⟨hone', -⟩ := find_end_of_run_runs less b l'
        have happ' := find_end_of_run_append less (b :: l')
        rw [hpair'] at hone' happ'
        simp only at hone hsome happ hone' happ'
        have hseqb : seq i = (before ++ first) ++ b :: l' := by rw [hseq, ← happ, List.append_assoc]
        have hseqm : seq i = before ++ first ++ second ++ rest :=
            by rw [hseqb, ← happ', List.append_assoc _ second]
        have hfind' : ∀ n, (b :: l').length < n →
            find_end_of_run n less b (lists i).tail m = .ok (following (lists i) rest, m) := by
          intro n hn
          rw [find_end_of_run_run hwf hseqb (Nat.lt_of_succ_lt hn), hpair']
        obtain ⟨m₁, hmerge, hwf₁⟩ := inplace_merge_run hwf hseqm (ordered_of_runs_le_one hless hone)
          (ordered_of_runs_le_one hless hone')
        have hlength := congrArg List.length happ
        have hlength' := congrArg List.length happ'
        have hpos := List.length_pos_iff.mpr hsome
        simp only [List.length_append, List.length_cons] at hlength hlength' hk
        obtain ⟨m', hpass, hwf'⟩ := @ih (before ++ kernel.inplace_merge less first second) rest _ _ hwf₁
          (Function.update_self ..) (by omega)
        rw [Function.update_idem] at hwf'
        refine ⟨m', fun n t cnt hn ht => ?_, ?_⟩
        · obtain ⟨t, rfl⟩ := Nat.exists_eq_succ_of_ne_zero (Nat.ne_of_gt (Nat.zero_lt_of_lt ht))
          simp only [List.length_cons] at hn ht
          have hneb := append_cons_ne_tail hwf hseqb
          have hmerge' := hmerge n (by omega)
          rw [List.append_assoc, happ', happ, following_cons, following_cons] at hmerge'
          rw [list_sort_pass, following_cons, if_neg hne, Exec.bind_run (hfind n (by simpa using hn)),
            following_cons,
            if_neg hneb, Exec.bind_run (hfind' n (by simp only [List.length_cons]; omega)),
              Exec.bind_run hmerge',
            hpass n t (cnt + 1) (by omega) (by omega)]
          simp [hpair', Nat.add_assoc, Nat.add_comm 1]
        · simpa [hpair'] using hwf'

/-- The outer loop of `list_sort` ends: every pass about halves the number of runs. -/
theorem list_sort_loop_run (hless : StrictWeak less) (k : Nat) : ∀ {m : Memory Node} {seq : ι → List Node},
    WellFormed m lists seq → runs less (seq i) < k →
      ∃ m', (∀ n t, (seq i).length < n → k ≤ t → list_sort_loop n less (lists i) t m = .ok ((), m')) ∧
        WellFormed m' lists (Function.update seq i (kernel.list_sort_loop less k (seq i))) := by
  induction k with
  | zero => exact fun _ h => absurd h (Nat.not_lt_zero _)
  | succ k ih =>
    intro m seq hwf hruns
    obtain ⟨hperm, hfewer, hhalf⟩ := list_sort_pass_spec hless (seq i).length (seq i) (Nat.le_refl _)
    obtain ⟨m₁, hpass, hwf₁⟩ := list_sort_pass_run hless (seq i).length hwf
      (List.nil_append (seq i)).symm (Nat.le_refl _)
    rw [List.nil_append] at hwf₁
    have hstep : ∀ n t, (seq i).length < n → list_sort_loop n less (lists i) (t + 1) m =
        (if (kernel.list_sort_pass less (seq i).length (seq i)).2 > 1 then list_sort_loop n less (lists i) t
          else pure ()) m₁ := by
      intro n t hn
      rw [list_sort_loop, Exec.bind_run (list_begin_run hwf i), Exec.bind_run (hpass n n 0 hn hn), Nat.zero_add]
    simp only [kernel.list_sort_loop]
    split
    · next hmore =>
      obtain ⟨m', hrun, hwf'⟩ := @ih m₁ _ hwf₁ (by rw [Function.update_self]; omega)
      rw [Function.update_idem, Function.update_self] at hwf'
      refine ⟨m', fun n t hn ht => ?_, hwf'⟩
      obtain ⟨t, rfl⟩ := Nat.exists_eq_add_of_le' (Nat.le_of_add_left_le ht)
      rw [hstep n t hn, if_pos hmore]
      refine hrun n t ?_ (Nat.le_of_succ_le_succ ht)
      rwa [Function.update_self, hperm.length_eq]
    · next hdone =>
      refine ⟨m₁, fun n t hn ht => ?_, hwf₁⟩
      obtain ⟨t, rfl⟩ := Nat.exists_eq_add_of_le' (Nat.le_of_add_left_le ht)
      rw [hstep n t hn, if_neg hdone]
      rfl

/-- `list_sort` does on the links what the sort of the sequence does. -/
theorem list_sort_run (hless : StrictWeak less) (hwf : WellFormed m lists seq) (i : ι) :
    ∃ m', (∀ n, (seq i).length < n → list_sort n less (lists i) m = .ok ((), m')) ∧
      WellFormed m' lists (Function.update seq i (kernel.list_sort less (seq i))) := by
  obtain ⟨m', hrun, hwf'⟩ := list_sort_loop_run hless ((seq i).length + 1) hwf
    (Nat.lt_succ_of_le (runs_le_length (seq i)))
  change WellFormed m' lists (Function.update seq i (kernel.list_sort less (seq i))) at hwf'
  refine ⟨m', fun n hn => ?_, hwf'⟩
  have hlength := (list_sort_perm hless (seq i)).length_eq
  have hsorted := is_sorted_run (n := n) hwf'
    (show Function.update seq i (kernel.list_sort less (seq i)) i = [] ++
    kernel.list_sort less (seq i) ++ [] by simp)
    (list_sort_ordered hless (seq i)) (by omega)
  rw [List.append_nil] at hsorted
  have hbegin := list_begin_run hwf' i
  rw [Function.update_self] at hbegin
  rw [list_sort, Exec.bind_run (hrun n n hn hn), Exec.bind_run hbegin]
  rw [show (lists i).tail = following (lists i) [] from rfl, Exec.bind_run hsorted, ASSERT, if_pos rfl]

end Sorts

/-- `list_sort` ends and no `ASSERT` fails. The list is well-formed and in order, has the
elements that it had, and equal elements in the order that they had; the other lists stay. -/
theorem list_sort_sorts [DecidableEq ι] (hless : StrictWeak less) (hwf : WellFormed m lists seq) (i : ι) :
    ∃ m' sorted, (∀ n, (seq i).length < n → list_sort n less (lists i) m = .ok ((), m')) ∧
      WellFormed m' lists (Function.update seq i sorted) ∧
      Ordered less sorted ∧ sorted.Perm (seq i) ∧
      ∀ x, sorted.filter (equal less x) = (seq i).filter (equal less x) := by
  obtain ⟨m', hrun, hwf'⟩ := list_sort_run hless hwf i
  refine ⟨m', _, hrun, hwf', list_sort_ordered hless _, list_sort_perm hless _,
    fun x => list_sort_filter hless ?_ _⟩
  intro a b ha hb
  exact (equal_eq_true.mp (equal_trans hless (equal_symm ha) hb)).1

/-- Two elements in the wrong order. -/
theorem list_sort_sorts_two : ∃ m' sorted, (∀ n, 2 < n →
      list_sort n (fun a b => decide (b < a)) ⟨0, 1⟩ two_and_none = .ok ((), m')) ∧
    WellFormed m' (fun i : Bool => if i then ⟨0, 1⟩ else ⟨2, 3⟩)
      (Function.update (fun i => if i then [4, 5] else []) true sorted) ∧ sorted.Perm [4, 5] := by
  obtain ⟨m', sorted, hrun, hwf, -, hperm, -⟩ := list_sort_sorts
    (show StrictWeak fun a b : Nat => decide (b <
    a) from ⟨by simp; omega, by simp; omega⟩) two_and_none_formed true
  exact ⟨m', sorted, hrun, hwf, hperm⟩

end pintos.prj0_2
