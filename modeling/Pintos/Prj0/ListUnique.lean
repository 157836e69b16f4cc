import Pintos.Prj0.ListSwap

/-!
# Removing repeated elements (`list_unique`)

An element that is equal to the one before it is taken out. It is dropped, or put at the
end of a list of duplicates; where that is the list itself, it comes up again.
-/

open links pintos.kernel state_error

namespace pintos.prj0_2

section Sequences

variable {α : Type} {same : α → α → Bool} {e x : α} {rest : List α} {n : Nat}

/-- The elements after `e` that are kept, and those that are taken out. -/
def unique_from (same : α → α → Bool) : α → List α → List α × List α
  | _, [] => ([], [])
  | e, x :: rest =>
    if same e x then ((unique_from same e rest).1, x :: (unique_from same e rest).2)
    else (x :: (unique_from same x rest).1, (unique_from same x rest).2)

/-- Moving the repetitions of each element behind the others, one element after the
other, never leaves only repetitions; `n` is the number of elements after `e`. -/
def settles (same : α → α → Bool) : Nat → α → List α → Bool
  | 0, _, _ => true
  | n + 1, e, rest =>
    match rest.dropWhile (same e) with
    | [] => false
    | x :: others => settles same n x (others ++ rest.takeWhile (same e))

/-- The elements that `list_unique` keeps, and those that it takes out. -/
def unique (same : α → α → Bool) : List α → List α × List α
  | [] => ([], [])
  | e :: rest => (e :: (unique_from same e rest).1, (unique_from same e rest).2)

/-- The elements of a list settle when its repetitions are put back into it. -/
def settled (same : α → α → Bool) : List α → Bool
  | [] => true
  | e :: rest => settles same rest.length e rest

theorem unique_from_perm (same : α → α → Bool) (rest : List α) :
    ∀ e, ((unique_from same e rest).1 ++ (unique_from same e rest).2).Perm rest := by
  induction rest with
  | nil => exact fun _ => .refl _
  | cons x rest ih =>
    intro e
    rw [unique_from]
    split
    · exact List.perm_middle.trans ((ih e).cons x)
    · exact (ih x).cons x

/-- What is taken out is a repetition of something that is kept. -/
theorem unique_from_removed (same : α → α → Bool) (rest : List α) :
    ∀ e, ∀ x ∈ (unique_from same e rest).2, ∃ y ∈ e :: (unique_from same e rest).1, same y x = true := by
  induction rest with
  | nil =>
    intro e x hx
    cases hx
  | cons z rest ih =>
    intro e x hx
    rw [unique_from] at hx ⊢
    split at hx
    · next hsame =>
      rw [if_pos hsame]
      obtain rfl | hx := List.mem_cons.mp hx
      · exact ⟨e, List.mem_cons_self, hsame⟩
      · exact ih e x hx
    · next hne =>
      rw [if_neg hne]
      obtain ⟨y, hy, hsame⟩ := ih z x hx
      exact ⟨y, List.mem_cons_of_mem e hy, hsame⟩

theorem unique_perm (same : α → α → Bool) (l : List α) : ((unique same l).1 ++ (unique same l).2).Perm l := by
  cases l with
  | nil => exact .refl _
  | cons e rest => exact (unique_from_perm same rest e).cons e

theorem unique_removed (same : α → α → Bool) (l : List α) :
    ∀ x ∈ (unique same l).2, ∃ y ∈ (unique same l).1, same y x = true := by
  cases l with
  | nil =>
    intro x hx
    cases hx
  | cons e rest => exact unique_from_removed same rest e

theorem settles_advance (hne : same e x = false) : settles same (n + 1) e (x :: rest) =
    settles same n x rest := by
  simp [settles, hne]

theorem takeWhile_append_of_dropWhile {p : α → Bool} {y : α} {others l : List α}
    (hdrop : rest.dropWhile p = y :: others) : (rest ++ l).takeWhile p = rest.takeWhile p := by
  have hlong : (rest.takeWhile p).length ≠ rest.length := by
    intro heq
    have hsplit := List.takeWhile_append_dropWhile (p := p) (l := rest)
    rw [(List.takeWhile_prefix p).eq_of_length heq, hdrop] at hsplit
    simp at hsplit
  rw [List.takeWhile_append, if_neg hlong]

theorem settles_rotate (hsame : same e x = true) :
    settles same (n + 1) e (x :: rest) = settles same (n + 1) e (rest ++ [x]) := by
  rw [settles, settles, List.dropWhile_cons_of_pos hsame, List.dropWhile_append]
  cases hdrop : rest.dropWhile (same e) with
  | nil => simp [hsame]
  | cons y others => simp [takeWhile_append_of_dropWhile hdrop, hsame]

/-- Where the elements settle, there is one that is not a repetition. -/
theorem dropWhile_of_settles (h : settles same (n + 1) e rest = true) :
    ∃ y others, rest.dropWhile (same e) = y :: others := by
  cases hdrop : rest.dropWhile (same e) with
  | nil => simp [settles, hdrop] at h
  | cons y others => exact ⟨y, others, rfl⟩

end Sequences

/-- Neither element is less than the other. -/
def equal {α : Type} (less : α → α → Bool) (a b : α) : Bool := !less a b && !less b a

section Loop

variable {Node ι : Type} [DecidableEq Node] [DecidableEq ι] {m m' : Memory Node} {lists : ι → kernel.list Node}
  {seq : ι → List Node} {i j : ι} {before after : List Node} {e x : Node} {less : Node → Node → Bool}

theorem list_push_back_of_kernel {list : kernel.list Node} (h : kernel.list_push_back m list e = some m') :
    list_push_back list e m = .ok ((), m') :=
  list_insert_of_kernel h

omit [DecidableEq Node] [DecidableEq ι] in
theorem append_cons_ne_tail (hwf : WellFormed m lists seq) (hseq : seq i = before ++ e :: after) :
    e ≠ (lists i).tail := by
  rintro rfl
  exact hwf.tail_not_mem i (hseq ▸ List.mem_append_right _ List.mem_cons_self)

omit [DecidableEq ι] in
/-- The loop at the last element. -/
theorem unique_loop_last {duplicates : Option (kernel.list Node)} (hwf : WellFormed m lists seq)
    (hseq : seq i = before ++ [e]) (n : Nat) :
    list_unique_loop less (lists i) duplicates (n + 1) e m = .ok ((), m) := by
  rw [list_unique_loop, Exec.bind_run (list_next_run hwf hseq), following, List.headD_nil, if_pos rfl]
  rfl

omit [DecidableEq ι] in
/-- The loop goes on to a different element. -/
theorem unique_loop_advance {duplicates : Option (kernel.list Node)} (hwf : WellFormed m lists seq)
    (hseq : seq i = before ++ e :: x :: after) (hne : equal less e x = false) (n : Nat) :
    list_unique_loop less (lists i) duplicates (n + 1) e m =
      list_unique_loop less (lists i) duplicates n x m := by
  have hseqx : seq i = (before ++ [e]) ++ x :: after := by simp [hseq]
  rw [equal] at hne
  rw [list_unique_loop, Exec.bind_run (list_next_run hwf hseq), following_cons,
    if_neg (append_cons_ne_tail hwf hseqx), if_neg (by simp [hne])]

/-- The loop takes an equal element out. -/
theorem unique_loop_remove (duplicates : Option (kernel.list Node)) (hwf : WellFormed m lists seq)
    (hseq : seq i = before ++ e :: x :: after) (hsame : equal less e x = true) :
    ∃ m₁, WellFormed m₁ lists (Function.update seq i (before ++ e :: after)) ∧
      Fresh lists (Function.update seq i (before ++ e :: after)) x ∧
      ∀ n, list_unique_loop less (lists i) duplicates (n + 1) e m =
        (push_duplicate duplicates x >>= fun _ => list_unique_loop less (lists i) duplicates n e) m₁ := by
  have hseqx : seq i = (before ++ [e]) ++ x :: after := by simp [hseq]
  obtain ⟨m₁, hremove, hwf₁, -⟩ := list_remove_run hwf hseqx
  rw [List.append_assoc, List.singleton_append] at hwf₁
  have hnodup := hwf.nodup i
  rw [hseqx, nodes_split] at hnodup
  obtain ⟨-, hrest, hapart⟩ := List.nodup_append.mp hnodup
  have hxnot : x ∉ nodes (lists i) (before ++ e :: after) := by
    have hsplit : nodes (lists i) (before ++ e :: after) =
        (lists i).head :: (before ++ [e]) ++ (after ++ [(lists i).tail]) := by simp [nodes]
    rw [hsplit, List.mem_append, not_or]
    exact ⟨fun hmem => hapart x hmem x List.mem_cons_self rfl, (List.nodup_cons.mp hrest).1⟩
  refine ⟨m₁, hwf₁, fresh_of_lost hwf (by simp [hseq, nodes]) hxnot, fun n => ?_⟩
  rw [equal] at hsame
  rw [list_unique_loop, Exec.bind_run (list_next_run hwf hseq), following_cons,
    if_neg (append_cons_ne_tail hwf hseqx), if_pos (by simpa using hsame),
    Exec.bind_run (list_remove_of_kernel hremove)]

/-- The duplicates go to the end of their list. -/
structure Collected (duplicates : Option ι) (seq seq' : ι → List Node) (i : ι)
    (kept removed : List Node) : Prop where
  kept : seq' i = kept
  removed : ∀ j, duplicates = some j → seq' j = seq j ++ removed
  others : ∀ j, j ≠ i → duplicates ≠ some j → seq' j = seq j

/-- The loop, where the duplicates are dropped or put in another list. -/
theorem unique_loop_run {duplicates : Option ι} (hother : duplicates ≠ some i) : ∀ {after before : List Node}
    {e : Node} {m : Memory Node} {seq : ι → List Node}, WellFormed m lists seq → seq i = before ++ e :: after →
    ∃ m' seq', (∀ n, after.length < n →
        list_unique_loop less (lists i) (duplicates.map lists) n e m = .ok ((), m')) ∧
          WellFormed m' lists seq' ∧
      Collected duplicates seq seq' i (before ++ e :: (unique_from (equal less) e after).1)
        (unique_from (equal less) e after).2 := by
  intro after
  induction after with
  | nil =>
    intro before e m seq hwf hseq
    refine ⟨m, seq, fun n hn => ?_, hwf, hseq, fun _ _ => (List.append_nil _).symm, fun _ _ _ => rfl⟩
    obtain ⟨n, rfl⟩ := Nat.exists_eq_succ_of_ne_zero (Nat.ne_of_gt hn)
    exact unique_loop_last hwf hseq n
  | cons x after ih =>
    intro before e m seq hwf hseq
    by_cases hsame : equal less e x = true
    · -- `x` is taken out
      obtain ⟨m₁, hwf₁, hfresh, hstep⟩ := unique_loop_remove (duplicates.map lists) hwf hseq hsame
      have hpush : ∃ m₂ seq₂, push_duplicate (duplicates.map lists) x m₁ = .ok ((), m₂) ∧
          WellFormed m₂ lists seq₂ ∧ Collected duplicates seq seq₂ i (before ++ e :: after) [x] := by
        cases duplicates with
        | none =>
          exact ⟨m₁, _, rfl, hwf₁, Function.update_self .., by simp, fun j hj _ => Function.update_of_ne hj _ _⟩
        | some d =>
          have hdi : d ≠ i := fun heq => hother (congrArg some heq)
          obtain ⟨m₂, hrun, hwf₂, -⟩ := list_push_back_run (i := d) hwf₁ hfresh
          refine ⟨m₂, _, list_push_back_of_kernel hrun, hwf₂, ?_, ?_, ?_⟩
          · rw [Function.update_of_ne hdi.symm, Function.update_self]
          · rintro j hj
            obtain rfl := Option.some.inj hj
            rw [Function.update_self, Function.update_of_ne hdi]
          · intro j hji hjd
            rw [Function.update_of_ne (fun heq => hjd (congrArg some heq.symm)), Function.update_of_ne hji]
      obtain ⟨m₂, seq₂, hrun₂, hwf₂, hkept₂, hremoved₂, hothers₂⟩ := hpush
      obtain ⟨m', seq', hrun, hwf', hkept, hremoved, hothers⟩ := ih hwf₂ hkept₂
      refine ⟨m', seq', fun n hn => ?_, hwf', ?_, ?_, ?_⟩
      · obtain ⟨n, rfl⟩ := Nat.exists_eq_succ_of_ne_zero (Nat.ne_of_gt (Nat.zero_lt_of_lt hn))
        rw [hstep n, Exec.bind_run hrun₂]
        exact hrun n (Nat.lt_of_succ_lt_succ hn)
      · rw [hkept, unique_from, if_pos hsame]
      · intro j hj
        rw [hremoved j hj, hremoved₂ j hj, unique_from, if_pos hsame, List.append_assoc, List.singleton_append]
      · intro j hji hjd
        rw [hothers j hji hjd, hothers₂ j hji hjd]
    · have hne := Bool.eq_false_iff.mpr hsame
      obtain ⟨m', seq', hrun, hwf', hkept, hremoved, hothers⟩ := ih hwf
        (show seq i = before ++ [e] ++ x :: after by simp [hseq])
      refine ⟨m', seq', fun n hn => ?_, hwf', ?_, ?_, hothers⟩
      · obtain ⟨n, rfl⟩ := Nat.exists_eq_succ_of_ne_zero (Nat.ne_of_gt (Nat.zero_lt_of_lt hn))
        rw [unique_loop_advance hwf hseq hne]
        exact hrun n (Nat.lt_of_succ_lt_succ hn)
      · rw [hkept, unique_from, if_neg hsame, List.append_assoc, List.singleton_append]
      · intro j hj
        rw [hremoved j hj, unique_from, if_neg hsame]

/-- A repeated element goes to the end of its own list. -/
theorem unique_loop_rotate (hwf : WellFormed m lists seq) (hseq : seq i = before ++ e :: x :: after)
    (hsame : equal less e x = true) :
    ∃ m₂, WellFormed m₂ lists (Function.update seq i (before ++ e :: (after ++ [x]))) ∧
      ∀ n, list_unique_loop less (lists i) (some (lists i)) (n + 1) e m =
        list_unique_loop less (lists i) (some (lists i)) n e m₂ := by
  obtain ⟨m₁, hwf₁, hfresh, hstep⟩ := unique_loop_remove (some (lists i)) hwf hseq hsame
  obtain ⟨m₂, hrun, hwf₂, -⟩ := list_push_back_run (i := i) hwf₁ hfresh
  rw [Function.update_self, Function.update_idem, List.append_assoc, List.cons_append] at hwf₂
  refine ⟨m₂, hwf₂, fun n => ?_⟩
  rw [hstep n]
  exact Exec.bind_run (list_push_back_of_kernel hrun)

/-- The loop that puts the duplicates back into the list ends where the elements settle. -/
theorem unique_loop_settles (k : Nat) : ∀ {after before : List Node} {e : Node} {m : Memory Node}
    {seq : ι → List Node}, after.length = k → settles (equal less) k e after = true → WellFormed m lists seq →
    seq i = before ++ e :: after → ∃ m' elems least,
      (∀ n, least ≤ n → list_unique_loop less (lists i) (some (lists i)) n e m = .ok ((), m')) ∧
        WellFormed m' lists (Function.update seq i elems) ∧ elems.Perm (seq i) := by
  induction k with
  | zero =>
    intro after before e m seq hlength _ hwf hseq
    obtain rfl := List.length_eq_zero_iff.mp hlength
    refine ⟨m, seq i, 1, fun n hn => ?_, by rwa [Function.update_eq_self], .refl _⟩
    obtain ⟨n, rfl⟩ := Nat.exists_eq_succ_of_ne_zero (Nat.ne_of_gt hn)
    exact unique_loop_last hwf hseq n
  | succ k ih =>
    intro after before e m seq hlength hsettles hwf hseq
    -- the repetitions at the front go to the end one by one
    induction hrepeats : (after.takeWhile (equal less e)).length generalizing after m seq with
    | zero =>
      obtain ⟨x, rest, rfl⟩ := List.exists_cons_of_length_eq_add_one hlength
      have hne : equal less e x = false := by
        by_contra hsame
        rw [List.takeWhile_cons_of_pos (by simpa using hsame)] at hrepeats
        cases hrepeats
      rw [settles_advance hne] at hsettles
      obtain ⟨m', elems, least, hrun, hwf', hperm⟩ := ih (Nat.succ.inj hlength) hsettles hwf
        (show seq i = before ++ [e] ++ x :: rest by simp [hseq])
      refine ⟨m', elems, least + 1, fun n hn => ?_, hwf', hperm⟩
      obtain ⟨n, rfl⟩ := Nat.exists_eq_add_of_le' (Nat.le_of_add_left_le hn)
      rw [unique_loop_advance hwf hseq hne]
      exact hrun n (Nat.le_of_succ_le_succ hn)
    | succ t iht =>
      obtain ⟨x, rest, rfl⟩ := List.exists_cons_of_length_eq_add_one hlength
      have hsame : equal less e x = true := by
        by_contra hne
        rw [List.takeWhile_cons_of_neg hne] at hrepeats
        cases hrepeats
      obtain ⟨y, others, hdrop⟩ := dropWhile_of_settles hsettles
      rw [List.dropWhile_cons_of_pos hsame] at hdrop
      rw [List.takeWhile_cons_of_pos hsame] at hrepeats
      rw [settles_rotate hsame] at hsettles
      obtain ⟨m₂, hwf₂, hstep⟩ := unique_loop_rotate hwf hseq hsame
      obtain ⟨m', elems, least, hrun, hwf', hperm⟩ := iht (by simpa using hlength) hsettles hwf₂
        (Function.update_self ..) (by rw [takeWhile_append_of_dropWhile hdrop]; exact Nat.succ.inj hrepeats)
      rw [Function.update_idem] at hwf'
      rw [Function.update_self] at hperm
      refine ⟨m', elems, least + 1, fun n hn => ?_, hwf', hperm.trans ?_⟩
      · obtain ⟨n, rfl⟩ := Nat.exists_eq_add_of_le' (Nat.le_of_add_left_le hn)
        rw [hstep n]
        exact hrun n (Nat.le_of_succ_le_succ hn)
      · rw [hseq]
        exact ((List.perm_append_singleton x rest).cons e).append_left before

/-- Elsewhere it never ends. -/
theorem unique_loop_runs_on (n : Nat) : ∀ {k : Nat} {after before : List Node} {e : Node} {m : Memory Node}
    {seq : ι → List Node}, after.length = k → settles (equal less) k e after = false → WellFormed m lists seq →
    seq i = before ++ e :: after →
    ∃ m', list_unique_loop less (lists i) (some (lists i)) n e m = .error (.running, m') := by
  induction n with
  | zero =>
    intro k after before e m seq _ _ _ _
    exact ⟨m, rfl⟩
  | succ n ih =>
    intro k after before e m seq hlength hsettles hwf hseq
    cases k with
    | zero => cases hsettles
    | succ k =>
      obtain ⟨x, rest, rfl⟩ := List.exists_cons_of_length_eq_add_one hlength
      by_cases hsame : equal less e x = true
      · obtain ⟨m₂, hwf₂, hstep⟩ := unique_loop_rotate hwf hseq hsame
        rw [settles_rotate hsame] at hsettles
        rw [hstep n]
        exact ih (by simpa using hlength) hsettles hwf₂ (Function.update_self ..)
      · have hne := Bool.eq_false_iff.mpr hsame
        rw [settles_advance hne] at hsettles
        rw [unique_loop_advance hwf hseq hne]
        exact ih (Nat.succ.inj hlength) hsettles hwf (show seq i = before ++ [e] ++ x :: rest by simp [hseq])

omit [DecidableEq ι] in
/-- `list_unique` on an empty list. -/
theorem list_unique_nil {duplicates : Option (kernel.list Node)} (hwf : WellFormed m lists seq)
    (hseq : seq i = []) (n : Nat) : list_unique n less (lists i) duplicates m = .ok ((), m) := by
  rw [list_unique, Exec.bind_run (list_begin_run hwf i), hseq, following, List.headD_nil, if_pos rfl]
  rfl

omit [DecidableEq ι] in
/-- `list_unique` starts its loop at the first element. -/
theorem list_unique_cons {duplicates : Option (kernel.list Node)} (hwf : WellFormed m lists seq)
    (hseq : seq i = e :: after) (n : Nat) :
    list_unique n less (lists i) duplicates m = list_unique_loop less (lists i) duplicates n e m := by
  have hne : e ≠ (lists i).tail := append_cons_ne_tail hwf (show seq i = [] ++ e :: after from hseq)
  rw [list_unique, Exec.bind_run (list_begin_run hwf i), hseq, following_cons, if_neg hne]

/-- `list_unique`, where the duplicates are dropped or put in another list. -/
theorem list_unique_run (less : Node → Node → Bool) {duplicates : Option ι}
    (hother : duplicates ≠ some i) (hwf : WellFormed m lists seq) :
    ∃ m' seq', (∀ n, (seq i).length ≤ n → list_unique n less (lists i) (duplicates.map lists) m =
      .ok ((), m')) ∧
      WellFormed m' lists seq' ∧
      Collected duplicates seq seq' i (unique (equal less) (seq i)).1 (unique (equal less) (seq i)).2 := by
  cases hseq : seq i with
  | nil =>
    exact ⟨m, seq, fun n _ => list_unique_nil hwf hseq n, hwf, hseq, fun _ _ => (List.append_nil _).symm,
      fun _ _ _ => rfl⟩
  | cons e after =>
    obtain ⟨m', seq', hrun, hwf', hcollected⟩ := unique_loop_run hother hwf
      (show seq i = [] ++ e :: after from hseq)
    refine ⟨m', seq', fun n hn => ?_, hwf', hcollected⟩
    rw [list_unique_cons hwf hseq]
    exact hrun n hn

/-- `list_unique`, where the duplicates are put back. -/
theorem list_unique_self (hwf : WellFormed m lists seq) (hsettled : settled (equal less) (seq i) = true) :
    ∃ m' elems least, (∀ n, least ≤ n → list_unique n less (lists i) (some (lists i)) m = .ok ((), m')) ∧
      WellFormed m' lists (Function.update seq i elems) ∧ elems.Perm (seq i) := by
  cases hseq : seq i with
  | nil =>
    refine ⟨m, [], 0, fun n _ => list_unique_nil hwf hseq n, ?_, .refl _⟩
    rwa [← hseq, Function.update_eq_self]
  | cons e after =>
    rw [hseq] at hsettled
    obtain ⟨m', elems, least, hrun, hwf', hperm⟩ := unique_loop_settles _ rfl hsettled hwf
      (show seq i = [] ++ e :: after from hseq)
    refine ⟨m', elems, least, fun n hn => ?_, hwf', hseq ▸ hperm⟩
    rw [list_unique_cons hwf hseq]
    exact hrun n hn

theorem list_unique_runs_on (hwf : WellFormed m lists seq)
    (hunsettled : settled (equal less) (seq i) = false) (n : Nat) :
    ∃ m', list_unique n less (lists i) (some (lists i)) m = .error (.running, m') := by
  cases hseq : seq i with
  | nil =>
    rw [hseq] at hunsettled
    cases hunsettled
  | cons e after =>
    rw [hseq] at hunsettled
    rw [list_unique_cons hwf hseq]
    exact unique_loop_runs_on n rfl hunsettled hwf (show seq i = [] ++ e :: after from hseq)

end Loop

end pintos.prj0_2
