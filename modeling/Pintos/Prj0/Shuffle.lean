import Pintos.Kernel.ListRuns
import Pintos.Prj0.ListIntact
import Pintos.Lib.TwosComplement

/-!
# Shuffling a list (`list_shuffle`)

From the last position on, every element is swapped with one of the elements before it,
and never with itself.
-/

open links pintos.kernel state_error twos_complement

namespace pintos.prj0_2

section Code

variable {Node : Type} [DecidableEq Node]

/-- The loop of `list_size`. -/
def list_size_loop (list : kernel.list Node) : Nat → Node → Nat → Links Node Nat
  | 0, _, _ => fun m => .error (.running, m)
  | n + 1, e, cnt =>
    if e = list.tail then pure cnt else do list_size_loop list n (← list_next e) (cnt + 1)

/-- `list_size`; `n` bounds the turns of the loop. -/
def list_size (n : Nat) (list : kernel.list Node) : Links Node Nat := do
  list_size_loop list n (← list_begin list) 0

/-- The loop of `list_shuffle` from position `i` down; `rand k` is the result of the call
number `k` of `rand`. -/
def list_shuffle_loop (rand : Nat → Nat) (list : kernel.list Node) : Nat → Nat → Links Node Unit
  | _, 0 => pure ()
  | k, i + 1 => do
    let elem1 ← walk (i + 1) (← list_begin list)
    let randomNum := rand k % (i + 1)
    let elem2 ← walk randomNum (← list_begin list)
    list_swap elem1 elem2
    list_shuffle_loop rand list (k + 1) i

/-- `list_shuffle`. -/
def list_shuffle (n : Nat) (rand : Nat → Nat) (list : kernel.list Node) : Links Node Unit := do
  let size := int32 (← list_size n list)
  list_shuffle_loop rand list 0 (size - 1).toNat

end Code

variable {Node ι : Type} [DecidableEq Node] {m m' : Memory Node} {lists : ι → kernel.list Node}
  {seq : ι → List Node} {i : ι}

/-- The loop of `list_size` counts the rest of the list. -/
theorem size_loop_run (hwf : WellFormed m lists seq) {after : List Node} : ∀ {before : List Node} {n cnt : Nat},
    seq i = before ++ after → after.length < n →
      list_size_loop (lists i) n (following (lists i) after) cnt m = .ok (cnt + after.length, m) := by
  induction after with
  | nil =>
    intro before n cnt _ hn
    obtain ⟨n, rfl⟩ := Nat.exists_eq_succ_of_ne_zero (Nat.ne_of_gt hn)
    rw [list_size_loop, following, List.headD_nil, if_pos rfl]
    rfl
  | cons e after ih =>
    intro before n cnt hseq hn
    obtain ⟨n, rfl⟩ := Nat.exists_eq_succ_of_ne_zero (Nat.ne_of_gt (Nat.zero_lt_of_lt hn))
    have hseq' : seq i = (before ++ [e]) ++ after := by
      rw [hseq, List.append_assoc, List.singleton_append]
    rw [list_size_loop, following_cons, if_neg (append_cons_ne_tail hwf hseq),
      Exec.bind_run (list_next_run hwf hseq),
      ih hseq' (Nat.lt_of_succ_lt_succ hn), List.length_cons, Nat.add_assoc, Nat.add_comm 1]

theorem list_size_run (hwf : WellFormed m lists seq) {n : Nat} (hn : (seq i).length < n) :
    list_size n (lists i) m = .ok ((seq i).length, m) := by
  rw [list_size, begin_bind hwf, size_loop_run hwf (List.nil_append (seq i)).symm hn, Nat.zero_add]

section Shuffle

variable [DecidableEq ι]

/-- The loop of `list_shuffle` arranges the elements up to position `j` anew, and the one
at `j` goes elsewhere; with `j` zero it changes nothing. -/
theorem shuffle_loop_run (rand : Nat → Nat) (j : Nat) : ∀ {k : Nat} {m : Memory Node} {seq : ι → List Node},
    WellFormed m lists seq → (0 < j → j < (seq i).length) → ∃ m' elems,
      list_shuffle_loop rand (lists i) k j m = .ok ((), m') ∧
        WellFormed m' lists (Function.update seq i elems) ∧
      elems.Perm (seq i) ∧ (∀ p, j < p → elems[p]? = (seq i)[p]?) ∧ (0 < j → elems[j]? ≠ (seq i)[j]?) ∧
      (j = 0 → elems = seq i) := by
  induction j with
  | zero =>
    intro k m seq hwf _
    refine ⟨m, seq i, rfl, ?_, .refl _, fun _ _ => rfl, fun h => absurd h (Nat.lt_irrefl 0), fun _ => rfl⟩
    rwa [Function.update_eq_self]
  | succ j ih =>
    intro k m seq hwf hj
    have hlt := hj (Nat.succ_pos j)
    have hmod : rand k % (j + 1) < j + 1 := Nat.mod_lt _ (Nat.succ_pos j)
    obtain ⟨before, a, between, b, after, hseq, hdropa, hdropb⟩ := split_two hmod hlt
    obtain ⟨m₁, -, hswap, hwf₁⟩ := list_swap_run hwf hseq
    -- `b` is at position `j + 1`, and `a` comes there
    have hlength : before.length + between.length = j := by
      have hdrop := congrArg List.length hdropb
      have hall := congrArg List.length hseq
      simp only [List.length_drop, List.length_append, List.length_cons] at hdrop hall
      omega
    have hfront : ∀ c d : Node, (before ++ c :: between).length = j + 1 ∧
        ∀ p, j + 1 < p → (before ++ c :: between ++ d :: after)[p]? = after[p - (j + 2)]? := by
      intro c d
      have hcount : (before ++ c :: between).length = j + 1 := by
        rw [List.length_append, List.length_cons]
        omega
      refine ⟨hcount, fun p hp => ?_⟩
      rw [List.getElem?_append_right (by omega), hcount, List.getElem?_cons, if_neg (by omega)]
      rfl
    have hat : ∀ c d : Node, (before ++ c :: between ++ d :: after)[j + 1]? = some d := by
      intro c d
      rw [List.getElem?_append_right (Nat.le_of_eq (hfront c d).1), (hfront c d).1, Nat.sub_self]
      rfl
    obtain ⟨m', elems, hrun, hwf', hperm, hfixed, -⟩ := @ih (k + 1) _ _ hwf₁ fun _ => by
      rw [Function.update_self, (swap_perm before between after a b).length_eq, ← hseq]
      omega
    rw [Function.update_idem] at hwf'
    simp only [Function.update_self] at hperm hfixed
    refine ⟨m', elems, ?_, hwf', ?_, fun p hp => ?_, fun _ heq => ?_, fun h => absurd h (Nat.succ_ne_zero j)⟩
    · rw [list_shuffle_loop, begin_bind hwf, walk_bind hwf, if_pos (Nat.le_of_lt hlt), begin_bind hwf,
        walk_bind hwf,
        if_pos (by omega), hdropa, hdropb, following_cons, following_cons, Exec.bind_run hswap]
      exact hrun
    · rw [hseq]
      exact hperm.trans (swap_perm before between after a b)
    · rw [hfixed p (by omega), hseq, (hfront b a).2 p hp, (hfront a b).2 p hp]
    · rw [hfixed (j + 1) (Nat.lt_succ_self j), hseq, hat, hat, Option.some.injEq] at heq
      have hnodup := hwf.seq_nodup i
      rw [hseq, heq] at hnodup
      have hsplit := (List.nodup_append.mp hnodup).2.2 b (by simp) b (by simp)
      exact hsplit rfl

/-- The position that the loop of `list_shuffle` starts at. -/
def last_position (l : List Node) : Nat := (int32 l.length - 1).toNat

omit [DecidableEq Node] in
theorem last_position_lt {l : List Node} (h : 0 < last_position l) : last_position l < l.length := by
  rw [last_position] at h ⊢
  have hle := int32_le (Int.natCast_nonneg l.length)
  omega

/-- `list_shuffle` ends, with the elements of the list in some order. -/
theorem list_shuffle_run (hwf : WellFormed m lists seq) (i : ι) (rand : Nat → Nat) : ∃ m' elems,
    (∀ n, (seq i).length < n → list_shuffle n rand (lists i) m = .ok ((), m')) ∧
      WellFormed m' lists (Function.update seq i elems) ∧ elems.Perm (seq i) ∧
      (0 < last_position (seq i) → elems[last_position (seq i)]? ≠ (seq i)[last_position (seq i)]?) ∧
      (last_position (seq i) = 0 → elems = seq i) := by
  obtain ⟨m', elems, hrun, hwf', hperm, -, hmoved⟩ :=
    shuffle_loop_run (i := i) rand (last_position (seq i)) (k := 0) hwf last_position_lt
  refine ⟨m', elems, fun n hn => ?_, hwf', hperm, hmoved⟩
  rw [list_shuffle, Exec.bind_run (list_size_run hwf hn)]
  exact hrun

/-- `list_shuffle` on list `i` ends with the elements in the order `elems`. -/
def Arranges (m : Memory Node) (lists : ι → kernel.list Node) (seq : ι → List Node) (i : ι) (rand : Nat → Nat)
    (elems : List Node) : Prop :=
  ∃ m' least, (∀ n, least ≤ n → list_shuffle n rand (lists i) m = .ok ((), m')) ∧
    WellFormed m' lists (Function.update seq i elems)

theorem Arranges.unique {rand : Nat → Nat} {elems elems' : List Node} (h : Arranges m lists seq i rand elems)
    (h' : Arranges m lists seq i rand elems') : elems = elems' := by
  obtain ⟨m₁, least, hrun, hwf⟩ := h
  obtain ⟨m₂, least', hrun', hwf'⟩ := h'
  obtain ⟨-, rfl⟩ := Exec.ok_inj (hrun _ (Nat.le_max_left least least'))
    (hrun' _ (Nat.le_max_right least least'))
  have hsame := congrFun (hwf.unique hwf') i
  rwa [Function.update_self, Function.update_self] at hsame

/-- Where the loop runs at all, the order does not stay. -/
theorem list_shuffle_moves (hwf : WellFormed m lists seq) (hpos : 0 < last_position (seq i))
    (rand : Nat → Nat) :
    ¬ Arranges m lists seq i rand (seq i) := by
  intro hsame
  obtain ⟨m', elems, hrun, hwf', -, hmoved, -⟩ := list_shuffle_run hwf i rand
  have heq := hsame.unique ⟨m', _, hrun, hwf'⟩
  exact hmoved hpos (heq ▸ rfl)

/-- Of a list of two elements or more there is an order that no shuffle leads to. -/
theorem list_shuffle_misses (hwf : WellFormed m lists seq) (i : ι) (hmore : 1 < (seq i).length) :
    ∃ missed, missed.Perm (seq i) ∧ ∀ rand, ¬ Arranges m lists seq i rand missed := by
  obtain hzero | hpos := Nat.eq_zero_or_pos (last_position (seq i))
  · obtain ⟨a, b, rest, hseq⟩ : ∃ a b rest, seq i = a :: b :: rest := by
      rcases hseq : seq i with - | ⟨a, - | ⟨b, rest⟩⟩
      · simp [hseq] at hmore
      · simp [hseq] at hmore
      · exact ⟨a, b, rest, rfl⟩
    refine ⟨b :: a :: rest, ?_, fun rand hmissed => ?_⟩
    · rw [hseq]
      exact .swap a b rest
    · obtain ⟨m', elems, hrun, hwf', -, -, hsame⟩ := list_shuffle_run hwf i rand
      have heq := hmissed.unique ⟨m', _, hrun, hwf'⟩
      rw [hsame hzero, hseq, List.cons.injEq] at heq
      have hnodup := hwf.seq_nodup i
      rw [hseq, heq.1] at hnodup
      exact (List.nodup_cons.mp hnodup).1 List.mem_cons_self
  · exact ⟨seq i, .refl _, list_shuffle_moves hwf hpos⟩

/-- Whatever `rand` returns, `list_shuffle` ends with some order of the elements. That
every order comes up is so only for lists of at most one element. -/
theorem list_shuffle_reaches_all_iff (hwf : WellFormed m lists seq) (i : ι) :
    ((∀ rand, ∃ elems, elems.Perm (seq i) ∧ Arranges m lists seq i rand elems) ∧
      ∀ elems, elems.Perm (seq i) → ∃ rand, Arranges m lists seq i rand elems) ↔ (seq i).length ≤ 1 := by
  have hruns : ∀ rand, ∃ elems, elems.Perm (seq i) ∧ Arranges m lists seq i rand elems := by
    intro rand
    obtain ⟨m', elems, hrun, hwf', hperm, -⟩ := list_shuffle_run hwf i rand
    exact ⟨elems, hperm, m', _, hrun, hwf'⟩
  rw [and_iff_right hruns]
  constructor
  · intro hall
    by_contra hmore
    obtain ⟨missed, hperm, hnever⟩ := list_shuffle_misses hwf i (Nat.lt_of_not_le hmore)
    obtain ⟨rand, harranges⟩ := hall missed hperm
    exact hnever rand harranges
  · intro hone elems hperm
    obtain ⟨elems', hperm', harranges⟩ := hruns fun _ => 0
    refine ⟨fun _ => 0, ?_⟩
    -- a list of at most one element has one order
    have hsame : elems = elems' := by
      rcases Nat.le_one_iff_eq_zero_or_eq_one.mp hone with hzero | hsingle
      · rw [List.eq_nil_of_length_eq_zero hzero] at hperm hperm'
        rw [hperm.eq_nil, hperm'.eq_nil]
      · obtain ⟨a, ha⟩ := List.length_eq_one_iff.mp hsingle
        rw [ha] at hperm hperm'
        rw [List.perm_singleton.mp hperm, List.perm_singleton.mp hperm']
    rwa [hsame]

/-- The list of the elements 4 and 5. -/
def list_of_two : Memory Nat
  | 0 => ⟨none, some 4⟩
  | 1 => ⟨some 5, none⟩
  | 4 => ⟨some 0, some 5⟩
  | _ => ⟨some 4, some 1⟩

theorem list_of_two_formed : WellFormed list_of_two (fun _ : Unit => ⟨0, 1⟩) fun _ => [4, 5] := by
  refine ⟨fun _ => ?_, fun _ => rfl, fun _ => rfl, fun _ => by decide, fun _ _ _ _ _ => rfl⟩
  refine List.isChain_cons_cons.mpr ⟨⟨rfl, rfl⟩, List.isChain_cons_cons.mpr ⟨⟨rfl, rfl⟩, ?_⟩⟩
  exact List.isChain_pair.mpr ⟨rfl, rfl⟩

/-- Shuffling two elements always swaps them. -/
theorem list_shuffle_misses_two : ¬ ∀ elems, elems.Perm [4, 5] →
    ∃ rand, Arranges list_of_two (fun _ : Unit => ⟨0, 1⟩) (fun _ => [4, 5]) () rand elems := by
  intro hall
  obtain ⟨rand, harranges⟩ := hall [4, 5] (.refl _)
  exact list_shuffle_moves list_of_two_formed (by decide) rand harranges

theorem list_shuffle_reaches_all_two :
    ((∀ rand, ∃ elems, elems.Perm [4, 5] ∧ Arranges list_of_two (fun _ : Unit => ⟨0, 1⟩)
    (fun _ => [4, 5]) () rand elems) ∧
      ∀ elems, elems.Perm [4, 5] → ∃ rand, Arranges list_of_two (fun _ : Unit => ⟨0, 1⟩)
        (fun _ => [4, 5]) () rand elems) ↔
        [4, 5].length ≤ 1 :=
  list_shuffle_reaches_all_iff list_of_two_formed ()

end Shuffle

end pintos.prj0_2
