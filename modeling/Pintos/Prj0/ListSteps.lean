import Pintos.Prj0.ListCommands
import Pintos.Kernel.ListOps

/-!
# List functions that may stop

Where the kernel library's function succeeds, so does the one of this program, with the
same links.
-/

open links pintos.kernel state_error

namespace pintos.prj0_2

variable {Node ι β : Type} [DecidableEq Node] {m m' : Memory Node} {lists : ι → kernel.list Node}
  {seq : ι → List Node} {i : ι} {before after : List Node} {e elem first last : Node}

omit [DecidableEq Node] in
@[simp] theorem ASSERT_bind {p : Memory Node → Bool} {f : Unit → Links Node β} :
    (ASSERT p >>= f) m = if p m then f () m else .error (.assert, m) := by
  by_cases hp : p m = true
  · rw [if_pos hp]
    exact Exec.bind_run (by rw [ASSERT, if_pos hp])
  · rw [if_neg hp]
    exact Exec.bind_error (by rw [ASSERT, if_neg hp])

omit [DecidableEq Node] in
theorem follow_bind {p : Memory Node → Option Node} {f : Node → Links Node β} (hp : p m = some e) :
    (follow p >>= f) m = f e m :=
  Exec.bind_run (by rw [follow, hp])

omit [DecidableEq Node] in
theorem follow_bind_none {p : Memory Node → Option Node} {f : Node → Links Node β} (hp : p m = none) :
    (follow p >>= f) m = .error (.null, m) :=
  Exec.bind_error (by rw [follow, hp])

@[simp] theorem store_prev_bind {v : Memory Node → Option Node} {f : Unit → Links Node β} :
    (store_prev e v >>= f) m = f () (set_prev m e (v m)) := rfl

@[simp] theorem store_next_bind {v : Memory Node → Option Node} {f : Unit → Links Node β} :
    (store_next e v >>= f) m = f () (set_next m e (v m)) := rfl

@[simp] theorem store_prev_run {v : Memory Node → Option Node} :
    store_prev e v m = .ok ((), set_prev m e (v m)) := rfl

@[simp] theorem store_next_run {v : Memory Node → Option Node} :
    store_next e v m = .ok ((), set_next m e (v m)) := rfl

omit [DecidableEq Node] in
@[simp] theorem get_bind {f : Memory Node → Links Node β} : (Exec.get >>= f) m = f m m := rfl

theorem guard_iff {p : Prop} [Decidable p] {u : Unit} : (guard p : Option Unit) = some u ↔ p := by
  by_cases hp : p <;> simp [hp, guard]

theorem list_insert_of_kernel {before : Node} (h : kernel.list_insert m before elem = some m') :
    list_insert before elem m = .ok ((), m') := by
  simp only [kernel.list_insert, Option.bind_eq_bind, Option.pure_def, Option.bind_eq_some_iff, guard_iff,
    Option.some.injEq] at h
  obtain ⟨-, hguard, prev, hprev, rfl⟩ := h
  rw [list_insert, ASSERT_bind, if_pos hguard, store_prev_bind, store_next_bind, follow_bind hprev]
  rfl

theorem list_remove_of_kernel (h : kernel.list_remove m elem = some (m', e)) :
    list_remove elem m = .ok ((), m') := by
  simp only [kernel.list_remove, Option.bind_eq_bind, Option.pure_def, Option.bind_eq_some_iff, guard_iff,
    Option.some.injEq, Prod.mk.injEq] at h
  obtain ⟨-, hguard, prev, hprev, next, hnext, next', -, rfl, -⟩ := h
  rw [list_remove, ASSERT_bind, if_pos hguard, follow_bind hprev, store_next_bind, follow_bind hnext]
  rfl

theorem list_splice_of_kernel {before : Node} (h : kernel.list_splice m before first last = some m') :
    list_splice before first last m = .ok ((), m') := by
  simp only [kernel.list_splice, Option.bind_eq_bind, Option.pure_def, Option.bind_eq_some_iff, guard_iff] at h
  obtain ⟨-, hguard, h⟩ := h
  rw [list_splice, ASSERT_bind, if_pos hguard]
  split at h
  · next heq =>
    obtain rfl := Option.some.inj h
    rw [if_pos heq]
    rfl
  · next hne =>
    simp only [Option.bind_eq_some_iff, Option.some.injEq, guard_iff] at h
    obtain ⟨last', hlast, -, hfirst, -, hinterior, prev, hprev, next, hnext, prev', hprev', rfl⟩ := h
    simp only [kernel.list_prev, Option.bind_eq_bind, Option.bind_eq_some_iff, guard_iff] at hlast
    obtain ⟨-, hguard', hlast⟩ := hlast
    rw [if_neg hne, ASSERT_bind, if_pos hguard', follow_bind hlast, ASSERT_bind, if_pos hfirst, ASSERT_bind,
      if_pos hinterior, follow_bind hprev, store_next_bind, follow_bind hnext, store_prev_bind, store_prev_bind,
      store_next_bind, follow_bind hprev']
    rfl

section Walks

omit [DecidableEq Node]

theorem list_begin_run (hwf : WellFormed m lists seq) (i : ι) :
    list_begin (lists i) m = .ok (following (lists i) (seq i), m) := by
  have hbegin := (hwf.neighbours (List.nil_append (seq i)).symm).1
  change (m (lists i).head).next = _ at hbegin
  rw [list_begin, follow, hbegin]

theorem list_next_run (hwf : WellFormed m lists seq) (hseq : seq i = before ++ e :: after) :
    list_next e m = .ok (following (lists i) after, m) := by
  have hseq' : seq i = (before ++ [e]) ++ after := by
    rw [hseq, List.append_assoc, List.singleton_append]
  have hnext := (hwf.neighbours hseq').1
  rw [preceding, List.getLastD_concat] at hnext
  rw [list_next, ASSERT_bind, hwf.interior hseq, Bool.or_true, if_pos rfl, follow, hnext]

/-- There is no element after the tail. -/
theorem list_next_tail (hwf : WellFormed m lists seq) (i : ι) :
    list_next (lists i).tail m = .error (.assert, m) := by
  rw [list_next, ASSERT_bind, is_head, is_interior, hwf.tail_next i]
  simp

/-- Walking to a position of a list, or past its tail. -/
theorem walk_run (hwf : WellFormed m lists seq) {position : Nat} : ∀ {before after : List Node},
    seq i = before ++ after → walk position (following (lists i) after) m =
      if position ≤ after.length then .ok (following (lists i) (after.drop position), m) else .error
        (.assert, m) := by
  induction position with
  | zero =>
    intro before after _
    rw [if_pos (Nat.zero_le _)]
    rfl
  | succ position ih =>
    intro before after hseq
    cases after with
    | nil =>
      rw [if_neg (by simp)]
      exact Exec.bind_error (list_next_tail hwf i)
    | cons e after =>
      have hseq' : seq i = (before ++ [e]) ++ after := by
        rw [hseq, List.append_assoc, List.singleton_append]
      refine (Exec.bind_run (list_next_run hwf hseq)).trans ?_
      rw [ih hseq', List.drop_succ_cons, List.length_cons]
      simp only [Nat.succ_le_succ_iff]

/-- Walking from the beginning. -/
theorem walk_begin_run (hwf : WellFormed m lists seq) (i : ι) (position : Nat) :
    walk position (following (lists i) (seq i)) m =
      if position ≤ (seq i).length then .ok (following (lists i) ((seq i).drop position), m)
      else .error (.assert, m) :=
  walk_run hwf (List.nil_append (seq i)).symm

end Walks

end pintos.prj0_2
