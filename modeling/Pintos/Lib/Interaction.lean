import Mathlib.Tactic.Common

/-!
# Programs as trees of requests

A program ends with a value, or makes a request and goes on with the answer to
it. The module gives the requests that are granted when the answers come from a
fixed environment, and the rule for programs that follow a discipline: an
automaton over the requests and their answers.
-/

namespace interaction

universe u v w

/-- A program over the requests `Op`; request `o` is answered in `Ans o`. -/
inductive Prog (Op : Type u) (Ans : Op → Type v) (α : Type w) : Type (max u v w) where
  | ret (a : α)
  | ask (o : Op) (k : Ans o → Prog Op Ans α)

namespace Prog

variable {Op : Type u} {Ans : Op → Type v} {α β γ : Type w}

/-- Run the first program, then the one chosen by its value. -/
def andThen : Prog Op Ans α → (α → Prog Op Ans β) → Prog Op Ans β
  | ret a, f => f a
  | ask o k, f => ask o fun r => (k r).andThen f

instance : Monad (Prog Op Ans) where
  pure := ret
  bind := andThen

@[simp] theorem pure_eq (a : α) : (pure a : Prog Op Ans α) = ret a := rfl

@[simp] theorem ret_bind (a : α) (f : α → Prog Op Ans β) : ret a >>= f = f a := rfl

@[simp] theorem ask_bind (o : Op) (k : Ans o → Prog Op Ans α) (f : α → Prog Op Ans β) :
    ask o k >>= f = ask o fun r => k r >>= f := rfl

@[simp] theorem bind_assoc (m : Prog Op Ans α) (f : α → Prog Op Ans β) (g : β → Prog Op Ans γ) :
    m >>= f >>= g = m >>= fun a => f a >>= g := by
  induction m with
  | ret a => rfl
  | ask o k ih =>
    simp only [ask_bind]
    exact congrArg _ (funext ih)

/-- The request that comes next. -/
def head? : Prog Op Ans α → Option Op
  | ret _ => none
  | ask o _ => some o

/-! ## A fixed environment -/

section
variable (answer : (o : Op) → Option (Ans o))

/-- The requests that are granted, in order; the first refusal ends the program. -/
def granted : Prog Op Ans α → List Op
  | ret _ => []
  | ask o k => match answer o with
    | none => []
    | some r => o :: (k r).granted

/-- The requests that are made: the granted ones, and the one that is refused. -/
def asked : Prog Op Ans α → List Op
  | ret _ => []
  | ask o k => o :: match answer o with
    | none => []
    | some r => (k r).asked

/-- The value of the program, if no request is refused. -/
def value : Prog Op Ans α → Option α
  | ret a => some a
  | ask o k => (answer o).bind fun r => (k r).value

@[simp] theorem granted_ret (a : α) : granted answer (ret a : Prog Op Ans α) = [] := rfl

@[simp] theorem value_ret (a : α) : value answer (ret a : Prog Op Ans α) = some a := rfl

variable {answer}

theorem granted_of_none {o : Op} {k : Ans o → Prog Op Ans α} (h : answer o = none) :
    granted answer (ask o k) = [] := by
  simp only [granted, h]

theorem granted_of_some {o : Op} {k : Ans o → Prog Op Ans α} {r : Ans o} (h : answer o = some r) :
    granted answer (ask o k) = o :: granted answer (k r) := by
  simp only [granted, h]

theorem value_of_none {o : Op} {k : Ans o → Prog Op Ans α} (h : answer o = none) :
    value answer (ask o k) = none := by
  simp only [value, h, Option.bind_none]

theorem value_of_some {o : Op} {k : Ans o → Prog Op Ans α} {r : Ans o} (h : answer o = some r) :
    value answer (ask o k) = value answer (k r) := by
  simp only [value, h, Option.bind_some]

variable (answer)

theorem granted_bind (m : Prog Op Ans α) (f : α → Prog Op Ans β) :
    granted answer (m >>= f) =
      granted answer m ++ (value answer m).elim [] fun a => granted answer (f a) := by
  induction m with
  | ret a => simp
  | ask o k ih =>
    rw [ask_bind]
    cases h : answer o with
    | none => simp [granted_of_none h, value_of_none h]
    | some r => simp [granted_of_some h, value_of_some h, ih]

theorem asked_bind (m : Prog Op Ans α) (f : α → Prog Op Ans β) :
    asked answer (m >>= f) =
      asked answer m ++ (value answer m).elim [] fun a => asked answer (f a) := by
  induction m with
  | ret a => rfl
  | ask o k ih =>
    rw [ask_bind]
    simp only [asked, value]
    cases answer o with
    | none => rfl
    | some r => simp [ih]

theorem value_bind (m : Prog Op Ans α) (f : α → Prog Op Ans β) :
    value answer (m >>= f) = (value answer m).bind fun a => value answer (f a) := by
  induction m with
  | ret a => simp
  | ask o k ih =>
    rw [ask_bind]
    cases h : answer o with
    | none => simp [value_of_none h]
    | some r => simp [value_of_some h, ih]

end

/-! ## Restrictions -/

/-- Whatever the answers, every request of the program meets `P`. -/
def Only (P : Op → Prop) : Prog Op Ans α → Prop
  | ret _ => True
  | ask o k => P o ∧ ∀ r, Only P (k r)

theorem Only.mono {P P' : Op → Prop} {m : Prog Op Ans α} (h : m.Only P) (hP : ∀ o, P o → P' o) :
    m.Only P' := by
  induction m with
  | ret a => trivial
  | ask o k ih => exact ⟨hP o h.1, fun r => ih r (h.2 r)⟩

theorem Only.and {P P' : Op → Prop} {m : Prog Op Ans α} (h : m.Only P) (h' : m.Only P') :
    m.Only fun o => P o ∧ P' o := by
  induction m with
  | ret a => trivial
  | ask o k ih => exact ⟨⟨h.1, h'.1⟩, fun r => ih r (h.2 r) (h'.2 r)⟩

theorem Only.bind {P : Op → Prop} {m : Prog Op Ans α} {f : α → Prog Op Ans β} (h : m.Only P)
    (hf : ∀ a, (f a).Only P) : (m >>= f).Only P := by
  induction m with
  | ret a => exact hf a
  | ask o k ih => exact ⟨h.1, fun r => ih r (h.2 r)⟩

theorem Only.asked {P : Op → Prop} {answer : (o : Op) → Option (Ans o)} {m : Prog Op Ans α}
    (h : m.Only P) : ∀ o ∈ asked answer m, P o := by
  induction m with
  | ret a => simp [Prog.asked]
  | ask o k ih =>
    simp only [Prog.asked, List.mem_cons, forall_eq_or_imp]
    refine ⟨h.1, ?_⟩
    cases answer o with
    | none => simp
    | some r => exact ih r (h.2 r)

/-! ## Disciplines -/

section
variable {σ : Type*} (next : σ → (o : Op) → Option (Ans o → σ))

/-- From stage `s` the program makes only requests that the discipline `next`
allows, whatever the answers, and ends in a stage and with a value that `Q`
relates. -/
def Follows (Q : σ → α → Prop) : σ → Prog Op Ans α → Prop
  | s, ret a => Q s a
  | s, ask o k => ∃ after, next s o = some after ∧ ∀ r, Follows Q (after r) (k r)

variable {next} {Q Q' : σ → α → Prop} {R : σ → β → Prop} {s : σ}

@[simp] theorem follows_ret {a : α} : Follows next Q s (ret a) ↔ Q s a := Iff.rfl

theorem Follows.mono {m : Prog Op Ans α} (h : Follows next Q s m) (hQ : ∀ s a, Q s a → Q' s a) :
    Follows next Q' s m := by
  induction m generalizing s with
  | ret a => exact hQ _ _ h
  | ask o k ih =>
    obtain ⟨after, hafter, hk⟩ := h
    exact ⟨after, hafter, fun r => ih r (hk r)⟩

theorem Follows.bind {m : Prog Op Ans α} {f : α → Prog Op Ans β} (h : Follows next Q s m)
    (hf : ∀ s a, Q s a → Follows next R s (f a)) : Follows next R s (m >>= f) := by
  induction m generalizing s with
  | ret a => exact hf _ _ h
  | ask o k ih =>
    obtain ⟨after, hafter, hk⟩ := h
    exact ⟨after, hafter, fun r => ih r (hk r)⟩

/-- Whatever the answers, the program does not end before a request that meets `P`. -/
def Until (P : Op → Prop) : Prog Op Ans α → Prop
  | ret _ => False
  | ask o k => P o ∨ ∀ r, Until P (k r)

/-- A rule for programs on a discipline: they do not end in the stages `S`, and leave them with a request
that meets `P` only. -/
theorem Follows.until_of {P : Op → Prop} {S : σ → Prop} {m : Prog Op Ans α} (h : Follows next Q s m) (hs : S s)
    (hend : ∀ s a, S s → ¬ Q s a)
    (hnext : ∀ s o after, S s → next s o = some after → P o ∨ ∀ r, S (after r)) : m.Until P := by
  induction m generalizing s with
  | ret a => exact hend s a hs h
  | ask o k ih =>
    obtain ⟨after, hafter, hk⟩ := h
    obtain hP | hS := hnext s o after hs hafter
    · exact .inl hP
    · exact .inr fun r => ih r (hk r) (hS r)

/-- Requests that the discipline allows and that keep the stage. -/
theorem Only.follows {P : Op → Prop} {m : Prog Op Ans α} (h : m.Only P)
    (hP : ∀ o, P o → ∃ after, next s o = some after ∧ ∀ r, after r = s) :
    Follows next (fun s' _ => s' = s) s m := by
  induction m with
  | ret a => exact rfl
  | ask o k ih =>
    obtain ⟨after, hafter, hstays⟩ := hP o h.1
    refine ⟨after, hafter, fun r => ?_⟩
    rw [hstays r]
    exact ih r (h.2 r)

end

end Prog

end interaction
