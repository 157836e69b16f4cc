import Mathlib.Tactic.Common

/-!
# Computations with a state and errors

A computation takes a state and ends with a result and a new state, or with an
error. The rules say how a sequence runs when its first part is known to end well.
-/

namespace state_error

/-- Computations on states `σ` that can end in an error `ε`. -/
def Exec (σ ε α : Type) := σ → Except ε (α × σ)

namespace Exec

variable {σ ε α β : Type} {s s' : σ}

instance : Monad (Exec σ ε) where
  pure a := fun s => .ok (a, s)
  bind f g := fun s =>
    match f s with
    | .ok (a, s') => g a s'
    | .error e => .error e

/-- The state. -/
def get : Exec σ ε σ := fun s => .ok (s, s)

/-- Change the state. -/
def modify (f : σ → σ) : Exec σ ε Unit := fun s => .ok ((), f s)

def throw (e : ε) : Exec σ ε α := fun _ => .error e

/-- A check that ends in an error where `p` fails. -/
def ASSERT (p : Prop) [Decidable p] (e : ε) : Exec σ ε Unit :=
  if p then pure () else throw e

@[simp] theorem pure_run (a : α) : (pure a : Exec σ ε α) s = .ok (a, s) := rfl

@[simp] theorem get_run : (get : Exec σ ε σ) s = .ok (s, s) := rfl

@[simp] theorem modify_run (f : σ → σ) : (modify f : Exec σ ε Unit) s = .ok ((), f s) := rfl

/-- A check that holds changes nothing. -/
theorem ASSERT_run {p : Prop} [Decidable p] (hp : p) (e : ε) : ASSERT p e s = .ok ((), s) := by
  rw [ASSERT, if_pos hp]
  rfl

/-- A check that fails ends the computation. -/
theorem ASSERT_error {p : Prop} [Decidable p] (hp : ¬ p) (e : ε) : ASSERT p e s = .error e := by
  rw [ASSERT, if_neg hp]
  rfl

theorem ASSERT_eq_ok {p : Prop} [Decidable p] {e : ε} {u : Unit} :
    ASSERT p e s = .ok (u, s') ↔ p ∧ s' = s := by
  by_cases hp : p
  · rw [ASSERT_run hp]
    simp [hp, eq_comm]
  · simp [ASSERT, hp, throw]

/-- A computation goes on from where its first part ended. -/
theorem bind_run {f : Exec σ ε α} {g : α → Exec σ ε β} {a : α} (h : f s = .ok (a, s')) :
    (f >>= g) s = g a s' := by
  change (match f s with | .ok (a, s') => g a s' | .error e => .error e) = g a s'
  rw [h]

/-- A computation ends with the error of its first part. -/
theorem bind_error {f : Exec σ ε α} {g : α → Exec σ ε β} {e : ε} (h : f s = .error e) :
    (f >>= g) s = .error e := by
  change (match f s with | .ok (a, s') => g a s' | .error e => .error e) = .error e
  rw [h]

/-- A computation ends well where both of its parts do. -/
theorem bind_eq_ok {f : Exec σ ε α} {g : α → Exec σ ε β} {b : β} :
    (f >>= g) s = .ok (b, s') ↔ ∃ a t, f s = .ok (a, t) ∧ g a t = .ok (b, s') := by
  change (match f s with | .ok (a, s') => g a s' | .error e => .error e) = _ ↔ _
  cases h : f s with
  | error e => simp
  | ok r =>
    obtain ⟨a, t⟩ := r
    simp

/-- What follows a check ends well where the check holds. -/
theorem ASSERT_bind_eq_ok {p : Prop} [Decidable p] {e : ε} {g : Unit → Exec σ ε β} {b : β} :
    (ASSERT p e >>= g) s = .ok (b, s') ↔ p ∧ g () s = .ok (b, s') := by
  rw [bind_eq_ok]
  constructor
  · rintro ⟨⟨⟩, t, hcheck, hrest⟩
    obtain ⟨hp, rfl⟩ := ASSERT_eq_ok.mp hcheck
    exact ⟨hp, hrest⟩
  · rintro ⟨hp, hrest⟩
    exact ⟨(), s, ASSERT_run hp e, hrest⟩

/-- Where the computation ends well, `R` relates the states before and after it, and else
the error is one of `E`. -/
structure Frame (R : σ → σ → Prop) (E : ε → Prop) (f : Exec σ ε α) : Prop where
  ok : ∀ s a s', f s = .ok (a, s') → R s s'
  error : ∀ s e, f s = .error e → E e

namespace Frame

variable {R : σ → σ → Prop} {E : ε → Prop}

theorem modify {f : σ → σ} (h : ∀ s, R s (f s)) : Frame R E (Exec.modify f) := by
  refine ⟨?_, nofun⟩
  rintro s a s' ⟨⟩
  exact h s

theorem throw {e : ε} (he : E e) : Frame R E (Exec.throw e : Exec σ ε α) := by
  refine ⟨nofun, ?_⟩
  rintro s e' ⟨⟩
  exact he

theorem pure [Std.Refl R] (a : α) : Frame R E (Pure.pure a : Exec σ ε α) := by
  refine ⟨?_, nofun⟩
  rintro s a s' ⟨⟩
  exact Std.Refl.refl s

theorem get [Std.Refl R] : Frame R E (Exec.get : Exec σ ε σ) := by
  refine ⟨?_, nofun⟩
  rintro s a s' ⟨⟩
  exact Std.Refl.refl s

theorem ASSERT [Std.Refl R] {p : Prop} [Decidable p] {e : ε} (he : E e) :
    Frame R E (Exec.ASSERT p e) := by
  by_cases hp : p
  · rw [Exec.ASSERT, if_pos hp]
    exact pure ()
  · rw [Exec.ASSERT, if_neg hp]
    exact throw he

theorem bind [IsTrans σ R] {f : Exec σ ε α} {g : α → Exec σ ε β} (hf : Frame R E f)
    (hg : ∀ a, Frame R E (g a)) : Frame R E (f >>= g) := by
  refine ⟨?_, ?_⟩
  · intro s b s' h
    obtain ⟨a, t, hfirst, hrest⟩ := bind_eq_ok.mp h
    exact IsTrans.trans _ _ _ (hf.ok _ _ _ hfirst) ((hg a).ok _ _ _ hrest)
  · intro s e h
    cases hfirst : f s with
    | error e' =>
      obtain rfl : e' = e := Except.error.inj ((bind_error hfirst).symm.trans h)
      exact hf.error _ _ hfirst
    | ok r =>
      obtain ⟨a, t⟩ := r
      exact (hg a).error _ _ ((bind_run hfirst).symm.trans h)

end Frame

/-- From `s` the computation ends well in `Q`, or else in an error of `E`. -/
def Ends (E : ε → Prop) (f : Exec σ ε α) (s : σ) (Q : α → σ → Prop) : Prop :=
  (∀ a s', f s = .ok (a, s') → Q a s') ∧ ∀ e, f s = .error e → E e

namespace Ends

variable {E : ε → Prop} {Q : α → σ → Prop} {f : Exec σ ε α}

theorem of_ok {a : α} (h : f s = .ok (a, s')) (hq : Q a s') : Ends E f s Q := by
  refine ⟨?_, ?_⟩
  · intro b t ht
    obtain ⟨rfl, rfl⟩ : a = b ∧ s' = t := Prod.mk.inj (Except.ok.inj (h.symm.trans ht))
    exact hq
  · intro e he
    rw [h] at he
    cases he

theorem of_error {e : ε} (h : f s = .error e) (he : E e) : Ends E f s Q := by
  refine ⟨?_, ?_⟩
  · intro b t ht
    rw [h] at ht
    cases ht
  · intro e' he'
    obtain rfl : e = e' := Except.error.inj (h.symm.trans he')
    exact he

theorem of_frame {R : σ → σ → Prop} (h : Frame R E f) (hq : ∀ a s', R s s' → Q a s') : Ends E f s Q :=
  ⟨fun a s' hok => hq a s' (h.ok s a s' hok), h.error s⟩

theorem mono {Q' : α → σ → Prop} (h : Ends E f s Q') (hq : ∀ a s', Q' a s' → Q a s') : Ends E f s Q :=
  ⟨fun a s' hok => hq a s' (h.1 a s' hok), h.2⟩

theorem and {Q' : α → σ → Prop} (h : Ends E f s Q) (h' : Ends E f s Q') :
    Ends E f s fun a s' => Q a s' ∧ Q' a s' :=
  ⟨fun a s' hok => ⟨h.1 a s' hok, h'.1 a s' hok⟩, h.2⟩

theorem congr {g : Exec σ ε α} (h : f s = g s) (hg : Ends E g s Q) : Ends E f s Q := by
  rwa [Ends, h]

theorem after {g : α → Exec σ ε β} {Q' : β → σ → Prop} {a : α} (h : f s = .ok (a, s'))
    (hg : Ends E (g a) s' Q') : Ends E (f >>= g) s Q' := by
  rwa [Ends, bind_run h]

theorem bind {g : α → Exec σ ε β} {Q' : β → σ → Prop} (hf : Ends E f s Q)
    (hg : ∀ a t, Q a t → Ends E (g a) t Q') : Ends E (f >>= g) s Q' := by
  cases h : f s with
  | error e => exact of_error (bind_error h) (hf.2 e h)
  | ok r =>
    obtain ⟨a, t⟩ := r
    exact after h (hg a t (hf.1 a t h))

end Ends

/-- Computations end in one way only. -/
theorem ok_inj {f : Exec σ ε α} {a b : α} {t : σ} (h : f s = .ok (a, s')) (h' : f s = .ok (b, t)) :
    a = b ∧ s' = t :=
  Prod.mk.inj (Except.ok.inj (h.symm.trans h'))

end Exec

end state_error
