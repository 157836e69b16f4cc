import Mathlib.Logic.Function.Basic
import Mathlib.Tactic.Common

/-!
# A mutex made of a semaphore and a holder field

A thread takes the permit of the semaphore and stores its name afterwards; to
release the mutex it clears the name first and gives the permit back later.
Between these steps the value and the holder disagree. The protocol excludes
other threads all the same, if a thread asks only for a mutex that does not
bear its name and releases only one that does.
-/

namespace mutex

/-- How far a thread is with the mutex. -/
inductive Stage where
  | outside
  /-- Waiting for the permit. -/
  | asking
  /-- It has the permit, but is not the holder yet. -/
  | taking
  /-- It is the holder, but has not returned yet. -/
  | returning
  /-- It is not the holder any more, but has the permit still. -/
  | releasing
  deriving DecidableEq, Repr

/-- The mutex and its users. `taker` is a history variable: the thread that
took the permit last and has not given it back. -/
structure Mutex (T : Type*) where
  value : Nat
  holder : Option T
  stage : T → Stage
  taker : Option T

inductive Event (T : Type*) where
  | ask (t : T)
  | take (t : T)
  | set_holder (t : T)
  | enter (t : T)
  | leave (t : T)
  | up (t : T)

variable {T : Type*} {m m' : Mutex T} {t u : T}

section protocol

variable [DecidableEq T]

/-- The thread is now at another stage. -/
def Mutex.move (m : Mutex T) (t : T) (s : Stage) : Mutex T := { m with stage := Function.update m.stage t s }

@[simp] theorem move_value (s : Stage) : (m.move t s).value = m.value := rfl

@[simp] theorem move_holder (s : Stage) : (m.move t s).holder = m.holder := rfl

@[simp] theorem move_taker (s : Stage) : (m.move t s).taker = m.taker := rfl

theorem move_stage (s : Stage) : (m.move t s).stage u = if u = t then s else m.stage u := by
  simp [Mutex.move, Function.update_apply]

/-- The steps of the protocol. -/
inductive Mutex.Step (m : Mutex T) : Option (Event T) → Mutex T → Prop where
  | none : m.Step none m
  | ask (t : T) (hstage : m.stage t = .outside) (hholder : m.holder ≠ some t) :
      m.Step (some (.ask t)) (m.move t .asking)
  /-- Also without asking, when there is a permit. -/
  | take (t : T) (hstage : m.stage t = .asking ∨ m.stage t = .outside) (hholder : m.holder ≠ some t)
      (hvalue : m.value ≠ 0) :
      m.Step (some (.take t)) { m.move t .taking with value := m.value - 1, taker := some t }
  | set_holder (t : T) (hstage : m.stage t = .taking) :
      m.Step (some (.set_holder t)) { m.move t .returning with holder := some t }
  | enter (t : T) (hstage : m.stage t = .returning) : m.Step (some (.enter t)) (m.move t .outside)
  | leave (t : T) (hstage : m.stage t = .outside) (hholder : m.holder = some t) :
      m.Step (some (.leave t)) { m.move t .releasing with holder := none }
  | up (t : T) (hstage : m.stage t = .releasing) :
      m.Step (some (.up t)) { m.move t .outside with value := m.value + 1, taker := none }

end protocol

/-- The thread has the permit. -/
def Mutex.Claims (m : Mutex T) (t : T) : Prop :=
  m.stage t = .taking ∨ m.stage t = .releasing ∨ m.holder = some t

/-- What the protocol keeps. -/
structure Mutex.Valid (m : Mutex T) : Prop where
  value : m.value ≤ 1
  free : m.value = 1 → m.taker = none
  claims : ∀ t, m.Claims t → m.taker = some t
  returning : ∀ t, m.stage t = .returning → m.holder = some t
  asking : ∀ t, m.stage t = .asking ∨ m.stage t = .taking → m.holder ≠ some t
  releasing : ∀ t, m.stage t = .releasing → m.holder = none

/-- The mutex when it is initialized. -/
theorem valid_init (hvalue : m.value = 1) (hholder : m.holder = none) (htaker : m.taker = none)
    (hstage : ∀ t, m.stage t = .outside) : m.Valid := by
  constructor <;> simp [hvalue, hholder, htaker, hstage, Mutex.Claims]

theorem Mutex.Valid.claims_unique (h : m.Valid) (ht : m.Claims t) (hu : m.Claims u) : t = u := by
  have htaker := h.claims t ht
  rw [h.claims u hu] at htaker
  exact (Option.some.inj htaker).symm

/-- While there is a permit nobody claims it. -/
theorem Mutex.Valid.not_claims (h : m.Valid) (hvalue : m.value ≠ 0) (t : T) : ¬ m.Claims t := by
  intro ht
  have hle := h.value
  have hnone := h.free (by omega)
  rw [h.claims t ht] at hnone
  cases hnone

/-- Only one thread has the permit, and nobody while it is in the semaphore. -/
theorem Mutex.Step.valid [DecidableEq T] {e : Option (Event T)} (hs : m.Step e m') (h : m.Valid) :
    m'.Valid := by
  cases hs with
  | none => exact h
  | ask t hstage hholder =>
    refine ⟨h.value, h.free, fun u hu => h.claims u ?_, fun u hu => h.returning u ?_, fun u hu => ?_,
      fun u hu => h.releasing u ?_⟩
    · simp only [Mutex.Claims, move_stage, move_holder] at hu ⊢
      split at hu <;> simp_all
    · rw [move_stage] at hu
      split at hu <;> simp_all
    · rw [move_stage] at hu
      split at hu
      · rename_i hut
        exact hut ▸ hholder
      · exact h.asking u hu
    · rw [move_stage] at hu
      split at hu <;> simp_all
  | take t hstage hholder hvalue =>
    have hnone := h.not_claims hvalue
    have hle := h.value
    simp only [Mutex.Claims, not_or] at hnone
    refine ⟨by simp only; omega, fun hone => by simp only at hone; omega, fun u hu => ?_, fun u hu => ?_,
      fun u _ => (hnone u).2.2, fun u hu => ?_⟩
    · simp only [Mutex.Claims, move_stage, move_holder] at hu
      split at hu
      · simp_all
      · exact absurd hu (by simp [hnone u])
    · rw [move_stage] at hu
      split at hu
      · cases hu
      · exact absurd (h.returning u hu) (hnone u).2.2
    · rw [move_stage] at hu
      split at hu
      · cases hu
      · exact absurd hu (hnone u).2.1
  | set_holder t hstage =>
    have htaker := h.claims t (.inl hstage)
    have honly (u : T) (hu : m.Claims u) : u = t := h.claims_unique hu (.inl hstage)
    refine ⟨h.value, h.free, fun u hu => ?_, fun u hu => ?_, fun u hu => ?_, fun u hu => ?_⟩
    · simp only [Mutex.Claims, move_stage] at hu
      split at hu
      · rename_i hut
        exact hut ▸ htaker
      · rcases hu with hu | hu | hu
        · exact honly u (.inl hu) ▸ htaker
        · exact honly u (.inr (.inl hu)) ▸ htaker
        · exact (Option.some.inj hu) ▸ htaker
    · rw [move_stage] at hu
      split at hu
      · simp_all
      · exact absurd (honly u (.inr (.inr (h.returning u hu)))) ‹_›
    · rw [move_stage] at hu
      split at hu
      · simp at hu
      · rename_i hut
        simpa using Ne.symm hut
    · rw [move_stage] at hu
      split at hu
      · cases hu
      · exact absurd (honly u (.inr (.inl hu))) ‹_›
  | enter t hstage =>
    refine ⟨h.value, h.free, fun u hu => h.claims u ?_, fun u hu => h.returning u ?_,
      fun u hu => h.asking u ?_, fun u hu => h.releasing u ?_⟩
    all_goals
      simp only [Mutex.Claims, move_stage, move_holder] at hu ⊢
      split at hu <;> simp_all
  | leave t hstage hholder =>
    have htaker := h.claims t (.inr (.inr hholder))
    have honly (u : T) (hu : m.Claims u) : u = t := h.claims_unique hu (.inr (.inr hholder))
    refine ⟨h.value, h.free, fun u hu => ?_, fun u hu => ?_, by simp, by simp⟩
    · simp only [Mutex.Claims, move_stage] at hu
      split at hu
      · rename_i hut
        exact hut ▸ htaker
      · rcases hu with hu | hu | hu
        · exact honly u (.inl hu) ▸ htaker
        · exact honly u (.inr (.inl hu)) ▸ htaker
        · cases hu
    · rw [move_stage] at hu
      split at hu
      · cases hu
      · exact absurd (honly u (.inr (.inr (h.returning u hu)))) ‹_›
  | up t hstage =>
    have htaker := h.claims t (.inr (.inl hstage))
    have hholder := h.releasing t hstage
    have honly (u : T) (hu : m.Claims u) : u = t := h.claims_unique hu (.inr (.inl hstage))
    have hzero : m.value = 0 := by
      by_contra hvalue
      exact h.not_claims hvalue t (.inr (.inl hstage))
    refine ⟨by simp [hzero], fun _ => rfl, fun u hu => ?_, fun u hu => ?_, by simp [hholder], by simp [hholder]⟩
    · exfalso
      simp only [Mutex.Claims, move_stage, move_holder, hholder] at hu
      split at hu
      · simp at hu
      · rcases hu with hu | hu | hu
        · exact absurd (honly u (.inl hu)) ‹_›
        · exact absurd (honly u (.inr (.inl hu))) ‹_›
        · cases hu
    · rw [move_stage] at hu
      split at hu
      · cases hu
      · exact absurd (h.returning u hu) (by simp [hholder])

/-- The holder stays the holder until it releases the mutex. -/
theorem Mutex.Step.holder [DecidableEq T] {e : Option (Event T)} (hs : m.Step e m') (h : m.Valid)
    (ht : m.holder = some t) (he : e ≠ some (.leave t)) : m'.holder = some t := by
  cases hs with
  | none => exact ht
  | ask u => exact ht
  | take u => exact ht
  | set_holder u hstage =>
    have hut := h.claims_unique (.inr (.inr ht)) (.inl hstage)
    simp [hut]
  | enter u => exact ht
  | leave u hstage hholder =>
    rw [ht, Option.some.injEq] at hholder
    exact absurd (by rw [hholder]) he
  | up u => exact ht

end mutex
