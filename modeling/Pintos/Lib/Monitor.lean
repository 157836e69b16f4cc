import Mathlib.Logic.Function.Basic
import Mathlib.Tactic.Common

/-!
# Condition variables with a semaphore for each waiter

A waiter enters its semaphore into the queue of the condition and then downs
it. A signal takes the first waiter off the queue and ups its semaphore later.
Whatever happens between these steps, a waiter returns exactly after an up that
was meant for it, and no signal is lost or sent twice.
-/

namespace monitor

/-- How far the waiting of a thread has come. -/
inductive Wait (T C : Type*) where
  | out
  | queued (c : C)
  /-- Taken off the queue by `t`, which has still to up the semaphore. -/
  | signalled (c : C) (t : T)
  | released (c : C)

/-- The point at which a thread is itself: the down of its semaphore is ahead,
or done. -/
inductive Point (C : Type*) where
  | out
  | waiting (c : C)
  | past (c : C)

/-- The condition that a thread signals, the threads that waited for it when the
signal was called, and those that the caller has released since. -/
structure Call (T C : Type*) where
  cond : Option C
  waiting : List T
  released : List T

/-- Conditions and their users. `wait` and `signal` are history variables. -/
structure Monitor (T C : Type*) where
  queue : C → List T
  pending : T → Option T
  permits : T → Nat
  point : T → Point C
  wait : T → Wait T C
  signal : T → Call T C

inductive Event (T C : Type*) where
  | wait (u : T) (c : C)
  | signal (t : T) (c : C)
  | up (t u : T)
  | down (u : T)
  | leave (u : T)

variable {T C : Type*} {m m' : Monitor T C} {t u : T} {c : C}

/-- The waiter's semaphore has been upped. -/
def Wait.release : Wait T C → Wait T C
  | .signalled c _ => .released c
  | w => w

/-- What the protocol keeps. -/
structure Monitor.Valid (m : Monitor T C) : Prop where
  nodup : ∀ c, (m.queue c).Nodup
  queued : ∀ u c, u ∈ m.queue c ↔ m.wait u = .queued c
  pending : ∀ t u, m.pending t = some u ↔ ∃ c, m.wait u = .signalled c t
  out : ∀ u, m.point u = .out → m.wait u = .out
  waiting : ∀ u c, m.point u = .waiting c →
    m.wait u = .queued c ∨ (∃ t, m.wait u = .signalled c t) ∨ m.wait u = .released c
  past : ∀ u c, m.point u = .past c → m.wait u = .released c
  permits : ∀ u, m.permits u ≠ 0 → ∃ c, m.point u = .waiting c ∧ m.wait u = .released c
  permit : ∀ u c, m.point u = .waiting c → m.wait u = .released c → m.permits u = 1
  called : ∀ t, (m.signal t).waiting.head?.toList = (m.signal t).released ++ (m.pending t).toList

/-- A monitor that nobody uses. -/
theorem valid_init (hqueue : ∀ c, m.queue c = []) (hpending : ∀ t, m.pending t = none)
    (hpermits : ∀ u, m.permits u = 0) (hpoint : ∀ u, m.point u = .out) (hwait : ∀ u, m.wait u = .out)
    (hsignal : ∀ t, m.signal t = ⟨none, [], []⟩) : m.Valid := by
  constructor <;> simp [hqueue, hpending, hpermits, hpoint, hwait, hsignal]

theorem Monitor.Valid.waiting_of_queued (h : m.Valid) (hwait : m.wait u = .queued c) :
    m.point u = .waiting c := by
  cases hpoint : m.point u with
  | out => simp [h.out u hpoint] at hwait
  | waiting c' =>
    rcases h.waiting u c' hpoint with hw | ⟨t, hw⟩ | hw <;> simp_all
  | past c' => simp [h.past u c' hpoint] at hwait

theorem Monitor.Valid.waiting_of_signalled (h : m.Valid) (hwait : m.wait u = .signalled c t) :
    m.point u = .waiting c := by
  cases hpoint : m.point u with
  | out => simp [h.out u hpoint] at hwait
  | waiting c' =>
    rcases h.waiting u c' hpoint with hw | ⟨t, hw⟩ | hw <;> simp_all
  | past c' => simp [h.past u c' hpoint] at hwait

section protocol

variable [DecidableEq T]

/-- The addressed waiter gets its permit. -/
theorem Monitor.Valid.up_step (h : m.Valid) (hpending : m.pending t = some u) : Monitor.Valid
    { m with
      pending := Function.update m.pending t none
      permits := Function.update m.permits u (m.permits u + 1)
      wait := Function.update m.wait u (m.wait u).release
      signal := Function.update m.signal t
        { m.signal t with released := (m.signal t).released ++ [u] } } := by
  obtain ⟨c, hu⟩ := (h.pending t u).mp hpending
  have hpoint := h.waiting_of_signalled hu
  have hzero : m.permits u = 0 := by
    by_contra hne
    obtain ⟨c', -, hw⟩ := h.permits u hne
    simp [hu] at hw
  rw [hu]
  simp only [Wait.release, hzero, Nat.zero_add]
  refine ⟨h.nodup, fun v c' => ?_, fun s v => ?_, fun v => ?_, fun v c' => ?_, fun v c' => ?_,
    fun v => ?_, fun v c' => ?_, fun s => ?_⟩
  · simp only [Function.update_apply]
    rw [h.queued]
    by_cases hv : v = u
    · simp [hv, hu]
    · simp [hv]
  · simp only [Function.update_apply]
    have hold := h.pending s v
    by_cases hv : v = u
    · subst hv
      by_cases hs : s = t
      · simp [hs]
      · simpa [hs, hu, Ne.symm hs] using hold
    · by_cases hs : s = t
      · subst hs
        rw [hpending] at hold
        simpa [hv, Ne.symm hv] using hold
      · simpa [hs, hv] using hold
  · simp only [Function.update_apply]
    split
    · rename_i hv
      simp [hv, hpoint]
    · exact h.out v
  · simp only [Function.update_apply]
    split
    · rename_i hv
      subst hv
      simp [hpoint]
    · exact h.waiting v c'
  · simp only [Function.update_apply]
    split
    · rename_i hv
      simp [hv, hpoint]
    · exact h.past v c'
  · simp only [Function.update_apply]
    split
    · rename_i hv
      subst hv
      simp [hpoint]
    · exact h.permits v
  · simp only [Function.update_apply]
    split
    · simp
    · exact h.permit v c'
  · simp only [Function.update_apply]
    have hcalled := h.called s
    split
    · rename_i hs
      subst hs
      simpa [hpending] using hcalled
    · exact hcalled

/-- A waiter takes its permit. -/
theorem Monitor.Valid.down_step (h : m.Valid) (hpoint : m.point u = .waiting c) (hpermits : m.permits u ≠ 0) :
    Monitor.Valid
    { m with
      permits := Function.update m.permits u (m.permits u - 1)
      point := Function.update m.point u (.past c) } := by
  have hu : m.wait u = .released c := by
    obtain ⟨c', hc', hw⟩ := h.permits u hpermits
    rw [hpoint, Point.waiting.injEq] at hc'
    rw [hw, hc']
  have hone := h.permit u c hpoint hu
  refine ⟨h.nodup, h.queued, h.pending, fun v => ?_, fun v c' => ?_, fun v c' => ?_, fun v => ?_,
    fun v c' => ?_, h.called⟩
  all_goals
    simp only [Function.update_apply]
    by_cases hv : v = u
    · subst hv
      simp_all
    · simp only [hv, if_false]
      first
        | exact h.out v
        | exact h.waiting v c'
        | exact h.past v c'
        | exact h.permits v
        | exact h.permit v c'

/-- A waiter returns. -/
theorem Monitor.Valid.leave_step (h : m.Valid) (hpoint : m.point u = .past c) : Monitor.Valid
    { m with
      point := Function.update m.point u .out
      wait := Function.update m.wait u .out } := by
  have hu := h.past u c hpoint
  have hzero : m.permits u = 0 := by
    by_contra hne
    obtain ⟨c', hc', -⟩ := h.permits u hne
    simp [hpoint] at hc'
  refine ⟨h.nodup, fun v c' => ?_, fun s v => ?_, fun v => ?_, fun v c' => ?_, fun v c' => ?_, fun v => ?_,
    fun v c' => ?_, h.called⟩
  · simp only [Function.update_apply]
    rw [h.queued]
    by_cases hv : v = u
    · simp [hv, hu]
    · simp [hv]
  · simp only [Function.update_apply]
    rw [h.pending]
    by_cases hv : v = u
    · simp [hv, hu]
    · simp [hv]
  all_goals
    simp only [Function.update_apply]
    by_cases hv : v = u
    · subst hv
      simp_all
    · simp only [hv, if_false]
      first
        | exact h.out v
        | exact h.waiting v c'
        | exact h.past v c'
        | exact h.permits v
        | exact h.permit v c'

variable [DecidableEq C]

/-- The first of the waiters is addressed by `t`. -/
def address (wait : T → Wait T C) (c : C) (t : T) : Option T → T → Wait T C
  | some u => Function.update wait u (.signalled c t)
  | none => wait

/-- The steps of the protocol. -/
inductive Monitor.Step (m : Monitor T C) : Option (Event T C) → Monitor T C → Prop where
  | none : m.Step none m
  | wait (u : T) (c : C) (hpoint : m.point u = .out) :
      m.Step (some (.wait u c))
        { m with
          queue := Function.update m.queue c (m.queue c ++ [u])
          permits := Function.update m.permits u 0
          point := Function.update m.point u (.waiting c)
          wait := Function.update m.wait u (.queued c) }
  | signal (t : T) (c : C) (hpending : m.pending t = none) :
      m.Step (some (.signal t c))
        { m with
          queue := Function.update m.queue c (m.queue c).tail
          pending := Function.update m.pending t (m.queue c).head?
          wait := address m.wait c t (m.queue c).head?
          signal := Function.update m.signal t ⟨some c, m.queue c, []⟩ }
  | up (t u : T) (hpending : m.pending t = some u) :
      m.Step (some (.up t u))
        { m with
          pending := Function.update m.pending t none
          permits := Function.update m.permits u (m.permits u + 1)
          wait := Function.update m.wait u (m.wait u).release
          signal := Function.update m.signal t
            { m.signal t with released := (m.signal t).released ++ [u] } }
  | down (u : T) (c : C) (hpoint : m.point u = .waiting c) (hpermits : m.permits u ≠ 0) :
      m.Step (some (.down u))
        { m with
          permits := Function.update m.permits u (m.permits u - 1)
          point := Function.update m.point u (.past c) }
  | leave (u : T) (c : C) (hpoint : m.point u = .past c) :
      m.Step (some (.leave u))
        { m with
          point := Function.update m.point u .out
          wait := Function.update m.wait u .out }

/-- A thread enters the queue of a condition. -/
theorem Monitor.Valid.wait_step (h : m.Valid) (hpoint : m.point u = .out) : Monitor.Valid
    { m with
      queue := Function.update m.queue c (m.queue c ++ [u])
      permits := Function.update m.permits u 0
      point := Function.update m.point u (.waiting c)
      wait := Function.update m.wait u (.queued c) } := by
  have hout := h.out u hpoint
  have hnot (c' : C) : u ∉ m.queue c' := fun hmem => by simp [(h.queued u c').mp hmem] at hout
  refine ⟨fun c' => ?_, fun v c' => ?_, fun t v => ?_, fun v => ?_, fun v c' => ?_, fun v c' => ?_,
    fun v => ?_, fun v c' => ?_, h.called⟩
  · simp only [Function.update_apply]
    split
    · exact List.nodup_append.mpr ⟨h.nodup c, by simp, fun a ha b hb hab => by
        obtain rfl := List.mem_singleton.mp hb
        exact hnot c (hab ▸ ha)⟩
    · exact h.nodup c'
  · simp only [Function.update_apply]
    by_cases hv : v = u
    · subst hv
      by_cases hc : c' = c
      · simp [hc]
      · simpa [hc, Ne.symm hc] using hnot c'
    · by_cases hc : c' = c
      · subst hc
        simp [hv, h.queued]
      · simp [hv, hc, h.queued]
  · simp only [Function.update_apply]
    rw [h.pending]
    by_cases hv : v = u
    · subst hv
      simp [hout]
    · simp [hv]
  all_goals
    simp only [Function.update_apply]
    by_cases hv : v = u
    · subst hv
      simp
    · simp only [hv, if_false]
      first
        | exact h.out v
        | exact h.waiting v c'
        | exact h.past v c'
        | exact h.permits v
        | exact h.permit v c'

/-- A signal takes the first waiter off the queue. -/
theorem Monitor.Valid.signal_step (h : m.Valid) (hpending : m.pending t = none) : Monitor.Valid
    { m with
      queue := Function.update m.queue c (m.queue c).tail
      pending := Function.update m.pending t (m.queue c).head?
      wait := address m.wait c t (m.queue c).head?
      signal := Function.update m.signal t ⟨some c, m.queue c, []⟩ } := by
  cases hqueue : m.queue c with
  | nil =>
    have hq : Function.update m.queue c [] = m.queue := by rw [← hqueue, Function.update_eq_self]
    have hp : Function.update m.pending t none = m.pending := by rw [← hpending, Function.update_eq_self]
    simp only [List.tail_nil, List.head?_nil, address, hq, hp]
    refine ⟨h.nodup, h.queued, h.pending, h.out, h.waiting, h.past, h.permits, h.permit, fun v => ?_⟩
    simp only [Function.update_apply]
    split
    · rename_i hv
      simp [hv, hpending]
    · exact h.called v
  | cons u rest =>
    have hu : m.wait u = .queued c := (h.queued u c).mp (by simp [hqueue])
    have hnodup := h.nodup c
    rw [hqueue] at hnodup
    obtain ⟨hfirst, hrest⟩ := List.nodup_cons.mp hnodup
    have hpoint := h.waiting_of_queued hu
    simp only [List.tail_cons, List.head?_cons, address]
    refine ⟨fun c' => ?_, fun v c' => ?_, fun s v => ?_, fun v => ?_, fun v c' => ?_, fun v c' => ?_,
      fun v => ?_, fun v c' => ?_, fun s => ?_⟩
    · simp only [Function.update_apply]
      split
      · exact hrest
      · exact h.nodup c'
    · simp only [Function.update_apply]
      by_cases hv : v = u
      · subst hv
        by_cases hc : c' = c
        · simpa [hc] using hfirst
        · simp [hc, h.queued, hu, Ne.symm hc]
      · by_cases hc : c' = c
        · have hmem := h.queued v c
          rw [hqueue] at hmem
          simpa [hc, hv] using hmem
        · simp [hc, hv, h.queued]
    · simp only [Function.update_apply]
      have hold := h.pending s v
      by_cases hv : v = u
      · subst hv
        by_cases hs : s = t
        · simp [hs]
        · simpa [hs, hu, Ne.symm hs] using hold
      · by_cases hs : s = t
        · subst hs
          rw [hpending] at hold
          simpa [hv, Ne.symm hv] using hold
        · simpa [hs, hv] using hold
    · simp only [Function.update_apply]
      split
      · rename_i hv
        simp [hv, hpoint]
      · exact h.out v
    · simp only [Function.update_apply]
      split
      · rename_i hv
        subst hv
        simp [hpoint]
      · exact h.waiting v c'
    · simp only [Function.update_apply]
      split
      · rename_i hv
        simp [hv, hpoint]
      · exact h.past v c'
    · simp only [Function.update_apply]
      split
      · rename_i hv
        subst hv
        intro hpermits
        obtain ⟨c', -, hw⟩ := h.permits v hpermits
        simp [hu] at hw
      · exact h.permits v
    · simp only [Function.update_apply]
      split
      · simp
      · exact h.permit v c'
    · simp only [Function.update_apply]
      split
      · simp
      · exact h.called s

/-- A step, with its outcome given field by field. -/
theorem Monitor.Step.congr {m₁ : Monitor T C} {e : Option (Event T C)} (hs : m.Step e m₁)
    (hqueue : m'.queue = m₁.queue) (hpending : m'.pending = m₁.pending) (hpermits : m'.permits = m₁.permits)
    (hpoint : m'.point = m₁.point) (hwait : m'.wait = m₁.wait) (hsignal : m'.signal = m₁.signal) :
    m.Step e m' := by
  have heq : m' = m₁ := by
    cases m'
    cases m₁
    simp_all
  rwa [heq]

theorem Monitor.Step.valid {e : Option (Event T C)} (hs : m.Step e m') (h : m.Valid) : m'.Valid := by
  cases hs with
  | none => exact h
  | wait u c hpoint => exact h.wait_step hpoint
  | signal t c hpending => exact h.signal_step hpending
  | up t u hpending => exact h.up_step hpending
  | down u c hpoint hpermits => exact h.down_step hpoint hpermits
  | leave u c hpoint => exact h.leave_step hpoint

end protocol

end monitor
