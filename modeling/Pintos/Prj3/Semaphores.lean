import Pintos.Prj3.SemaOrder
import Pintos.Prj3.Synch
import Pintos.Prj3.ThreadStates

/-!
# The permits of a semaphore

The value of a semaphore is accounted for by the increments and downs since it
was initialized. While threads wait, the permits are matched by threads that
`sema_up` has unblocked and that have not tested the loop condition again.
-/

open pintos.kernel transition

namespace pintos.prj3

variable {k k' : Kernel} {i : Instr} {rest : List Instr} {t : ThreadId} {l : Label} {s : SemaRef}

/-- What has happened to a semaphore since it was initialized. `in_transit` has
the threads that `sema_up` has unblocked and that have still to test the loop
condition of `sema_down` again; `wraps` counts the increments of `UINT_MAX`. -/
structure SemaHistory where
  init : Nat
  increments : Nat
  downs : Nat
  wraps : Nat
  in_transit : List ThreadId

def SemaHistory.start (init : Nat) : SemaHistory := ⟨init, 0, 0, 0, []⟩

/-- A test of the value, which completes a down if there is a permit. -/
def SemaHistory.down (a : SemaHistory) (v : Semaphore) : SemaHistory :=
  if v.value = 0 then a else { a with downs := a.downs + 1 }

/-- An increment, which unblocks the first waiter. -/
def SemaHistory.up (a : SemaHistory) (v : Semaphore) : SemaHistory :=
  { a with
    increments := a.increments + 1
    wraps := if v.value + 1 = 2 ^ 32 then a.wraps + 1 else a.wraps
    in_transit := a.in_transit ++ v.waiters.head?.toList }

/-- The history of semaphore `s` after an instruction. -/
def Instr.sema_history (k : Kernel) (s : SemaRef) (a : SemaHistory) : Instr → SemaHistory
  | .sema_init s' v => if s' = s then .start (v % 2 ^ 32) else a
  | .cond_wait _ _ => if .waiter k.current = s then .start 0 else a
  | .sema_up s' => if s' = s then a.up (k.sema s) else a
  | .sema_down_loop s' =>
    if s' = s then { a.down (k.sema s) with in_transit := a.in_transit.erase k.current } else a
  | .sema_try_down s' => if s' = s then a.down (k.sema s) else a
  | .lock_try_acquire lk => if .lock lk = s then a.down (k.sema s) else a
  | _ => a

def record_sema (s : SemaRef) (k : Kernel) (l : Label) (a : SemaHistory) : SemaHistory :=
  (k.executes l).elim a (Instr.sema_history k s a)

/-- The kernel with the history of semaphore `s`. -/
def with_sema_history (s : SemaRef) : System (Kernel × SemaHistory) Label :=
  kernel.observe (fun k => .start (k.sema s).value) (record_sema s)

/-- The thread is ready or running and tests the loop condition next. -/
def InTransit (s : SemaRef) (k : Kernel) (t : ThreadId) : Prop :=
  (k.threads t).code.head? = some (.sema_down_loop s) ∧ (t ∈ k.ready_list ∨ t = k.current)

/-- The value is accounted for, and covers no more than the threads in transit
while threads wait. -/
structure Permits (s : SemaRef) (k : Kernel) (a : SemaHistory) : Prop where
  unsigned : (k.sema s).value < 2 ^ 32
  balance : (k.sema s).value + a.downs + 2 ^ 32 * a.wraps = a.init + a.increments
  nodup : a.in_transit.Nodup
  in_transit : ∀ t ∈ a.in_transit, InTransit s k t
  bound : (k.sema s).waiters ≠ [] → (k.sema s).value ≤ a.in_transit.length

/-- The thread was blocked and is not any more. -/
def Unblocks (k k' : Kernel) (t : ThreadId) : Prop :=
  (k.threads t).status = .THREAD_BLOCKED ∧ (k'.threads t).status ≠ .THREAD_BLOCKED

/-! ## Threads in transit -/

theorem Wf.waiter_code (h : Wf k) (hrun : k.code.head? ≠ some .schedule) (ht : t ∈ (k.sema s).waiters) :
    (k.threads t).code.head? = some (.sema_down_loop s) := by
  have hp := h.place_of_waiter ht
  have hne : t ≠ k.current := by
    rintro rfl
    rw [h.current_running hrun] at hp
    cases hp
  obtain ⟨-, -, hb⟩ := blocked_of_place (by rw [hp]; rfl) (by rw [hp]; simp)
  have hresume : resume_point (k.threads t).code = (k.threads t).code := by
    have hnot := h.switching.others t hne
    unfold resume_point
    split
    · rename_i hcode
      simp [hcode] at hnot
    · rfl
  rw [hp, hresume] at hb
  unfold blocked_place at hb
  split at hb <;> try cases hb
  · rename_i hcode
    rw [hcode]
    rfl
  · split at hb <;> cases hb

theorem Wf.waiter_not_in_transit (h : Wf k) (hrun : k.code.head? ≠ some .schedule)
    (ht : t ∈ (k.sema s).waiters) : ¬ InTransit s k t := by
  rintro ⟨-, hready | hcur⟩
  · have hwait : t ∈ k.queue (.wait s) := ht
    have hready' : t ∈ k.queue .ready := hready
    cases h.settled.queues.unique hwait hready'
  · exact h.ne_current (q := .wait s) hrun ht hcur

/-- A thread in transit stays so until it tests the loop condition. -/
theorem Wf.step_in_transit (h : Wf k) (hl : Levels k) (hs : prj3.step k l = some k')
    (ht : InTransit s k t) (htest : t = k.current → k.executes l ≠ some (.sema_down_loop s)) :
    InTransit s k' t := by
  obtain ⟨hcode, hplace⟩ := ht
  obtain ⟨henabled, he⟩ := step_ok hs
  by_cases hcur : t = k.current
  · exfalso
    apply htest hcur
    subst hcur
    cases l with
    | next env => exact hcode
    | call c =>
      have hnil : (k.threads k.current).code = [] := henabled.1
      simp [hnil] at hcode
    | timer =>
      -- the loop runs with interrupts off
      have hg := hl.guarded k.current
      obtain ⟨rest, hr⟩ := List.head?_eq_some_iff.mp hcode
      rw [Kernel.level_of, if_pos rfl, hr, guarded_cons] at hg
      have hoff := hg.1 rfl
      rw [show k.intr_level = .INTR_ON from henabled] at hoff
      cases hoff
  · have hready := hplace.resolve_right hcur
    by_cases htimer : l = .timer
    · subst htimer
      obtain ⟨k₁, -, hw, -, -, rfl⟩ := h.tick henabled he
      have hcalm := accounted_calm k₁
      obtain ⟨-, -, -, -, hothers⟩ := h.tick_levels henabled he
      refine ⟨by rw [hothers t hcur, hcode], .inl ?_⟩
      change t ∈ (accounted k₁).ready_list
      rw [hcalm.ready_list.mem_iff, hw.ready_list.mem_iff]
      exact List.mem_append_right _ hready
    · have heffect := h.step_effect htimer hs
      have hp : (place k t).queue = some .ready := h.mem_queue.mp hready
      refine ⟨?_, heffect.ready t hready⟩
      rcases heffect.code t hcur with hc | ⟨hu | hn, -⟩
      · rw [hc, hcode]
      · rw [hu] at hp
        cases hp
      · rw [hn] at hp
        cases hp

/-! ## The wake-up -/

/-- `sema_up` unblocks the first waiter and nobody else. -/
theorem sema_up_unblocks (he : sema_up k s = .ok k') (t : ThreadId) :
    Unblocks k k' t ↔ t ∈ (k.sema s).waiters.head? := by
  obtain ⟨k₁, hwake, he⟩ := bind_eq_ok_iff.mp he
  obtain rfl := ok_eq_ok.mp he
  have hpush (code : List Instr) (v : Semaphore) : (((k₁.set_sema s v).push code).threads t).status =
      (k₁.threads t).status := set_code_status _ _ t
  rw [Unblocks, hpush]
  rcases sema_wake_ok.mp hwake with ⟨hws, rfl⟩ | ⟨u, ws, hws, -, hblocked, rfl⟩
  · replace hws : (k.sema s).waiters = [] := hws
    simp [hws]
  · replace hws : (k.sema s).waiters = u :: ws := hws
    replace hblocked : (k.threads u).status = .THREAD_BLOCKED := hblocked
    simp only [make_ready_threads, hws, List.head?_cons, Option.mem_def, Option.some.injEq]
    by_cases ht : t = u
    · simp [ht, hblocked]
    · simp [ht, Ne.symm ht]

/-- The unblocked thread tests the loop condition next. -/
theorem Wf.sema_up_transit (h : Wf k) (hs : prj3.step k l = some k')
    (hi : k.executes l = some (.sema_up s)) (ht : t ∈ (k.sema s).waiters.head?) : InTransit s k' t := by
  have hmem : t ∈ (k.sema s).waiters := List.mem_of_mem_head? ht
  obtain ⟨env, rest, -, he⟩ := step_exec hs hi
  have hrun := not_switching hs hi (by simp)
  have hne : t ≠ k.current := h.ne_current (q := .wait s) hrun hmem
  obtain ⟨ws, hws⟩ := List.head?_eq_some_iff.mp ht
  have hwakes := sema_up_wakes (k := k.set_code rest) hws he hne
  have hl : l ≠ .timer := by
    rintro rfl
    cases hi
  refine ⟨?_, .inl hwakes.ready⟩
  rcases (h.step_effect hl hs).code t hne with hc | ⟨hu | hn, -⟩
  · rw [hc, h.waiter_code hrun hmem]
  · rw [h.place_of_waiter hmem] at hu
    cases hu
  · rw [h.place_of_waiter hmem] at hn
    cases hn

/-! ## The accounts -/

section accounts

variable {a : SemaHistory}

theorem Permits.start {v : Nat} (hsema : k.sema s = { value := v, waiters := [] }) (hv : v < 2 ^ 32) :
    Permits s k (.start v) := by
  constructor <;> simp [SemaHistory.start, hsema]
  omega

theorem Permits.frame (h : Permits s k a) (hsema : k'.sema s = k.sema s)
    (ht : ∀ t ∈ a.in_transit, InTransit s k' t) : Permits s k' a where
  unsigned := hsema ▸ h.unsigned
  balance := hsema ▸ h.balance
  nodup := h.nodup
  in_transit := ht
  bound := hsema ▸ h.bound

theorem Permits.down (h : Permits s k a) (hsema : k'.sema s = (k.sema s).down)
    (ht : ∀ t ∈ a.in_transit, InTransit s k' t) : Permits s k' (a.down (k.sema s)) := by
  have hv := h.unsigned
  have hbalance := h.balance
  have hbound := h.bound
  unfold SemaHistory.down
  split
  · rename_i hzero
    exact h.frame (by rw [hsema, Semaphore.down_zero hzero]) ht
  · constructor
    · rw [hsema]
      simp only [Semaphore.down]
      omega
    · rw [hsema]
      simp only [Semaphore.down]
      omega
    · exact h.nodup
    · exact ht
    · rw [hsema]
      intro hws
      have hle := hbound hws
      simp only [Semaphore.down]
      omega

theorem Permits.up (h : Permits s k a)
    (hsema : k'.sema s =
      { value := ((k.sema s).value + 1) % 2 ^ 32, waiters := (k.sema s).waiters.tail })
    (ht : ∀ t ∈ a.in_transit, InTransit s k' t)
    (hnew : ∀ t ∈ (k.sema s).waiters.head?, InTransit s k' t ∧ t ∉ a.in_transit) :
    Permits s k' (a.up (k.sema s)) := by
  have hv := h.unsigned
  have hbalance := h.balance
  have hbound := h.bound
  constructor
  · rw [hsema]
    exact Nat.mod_lt _ (by decide)
  · rw [hsema]
    simp only [SemaHistory.up]
    split <;> omega
  · simp only [SemaHistory.up]
    cases hhead : (k.sema s).waiters.head? with
    | none => simpa using h.nodup
    | some t =>
      refine List.nodup_append.mpr ⟨h.nodup, by simp, fun u hu v hv huv => ?_⟩
      obtain rfl : v = t := by simpa using hv
      exact (hnew v hhead).2 (huv ▸ hu)
  · intro t htransit
    rcases List.mem_append.mp htransit with hold | hfirst
    · exact ht t hold
    · exact (hnew t (by simpa using hfirst)).1
  · rw [hsema]
    intro hws
    obtain ⟨t, ws, hcons⟩ := List.exists_cons_of_ne_nil (show (k.sema s).waiters ≠ [] by
      rintro hnil
      simp [hnil] at hws)
    have hle := hbound (by simp [hcons])
    simp only [SemaHistory.up, hcons, List.head?_cons, Option.toList_some, List.length_append,
      List.length_singleton]
    have hmod := Nat.mod_le ((k.sema s).value + 1) (2 ^ 32)
    omega

/-- A test of the loop condition by the running thread. -/
theorem Permits.test (h : Permits s k a) (hsema : k'.sema s = (Instr.sema_down_loop s).sema_after k s)
    (ht : ∀ t ∈ a.in_transit, t ≠ k.current → InTransit s k' t) :
    Permits s k' { a.down (k.sema s) with in_transit := a.in_transit.erase k.current } := by
  have hv := h.unsigned
  have hbalance := h.balance
  have hbound := h.bound
  have hlength := List.length_erase_add_one (α := ThreadId) (a := k.current) (l := a.in_transit)
  have herase : ∀ t ∈ a.in_transit.erase k.current, InTransit s k' t := fun t hmem => by
    rw [h.nodup.mem_erase_iff] at hmem
    exact ht t hmem.2 hmem.1
  simp only [Instr.sema_after, ↓reduceIte] at hsema
  by_cases hzero : (k.sema s).value = 0
  · rw [if_pos hzero] at hsema
    rw [SemaHistory.down, if_pos hzero]
    constructor
    · simpa [hsema] using hv
    · simpa [hsema] using hbalance
    · exact h.nodup.erase _
    · exact herase
    · intro _
      simp [hsema, hzero]
  · rw [if_neg hzero] at hsema
    rw [SemaHistory.down, if_neg hzero]
    constructor
    · rw [hsema]
      simp only [Semaphore.down]
      omega
    · rw [hsema]
      simp only [Semaphore.down]
      omega
    · exact h.nodup.erase _
    · exact herase
    · rw [hsema]
      intro hws
      have hle := hbound hws
      have hsub := List.length_erase_le (a := k.current) (l := a.in_transit)
      by_cases hmem : k.current ∈ a.in_transit
      · have := hlength hmem
        simp only [Semaphore.down]
        omega
      · rw [List.erase_of_not_mem hmem]
        simp only [Semaphore.down]
        omega

/-- A step keeps the account of every semaphore. -/
theorem Wf.step_permits (h : Wf k) (hl : Levels k) (hs : prj3.step k l = some k') (ha : Permits s k a) :
    Permits s k' (record_sema s k l a) := by
  have hsync := (h.step_syncs hs).sema s
  have htransit (htest : k.executes l ≠ some (.sema_down_loop s)) :
      ∀ t ∈ a.in_transit, InTransit s k' t := fun t ht =>
    h.step_in_transit hl hs (ha.in_transit t ht) fun _ => htest
  unfold record_sema
  cases hi : k.executes l with
  | none =>
    rw [hi] at hsync htransit
    exact ha.frame hsync (htransit (by simp))
  | some i =>
    rw [hi] at hsync htransit
    simp only [Option.elim_some] at hsync ⊢
    cases i with
    | sema_init s' v =>
      by_cases hs' : s' = s
      · simp only [Instr.sema_after, Instr.sema_history, if_pos hs'] at hsync ⊢
        exact .start hsync (Nat.mod_lt _ (by decide))
      · simp only [Instr.sema_after, Instr.sema_history, if_neg hs'] at hsync ⊢
        exact ha.frame hsync (htransit (by simp))
    | cond_wait c lk =>
      by_cases hs' : .waiter k.current = s
      · simp only [Instr.sema_after, Instr.sema_history, if_pos hs'] at hsync ⊢
        exact .start hsync (by decide)
      · simp only [Instr.sema_after, Instr.sema_history, if_neg hs'] at hsync ⊢
        exact ha.frame hsync (htransit (by simp))
    | sema_up s' =>
      by_cases hs' : s' = s
      · subst hs'
        simp only [Instr.sema_after, Instr.sema_history, if_true] at hsync ⊢
        refine ha.up hsync (htransit (by simp)) fun t ht => ⟨h.sema_up_transit hs hi ht, fun hold => ?_⟩
        exact h.waiter_not_in_transit (not_switching hs hi (by simp)) (List.mem_of_mem_head? ht)
          (ha.in_transit t hold)
      · simp only [Instr.sema_after, Instr.sema_history, if_neg hs'] at hsync ⊢
        exact ha.frame hsync (htransit (by simp))
    | sema_down_loop s' =>
      by_cases hs' : s' = s
      · subst hs'
        simp only [Instr.sema_history, if_true] at hsync ⊢
        refine ha.test hsync fun t ht hne => ?_
        exact h.step_in_transit hl hs (ha.in_transit t ht) fun hcur => absurd hcur hne
      · simp only [Instr.sema_after, Instr.sema_history, if_neg hs'] at hsync ⊢
        exact ha.frame hsync (htransit (by simpa using hs'))
    | sema_try_down s' =>
      by_cases hs' : s' = s
      · simp only [Instr.sema_after, Instr.sema_history, if_pos hs'] at hsync ⊢
        exact ha.down hsync (htransit (by simp))
      · simp only [Instr.sema_after, Instr.sema_history, if_neg hs'] at hsync ⊢
        exact ha.frame hsync (htransit (by simp))
    | lock_try_acquire lk =>
      by_cases hs' : .lock lk = s
      · simp only [Instr.sema_after, Instr.sema_history, if_pos hs'] at hsync ⊢
        exact ha.down hsync (htransit (by simp))
      · simp only [Instr.sema_after, Instr.sema_history, if_neg hs'] at hsync ⊢
        exact ha.frame hsync (htransit (by simp))
    | _ => exact ha.frame hsync (htransit (by simp))

end accounts

/-- The account of a semaphore holds in every reachable state. -/
theorem reachable_permits {a : SemaHistory} (h : (with_sema_history s).Reachable (k, a)) : Permits s k a := by
  refine h.observe_invariant (fun k hk => ?_) fun k a l k' hr ha hs =>
    (reachable_wf hr).step_permits (reachable_levels hr) hs ha
  obtain ⟨mlfqs, aging, t₀, rfl⟩ := hk
  cases s <;> exact .start rfl (by simp [prj3.boot])

/-- No permit is lost and none is created, up to the wrap of an unsigned value. -/
theorem semaphore_permits {a : SemaHistory} (h : (with_sema_history s).Reachable (k, a)) :
    Permits s k a ∧ ∀ l k', step k l = some k' → k.executes l = some (.sema_up s) →
      ∀ t, Unblocks k k' t ↔ t ∈ (k.sema s).waiters.head? := by
  refine ⟨reachable_permits h, fun l k' hs hi t => ?_⟩
  obtain ⟨env, rest, -, he⟩ := step_exec hs hi
  have hun := sema_up_unblocks (k := k.set_code rest) he t
  rwa [Unblocks, set_code_status] at hun

/-- The theorem after an up, while the second waiter still waits. -/
theorem semaphore_permits_after_up : ∃ k a, (k.sema (.sema 5)).waiters = [2] ∧
    (k.sema (.sema 5)).value = 1 ∧ a.in_transit = [0] ∧ Permits (.sema 5) k a := by
  obtain ⟨⟨k, a⟩, hrun, hk⟩ := exists_of_any (observed step (record_sema (.sema 5)))
    (boot true false 0, .start 0) (two_waiters ++ [.call (.sema_up 5)])
    (fun p => (p.1.sema (.sema 5)).waiters = [2] ∧ (p.1.sema (.sema 5)).value = 1 ∧ p.2.in_transit = [0])
    (by decide +kernel)
  obtain ⟨hwaiters, hvalue, htransit⟩ := of_decide_eq_true hk
  have hreach : (with_sema_history (.sema 5)).Reachable (k, a) :=
    runLabels_observed ⟨true, false, 0, rfl⟩ hrun
  exact ⟨k, a, hwaiters, hvalue, htransit, (semaphore_permits hreach).1⟩

/-- A semaphore initialized to `UINT_MAX` is 0 after an increment. -/
theorem sema_up_wraps : ∃ k a, (with_sema_history (.sema 0)).Reachable (k, a) ∧
    ¬ ((k.sema (.sema 0)).value + a.downs = a.init + a.increments) := by
  obtain ⟨⟨k, a⟩, hrun, hk⟩ := exists_of_any (observed step (record_sema (.sema 0)))
    (boot false false 0, .start 0)
    (start_up ++ [.call (.sema_init 0 4294967295), .call (.sema_up 0)])
    (fun p => (p.1.sema (.sema 0)).value = 0 ∧ p.2.init = 4294967295 ∧ p.2.increments = 1 ∧ p.2.downs = 0)
    (by decide +kernel)
  obtain ⟨hvalue, hinit, hincrements, hdowns⟩ := of_decide_eq_true hk
  refine ⟨k, a, runLabels_observed ⟨false, false, 0, rfl⟩ hrun, ?_⟩
  rw [hvalue, hinit, hincrements, hdowns]
  decide

end pintos.prj3
