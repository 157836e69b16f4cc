import Pintos.Prj3.Conditions

/-!
# Waits and signals

What the protocol of condition variables gives over whole runs: who waits is
signalled in turn, who is signalled does not stay blocked, who returns from
`cond_wait` has the lock, and who broadcasts releases all that waited.
-/

open pintos.kernel transition monitor

namespace pintos.prj3

variable {k k' : Kernel} {a : CondHistory} {i : Instr} {is rest code : List Instr} {t u : ThreadId}
  {l : Label} {c : CondRef} {lk : LockRef}

/-- The kernel with the history of the waiters of conditions. -/
def with_cond_history : System (Kernel × CondHistory) Label :=
  kernel.observe (fun _ => .start) record_cond

theorem reachable_cond_waiters (h : kernel.Reachable k) : CondWaiters k := by
  obtain ⟨r, hr⟩ : ∃ r, (with_lock_history (.lock 0)).Reachable (k, r) := h.observed
  exact (reachable_lock hr).cond_waiters

theorem boot_monitor (mlfqs aging : Bool) (t₀ : ThreadId) :
    (monitor_of (prj3.boot mlfqs aging t₀) .start).Valid := by
  refine valid_init (fun _ => rfl) (fun t => ?_) (fun _ => rfl) (fun t => ?_) (fun _ => rfl) fun _ => rfl
  · by_cases ht : t = t₀
    · simp [monitor_of, prj3.boot, ht, pending_up_cons, Instr.passing, Instr.upped]
    · simp [monitor_of, prj3.boot, ht, Thread.zero]
  · by_cases ht : t = t₀
    · simp [monitor_of, prj3.boot, ht, route_cons, Instr.route, Route.point]
    · simp [monitor_of, prj3.boot, ht, Thread.zero, Route.point]

theorem reachable_monitor (h : with_cond_history.Reachable (k, a)) : (monitor_of k a).Valid := by
  refine h.observe_invariant (I := fun k a => (monitor_of k a).Valid) (fun k hk => ?_)
    fun k a l k' hr hv hs => ?_
  · obtain ⟨mlfqs, aging, t₀, rfl⟩ := hk
    exact boot_monitor mlfqs aging t₀
  · have hstep := (reachable_wf hr).step_monitor (reachable_cond_waiters hr)
      (reachable_codes fronted_rule hr k.current) (reachable_codes routed_rule hr k.current)
      (reachable_codes own_rule hr k.current) hv hs
    exact hstep.valid hv

/-! ## Released threads do not stay blocked -/

theorem mem_resume_point (hi : i ∈ resume_point code) : i ∈ code := by
  unfold resume_point at hi
  split at hi
  · exact .tail _ hi
  · exact hi

/-- Only the thread itself tests the semaphore of its `cond_wait`. -/
theorem Wf.waiter_self (h : Wf k) (ht : t ∈ (k.sema (.waiter u)).waiters) : t = u := by
  have hp := h.place_of_waiter ht
  obtain ⟨-, -, hb⟩ := blocked_of_place (by rw [hp]; rfl) (by rw [hp]; simp)
  rw [hp] at hb
  have hmem : .sema_down_loop (.waiter u) ∈ (k.threads t).code := by
    refine mem_resume_point ?_
    generalize resume_point (k.threads t).code = code at hb ⊢
    unfold blocked_place at hb
    split at hb <;> first | (cases hb; simp) | (split at hb <;> cases hb) | cases hb
  exact (h.codes.pending t _ hmem).symm

/-- Nobody waits on the semaphore of a waiter while it has a permit. -/
theorem no_waiter_of_permit (h : kernel.Reachable k) (hvalue : (k.sema (.waiter u)).value ≠ 0) :
    (k.sema (.waiter u)).waiters = [] := by
  by_contra hne
  have hw := reachable_wf h
  obtain ⟨a, ha⟩ : ∃ a, (with_sema_history (.waiter u)).Reachable (k, a) := h.observed
  have hpermits := reachable_permits ha
  obtain ⟨t, ht⟩ := List.exists_mem_of_length_pos
    (Nat.lt_of_lt_of_le (Nat.pos_of_ne_zero hvalue) (hpermits.bound hne))
  obtain ⟨v, hv⟩ := List.exists_mem_of_ne_nil _ hne
  obtain ⟨hcode, hplace⟩ := hpermits.in_transit t ht
  obtain ⟨rest, hcons⟩ := List.head?_eq_some_iff.mp hcode
  have htu : u = t := hw.codes.pending t (.sema_down_loop (.waiter u)) (by simp [hcons])
  have hvu := hw.waiter_self hv
  subst htu hvu
  rcases hplace with hready | hcur
  · have hv' : v ∈ k.queue (.wait (.waiter v)) := hv
    have hready' : v ∈ k.queue .ready := hready
    cases hw.settled.queues.unique hv' hready'
  · refine hw.ne_current (q := .wait (.waiter v)) ?_ hv hcur
    rw [Kernel.code, ← hcur, hcode]
    simp

theorem route_resume_point (code : List Instr) : route (resume_point code) = route code := by
  unfold resume_point
  split <;> rfl

theorem routed_resume_point (h : Routed code) : Routed (resume_point code) := by
  unfold resume_point
  split
  · exact h.2
  · exact h

/-- A thread inside `cond_wait` blocks on its own semaphore only. -/
theorem Wf.not_blocked (h : Wf k) (hr : Routed (k.threads u).code)
    (hroute : route (k.threads u).code = .waiting c lk) (hnil : (k.sema (.waiter u)).waiters = []) :
    (k.threads u).status ≠ .THREAD_BLOCKED := by
  intro hblocked
  have hthread : is_thread k u := by
    by_contra hnot
    rw [h.settled.unused u hnot] at hroute
    cases hroute
  have hplace : place k u =
      blocked_place (decide (k.idle_thread = some u)) (resume_point (k.threads u).code) := by
    rw [place, if_pos (show (k.threads u).magic = true from hthread), status_place, hblocked]
  have hfound := h.settled.found u
  have hwait (s : SemaRef) (hp : place k u = .waiting s) : u ∈ (k.sema s).waiters :=
    (h.settled.queues.mem (.wait s) u).mpr (by rw [hp]; rfl)
  rw [← route_resume_point] at hroute
  replace hr := routed_resume_point hr
  have hpending : ∀ i ∈ resume_point (k.threads u).code, i.Pending u := fun i hi =>
    h.codes.pending u i (mem_resume_point hi)
  generalize resume_point (k.threads u).code = code at hroute hr hplace hpending
  unfold blocked_place at hplace
  split at hplace
  · cases hroute
  · have hout := hr.1 rfl
    simp [route_cons, Instr.route, hout] at hroute
  · have hout := hr.1 rfl
    simp [route_cons, Instr.route, hout] at hroute
  · rename_i s rest
    have hmem := hwait s hplace
    cases s with
    | waiter v =>
      have hv : v = u := hpending (.sema_down_loop (.waiter v)) (by simp)
      subst hv
      simp [hnil] at hmem
    | _ =>
      obtain hout | ⟨c', lk', hacquiring⟩ := hr.1
      · simp [route_cons, Instr.route, hout] at hroute
      · simp [route_cons, Instr.route, hacquiring] at hroute
  · have hout := hr.1 rfl
    simp [route_cons, Instr.route, hout] at hroute
  · exact hfound hplace

/-! ## The lock -/

/-- The holder of a lock keeps it until it releases it. -/
theorem reachable_holder_kept (h : kernel.Reachable k) (hs : step k l = some k') (ht : k.holder lk = some t)
    (hne : t = k.current → k.executes l ≠ some (.lock_release lk)) : k'.holder lk = some t := by
  obtain ⟨a, ha⟩ : ∃ a, (with_lock_history lk).Reachable (k, a) := h.observed
  obtain ⟨hcond, hvalid⟩ := reachable_lock ha
  have hstep := (reachable_wf h).step_mutex hcond (reachable_codes (staged_rule lk) h k.current)
    (reachable_codes own_rule h k.current) hvalid hs
  refine hstep.holder hvalid ht fun hleave => ?_
  obtain ⟨hi, hcur⟩ := leave_event hleave
  exact hne hcur hi

theorem route_after_returning {r : Route} (h : i.route_after k r = .returning c lk) :
    r = .returning c lk ∨ (∃ lk', i = .ret (.lock_acquire lk')) ∧ r = .acquiring c lk := by
  cases i with
  | ret f =>
    cases f with
    | lock_acquire lk' => cases r <;> simp_all [Instr.route_after]
    | cond_wait c' lk' => cases h
    | _ => exact .inl h
  | sema_down_loop s =>
    cases s with
    | waiter v =>
      simp only [Instr.route_after] at h
      split at h
      · exact .inl h
      · cases r <;> simp_all
    | _ => exact .inl h
  | cond_wait c' lk' => cases h
  | _ => exact .inl h

/-- A thread that returns from `cond_wait` holds the lock. -/
theorem reachable_regained (h : kernel.Reachable k) :
    ∀ u c lk, route (k.threads u).code = .returning c lk → k.holder lk = some u := by
  refine h.invariant (I := fun k => ∀ u c lk, route (k.threads u).code = .returning c lk →
    k.holder lk = some u) ?_ ?_
  · rintro k ⟨mlfqs, aging, t₀, rfl⟩ u c lk hroute
    by_cases hu : u = t₀
    · simp [prj3.boot, hu, route_cons, Instr.route] at hroute
    · simp [prj3.boot, hu, Thread.zero] at hroute
  · intro k l k' hr ih hs u c lk hroute
    have hw := reachable_wf hr
    have hrouted := reachable_codes routed_rule hr k.current
    have hstep := congrFun (hw.step_route hrouted hs) u
    rw [Function.update_apply] at hstep
    simp only [hroute] at hstep
    by_cases hu : u = k.current
    · subst hu
      rw [if_pos rfl] at hstep
      cases hi : k.executes l with
      | none =>
        rw [hi] at hstep
        exact reachable_holder_kept hr hs (ih _ c lk hstep.symm) fun _ => by simp [hi]
      | some i =>
        rw [hi, Option.elim_some] at hstep
        obtain hreturning | ⟨⟨lk', rfl⟩, hacquiring⟩ := route_after_returning hstep.symm
        · refine reachable_holder_kept hr hs (ih _ c lk hreturning) fun _ hrelease => ?_
          obtain ⟨env, rest, hcode | ⟨hcode, -⟩, -⟩ := step_exec hs hrelease
          · rw [hcode, route_cons] at hreturning
            replace hrouted : Routed k.code := hrouted
            rw [hcode] at hrouted
            obtain hout | ⟨c', lk', hwaiting⟩ := hrouted.1
            · simp [Instr.route, hout] at hreturning
            · simp [Instr.route, hwaiting] at hreturning
          · rw [hcode] at hreturning
            cases hreturning
        · obtain ⟨rest, hcode⟩ := executes_next hs hi fun c => by cases c <;> simp [Call.instr]
          replace hrouted : Routed k.code := hrouted
          rw [hcode] at hrouted hacquiring
          have hlk : lk' = lk := by
            obtain hout | ⟨c', hrest⟩ := hrouted.1
            · simp [route_cons, Instr.route, hout] at hacquiring
            · simp only [route_cons, Instr.route, hrest, Route.acquiring.injEq] at hacquiring
              exact hacquiring.2
          subst hlk
          obtain ⟨a, ha⟩ : ∃ a, (with_lock_history lk').Reachable (k, a) := hr.observed
          have hstage : lock_stage lk' k.code = .returning := executes_stage hs hi (by simp [Instr.lock_stage])
          have hholder := (reachable_lock ha).valid.returning k.current hstage
          exact reachable_holder_kept hr hs hholder fun _ => by simp [hi]
    · rw [if_neg hu] at hstep
      exact reachable_holder_kept hr hs (ih u c lk hstep.symm) fun hcur => absurd hcur hu

end pintos.prj3
