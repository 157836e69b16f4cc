import Pintos.Lib.Monitor
import Pintos.Prj3.Locks
import Pintos.Prj3.Semaphores

/-!
# Condition variables

The waiters of all conditions follow the protocol of a monitor with a semaphore
for each waiter; the point of each thread is read off its pending code.
-/

open pintos.kernel transition monitor

namespace pintos.prj3

variable {k k' : Kernel} {i : Instr} {is rest code : List Instr} {t u : ThreadId} {l : Label}
  {c : CondRef} {lk : LockRef}

/-! ## The up that is still to come -/

/-- Instructions of a preemption, which can stand in front of any other. -/
def Instr.passing : Instr → Bool
  | .thread_yield | .schedule | .intr_set_level _ | .ret .timer_interrupt => true
  | _ => false

/-- The waiter that the instruction releases. -/
def Instr.upped : Instr → Option ThreadId
  | .sema_up (.waiter u) => some u
  | _ => none

/-- The waiter that the code releases next. -/
def pending_up : List Instr → Option ThreadId
  | [] => none
  | i :: rest => if i.passing then pending_up rest else i.upped

/-- The code gets to an up of a waiter before anything else or not at all. -/
def Fronted : List Instr → Prop
  | [] => True
  | i :: rest => (i.passing = false → pending_up rest = none) ∧ Fronted rest

@[simp] theorem pending_up_nil : pending_up [] = none := rfl

theorem pending_up_cons : pending_up (i :: rest) = if i.passing then pending_up rest else i.upped := rfl

@[simp] theorem fronted_nil : Fronted [] := trivial

theorem fronted_cons : Fronted (i :: rest) ↔ (i.passing = false → pending_up rest = none) ∧ Fronted rest :=
  Iff.rfl

theorem Leaves.fronted {cur : ThreadId} (h : Leaves cur i is) (hs : Fronted (i :: rest)) :
    Fronted (is ++ rest) := by
  cases h with
  | expands h =>
    cases h with
    | _ => simp_all [fronted_cons, pending_up_cons, Instr.passing, Instr.upped]
  | _ => simp_all [fronted_cons, pending_up_cons, Instr.passing, Instr.upped]

theorem fronted_rule : CodeRule Fronted where
  nil := trivial
  exit := by simp [fronted_cons]
  boot := by simp [fronted_cons, pending_up_cons, Instr.passing, Instr.upped]
  start f := by simp [fronted_cons]
  call c := by simp [fronted_cons]
  tail _ _ h := h.2
  leaves _ _ _ _ h hs := h.fronted hs
  tick rest h := by simpa [fronted_cons, Instr.passing] using h

/-! ## The point inside `cond_wait` -/

/-- Where a thread is in `cond_wait`: before the down of its semaphore, before
the return from `lock_acquire`, or after it. -/
inductive Route where
  | out
  | waiting (c : CondRef) (lk : LockRef)
  | acquiring (c : CondRef) (lk : LockRef)
  | returning (c : CondRef) (lk : LockRef)
  deriving DecidableEq, Repr

/-- The route of code that begins with the instruction, from that of the rest. -/
def Instr.route (r : Route) : Instr → Route
  | .ret (.cond_wait c lk) => .returning c lk
  | .lock_acquire _ | .ret (.lock_acquire _) =>
    match r with
    | .returning c lk => .acquiring c lk
    | r => r
  | .sema_down (.waiter _) | .sema_down_loop (.waiter _) =>
    match r with
    | .acquiring c lk => .waiting c lk
    | r => r
  | _ => r

def route (code : List Instr) : Route := code.foldr (fun i r => i.route r) .out

/-- What can stand in front of code with the given route. -/
def Instr.RouteOk (r : Route) : Instr → Prop
  | .lock_acquire lk | .ret (.lock_acquire lk) => r = .out ∨ ∃ c, r = .returning c lk
  | .sema_down (.waiter _) | .sema_down_loop (.waiter _) => ∃ c lk, r = .acquiring c lk
  | .sema_down _ | .sema_down_loop _ | .ret (.sema_down _) | .set_holder _ =>
    r = .out ∨ ∃ c lk, r = .acquiring c lk
  | .lock_release _ | .ret (.lock_release _) | .sema_up _ | .ret (.sema_up _) =>
    r = .out ∨ ∃ c lk, r = .waiting c lk
  | i => i.passing = false → r = .out

/-- The calls of `cond_wait` are pending in their order. -/
def Routed : List Instr → Prop
  | [] => True
  | i :: rest => i.RouteOk (route rest) ∧ Routed rest

@[simp] theorem route_nil : route [] = .out := rfl

theorem route_cons : route (i :: rest) = i.route (route rest) := rfl

@[simp] theorem routed_nil : Routed [] := trivial

theorem routed_cons : Routed (i :: rest) ↔ i.RouteOk (route rest) ∧ Routed rest := Iff.rfl

theorem Leaves.routed {cur : ThreadId} (h : Leaves cur i is) (hs : Routed (i :: rest)) :
    Routed (is ++ rest) := by
  cases h with
  | expands h =>
    cases h with
    | sema_down s level =>
      cases s with
      | waiter u =>
        obtain ⟨⟨c, lk, hr⟩, hrest⟩ := hs
        simp_all [routed_cons, route_cons, Instr.route, Instr.RouteOk, Instr.passing]
      | _ => simp_all [routed_cons, route_cons, Instr.route, Instr.RouteOk, Instr.passing]
    | lock_acquire lk =>
      cases hr : route rest <;>
        simp_all [routed_cons, route_cons, Instr.route, Instr.RouteOk]
    | _ => simp_all [routed_cons, route_cons, Instr.route, Instr.RouteOk, Instr.passing]
  | _ => simp_all [routed_cons, route_cons, Instr.route, Instr.RouteOk, Instr.passing]

theorem routed_rule : CodeRule Routed where
  nil := trivial
  exit := by simp [routed_cons, Instr.RouteOk, Instr.passing]
  boot := by simp [routed_cons, route_cons, Instr.route, Instr.RouteOk]
  start f := by simp [routed_cons, Instr.RouteOk]
  call c := by cases c <;> simp [Call.instr, routed_cons, Instr.RouteOk]
  tail _ _ h := h.2
  leaves _ _ _ _ h hs := h.routed hs
  tick rest h := by simpa [routed_cons, Instr.RouteOk, Instr.passing] using h

/-! ## What a step does to them -/

/-- The waiter of a semaphore that a condition hands out. -/
def SemaRef.owner : SemaRef → Option ThreadId
  | .waiter t => some t
  | _ => none

/-- The threads that wait for a condition, in order. -/
def waiting (k : Kernel) (c : CondRef) : List ThreadId := (k.cond_waiters c).filterMap SemaRef.owner

/-- The up that is still to come after an instruction. -/
def Instr.pending_after (k : Kernel) (p : Option ThreadId) : Instr → Option ThreadId
  | .cond_signal c _ => (waiting k c).head?
  | .sema_up (.waiter _) => none
  | _ => p

/-- The route after an instruction. -/
def Instr.route_after (k : Kernel) (r : Route) : Instr → Route
  | .cond_wait c lk => .waiting c lk
  | .sema_down_loop (.waiter u) =>
    if (k.sema (.waiter u)).value = 0 then r
    else
      match r with
      | .waiting c lk => .acquiring c lk
      | r => r
  | .ret (.lock_acquire _) =>
    match r with
    | .acquiring c lk => .returning c lk
    | r => r
  | .ret (.cond_wait _ _) => .out
  | _ => r

theorem head_waiting (hk : CondWaiters k) (c : CondRef) :
    (waiting k c).head? = (k.cond_waiters c).head?.bind SemaRef.owner := by
  cases hlist : k.cond_waiters c with
  | nil => simp [waiting, hlist]
  | cons w ws =>
    obtain ⟨t, rfl⟩ := hk c w (by simp [hlist])
    simp [waiting, hlist, SemaRef.owner]

theorem call_pending (c : Call) : pending_up [c.instr] = none := by
  cases c <;> simp [Call.instr, pending_up_cons, Instr.passing, Instr.upped]

theorem call_route (c : Call) : route [c.instr] = .out := by
  cases c <;> simp [Call.instr, route_cons, Instr.route]

theorem Replaces.pending (h : Replaces i is rest k k') (hk : CondWaiters k) (hs : Fronted k.code) :
    pending_up (is ++ rest) = i.pending_after k (pending_up k.code) := by
  obtain ⟨hfronted, hbefore⟩ : Fronted (i :: rest) ∧ pending_up (i :: rest) = pending_up k.code := by
    rcases h.before with hcode | ⟨hcode, rfl, c, rfl⟩
    · rw [← hcode]
      exact ⟨hs, rfl⟩
    · rw [hcode]
      exact ⟨fronted_rule.call c, call_pending c⟩
  obtain ⟨hnext, -⟩ := fronted_cons.mp hfronted
  have hexact := h.exact
  have hleaves := h.leaves
  rw [← hbefore]
  clear hs hbefore hfronted h
  cases i with
  | sema_init s v =>
    obtain rfl : is = [] := hexact
    simpa [pending_up_cons, Instr.passing, Instr.upped, Instr.pending_after] using hnext
  | cond_signal c lk =>
    simp only [Instr.Exact] at hexact
    subst hexact
    rw [Instr.pending_after, head_waiting hk]
    cases hhead : (k.cond_waiters c).head? with
    | none => simp [pending_up_cons, Instr.passing, Instr.upped]
    | some w =>
      obtain ⟨t, rfl⟩ := hk c w (List.mem_of_mem_head? hhead)
      simp [pending_up_cons, Instr.passing, Instr.upped, SemaRef.owner]
  | ret f =>
    rcases hleaves with hleaves | ⟨s, v, hi⟩
    · cases hleaves with
      | expands hexpands =>
        cases hexpands
        cases f <;> simp_all [pending_up_cons, Instr.passing, Instr.upped, Instr.pending_after]
    · cases hi
  | sema_up s =>
    rcases hleaves with hleaves | ⟨s, v, hi⟩
    · cases hleaves with
      | expands hexpands => cases hexpands
      | sema_up level =>
        cases s <;> simp [pending_up_cons, Instr.passing, Instr.upped, Instr.pending_after]
    · cases hi
  | _ =>
    rcases hleaves with hleaves | ⟨s, v, hi⟩
    · cases hleaves <;> (try (rename_i hexpands; cases hexpands)) <;>
        simp_all [pending_up_cons, Instr.passing, Instr.upped, Instr.pending_after]
    · cases hi

theorem Replaces.route (h : Replaces i is rest k k') (hs : Routed k.code) :
    prj3.route (is ++ rest) = i.route_after k (prj3.route k.code) := by
  obtain ⟨hrouted, hbefore⟩ : Routed (i :: rest) ∧ prj3.route (i :: rest) = prj3.route k.code := by
    rcases h.before with hcode | ⟨hcode, rfl, c, rfl⟩
    · rw [← hcode]
      exact ⟨hs, rfl⟩
    · rw [hcode]
      exact ⟨routed_rule.call c, call_route c⟩
  obtain ⟨hnext, -⟩ := routed_cons.mp hrouted
  have hexact := h.exact
  have hleaves := h.leaves
  rw [← hbefore]
  clear hs hbefore hrouted h
  cases i with
  | sema_init s v =>
    obtain rfl : is = [] := hexact
    rfl
  | sema_down_loop s =>
    simp only [Instr.Exact] at hexact
    subst hexact
    cases s with
    | waiter u =>
      obtain ⟨c, lk, hr⟩ := hnext
      by_cases hzero : (k.sema (.waiter u)).value = 0 <;>
        simp [hzero, hr, route_cons, Instr.route, Instr.route_after]
    | _ => split <;> rfl
  | cond_signal c lk =>
    simp only [Instr.Exact] at hexact
    subst hexact
    cases (k.cond_waiters c).head? <;> rfl
  | cond_broadcast c lk =>
    simp only [Instr.Exact] at hexact
    subst hexact
    split <;> rfl
  | ret f =>
    rcases hleaves with hleaves | ⟨s, v, hi⟩
    · cases hleaves with
      | expands hexpands =>
        cases hexpands
        cases f with
        | lock_acquire lk =>
          cases hr : prj3.route rest <;> simp_all [route_cons, Instr.route, Instr.route_after, Instr.RouteOk]
        | _ => simp_all [route_cons, Instr.route, Instr.route_after, Instr.RouteOk, Instr.passing]
    · cases hi
  | sema_down s =>
    rcases hleaves with hleaves | ⟨s, v, hi⟩
    · cases hleaves with
      | expands hexpands =>
        cases hexpands
        cases s <;> rfl
    · cases hi
  | _ =>
    rcases hleaves with hleaves | ⟨s, v, hi⟩
    · cases hleaves <;> (try (rename_i hexpands; cases hexpands)) <;>
        simp_all [route_cons, Instr.route, Instr.route_after, Instr.RouteOk, Instr.passing]
    · cases hi

theorem Wf.step_pending (h : Wf k) (hk : CondWaiters k) (hf : Fronted k.code)
    (hs : prj3.step k l = some k') : (fun t => pending_up (k'.threads t).code) =
      Function.update (fun t => pending_up (k.threads t).code) k.current
        ((k.executes l).elim (pending_up k.code) (Instr.pending_after k (pending_up k.code))) := by
  refine h.step_reading pending_up (Instr.pending_after k) hs (fun code hcode => ?_) rfl (fun _ => rfl) rfl
    fun i is rest hr => hr.pending hk hf
  rcases hcode with rfl | ⟨f, rfl⟩ <;> rfl

theorem Wf.step_route (h : Wf k) (hr : Routed k.code) (hs : prj3.step k l = some k') :
    (fun t => route (k'.threads t).code) = Function.update (fun t => route (k.threads t).code) k.current
      ((k.executes l).elim (route k.code) (Instr.route_after k (route k.code))) := by
  refine h.step_reading route (Instr.route_after k) hs (fun code hcode => ?_) rfl (fun _ => rfl) rfl
    fun i is rest hreplaces => hreplaces.route hr
  rcases hcode with rfl | ⟨f, rfl⟩ <;> rfl

/-! ## The protocol -/

/-- The part that an instruction plays in the protocol. -/
def Instr.cond_event (k : Kernel) : Instr → Option (Event ThreadId CondRef)
  | .cond_wait c _ => some (.wait k.current c)
  | .cond_signal c _ => some (.signal k.current c)
  | .sema_up (.waiter u) => some (.up k.current u)
  | .sema_down_loop (.waiter u) => if (k.sema (.waiter u)).value = 0 then none else some (.down u)
  | .ret (.cond_wait _ _) => some (.leave k.current)
  | _ => none

/-- What has happened to the waiters of conditions: how far the waiting of each
thread has come, and the last calls of `cond_signal` and of `cond_broadcast` by
each thread. -/
structure CondHistory where
  wait : ThreadId → Wait ThreadId CondRef
  signal : ThreadId → monitor.Call ThreadId CondRef
  broadcast : ThreadId → monitor.Call ThreadId CondRef

def CondHistory.start : CondHistory := ⟨fun _ => .out, fun _ => ⟨none, [], []⟩, fun _ => ⟨none, [], []⟩⟩

/-- The caller releases a thread. -/
def release (call : ThreadId → monitor.Call ThreadId CondRef) (t u : ThreadId) :
    ThreadId → monitor.Call ThreadId CondRef :=
  Function.update call t { call t with released := (call t).released ++ [u] }

def CondHistory.record (k : Kernel) (a : CondHistory) : Event ThreadId CondRef → CondHistory
  | .wait u c => { a with wait := Function.update a.wait u (.queued c) }
  | .signal t c =>
    { a with
      wait := address a.wait c t (waiting k c).head?
      signal := Function.update a.signal t ⟨some c, waiting k c, []⟩ }
  | .up t u =>
    { wait := Function.update a.wait u (a.wait u).release
      signal := release a.signal t u
      broadcast := release a.broadcast t u }
  | .down _ => a
  | .leave u => { a with wait := Function.update a.wait u .out }

/-- The condition whose waiters the label broadcasts to. -/
def Label.broadcasts : Label → Option CondRef
  | .call (.cond_broadcast c _) => some c
  | _ => none

def record_cond (k : Kernel) (l : Label) (a : CondHistory) : CondHistory :=
  let a := ((k.executes l).bind (Instr.cond_event k)).elim a (a.record k)
  match l.broadcasts with
  | some c => { a with broadcast := Function.update a.broadcast k.current ⟨some c, waiting k c, []⟩ }
  | none => a

/-- The point of a thread, as the protocol has it. -/
def Route.point : Route → Point CondRef
  | .out => .out
  | .waiting c _ => .waiting c
  | .acquiring c _ | .returning c _ => .past c

/-- The conditions and their waiters as a monitor. -/
def monitor_of (k : Kernel) (a : CondHistory) : Monitor ThreadId CondRef where
  queue := waiting k
  pending t := pending_up (k.threads t).code
  permits u := (k.sema (.waiter u)).value
  point u := (route (k.threads u).code).point
  wait := a.wait
  signal := a.signal

theorem monitor_of_eq {a : CondHistory} {m : Monitor ThreadId CondRef} (hqueue : waiting k = m.queue)
    (hpending : (fun t => pending_up (k.threads t).code) = m.pending)
    (hpermits : (fun u => (k.sema (.waiter u)).value) = m.permits)
    (hpoint : (fun u => (route (k.threads u).code).point) = m.point) (hwait : a.wait = m.wait)
    (hsignal : a.signal = m.signal) : monitor_of k a = m := by
  cases m
  simp_all [monitor_of]

/-- The monitor after an instruction of the running thread. -/
def Instr.monitor_after (k : Kernel) (a a' : CondHistory) (i : Instr) : Monitor ThreadId CondRef where
  queue c := (i.cond_after k c).filterMap SemaRef.owner
  pending := Function.update (monitor_of k a).pending k.current (i.pending_after k (pending_up k.code))
  permits u := (i.sema_after k (.waiter u)).value
  point := Function.update (monitor_of k a).point k.current (i.route_after k (prj3.route k.code)).point
  wait := a'.wait
  signal := a'.signal

/-- An instruction without a part in the protocol. -/
theorem idle_monitor {a : CondHistory} (hown : i.Own) (hevent : i.cond_event k = none) :
    i.monitor_after k a a = monitor_of k a := by
  have hpending : i.pending_after k (pending_up k.code) = pending_up k.code := by
    cases i with
    | sema_up s => cases s <;> simp_all [Instr.cond_event, Instr.pending_after]
    | cond_signal c lk => simp [Instr.cond_event] at hevent
    | _ => rfl
  have hpoint : (i.route_after k (route k.code)).point = (route k.code).point := by
    cases i with
    | ret f =>
      cases f with
      | lock_acquire lk => cases hr : route k.code <;> simp [Instr.route_after, Route.point]
      | cond_wait c lk => simp [Instr.cond_event] at hevent
      | _ => rfl
    | sema_down_loop s => cases s <;> simp_all [Instr.cond_event, Instr.route_after]
    | cond_wait c lk => simp [Instr.cond_event] at hevent
    | _ => rfl
  have hqueue : (fun c => (i.cond_after k c).filterMap SemaRef.owner) = waiting k := by
    funext c
    cases i with
    | cond_wait c lk => simp [Instr.cond_event] at hevent
    | cond_signal c lk => simp [Instr.cond_event] at hevent
    | _ => rfl
  have hpermits : (fun u => (i.sema_after k (.waiter u)).value) = fun u => (k.sema (.waiter u)).value := by
    funext u
    cases i with
    | cond_wait c lk => simp [Instr.cond_event] at hevent
    | sema_init s v =>
      obtain ⟨n, rfl⟩ := hown
      simp [Instr.sema_after]
    | sema_try_down s =>
      obtain ⟨n, rfl⟩ := hown
      simp [Instr.sema_after]
    | sema_up s => cases s <;> simp_all [Instr.cond_event, Instr.sema_after]
    | sema_down_loop s =>
      by_cases hs : s = .waiter u
      · subst hs
        simp_all [Instr.cond_event, Instr.sema_after]
      · simp [Instr.sema_after, hs]
    | lock_try_acquire lk => simp [Instr.sema_after]
    | _ => rfl
  simp only [Instr.monitor_after, hpending, hpoint, hqueue, hpermits]
  simp only [monitor_of, Kernel.code, Monitor.mk.injEq, true_and, and_true]
  exact ⟨Function.update_eq_self _ _, Function.update_eq_self _ _⟩

/-- What the running thread's code tells when it gets to an instruction. -/
structure Ready (k : Kernel) (i : Instr) : Prop where
  wait : ∀ c lk, i = .cond_wait c lk → route k.code = .out
  signal : ∀ c lk, i = .cond_signal c lk → pending_up k.code = none
  up : ∀ u, i = .sema_up (.waiter u) → pending_up k.code = some u
  down : ∀ u, i = .sema_down_loop (.waiter u) → u = k.current ∧ ∃ c lk, route k.code = .waiting c lk
  leave : ∀ c lk, i = .ret (.cond_wait c lk) → route k.code = .returning c lk

theorem Wf.ready_instr (h : Wf k) (hr : Routed k.code) (hs : prj3.step k l = some k')
    (hi : k.executes l = some i) : Ready k i where
  wait c lk hwait := by
    subst hwait
    obtain ⟨env, rest, hcode | ⟨hcode, -⟩, -⟩ := step_exec hs hi
    · rw [hcode] at hr ⊢
      exact hr.1 rfl
    · rw [hcode]
      rfl
  signal c lk hsignal := by
    subst hsignal
    obtain ⟨env, rest, hcode | ⟨hcode, -⟩, -⟩ := step_exec hs hi
    · rw [hcode]
      rfl
    · rw [hcode]
      rfl
  up u hup := by
    subst hup
    obtain ⟨rest, hcode⟩ := executes_next hs hi fun c => by cases c <;> simp [Call.instr]
    rw [hcode]
    rfl
  down u hdown := by
    subst hdown
    obtain ⟨rest, hcode⟩ := executes_next hs hi fun c => by cases c <;> simp [Call.instr]
    have hcur : (k.threads k.current).code = .sema_down_loop (.waiter u) :: rest := hcode
    refine ⟨h.codes.pending k.current (.sema_down_loop (.waiter u)) (by simp [hcur]), ?_⟩
    rw [hcode] at hr
    obtain ⟨⟨c, lk, hrest⟩, -⟩ := hr
    refine ⟨c, lk, ?_⟩
    rw [hcode, route_cons, hrest]
    rfl
  leave c lk hleave := by
    subst hleave
    obtain ⟨rest, hcode⟩ := executes_next hs hi fun c => by cases c <;> simp [Call.instr]
    rw [hcode]
    rfl

theorem filterMap_tail (hk : CondWaiters k) (c : CondRef) :
    (k.cond_waiters c).tail.filterMap SemaRef.owner = (waiting k c).tail := by
  cases hlist : k.cond_waiters c with
  | nil => simp [waiting, hlist]
  | cons w ws =>
    obtain ⟨t, rfl⟩ := hk c w (by simp [hlist])
    simp [waiting, hlist, SemaRef.owner]

/-- An instruction with a part in the protocol. -/
theorem instr_monitor {a : CondHistory} {e : Event ThreadId CondRef} (hk : CondWaiters k)
    (hv : (monitor_of k a).Valid) (hready : Ready k i) (he : i.cond_event k = some e) :
    (monitor_of k a).Step (some e) (i.monitor_after k a (a.record k e)) := by
  cases i with
  | cond_wait c lk =>
    obtain rfl := Option.some.inj he
    have hpoint : (monitor_of k a).point k.current = .out := by
      change (route k.code).point = .out
      rw [hready.wait c lk rfl]
      rfl
    refine (Monitor.Step.wait (m := monitor_of k a) k.current c hpoint).congr ?_
      (Function.update_eq_self _ _) ?_ rfl rfl rfl
    · funext c'
      simp only [Function.update_apply]
      by_cases hc : c' = c
      · simp [hc, Instr.monitor_after, monitor_of, Instr.cond_after, waiting, SemaRef.owner]
      · simp [hc, Ne.symm hc, Instr.monitor_after, monitor_of, Instr.cond_after, waiting]
    · funext u
      simp only [Function.update_apply]
      by_cases hu : u = k.current
      · simp [hu, Instr.monitor_after, Instr.sema_after]
      · simp [hu, Ne.symm hu, Instr.monitor_after, monitor_of, Instr.sema_after]
  | cond_signal c lk =>
    obtain rfl := Option.some.inj he
    refine (Monitor.Step.signal (m := monitor_of k a) k.current c (hready.signal c lk rfl)).congr ?_
      rfl rfl (Function.update_eq_self _ _) rfl rfl
    funext c'
    simp only [Function.update_apply]
    by_cases hc : c' = c
    · subst hc
      simpa [Instr.monitor_after, monitor_of, Instr.cond_after] using filterMap_tail hk c'
    · simp [hc, Ne.symm hc, Instr.monitor_after, monitor_of, Instr.cond_after, waiting]
  | sema_up s =>
    cases s with
    | waiter u =>
      obtain rfl := Option.some.inj he
      have hpending := hready.up u rfl
      obtain ⟨c, hsignalled⟩ := (hv.pending k.current u).mp hpending
      have hzero : (k.sema (.waiter u)).value = 0 := by
        by_contra hne
        obtain ⟨c', -, hw⟩ := hv.permits u hne
        rw [hsignalled] at hw
        cases hw
      refine (Monitor.Step.up (m := monitor_of k a) k.current u hpending).congr rfl rfl ?_
        (Function.update_eq_self _ _) rfl rfl
      funext v
      simp only [Function.update_apply]
      by_cases hvu : v = u
      · simp [hvu, Instr.monitor_after, monitor_of, Instr.sema_after, hzero]
      · simp [hvu, Ne.symm hvu, Instr.monitor_after, monitor_of, Instr.sema_after]
    | _ => cases he
  | sema_down_loop s =>
    cases s with
    | waiter u =>
      by_cases hzero : (k.sema (.waiter u)).value = 0
      · simp [Instr.cond_event, hzero] at he
      simp only [Instr.cond_event, hzero, if_false, Option.some.injEq] at he
      subst he
      obtain ⟨rfl, c, lk, hroute⟩ := hready.down u rfl
      have hpoint : (monitor_of k a).point k.current = .waiting c := by
        change (route k.code).point = .waiting c
        rw [hroute]
        rfl
      refine (Monitor.Step.down (m := monitor_of k a) k.current c hpoint hzero).congr rfl
        (Function.update_eq_self _ _) ?_ ?_ rfl rfl
      · funext v
        simp only [Function.update_apply]
        by_cases hvu : v = k.current
        · simp [hvu, Instr.monitor_after, monitor_of, Instr.sema_after, hzero, Semaphore.down]
        · simp [hvu, Ne.symm hvu, Instr.monitor_after, monitor_of, Instr.sema_after]
      · simp [Instr.monitor_after, Instr.route_after, hzero, hroute, Route.point]
    | _ => cases he
  | ret f =>
    cases f with
    | cond_wait c lk =>
      obtain rfl := Option.some.inj he
      have hpoint : (monitor_of k a).point k.current = .past c := by
        change (route k.code).point = .past c
        rw [hready.leave c lk rfl]
        rfl
      exact (Monitor.Step.leave (m := monitor_of k a) k.current c hpoint).congr rfl
        (Function.update_eq_self _ _) rfl rfl rfl rfl
    | _ => cases he
  | _ => simp [Instr.cond_event] at he

/-- Every step of the kernel is a step of the protocol. -/
theorem Wf.step_monitor {a : CondHistory} (h : Wf k) (hk : CondWaiters k) (hf : Fronted k.code)
    (hr : Routed k.code) (hown : ∀ i ∈ k.code, i.Own) (hv : (monitor_of k a).Valid)
    (hs : prj3.step k l = some k') :
    (monitor_of k a).Step ((k.executes l).bind (Instr.cond_event k)) (monitor_of k' (record_cond k l a)) := by
  have hsync := h.step_syncs hs
  have hpending := h.step_pending hk hf hs
  have hroute := h.step_route hr hs
  have hwait : (record_cond k l a).wait =
      (((k.executes l).bind (Instr.cond_event k)).elim a (a.record k)).wait := by
    unfold record_cond
    cases l.broadcasts <;> rfl
  have hsignal : (record_cond k l a).signal =
      (((k.executes l).bind (Instr.cond_event k)).elim a (a.record k)).signal := by
    unfold record_cond
    cases l.broadcasts <;> rfl
  cases hi : k.executes l with
  | none =>
    rw [hi] at hpending hroute hwait hsignal
    rw [Option.bind_none]
    refine Monitor.Step.none.congr ?_ ?_ ?_ ?_ hwait hsignal
    · funext c
      have hc := hsync.cond_waiters c
      rw [hi] at hc
      simp only [monitor_of, waiting, hc, Option.elim_none]
    · exact hpending.trans (Function.update_eq_self _ _)
    · funext u
      have hsema := hsync.sema (.waiter u)
      rw [hi] at hsema
      simp only [monitor_of, hsema, Option.elim_none]
    · funext u
      have hu : route (k'.threads u).code = route (k.threads u).code :=
        congrFun (hroute.trans (Function.update_eq_self _ _)) u
      simp only [monitor_of, hu]
  | some i =>
    rw [hi] at hpending hroute hwait hsignal
    simp only [Option.elim_some, Option.bind_some] at hpending hroute hwait hsignal ⊢
    have hmonitor (a' : CondHistory) (hw : (record_cond k l a).wait = a'.wait)
        (hsg : (record_cond k l a).signal = a'.signal) :
        monitor_of k' (record_cond k l a) = i.monitor_after k a a' := by
      refine monitor_of_eq ?_ hpending ?_ ?_ hw hsg
      · funext c
        have hc := hsync.cond_waiters c
        rw [hi] at hc
        simp only [Instr.monitor_after, waiting, hc, Option.elim_some]
      · funext u
        have hsema := hsync.sema (.waiter u)
        rw [hi] at hsema
        simp only [Instr.monitor_after, hsema, Option.elim_some]
      · funext u
        have hu := congrFun hroute u
        simp only [Function.update_apply] at hu
        simp only [Instr.monitor_after, monitor_of, Function.update_apply, hu]
        split <;> rfl
    cases he : i.cond_event k with
    | none =>
      rw [he] at hwait hsignal
      rw [hmonitor a hwait hsignal, idle_monitor (executes_own hown hi) he]
      exact .none
    | some e =>
      rw [he] at hwait hsignal
      rw [hmonitor _ hwait hsignal]
      exact instr_monitor hk hv (h.ready_instr hr hs hi) he

end pintos.prj3
