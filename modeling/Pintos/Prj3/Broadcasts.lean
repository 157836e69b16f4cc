import Pintos.Prj3.Signals

/-!
# Broadcasts

While a thread broadcasts with the lock held, the threads that waited at its
call are those that it has released, the one that it releases next, and those
that still wait.
-/

open pintos.kernel transition monitor

namespace pintos.prj3

variable {k k' : Kernel} {a : CondHistory} {i : Instr} {is rest code : List Instr} {t u : ThreadId}
  {l : Label} {c : CondRef} {lk : LockRef}

/-! ## Calls in progress -/

/-- Where a thread is in `cond_signal` or `cond_broadcast`. -/
inductive Calling where
  | out
  /-- In `cond_signal`, called by the thread's own function. -/
  | signalling (c : CondRef)
  /-- Before a test of the loop. -/
  | looping (c : CondRef) (lk : LockRef)
  /-- Before the loop's call of `cond_signal`. -/
  | calling (c : CondRef) (lk : LockRef)
  /-- In `cond_signal`, called by the loop. -/
  | relaying (c : CondRef) (lk : LockRef)
  /-- Behind the loop. -/
  | ending (c : CondRef)
  deriving DecidableEq, Repr

/-- The calls of code that begins with the instruction, from those of the rest. -/
def Instr.calling (r : Calling) : Instr → Calling
  | .cond_broadcast c lk => .looping c lk
  | .ret (.cond_broadcast c _) => .ending c
  | .cond_signal _ _ =>
    match r with
    | .looping c lk => .calling c lk
    | r => r
  | .ret (.cond_signal c _) =>
    match r with
    | .looping c lk => .relaying c lk
    | _ => .signalling c
  | _ => r

def calling (code : List Instr) : Calling := code.foldr (fun i r => i.calling r) .out

/-- What can stand in front of code with the given calls. -/
def Instr.CallingOk (r : Calling) : Instr → Prop
  | .cond_signal c lk | .ret (.cond_signal c lk) => r = .out ∨ r = .looping c lk
  | .sema_up _ | .ret (.sema_up _) => r = .out ∨ (∃ c, r = .signalling c) ∨ ∃ c lk, r = .relaying c lk
  | i => i.passing = false → r = .out

/-- The calls of `cond_signal` and `cond_broadcast` are pending in their order. -/
def CallsInOrder : List Instr → Prop
  | [] => True
  | i :: rest => i.CallingOk (calling rest) ∧ CallsInOrder rest

@[simp] theorem calling_nil : calling [] = .out := rfl

theorem calling_cons : calling (i :: rest) = i.calling (calling rest) := rfl

@[simp] theorem callsInOrder_nil : CallsInOrder [] := trivial

theorem callsInOrder_cons : CallsInOrder (i :: rest) ↔ i.CallingOk (calling rest) ∧ CallsInOrder rest := Iff.rfl

theorem Leaves.callsInOrder {cur : ThreadId} (h : Leaves cur i is) (hs : CallsInOrder (i :: rest)) :
    CallsInOrder (is ++ rest) := by
  cases h with
  | expands h =>
    cases h with
    | cond_signal c lk w =>
      obtain ⟨hout | hlooping, hrest⟩ := hs
      · simp_all [callsInOrder_cons, calling_cons, Instr.calling, Instr.CallingOk]
      · simp_all [callsInOrder_cons, calling_cons, Instr.calling, Instr.CallingOk]
    | _ => simp_all [callsInOrder_cons, calling_cons, Instr.calling, Instr.CallingOk, Instr.passing]
  | _ => simp_all [callsInOrder_cons, calling_cons, Instr.calling, Instr.CallingOk, Instr.passing]

theorem callsInOrder_rule : CodeRule CallsInOrder where
  nil := trivial
  exit := by simp [callsInOrder_cons, Instr.CallingOk, Instr.passing]
  boot := by simp [callsInOrder_cons, calling_cons, Instr.calling, Instr.CallingOk]
  start f := by simp [callsInOrder_cons, Instr.CallingOk]
  call c := by cases c <;> simp [Call.instr, callsInOrder_cons, Instr.CallingOk]
  tail _ _ h := h.2
  leaves _ _ _ _ h hs := h.callsInOrder hs
  tick rest h := by simpa [callsInOrder_cons, Instr.CallingOk, Instr.passing] using h

/-- The calls in progress after an instruction of code with the given ones. -/
def Instr.calling_after (k : Kernel) (r : Calling) : Instr → Calling
  | .cond_broadcast c lk => if k.cond_waiters c = [] then .ending c else .calling c lk
  | .ret (.cond_broadcast _ _) => .out
  | .cond_signal c _ =>
    match r with
    | .calling c lk => .relaying c lk
    | _ => .signalling c
  | .ret (.cond_signal _ _) =>
    match r with
    | .relaying c lk => .looping c lk
    | _ => .out
  | _ => r

/-- The code whose first instruction is executed, the callee's if it is called. -/
theorem Replaces.callsInOrder (h : Replaces i is rest k k') (hs : CallsInOrder k.code) :
    CallsInOrder (i :: rest) := by
  rcases h.before with hcode | ⟨hcode, rfl, c, rfl⟩
  · rwa [← hcode]
  · exact callsInOrder_rule.call c

/-- The code that a step continues, with the call of the thread's own function. -/
theorem Replaces.calling (h : Replaces i is rest k k') (hs : CallsInOrder k.code) :
    prj3.calling (is ++ rest) = i.calling_after k (prj3.calling (i :: rest)) := by
  obtain ⟨hnext, -⟩ := callsInOrder_cons.mp (h.callsInOrder hs)
  have hexact := h.exact
  have hleaves := h.leaves
  clear hs h
  cases i with
  | sema_init s v =>
    obtain rfl : is = [] := hexact
    rfl
  | sema_down_loop s =>
    simp only [Instr.Exact] at hexact
    subst hexact
    split <;> rfl
  | cond_signal c lk =>
    simp only [Instr.Exact] at hexact
    subst hexact
    rcases hnext with hr | hr <;> cases (k.cond_waiters c).head? <;>
      simp [hr, calling_cons, Instr.calling, Instr.calling_after]
  | cond_broadcast c lk =>
    simp only [Instr.Exact] at hexact
    subst hexact
    by_cases hnil : k.cond_waiters c = [] <;> simp [hnil, calling_cons, Instr.calling, Instr.calling_after]
  | ret f =>
    rcases hleaves with hleaves | ⟨s, v, hi⟩
    · cases hleaves with
      | expands hexpands =>
        cases hexpands
        cases f with
        | cond_signal c lk =>
          rcases hnext with hr | hr <;> simp [hr, calling_cons, Instr.calling, Instr.calling_after]
        | _ => simp_all [calling_cons, Instr.calling, Instr.calling_after, Instr.CallingOk, Instr.passing]
    · cases hi
  | _ =>
    rcases hleaves with hleaves | ⟨s, v, hi⟩
    · cases hleaves <;> (try (rename_i hexpands; cases hexpands)) <;>
        simp_all [calling_cons, Instr.calling, Instr.calling_after, Instr.CallingOk, Instr.passing]
    · cases hi

theorem Fresh.calling (h : Fresh code) : prj3.calling code = .out := by
  rcases h with rfl | ⟨f, rfl⟩ <;> rfl

/-! ## What the calls in progress promise -/

/-- The lock that is named in a call on condition `c`. -/
def Instr.lock_for (c : CondRef) : Instr → Option LockRef
  | .cond_wait c' lk | .cond_signal c' lk | .cond_broadcast c' lk => if c' = c then some lk else none
  | _ => none

/-- A condition is used with one lock. -/
def UsesLock (c : CondRef) (lk : LockRef) (p : Kernel × CondHistory) (l : Label) : Prop :=
  ∀ lk', (p.1.executes l).bind (Instr.lock_for c) = some lk' → lk' = lk

instance (c : CondRef) (lk : LockRef) (p : Kernel × CondHistory) (l : Label) : Decidable (UsesLock c lk p l) :=
  decidable_of_iff (((p.1.executes l).bind (Instr.lock_for c)).all fun lk' => decide (lk' = lk))
    (by simp [UsesLock, Option.all_eq_true])

/-- Those that waited at the broadcast have been released, are next or still wait. -/
def Relays (c : CondRef) (k : Kernel) (a : CondHistory) (t : ThreadId) (next : Option ThreadId) : Prop :=
  (a.broadcast t).cond = some c ∧
    (a.broadcast t).waiting = (a.broadcast t).released ++ (next.toList ++ waiting k c)

/-- What holds of a thread at each point of its calls. -/
def Calling.Promise (c : CondRef) (lk : LockRef) (k : Kernel) (a : CondHistory) (t : ThreadId) :
    Calling → Prop
  | .out => True
  | .signalling c' => (a.signal t).cond = some c'
  | .looping c' lk' => c' = c → lk' = lk ∧ k.holder lk = some t ∧ Relays c k a t none
  -- `cond_signal` is still to assert that the lock is held
  | .calling c' lk' => c' = c → lk' = lk ∧ (k.holder lk = some t → Relays c k a t none)
  | .relaying c' lk' =>
    (a.signal t).cond = some c' ∧
      (c' = c → lk' = lk ∧ k.holder lk = some t ∧ Relays c k a t (pending_up (k.threads t).code))
  | .ending c' => c' = c → (a.broadcast t).cond = some c ∧ (a.broadcast t).waiting = (a.broadcast t).released

section promise

variable {a' : CondHistory} {r : Calling}

theorem Calling.Promise.frame (h : r.Promise c lk k a t) (hsignal : a'.signal t = a.signal t)
    (hbroadcast : a'.broadcast t = a.broadcast t) (hholder : k'.holder lk = some t ↔ k.holder lk = some t)
    (hwaiting : k.holder lk = some t → waiting k' c = waiting k c)
    (hpending : pending_up (k'.threads t).code = pending_up (k.threads t).code) : r.Promise c lk k' a' t := by
  cases r with
  | out => trivial
  | signalling c' =>
    rw [Calling.Promise, hsignal]
    exact h
  | looping c' lk' =>
    intro hc
    obtain ⟨hlk, ht, hrelays⟩ := h hc
    refine ⟨hlk, hholder.mpr ht, ?_⟩
    rwa [Relays, hbroadcast, hwaiting ht]
  | calling c' lk' =>
    intro hc
    obtain ⟨hlk, hrelays⟩ := h hc
    refine ⟨hlk, fun ht => ?_⟩
    have ht := hholder.mp ht
    rw [Relays, hbroadcast, hwaiting ht]
    exact hrelays ht
  | relaying c' lk' =>
    refine ⟨hsignal ▸ h.1, fun hc => ?_⟩
    obtain ⟨hlk, ht, hrelays⟩ := h.2 hc
    refine ⟨hlk, hholder.mpr ht, ?_⟩
    rwa [Relays, hbroadcast, hwaiting ht, hpending]
  | ending c' =>
    intro hc
    rw [hbroadcast]
    exact h hc

end promise

/-- The label names the condition of a broadcast that the thread's own function calls. -/
theorem broadcasts_eq_some (h : l.broadcasts = some c) :
    ∃ n, l = .call (.cond_broadcast c n) := by
  cases l with
  | call cc =>
    cases cc with
    | cond_broadcast c' n =>
      obtain rfl := Option.some.inj h
      exact ⟨n, rfl⟩
    | _ => cases h
  | _ => cases h

/-- The calls of other threads are as they were. -/
theorem record_others (ht : t ≠ k.current) :
    (record_cond k l a).signal t = a.signal t ∧ (record_cond k l a).broadcast t = a.broadcast t := by
  have hevent : (((k.executes l).bind (Instr.cond_event k)).elim a (a.record k)).signal t = a.signal t ∧
      (((k.executes l).bind (Instr.cond_event k)).elim a (a.record k)).broadcast t = a.broadcast t := by
    cases he : (k.executes l).bind (Instr.cond_event k) with
    | none => exact ⟨rfl, rfl⟩
    | some e =>
      obtain ⟨i, -, hi⟩ := Option.bind_eq_some_iff.mp he
      cases i with
      | cond_signal c lk =>
        obtain rfl := Option.some.inj hi
        exact ⟨Function.update_of_ne ht _ _, rfl⟩
      | sema_up s =>
        cases s with
        | waiter u =>
          obtain rfl := Option.some.inj hi
          exact ⟨Function.update_of_ne ht _ _, Function.update_of_ne ht _ _⟩
        | _ => cases hi
      | cond_wait c lk =>
        obtain rfl := Option.some.inj hi
        exact ⟨rfl, rfl⟩
      | sema_down_loop s =>
        cases s with
        | waiter u =>
          simp only [Instr.cond_event] at hi
          split at hi
          · cases hi
          · obtain rfl := Option.some.inj hi
            exact ⟨rfl, rfl⟩
        | _ => cases hi
      | ret f =>
        cases f with
        | cond_wait c lk =>
          obtain rfl := Option.some.inj hi
          exact ⟨rfl, rfl⟩
        | _ => cases hi
      | _ => cases hi
  unfold record_cond
  cases l.broadcasts with
  | none => exact hevent
  | some c => exact ⟨hevent.1, (Function.update_of_ne ht _ _).trans hevent.2⟩

theorem StepSyncs.waiting (h : StepSyncs l k k') (hwait : ∀ lk', k.executes l ≠ some (.cond_wait c lk'))
    (hsignal : ∀ lk', k.executes l ≠ some (.cond_signal c lk')) : prj3.waiting k' c = prj3.waiting k c := by
  have hc := h.cond_waiters c
  cases hi : k.executes l with
  | none =>
    rw [hi, Option.elim_none] at hc
    rw [prj3.waiting, hc, prj3.waiting]
  | some i =>
    rw [hi, Option.elim_some] at hc
    rw [prj3.waiting, hc, prj3.waiting]
    cases i with
    | cond_wait c' lk' =>
      have hne : c' ≠ c := fun heq => hwait lk' (heq ▸ hi)
      simp [Instr.cond_after, hne]
    | cond_signal c' lk' =>
      have hne : c' ≠ c := fun heq => hsignal lk' (heq ▸ hi)
      simp [Instr.cond_after, hne]
    | _ => rfl

/-- Conditions are used by the holder of their lock. -/
theorem cond_asserts (hs : step k l = some k')
    (hi : k.executes l = some (.cond_wait c lk) ∨ k.executes l = some (.cond_signal c lk)) :
    k.holder lk = some k.current := by
  rcases hi with hi | hi
  · obtain ⟨env, rest, -, he⟩ := step_exec hs hi
    simp only [exec, ASSERT_bind_ok, thread_current_bind_ok] at he
    exact he.2.2.2.1
  · obtain ⟨env, rest, -, he⟩ := step_exec hs hi
    simp only [exec, ASSERT_bind_ok, thread_current_bind_ok] at he
    exact he.2.2.2.1

/-- Only a thread that stores its name becomes the holder. -/
theorem StepSyncs.holder_before (h : StepSyncs l k k') (ht : k'.holder lk = some t)
    (hne : t = k.current → k.executes l ≠ some (.set_holder lk)) : k.holder lk = some t := by
  rw [h.holder lk] at ht
  cases hi : k.executes l with
  | none => simpa [hi] using ht
  | some i =>
    rw [hi, Option.elim_some] at ht
    cases i with
    | set_holder lk' =>
      simp only [Instr.holder_after] at ht
      split at ht
      · rename_i hlk
        obtain rfl := Option.some.inj ht
        exact absurd (hlk ▸ hi) (hne rfl)
      · exact ht
    | lock_release lk' =>
      simp only [Instr.holder_after] at ht
      split at ht
      · cases ht
      · exact ht
    | _ => exact ht

/-- While a thread holds the lock, nobody else changes who waits. -/
theorem waiting_held (hr : kernel.Reachable k) (hs : step k l = some k') (hguard : UsesLock c lk (k, a) l)
    (ht : t ≠ k.current) (hholder : k.holder lk = some t) : waiting k' c = waiting k c := by
  have hnot (lk' : LockRef) (hi : k.executes l = some (.cond_wait c lk') ∨
      k.executes l = some (.cond_signal c lk')) : False := by
    have hlk : lk' = lk := hguard lk' (by rcases hi with hi | hi <;> simp [hi, Instr.lock_for])
    have hcurrent := cond_asserts hs hi
    rw [hlk, hholder, Option.some.injEq] at hcurrent
    exact ht hcurrent
  exact ((reachable_wf hr).step_syncs hs).waiting (fun lk' hi => hnot lk' (.inl hi))
    fun lk' hi => hnot lk' (.inr hi)

/-- A step of another thread. -/
theorem promise_others (hr : kernel.Reachable k) (hs : step k l = some k') (hguard : UsesLock c lk (k, a) l)
    (ht : t ≠ k.current) (h : (calling (k.threads t).code).Promise c lk k a t) :
    (calling (k'.threads t).code).Promise c lk k' (record_cond k l a) t := by
  have hw := reachable_wf hr
  have hcalling : calling (k'.threads t).code = calling (k.threads t).code := by
    rcases hw.step_others hs ht with hc | ⟨hold, hnew⟩
    · rw [hc]
    · rw [hold.calling, hnew.calling]
  have hpending := congrFun (hw.step_pending (reachable_cond_waiters hr)
    (reachable_codes fronted_rule hr k.current) hs) t
  rw [Function.update_of_ne ht] at hpending
  obtain ⟨hsignal, hbroadcast⟩ := record_others (l := l) (a := a) ht
  rw [hcalling]
  refine h.frame hsignal hbroadcast ⟨fun hholder => ?_, fun hholder => ?_⟩
    (waiting_held hr hs hguard ht) hpending
  · exact (hw.step_syncs hs).holder_before hholder fun hcur => absurd hcur ht
  · exact reachable_holder_kept hr hs hholder fun hcur => absurd hcur ht

/-! ## The steps of the caller -/

/-- An instruction that leaves the calls in progress as they are. -/
theorem promise_quiet (hr : kernel.Reachable k) (hs : step k l = some k')
    (hevent : (k.executes l).bind (Instr.cond_event k) = none) (hlabel : l.broadcasts = none)
    (hrelease : k.executes l ≠ some (.lock_release lk)) (hset : k.executes l ≠ some (.set_holder lk))
    {r : Calling} (h : r.Promise c lk k a k.current)
    (hpending : pending_up (k'.threads k.current).code = pending_up k.code) :
    r.Promise c lk k' (record_cond k l a) k.current := by
  have hw := reachable_wf hr
  have ha : record_cond k l a = a := by
    unfold record_cond
    rw [hevent, hlabel]
    rfl
  rw [ha]
  refine h.frame rfl rfl ⟨fun hholder => ?_, fun hholder => ?_⟩ (fun _ => ?_) hpending
  · exact (hw.step_syncs hs).holder_before hholder fun _ => hset
  · exact reachable_holder_kept hr hs hholder fun _ => hrelease
  · refine (hw.step_syncs hs).waiting (fun lk' hi => ?_) fun lk' hi => ?_
    · simp [hi, Instr.cond_event] at hevent
    · simp [hi, Instr.cond_event] at hevent

theorem broadcasts_eq_none (h : ∀ c lk, k.executes l ≠ some (.cond_broadcast c lk)) : l.broadcasts = none := by
  cases hb : l.broadcasts with
  | none => rfl
  | some c =>
    obtain ⟨n, rfl⟩ := broadcasts_eq_some hb
    exact absurd rfl (h c (.lock n))

/-- The test of the loop, also the first one. -/
theorem broadcast_relays (hs : step k l = some k') (hi : k.executes l = some (.cond_broadcast c lk))
    (h : (calling k.code).Promise c lk k a k.current) : Relays c k (record_cond k l a) k.current none := by
  have hevent : (k.executes l).bind (Instr.cond_event k) = none := by rw [hi]; rfl
  unfold record_cond
  rw [hevent, Option.elim_none]
  cases l with
  | next env =>
    obtain ⟨rest, hcode⟩ := List.head?_eq_some_iff.mp hi
    rw [hcode] at h
    exact (h rfl).2.2
  | call cc =>
    cases cc with
    | cond_broadcast c' n =>
      obtain ⟨rfl, -⟩ : c' = c ∧ _ := by simpa [Kernel.executes, Call.instr] using hi
      simp [Relays, Label.broadcasts]
    | _ => cases hi
  | timer => cases hi

/-- A step of the thread itself. -/
theorem promise_own (hr : kernel.Reachable k) (hs : step k l = some k') (hguard : UsesLock c lk (k, a) l)
    (h : (calling k.code).Promise c lk k a k.current) :
    (calling (k'.threads k.current).code).Promise c lk k' (record_cond k l a) k.current := by
  have hw := reachable_wf hr
  have hcalls := reachable_codes callsInOrder_rule hr k.current
  have hsync := hw.step_syncs hs
  have hcond := reachable_cond_waiters hr
  have hpending := congrFun (hw.step_pending hcond (reachable_codes fronted_rule hr k.current) hs) k.current
  rw [Function.update_self] at hpending
  have hown := hw.step_own hs
  generalize hi : k.executes l = e at hown hpending
  cases hown with
  | tick hcode =>
    rw [hcode]
    exact promise_quiet hr hs (by simp [hi]) (broadcasts_eq_none (k := k) (by simp [hi])) (by simp [hi])
      (by simp [hi])
      h hpending
  | switch rest hbefore hcode =>
    rw [hbefore] at h
    rw [hcode]
    exact promise_quiet hr hs (by simp [hi, Instr.cond_event]) (broadcasts_eq_none (k := k) (by simp [hi]))
      (by simp [hi]) (by simp [hi]) h hpending
  | exit hbefore hcode =>
    rw [hcode]
    trivial
  | replaces i is rest hrep =>
    obtain ⟨hok, -⟩ := callsInOrder_cons.mp (hrep.callsInOrder hcalls)
    rw [hrep.after, hrep.calling hcalls]
    rw [Option.elim_some] at hpending
    -- an instruction that is no part of a call leaves the calls before it in progress
    have hquiet (hrest : calling (i :: rest) = calling rest) (hevent : i.cond_event k = none)
        (hbroadcast : ∀ c lk, i ≠ .cond_broadcast c lk) (hrelease : i ≠ .lock_release lk)
        (hset : i ≠ .set_holder lk) (hup : i.pending_after k (pending_up k.code) = pending_up k.code) :
        (calling (i :: rest)).Promise c lk k' (record_cond k l a) k.current := by
      refine promise_quiet hr hs (by simp [hi, hevent]) (broadcasts_eq_none (k := k)
        (by simpa [hi] using hbroadcast))
        (by simpa [hi] using hrelease) (by simpa [hi] using hset) ?_ (hpending.trans hup)
      rcases hrep.before with hcode | ⟨-, rfl, -⟩
      · rwa [← hcode]
      · rw [hrest]
        trivial
    cases i with
    | cond_broadcast c' lk' =>
      by_cases hc : c' = c
      · subst hc
        obtain rfl : lk' = lk := hguard lk' (by simp [hi, Instr.lock_for])
        have hrelays := broadcast_relays hs hi h
        have hwaiting : prj3.waiting k' c' = prj3.waiting k c' :=
          hsync.waiting (by simp [hi]) (by simp [hi])
        simp only [Instr.calling_after]
        split
        · rename_i hnil
          intro _
          refine ⟨hrelays.1, ?_⟩
          simpa [prj3.waiting, hnil] using hrelays.2
        · intro _
          refine ⟨rfl, fun _ => ?_⟩
          rwa [Relays, hwaiting]
      · simp only [Instr.calling_after]
        split <;> exact fun heq => absurd heq hc
    | cond_signal c' lk' =>
      have hsignal : (record_cond k l a).signal k.current = ⟨some c', prj3.waiting k c', []⟩ := by
        have hlabel := broadcasts_eq_none (k := k) (l := l) (by simp [hi])
        simp [record_cond, hi, hlabel, Instr.cond_event, CondHistory.record]
      have hbroadcast : (record_cond k l a).broadcast k.current = a.broadcast k.current := by
        have hlabel := broadcasts_eq_none (k := k) (l := l) (by simp [hi])
        simp [record_cond, hi, hlabel, Instr.cond_event, CondHistory.record]
      rcases hok with hout | hlooping
      · simp only [calling_cons, hout, Instr.calling, Instr.calling_after]
        exact congrArg monitor.Call.cond hsignal
      · simp only [calling_cons, hlooping, Instr.calling, Instr.calling_after]
        refine ⟨congrArg monitor.Call.cond hsignal, fun hc => ?_⟩
        subst hc
        obtain hcode | ⟨-, rfl, -⟩ := hrep.before
        · rw [hcode, calling_cons, hlooping] at h
          obtain ⟨rfl, hrelays⟩ := h rfl
          have hholder := cond_asserts hs (.inr hi)
          refine ⟨rfl, reachable_holder_kept hr hs hholder fun _ => by simp [hi], ?_⟩
          obtain ⟨hcond', hall⟩ := hrelays hholder
          have hc := hsync.cond_waiters c'
          rw [hi] at hc
          have hrest : prj3.waiting k' c' = (prj3.waiting k c').tail := by
            rw [prj3.waiting, hc, ← filterMap_tail hcond]
            simp [Instr.cond_after]
          refine ⟨hbroadcast ▸ hcond', ?_⟩
          rw [hbroadcast, hpending, Instr.pending_after, hrest, hall]
          cases prj3.waiting k c' <;> simp
        · cases hlooping
    | ret f =>
      cases f with
      | cond_signal c' lk' =>
        obtain ⟨rest', hcode⟩ := executes_next hs hi fun c => by cases c <;> simp [Call.instr]
        obtain hcode' | ⟨hnil, -⟩ := hrep.before
        · rcases hok with hout | hlooping
          · simp only [calling_cons, hout, Instr.calling, Instr.calling_after]
            trivial
          · have hnone : pending_up (k'.threads k.current).code = none := by
              rw [hpending, hcode]
              rfl
            have hkeep : (calling k.code).Promise c lk k' (record_cond k l a) k.current :=
              promise_quiet hr hs (by simp [hi, Instr.cond_event])
              (broadcasts_eq_none (k := k) (by simp [hi])) (by simp [hi]) (by simp [hi]) h hpending
            rw [hcode', calling_cons, hlooping] at hkeep
            simp only [calling_cons, hlooping, Instr.calling, Instr.calling_after]
            intro hc
            obtain ⟨hlk, hholder, hrelays⟩ := hkeep.2 hc
            refine ⟨hlk, hholder, ?_⟩
            rwa [hnone] at hrelays
        · simp [hnil] at hcode
      | cond_broadcast c' lk' => trivial
      | sema_up s => exact hquiet rfl rfl (by simp) (by simp) (by simp) rfl
      | timer_interrupt => exact hquiet rfl rfl (by simp) (by simp) (by simp) rfl
      | _ =>
        have hout := hok rfl
        simp only [calling_cons, hout, Instr.calling, Instr.calling_after]
        trivial
    | sema_up s =>
      cases s with
      | waiter u =>
        obtain ⟨rest', hcode⟩ := executes_next hs hi fun c => by cases c <;> simp [Call.instr]
        obtain hcode' | ⟨hnil, -⟩ := hrep.before
        · have hsome : pending_up k.code = some u := by rw [hcode]; rfl
          have hlabel := broadcasts_eq_none (k := k) (l := l) (by simp [hi])
          have hsignal : ((record_cond k l a).signal k.current).cond = (a.signal k.current).cond := by
            simp [record_cond, hi, hlabel, Instr.cond_event, CondHistory.record, release]
          have hbroadcast : (record_cond k l a).broadcast k.current =
              { a.broadcast k.current with released := (a.broadcast k.current).released ++ [u] } := by
            simp [record_cond, hi, hlabel, Instr.cond_event, CondHistory.record, release]
          have hwaiting : prj3.waiting k' c = prj3.waiting k c := hsync.waiting (by simp [hi]) (by simp [hi])
          rw [hcode'] at h
          rcases hok with hr' | ⟨c', hr'⟩ | ⟨c', lk', hr'⟩
          · simp only [calling_cons, hr', Instr.calling, Instr.calling_after]
            trivial
          · simp only [calling_cons, hr', Instr.calling, Instr.calling_after] at h ⊢
            exact hsignal.trans h
          · simp only [calling_cons, hr', Instr.calling, Instr.calling_after] at h ⊢
            refine ⟨hsignal.trans h.1, fun hc => ?_⟩
            obtain ⟨hlk, hholder, hcond', hall⟩ := h.2 hc
            refine ⟨hlk, reachable_holder_kept hr hs hholder fun _ => by simp [hi], ?_, ?_⟩
            · rw [hbroadcast]
              exact hcond'
            · have hcur : pending_up (k.threads k.current).code = some u := hsome
              rw [hbroadcast, hpending, Instr.pending_after, hwaiting, hall, hcur]
              simp
        · simp [hnil] at hcode
      | _ => exact hquiet rfl rfl (by simp) (by simp) (by simp) rfl
    | thread_yield => exact hquiet rfl rfl (by simp) (by simp) (by simp) rfl
    | schedule => exact hquiet rfl rfl (by simp) (by simp) (by simp) rfl
    | intr_set_level level => exact hquiet rfl rfl (by simp) (by simp) (by simp) rfl
    | _ =>
      have hout := hok rfl
      simp only [calling_cons, hout, Instr.calling, Instr.calling_after]
      trivial

/-! ## Every run -/

theorem reachable_promise (h : (with_cond_history.restrict (UsesLock c lk)).Reachable (k, a)) :
    ∀ t, (calling (k.threads t).code).Promise c lk k a t := by
  refine h.restrict_invariant
    (I := fun p => ∀ t, (calling (p.1.threads t).code).Promise c lk p.1 p.2 t) ?_ ?_
  · rintro ⟨k, a⟩ ⟨⟨mlfqs, aging, t₀, rfl⟩, -⟩ t
    by_cases ht : t = t₀
    · simp [prj3.boot, ht, calling_cons, Instr.calling, Calling.Promise]
    · simp [prj3.boot, ht, Thread.zero, Calling.Promise]
  · rintro ⟨k, a⟩ l ⟨k', a'⟩ hr ih hguard ⟨hs, ha⟩ t
    replace ha : a' = record_cond k l a := ha
    subst ha
    by_cases ht : t = k.current
    · subst ht
      exact promise_own hr.of_observe hs hguard (ih _)
    · exact promise_others hr.of_observe hs hguard ht (ih t)

/-- What a condition promises to the threads inside `cond_wait`. -/
structure CondWaits (c : CondRef) (k : Kernel) (a : CondHistory) : Prop where
  /-- From its call until a signal takes it off the queue, a thread is in the queue once. -/
  queued : ∀ u, a.wait u = .queued c ↔ u ∈ waiting k c
  nodup : (waiting k c).Nodup
  /-- A released thread finds its permit, whether or not it has blocked before. -/
  woken : ∀ u lk, a.wait u = .released c → route (k.threads u).code = .waiting c lk →
    (k.sema (.waiter u)).value = 1 ∧ (k.threads u).status ≠ .THREAD_BLOCKED

/-- What a condition promises to the running thread when a call returns. -/
structure CondReturns (c : CondRef) (k : Kernel) (a : CondHistory) (l : Label) : Prop where
  signal : ∀ lk, k.executes l = some (.ret (.cond_signal c lk)) → (a.signal k.current).cond = some c ∧
    (a.signal k.current).released = (a.signal k.current).waiting.head?.toList
  broadcast : ∀ lk, k.executes l = some (.ret (.cond_broadcast c lk)) →
    (a.broadcast k.current).cond = some c ∧
      (a.broadcast k.current).released = (a.broadcast k.current).waiting
  wait : ∀ lk, k.executes l = some (.ret (.cond_wait c lk)) →
    a.wait k.current = .released c ∧ k.holder lk = some k.current

theorem reachable_cond_waits (h : with_cond_history.Reachable (k, a)) : CondWaits c k a := by
  have hvalid := reachable_monitor h
  refine ⟨fun u => (hvalid.queued u c).symm, hvalid.nodup c, fun u lk hreleased hroute => ?_⟩
  have hpoint : (monitor_of k a).point u = .waiting c := congrArg Route.point hroute
  have hone : (k.sema (.waiter u)).value = 1 := hvalid.permit u c hpoint hreleased
  refine ⟨hone, ?_⟩
  have hreach : kernel.Reachable k := h.of_observe
  exact (reachable_wf hreach).not_blocked (reachable_codes routed_rule hreach u) hroute
    (no_waiter_of_permit hreach (by simp [hone]))

/-- No wake-up is lost, none is made up, and who returns from `cond_wait` holds the lock. -/
theorem conditions_safe (h : (with_cond_history.restrict (UsesLock c lk)).Reachable (k, a)) :
    CondWaits c k a ∧ ∀ l k', step k l = some k' → CondReturns c k a l := by
  have hobserved := h.of_restrict
  have hreach : kernel.Reachable k := hobserved.of_observe
  have hvalid := reachable_monitor hobserved
  have hpromise := reachable_promise h k.current
  refine ⟨reachable_cond_waits hobserved, fun l k' hs => ⟨fun lk' hi => ?_, fun lk' hi => ?_, fun lk' hi => ?_⟩⟩
  · obtain ⟨rest, hcode⟩ := executes_next hs hi fun c => by cases c <;> simp [Call.instr]
    have hcur : (k.threads k.current).code = .ret (.cond_signal c lk') :: rest := hcode
    have hcalled := hvalid.called k.current
    have hnone : (monitor_of k a).pending k.current = none := congrArg pending_up hcur
    rw [hnone, Option.toList_none, List.append_nil] at hcalled
    refine ⟨?_, hcalled.symm⟩
    rw [hcur, calling_cons] at hpromise
    cases hr : calling rest with
    | looping c' lk'' =>
      have hok := (reachable_codes callsInOrder_rule hreach k.current)
      rw [hcur] at hok
      obtain hout | hlooping := hok.1
      · simp [hr] at hout
      · rw [hlooping] at hpromise
        exact hpromise.1
    | _ =>
      rw [hr] at hpromise
      exact hpromise
  · obtain ⟨rest, hcode⟩ := executes_next hs hi fun c => by cases c <;> simp [Call.instr]
    have hcur : (k.threads k.current).code = .ret (.cond_broadcast c lk') :: rest := hcode
    rw [hcur] at hpromise
    obtain ⟨hcond, hall⟩ := hpromise rfl
    exact ⟨hcond, hall.symm⟩
  · obtain ⟨rest, hcode⟩ := executes_next hs hi fun c => by cases c <;> simp [Call.instr]
    have hroute : route (k.threads k.current).code = .returning c lk' := congrArg route hcode
    refine ⟨hvalid.past k.current c (congrArg Route.point hroute), ?_⟩
    exact reachable_regained hreach k.current c lk' hroute

/-- `main` creates a thread on page `t` that takes lock 0 and waits for condition 0. -/
def create_waiter (t : ThreadId) : List Label :=
  .call (.thread_create PRI_MAX) :: .replicate 8 (.next ⟨some t, 0⟩) ++ .replicate 32 (.next ⟨none, 0⟩) ++
    acquire_lock ++ .call (.cond_wait 0 0) :: .replicate 13 (.next ⟨none, 0⟩)

/-- The theorem when `main` has broadcast to two threads that wait for the lock now. -/
theorem conditions_safe_after_broadcast : ∃ k a, k.current = 0 ∧ (a.broadcast 0).waiting = [2, 3] ∧
    (k.sema (.lock (.lock 0))).waiters = [2, 3] ∧ CondWaits 0 k a := by
  obtain ⟨⟨k, a⟩, hrun, hk⟩ := exists_of_any
    (checked (fun p l => decide (UsesLock 0 (.lock 0) p l)) (observed step record_cond))
    (boot false false 0, .start)
    (start_up ++ create_waiter 2 ++ create_waiter 3 ++ acquire_lock ++
      .call (.cond_broadcast 0 0) :: .replicate 32 (.next ⟨none, 0⟩))
    (fun p => p.1.current = 0 ∧ (p.2.broadcast 0).waiting = [2, 3] ∧
      (p.1.sema (.lock (.lock 0))).waiters = [2, 3]) (by decide +kernel)
  obtain ⟨hcurrent, hwaiting, hlock⟩ := of_decide_eq_true hk
  have hreach : (with_cond_history.restrict (UsesLock 0 (.lock 0))).Reachable (k, a) := by
    rw [with_cond_history, kernel, observe_ofStep]
    exact runLabels_checked (fun _ _ h => of_decide_eq_true h) ⟨⟨false, false, 0, rfl⟩, rfl⟩ hrun
  exact ⟨k, a, hcurrent, hwaiting, hlock, (conditions_safe hreach).1⟩

end pintos.prj3
