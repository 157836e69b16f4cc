import Pintos.Lib.Mutex
import Pintos.Prj3.Synch

/-!
# Locks

A lock follows the protocol of a mutex made of a semaphore and a holder field:
the stage of each thread is read off its pending code.
-/

open pintos.kernel transition mutex

namespace pintos.prj3

variable {k k' : Kernel} {i : Instr} {is rest : List Instr} {t : ThreadId} {l : Label} {lk : LockRef}

/-- `lock_init`. -/
def lock_init (k : Kernel) (lk : LockRef) : Kernel :=
  (k.set_holder lk none).set_sema (.lock lk) { value := 1, waiters := [] }

/-- `lock_held_by_current_thread`. -/
def lock_held_by_current_thread (k : Kernel) (lk : LockRef) : Except Assertion Bool := do
  let cur ← thread_current k
  .ok (k.holder lk = some cur)

/-! ## Stages -/

/-- The stage at which a thread is whose next instruction this is. Returning
from other functions, yielding and setting the interrupt level happen at any. -/
def Instr.lock_stage (lk : LockRef) : Instr → Option Stage
  | .sema_down s | .sema_down_loop s => some (if s = .lock lk then .asking else .outside)
  | .set_holder lk' => some (if lk' = lk then .taking else .outside)
  | .sema_up s => some (if s = .lock lk then .releasing else .outside)
  | .ret (.lock_acquire lk') | .ret (.lock_try_acquire lk' true) => if lk' = lk then some .returning else none
  | .ret _ | .schedule | .thread_yield | .intr_set_level _ => none
  | _ => some .outside

/-- The stage of a thread with the given code. -/
def lock_stage (lk : LockRef) : List Instr → Stage
  | [] => .outside
  | i :: rest => (i.lock_stage lk).getD (lock_stage lk rest)

/-- The stage at which the code goes on after one stage. -/
def next_stage : Stage → Stage
  | .asking => .taking
  | .taking => .returning
  | _ => .outside

/-- The stages follow each other along the code. -/
def Staged (lk : LockRef) : List Instr → Prop
  | [] => True
  | i :: rest => (∀ st ∈ i.lock_stage lk, lock_stage lk rest = next_stage st) ∧ Staged lk rest

@[simp] theorem lock_stage_nil : lock_stage lk [] = .outside := rfl

theorem lock_stage_cons : lock_stage lk (i :: rest) = (i.lock_stage lk).getD (lock_stage lk rest) := rfl

@[simp] theorem staged_nil : Staged lk [] := trivial

theorem staged_cons : Staged lk (i :: rest) ↔
    (∀ st ∈ i.lock_stage lk, lock_stage lk rest = next_stage st) ∧ Staged lk rest := Iff.rfl

theorem call_lock_stage (c : Call) : lock_stage lk [c.instr] = .outside := by
  cases c <;> simp [Call.instr, lock_stage_cons, Instr.lock_stage]

theorem Leaves.staged {cur : ThreadId} (h : Leaves cur i is) (hs : Staged lk (i :: rest)) :
    Staged lk (is ++ rest) := by
  cases h with
  | expands h =>
    cases h with
    | lock_acquire lk' =>
      by_cases hl : lk' = lk <;> simp_all [staged_cons, lock_stage_cons, Instr.lock_stage, next_stage]
    | set_holder lk' => exact hs.2
    | lock_try_acquire lk' =>
      by_cases hl : lk' = lk <;> simp_all [staged_cons, lock_stage_cons, Instr.lock_stage, next_stage]
    | lock_release lk' =>
      by_cases hl : lk' = lk <;> simp_all [staged_cons, lock_stage_cons, Instr.lock_stage, next_stage]
    | cond_signal c lk' w =>
      by_cases hl : w = .lock lk <;> simp_all [staged_cons, lock_stage_cons, Instr.lock_stage, next_stage]
    | sema_down s level =>
      by_cases hl : s = .lock lk <;> simp_all [staged_cons, lock_stage_cons, Instr.lock_stage, next_stage]
    | _ => simp_all [staged_cons, lock_stage_cons, Instr.lock_stage, next_stage]
  | sema_down_loop s =>
    by_cases hl : s = .lock lk <;> simp_all [staged_cons, lock_stage_cons, Instr.lock_stage, next_stage]
  | sema_up s =>
    by_cases hl : s = .lock lk <;> simp_all [staged_cons, lock_stage_cons, Instr.lock_stage, next_stage]
  | _ => simp_all [staged_cons, lock_stage_cons, Instr.lock_stage, next_stage]

theorem staged_rule (lk : LockRef) : CodeRule (Staged lk) where
  nil := trivial
  exit := by simp [staged_cons, Instr.lock_stage]
  boot := by simp [staged_cons, lock_stage_cons, Instr.lock_stage, next_stage]
  start f := by simp [staged_cons, Instr.lock_stage, next_stage]
  call c := by cases c <;> simp [Call.instr, staged_cons, Instr.lock_stage, next_stage]
  tail _ _ h := h.2
  leaves _ _ _ _ h hs := h.staged hs
  tick rest h := by simpa [staged_cons, Instr.lock_stage] using h

/-! ## What a step does to the stages -/

/-- The stage of the running thread after an instruction. -/
def Instr.stage_after (k : Kernel) (lk : LockRef) (st : Stage) : Instr → Stage
  | .lock_acquire lk' => if lk' = lk then .asking else st
  | .sema_down_loop s => if s = .lock lk ∧ (k.sema s).value ≠ 0 then .taking else st
  | .lock_try_acquire lk' => if lk' = lk ∧ (k.sema (.lock lk')).value ≠ 0 then .taking else st
  | .set_holder lk' => if lk' = lk then .returning else st
  | .ret (.lock_acquire lk') | .ret (.lock_try_acquire lk' true) => if lk' = lk then .outside else st
  | .lock_release lk' => if lk' = lk then .releasing else st
  | .sema_up s => if s = .lock lk then .outside else st
  | _ => st

/-- The semaphores that conditions hand out are those of waiting threads. -/
def CondWaiters (k : Kernel) : Prop := ∀ c, ∀ w ∈ k.cond_waiters c, ∃ t, w = .waiter t

theorem Wf.step_cond_waiters (h : Wf k) (hs : prj3.step k l = some k') (hk : CondWaiters k) :
    CondWaiters k' := by
  intro c w hw
  rw [(h.step_syncs hs).cond_waiters c] at hw
  cases hi : k.executes l with
  | none =>
    rw [hi] at hw
    exact hk c w hw
  | some i =>
    rw [hi, Option.elim_some] at hw
    cases i with
    | cond_wait c' lk' =>
      simp only [Instr.cond_after] at hw
      split at hw
      · rcases List.mem_append.mp hw with hold | hnew
        · exact hk c w hold
        · exact ⟨_, List.mem_singleton.mp hnew⟩
      · exact hk c w hw
    | cond_signal c' lk' =>
      simp only [Instr.cond_after] at hw
      split at hw
      · exact hk c w (List.mem_of_mem_tail hw)
      · exact hk c w hw
    | _ => exact hk c w hw

theorem Replaces.staged (h : Replaces i is rest k k') (hs : Staged lk k.code) :
    Staged lk (i :: rest) ∧ lock_stage lk (i :: rest) = lock_stage lk k.code := by
  rcases h.before with hcode | ⟨hcode, rfl, c, rfl⟩
  · rw [← hcode]
    exact ⟨hs, rfl⟩
  · refine ⟨(staged_rule lk).call c, ?_⟩
    rw [call_lock_stage, hcode]
    rfl

theorem Replaces.stage (h : Replaces i is rest k k') (hk : CondWaiters k) (hs : Staged lk k.code) :
    lock_stage lk (is ++ rest) = i.stage_after k lk (lock_stage lk k.code) := by
  obtain ⟨hstaged, hstage⟩ := h.staged hs
  obtain ⟨hnext, -⟩ := staged_cons.mp hstaged
  have hexact := h.exact
  have hleaves := h.leaves
  rw [← hstage]
  clear hs hstage hstaged h
  cases i with
  | sema_init s v =>
    obtain rfl : is = [] := hexact
    simpa [lock_stage_cons, Instr.lock_stage, Instr.stage_after, next_stage] using hnext
  | sema_down_loop s =>
    simp only [Instr.Exact] at hexact
    subst hexact
    by_cases hzero : (k.sema s).value = 0
    · simp [hzero, lock_stage_cons, Instr.lock_stage, Instr.stage_after]
    · by_cases hl : s = .lock lk <;>
        simp_all [lock_stage_cons, Instr.lock_stage, Instr.stage_after, next_stage]
  | lock_try_acquire lk' =>
    simp only [Instr.Exact] at hexact
    subst hexact
    by_cases hl : lk' = lk
    · subst hl
      by_cases hzero : (k.sema (.lock lk')).value = 0 <;>
        simp_all [lock_stage_cons, Instr.lock_stage, Instr.stage_after, next_stage]
    · by_cases hzero : (k.sema (.lock lk')).value = 0 <;>
        simp_all [lock_stage_cons, Instr.lock_stage, Instr.stage_after, next_stage]
  | cond_signal c lk' =>
    simp only [Instr.Exact] at hexact
    subst hexact
    cases hhead : (k.cond_waiters c).head? with
    | none => simpa [lock_stage_cons, Instr.lock_stage, Instr.stage_after, next_stage] using hnext
    | some w =>
      obtain ⟨t, rfl⟩ := hk c w (List.mem_of_mem_head? hhead)
      simp [lock_stage_cons, Instr.lock_stage, Instr.stage_after]
  | ret f =>
    obtain rfl : is = [] := by
      rcases hleaves with hleaves | ⟨s, v, hi⟩
      · cases hleaves with
        | expands hexpands => cases hexpands; rfl
      · cases hi
    cases f with
    | lock_acquire lk' =>
      by_cases hl : lk' = lk <;> simp_all [lock_stage_cons, Instr.lock_stage, Instr.stage_after, next_stage]
    | lock_try_acquire lk' success =>
      by_cases hl : lk' = lk <;> cases success <;>
        simp_all [lock_stage_cons, Instr.lock_stage, Instr.stage_after, next_stage]
    | _ => simp [lock_stage_cons, Instr.lock_stage, Instr.stage_after]
  | sema_up s =>
    rcases hleaves with hleaves | ⟨s, v, hi⟩
    · cases hleaves with
      | expands hexpands => cases hexpands
      | sema_up level =>
        by_cases hl : s = .lock lk <;>
          simp_all [lock_stage_cons, Instr.lock_stage, Instr.stage_after, next_stage]
    · cases hi
  | set_holder lk' =>
    rcases hleaves with hleaves | ⟨s, v, hi⟩
    · cases hleaves with
      | expands hexpands =>
        cases hexpands
        by_cases hl : lk' = lk <;>
          simp_all [lock_stage_cons, Instr.lock_stage, Instr.stage_after, next_stage]
    · cases hi
  | _ =>
    rcases hleaves with hleaves | ⟨s, v, hi⟩
    · cases hleaves <;> (try (rename_i hexpands; cases hexpands)) <;>
        simp_all [lock_stage_cons, Instr.lock_stage, Instr.stage_after, next_stage]
    · cases hi

theorem Fresh.lock_stage {code : List Instr} (h : Fresh code) : lock_stage lk code = .outside := by
  rcases h with rfl | ⟨f, rfl⟩ <;> rfl

/-- Stages change only in the running thread, as its instruction has it. -/
theorem Wf.step_stage (h : Wf k) (hk : CondWaiters k) (hstaged : Staged lk k.code)
    (hs : prj3.step k l = some k') : (fun t => lock_stage lk (k'.threads t).code) =
      Function.update (fun t => lock_stage lk (k.threads t).code) k.current
        ((k.executes l).elim (lock_stage lk k.code) (Instr.stage_after k lk (lock_stage lk k.code))) := by
  refine h.step_reading (lock_stage lk) (Instr.stage_after k lk) hs (fun code hcode => hcode.lock_stage) rfl
    (fun _ => rfl) rfl fun i is rest hr => hr.stage hk hstaged

/-! ## The protocol -/

/-- The part that an instruction plays in the protocol of lock `lk`. -/
def Instr.lock_event (k : Kernel) (lk : LockRef) : Instr → Option (Event ThreadId)
  | .lock_acquire lk' => if lk' = lk then some (.ask k.current) else none
  | .sema_down_loop s => if s = .lock lk ∧ (k.sema s).value ≠ 0 then some (.take k.current) else none
  | .lock_try_acquire lk' =>
    if lk' = lk ∧ (k.sema (.lock lk')).value ≠ 0 then some (.take k.current) else none
  | .set_holder lk' => if lk' = lk then some (.set_holder k.current) else none
  | .ret (.lock_acquire lk') | .ret (.lock_try_acquire lk' true) =>
    if lk' = lk then some (.enter k.current) else none
  | .lock_release lk' => if lk' = lk then some (.leave k.current) else none
  | .sema_up s => if s = .lock lk then some (.up k.current) else none
  | _ => none

def lock_event (lk : LockRef) (k : Kernel) (l : Label) : Option (Event ThreadId) :=
  (k.executes l).bind (Instr.lock_event k lk)

/-- What has happened to a lock. `created` counts the threads that have been
created on each page, `taker` took the permit last and has not given it back,
and `owners` have returned from `lock_acquire` or from `lock_try_acquire` with
success and have not called `lock_release` since. -/
structure LockHistory where
  created : ThreadId → Nat
  taker : Option ThreadId
  owners : List (ThreadId × Nat)

def LockHistory.start : LockHistory := ⟨fun _ => 0, none, []⟩

/-- The page on which a label creates a thread. -/
def creates (k : Kernel) : Label → Option ThreadId
  | .next env =>
    match k.code.head? with
    | some (.palloc_get_page _ _) => env.page
    | _ => none
  | _ => none

def LockHistory.record (a : LockHistory) : Event ThreadId → LockHistory
  | .take t => { a with taker := some t }
  | .up _ => { a with taker := none }
  | .enter t => { a with owners := a.owners ++ [(t, a.created t)] }
  | .leave t => { a with owners := a.owners.erase (t, a.created t) }
  | _ => a

def record_lock (lk : LockRef) (k : Kernel) (l : Label) (a : LockHistory) : LockHistory :=
  let a := (lock_event lk k l).elim a a.record
  { a with created := fun t => if creates k l = some t then a.created t + 1 else a.created t }

/-- The kernel with the history of lock `lk`. -/
def with_lock_history (lk : LockRef) : System (Kernel × LockHistory) Label :=
  kernel.observe (fun _ => .start) (record_lock lk)

/-- The lock as a mutex. -/
def mutex_of (lk : LockRef) (k : Kernel) (taker : Option ThreadId) : Mutex ThreadId where
  value := (k.sema (.lock lk)).value
  holder := k.holder lk
  stage t := lock_stage lk (k.threads t).code
  taker

/-- Semaphores are initialized and tried only by functions that own them. -/
def Instr.Own : Instr → Prop
  | .sema_init s _ | .sema_try_down s => ∃ n, s = .sema n
  | _ => True

theorem own_rule : CodeRule fun code => ∀ i ∈ code, i.Own where
  nil := by simp
  exit := by simp [Instr.Own]
  boot := by simp [Instr.Own]
  start f := by simp [Instr.Own]
  call c := by cases c <;> simp [Call.instr, Instr.Own]
  tail i rest h := fun j hj => h j (.tail _ hj)
  leaves cur i is rest hleaves h := by
    have hrest : ∀ j ∈ rest, j.Own := fun j hj => h j (.tail _ hj)
    have his : ∀ j ∈ is, j.Own := by
      cases hleaves with
      | expands hexpands => cases hexpands <;> simp [Instr.Own]
      | _ => simp [Instr.Own]
    intro j hj
    exact (List.mem_append.mp hj).elim (his j) (hrest j)
  tick rest h := by simpa [Instr.Own] using h

theorem executes_own (h : ∀ i ∈ k.code, i.Own) (hi : k.executes l = some i) : i.Own := by
  cases l with
  | next env => exact h i (List.mem_of_mem_head? hi)
  | call c =>
    obtain rfl := Option.some.inj hi
    cases c <;> simp [Call.instr, Instr.Own]
  | timer => cases hi

/-- An instruction without a part in the protocol. -/
theorem idle_instr (hown : i.Own) (hevent : i.lock_event k lk = none) (st : Stage) :
    (i.sema_after k (.lock lk)).value = (k.sema (.lock lk)).value ∧ i.holder_after k lk = k.holder lk ∧
      i.stage_after k lk st = st := by
  cases i with
  | sema_init s v =>
    obtain ⟨n, rfl⟩ := hown
    simp [Instr.sema_after, Instr.holder_after, Instr.stage_after]
  | sema_try_down s =>
    obtain ⟨n, rfl⟩ := hown
    simp [Instr.sema_after, Instr.holder_after, Instr.stage_after]
  | sema_down_loop s =>
    by_cases hs : s = .lock lk
    · subst hs
      simp only [Instr.lock_event] at hevent
      have hzero : (k.sema (.lock lk)).value = 0 := by simpa using hevent
      simp [Instr.sema_after, Instr.holder_after, Instr.stage_after, hzero]
    · simp [Instr.sema_after, Instr.holder_after, Instr.stage_after, hs]
  | lock_try_acquire lk' =>
    by_cases hl : lk' = lk
    · subst hl
      simp only [Instr.lock_event] at hevent
      have hzero : (k.sema (.lock lk')).value = 0 := by simpa using hevent
      simp [Instr.sema_after, Instr.holder_after, Instr.stage_after, hzero, Semaphore.down]
    · simp [Instr.sema_after, Instr.holder_after, Instr.stage_after, hl]
  | ret f =>
    refine ⟨rfl, rfl, ?_⟩
    cases f with
    | lock_acquire lk' => simp_all [Instr.lock_event, Instr.stage_after]
    | lock_try_acquire lk' success => cases success <;> simp_all [Instr.lock_event, Instr.stage_after]
    | _ => rfl
  | sema_up s => simp_all [Instr.lock_event, Instr.sema_after, Instr.holder_after, Instr.stage_after]
  | lock_acquire lk' => simp_all [Instr.lock_event, Instr.sema_after, Instr.holder_after, Instr.stage_after]
  | set_holder lk' => simp_all [Instr.lock_event, Instr.sema_after, Instr.holder_after, Instr.stage_after]
  | lock_release lk' => simp_all [Instr.lock_event, Instr.sema_after, Instr.holder_after, Instr.stage_after]
  | _ => simp [Instr.sema_after, Instr.holder_after, Instr.stage_after]

theorem executes_stage {st : Stage} (hs : step k l = some k') (hi : k.executes l = some i)
    (hst : i.lock_stage lk = some st) : lock_stage lk k.code = st := by
  cases l with
  | next env =>
    obtain ⟨rest, hcode⟩ := List.head?_eq_some_iff.mp hi
    rw [hcode, lock_stage_cons, hst, Option.getD_some]
  | call c =>
    obtain rfl := Option.some.inj hi
    have houtside : lock_stage lk [c.instr] = .outside := call_lock_stage c
    rw [lock_stage_cons, hst, Option.getD_some] at houtside
    rw [(step_ok hs).1.1, houtside]
    rfl
  | timer => cases hi

/-- What the assertions of the lock functions check. -/
theorem lock_asserts {env : Env} (he : exec k env i = .ok k') :
    (i = .lock_acquire lk ∨ i = .lock_try_acquire lk → k.holder lk ≠ some k.current) ∧
      (i = .lock_release lk → k.holder lk = some k.current) := by
  refine ⟨?_, ?_⟩
  · rintro (rfl | rfl)
    · simp only [exec, ASSERT_bind_ok, thread_current_bind_ok] at he
      exact he.2.2.2.1
    · simp only [exec, ASSERT_bind_ok, thread_current_bind_ok] at he
      exact he.2.2.1
  · rintro rfl
    simp only [exec, ASSERT_bind_ok, thread_current_bind_ok] at he
    exact he.2.2.1

theorem mutex_of_eq {taker : Option ThreadId} {m : Mutex ThreadId}
    (hvalue : (k.sema (.lock lk)).value = m.value) (hholder : k.holder lk = m.holder)
    (hstage : (fun t => lock_stage lk (k.threads t).code) = m.stage) (htaker : taker = m.taker) :
    mutex_of lk k taker = m := by
  cases m
  simp_all [mutex_of]

/-- An instruction with a part in the protocol. -/
theorem instr_mutex {a : LockHistory} {e : Event ThreadId} (hvalid : (mutex_of lk k a.taker).Valid)
    (hasserts : (i = .lock_acquire lk ∨ i = .lock_try_acquire lk → k.holder lk ≠ some k.current) ∧
      (i = .lock_release lk → k.holder lk = some k.current))
    (hstage : ∀ st, i.lock_stage lk = some st → lock_stage lk k.code = st)
    (he : i.lock_event k lk = some e) :
    (mutex_of lk k a.taker).Step (some e)
      { value := (i.sema_after k (.lock lk)).value, holder := i.holder_after k lk,
        stage := Function.update (mutex_of lk k a.taker).stage k.current
          (i.stage_after k lk (lock_stage lk k.code)), taker := (a.record e).taker } := by
  obtain ⟨hfree, hheld⟩ := hasserts
  have hle := hvalid.value
  cases i with
  | lock_acquire lk' =>
    by_cases hl : lk' = lk
    · subst hl
      simp only [Instr.lock_event, if_true, Option.some.injEq] at he
      subst he
      have hstep := Mutex.Step.ask (m := mutex_of lk' k a.taker) k.current (hstage _ rfl) (hfree (.inl rfl))
      simpa [Mutex.move, mutex_of, Instr.sema_after, Instr.holder_after, Instr.stage_after,
        LockHistory.record] using hstep
    · simp [Instr.lock_event, hl] at he
  | lock_try_acquire lk' =>
    by_cases hl : lk' = lk ∧ (k.sema (.lock lk')).value ≠ 0
    · obtain ⟨rfl, hv⟩ := hl
      simp only [Instr.lock_event, hv, ne_eq, not_false_eq_true, and_self, if_true, Option.some.injEq] at he
      subst he
      have hstep := Mutex.Step.take (m := mutex_of lk' k a.taker) k.current (.inr (hstage _ rfl))
        (hfree (.inr rfl)) hv
      simpa [Mutex.move, mutex_of, Instr.sema_after, Instr.holder_after, Instr.stage_after,
        LockHistory.record, hv, Semaphore.down] using hstep
    · simp [Instr.lock_event, hl] at he
  | sema_down_loop s =>
    by_cases hl : s = .lock lk ∧ (k.sema s).value ≠ 0
    · obtain ⟨rfl, hv⟩ := hl
      simp only [Instr.lock_event, hv, ne_eq, not_false_eq_true, and_self, if_true, Option.some.injEq] at he
      subst he
      have hasking : (mutex_of lk k a.taker).stage k.current = .asking := hstage _ (by simp [Instr.lock_stage])
      have hstep := Mutex.Step.take k.current (.inl hasking) (hvalid.asking _ (.inl hasking)) hv
      simpa [Mutex.move, mutex_of, Instr.sema_after, Instr.holder_after, Instr.stage_after,
        LockHistory.record, hv, Semaphore.down] using hstep
    · simp [Instr.lock_event, hl] at he
  | set_holder lk' =>
    by_cases hl : lk' = lk
    · subst hl
      simp only [Instr.lock_event, if_true, Option.some.injEq] at he
      subst he
      have hstep := Mutex.Step.set_holder (m := mutex_of lk' k a.taker) k.current
        (hstage _ (by simp [Instr.lock_stage]))
      simpa [Mutex.move, mutex_of, Instr.sema_after, Instr.holder_after, Instr.stage_after,
        LockHistory.record] using hstep
    · simp [Instr.lock_event, hl] at he
  | lock_release lk' =>
    by_cases hl : lk' = lk
    · subst hl
      simp only [Instr.lock_event, if_true, Option.some.injEq] at he
      subst he
      have hstep := Mutex.Step.leave (m := mutex_of lk' k a.taker) k.current (hstage _ rfl) (hheld rfl)
      simpa [Mutex.move, mutex_of, Instr.sema_after, Instr.holder_after, Instr.stage_after,
        LockHistory.record] using hstep
    · simp [Instr.lock_event, hl] at he
  | sema_up s =>
    by_cases hl : s = .lock lk
    · subst hl
      simp only [Instr.lock_event, if_true, Option.some.injEq] at he
      subst he
      have hstep := Mutex.Step.up (m := mutex_of lk k a.taker) k.current
        (hstage _ (by simp [Instr.lock_stage]))
      have hmod : ((k.sema (.lock lk)).value + 1) % 2 ^ 32 = (k.sema (.lock lk)).value + 1 :=
        Nat.mod_eq_of_lt (by simp only [mutex_of] at hle; omega)
      simpa only [Mutex.move, mutex_of, Instr.sema_after, Instr.holder_after, Instr.stage_after, if_true,
        LockHistory.record, hmod] using hstep
    · simp [Instr.lock_event, hl] at he
  | ret f =>
    cases f with
    | lock_acquire lk' =>
      by_cases hl : lk' = lk
      · subst hl
        simp only [Instr.lock_event, if_true, Option.some.injEq] at he
        subst he
        have hstep := Mutex.Step.enter (m := mutex_of lk' k a.taker) k.current
          (hstage _ (by simp [Instr.lock_stage]))
        simpa [Mutex.move, mutex_of, Instr.sema_after, Instr.holder_after, Instr.stage_after,
          LockHistory.record] using hstep
      · simp [Instr.lock_event, hl] at he
    | lock_try_acquire lk' success =>
      by_cases hl : lk' = lk ∧ success = true
      · obtain ⟨rfl, rfl⟩ := hl
        simp only [Instr.lock_event, if_true, Option.some.injEq] at he
        subst he
        have hstep := Mutex.Step.enter (m := mutex_of lk' k a.taker) k.current
          (hstage _ (by simp [Instr.lock_stage]))
        simpa [Mutex.move, mutex_of, Instr.sema_after, Instr.holder_after, Instr.stage_after,
          LockHistory.record] using hstep
      · cases success <;> simp_all [Instr.lock_event]
    | _ => cases he
  | _ => cases he

/-- Every step of the kernel is a step of the protocol. -/
theorem Wf.step_mutex {a : LockHistory} (h : Wf k) (hk : CondWaiters k) (hstaged : Staged lk k.code)
    (hown : ∀ i ∈ k.code, i.Own) (hvalid : (mutex_of lk k a.taker).Valid) (hs : prj3.step k l = some k') :
    (mutex_of lk k a.taker).Step (lock_event lk k l) (mutex_of lk k' (record_lock lk k l a).taker) := by
  have hsync := h.step_syncs hs
  have hvalue := congrArg Semaphore.value (hsync.sema (.lock lk))
  have hholder := hsync.holder lk
  have hstage := h.step_stage hk hstaged hs
  have hle := hvalid.value
  simp only [record_lock]
  cases hi : k.executes l with
  | none =>
    rw [hi] at hvalue hholder hstage
    rw [lock_event, hi]
    have heq : mutex_of lk k' a.taker = mutex_of lk k a.taker := by
      refine mutex_of_eq hvalue hholder ?_ rfl
      rw [hstage]
      exact Function.update_eq_self _ _
    rw [Option.bind_none, Option.elim_none, heq]
    exact .none
  | some i =>
    rw [hi] at hvalue hholder hstage
    simp only [Option.elim_some] at hvalue hholder hstage
    have hevent : lock_event lk k l = i.lock_event k lk := by rw [lock_event, hi, Option.bind_some]
    rw [hevent]
    cases he : i.lock_event k lk with
    | none =>
      obtain ⟨hv, hh, hst⟩ := idle_instr (executes_own hown hi) he (lock_stage lk k.code)
      have heq : mutex_of lk k' a.taker = mutex_of lk k a.taker := by
        refine mutex_of_eq (hvalue.trans hv) (hholder.trans hh) ?_ rfl
        rw [hstage, hst]
        exact Function.update_eq_self _ _
      rw [Option.elim_none, heq]
      exact .none
    | some e =>
      obtain ⟨env, rest, hcode, hexec⟩ := step_exec hs hi
      have hmutex (taker : Option ThreadId) : mutex_of lk k' taker =
          { value := (i.sema_after k (.lock lk)).value, holder := i.holder_after k lk,
            stage := Function.update (mutex_of lk k a.taker).stage k.current
              (i.stage_after k lk (lock_stage lk k.code)), taker } :=
        mutex_of_eq hvalue hholder hstage rfl
      rw [hmutex, Option.elim_some]
      exact instr_mutex hvalid (lock_asserts (k := k.set_code rest) hexec) (fun st => executes_stage hs hi) he

/-! ## Owners -/

/-- A thread calls `lock_release` only on a lock it holds. -/
def OwnerReleases (lk : LockRef) (p : Kernel × LockHistory) (l : Label) : Prop :=
  p.1.executes l = some (.lock_release lk) → (p.1.current, p.2.created p.1.current) ∈ p.2.owners

instance (lk : LockRef) (p : Kernel × LockHistory) (l : Label) : Decidable (OwnerReleases lk p l) :=
  inferInstanceAs (Decidable (_ → _))

/-- The owner is the holder, once it has returned. -/
structure Owned (m : Mutex ThreadId) (owners : List (ThreadId × Nat)) : Prop where
  one : owners.length ≤ 1
  owner : ∀ t, (∃ n, (t, n) ∈ owners) ↔ m.holder = some t ∧ m.stage t ≠ .returning

theorem Owned.nil {m : Mutex ThreadId} {owners : List (ThreadId × Nat)} (h : Owned m owners)
    (hnone : ∀ t, m.holder = some t → m.stage t = .returning) : owners = [] := by
  cases hlist : owners with
  | nil => rfl
  | cons o rest =>
    obtain ⟨hholder, hstage⟩ := (h.owner o.1).mp ⟨o.2, by simp [hlist]⟩
    exact absurd (hnone o.1 hholder) hstage

theorem Owned.step {m m' : Mutex ThreadId} {a : LockHistory} {e : Event ThreadId} (h : Owned m a.owners)
    (hvalid : m.Valid) (hs : m.Step (some e) m')
    (hleave : ∀ t, e = .leave t → (t, a.created t) ∈ a.owners) : Owned m' (a.record e).owners := by
  have hone := h.one
  cases hs with
  | ask t hstage hholder =>
    refine ⟨hone, fun u => ?_⟩
    change (∃ n, (u, n) ∈ a.owners) ↔ _
    rw [h.owner, move_holder, move_stage]
    by_cases hu : u = t <;> simp_all
  | take t hstage hholder hvalue =>
    have hnone (u : ThreadId) : m.holder ≠ some u := fun hu => hvalid.not_claims hvalue u (.inr (.inr hu))
    have hnil := h.nil fun u hu => absurd hu (hnone u)
    refine ⟨hone, fun u => ?_⟩
    simp [LockHistory.record, hnil, hnone]
  | set_holder t hstage =>
    have hnone (u : ThreadId) : m.holder ≠ some u := fun hu => by
      obtain rfl := hvalid.claims_unique (.inr (.inr hu)) (.inl hstage)
      exact hvalid.asking u (.inr hstage) hu
    have hnil := h.nil fun u hu => absurd hu (hnone u)
    refine ⟨hone, fun u => ?_⟩
    simp only [LockHistory.record, hnil, List.not_mem_nil, exists_false, move_stage,
      Option.some.injEq, false_iff]
    rintro ⟨rfl, hstage⟩
    simp at hstage
  | enter t hstage =>
    have hholder := hvalid.returning t hstage
    have hnil := h.nil fun u hu => by
      rw [hholder, Option.some.injEq] at hu
      exact hu ▸ hstage
    refine ⟨by simp [LockHistory.record, hnil], fun u => ?_⟩
    simp only [LockHistory.record, hnil, List.nil_append, List.mem_singleton, Prod.mk.injEq, exists_eq_right,
      move_holder, hholder, Option.some.injEq, move_stage]
    constructor
    · rintro rfl
      simp
    · exact fun hu => hu.1.symm
  | leave t hstage hholder =>
    have hmem := hleave t rfl
    have hsingle : a.owners = [(t, a.created t)] := by
      obtain ⟨o, ho⟩ := List.length_eq_one_iff.mp (Nat.le_antisymm hone (List.length_pos_of_mem hmem))
      rw [ho, List.mem_singleton] at hmem
      rw [ho, hmem]
    refine ⟨by simp [LockHistory.record, hsingle], fun u => ?_⟩
    simp [LockHistory.record, hsingle]
  | up t hstage =>
    have hholder := hvalid.releasing t hstage
    have hnil := h.nil fun u hu => by simp [hholder] at hu
    refine ⟨hone, fun u => ?_⟩
    simp [LockHistory.record, hnil, hholder]

/-! ## Every run -/

/-- What holds of lock `lk` in every state. -/
structure LockInvariant (lk : LockRef) (k : Kernel) (a : LockHistory) : Prop where
  cond_waiters : CondWaiters k
  valid : (mutex_of lk k a.taker).Valid

/-- Every lock starts as `lock_init` leaves it. -/
theorem boot_lock_init (mlfqs aging : Bool) (t₀ : ThreadId) (lk : LockRef) :
    lock_init (boot mlfqs aging t₀) lk = boot mlfqs aging t₀ := by
  simp only [lock_init, Kernel.set_holder, Kernel.set_sema, boot, Kernel.mk.injEq, and_self, and_true, true_and]
  refine ⟨?_, ?_⟩
  · funext s
    split
    · rename_i hs
      rw [hs]
    · rfl
  · funext lk'
    split <;> rfl

theorem boot_mutex (mlfqs aging : Bool) (t₀ : ThreadId) (lk : LockRef) :
    (mutex_of lk (boot mlfqs aging t₀) none).Valid := by
  refine valid_init rfl rfl rfl fun t => ?_
  by_cases ht : t = t₀
  · simp [mutex_of, boot, ht, lock_stage_cons, Instr.lock_stage]
  · simp [mutex_of, boot, ht, Thread.zero]

theorem leave_event (he : lock_event lk k l = some (.leave t)) :
    k.executes l = some (.lock_release lk) ∧ t = k.current := by
  obtain ⟨i, hi, he⟩ := Option.bind_eq_some_iff.mp he
  rw [hi]
  cases i with
  | lock_release lk' =>
    by_cases hl : lk' = lk
    · simp only [Instr.lock_event, hl, if_true, Option.some.injEq, Event.leave.injEq] at he
      exact ⟨by rw [hl], he.symm⟩
    · simp [Instr.lock_event, hl] at he
  | ret f =>
    cases f with
    | lock_acquire lk' => simp [Instr.lock_event] at he
    | lock_try_acquire lk' success => cases success <;> simp [Instr.lock_event] at he
    | _ => cases he
  | _ => simp [Instr.lock_event] at he

theorem reachable_lock {a : LockHistory} (h : (with_lock_history lk).Reachable (k, a)) :
    LockInvariant lk k a := by
  refine h.observe_invariant (fun k hk => ?_) fun k a l k' hr hk hs => ?_
  · obtain ⟨mlfqs, aging, t₀, rfl⟩ := hk
    exact ⟨fun c w hw => absurd hw List.not_mem_nil, boot_mutex mlfqs aging t₀ lk⟩
  · have hw := reachable_wf hr
    have hstep := hw.step_mutex hk.cond_waiters (reachable_codes (staged_rule lk) hr k.current)
      (reachable_codes own_rule hr k.current) hk.valid hs
    exact ⟨hw.step_cond_waiters hs hk.cond_waiters, hstep.valid hk.valid⟩

/-- In runs in which threads release only locks they hold. -/
theorem reachable_owned {a : LockHistory}
    (h : ((with_lock_history lk).restrict (OwnerReleases lk)).Reachable (k, a)) :
    Owned (mutex_of lk k a.taker) a.owners := by
  refine h.restrict_invariant (I := fun p => Owned (mutex_of lk p.1 p.2.taker) p.2.owners) ?_ ?_
  · rintro ⟨k, a⟩ ⟨⟨mlfqs, aging, t₀, rfl⟩, ha⟩
    replace ha : a = .start := ha
    subst ha
    refine ⟨by simp [LockHistory.start], fun t => ?_⟩
    simp [LockHistory.start, mutex_of, boot]
  · rintro ⟨k, a⟩ l ⟨k', a'⟩ hr howned hguard ⟨hs, ha⟩
    replace ha : a' = record_lock lk k l a := ha
    subst ha
    have hreach := hr.of_observe
    obtain ⟨hcond, hvalid⟩ := reachable_lock hr
    have hstep := (reachable_wf hreach).step_mutex hcond (reachable_codes (staged_rule lk) hreach k.current)
      (reachable_codes own_rule hreach k.current) hvalid hs
    have howners : (record_lock lk k l a).owners = ((lock_event lk k l).elim a a.record).owners := rfl
    simp only [howners]
    cases he : lock_event lk k l with
    | none =>
      rw [he] at hstep
      generalize mutex_of lk k' (record_lock lk k l a).taker = m' at hstep ⊢
      cases hstep
      exact howned
    | some e =>
      rw [he] at hstep
      refine howned.step hvalid hstep fun t ht => ?_
      subst ht
      obtain ⟨hi, rfl⟩ := leave_event he
      exact hguard hi

/-- The running thread is inside `lock_acquire` or `lock_try_acquire`. -/
def InAcquire (lk : LockRef) (k : Kernel) : Prop :=
  .ret (.lock_acquire lk) ∈ k.code ∨ .ret (.lock_try_acquire lk true) ∈ k.code

/-- What a lock promises. -/
structure LockSafe (lk : LockRef) (k : Kernel) (a : LockHistory) : Prop where
  one_owner : a.owners.length ≤ 1
  value : (k.sema (.lock lk)).value = 0 ∨ (k.sema (.lock lk)).value = 1
  holder : k.holder lk = none ∨ k.holder lk = a.taker
  /-- The test compares the addresses of the threads. -/
  held : ¬ InAcquire lk k → ∀ b, lock_held_by_current_thread k lk = .ok b →
    (b = true ↔ ∃ n, (k.current, n) ∈ a.owners)

theorem returning_instr (h : i.lock_stage lk = some .returning) :
    i = .ret (.lock_acquire lk) ∨ i = .ret (.lock_try_acquire lk true) := by
  cases i with
  | ret f =>
    cases f with
    | lock_acquire lk' =>
      by_cases hl : lk' = lk <;> simp_all [Instr.lock_stage]
    | lock_try_acquire lk' success =>
      by_cases hl : lk' = lk <;> cases success <;> simp_all [Instr.lock_stage]
    | _ => cases h
  | sema_down s | sema_down_loop s | sema_up s | set_holder s =>
    simp only [Instr.lock_stage, Option.some.injEq] at h
    split at h <;> cases h
  | _ => simp [Instr.lock_stage] at h

theorem returning_code {code : List Instr} (h : lock_stage lk code = .returning) :
    .ret (.lock_acquire lk) ∈ code ∨ .ret (.lock_try_acquire lk true) ∈ code := by
  induction code with
  | nil => cases h
  | cons i rest ih =>
    rw [lock_stage_cons] at h
    cases hst : i.lock_stage lk with
    | none =>
      rw [hst] at h
      exact (ih h).imp (.tail i) (.tail i)
    | some st =>
      rw [hst] at h
      obtain rfl | rfl := returning_instr (hst.trans (congrArg some h))
      · exact .inl (.head _)
      · exact .inr (.head _)

/-- Mutual exclusion: in every run in which threads release only locks they hold. -/
theorem lock_safe {a : LockHistory}
    (h : ((with_lock_history lk).restrict (OwnerReleases lk)).Reachable (k, a)) : LockSafe lk k a := by
  have hvalid := (reachable_lock h.of_restrict).valid
  have howned := reachable_owned h
  refine ⟨howned.one, ?_, ?_, fun hnot b hb => ?_⟩
  · have hle : (k.sema (.lock lk)).value ≤ 1 := hvalid.value
    omega
  · cases hholder : k.holder lk with
    | none => exact .inl rfl
    | some t => exact .inr (hvalid.claims t (.inr (.inr hholder))).symm
  · simp only [lock_held_by_current_thread, thread_current_bind_ok, ok_eq_ok] at hb
    obtain ⟨-, -, rfl⟩ := hb
    rw [decide_eq_true_iff, howned.owner]
    exact ⟨fun hholder => ⟨hholder, fun hstage => hnot (returning_code hstage)⟩, And.left⟩

/-- `main` creates a thread on page 2 that runs at once. -/
def create_urgent : List Label :=
  .call (.thread_create PRI_MAX) :: .replicate 8 (.next ⟨some 2, 0⟩) ++ .replicate 32 (.next ⟨none, 0⟩)

/-- The running thread takes lock 0. -/
def acquire_lock : List Label := .call (.lock_acquire 0) :: .replicate 6 (.next ⟨none, 0⟩)

/-- The theorem when `main` owns lock 0. -/
theorem lock_safe_in_main : ∃ k a, a.owners = [(0, 0)] ∧ k.current = 0 ∧ LockSafe (.lock 0) k a := by
  obtain ⟨⟨k, a⟩, hrun, hk⟩ := exists_of_any
    (checked (fun p l => decide (OwnerReleases (.lock 0) p l)) (observed step (record_lock (.lock 0))))
    (boot false false 0, .start) (start_up ++ acquire_lock)
    (fun p => p.2.owners = [(0, 0)] ∧ p.1.current = 0) (by decide +kernel)
  obtain ⟨howners, hcurrent⟩ := of_decide_eq_true hk
  have hreach : ((with_lock_history (.lock 0)).restrict (OwnerReleases (.lock 0))).Reachable (k, a) := by
    rw [with_lock_history, kernel, observe_ofStep]
    exact runLabels_checked (fun _ _ h => of_decide_eq_true h) ⟨⟨false, false, 0, rfl⟩, rfl⟩ hrun
  exact ⟨k, a, howners, hcurrent, lock_safe hreach⟩

/-- A thread takes the lock and exits. The next thread on its page holds the
lock, as far as the test can tell, without having called any function. -/
theorem lock_held_by_successor : ∃ k a,
    ((with_lock_history (.lock 0)).restrict (OwnerReleases (.lock 0))).Reachable (k, a) ∧ k.code = [] ∧
      lock_held_by_current_thread k (.lock 0) = .ok true ∧
      (k.current, a.created k.current) ∉ a.owners := by
  obtain ⟨⟨k, a⟩, hrun, hk⟩ := exists_of_any
    (checked (fun p l => decide (OwnerReleases (.lock 0) p l)) (observed step (record_lock (.lock 0))))
    (boot false false 0, .start)
    (start_up ++ create_urgent ++ acquire_lock ++ .call .thread_exit :: .replicate 3 (.next ⟨none, 0⟩) ++
      create_urgent)
    (fun p => p.1.code = [] ∧ lock_held_by_current_thread p.1 (.lock 0) = .ok true ∧
      (p.1.current, p.2.created p.1.current) ∉ p.2.owners) (by decide +kernel)
  have hreach : ((with_lock_history (.lock 0)).restrict (OwnerReleases (.lock 0))).Reachable (k, a) := by
    rw [with_lock_history, kernel, observe_ofStep]
    exact runLabels_checked (fun _ _ h => of_decide_eq_true h) ⟨⟨false, false, 0, rfl⟩, rfl⟩ hrun
  exact ⟨k, a, hreach, of_decide_eq_true hk⟩

end pintos.prj3
