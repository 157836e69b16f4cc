import Pintos.Prj3.Levels

/-!
# Semaphores, locks and conditions under execution (`threads/synch.c`)

For each instruction the semaphores, lock holders and condition waiters that it
leaves, as functions of those it finds.
-/

open pintos.kernel transition

namespace pintos.prj3

variable {k k' : Kernel} {env : Env} {i : Instr} {is rest : List Instr} {t : ThreadId} {l : Label}

/-- A successful down. A semaphore of value 0 stays as it is. -/
def Semaphore.down (v : Semaphore) : Semaphore := { v with value := v.value - 1 }

/-- The semaphore `s` after the instruction. -/
def Instr.sema_after (k : Kernel) (s : SemaRef) : Instr → Semaphore
  | .sema_init s' v => if s' = s then { value := v % 2 ^ 32, waiters := [] } else k.sema s
  | .cond_wait _ _ => if .waiter k.current = s then { value := 0, waiters := [] } else k.sema s
  | .sema_up s' =>
    if s' = s then
      { value := ((k.sema s).value + 1) % 2 ^ 32, waiters := (k.sema s).waiters.tail }
    else k.sema s
  | .sema_down_loop s' =>
    if s' = s then
      if (k.sema s).value = 0 then
        { k.sema s with waiters := list_insert_ordered (priority_comp k) k.current (k.sema s).waiters }
      else (k.sema s).down
    else k.sema s
  | .sema_try_down s' => if s' = s then (k.sema s).down else k.sema s
  | .lock_try_acquire lk => if .lock lk = s then (k.sema s).down else k.sema s
  | _ => k.sema s

/-- The holder of lock `lk` after the instruction. -/
def Instr.holder_after (k : Kernel) (lk : LockRef) : Instr → Option ThreadId
  | .set_holder lk' => if lk' = lk then some k.current else k.holder lk
  | .lock_release lk' => if lk' = lk then none else k.holder lk
  | _ => k.holder lk

/-- The waiters of condition `c` after the instruction. -/
def Instr.cond_after (k : Kernel) (c : CondRef) : Instr → List SemaRef
  | .cond_wait c' _ => if c' = c then k.cond_waiters c ++ [.waiter k.current] else k.cond_waiters c
  | .cond_signal c' _ => if c' = c then (k.cond_waiters c).tail else k.cond_waiters c
  | _ => k.cond_waiters c

/-- The instruction did to semaphores, locks and conditions what it does. -/
structure Syncs (i : Instr) (k k' : Kernel) : Prop where
  sema : ∀ s, k'.sema s = i.sema_after k s
  holder : ∀ lk, k'.holder lk = i.holder_after k lk
  cond_waiters : ∀ c, k'.cond_waiters c = i.cond_after k c

theorem Syncs.frame (hsema : k'.sema = k.sema) (hholder : k'.holder = k.holder)
    (hcond : k'.cond_waiters = k.cond_waiters) (hs : ∀ s, i.sema_after k s = k.sema s)
    (hl : ∀ lk, i.holder_after k lk = k.holder lk) (hc : ∀ c, i.cond_after k c = k.cond_waiters c) :
    Syncs i k k' := by
  refine ⟨fun s => ?_, fun lk => ?_, fun c => ?_⟩
  · rw [hsema, hs]
  · rw [hholder, hl]
  · rw [hcond, hc]

theorem Semaphore.down_zero {v : Semaphore} (h : v.value = 0) : v.down = v := by
  cases v
  simp_all [Semaphore.down]

theorem set_down_sema (k : Kernel) (s s' : SemaRef) :
    (k.set_sema s (k.sema s).down).sema s' = if s = s' then (k.sema s').down else k.sema s' := by
  by_cases hs : s' = s
  · simp [hs]
  · simp [hs, Ne.symm hs]

/-- `sema_try_down` on a semaphore with a permit, and without. -/
theorem sema_try_down_pos {s : SemaRef} (h : (k.sema s).value ≠ 0) :
    sema_try_down k s = (k.set_sema s (k.sema s).down, true) :=
  if_pos (Nat.pos_of_ne_zero h)

theorem sema_try_down_zero {s : SemaRef} (h : (k.sema s).value = 0) : sema_try_down k s = (k, false) :=
  if_neg (by omega)

theorem exec_syncs (he : exec k env i = .ok k') : Syncs i k k' := by
  cases i with
  | schedule =>
    obtain ⟨next, -, -, sw⟩ := schedule_switches he
    exact .frame sw.sema sw.holder sw.cond_waiters (fun _ => rfl) (fun _ => rfl) fun _ => rfl
  | thread_exit =>
    simp only [exec, thread_exit, ASSERT_bind_ok, thread_current_bind_ok, ok_eq_ok] at he
    obtain ⟨-, -, -, rfl⟩ := he
    exact .frame rfl rfl rfl (fun _ => rfl) (fun _ => rfl) fun _ => rfl
  | sema_up s =>
    obtain ⟨k₁, hwake, he⟩ := bind_eq_ok_iff.mp he
    obtain rfl := ok_eq_ok.mp he
    rcases sema_wake_ok.mp hwake with ⟨hws, rfl⟩ | ⟨t, ws, hws, -, -, rfl⟩
    · refine ⟨fun s' => ?_, fun _ => rfl, fun _ => rfl⟩
      by_cases hs : s' = s
      · subst hs
        simp_all [Instr.sema_after]
      · simp [Instr.sema_after, hs, Ne.symm hs]
    · refine ⟨fun s' => ?_, fun _ => rfl, fun _ => rfl⟩
      by_cases hs : s' = s
      · subst hs
        simp_all [Instr.sema_after, make_ready, ready_insert]
      · simp [Instr.sema_after, hs, Ne.symm hs, make_ready, ready_insert]
  | sema_down_loop s =>
    by_cases hzero : (k.sema s).value = 0
    · obtain ⟨-, -, -, -, rfl⟩ := (sema_down_loop_ok hzero).mp he
      refine ⟨fun s' => ?_, fun _ => rfl, fun _ => rfl⟩
      by_cases hs : s' = s
      · subst hs
        simp [Instr.sema_after, hzero, block, enqueue_waiter]
      · simp [Instr.sema_after, hs, Ne.symm hs, block, enqueue_waiter]
    · simp only [exec, prj3.sema_down_loop, if_neg hzero, ok_eq_ok] at he
      subst he
      refine ⟨fun s' => ?_, fun _ => rfl, fun _ => rfl⟩
      by_cases hs : s' = s
      · subst hs
        simp [Instr.sema_after, hzero, Semaphore.down]
      · simp [Instr.sema_after, hs, Ne.symm hs]
  | sema_init s v =>
    obtain rfl := ok_eq_ok.mp he
    refine ⟨fun s' => ?_, fun _ => rfl, fun _ => rfl⟩
    by_cases hs : s' = s
    · simp [Instr.sema_after, hs]
    · simp [Instr.sema_after, hs, Ne.symm hs]
  | sema_try_down s =>
    simp only [exec, ok_eq_ok] at he
    by_cases hzero : (k.sema s).value = 0
    · rw [sema_try_down_zero hzero] at he
      subst he
      refine ⟨fun s' => ?_, fun _ => rfl, fun _ => rfl⟩
      by_cases hs : s = s'
      · subst hs
        simp [Instr.sema_after, Semaphore.down_zero hzero]
      · simp [Instr.sema_after, hs]
    · rw [sema_try_down_pos hzero] at he
      subst he
      exact ⟨fun s' => set_down_sema k s s', fun _ => rfl, fun _ => rfl⟩
  | lock_try_acquire lk =>
    simp only [exec, ASSERT_bind_ok, thread_current_bind_ok] at he
    obtain ⟨-, -, -, he⟩ := he
    by_cases hzero : (k.sema (.lock lk)).value = 0
    · rw [sema_try_down_zero hzero] at he
      obtain rfl := ok_eq_ok.mp he
      refine ⟨fun s' => ?_, fun _ => rfl, fun _ => rfl⟩
      by_cases hs : .lock lk = s'
      · subst hs
        simp [Instr.sema_after, Semaphore.down_zero hzero]
      · simp [Instr.sema_after, hs]
    · rw [sema_try_down_pos hzero] at he
      obtain rfl := ok_eq_ok.mp he
      exact ⟨fun s' => set_down_sema k (.lock lk) s', fun _ => rfl, fun _ => rfl⟩
  | set_holder lk =>
    simp only [exec, thread_current_bind_ok, ok_eq_ok] at he
    obtain ⟨-, -, rfl⟩ := he
    refine ⟨fun _ => rfl, fun lk' => ?_, fun _ => rfl⟩
    by_cases hl : lk' = lk
    · simp [Instr.holder_after, hl]
    · simp [Instr.holder_after, hl, Ne.symm hl]
  | lock_release lk =>
    simp only [exec, ASSERT_bind_ok, thread_current_bind_ok, ok_eq_ok] at he
    obtain ⟨-, -, -, rfl⟩ := he
    refine ⟨fun _ => rfl, fun lk' => ?_, fun _ => rfl⟩
    by_cases hl : lk' = lk
    · simp [Instr.holder_after, hl]
    · simp [Instr.holder_after, hl, Ne.symm hl]
  | cond_wait c lk =>
    simp only [exec, ASSERT_bind_ok, thread_current_bind_ok, ok_eq_ok] at he
    obtain ⟨-, -, -, -, rfl⟩ := he
    refine ⟨fun s => ?_, fun _ => rfl, fun c' => ?_⟩
    · by_cases hs : s = .waiter k.current
      · simp [Instr.sema_after, hs]
      · simp [Instr.sema_after, hs, Ne.symm hs]
    · by_cases hc : c' = c
      · simp [Instr.cond_after, hc]
      · simp [Instr.cond_after, hc, Ne.symm hc]
  | cond_signal c lk =>
    simp only [exec, ASSERT_bind_ok, thread_current_bind_ok] at he
    obtain ⟨-, -, -, -, he⟩ := he
    refine ⟨?_, ?_, fun c' => ?_⟩
    · split at he <;> obtain rfl := ok_eq_ok.mp he <;> exact fun _ => rfl
    · split at he <;> obtain rfl := ok_eq_ok.mp he <;> exact fun _ => rfl
    · by_cases hc : c' = c
      · subst hc
        split at he <;> obtain rfl := ok_eq_ok.mp he <;> simp_all [Instr.cond_after]
      · split at he <;> obtain rfl := ok_eq_ok.mp he <;> simp [Instr.cond_after, hc, Ne.symm hc]
  | thread_yield =>
    obtain ⟨k₁, hy, he⟩ := bind_eq_ok_iff.mp he
    obtain ⟨-, -, -, rfl⟩ := thread_yield_ok.mp hy
    obtain rfl := ok_eq_ok.mp he
    split <;> exact .frame rfl rfl rfl (fun _ => rfl) (fun _ => rfl) fun _ => rfl
  | thread_block =>
    obtain ⟨k₁, hb, he⟩ := bind_eq_ok_iff.mp he
    obtain ⟨-, -, -, -, rfl⟩ := thread_block_ok.mp hb
    obtain rfl := ok_eq_ok.mp he
    exact .frame rfl rfl rfl (fun _ => rfl) (fun _ => rfl) fun _ => rfl
  | thread_unblock t =>
    obtain ⟨-, -, rfl⟩ := thread_unblock_ok.mp he
    exact .frame rfl rfl rfl (fun _ => rfl) (fun _ => rfl) fun _ => rfl
  | palloc_get_page p f =>
    obtain rfl := ok_eq_ok.mp he
    unfold prj3.palloc_get_page
    split <;> exact .frame rfl rfl rfl (fun _ => rfl) (fun _ => rfl) fun _ => rfl
  | init_thread t p f =>
    obtain ⟨-, rfl⟩ := init_thread_ok.mp he
    exact .frame rfl rfl rfl (fun _ => rfl) (fun _ => rfl) fun _ => rfl
  | alloc_frames t f =>
    obtain ⟨-, rfl⟩ := alloc_frames_ok.mp he
    exact .frame rfl rfl rfl (fun _ => rfl) (fun _ => rfl) fun _ => rfl
  | thread_sleep n =>
    obtain ⟨-, -, -, -, rfl⟩ := thread_sleep_ok.mp he
    exact .frame rfl rfl rfl (fun _ => rfl) (fun _ => rfl) fun _ => rfl
  | kernel_thread f =>
    cases f <;> obtain rfl := ok_eq_ok.mp he <;>
      exact .frame rfl rfl rfl (fun _ => rfl) (fun _ => rfl) fun _ => rfl
  | inherit t =>
    simp only [exec] at he
    split at he <;> obtain rfl := ok_eq_ok.mp he <;>
      exact .frame rfl rfl rfl (fun _ => rfl) (fun _ => rfl) fun _ => rfl
  | preempt_test p =>
    simp only [exec] at he
    split at he <;> obtain rfl := ok_eq_ok.mp he <;>
      exact .frame rfl rfl rfl (fun _ => rfl) (fun _ => rfl) fun _ => rfl
  | compare_front p e =>
    simp only [exec] at he
    split at he <;> obtain rfl := ok_eq_ok.mp he <;>
      exact .frame rfl rfl rfl (fun _ => rfl) (fun _ => rfl) fun _ => rfl
  | cond_broadcast c lk =>
    simp only [exec] at he
    split at he <;> obtain rfl := ok_eq_ok.mp he <;>
      exact .frame rfl rfl rfl (fun _ => rfl) (fun _ => rfl) fun _ => rfl
  | _ =>
    simp only [exec, ASSERT_bind_ok, thread_current_bind_ok, ok_eq_ok] at he
    first
      | subst he
      | obtain ⟨-, rfl⟩ := he
      | obtain ⟨-, -, rfl⟩ := he
      | obtain ⟨-, -, -, rfl⟩ := he
      | obtain ⟨-, -, -, -, rfl⟩ := he
    exact .frame rfl rfl rfl (fun _ => rfl) (fun _ => rfl) fun _ => rfl

/-! ## The code left behind -/

/-- The instructions that are left, where it depends on more than the instruction. -/
def Instr.Exact (k : Kernel) (is : List Instr) : Instr → Prop
  | .sema_init _ _ => is = []
  | .sema_down_loop s => is = if (k.sema s).value = 0 then [.schedule, .sema_down_loop s] else []
  | .lock_try_acquire lk =>
    is = if (k.sema (.lock lk)).value = 0 then [.ret (.lock_try_acquire lk false)]
      else [.set_holder lk, .ret (.lock_try_acquire lk true)]
  | .cond_signal c lk =>
    is = ((k.cond_waiters c).head?.toList.map fun w => .sema_up w) ++ [.ret (.cond_signal c lk)]
  | .cond_broadcast c lk =>
    is = if k.cond_waiters c = [] then [.ret (.cond_broadcast c lk)]
      else [.cond_signal c lk, .cond_broadcast c lk]
  | _ => True

theorem exec_exact (he : exec k env i = .ok k') (hcode : k'.code = is ++ k.code) : i.Exact k is := by
  have hpush {k₁ : Kernel} {is₁ : List Instr} (hk : k' = k₁.push is₁) (hk₁ : k₁.code = k.code) : is = is₁ := by
    rw [hk, Kernel.code_set_code, hk₁] at hcode
    exact (List.append_cancel_right hcode).symm
  cases i with
  | sema_init s v =>
    obtain rfl := ok_eq_ok.mp he
    exact List.append_cancel_right (hcode.symm.trans (List.nil_append _).symm)
  | sema_down_loop s =>
    by_cases hzero : (k.sema s).value = 0
    · obtain ⟨-, -, -, -, rfl⟩ := (sema_down_loop_ok hzero).mp he
      rw [Instr.Exact, if_pos hzero]
      exact hpush rfl (by simp [Kernel.code, enqueue_waiter])
    · simp only [exec, prj3.sema_down_loop, if_neg hzero, ok_eq_ok] at he
      subst he
      rw [Instr.Exact, if_neg hzero]
      exact List.append_cancel_right (hcode.symm.trans (List.nil_append _).symm)
  | lock_try_acquire lk =>
    simp only [exec, ASSERT_bind_ok, thread_current_bind_ok] at he
    obtain ⟨-, -, -, he⟩ := he
    by_cases hzero : (k.sema (.lock lk)).value = 0
    · rw [sema_try_down_zero hzero] at he
      rw [Instr.Exact, if_pos hzero]
      exact hpush (ok_eq_ok.mp he) rfl
    · rw [sema_try_down_pos hzero] at he
      rw [Instr.Exact, if_neg hzero]
      exact hpush (ok_eq_ok.mp he) rfl
  | cond_signal c lk =>
    simp only [exec, ASSERT_bind_ok, thread_current_bind_ok] at he
    obtain ⟨-, -, -, -, he⟩ := he
    split at he
    · rename_i hnil
      rw [Instr.Exact, hnil]
      exact hpush (ok_eq_ok.mp he) rfl
    · rename_i w ws hcons
      rw [Instr.Exact, hcons]
      exact hpush (ok_eq_ok.mp he) rfl
  | cond_broadcast c lk =>
    simp only [exec] at he
    split at he
    · rename_i hnil
      rw [Instr.Exact, if_pos hnil]
      exact hpush (ok_eq_ok.mp he) rfl
    · rename_i w ws hcons
      rw [Instr.Exact, if_neg (by simp [hcons])]
      exact hpush (ok_eq_ok.mp he) rfl
  | _ => trivial

/-! ## Steps -/

/-- A step that executes an instruction, which is the next one of the running
thread or called by its own function. -/
theorem step_exec (hs : step k l = some k') (hi : k.executes l = some i) :
    ∃ env rest, (k.code = i :: rest ∨ k.code = [] ∧ rest = []) ∧ exec (k.set_code rest) env i = .ok k' := by
  obtain ⟨henabled, he⟩ := step_ok hs
  cases l with
  | next env =>
    obtain ⟨j, rest, hcode⟩ := List.exists_cons_of_ne_nil henabled.1
    rw [Kernel.executes, hcode, List.head?_cons, Option.some.injEq] at hi
    subst hi
    simp only [perform, hcode] at he
    rw [Kernel.pop, hcode, List.tail_cons] at he
    exact ⟨env, rest, .inl hcode, he⟩
  | call c =>
    obtain ⟨hcode, -⟩ := henabled
    obtain rfl := Option.some.inj hi
    refine ⟨⟨none, 0⟩, [], .inr ⟨hcode, rfl⟩, ?_⟩
    rw [← hcode, Kernel.set_code_self]
    exact he
  | timer => cases hi

theorem executes_next (hs : step k l = some k') (hi : k.executes l = some i)
    (hcall : ∀ c : Call, c.instr ≠ i) : ∃ rest, k.code = i :: rest := by
  cases l with
  | next env => exact List.head?_eq_some_iff.mp hi
  | call c => exact absurd (Option.some.inj hi) (hcall c)
  | timer => cases hi

theorem not_switching (hs : step k l = some k') (hi : k.executes l = some i) (hne : i ≠ .schedule) :
    k.code.head? ≠ some .schedule := by
  obtain ⟨env, rest, hcode | ⟨hcode, -⟩, -⟩ := step_exec hs hi
  · simpa [hcode] using hne
  · simp [hcode]

/-- What a step leaves of the code of the running thread. -/
structure Replaces (i : Instr) (is rest : List Instr) (k k' : Kernel) : Prop where
  before : k.code = i :: rest ∨ k.code = [] ∧ rest = [] ∧ ∃ c : Call, c.instr = i
  current : k'.current = k.current
  after : (k'.threads k.current).code = is ++ rest
  leaves : Leaves k.current i is ∨ ∃ s v, i = .sema_init s v
  exact : i.Exact k is

theorem exact_set_code (code : List Instr) (h : i.Exact (k.set_code code) is) : i.Exact k is := by
  cases i <;> exact h

/-- A step that neither switches threads nor ends one. -/
theorem Wf.step_replaces (h : Wf k) (hs : prj3.step k l = some k') (hi : k.executes l = some i)
    (hschedule : i ≠ .schedule) (hexit : i ≠ .thread_exit) : ∃ is rest, Replaces i is rest k k' := by
  obtain ⟨henabled, he⟩ := step_ok hs
  cases l with
  | next env =>
    obtain ⟨j, rest, hcode⟩ := List.exists_cons_of_ne_nil henabled.1
    rw [Kernel.executes, hcode, List.head?_cons, Option.some.injEq] at hi
    subst hi
    simp only [perform, hcode] at he
    obtain ⟨hcurrent, is, hleaves, hafter⟩ :=
      (h.exec_effect hcode henabled.2 he).own.resolve_left fun hleft => hschedule hleft.2
    refine ⟨is, rest, .inl hcode, hcurrent, ?_, .inl hleaves, exact_set_code _ (exec_exact he ?_)⟩
    · rwa [Kernel.code, hcurrent] at hafter
    · rw [hafter, Kernel.code_set_code, hcode, List.tail_cons]
  | call c =>
    obtain ⟨hcode, hallowed⟩ := henabled
    obtain rfl := Option.some.inj hi
    by_cases hsimple : c.Simple
    · obtain ⟨hw, hc⟩ := h.simple_call hsimple hcode
      obtain ⟨hcurrent, is, hleaves, hafter⟩ := (hw.exec_effect hc (no_page_allowed _)
        (by rwa [push_pop])).own.resolve_left fun hleft => hschedule hleft.2
      refine ⟨is, [], .inr ⟨hcode, rfl, c, rfl⟩, hcurrent, ?_, .inl hleaves,
        exec_exact he (by rw [hafter, hcode])⟩
      rwa [Kernel.code, hcurrent] at hafter
    cases c with
    | thread_exit => exact absurd rfl hexit
    | thread_unblock u =>
      obtain ⟨-, -, rfl⟩ := thread_unblock_ok.mp he
      refine ⟨[], [], .inr ⟨hcode, rfl, _, rfl⟩, rfl, ?_, .inl (.thread_unblock u), trivial⟩
      rw [make_ready_threads]
      split
      · rename_i hcur
        exact hcur ▸ hcode
      · exact hcode
    | sema_init n v =>
      obtain rfl := ok_eq_ok.mp he
      exact ⟨[], [], .inr ⟨hcode, rfl, _, rfl⟩, rfl, hcode, .inr ⟨_, _, rfl⟩, rfl⟩
    | _ => exact absurd trivial hsimple
  | timer => cases hi

/-- What a step does to the code of the running thread, by the instruction that
it executes. -/
inductive OwnCode (k k' : Kernel) : Option Instr → Prop where
  | tick (hcode : (k'.threads k.current).code =
      .thread_yield :: .intr_set_level .INTR_ON :: .ret .timer_interrupt :: k.code) : OwnCode k k' none
  | switch (rest : List Instr) (hbefore : k.code = .schedule :: rest)
      (hcode : (k'.threads k.current).code = rest) : OwnCode k k' (some .schedule)
  | exit (hbefore : k.code = []) (hcode : (k'.threads k.current).code = [.schedule]) :
      OwnCode k k' (some .thread_exit)
  | replaces (i : Instr) (is rest : List Instr) (h : Replaces i is rest k k') : OwnCode k k' (some i)

theorem Wf.step_own (h : Wf k) (hs : prj3.step k l = some k') : OwnCode k k' (k.executes l) := by
  obtain ⟨henabled, he⟩ := step_ok hs
  cases hi : k.executes l with
  | none =>
    cases l with
    | next env => exact absurd (List.head?_eq_none_iff.mp hi) henabled.1
    | call c => cases hi
    | timer =>
      obtain ⟨hcurrent, -, -, hcode, -⟩ := h.tick_levels henabled he
      rw [Kernel.code, hcurrent] at hcode
      exact .tick hcode
  | some i =>
    by_cases hschedule : i = .schedule
    · subst hschedule
      cases l with
      | timer => cases hi
      | call c => cases c <;> cases hi
      | next env =>
        obtain ⟨rest, hcode⟩ := List.head?_eq_some_iff.mp hi
        simp only [perform, hcode] at he
        refine .switch rest hcode ?_
        obtain ⟨next, -, -, sw⟩ := schedule_switches he
        by_cases hfreed : Freed k.pop next
        · have hdying : place k k.current = .dying := by
            have hd : (k.pop.threads k.current).status = .THREAD_DYING := hfreed.2.1
            rw [set_code_status] at hd
            exact place_dying.mpr ⟨h.settled.current, hd⟩
          have hnil : rest = [] := by
            rcases h.settled.dying _ hdying with ⟨-, hc⟩ | ⟨-, hc⟩
            · rw [Kernel.code, hc] at hcode
              cases hcode
            · rw [hcode] at hc
              exact (List.cons.inj hc).2
          have hzero : k'.threads k.current = .zero := (sw.freed hfreed).2
          rw [hzero, hnil]
          rfl
        · have hpop : (k.pop.threads k.current).code = rest := by simp [hcode]
          by_cases hnext : k.current = next
          · rw [hnext] at hpop ⊢
            rw [sw.started]
            exact hpop
          · rw [sw.others _ hnext fun hc => hfreed hc.2, hpop]
    by_cases hexit : i = .thread_exit
    · subst hexit
      cases l with
      | timer => cases hi
      | next env =>
        obtain ⟨rest, hcode⟩ := List.head?_eq_some_iff.mp hi
        have hcur : (k.threads k.current).code = .thread_exit :: rest := hcode
        exact absurd (h.codes.pending k.current .thread_exit (by simp [hcur])) id
      | call c =>
        cases c with
        | thread_exit =>
          replace he : prj3.thread_exit k = .ok k' := he
          simp only [prj3.thread_exit, ASSERT_bind_ok, thread_current_bind_ok, ok_eq_ok] at he
          obtain ⟨-, -, -, rfl⟩ := he
          exact .exit henabled.1 (by simp)
        | _ => cases hi
    obtain ⟨is, rest, hr⟩ := h.step_replaces hs hi hschedule hexit
    exact .replaces i is rest hr

/-- The code of a thread that has not run. -/
def Fresh (code : List Instr) : Prop := code = [] ∨ ∃ f, code = [.kernel_thread f]

/-- A step leaves the code of the other threads alone, but for new ones. -/
theorem Wf.step_others (h : Wf k) (hs : prj3.step k l = some k') (ht : t ≠ k.current) :
    (k'.threads t).code = (k.threads t).code ∨ Fresh (k.threads t).code ∧ Fresh (k'.threads t).code := by
  by_cases hl : l = .timer
  · subst hl
    obtain ⟨henabled, he⟩ := step_ok hs
    obtain ⟨-, -, -, -, hothers⟩ := h.tick_levels henabled he
    exact .inl (hothers t ht)
  · rcases (h.step_effect hl hs).code t ht with hc | ⟨hunused | hnascent, hc⟩
    · exact .inl hc
    · exact .inr ⟨.inl (h.settled.unused t (place_eq_unused.mp hunused)), hc⟩
    · exact .inr ⟨h.creators.stack t hnascent, hc⟩

/-- A quantity read off the code of each thread changes in the running thread
only, as the instruction that it executes has it. -/
theorem Wf.step_reading {A : Type} (F : List Instr → A) (after : A → Instr → A) (h : Wf k)
    (hs : prj3.step k l = some k') (hfresh : ∀ code, Fresh code → F code = F [])
    (htick : F (.thread_yield :: .intr_set_level .INTR_ON :: .ret .timer_interrupt :: k.code) = F k.code)
    (hswitch : ∀ rest, F rest = after (F (.schedule :: rest)) .schedule)
    (hexit : F [.schedule] = after (F []) .thread_exit)
    (hreplaces : ∀ i is rest, Replaces i is rest k k' → F (is ++ rest) = after (F k.code) i) :
    (fun t => F (k'.threads t).code) = Function.update (fun t => F (k.threads t).code) k.current
      ((k.executes l).elim (F k.code) (after (F k.code))) := by
  funext t
  rw [Function.update_apply]
  split
  · rename_i ht
    subst ht
    have hown := h.step_own hs
    generalize k.executes l = e at hown ⊢
    cases hown with
    | tick hcode => rw [hcode, htick, Option.elim_none]
    | switch rest hbefore hcode => rw [hcode, hbefore, Option.elim_some, ← hswitch]
    | exit hbefore hcode => rw [hcode, hbefore, Option.elim_some, ← hexit]
    | replaces i is rest hr => rw [hr.after, hreplaces i is rest hr, Option.elim_some]
  · rename_i ht
    rcases h.step_others hs ht with hc | ⟨hold, hnew⟩
    · rw [hc]
    · rw [hfresh _ hold, hfresh _ hnew]

/-- What a step does to semaphores, locks and conditions. -/
structure StepSyncs (l : Label) (k k' : Kernel) : Prop where
  sema : ∀ s, k'.sema s = (k.executes l).elim (k.sema s) (Instr.sema_after k s)
  holder : ∀ lk, k'.holder lk = (k.executes l).elim (k.holder lk) (Instr.holder_after k lk)
  cond_waiters : ∀ c, k'.cond_waiters c = (k.executes l).elim (k.cond_waiters c) (Instr.cond_after k c)

theorem sema_after_set_code (k : Kernel) (code : List Instr) (s : SemaRef) (i : Instr) :
    i.sema_after (k.set_code code) s = i.sema_after k s := by
  have hcomp : priority_comp (k.set_code code) = priority_comp k :=
    priority_comp_congr fun t => (set_code_keys k code t).priority
  cases i <;> simp only [Instr.sema_after, Kernel.set_code_sema, Kernel.set_code_current, hcomp]

theorem Wf.step_syncs (h : Wf k) (hs : prj3.step k l = some k') : StepSyncs l k k' := by
  obtain ⟨henabled, he⟩ := step_ok hs
  cases l with
  | next env =>
    obtain ⟨i, rest, hcode⟩ := List.exists_cons_of_ne_nil henabled.1
    simp only [perform, hcode] at he
    have hsync := exec_syncs he
    have hi : k.executes (.next env) = some i := by rw [Kernel.executes, hcode, List.head?_cons]
    refine ⟨fun s => ?_, fun lk => ?_, fun c => ?_⟩
    · rw [hi, hsync.sema, sema_after_set_code]
      rfl
    · rw [hi, hsync.holder]
      cases i <;> rfl
    · rw [hi, hsync.cond_waiters]
      cases i <;> rfl
  | call c =>
    have hsync := exec_syncs he
    exact ⟨hsync.sema, hsync.holder, hsync.cond_waiters⟩
  | timer =>
    obtain ⟨k₁, -, hw, -, -, rfl⟩ := h.tick henabled he
    have hcalm := accounted_calm k₁
    refine ⟨fun s => ?_, fun lk => ?_, fun c => ?_⟩
    · change (accounted k₁).sema s = k.sema s
      rw [hcalm.sema, hw.sema]
    · change (accounted k₁).holder lk = k.holder lk
      rw [hcalm.holder, hw.holder]
    · change (accounted k₁).cond_waiters c = k.cond_waiters c
      rw [hcalm.cond_waiters, hw.cond_waiters]

end pintos.prj3
