import Pintos.Prj3.Invariant

/-!
# Thread states and queues

What being well formed means in the terms of the source: where the `elem` of a
thread is, for each status, and when the page of a thread is freed.
-/

open twos_complement pintos.kernel transition placement

namespace pintos.prj3

variable {k k' : Kernel} {t : ThreadId}

/-- Some thread has still to finish `thread_create` for `t`. -/
def Created (k : Kernel) (t : ThreadId) : Prop := ∃ c, .page t ∈ tokens (k.threads c).code

/-- The thread called `thread_block` from its own code, as `wait` of `intq.c` does. -/
def BlockedDirectly (k : Kernel) (t : ThreadId) : Prop :=
  (resume_point (k.threads t).code).head? = some (.ret .thread_block)

/-- The status of each thread agrees with the queue that it is in. -/
structure StatesAgree (k : Kernel) : Prop where
  /-- `elem` is in one list at most, once. -/
  nodup : ∀ q, (k.queue q).Nodup
  one_list : ∀ t q q', t ∈ k.queue q → t ∈ k.queue q' → q = q'
  thread : ∀ t q, t ∈ k.queue q → is_thread k t
  ready : ∀ t, is_thread k t → k.idle_thread ≠ some t →
    ((k.threads t).status = .THREAD_READY ↔ t ∈ k.ready_list)
  /-- Between the operations there is one running thread; inside them, none
  while a call of `schedule` is pending, with interrupts off. -/
  running : k.code.head? ≠ some .schedule →
    ∀ t, is_thread k t ∧ (k.threads t).status = .THREAD_RUNNING ↔ t = k.current
  switching : k.code.head? = some .schedule → k.intr_level = .INTR_OFF ∧
    ∀ t, is_thread k t → (k.threads t).status ≠ .THREAD_RUNNING
  running_free : ∀ t, is_thread k t → (k.threads t).status = .THREAD_RUNNING → ∀ q, t ∉ k.queue q
  blocked : ∀ t, is_thread k t → (k.threads t).status = .THREAD_BLOCKED →
    (∃ q, q ≠ .ready ∧ t ∈ k.queue q) ∨
      (Created k t ∨ BlockedDirectly k t ∨ k.idle_thread = some t) ∧ ∀ q, t ∉ k.queue q
  dying : ∀ t, is_thread k t → (k.threads t).status = .THREAD_DYING →
    (∀ q, t ∉ k.queue q) ∧
      (t = k.initial_thread ∨ t = k.current ∧ k.code.head? = some .schedule)

theorem Wf.mem_queue (h : Wf k) {q : QueueName} : t ∈ k.queue q ↔ (place k t).queue = some q :=
  h.settled.queues.mem q t

theorem Wf.states_agree (h : Wf k) : StatesAgree k where
  nodup := h.settled.queues.nodup
  one_list t q q' := h.settled.queues.unique
  thread t q ht := by
    by_contra hnot
    rw [h.mem_queue, place_eq_unused.mpr hnot] at ht
    cases ht
  ready t hthread hidle := by
    have hq : t ∈ k.ready_list ↔ place k t = .ready := by
      have := h.mem_queue (t := t) (q := .ready)
      rw [Kernel.queue] at this
      rw [this]
      cases place k t <;> simp [Place.queue]
    rw [hq, place_ready]
    exact ⟨fun hs => ⟨hthread, hs, hidle⟩, fun hp => hp.2.1⟩
  running hrun t := by
    rw [← place_running, h.settled.running]
    exact and_iff_left hrun
  switching hsched := by
    refine ⟨h.switching.intr_off hsched, fun t hthread hs => ?_⟩
    exact ((h.settled.running t).mp (place_running.mpr ⟨hthread, hs⟩)).2 hsched
  running_free t hthread hs q := by
    rw [h.mem_queue, place_running.mpr ⟨hthread, hs⟩]
    simp [Place.queue]
  blocked t hthread hs := by
    have hp := place_of_blocked hthread hs
    have hfound := h.settled.found t
    cases hpl : place k t with
    | sleeping => exact .inl ⟨.sleep, by simp, by rw [h.mem_queue, hpl]; rfl⟩
    | waiting s => exact .inl ⟨.wait s, by simp, by rw [h.mem_queue, hpl]; rfl⟩
    | nascent =>
      refine .inr ⟨.inl (h.creators.created t hpl), fun q => ?_⟩
      rw [h.mem_queue, hpl]
      simp [Place.queue]
    | parked =>
      refine .inr ⟨.inr (.inl ?_), fun q => by rw [h.mem_queue, hpl]; simp [Place.queue]⟩
      exact (blocked_place_eq_parked (hp.symm.trans hpl)).1
    | idling =>
      refine .inr ⟨.inr (.inr ?_), fun q => by rw [h.mem_queue, hpl]; simp [Place.queue]⟩
      exact of_decide_eq_true (blocked_place_eq_idling (hp.symm.trans hpl))
    | lost => exact absurd hpl hfound
    | unused => exact absurd hthread (place_eq_unused.mp hpl)
    | running => simp [(place_running.mp hpl).2] at hs
    | ready => simp [(place_ready.mp hpl).2] at hs
    | dying => simp [(place_dying.mp hpl).2] at hs
  dying t hthread hs := by
    have hpl := place_dying.mpr ⟨hthread, hs⟩
    refine ⟨fun q => by rw [h.mem_queue, hpl]; simp [Place.queue], ?_⟩
    rcases h.settled.dying t hpl with ⟨hi, -⟩ | ⟨hc, hcode⟩
    · exact .inl hi
    · exact .inr ⟨hc, by rw [hcode]; rfl⟩

/-! ## The assertion in `thread_unblock` -/

theorem bind_eq_error_iff {A B : Type} {x : Except Assertion A} {f : A → Except Assertion B}
    {e : Assertion} :
    (x >>= f) = .error e ↔ x = .error e ∨ ∃ a, x = .ok a ∧ f a = .error e := by
  cases x <;> simp [Bind.bind, Except.bind]

theorem ASSERT_eq_error {p : Prop} [Decidable p] {a e : Assertion} :
    ASSERT p a = .error e ↔ ¬ p ∧ a = e := by
  unfold ASSERT
  split <;> simp_all

theorem thread_current_error : thread_current k ≠ .error .status_blocked := by
  simp [thread_current, bind_eq_error_iff, ASSERT_eq_error]

theorem thread_unblock_error (h : thread_unblock k t = .error .status_blocked) :
    is_thread k t ∧ (k.threads t).status ≠ .THREAD_BLOCKED := by
  simpa [thread_unblock, bind_eq_error_iff, ASSERT_eq_error, ASSERT_ok_iff] using h

theorem thread_block_error : thread_block k ≠ .error .status_blocked := by
  simp [thread_block, bind_eq_error_iff, ASSERT_eq_error, thread_current_error]

theorem thread_yield_error : thread_yield k ≠ .error .status_blocked := by
  simp [thread_yield, bind_eq_error_iff, ASSERT_eq_error, thread_current_error]

theorem schedule_error : schedule k ≠ .error .status_blocked := by
  unfold schedule
  split
  · simp
  · simp only [ne_eq, bind_eq_error_iff, ASSERT_eq_error, reduceCtorEq, and_false, ASSERT_ok_iff,
      false_or, exists_and_left, exists_const, not_and, thread_schedule_tail]
    intro _ _ _ _
    repeat' split
    all_goals simp [palloc_free_page, bind_eq_error_iff, ASSERT_eq_error]

/-- Only the instructions that wake a thread can fail the assertion. -/
theorem exec_error {env : Env} {i : Instr} (h : exec k env i = .error .status_blocked) :
    (∃ t, i = .thread_unblock t ∧ is_thread k t ∧ (k.threads t).status ≠ .THREAD_BLOCKED) ∨
      ∃ s t, i = .sema_up s ∧ t ∈ (k.sema s).waiters ∧ (k.threads t).status ≠ .THREAD_BLOCKED := by
  cases i with
  | thread_unblock t => exact .inl ⟨t, rfl, thread_unblock_error h⟩
  | sema_up s =>
    right
    refine ⟨s, ?_⟩
    simp only [exec, sema_up, bind_eq_error_iff, reduceCtorEq, and_false, exists_false, or_false] at h
    unfold sema_wake at h
    split at h
    · cases h
    · rename_i t ws hw
      refine ⟨t, rfl, ?_, (thread_unblock_error h).2⟩
      have hw : (k.sema s).waiters = t :: ws := hw
      simp [hw]
  | schedule => exact absurd h schedule_error
  | thread_yield =>
    simp only [exec, bind_eq_error_iff, reduceCtorEq, and_false, exists_false, or_false] at h
    exact absurd h thread_yield_error
  | thread_block =>
    simp only [exec, bind_eq_error_iff, reduceCtorEq, and_false, exists_false, or_false] at h
    exact absurd h thread_block_error
  | thread_sleep n =>
    simp [exec, thread_sleep, bind_eq_error_iff, thread_current_error, thread_block_error] at h
  | sema_down_loop s =>
    simp only [exec, sema_down_loop] at h
    split at h <;>
      simp [bind_eq_error_iff, thread_current_error, thread_block_error] at h
  | kernel_thread f => cases f <;> simp [exec] at h
  | inherit t =>
    simp only [exec] at h
    split at h <;> cases h
  | preempt_test p =>
    simp only [exec] at h
    split at h <;> cases h
  | compare_front p e =>
    simp only [exec] at h
    split at h <;> cases h
  | cond_broadcast c l =>
    simp only [exec] at h
    split at h <;> cases h
  | cond_signal c l =>
    simp only [exec, bind_eq_error_iff, ASSERT_eq_error, thread_current_error] at h
    revert h
    split <;> simp
  | lock_try_acquire l =>
    simp only [exec, bind_eq_error_iff, ASSERT_eq_error, thread_current_error] at h
    revert h
    split <;> simp
  | _ =>
    simp [exec, bind_eq_error_iff, ASSERT_eq_error, thread_current_error, thread_exit, init_thread,
      alloc_frames] at h

theorem thread_alarm_loop_error {ticks : Int} (h : Wf k) (hrun : k.code.head? ≠ some .schedule) :
    thread_alarm_loop ticks k.sleep_list k ≠ .error .status_blocked := by
  generalize hl : k.sleep_list = l
  induction l generalizing k with
  | nil => simp [thread_alarm_loop]
  | cons t l ih =>
    rw [thread_alarm_loop]
    split
    · simp
    · rw [Ne, bind_eq_error_iff]
      rintro (he | ⟨k₁, hk₁, he⟩)
      · have hp := h.place_of_sleeper (t := t) (by simp [hl])
        obtain ⟨-, hstatus, -⟩ := blocked_of_place (k := k) (t := t) (by rw [hp]; rfl) (by simp [hp])
        exact (thread_unblock_error he).2 hstatus
      · obtain ⟨-, -, rfl⟩ := thread_unblock_ok.mp hk₁
        refine ih (k := wake_first k t) (h.wake_first hrun hl) ?_ ?_ he
        · rw [wake_first_code h hrun hl]
          exact hrun
        · change k.sleep_list.erase t = l
          rw [hl, List.erase_cons_head]

theorem yield_if_outranked_error : yield_if_outranked k ≠ .error .status_blocked := by
  unfold yield_if_outranked
  split
  · simp
  · rw [Ne, bind_eq_error_iff]
    rintro (he | ⟨_, _, he⟩)
    · exact thread_current_error he
    · split at he
      · simp [intr_yield_on_return, bind_eq_error_iff, ASSERT_eq_error] at he
      · cases he

theorem mlfqs_tick_error : mlfqs_tick k ≠ .error .status_blocked := by
  have hsecond (k : Kernel) : mlfqs_second k ≠ .error .status_blocked := by
    unfold mlfqs_second
    split
    · simp [update_load_avg, bind_eq_error_iff, thread_current_error]
    · simp
  have hcpu (k : Kernel) : update_periodic_recent_cpu k ≠ .error .status_blocked := by
    rw [update_periodic_recent_cpu, Ne, bind_eq_error_iff]
    rintro (he | ⟨_, _, he⟩)
    · exact thread_current_error he
    · split at he <;> cases he
  rw [mlfqs_tick, Ne, bind_eq_error_iff]
  rintro (he | ⟨_, _, he⟩)
  · exact hcpu k he
  · rcases bind_eq_error_iff.mp he with he | ⟨_, _, he⟩
    · exact hsecond _ he
    · split at he
      · exact yield_if_outranked_error he
      · cases he

theorem thread_tick_error : thread_tick k ≠ .error .status_blocked := by
  rw [thread_tick, Ne, bind_eq_error_iff]
  rintro (he | ⟨_, _, he⟩)
  · exact thread_current_error he
  · simp only at he
    split at he
    · simp [intr_yield_on_return, bind_eq_error_iff, ASSERT_eq_error] at he
    · cases he

theorem Wf.intr_handler_error (h : Wf k) (hrun : k.code.head? ≠ some .schedule) :
    prj3.intr_handler k ≠ .error .status_blocked := by
  have hyield (k : Kernel) : intr_yield_on_return k ≠ .error .status_blocked := by
    simp [intr_yield_on_return, bind_eq_error_iff, ASSERT_eq_error]
  rw [prj3.intr_handler, Ne, bind_eq_error_iff]
  rintro (he | ⟨_, -, he⟩)
  · simp [ASSERT_eq_error] at he
  rcases bind_eq_error_iff.mp he with he | ⟨_, _, he⟩
  swap
  · cases he
  rcases bind_eq_error_iff.mp he with he | ⟨k₁, hk₁, he⟩
  · exact thread_tick_error he
  obtain rfl := thread_tick_ok hk₁
  rcases bind_eq_error_iff.mp he with he | ⟨k₂, hk₂, he⟩
  · rcases bind_eq_error_iff.mp he with he | ⟨_, _, he⟩
    · exact thread_alarm_loop_error (h.tick_start hrun) hrun he
    · exact hyield _ he
  rcases bind_eq_error_iff.mp he with he | ⟨k₃, hk₃, he⟩
  · unfold aging_tick at he
    split at he
    · exact yield_if_outranked_error he
    · cases he
  · split at he
    · exact mlfqs_tick_error he
    · cases he

/-- No step of a well-formed kernel fails the assertion that the thread to
unblock is blocked. -/
theorem Wf.perform_error (h : Wf k) {l : Label} (hl : Enabled k l) :
    perform k l ≠ .error .status_blocked := by
  intro he
  have hwaiter (k₁ : Kernel) (hsema : k₁.sema = k.sema)
      (hstatus : ∀ t, (k₁.threads t).status = (k.threads t).status) {s : SemaRef} {t : ThreadId}
      (hin : t ∈ (k₁.sema s).waiters) : (k₁.threads t).status = .THREAD_BLOCKED := by
    rw [hsema] at hin
    have hp := h.place_of_waiter hin
    rw [hstatus]
    exact (blocked_of_place (by rw [hp]; rfl) (by simp [hp])).2.1
  cases l with
  | timer => exact h.intr_handler_error (h.switching.not_pending hl) he
  | call c =>
    rcases exec_error he with ⟨t, hi, -, hnot⟩ | ⟨s, t, -, hin, hnot⟩
    · cases c <;> simp [Call.instr] at hi
      subst hi
      exact hnot hl.2.2.1
    · exact hnot (hwaiter k rfl (fun _ => rfl) hin)
  | next env =>
    obtain ⟨i, rest, hcode⟩ := List.exists_cons_of_ne_nil hl.1
    simp only [perform, hcode] at he
    rcases exec_error he with ⟨t, rfl, -, hnot⟩ | ⟨s, t, -, hin, hnot⟩
    · have hcur : (k.threads k.current).code = .thread_unblock t :: rest := hcode
      have hp : place k t = .nascent :=
        h.creators.target k.current (.thread_unblock t) (by simp [hcur]) t _ rfl
      rw [set_code_status] at hnot
      exact hnot (blocked_of_place (by rw [hp]; rfl) (by simp [hp])).2.1
    · exact hnot (hwaiter k.pop rfl (set_code_status k _) hin)

/-! ## Freeing pages -/

theorem intr_handler_used (h : intr_handler k = .ok k') : k'.used_map = k.used_map := by
  obtain ⟨k₁, hloop, -, rfl⟩ := intr_handler_ok h
  have hused : k₁.used_map = k.used_map :=
    (thread_alarm_loop_induct (k := tick_start k) (P := fun k₁ => k₁.used_map = k.used_map)
      (fun _ _ _ hk _ _ _ _ => hk) hloop rfl).1
  exact ((accounted_calm _).used).trans hused

theorem sema_up_used {s : SemaRef} (h : sema_up k s = .ok k') : k'.used_map = k.used_map := by
  obtain ⟨k₁, hwake, he⟩ := bind_eq_ok_iff.mp h
  obtain rfl := ok_eq_ok.mp he
  rcases sema_wake_ok.mp hwake with ⟨-, rfl⟩ | ⟨t, ws, -, -, -, rfl⟩ <;> rfl

/-- Only a switch of threads frees a page. -/
theorem exec_used {env : Env} {i : Instr} (hwaiter : (k.sema (.waiter k.current)).waiters = [])
    (hi : i ≠ .schedule) (h : exec k env i = .ok k') (hused : k.used_map t = true) :
    k'.used_map t = true := by
  by_cases hplain : i.Plain k
  · obtain ⟨k₁, is', hquiet, -, rfl, -⟩ := exec_plain hplain hwaiter h
    change k₁.used_map t = true
    rw [hquiet.used, hused]
  cases i with
  | schedule => exact absurd rfl hi
  | thread_yield =>
    obtain ⟨k₁, hy, he⟩ := bind_eq_ok_iff.mp h
    obtain ⟨-, -, -, rfl⟩ := thread_yield_ok.mp hy
    obtain rfl := ok_eq_ok.mp he
    split <;> exact hused
  | thread_block =>
    obtain ⟨k₁, hb, he⟩ := bind_eq_ok_iff.mp h
    obtain ⟨-, -, -, -, rfl⟩ := thread_block_ok.mp hb
    obtain rfl := ok_eq_ok.mp he
    exact hused
  | thread_unblock t =>
    obtain ⟨-, -, rfl⟩ := thread_unblock_ok.mp h
    exact hused
  | thread_exit =>
    simp only [exec, thread_exit, ASSERT_bind_ok, thread_current_bind_ok, ok_eq_ok] at h
    obtain ⟨-, -, -, rfl⟩ := h
    exact hused
  | palloc_get_page p f =>
    obtain rfl := ok_eq_ok.mp h
    unfold palloc_get_page
    split
    · exact hused
    · simp [hused]
  | init_thread t p f =>
    obtain ⟨-, rfl⟩ := init_thread_ok.mp h
    exact hused
  | alloc_frames t f =>
    obtain ⟨-, rfl⟩ := alloc_frames_ok.mp h
    exact hused
  | idle =>
    simp only [exec, thread_current_bind_ok, ok_eq_ok] at h
    obtain ⟨-, -, rfl⟩ := h
    exact hused
  | thread_sleep n =>
    obtain ⟨-, -, -, -, rfl⟩ := thread_sleep_ok.mp h
    exact hused
  | sema_up s =>
    rw [sema_up_used h]
    exact hused
  | sema_init s n =>
    obtain rfl := ok_eq_ok.mp h
    exact hused
  | sema_down_loop s =>
    have hzero : (k.sema s).value = 0 := by simpa [Instr.Plain] using hplain
    obtain ⟨-, -, -, -, rfl⟩ := (sema_down_loop_ok hzero).mp h
    exact hused
  | _ => exact absurd trivial hplain

/-- A step frees the page of a thread exactly when the thread is dying and
runs; the step then switches away from it, and it is not the initial thread. -/
theorem Wf.step_frees (h : Wf k) {l : Label} (hs : prj3.step k l = some k')
    (hused : k.used_map t = true) :
    (k'.used_map t = false ↔ t = k.current ∧ (k.threads t).status = .THREAD_DYING) ∧
      (k'.used_map t = false → k'.current ≠ t ∧ t ≠ k.initial_thread) := by
  have hinitial : t ≠ k.initial_thread := by
    rintro rfl
    rw [h.settled.initial] at hused
    cases hused
  obtain ⟨henabled, he⟩ := step_ok hs
  by_cases hsched : k.code.head? = some .schedule
  · obtain ⟨rest, hcode⟩ : ∃ rest, k.code = .schedule :: rest := by
      cases hc : k.code with
      | nil => simp [hc] at hsched
      | cons i rest => exact ⟨rest, by simpa [hc] using hsched⟩
    have he : prj3.schedule k.pop = .ok k' := by
      cases l with
      | next env => simpa only [perform, hcode, prj3.exec] using he
      | call c => simp [henabled.1] at hcode
      | timer => exact absurd hsched (h.switching.not_pending henabled)
    obtain ⟨next, hnext, hthread, sw⟩ := schedule_switches he
    have hcurrent : is_thread k next := by
      by_cases hn : next = k.current <;> simpa [is_thread, hn] using hthread
    have hplace := h.next_place hsched hnext hcurrent
    have hdying : (k.threads k.current).status = .THREAD_DYING → k.current ≠ next := by
      rintro hd rfl
      rw [place_dying.mpr ⟨h.settled.current, hd⟩] at hplace
      simp at hplace
    have hfreed : Freed k.pop next ↔ (k.threads k.current).status = .THREAD_DYING ∧
        k.current ≠ k.initial_thread := by
      rw [Freed, set_code_status]
      exact ⟨fun hf => hf.2, fun hf => ⟨hdying hf.1, hf⟩⟩
    by_cases hf : t = k.current ∧ Freed k.pop next
    · obtain ⟨rfl, hf⟩ := hf
      have hd := (hfreed.mp hf).1
      have hfree : k'.used_map k.current = false := sw.page hf
      exact ⟨iff_of_true hfree ⟨rfl, hd⟩, fun _ => ⟨by rw [sw.current]; exact Ne.symm (hdying hd), hinitial⟩⟩
    · have hsame : k'.used_map t = true := (sw.used t hf).trans hused
      rw [hsame]
      refine ⟨iff_of_false (by simp) ?_, by simp⟩
      rintro ⟨rfl, hd⟩
      exact hf ⟨rfl, hfreed.mpr ⟨hd, hinitial⟩⟩
  · have hsame : k'.used_map t = true := by
      cases l with
      | next env =>
        obtain ⟨i, rest, hcode⟩ := List.exists_cons_of_ne_nil henabled.1
        simp only [perform, hcode] at he
        refine exec_used (k := k.pop) (h.own_waiters hsched) ?_ he hused
        rintro rfl
        exact hsched (by rw [hcode]; rfl)
      | call c =>
        refine exec_used (h.own_waiters hsched) ?_ he hused
        cases c <;> simp [Call.instr]
      | timer => rw [intr_handler_used he, hused]
    rw [hsame]
    refine ⟨iff_of_false (by simp) ?_, by simp⟩
    rintro ⟨rfl, hd⟩
    have hrunning := (place_running.mp (h.current_running hsched)).2
    rw [hd] at hrunning
    cases hrunning

/-- In every reachable state of any interleaving, the status of each thread
agrees with the queue its `elem` is in; a step frees the page of a thread
exactly when that thread is dying and is switched away from, and never the
initial thread's; and no thread that is not blocked is ever unblocked. -/
theorem thread_states (h : kernel.Reachable k) :
    StatesAgree k ∧
    (∀ l k', step k l = some k' → ∀ t, k.used_map t = true →
      (k'.used_map t = false ↔ t = k.current ∧ (k.threads t).status = .THREAD_DYING) ∧
      (k'.used_map t = false → k'.current ≠ t ∧ t ≠ k.initial_thread)) ∧
    ∀ l, Enabled k l → perform k l ≠ .error .status_blocked :=
  have hw := reachable_wf h
  ⟨hw.states_agree, fun _ _ hs _ hused => hw.step_frees hs hused, fun _ hl => hw.perform_error hl⟩

/-- The theorem at the state in which `main` has started the idle thread. -/
theorem thread_states_after_start_up :
    ∃ k, runLabels step (boot false false 0) start_up = some k ∧ StatesAgree k := by
  have hrun : (runLabels step (boot false false 0) start_up).isSome = true := by decide +kernel
  obtain ⟨k, hk⟩ := Option.isSome_iff_exists.mp hrun
  exact ⟨k, hk, (thread_states (runLabels_reachable ⟨false, false, 0, rfl⟩ hk)).1⟩

end pintos.prj3
