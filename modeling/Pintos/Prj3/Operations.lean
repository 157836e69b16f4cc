import Pintos.Prj3.Exec

/-!
# What the operations do

For each function that can fail an assertion, the condition under which it
succeeds and the state it leaves; the invariants are proved from these.
-/

open twos_complement pintos.kernel transition

namespace pintos.prj3

variable {k k' : Kernel} {t : ThreadId}

@[simp] theorem ASSERT_bind_ok {A : Type} {p : Prop} [Decidable p] {a : Assertion}
    {f : Unit → Except Assertion A} {b : A} : (ASSERT p a >>= f) = .ok b ↔ p ∧ f () = .ok b := by
  rw [bind_eq_ok_iff]
  exact ⟨fun ⟨_, h, hf⟩ => ⟨ASSERT_ok_iff.mp h, hf⟩, fun ⟨h, hf⟩ => ⟨(), ASSERT_ok_iff.mpr h, hf⟩⟩

/-- What a function returns is the given state. -/
theorem ok_eq_ok {A : Type} {a b : A} : (.ok a : Except Assertion A) = .ok b ↔ b = a := by
  rw [Except.ok.injEq, eq_comm]

theorem thread_current_ok :
    thread_current k = .ok t ↔
      is_thread k k.current ∧ (k.threads k.current).status = .THREAD_RUNNING ∧ t = k.current := by
  simp only [thread_current, ASSERT_bind_ok, ok_eq_ok]

@[simp] theorem thread_current_bind_ok {A : Type} {f : ThreadId → Except Assertion A} {b : A} :
    (thread_current k >>= f) = .ok b ↔
      is_thread k k.current ∧ (k.threads k.current).status = .THREAD_RUNNING ∧
        f k.current = .ok b := by
  rw [bind_eq_ok_iff]
  constructor
  · rintro ⟨t, ht, hf⟩
    obtain ⟨hthread, hstatus, rfl⟩ := thread_current_ok.mp ht
    exact ⟨hthread, hstatus, hf⟩
  · rintro ⟨hthread, hstatus, hf⟩
    exact ⟨_, thread_current_ok.mpr ⟨hthread, hstatus, rfl⟩, hf⟩

/-- `thread_unblock` past its assertions. -/
def make_ready (k : Kernel) (t : ThreadId) : Kernel :=
  (ready_insert k t).update t fun th => { th with status := .THREAD_READY }

theorem thread_unblock_ok :
    thread_unblock k t = .ok k' ↔
      is_thread k t ∧ (k.threads t).status = .THREAD_BLOCKED ∧ k' = make_ready k t := by
  simp only [thread_unblock, make_ready, ASSERT_bind_ok, ok_eq_ok]

theorem thread_block_ok :
    thread_block k = .ok k' ↔
      k.in_external_intr = false ∧ k.intr_level = .INTR_OFF ∧ is_thread k k.current ∧
        (k.threads k.current).status = .THREAD_RUNNING ∧
        k' = k.update k.current fun th => { th with status := .THREAD_BLOCKED } := by
  simp only [thread_block, ASSERT_bind_ok, thread_current_bind_ok, ok_eq_ok]

theorem thread_yield_ok :
    thread_yield k = .ok k' ↔
      is_thread k k.current ∧ (k.threads k.current).status = .THREAD_RUNNING ∧
        k.in_external_intr = false ∧
        k' = (if k.idle_thread ≠ some k.current then
            ready_insert { k with intr_level := .INTR_OFF } k.current
          else { k with intr_level := .INTR_OFF }).update k.current
            fun th => { th with status := .THREAD_READY } := by
  simp only [thread_yield, ASSERT_bind_ok, thread_current_bind_ok, ok_eq_ok]

/-- The running thread joins the waiters of `s`. -/
def enqueue_waiter (k : Kernel) (s : SemaRef) : Kernel :=
  k.set_sema s { k.sema s with
    waiters := list_insert_ordered (priority_comp k) k.current (k.sema s).waiters }

/-- The running thread joins the sleepers. -/
def enqueue_sleeper (k : Kernel) (alarm_ticks : Int) : Kernel :=
  let k := k.update k.current fun th => { th with alarm_ticks := int32 alarm_ticks }
  { k with sleep_list := list_insert_ordered (alarm_ticks_comp k) k.current k.sleep_list }

/-- The running thread blocks, and has `is` to execute next. -/
def block (k : Kernel) (is : List Instr) : Kernel :=
  (k.update k.current fun th => { th with status := .THREAD_BLOCKED }).push is

theorem sema_down_loop_ok {s : SemaRef} (h : (k.sema s).value = 0) :
    sema_down_loop k s = .ok k' ↔
      is_thread k k.current ∧ (k.threads k.current).status = .THREAD_RUNNING ∧
        k.in_external_intr = false ∧ k.intr_level = .INTR_OFF ∧
        k' = block (enqueue_waiter k s) [.schedule, .sema_down_loop s] := by
  rw [sema_down_loop, if_pos h, thread_current_bind_ok]
  simp only [bind_eq_ok_iff, thread_block_ok, ok_eq_ok]
  constructor
  · rintro ⟨hthread, hstatus, k₁, ⟨hext, hoff, -, -, rfl⟩, rfl⟩
    exact ⟨hthread, hstatus, hext, hoff, rfl⟩
  · rintro ⟨hthread, hstatus, hext, hoff, rfl⟩
    exact ⟨hthread, hstatus, _, ⟨hext, hoff, hthread, hstatus, rfl⟩, rfl⟩

theorem thread_sleep_ok {n : Int} :
    thread_sleep k n = .ok k' ↔
      is_thread k k.current ∧ (k.threads k.current).status = .THREAD_RUNNING ∧
        k.in_external_intr = false ∧ k.intr_level = .INTR_OFF ∧
        k' = block (enqueue_sleeper k n) [.schedule, .ret .thread_sleep] := by
  rw [thread_sleep, thread_current_bind_ok]
  simp only [bind_eq_ok_iff, thread_block_ok, ok_eq_ok]
  constructor
  · rintro ⟨hthread, hstatus, k₁, ⟨hext, hoff, -, -, rfl⟩, rfl⟩
    exact ⟨hthread, hstatus, hext, hoff, rfl⟩
  · rintro ⟨hthread, hstatus, hext, hoff, rfl⟩
    refine ⟨hthread, hstatus, _, ⟨hext, hoff, ?_, ?_, rfl⟩, rfl⟩
    · simpa [is_thread] using hthread
    · simpa using hstatus

/-- The page of `t` is taken from the page allocator, zeroed. -/
def allocate (k : Kernel) (t : ThreadId) : Kernel :=
  { k.update t fun _ => .zero with used_map := fun u => if u = t then true else k.used_map u }

/-- The page of `t` becomes a blocked thread. -/
def init_page (k : Kernel) (t : ThreadId) (priority : Int) : Kernel :=
  { k.update t fun _ => { Thread.zero with status := .THREAD_BLOCKED, priority, magic := true } with
    all_list := k.all_list ++ [t] }

/-- The new thread `t` will execute `is`. -/
def fill_stack (k : Kernel) (t : ThreadId) (is : List Instr) : Kernel :=
  k.update t fun th => { th with code := is }

theorem init_thread_ok {priority : Int} {f : ThreadFunc} :
    init_thread k t priority f = .ok k' ↔ (PRI_MIN ≤ priority ∧ priority ≤ PRI_MAX) ∧
      k' = (init_page k t priority).push
        [.lock_acquire .tid_lock, .next_tid t, .inherit t, .alloc_frames t f] := by
  rw [init_thread, ASSERT_bind_ok, ok_eq_ok]
  rfl

theorem alloc_frames_ok {f : ThreadFunc} :
    alloc_frames k t f = .ok k' ↔ is_thread k t ∧
      k' = (fill_stack k t [.kernel_thread f]).push
        [.thread_unblock t, .thread_yield, .ret (.thread_create (some t))] := by
  rw [alloc_frames, ASSERT_bind_ok, ok_eq_ok]
  rfl

/-- The processor switches to `next`, the head of the run queue or `idle`. -/
def switch_to (k : Kernel) (next : ThreadId) : Kernel :=
  { k.update next fun th => { th with status := .THREAD_RUNNING } with
    ready_list := k.ready_list.tail
    current := next
    thread_ticks := 0 }

/-- The page of `t` goes back to the page allocator. -/
def free_page (k : Kernel) (t : ThreadId) : Kernel :=
  { k.update t fun _ => .zero with used_map := fun u => if u = t then false else k.used_map u }

/-- The thread whose page the switch to `next` frees. -/
def Freed (k : Kernel) (next : ThreadId) : Prop :=
  k.current ≠ next ∧ (k.threads k.current).status = .THREAD_DYING ∧ k.current ≠ k.initial_thread

theorem schedule_ok :
    schedule k = .ok k' ↔ ∃ next, next_thread_to_run k = some next ∧ k.intr_level = .INTR_OFF ∧
      (k.threads k.current).status ≠ .THREAD_RUNNING ∧ is_thread k next ∧
      ((¬ Freed k next ∧ k' = switch_to k next) ∨
        (Freed k next ∧ k.used_map k.current = true ∧ k' = free_page (switch_to k next) k.current)) := by
  unfold schedule
  cases hn : next_thread_to_run k with
  | none => simp
  | some next =>
    simp only [Option.some.injEq, exists_eq_left', ASSERT_bind_ok]
    refine and_congr_right fun hoff => and_congr_right fun _ => and_congr_right fun _ => ?_
    by_cases hf : Freed k next
    · have hstatus : ((k.update next fun th => { th with status := .THREAD_RUNNING }).threads
          k.current).status = .THREAD_DYING := by
        simp [hf.1, hf.2.1]
      simp only [if_pos hf.1, thread_schedule_tail, ASSERT_bind_ok, palloc_free_page]
      rw [if_pos ⟨hstatus, hf.2.2⟩, ASSERT_bind_ok, ok_eq_ok]
      constructor
      · rintro ⟨-, hused, rfl⟩
        exact .inr ⟨hf, hused, rfl⟩
      · rintro (⟨hn, -⟩ | ⟨-, hused, rfl⟩)
        · exact absurd hf hn
        · exact ⟨hoff, hused, rfl⟩
    · have hnot : (thread_schedule_tail { k with ready_list := k.ready_list.tail, current := next }
          (if k.current ≠ next then some k.current else none)) = .ok (switch_to k next) := by
        rw [thread_schedule_tail, ASSERT_bind_ok]
        refine ⟨hoff, ?_⟩
        by_cases hne : k.current ≠ next
        · have hcond : ¬ ((k.threads k.current).status = .THREAD_DYING ∧ k.current ≠ k.initial_thread) :=
            fun h => hf ⟨hne, h⟩
          have hsame : ((k.update next fun th => { th with status := .THREAD_RUNNING }).threads
              k.current).status = (k.threads k.current).status := by
            simp [hne]
          rw [if_pos hne]
          simp only
          rw [if_neg]
          · rfl
          · rw [← hsame] at hcond
            exact hcond
        · rw [if_neg hne]
          rfl
      rw [hnot, ok_eq_ok]
      simp [hf]

/-! ## Instructions that move no thread -/

/-- The instruction neither moves a thread nor works on the page of a new one. -/
def Instr.Plain (k : Kernel) : Instr → Prop
  | .schedule | .thread_yield | .thread_block | .thread_unblock _ | .thread_exit => False
  | .palloc_get_page _ _ | .init_thread _ _ _ | .alloc_frames _ _ | .idle => False
  | .thread_sleep _ | .sema_up _ | .sema_init _ _ => False
  | .sema_down_loop s => (k.sema s).value ≠ 0
  | _ => True

/-- What a plain instruction leaves as it was: all that the queues and the
scheduler depend on, but the priority of the running thread. -/
structure Quiet (k k' : Kernel) : Prop where
  modes : k'.thread_mlfqs = k.thread_mlfqs ∧ k'.thread_prior_aging = k.thread_prior_aging
  used : k'.used_map = k.used_map
  current : k'.current = k.current
  ready_list : k'.ready_list = k.ready_list
  all_list : k'.all_list = k.all_list
  sleep_list : k'.sleep_list = k.sleep_list
  idle : k'.idle_thread = k.idle_thread
  initial : k'.initial_thread = k.initial_thread
  ticks : k'.ticks = k.ticks
  arrivals : k'.arrivals = k.arrivals
  waiters : ∀ s, (k'.sema s).waiters = (k.sema s).waiters
  magic : ∀ t, (k'.threads t).magic = (k.threads t).magic
  status : ∀ t, (k'.threads t).status = (k.threads t).status
  code : ∀ t, (k'.threads t).code = (k.threads t).code
  alarm_ticks : ∀ t, (k'.threads t).alarm_ticks = (k.threads t).alarm_ticks
  arrival : ∀ t, (k'.threads t).arrival = (k.threads t).arrival
  priority : ∀ t, t ≠ k.current → (k'.threads t).priority = (k.threads t).priority
  stored : (k'.threads k.current).priority = (k.threads k.current).priority ∨
    ∃ p, (k'.threads k.current).priority = int32 p

theorem Quiet.refl (k : Kernel) : Quiet k k :=
  ⟨⟨rfl, rfl⟩, rfl, rfl, rfl, rfl, rfl, rfl, rfl, rfl, rfl, fun _ => rfl, fun _ => rfl,
    fun _ => rfl, fun _ => rfl, fun _ => rfl, fun _ => rfl, fun _ _ => rfl, .inl rfl⟩

theorem Quiet.trans {k'' : Kernel} (h : Quiet k k') (h' : Quiet k' k'') : Quiet k k'' where
  modes := ⟨h'.modes.1.trans h.modes.1, h'.modes.2.trans h.modes.2⟩
  used := h'.used.trans h.used
  current := h'.current.trans h.current
  ready_list := h'.ready_list.trans h.ready_list
  all_list := h'.all_list.trans h.all_list
  sleep_list := h'.sleep_list.trans h.sleep_list
  idle := h'.idle.trans h.idle
  initial := h'.initial.trans h.initial
  ticks := h'.ticks.trans h.ticks
  arrivals := h'.arrivals.trans h.arrivals
  waiters s := (h'.waiters s).trans (h.waiters s)
  magic t := (h'.magic t).trans (h.magic t)
  status t := (h'.status t).trans (h.status t)
  code t := (h'.code t).trans (h.code t)
  alarm_ticks t := (h'.alarm_ticks t).trans (h.alarm_ticks t)
  arrival t := (h'.arrival t).trans (h.arrival t)
  priority t ht := (h'.priority t (h.current ▸ ht)).trans (h.priority t ht)
  stored := by
    have hs := h'.stored
    rw [h.current] at hs
    rcases hs with hs | hs
    · exact h.stored.imp hs.trans fun ⟨p, hp⟩ => ⟨p, hs.trans hp⟩
    · exact .inr hs

/-- The record of thread `t` changes in fields that the scheduler does not read. -/
theorem Quiet.update (k : Kernel) (t : ThreadId) (f : Thread → Thread)
    (hmagic : ∀ th, (f th).magic = th.magic) (hstatus : ∀ th, (f th).status = th.status)
    (hcode : ∀ th, (f th).code = th.code) (halarm : ∀ th, (f th).alarm_ticks = th.alarm_ticks)
    (harrival : ∀ th, (f th).arrival = th.arrival)
    (hpriority : ∀ th, (f th).priority = th.priority ∨ t = k.current ∧ ∃ p, (f th).priority = int32 p) :
    Quiet k (k.update t f) := by
  refine ⟨⟨rfl, rfl⟩, rfl, rfl, rfl, rfl, rfl, rfl, rfl, rfl, rfl, fun _ => rfl, ?_, ?_, ?_, ?_, ?_, ?_, ?_⟩
  case refine_6 =>
    intro u hu
    by_cases hut : u = t
    · have hp := (hpriority (k.threads t)).resolve_right fun hc => hu (hut.trans hc.1)
      simp [hut, hp]
    · simp [hut]
  case refine_7 =>
    by_cases hut : k.current = t
    · subst hut
      simpa using (hpriority (k.threads k.current)).imp_right And.right
    · simp [hut]
  all_goals
    intro u
    by_cases hu : u = t <;> simp_all

theorem Quiet.set_sema (k : Kernel) (s : SemaRef) (v : Semaphore)
    (hv : v.waiters = (k.sema s).waiters) : Quiet k (k.set_sema s v) := by
  refine ⟨⟨rfl, rfl⟩, rfl, rfl, rfl, rfl, rfl, rfl, rfl, rfl, rfl, fun s' => ?_, fun _ => rfl,
    fun _ => rfl, fun _ => rfl, fun _ => rfl, fun _ => rfl, fun _ _ => rfl, .inl rfl⟩
  by_cases hs : s' = s <;> simp_all

theorem Quiet.set_holder (k : Kernel) (l : LockRef) (h : Option ThreadId) :
    Quiet k (k.set_holder l h) :=
  ⟨⟨rfl, rfl⟩, rfl, rfl, rfl, rfl, rfl, rfl, rfl, rfl, rfl, fun _ => rfl, fun _ => rfl,
    fun _ => rfl, fun _ => rfl, fun _ => rfl, fun _ => rfl, fun _ _ => rfl, .inl rfl⟩

theorem Quiet.set_cond (k : Kernel) (c : CondRef) (w : List SemaRef) : Quiet k (k.set_cond c w) :=
  ⟨⟨rfl, rfl⟩, rfl, rfl, rfl, rfl, rfl, rfl, rfl, rfl, rfl, fun _ => rfl, fun _ => rfl,
    fun _ => rfl, fun _ => rfl, fun _ => rfl, fun _ => rfl, fun _ _ => rfl, .inl rfl⟩

theorem Quiet.set_next_tid (k : Kernel) (tid : Int) : Quiet k { k with next_tid := tid } :=
  ⟨⟨rfl, rfl⟩, rfl, rfl, rfl, rfl, rfl, rfl, rfl, rfl, rfl, fun _ => rfl, fun _ => rfl,
    fun _ => rfl, fun _ => rfl, fun _ => rfl, fun _ => rfl, fun _ _ => rfl, .inl rfl⟩

theorem Quiet.set_intr (k : Kernel) (level : IntrLevel) :
    Quiet k { k with intr_level := level } :=
  ⟨⟨rfl, rfl⟩, rfl, rfl, rfl, rfl, rfl, rfl, rfl, rfl, rfl, fun _ => rfl, fun _ => rfl,
    fun _ => rfl, fun _ => rfl, fun _ => rfl, fun _ => rfl, fun _ _ => rfl, .inl rfl⟩

/-- The instructions that a plain instruction of thread `cur` puts in its place. -/
inductive Expands (cur : ThreadId) : Instr → List Instr → Prop where
  | intr_set_level : ∀ level, Expands cur (.intr_set_level level) []
  | ret : ∀ f, Expands cur (.ret f) []
  | kernel_thread_idle : Expands cur (.kernel_thread .idle) [.idle]
  | kernel_thread : Expands cur (.kernel_thread .other) []
  | idle_loop : Expands cur .idle_loop [.thread_block, .intr_set_level .INTR_ON, .idle_loop]
  | thread_create : ∀ p f, Expands cur (.thread_create p f)
    [.lock_acquire .pool_lock, .palloc_get_page p f]
  | next_tid : ∀ t tid, Expands cur (.next_tid t) [.lock_release .tid_lock, .set_tid t tid]
  | set_tid : ∀ t tid, Expands cur (.set_tid t tid) []
  | inherit : ∀ t, Expands cur (.inherit t) []
  | thread_set_priority : ∀ p, Expands cur (.thread_set_priority p)
    [.preempt_test (some (int32 p)), .ret .thread_set_priority]
  | thread_set_nice : ∀ n, Expands cur (.thread_set_nice n)
    [.recompute_priority, .preempt_test none, .ret .thread_set_nice]
  | recompute_priority : ∀ p, Expands cur .recompute_priority [.store_priority p]
  | store_priority : ∀ p, Expands cur (.store_priority p) []
  | preempt_test_empty : ∀ p, Expands cur (.preempt_test p) []
  | preempt_test : ∀ p, Expands cur (.preempt_test p) [.max_priority_in_ready p]
  | max_priority_in_ready : ∀ p e, Expands cur (.max_priority_in_ready p) [.compare_front p e]
  | compare_front_yield : ∀ p e, Expands cur (.compare_front p e) [.thread_yield]
  | compare_front : ∀ p e, Expands cur (.compare_front p e) []
  | timer_sleep : ∀ n start, Expands cur (.timer_sleep n) [.timer_sleep_from start (int64 n)]
  | timer_sleep_from : ∀ start n, Expands cur (.timer_sleep_from start n)
    [.thread_sleep (int64 (start + n)), .intr_set_level .INTR_ON, .ret (.timer_sleep start n)]
  | sema_down : ∀ s level, Expands cur (.sema_down s)
    [.sema_down_loop s, .intr_set_level level, .ret (.sema_down s)]
  | sema_down_loop : ∀ s, Expands cur (.sema_down_loop s) []
  | sema_try_down : ∀ s success, Expands cur (.sema_try_down s) [.ret (.sema_try_down s success)]
  | lock_acquire : ∀ l, Expands cur (.lock_acquire l)
    [.sema_down (.lock l), .set_holder l, .ret (.lock_acquire l)]
  | set_holder : ∀ l, Expands cur (.set_holder l) []
  | lock_try_acquire : ∀ l, Expands cur (.lock_try_acquire l)
    [.set_holder l, .ret (.lock_try_acquire l true)]
  | lock_try_acquire_fails : ∀ l, Expands cur (.lock_try_acquire l)
    [.ret (.lock_try_acquire l false)]
  | lock_release : ∀ l, Expands cur (.lock_release l) [.sema_up (.lock l), .ret (.lock_release l)]
  | cond_wait : ∀ c l, Expands cur (.cond_wait c l)
    [.lock_release l, .sema_down (.waiter cur), .lock_acquire l, .ret (.cond_wait c l)]
  | cond_signal_none : ∀ c l, Expands cur (.cond_signal c l) [.ret (.cond_signal c l)]
  | cond_signal : ∀ c l w, Expands cur (.cond_signal c l) [.sema_up w, .ret (.cond_signal c l)]
  | cond_broadcast_none : ∀ c l, Expands cur (.cond_broadcast c l) [.ret (.cond_broadcast c l)]
  | cond_broadcast : ∀ c l, Expands cur (.cond_broadcast c l)
    [.cond_signal c l, .cond_broadcast c l]

/-- The instruction stores into the priority of its thread. -/
def Instr.stores : Instr → Bool
  | .thread_set_priority _ | .store_priority _ => true
  | _ => false

/-- A plain instruction keeps what the scheduler depends on and expands. -/
theorem exec_plain {env : Env} {i : Instr} (hplain : i.Plain k)
    (hwaiter : (k.sema (.waiter k.current)).waiters = []) (h : exec k env i = .ok k') :
    ∃ k₁ is', Quiet k k₁ ∧ Expands k.current i is' ∧ k' = k₁.push is' ∧
      (i.stores = true ∨ (k₁.threads k.current).priority = (k.threads k.current).priority) := by
  have hpush (k₁ : Kernel) : k₁ = k₁.push [] := (Kernel.set_code_self k₁).symm
  cases i with
  | intr_set_level level =>
    simp only [exec, ASSERT_bind_ok, ok_eq_ok] at h
    exact ⟨_, _, .set_intr k level, .intr_set_level level, h.2.trans (hpush _), .inr rfl⟩
  | ret f =>
    simp only [exec, ok_eq_ok] at h
    exact ⟨_, _, .refl k, .ret f, h.trans (hpush _), .inr rfl⟩
  | kernel_thread f =>
    cases f with
    | idle =>
      simp only [exec, ok_eq_ok] at h
      exact ⟨_, _, .set_intr k _, .kernel_thread_idle, h, .inr rfl⟩
    | other =>
      simp only [exec, ok_eq_ok] at h
      exact ⟨_, _, .set_intr k _, .kernel_thread, h.trans (hpush _), .inr rfl⟩
  | idle_loop =>
    simp only [exec, ok_eq_ok] at h
    exact ⟨_, _, .set_intr k _, .idle_loop, h, .inr rfl⟩
  | thread_create p f =>
    simp only [exec, ok_eq_ok] at h
    exact ⟨_, _, .refl k, .thread_create p f, h, .inr rfl⟩
  | next_tid t =>
    simp only [exec, ok_eq_ok] at h
    exact ⟨_, _, .set_next_tid k _, .next_tid t _, h, .inr rfl⟩
  | set_tid t tid =>
    simp only [exec, ok_eq_ok] at h
    refine ⟨_, _, ?_, .set_tid t tid, h.trans (hpush _), .inr ?_⟩
    · exact .update k t _ (fun _ => rfl) (fun _ => rfl) (fun _ => rfl) (fun _ => rfl)
        (fun _ => rfl) (fun _ => .inl rfl)
    · by_cases ht : k.current = t <;> simp [ht]
  | inherit t =>
    simp only [exec] at h
    split at h
    · rw [ok_eq_ok] at h
      refine ⟨_, _, ?_, .inherit t, h.trans (hpush _), .inr ?_⟩
      · exact .update k t _ (fun _ => rfl) (fun _ => rfl) (fun _ => rfl) (fun _ => rfl)
          (fun _ => rfl) (fun _ => .inl rfl)
      · by_cases ht : k.current = t <;> simp [ht]
    · rw [ok_eq_ok] at h
      exact ⟨_, _, .refl k, .inherit t, h.trans (hpush _), .inr rfl⟩
  | thread_set_priority p =>
    simp only [exec, thread_current_bind_ok, ok_eq_ok] at h
    refine ⟨_, _, ?_, .thread_set_priority p, h.2.2, .inl rfl⟩
    exact .update k k.current _ (fun _ => rfl) (fun _ => rfl) (fun _ => rfl) (fun _ => rfl)
      (fun _ => rfl) (fun _ => .inr ⟨rfl, _, rfl⟩)
  | thread_set_nice n =>
    simp only [exec, thread_current_bind_ok, ok_eq_ok] at h
    refine ⟨_, _, ?_, .thread_set_nice n, h.2.2, .inr ?_⟩
    · exact .update k k.current _ (fun _ => rfl) (fun _ => rfl) (fun _ => rfl) (fun _ => rfl)
        (fun _ => rfl) (fun _ => .inl rfl)
    · simp
  | recompute_priority =>
    simp only [exec, ok_eq_ok] at h
    exact ⟨_, _, .refl k, .recompute_priority _, h, .inr rfl⟩
  | store_priority p =>
    simp only [exec, ok_eq_ok] at h
    refine ⟨_, _, ?_, .store_priority p, h.trans (hpush _), .inl rfl⟩
    exact .update k k.current _ (fun _ => rfl) (fun _ => rfl) (fun _ => rfl) (fun _ => rfl)
      (fun _ => rfl) (fun _ => .inr ⟨rfl, _, rfl⟩)
  | preempt_test p =>
    simp only [exec] at h
    split at h
    · rw [ok_eq_ok] at h
      exact ⟨_, _, .refl k, .preempt_test_empty p, h.trans (hpush _), .inr rfl⟩
    · rw [ok_eq_ok] at h
      exact ⟨_, _, .refl k, .preempt_test p, h, .inr rfl⟩
  | max_priority_in_ready p =>
    simp only [exec, ok_eq_ok] at h
    exact ⟨_, _, .refl k, .max_priority_in_ready p _, h, .inr rfl⟩
  | compare_front p e =>
    simp only [exec] at h
    split at h
    · rw [ok_eq_ok] at h
      exact ⟨_, _, .refl k, .compare_front_yield p e, h, .inr rfl⟩
    · rw [ok_eq_ok] at h
      exact ⟨_, _, .refl k, .compare_front p e, h.trans (hpush _), .inr rfl⟩
  | timer_sleep n =>
    simp only [exec, ok_eq_ok] at h
    exact ⟨_, _, .refl k, .timer_sleep n _, h, .inr rfl⟩
  | timer_sleep_from start n =>
    simp only [exec, ASSERT_bind_ok, ok_eq_ok] at h
    exact ⟨_, _, .set_intr k _, .timer_sleep_from start n, h.2, .inr rfl⟩
  | sema_down s =>
    simp only [exec, ASSERT_bind_ok, ok_eq_ok] at h
    exact ⟨_, _, .set_intr k _, .sema_down s _, h.2, .inr rfl⟩
  | sema_down_loop s =>
    simp only [exec, sema_down_loop] at h
    rw [if_neg hplain, ok_eq_ok] at h
    refine ⟨_, _, ?_, .sema_down_loop s, h.trans (hpush _), .inr rfl⟩
    exact .set_sema k s _ rfl
  | sema_try_down s =>
    simp only [exec, sema_try_down] at h
    split at h
    · rw [ok_eq_ok] at h
      refine ⟨_, _, ?_, .sema_try_down s true, h, .inr rfl⟩
      exact .set_sema k s _ rfl
    · rw [ok_eq_ok] at h
      exact ⟨_, _, .refl k, .sema_try_down s false, h, .inr rfl⟩
  | lock_acquire l =>
    simp only [exec, ASSERT_bind_ok, thread_current_bind_ok, ok_eq_ok] at h
    exact ⟨_, _, .refl k, .lock_acquire l, h.2.2.2.2, .inr rfl⟩
  | set_holder l =>
    simp only [exec, thread_current_bind_ok, ok_eq_ok] at h
    exact ⟨_, _, .set_holder k l _, .set_holder l, h.2.2.trans (hpush _), .inr rfl⟩
  | lock_try_acquire l =>
    simp only [exec, sema_try_down, ASSERT_bind_ok, thread_current_bind_ok] at h
    obtain ⟨-, -, -, h⟩ := h
    by_cases hv : (k.sema (.lock l)).value > 0
    · simp only [hv, ↓reduceIte, ok_eq_ok] at h
      refine ⟨_, _, ?_, .lock_try_acquire l, h, .inr rfl⟩
      exact .set_sema k (.lock l) _ rfl
    · simp only [hv, ↓reduceIte, Bool.false_eq_true, ok_eq_ok] at h
      exact ⟨_, _, .refl k, .lock_try_acquire_fails l, h, .inr rfl⟩
  | lock_release l =>
    simp only [exec, ASSERT_bind_ok, thread_current_bind_ok, ok_eq_ok] at h
    exact ⟨_, _, .set_holder k l none, .lock_release l, h.2.2.2, .inr rfl⟩
  | cond_wait c l =>
    simp only [exec, ASSERT_bind_ok, thread_current_bind_ok, ok_eq_ok] at h
    exact ⟨_, _, (Quiet.set_sema k (.waiter k.current) _ hwaiter.symm).trans (.set_cond _ c _),
      .cond_wait c l, h.2.2.2.2, .inr rfl⟩
  | cond_signal c l =>
    simp only [exec, ASSERT_bind_ok, thread_current_bind_ok] at h
    obtain ⟨-, -, -, -, h⟩ := h
    split at h
    · rw [ok_eq_ok] at h
      exact ⟨_, _, .refl k, .cond_signal_none c l, h, .inr rfl⟩
    · rw [ok_eq_ok] at h
      exact ⟨_, _, .set_cond k c _, .cond_signal c l _, h, .inr rfl⟩
  | cond_broadcast c l =>
    simp only [exec] at h
    split at h
    · rw [ok_eq_ok] at h
      exact ⟨_, _, .refl k, .cond_broadcast_none c l, h, .inr rfl⟩
    · rw [ok_eq_ok] at h
      exact ⟨_, _, .refl k, .cond_broadcast c l, h, .inr rfl⟩
  | _ => exact absurd hplain (by simp [Instr.Plain])

end pintos.prj3
