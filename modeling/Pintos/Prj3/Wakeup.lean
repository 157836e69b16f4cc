import Pintos.Prj3.Effects

/-!
# The sleepers that a tick wakes

`thread_alarm` wakes the sleepers at the front of `sleep_list` whose time has
come. The rest of the tick works on the accounting and the priorities.

With the tick, the steps are complete, and the module ends with the rule for
properties of the code that threads have still to execute.
-/

open twos_complement strict_weak pintos.kernel transition placement

namespace pintos.prj3

variable {k k' k₁ : Kernel} {i : Instr} {rest : List Instr} {t : ThreadId} {q : QueueName}
  {woken : List ThreadId}

/-- The sleepers that the next tick wakes. -/
def due (k : Kernel) : List ThreadId :=
  k.sleep_list.takeWhile fun t => (k.threads t).alarm_ticks ≤ k.ticks + 1

/-- A state of the timer interrupt in which the threads of `woken` are awake. -/
structure Waking (k k₁ : Kernel) (woken : List ThreadId) : Prop where
  ticks : k₁.ticks = k.ticks + 1
  modes : k₁.thread_mlfqs = k.thread_mlfqs ∧ k₁.thread_prior_aging = k.thread_prior_aging
  current : k₁.current = k.current
  idle : k₁.idle_thread = k.idle_thread
  all_list : k₁.all_list = k.all_list
  load_avg : k₁.load_avg = k.load_avg
  intr_level : k₁.intr_level = .INTR_OFF
  sema : k₁.sema = k.sema
  holder : k₁.holder = k.holder
  cond_waiters : k₁.cond_waiters = k.cond_waiters
  magic : ∀ t, (k₁.threads t).magic = (k.threads t).magic
  code : ∀ t, (k₁.threads t).code = (k.threads t).code
  priority : ∀ t, (k₁.threads t).priority = (k.threads t).priority
  recent_cpu : ∀ t, (k₁.threads t).recent_cpu = (k.threads t).recent_cpu
  nice : ∀ t, (k₁.threads t).nice = (k.threads t).nice
  alarm_ticks : ∀ t, (k₁.threads t).alarm_ticks = (k.threads t).alarm_ticks
  status : ∀ t, (k₁.threads t).status =
    if t ∈ woken then .THREAD_READY else (k.threads t).status
  on_time : ∀ t ∈ woken, (k.threads t).alarm_ticks ≤ k.ticks + 1
  sleep_list : k.sleep_list = woken ++ k₁.sleep_list
  ready_list : k₁.ready_list.Perm (woken ++ k.ready_list)

theorem waking_start (k : Kernel) : Waking k (tick_start k) [] :=
  ⟨rfl, ⟨rfl, rfl⟩, rfl, rfl, rfl, rfl, rfl, rfl, rfl, rfl, fun _ => rfl, fun _ => rfl,
    fun _ => rfl, fun _ => rfl,
    fun _ => rfl, fun _ => rfl, by simp [tick_start], by simp, rfl, .refl _⟩

theorem Waking.wake {l : List ThreadId} (h : Waking k k₁ woken) (hsleep : k₁.sleep_list = t :: l)
    (hle : (k₁.threads t).alarm_ticks ≤ k.ticks + 1) :
    Waking k (wake_first k₁ t) (woken ++ [t]) where
  ticks := h.ticks
  modes := h.modes
  current := h.current
  idle := h.idle
  all_list := h.all_list
  load_avg := h.load_avg
  intr_level := h.intr_level
  sema := h.sema
  holder := h.holder
  cond_waiters := h.cond_waiters
  magic u := by
    rw [← h.magic, wake_first]
    by_cases hu : u = t <;> simp [hu]
  code u := by
    rw [← h.code, wake_first]
    by_cases hu : u = t <;> simp [hu]
  priority u := by
    rw [← h.priority, wake_first]
    by_cases hu : u = t <;> simp [hu]
  recent_cpu u := by
    rw [← h.recent_cpu, wake_first]
    by_cases hu : u = t <;> simp [hu]
  nice u := by
    rw [← h.nice, wake_first]
    by_cases hu : u = t <;> simp [hu]
  alarm_ticks u := by
    rw [← h.alarm_ticks, wake_first]
    by_cases hu : u = t <;> simp [hu]
  status u := by
    have hs := h.status u
    rw [wake_first]
    by_cases hu : u = t <;> simp [hu, hs]
  on_time u hu := by
    rcases List.mem_append.mp hu with hu | hu
    · exact h.on_time u hu
    · obtain rfl := List.mem_singleton.mp hu
      rwa [← h.alarm_ticks]
  sleep_list := by
    have hrest : (wake_first k₁ t).sleep_list = l := by
      change k₁.sleep_list.erase t = l
      rw [hsleep, List.erase_cons_head]
    rw [hrest, h.sleep_list, hsleep, List.append_assoc]
    rfl
  ready_list := by
    refine (list_insert_ordered_perm t k₁.ready_list).trans ?_
    rw [List.append_assoc, List.singleton_append]
    exact (h.ready_list.cons t).trans List.perm_middle.symm

/-- The alarm stops at the first sleeper whose time has not come. -/
theorem Waking.eq_due (h : Waking k k₁ woken)
    (hleft : ∀ t ∈ k₁.sleep_list.head?, k.ticks + 1 < (k₁.threads t).alarm_ticks) :
    woken = due k := by
  rw [due, h.sleep_list, List.takeWhile_append_of_pos (by simpa using h.on_time)]
  cases hs : k₁.sleep_list with
  | nil => simp
  | cons t l =>
    have hlt := hleft t (by simp [hs])
    rw [h.alarm_ticks] at hlt
    rw [List.takeWhile_cons_of_neg (by simpa using hlt), List.append_nil]

/-- What waking sleepers one by one keeps. -/
def Alarm (k k₁ : Kernel) : Prop :=
  ∃ woken, Waking k k₁ woken ∧
    (∀ q, Ordered (q.less k) (k.queue q) → Ordered (q.less k₁) (k₁.queue q)) ∧ (Fifo k → Fifo k₁)

/-- The interrupt is over, and the interrupted thread has to yield. -/
def leave_interrupt (k : Kernel) : Kernel :=
  ({ k with in_external_intr := false } : Kernel).push
    [.thread_yield, .intr_set_level .INTR_ON, .ret .timer_interrupt]

theorem leave_interrupt_keys (k : Kernel) (t : ThreadId) : SameKeys k (leave_interrupt k) t := by
  constructor <;> by_cases ht : t = k.current <;> simp [leave_interrupt, ht]

/-- The timer interrupt: the sleepers that are due are made ready by ordered
insertion, the accounting follows, and the interrupted thread yields. -/
theorem Wf.tick (h : Wf k) (hon : k.intr_level = .INTR_ON) (he : prj3.intr_handler k = .ok k') :
    ∃ k₁, Wf k₁ ∧ Waking k k₁ (due k) ∧
      (∀ q, Ordered (q.less k) (k.queue q) → Ordered (q.less k₁) (k₁.queue q)) ∧ (Fifo k → Fifo k₁) ∧
      k' = leave_interrupt (accounted k₁) := by
  have hwake : ∀ k₁ t l, Wf k₁ → k₁.code.head? ≠ some .schedule → Alarm k k₁ → k₁.sleep_list = t :: l →
      (k₁.threads t).alarm_ticks ≤ k.ticks + 1 → Alarm k (prj3.wake_first k₁ t) := by
    rintro k₁ t l hw hrun ⟨woken, hwaking, ho, hf⟩ hsleep hle
    have hshifts : ∀ q, Shifts k₁ (prj3.wake_first k₁ t) q := fun q => hw.wake_first_shifts hrun hsleep
    exact ⟨_, hwaking.wake hsleep hle, fun q hq => (hshifts q).ordered (ho q hq),
      fun hk => (hshifts .ready).fifo (hf hk)⟩
  have hstart : Alarm k (prj3.tick_start k) :=
    ⟨[], waking_start k, fun q ho => by cases q <;> exact ho, fun hf => ⟨hf.before, hf.arrived⟩⟩
  obtain ⟨k₁, hw, hrun, ⟨woken, hwaking, ho, hf⟩, hleft, hk'⟩ :=
    h.intr_handler_induct (P := Alarm k) hon he hstart hwake
  obtain rfl := hwaking.eq_due hleft
  exact ⟨{ k₁ with yield_on_return := true }, hw.yields hrun, { hwaking with },
    fun q hq => by cases q <;> exact ho _ hq, fun hk => ⟨(hf hk).before, (hf hk).arrived⟩, hk'⟩

/-- The timer interrupt changes no status but that of the sleepers it wakes. -/
theorem Wf.tick_status (h : Wf k) (hon : k.intr_level = .INTR_ON) (he : prj3.intr_handler k = .ok k')
    (t : ThreadId) : (k'.threads t).status = if t ∈ due k then .THREAD_READY else (k.threads t).status := by
  obtain ⟨k₁, -, hw, -, -, rfl⟩ := h.tick hon he
  rw [← hw.status t, ← (accounted_calm k₁).status t]
  by_cases ht : t = (accounted k₁).current <;> simp [leave_interrupt, ht]

/-! ## The code of every thread -/

/-- A property of pending code that holds of new threads and of calls and that
execution keeps. -/
structure CodeRule (Q : List Instr → Prop) : Prop where
  nil : Q []
  exit : Q [.schedule]
  boot : Q [.thread_create PRI_MIN .idle, .intr_set_level .INTR_ON, .sema_down .idle_started]
  start : ∀ f, Q [.kernel_thread f]
  call : ∀ c : Call, Q [c.instr]
  tail : ∀ i rest, Q (i :: rest) → Q rest
  leaves : ∀ cur i is rest, Leaves cur i is → Q (i :: rest) → Q (is ++ rest)
  tick : ∀ rest, Q rest → Q (.thread_yield :: .intr_set_level .INTR_ON :: .ret .timer_interrupt :: rest)

theorem Executes.codes {Q : List Instr → Prop} (hQ : CodeRule Q) (h : Executes i rest k k')
    (hcode : k.code = i :: rest) (hk : ∀ t, Q (k.threads t).code) (t : ThreadId) :
    Q (k'.threads t).code := by
  have hcur : Q (i :: rest) := hcode ▸ hk k.current
  by_cases ht : t = k.current
  · subst ht
    rcases h.own with ⟨hc | hc, -⟩ | ⟨hcurrent, is', hleaves, hc⟩
    · rw [hc]
      exact hQ.nil
    · rw [hc]
      exact hQ.tail i rest hcur
    · rw [Kernel.code, hcurrent] at hc
      rw [hc]
      exact hQ.leaves _ i is' rest hleaves hcur
  · rcases h.code t ht with hc | ⟨-, hc | ⟨f, hc⟩⟩
    · rw [hc]
      exact hk t
    · rw [hc]
      exact hQ.nil
    · rw [hc]
      exact hQ.start f

theorem Wf.step_codes {Q : List Instr → Prop} (hQ : CodeRule Q) (h : Wf k) {l : Label}
    (hs : prj3.step k l = some k') (hk : ∀ t, Q (k.threads t).code) (t : ThreadId) :
    Q (k'.threads t).code := by
  obtain ⟨henabled, he⟩ := step_ok hs
  cases l with
  | next env =>
    obtain ⟨i, rest, hcode⟩ := List.exists_cons_of_ne_nil henabled.1
    simp only [perform, hcode] at he
    exact (h.exec_effect hcode henabled.2 he).codes hQ hcode hk t
  | timer =>
    obtain ⟨k₁, -, hw, -, -, rfl⟩ := h.tick henabled he
    have hcalm := accounted_calm k₁
    by_cases ht : t = (accounted k₁).current
    · have hold := hQ.tick _ (hk t)
      simpa [leave_interrupt, ht, Kernel.code, hcalm.code, hw.code] using hold
    · simpa [leave_interrupt, ht, hcalm.code, hw.code] using hk t
  | call c =>
    obtain ⟨hcode, hallowed⟩ := henabled
    by_cases hsimple : c.Simple
    · obtain ⟨hw, hc⟩ := h.simple_call hsimple hcode
      have hexec := hw.exec_effect hc (no_page_allowed _) (by rwa [push_pop])
      refine hexec.codes hQ hc (fun u => ?_) t
      by_cases hu : u = k.current
      · have hcall := hQ.call c
        rw [← hc] at hcall
        rw [hu]
        exact hcall
      · simpa [hu] using hk u
    cases c with
    | thread_exit =>
      simp only [perform, Call.instr, prj3.exec, prj3.thread_exit, ASSERT_bind_ok,
        thread_current_bind_ok, ok_eq_ok] at he
      obtain ⟨-, -, -, rfl⟩ := he
      by_cases ht : t = k.current
      · simpa [ht] using hQ.exit
      · simpa [ht] using hk t
    | thread_unblock u =>
      obtain ⟨-, -, rfl⟩ := thread_unblock_ok.mp he
      by_cases ht : t = u
      · simpa [ht] using hk u
      · simpa [ht] using hk t
    | sema_init n v =>
      obtain rfl := ok_eq_ok.mp he
      exact hk t
    | _ => exact absurd trivial hsimple

/-- In every reachable state the code of every thread has the property. -/
theorem reachable_codes {Q : List Instr → Prop} (hQ : CodeRule Q) (h : kernel.Reachable k)
    (t : ThreadId) : Q (k.threads t).code := by
  refine h.invariant (I := fun k => ∀ t, Q (k.threads t).code) (fun s hs t => ?_)
    (fun _ _ _ hr hk hs => (reachable_wf hr).step_codes hQ hs hk) t
  obtain ⟨mlfqs, aging, t₀, rfl⟩ := hs
  by_cases ht : t = t₀
  · simpa [prj3.boot, ht] using hQ.boot
  · simpa [prj3.boot, ht, Thread.zero] using hQ.nil

end pintos.prj3
