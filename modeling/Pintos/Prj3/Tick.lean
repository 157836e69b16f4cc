import Pintos.Prj3.Operations

/-!
# What the timer interrupt does

The handler in stages: it counts the tick, wakes sleepers, ages the ready
threads or recomputes priorities, and leaves the yield to the interrupted
thread's code.
-/

open twos_complement strict_weak pintos.kernel transition

namespace pintos.prj3

variable {k k' : Kernel}

/-- What the interrupt leaves as it was once it has woken the sleepers. -/
structure Calm (k k' : Kernel) : Prop where
  modes : k'.thread_mlfqs = k.thread_mlfqs ∧ k'.thread_prior_aging = k.thread_prior_aging
  used : k'.used_map = k.used_map
  current : k'.current = k.current
  ready_list : k'.ready_list.Perm k.ready_list
  all_list : k'.all_list = k.all_list
  sleep_list : k'.sleep_list = k.sleep_list
  idle : k'.idle_thread = k.idle_thread
  initial : k'.initial_thread = k.initial_thread
  ticks : k'.ticks = k.ticks
  interrupt : k'.intr_level = k.intr_level ∧ k'.in_external_intr = k.in_external_intr ∧
    k'.yield_on_return = k.yield_on_return
  arrivals : k'.arrivals = k.arrivals
  sema : k'.sema = k.sema
  holder : k'.holder = k.holder
  cond_waiters : k'.cond_waiters = k.cond_waiters
  magic : ∀ t, (k'.threads t).magic = (k.threads t).magic
  status : ∀ t, (k'.threads t).status = (k.threads t).status
  code : ∀ t, (k'.threads t).code = (k.threads t).code
  alarm_ticks : ∀ t, (k'.threads t).alarm_ticks = (k.threads t).alarm_ticks
  arrival : ∀ t, (k'.threads t).arrival = (k.threads t).arrival

theorem Calm.refl (k : Kernel) : Calm k k :=
  ⟨⟨rfl, rfl⟩, rfl, rfl, .refl _, rfl, rfl, rfl, rfl, rfl, ⟨rfl, rfl, rfl⟩, rfl, rfl, rfl, rfl,
    fun _ => rfl, fun _ => rfl,
    fun _ => rfl, fun _ => rfl, fun _ => rfl⟩

theorem Calm.trans {k'' : Kernel} (h : Calm k k') (h' : Calm k' k'') : Calm k k'' where
  modes := ⟨h'.modes.1.trans h.modes.1, h'.modes.2.trans h.modes.2⟩
  used := h'.used.trans h.used
  current := h'.current.trans h.current
  ready_list := h'.ready_list.trans h.ready_list
  all_list := h'.all_list.trans h.all_list
  sleep_list := h'.sleep_list.trans h.sleep_list
  idle := h'.idle.trans h.idle
  initial := h'.initial.trans h.initial
  ticks := h'.ticks.trans h.ticks
  interrupt := ⟨h'.interrupt.1.trans h.interrupt.1, h'.interrupt.2.1.trans h.interrupt.2.1,
    h'.interrupt.2.2.trans h.interrupt.2.2⟩
  arrivals := h'.arrivals.trans h.arrivals
  sema := h'.sema.trans h.sema
  holder := h'.holder.trans h.holder
  cond_waiters := h'.cond_waiters.trans h.cond_waiters
  magic t := (h'.magic t).trans (h.magic t)
  status t := (h'.status t).trans (h.status t)
  code t := (h'.code t).trans (h.code t)
  alarm_ticks t := (h'.alarm_ticks t).trans (h.alarm_ticks t)
  arrival t := (h'.arrival t).trans (h.arrival t)

/-- The record of a thread changes in its accounting and priority. -/
theorem Calm.update (k : Kernel) (t : ThreadId) (f : Thread → Thread)
    (hmagic : ∀ th, (f th).magic = th.magic) (hstatus : ∀ th, (f th).status = th.status)
    (hcode : ∀ th, (f th).code = th.code) (halarm : ∀ th, (f th).alarm_ticks = th.alarm_ticks)
    (harrival : ∀ th, (f th).arrival = th.arrival) : Calm k (k.update t f) := by
  refine ⟨⟨rfl, rfl⟩, rfl, rfl, .refl _, rfl, rfl, rfl, rfl, rfl, ⟨rfl, rfl, rfl⟩, rfl, rfl, rfl, rfl,
    ?_, ?_, ?_, ?_, ?_⟩ <;>
  · intro u
    by_cases hu : u = t <;> simp_all

/-- Updates of several threads, one after the other. -/
theorem Calm.foldl (f : Kernel → ThreadId → Kernel) (hf : ∀ k t, Calm k (f k t)) (l : List ThreadId)
    (k : Kernel) : Calm k (l.foldl f k) := by
  induction l generalizing k with
  | nil => exact .refl k
  | cons t l ih => exact (hf k t).trans (ih _)

/-! ## The stages of the handler -/

/-- The state in which the handler looks for sleepers to wake. -/
def tick_start (k : Kernel) : Kernel :=
  { k with
    intr_level := .INTR_OFF
    in_external_intr := true
    yield_on_return := decide ((k.thread_ticks + 1) % 2 ^ 32 ≥ TIME_SLICE)
    thread_ticks := (k.thread_ticks + 1) % 2 ^ 32
    ticks := k.ticks + 1 }

/-- The first sleeper is taken off and made ready. -/
def wake_first (k : Kernel) (t : ThreadId) : Kernel :=
  make_ready { k with sleep_list := k.sleep_list.erase t } t

/-- `thread_priority_aging` without its test for a yield. -/
def aged (k : Kernel) : Kernel := k.ready_list.foldl (fun k t => k.update t age) k

/-- `update_periodic_recent_cpu` past its sanity checks. -/
def charged (k : Kernel) : Kernel :=
  if k.idle_thread ≠ some k.current then
    k.update k.current fun th => { th with recent_cpu := fp_add_int th.recent_cpu 1 }
  else k

/-- `update_load_avg` and `update_recent_cpu`. -/
def decayed (k : Kernel) : Kernel :=
  update_recent_cpu { k with
    load_avg := new_load_avg k.load_avg
      (int32 (k.ready_list.length + if k.idle_thread = some k.current then 0 else 1)) }

/-- The loop of `update_priority`. -/
def recomputed (k : Kernel) : Kernel := k.all_list.foldl (fun k t => k.update t recompute) k

/-- The sorting of `ready_list` in `update_priority`. -/
def sorted (k : Kernel) : Kernel :=
  { k with ready_list := list_sort (priority_comp k) k.ready_list }

/-- The accounting of `mlfqs_tick`, without the priorities. -/
def spent (k : Kernel) : Kernel :=
  if k.ticks % TIMER_FREQ = 0 then decayed (charged k) else charged k

/-- `mlfqs_tick` without its tests for a yield. -/
def mlfqs_updated (k : Kernel) : Kernel :=
  if k.ticks % 4 = 0 then sorted (recomputed (spent k)) else spent k

/-- `aging_tick` without its test for a yield. -/
def ripened (k : Kernel) : Kernel := if k.thread_prior_aging then aged k else k

/-- The accounting of a tick after the sleepers have been woken. -/
def accounted (k : Kernel) : Kernel :=
  if k.thread_mlfqs then mlfqs_updated (ripened k) else ripened k

theorem charged_calm (k : Kernel) : Calm k (charged k) := by
  unfold charged
  split
  · exact .update k _ _ (fun _ => rfl) (fun _ => rfl) (fun _ => rfl) (fun _ => rfl) fun _ => rfl
  · exact .refl k

theorem aged_calm (k : Kernel) : Calm k (aged k) :=
  .foldl _ (fun k t => .update k t age (fun _ => rfl) (fun _ => rfl) (fun _ => rfl) (fun _ => rfl)
    fun _ => rfl) _ k

theorem recomputed_calm (k : Kernel) : Calm k (recomputed k) :=
  .foldl _ (fun k t => .update k t recompute (fun _ => rfl) (fun _ => rfl) (fun _ => rfl) (fun _ => rfl)
    fun _ => rfl) _ k

theorem decay_calm (k : Kernel) (t : ThreadId) : Calm k (decay k t) := by
  unfold decay
  split
  · exact .update k t _ (fun _ => rfl) (fun _ => rfl) (fun _ => rfl) (fun _ => rfl) fun _ => rfl
  · exact .refl k

theorem decayed_calm (k : Kernel) : Calm k (decayed k) := by
  unfold decayed update_recent_cpu
  refine Calm.trans ?_ (.foldl _ decay_calm _ _)
  exact ⟨⟨rfl, rfl⟩, rfl, rfl, .refl _, rfl, rfl, rfl, rfl, rfl, ⟨rfl, rfl, rfl⟩, rfl, rfl, rfl, rfl,
    fun _ => rfl, fun _ => rfl,
    fun _ => rfl, fun _ => rfl, fun _ => rfl⟩

theorem priority_comp_strict (k : Kernel) : StrictWeak (priority_comp k) :=
  .of_key (β := Intᵒᵈ) fun _ _ => decide_eq_true_iff

theorem sorted_calm (k : Kernel) : Calm k (sorted k) :=
  ⟨⟨rfl, rfl⟩, rfl, rfl, list_sort_perm (priority_comp_strict k) _, rfl, rfl, rfl, rfl, rfl,
    ⟨rfl, rfl, rfl⟩, rfl, rfl, rfl, rfl,
    fun _ => rfl, fun _ => rfl, fun _ => rfl, fun _ => rfl, fun _ => rfl⟩

theorem spent_calm (k : Kernel) : Calm k (spent k) := by
  unfold spent
  split
  · exact (charged_calm k).trans (decayed_calm _)
  · exact charged_calm k

theorem mlfqs_updated_calm (k : Kernel) : Calm k (mlfqs_updated k) := by
  unfold mlfqs_updated
  split
  · exact (spent_calm k).trans ((recomputed_calm _).trans (sorted_calm _))
  · exact spent_calm k

theorem ripened_calm (k : Kernel) : Calm k (ripened k) := by
  unfold ripened
  split
  · exact aged_calm k
  · exact .refl k

theorem accounted_calm (k : Kernel) : Calm k (accounted k) := by
  unfold accounted
  split
  · exact (ripened_calm k).trans (mlfqs_updated_calm _)
  · exact ripened_calm k

/-- Only the accounting of threads changes, neither ranks nor the run queue. -/
structure Accounts (k k' : Kernel) : Prop where
  ready_list : k'.ready_list = k.ready_list
  priority : ∀ t, (k'.threads t).priority = (k.threads t).priority

theorem Accounts.trans {k'' : Kernel} (h : Accounts k k') (h' : Accounts k' k'') : Accounts k k'' where
  ready_list := h'.ready_list.trans h.ready_list
  priority t := (h'.priority t).trans (h.priority t)

theorem Accounts.update (k : Kernel) (t : ThreadId) (f : Thread → Thread)
    (hpriority : ∀ th, (f th).priority = th.priority) : Accounts k (k.update t f) where
  ready_list := rfl
  priority u := by by_cases hu : u = t <;> simp [hu, hpriority]

theorem charged_accounts (k : Kernel) : Accounts k (charged k) := by
  unfold charged
  split
  · exact .update k _ _ fun _ => rfl
  · exact ⟨rfl, fun _ => rfl⟩

theorem decayed_accounts (k : Kernel) : Accounts k (decayed k) := by
  have hdecay (k : Kernel) (t : ThreadId) : Accounts k (decay k t) := by
    unfold decay
    split
    · exact .update k t _ fun _ => rfl
    · exact ⟨rfl, fun _ => rfl⟩
  have hfold (l : List ThreadId) (k : Kernel) : Accounts k (l.foldl decay k) := by
    induction l generalizing k with
    | nil => exact ⟨rfl, fun _ => rfl⟩
    | cons t l ih => exact (hdecay k t).trans (ih _)
  unfold decayed update_recent_cpu
  refine Accounts.trans ?_ (hfold _ _)
  exact ⟨rfl, fun _ => rfl⟩

theorem spent_accounts (k : Kernel) : Accounts k (spent k) := by
  unfold spent
  split
  · exact (charged_accounts k).trans (decayed_accounts _)
  · exact charged_accounts k

/-- Updating the threads of a list one after the other updates each of them. -/
theorem foldl_update (f : Thread → Thread) {l : List ThreadId} (hl : l.Nodup) (k : Kernel) :
    l.foldl (fun k t => k.update t f) k =
      { k with threads := fun u => if u ∈ l then f (k.threads u) else k.threads u } := by
  induction l generalizing k with
  | nil => simp
  | cons t l ih =>
    obtain ⟨ht, hl⟩ := List.nodup_cons.mp hl
    rw [List.foldl_cons, ih hl]
    simp only [Kernel.update, List.mem_cons, Kernel.mk.injEq, and_self, and_true, true_and]
    funext u
    by_cases hu : u = t
    · simp [hu, ht]
    · simp [hu]

/-! ## The handler -/

/-- A property of the kernel that waking the first sleeper keeps holds after
`thread_alarm_loop`, which leaves only sleepers whose time has not come. -/
theorem thread_alarm_loop_induct {ticks : Int} {P : Kernel → Prop}
    (hwake : ∀ k t l, P k → k.sleep_list = t :: l → (k.threads t).alarm_ticks ≤ ticks → is_thread k t →
      (k.threads t).status = .THREAD_BLOCKED → P (wake_first k t))
    (h : thread_alarm_loop ticks k.sleep_list k = .ok k') (hk : P k) :
    P k' ∧ ∀ t ∈ k'.sleep_list.head?, ticks < (k'.threads t).alarm_ticks := by
  generalize hl : k.sleep_list = l at h
  induction l generalizing k with
  | nil =>
    rw [thread_alarm_loop, ok_eq_ok] at h
    rw [h, hl]
    exact ⟨hk, by simp⟩
  | cons t l ih =>
    rw [thread_alarm_loop] at h
    split at h
    · rename_i hlt
      rw [ok_eq_ok] at h
      rw [h, hl]
      refine ⟨hk, fun u hu => ?_⟩
      obtain rfl : t = u := by simpa using hu
      exact hlt
    · rename_i hle
      obtain ⟨k₁, hk₁, hloop⟩ := bind_eq_ok_iff.mp h
      obtain ⟨hthread, hstatus, rfl⟩ := thread_unblock_ok.mp hk₁
      refine ih (hwake k t l hk hl (by omega) hthread hstatus) ?_ hloop
      change k.sleep_list.erase t = l
      rw [hl, List.erase_cons_head]

theorem intr_yield_on_return_ok :
    intr_yield_on_return k = .ok k' ↔
      k.in_external_intr = true ∧ k' = { k with yield_on_return := true } := by
  rw [intr_yield_on_return, ASSERT_bind_ok, ok_eq_ok]

theorem yield_if_outranked_ok (h : yield_if_outranked k = .ok k') (hy : k.yield_on_return = true) :
    k' = k := by
  have hsame : ({ k with yield_on_return := true } : Kernel) = k := by rw [← hy]
  unfold yield_if_outranked at h
  split at h
  · rw [ok_eq_ok] at h
    exact h
  · rw [thread_current_bind_ok] at h
    obtain ⟨-, -, h⟩ := h
    split at h
    · exact (intr_yield_on_return_ok.mp h).2.trans hsame
    · rw [ok_eq_ok] at h
      exact h

theorem thread_alarm_ok {ticks : Int} :
    thread_alarm k ticks = .ok k' ↔ ∃ k₁, thread_alarm_loop ticks k.sleep_list k = .ok k₁ ∧
      k₁.in_external_intr = true ∧ k' = { k₁ with yield_on_return := true } := by
  rw [thread_alarm, bind_eq_ok_iff]
  simp only [intr_yield_on_return_ok]

theorem update_periodic_recent_cpu_ok (h : update_periodic_recent_cpu k = .ok k') :
    k' = charged k := by
  rw [update_periodic_recent_cpu, thread_current_bind_ok] at h
  obtain ⟨-, -, h⟩ := h
  unfold charged
  by_cases hidle : k.idle_thread ≠ some k.current
  · rw [if_pos hidle, ok_eq_ok] at h
    rw [if_pos hidle, h]
  · rw [if_neg hidle, ok_eq_ok] at h
    rw [if_neg hidle, h]

theorem update_load_avg_ok (h : update_load_avg k = .ok k') : update_recent_cpu k' = decayed k := by
  rw [update_load_avg, thread_current_bind_ok] at h
  obtain ⟨-, -, h⟩ := h
  rw [ok_eq_ok] at h
  rw [h, decayed]

theorem mlfqs_second_ok (h : mlfqs_second (charged k) = .ok k') : k' = spent k := by
  rw [mlfqs_second, (charged_calm k).ticks] at h
  unfold spent
  by_cases hsecond : k.ticks % TIMER_FREQ = 0
  · rw [if_pos hsecond] at h ⊢
    obtain ⟨k₁, hk₁, h⟩ := bind_eq_ok_iff.mp h
    rw [← update_load_avg_ok hk₁]
    exact ok_eq_ok.mp h
  · rw [if_neg hsecond] at h ⊢
    exact ok_eq_ok.mp h

theorem mlfqs_tick_ok (h : mlfqs_tick k = .ok k') (hy : k.yield_on_return = true) :
    k' = mlfqs_updated k := by
  obtain ⟨k₁, hk₁, h⟩ := bind_eq_ok_iff.mp h
  obtain rfl := update_periodic_recent_cpu_ok hk₁
  obtain ⟨k₂, hk₂, h⟩ := bind_eq_ok_iff.mp h
  obtain rfl := mlfqs_second_ok hk₂
  rw [(spent_calm k).ticks] at h
  unfold mlfqs_updated
  by_cases hfour : k.ticks % 4 = 0
  · rw [if_pos hfour] at h ⊢
    refine yield_if_outranked_ok h ?_
    exact ((spent_calm k).trans (recomputed_calm _)).interrupt.2.2.trans hy
  · rw [if_neg hfour, ok_eq_ok] at h
    rw [if_neg hfour, h]

theorem aging_tick_ok (h : aging_tick k = .ok k') (hy : k.yield_on_return = true) :
    k' = ripened k := by
  unfold aging_tick at h
  unfold ripened
  by_cases haging : k.thread_prior_aging
  · rw [if_pos haging] at h ⊢
    exact yield_if_outranked_ok h ((aged_calm k).interrupt.2.2.trans hy)
  · rw [if_neg haging, ok_eq_ok] at h
    rw [if_neg haging, h]

/-- The state of the handler when `thread_tick` has returned. -/
theorem thread_tick_ok (h : thread_tick { k with
    intr_level := .INTR_OFF
    in_external_intr := true
    yield_on_return := false
    ticks := k.ticks + 1 } = .ok k') : k' = tick_start k := by
  rw [thread_tick, thread_current_bind_ok] at h
  obtain ⟨-, -, h⟩ := h
  simp only at h
  by_cases hslice : (k.thread_ticks + 1) % 2 ^ 32 ≥ TIME_SLICE
  · rw [if_pos hslice] at h
    rw [(intr_yield_on_return_ok.mp h).2, tick_start, decide_eq_true hslice]
  · rw [if_neg hslice, ok_eq_ok] at h
    rw [h, tick_start, decide_eq_false hslice]

/-- The handler as a whole; as the alarm always asks for it, the interrupted
thread yields. -/
theorem intr_handler_ok (h : intr_handler k = .ok k') :
    ∃ k₁, thread_alarm_loop (k.ticks + 1) k.sleep_list (tick_start k) = .ok k₁ ∧
      k₁.in_external_intr = true ∧
      k' = ({ accounted { k₁ with yield_on_return := true } with in_external_intr := false } :
        Kernel).push [.thread_yield, .intr_set_level .INTR_ON, .ret .timer_interrupt] := by
  rw [intr_handler, ASSERT_bind_ok] at h
  obtain ⟨-, h⟩ := h
  obtain ⟨k₃, hk₃, h⟩ := bind_eq_ok_iff.mp h
  obtain ⟨k₁, hk₁, hk₃⟩ := bind_eq_ok_iff.mp hk₃
  obtain ⟨k₂, hk₂, hk₃⟩ := bind_eq_ok_iff.mp hk₃
  obtain rfl := thread_tick_ok hk₁
  obtain ⟨k₁, hloop, hext, rfl⟩ := thread_alarm_ok.mp hk₂
  refine ⟨k₁, hloop, hext, ?_⟩
  obtain ⟨k₄, hk₄, hk₃⟩ := bind_eq_ok_iff.mp hk₃
  obtain rfl := aging_tick_ok hk₄ rfl
  have hcalm := ripened_calm { k₁ with yield_on_return := true }
  have hk₃ : k₃ = accounted { k₁ with yield_on_return := true } := by
    unfold accounted
    rw [hcalm.modes.1] at hk₃
    by_cases hmlfqs : k₁.thread_mlfqs
    · rw [if_pos hmlfqs] at hk₃ ⊢
      exact mlfqs_tick_ok hk₃ hcalm.interrupt.2.2
    · rw [if_neg hmlfqs, ok_eq_ok] at hk₃
      rw [if_neg hmlfqs, hk₃]
  have hyield : k₃.yield_on_return = true := by
    rw [hk₃]
    exact (accounted_calm _).interrupt.2.2
  rw [ok_eq_ok, if_pos hyield] at h
  rw [h, hk₃]

end pintos.prj3
