import Pintos.Prj3.Wakeup

/-!
# The run queue is in order of priority

Three writers touch the order of `ready_list`: ordered insertion, aging, and
the recomputation followed by `list_sort`. Aging keeps the order unless it
carries the priority of some ready threads, but not of all, past `INT_MAX`.
-/

open twos_complement strict_weak pintos.kernel transition placement

namespace pintos.prj3

variable {k k' k₁ : Kernel} {t : ThreadId}

/-! ## Priorities are ints -/

theorem isInt_age (th : Thread) : IsInt (age th).priority := by
  unfold age
  simp only
  split
  · simp [IsInt, PRI_MAX, INT_MAX]
  · exact isInt_int32 _

theorem isInt_new_priority (recent_cpu nice : Int) : IsInt (new_priority recent_cpu nice) := by
  obtain ⟨hlow, hhigh⟩ := new_priority_range recent_cpu nice
  simp only [PRI_MIN, PRI_MAX] at hlow hhigh
  exact ⟨by omega, by simp only [INT_MAX]; omega⟩

/-- Updates of several threads that leave an `int` in each priority. -/
theorem foldl_isInt {f : Thread → Thread} (hf : ∀ th, IsInt (f th).priority) (l : List ThreadId)
    (hk : ∀ t, IsInt (k.threads t).priority) (t : ThreadId) :
    IsInt ((l.foldl (fun k t => k.update t f) k).threads t).priority := by
  induction l generalizing k with
  | nil => exact hk t
  | cons u l ih =>
    refine ih fun v => ?_
    by_cases hv : v = u
    · simpa [hv] using hf _
    · simpa [hv] using hk v

theorem Accounts.isInt (h : Accounts k k') (hk : ∀ t, IsInt (k.threads t).priority) (t : ThreadId) :
    IsInt (k'.threads t).priority := by
  rw [h.priority]
  exact hk t

theorem ripened_isInt (hk : ∀ t, IsInt (k.threads t).priority) (t : ThreadId) :
    IsInt ((ripened k).threads t).priority := by
  unfold ripened
  split
  · exact foldl_isInt isInt_age _ hk t
  · exact hk t

theorem accounted_isInt (hk : ∀ t, IsInt (k.threads t).priority) (t : ThreadId) :
    IsInt ((accounted k).threads t).priority := by
  have hspent := (spent_accounts (ripened k)).isInt (ripened_isInt hk)
  unfold accounted mlfqs_updated
  split
  · split
    · exact foldl_isInt (f := recompute) (fun _ => isInt_new_priority _ _) _ hspent t
    · exact hspent t
  · exact ripened_isInt hk t

theorem Wf.step_isInt {l : Label} (h : Wf k) (hs : prj3.step k l = some k')
    (hk : ∀ t, IsInt (k.threads t).priority) (t : ThreadId) : IsInt (k'.threads t).priority := by
  by_cases hl : l = .timer
  · subst hl
    obtain ⟨hon, he⟩ := step_ok hs
    obtain ⟨k₁, -, hw, -, -, rfl⟩ := h.tick hon he
    rw [(leave_interrupt_keys _ t).priority]
    refine accounted_isInt (fun t => ?_) t
    rw [hw.priority]
    exact hk t
  · rcases (h.step_effect hl hs).priority t with hp | hp
    · rw [hp]
      exact hk t
    · exact hp

theorem reachable_isInt (h : kernel.Reachable k) (t : ThreadId) : IsInt (k.threads t).priority := by
  refine h.invariant (I := fun k => ∀ t, IsInt (k.threads t).priority) (fun s hs t => ?_)
    (fun s l s' hr hk hs => (reachable_wf hr).step_isInt hs hk) t
  obtain ⟨mlfqs, aging, t₀, rfl⟩ := hs
  by_cases ht : t = t₀ <;> simp [boot, ht, Thread.zero, IsInt, INT_MAX, PRI_DEFAULT]

/-! ## Aging and recomputation -/

theorem ordered_priority {l : List ThreadId} : Ordered (priority_comp k) l ↔
    l.Pairwise fun a b => (k.threads b).priority ≤ (k.threads a).priority := by
  simp [Ordered, priority_comp]

/-- Aging two priorities keeps their order, if neither overflows. -/
theorem age_mono {th th' : Thread} (hth : IsInt th.priority) (hth' : IsInt th'.priority)
    (hmax : th'.priority ≠ INT_MAX) (hle : th.priority ≤ th'.priority) :
    (age th).priority ≤ (age th').priority := by
  obtain ⟨hlow, hhigh⟩ := hth
  obtain ⟨hlow', hhigh'⟩ := hth'
  simp only [INT_MAX] at *
  simp only [age, PRI_MAX]
  rw [int32_of_range (by omega) (by omega), int32_of_range (by omega) (by omega)]
  split_ifs <;> omega

theorem foldl_ready_list (f : Thread → Thread) (l : List ThreadId) (k : Kernel) :
    (l.foldl (fun k t => k.update t f) k).ready_list = k.ready_list := by
  induction l generalizing k with
  | nil => rfl
  | cons t l ih => exact ih (k.update t f)

theorem aged_ready_list (k : Kernel) : (aged k).ready_list = k.ready_list :=
  foldl_ready_list age k.ready_list k

/-- Each thread in `ready_list` has aged. -/
theorem aged_comp (hnodup : k.ready_list.Nodup) {a b : ThreadId} (ha : a ∈ k.ready_list)
    (hb : b ∈ k.ready_list) : priority_comp (aged k) a b =
      decide ((age (k.threads a)).priority > (age (k.threads b)).priority) := by
  rw [aged, foldl_update _ hnodup]
  simp [priority_comp, ha, hb]

theorem aged_ordered (hnodup : k.ready_list.Nodup) (hint : ∀ t, IsInt (k.threads t).priority)
    (ho : Ordered (priority_comp k) k.ready_list)
    (hmax : (∀ t ∈ k.ready_list, (k.threads t).priority ≠ INT_MAX) ∨
      ∀ t ∈ k.ready_list, (k.threads t).priority = INT_MAX) :
    Ordered (priority_comp (aged k)) (aged k).ready_list := by
  rw [aged_ready_list]
  refine ho.congr fun a ha b hb hab => ?_
  simp only [priority_comp, gt_iff_lt, decide_eq_false_iff_not, not_lt] at hab
  rw [aged_comp hnodup hb ha]
  simp only [gt_iff_lt, decide_eq_false_iff_not, not_lt]
  rcases hmax with hmax | hmax
  · exact age_mono (hint b) (hint a) (hmax a ha) hab
  · simp [age, hmax a ha, hmax b hb]

/-- Aging that overflows the priorities of some of the ready threads breaks the order. -/
theorem aged_not_ordered (hnodup : k.ready_list.Nodup) (hint : ∀ t, IsInt (k.threads t).priority)
    (ho : Ordered (priority_comp k) k.ready_list) {a b : ThreadId} (ha : a ∈ k.ready_list)
    (hb : b ∈ k.ready_list) (hmax : (k.threads a).priority = INT_MAX)
    (hne : (k.threads b).priority ≠ INT_MAX) :
    ¬ Ordered (priority_comp (aged k)) (aged k).ready_list := by
  intro ho'
  obtain ⟨hlow, hhigh⟩ := hint b
  have hlt : priority_comp k a b = true := by
    simp only [priority_comp, gt_iff_lt, decide_eq_true_eq]
    omega
  have hle := ho.agree (priority_comp_strict k) (aged_ready_list k ▸ ho') ha hb hlt
  rw [aged_comp hnodup hb ha] at hle
  -- the sum is `INT_MIN`, and the other thread's is larger
  simp only [INT_MAX] at *
  simp only [age, hmax, PRI_MAX, show int32 (2147483647 + 1) = -2147483648 by decide, gt_iff_lt,
    decide_eq_false_iff_not, not_lt] at hle
  rw [int32_of_range (by omega) (by omega)] at hle
  split_ifs at hle <;> omega

theorem Accounts.ordered (h : Accounts k k') (ho : Ordered (priority_comp k) k.ready_list) :
    Ordered (priority_comp k') k'.ready_list := by
  rw [priority_comp_congr h.priority, h.ready_list]
  exact ho

/-- The threads in the run queue when the next tick has woken the sleepers. -/
def run_queue (k : Kernel) : List ThreadId := due k ++ k.ready_list

/-- At the tick, aging overflows no priority of a thread in the run queue or
overflows all of them, or the run queue is sorted afterwards. -/
def KeepsOrder (k : Kernel) (l : Label) : Prop :=
  l = .timer → k.thread_prior_aging = true →
    (k.thread_mlfqs = true ∧ (k.ticks + 1) % 4 = 0) ∨
    (∀ t ∈ run_queue k, (k.threads t).priority ≠ INT_MAX) ∨
    ∀ t ∈ run_queue k, (k.threads t).priority = INT_MAX

instance (k : Kernel) (l : Label) : Decidable (KeepsOrder k l) :=
  inferInstanceAs (Decidable (_ → _ → _ ∨ _ ∨ _))

theorem Waking.mem_ready (h : Waking k k₁ (due k)) : t ∈ k₁.ready_list ↔ t ∈ run_queue k :=
  h.ready_list.mem_iff

theorem accounted_ordered (hnodup : k₁.ready_list.Nodup) (hint : ∀ t, IsInt (k₁.threads t).priority)
    (hw : Waking k k₁ (due k)) (hkeeps : KeepsOrder k .timer)
    (ho : Ordered (priority_comp k₁) k₁.ready_list) :
    Ordered (priority_comp (accounted k₁)) (accounted k₁).ready_list := by
  have hripened : ¬ (k₁.thread_mlfqs = true ∧ k₁.ticks % 4 = 0) →
      Ordered (priority_comp (ripened k₁)) (ripened k₁).ready_list := by
    intro hsort
    rw [hw.modes.1, hw.ticks] at hsort
    unfold ripened
    split
    · rename_i haging
      refine aged_ordered hnodup hint ho ?_
      rw [hw.modes.2] at haging
      refine ((hkeeps rfl haging).resolve_left hsort).imp (fun h t ht => ?_) fun h t ht => ?_
      · rw [hw.priority]
        exact h t (hw.mem_ready.mp ht)
      · rw [hw.priority]
        exact h t (hw.mem_ready.mp ht)
    · exact ho
  unfold accounted mlfqs_updated
  have hticks : (ripened k₁).ticks = k₁.ticks := (ripened_calm k₁).ticks
  split
  · rename_i hmlfqs
    split
    · exact list_sort_ordered (priority_comp_strict _) _
    · rename_i hfour
      refine (spent_accounts _).ordered (hripened fun h => hfour ?_)
      rw [hticks]
      exact h.2
  · rename_i hmlfqs
    exact hripened fun h => hmlfqs h.1

theorem accounted_not_ordered (hnodup : k₁.ready_list.Nodup) (hint : ∀ t, IsInt (k₁.threads t).priority)
    (hw : Waking k k₁ (due k)) (hkeeps : ¬ KeepsOrder k .timer)
    (ho : Ordered (priority_comp k₁) k₁.ready_list) :
    ¬ Ordered (priority_comp (accounted k₁)) (accounted k₁).ready_list := by
  simp only [KeepsOrder, forall_const, Classical.not_imp, not_or, not_and, not_forall, not_not] at hkeeps
  obtain ⟨haging, hsort, ⟨a, ha, hmax⟩, b, hb, hne⟩ := hkeeps
  rw [← hw.modes.1, ← hw.ticks] at hsort
  rw [← hw.modes.2] at haging
  rw [← hw.priority] at hmax hne
  have hripened : ripened k₁ = aged k₁ := by rw [ripened, if_pos haging]
  have hbroken := aged_not_ordered hnodup hint ho (hw.mem_ready.mpr ha) (hw.mem_ready.mpr hb) hmax hne
  unfold accounted mlfqs_updated
  rw [(ripened_calm k₁).ticks]
  split
  · rename_i hmlfqs
    have haccounts := spent_accounts (ripened k₁)
    rw [if_neg (hsort hmlfqs), haccounts.ready_list, priority_comp_congr haccounts.priority, hripened]
    exact hbroken
  · rw [hripened]
    exact hbroken

/-- A step from a state whose run queue is in order keeps it so exactly when the
tick does. -/
theorem Wf.step_ready_ordered {l : Label} (h : Wf k) (hint : ∀ t, IsInt (k.threads t).priority)
    (hs : prj3.step k l = some k') (ho : Ordered (priority_comp k) k.ready_list) :
    Ordered (priority_comp k') k'.ready_list ↔ KeepsOrder k l := by
  by_cases hl : l = .timer
  · subst hl
    obtain ⟨hon, he⟩ := step_ok hs
    obtain ⟨k₁, hw₁, hw, ho₁, -, rfl⟩ := h.tick hon he
    have hint₁ : ∀ t, IsInt (k₁.threads t).priority := fun t => by
      rw [hw.priority]
      exact hint t
    have hnodup := hw₁.settled.queues.nodup .ready
    rw [priority_comp_congr fun t => (leave_interrupt_keys _ t).priority]
    refine ⟨fun ho' => ?_, fun hkeeps => accounted_ordered hnodup hint₁ hw hkeeps (ho₁ .ready ho)⟩
    by_contra hkeeps
    exact accounted_not_ordered hnodup hint₁ hw hkeeps (ho₁ .ready ho) ho'
  · refine iff_of_true ((h.step_shifts (q := .ready) hl hs).ordered ho) fun ht => ?_
    exact absurd ht hl

/-- In a run whose ticks keep the order, the run queue is in order. -/
theorem reachable_ready_ordered (h : (kernel.restrict KeepsOrder).Reachable k) :
    Ordered (priority_comp k) k.ready_list :=
  h.restrict_invariant (I := fun k => Ordered (priority_comp k) k.ready_list)
    (fun s hs => by
      obtain ⟨mlfqs, aging, t₀, rfl⟩ := hs
      exact List.Pairwise.nil)
    fun _ _ _ hr ho hkeeps hs =>
      ((reachable_wf hr).step_ready_ordered (reachable_isInt hr) hs ho).mpr hkeeps

/-! ## First in, first out -/

theorem Wf.step_modes {l : Label} (h : Wf k) (hs : prj3.step k l = some k') :
    k'.thread_mlfqs = k.thread_mlfqs ∧ k'.thread_prior_aging = k.thread_prior_aging := by
  by_cases hl : l = .timer
  · subst hl
    obtain ⟨hon, he⟩ := step_ok hs
    obtain ⟨k₁, -, hw, -, -, rfl⟩ := h.tick hon he
    have hcalm := (accounted_calm k₁).modes
    exact ⟨hcalm.1.trans hw.modes.1, hcalm.2.trans hw.modes.2⟩
  · exact (h.step_effect hl hs).modes

/-- Without aging and mlfqs, one step keeps the order of arrival. -/
theorem Wf.step_fifo {l : Label} (h : Wf k) (hmlfqs : k.thread_mlfqs = false)
    (haging : k.thread_prior_aging = false) (hs : prj3.step k l = some k') (hf : Fifo k) : Fifo k' := by
  by_cases hl : l = .timer
  · subst hl
    obtain ⟨hon, he⟩ := step_ok hs
    obtain ⟨k₁, -, hw, -, hf₁, rfl⟩ := h.tick hon he
    have hsame : accounted k₁ = k₁ := by
      have hm := hw.modes
      simp [accounted, ripened, hm.1, hm.2, hmlfqs, haging]
    rw [hsame]
    have hkeys := leave_interrupt_keys k₁
    refine ⟨(hf₁ hf).before.imp fun {a b} hab => ?_, fun t ht => ?_⟩
    · exact ((hkeys a).before (hkeys b)).mpr hab
    · rw [(hkeys t).arrival]
      exact (hf₁ hf).arrived t ht
  · exact (h.step_shifts (q := .ready) hl hs).fifo hf

theorem reachable_fifo (h : kernel.Reachable k) (hmlfqs : k.thread_mlfqs = false)
    (haging : k.thread_prior_aging = false) : Fifo k := by
  refine h.invariant (I := fun k => k.thread_mlfqs = false → k.thread_prior_aging = false → Fifo k)
    (fun s hs _ _ => ?_) (fun s l s' hr hf hs hm ha => ?_) hmlfqs haging
  · obtain ⟨mlfqs, aging, t₀, rfl⟩ := hs
    exact ⟨List.Pairwise.nil, by simp [boot]⟩
  · have hmodes := (reachable_wf hr).step_modes hs
    rw [hmodes.1] at hm
    rw [hmodes.2] at ha
    exact (reachable_wf hr).step_fifo hm ha hs (hf hm ha)

/-! ## The order in which threads are picked -/

/-- `ready_list` is in order of priority, `next_thread_to_run` picks a thread of
the highest priority, and without aging and mlfqs it picks, among equals, the
one inserted first. -/
structure ReadyInOrder (k : Kernel) : Prop where
  sorted : k.ready_list.Pairwise fun a b => (k.threads b).priority ≤ (k.threads a).priority
  highest : ∀ next, next_thread_to_run k = some next →
    ∀ t ∈ k.ready_list, (k.threads t).priority ≤ (k.threads next).priority
  inserted_first : k.thread_mlfqs = false → k.thread_prior_aging = false →
    ∀ next, next_thread_to_run k = some next → ∀ t ∈ k.ready_list, t ≠ next →
      (k.threads t).priority = (k.threads next).priority → (k.threads next).arrival < (k.threads t).arrival

/-- The picked thread is related to the rest of `ready_list` as its head is. -/
theorem next_pairwise {R : ThreadId → ThreadId → Prop} (h : k.ready_list.Pairwise R) {next : ThreadId}
    (hnext : next_thread_to_run k = some next) (ht : t ∈ k.ready_list) : t = next ∨ R next t := by
  unfold next_thread_to_run at hnext
  split at hnext
  · rename_i hempty
    simp [hempty] at ht
  · rename_i u l hcons
    obtain rfl : u = next := by simpa using hnext
    rw [hcons] at ht h
    exact (List.mem_cons.mp ht).imp_right fun ht => (List.pairwise_cons.mp h).1 t ht

theorem ready_in_order_iff (h : kernel.Reachable k) :
    ReadyInOrder k ↔ Ordered (priority_comp k) k.ready_list := by
  refine ⟨fun hr => ordered_priority.mpr hr.sorted, fun ho => ?_⟩
  have hsorted := ordered_priority.mp ho
  refine ⟨hsorted, fun next hnext t ht => ?_, fun hmlfqs haging next hnext t ht hne heq => ?_⟩
  · rcases next_pairwise hsorted hnext ht with rfl | hle
    · exact le_rfl
    · exact hle
  · have hbefore := (next_pairwise (reachable_fifo h hmlfqs haging).before hnext ht).resolve_left hne
    rcases hbefore with hlt | ⟨-, hlt⟩
    · omega
    · exact hlt

/-- In a run whose ticks keep the order, every state has its ready threads in
order; the first tick that does not keep it leaves them out of order. -/
theorem ready_in_order (h : (kernel.restrict KeepsOrder).Reachable k) :
    ReadyInOrder k ∧ ∀ l k', step k l = some k' → (ReadyInOrder k' ↔ KeepsOrder k l) := by
  have hr := h.of_restrict
  have ho := reachable_ready_ordered h
  refine ⟨(ready_in_order_iff hr).mpr ho, fun l k' hs => ?_⟩
  rw [ready_in_order_iff (hr.step hs)]
  exact (reachable_wf hr).step_ready_ordered (reachable_isInt hr) hs ho

/-- `main` creates two threads of lowest priority on pages 2 and 3. -/
def create_two : List Label :=
  .call (.thread_create PRI_MIN) :: (.replicate 8 (.next ⟨some 2, 0⟩) ++ .replicate 33 (.next ⟨none, 0⟩)) ++
    .call (.thread_create PRI_MIN) :: (.replicate 8 (.next ⟨some 3, 0⟩) ++ .replicate 33 (.next ⟨none, 0⟩))

/-- `main` sets its priority and sleeps until the next tick, which comes while
thread 2 runs. -/
def sleep_one_tick (new_priority : Int) : List Label :=
  .call (.thread_set_priority new_priority) :: .replicate 4 (.next ⟨none, 0⟩) ++
    .call (.timer_sleep 1) :: .replicate 4 (.next ⟨none, 0⟩) ++ [.timer]

/-- The theorem at a tick of the aging scheduler, with three threads. -/
theorem ready_in_order_at_tick : ∃ k,
    (k.ready_list.map fun t => (t, (k.threads t).priority)) = [(0, 63), (3, 1)] ∧ ReadyInOrder k := by
  obtain ⟨k, hrun, hready⟩ := exists_of_any
    (checked (fun k l => decide (KeepsOrder k l)) step) (boot false true 0)
    (start_up ++ create_two ++ sleep_one_tick PRI_MAX)
    (fun k => (k.ready_list.map fun t => (t, (k.threads t).priority)) = [(0, 63), (3, 1)])
    (by decide +kernel)
  have hreach : (kernel.restrict KeepsOrder).Reachable k :=
    runLabels_checked (fun _ _ h => of_decide_eq_true h) ⟨false, true, 0, rfl⟩ hrun
  exact ⟨k, of_decide_eq_true hready, (ready_in_order hreach).1⟩

/-- With priority `INT_MAX`, the woken thread overflows to `INT_MIN` at the head
of `ready_list`. When the interrupt returns it is picked before a thread of
higher priority. -/
theorem ready_order_overflow : ∃ k, kernel.Reachable k ∧ k.intr_level = .INTR_ON ∧
    ¬ (k.ready_list.Pairwise fun a b => (k.threads b).priority ≤ (k.threads a).priority) ∧
    ∃ next t, next_thread_to_run k = some next ∧ t ∈ k.ready_list ∧
      (k.threads next).priority < (k.threads t).priority := by
  obtain ⟨k, hrun, hbad⟩ := exists_of_any step (boot false true 0)
    (start_up ++ create_two ++ sleep_one_tick INT_MAX ++ .replicate 4 (.next ⟨none, 0⟩))
    (fun k => k.intr_level = .INTR_ON ∧ k.ready_list = [0, 3] ∧
      (k.threads 0).priority = -2147483648 ∧ (k.threads 3).priority = 1)
    (by decide +kernel)
  obtain ⟨hon, hready, h0, h3⟩ := of_decide_eq_true hbad
  refine ⟨k, runLabels_reachable ⟨false, true, 0, rfl⟩ hrun, hon, ?_, 0, 3, ?_, ?_, ?_⟩
  · simp [hready, h0, h3]
  · simp [next_thread_to_run, hready]
  · simp [hready]
  · omega

end pintos.prj3
