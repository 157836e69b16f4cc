import Pintos.Prj3.Invariant

/-!
# The order inside the queues

Outside the timer interrupt, a queue changes by losing threads and by ordered
insertion, while the keys of the threads that stay are fixed. Hence every queue
that is in order stays in order.
-/

open twos_complement strict_weak pintos.kernel transition placement

namespace pintos.prj3

variable {k k' k₁ : Kernel} {env : Env} {i : Instr} {rest : List Instr} {t : ThreadId} {q : QueueName}

/-- The comparison function of a queue. -/
def QueueName.less (k : Kernel) : QueueName → ThreadId → ThreadId → Bool
  | .sleep => alarm_ticks_comp k
  | _ => priority_comp k

theorem alarm_ticks_comp_strict (k : Kernel) : StrictWeak (alarm_ticks_comp k) :=
  .of_key fun _ _ => decide_eq_true_iff

theorem less_strict (k : Kernel) (q : QueueName) : StrictWeak (q.less k) := by
  cases q with
  | sleep => exact alarm_ticks_comp_strict k
  | ready => exact priority_comp_strict k
  | wait s => exact priority_comp_strict k

/-- The fields by which queues are ordered are those of another state. -/
structure SameKeys (k k' : Kernel) (t : ThreadId) : Prop where
  priority : (k'.threads t).priority = (k.threads t).priority
  alarm_ticks : (k'.threads t).alarm_ticks = (k.threads t).alarm_ticks
  arrival : (k'.threads t).arrival = (k.threads t).arrival

theorem SameKeys.less {u : ThreadId} (ht : SameKeys k k' t) (hu : SameKeys k k' u) (q : QueueName) :
    q.less k' t u = q.less k t u := by
  cases q <;> simp [QueueName.less, priority_comp, alarm_ticks_comp, ht.priority, hu.priority,
    ht.alarm_ticks, hu.alarm_ticks]

/-- How a queue changes outside the accounting of the timer interrupt. A thread
that enters `ready_list` is given the next arrival number. -/
structure Shifts (k k' : Kernel) (q : QueueName) : Prop where
  keys : ∀ t ∈ k.queue q, t ∈ k'.queue q → SameKeys k k' t
  queue : (k'.queue q).Sublist (k.queue q) ∨
    ∃ t, k'.queue q = list_insert_ordered (q.less k') t (k.queue q) ∧
      (q = .ready → (k'.threads t).arrival = k.arrivals ∧ k'.arrivals = k.arrivals + 1)
  arrivals : k.arrivals ≤ k'.arrivals

/-- A queue in order stays in order. -/
theorem Shifts.ordered (h : Shifts k k' q) (ho : Ordered (q.less k) (k.queue q)) :
    Ordered (q.less k') (k'.queue q) := by
  rcases h.queue with hsub | ⟨t, ht, -⟩
  · have hsub_ordered : Ordered (q.less k) (k'.queue q) := List.Pairwise.sublist hsub ho
    refine hsub_ordered.congr fun a ha b hb hab => ?_
    rw [(h.keys b (hsub.subset hb) hb).less (h.keys a (hsub.subset ha) ha), hab]
  · have hin : ∀ a ∈ k.queue q, a ∈ k'.queue q := fun a ha => by
      rw [ht]
      exact mem_list_insert_ordered.mpr (.inr ha)
    rw [ht]
    refine list_insert_ordered_ordered (less_strict k' q) (ho.congr fun a ha b hb hab => ?_)
    rw [(h.keys b hb (hin b hb)).less (h.keys a ha (hin a ha)), hab]

/-- The order in which ready threads are picked: by priority, and by arrival
among equals. -/
def Before (k : Kernel) (a b : ThreadId) : Prop :=
  (k.threads b).priority < (k.threads a).priority ∨
    (k.threads a).priority = (k.threads b).priority ∧ (k.threads a).arrival < (k.threads b).arrival

/-- Each thread in `ready_list` comes before those behind it. -/
structure Fifo (k : Kernel) : Prop where
  before : k.ready_list.Pairwise (Before k)
  arrived : ∀ t ∈ k.ready_list, (k.threads t).arrival < k.arrivals

theorem SameKeys.before {u : ThreadId} (ht : SameKeys k k' t) (hu : SameKeys k k' u) :
    Before k' t u ↔ Before k t u := by
  rw [Before, Before, ht.priority, hu.priority, ht.arrival, hu.arrival]

theorem Shifts.fifo (h : Shifts k k' .ready) (hf : Fifo k) : Fifo k' := by
  have harrivals := h.arrivals
  rcases h.queue with hsub | ⟨t, ht, hnew⟩
  · refine ⟨?_, fun a ha => ?_⟩
    · refine (List.Pairwise.sublist hsub hf.before).imp_of_mem fun {a b} ha hb hab => ?_
      exact ((h.keys a (hsub.subset ha) ha).before (h.keys b (hsub.subset hb) hb)).mpr hab
    · rw [(h.keys a (hsub.subset ha) ha).arrival]
      exact Nat.lt_of_lt_of_le (hf.arrived a (hsub.subset ha)) harrivals
  · obtain ⟨harrival, hnext⟩ := hnew rfl
    have hin : ∀ a ∈ k.ready_list, a ∈ k'.queue .ready := fun a ha => by
      rw [ht]
      exact mem_list_insert_ordered.mpr (.inr ha)
    have hkeys : ∀ a ∈ k.ready_list, SameKeys k k' a := fun a ha => h.keys a ha (hin a ha)
    refine ⟨?_, fun a ha => ?_⟩
    · have hpairs : k.ready_list.Pairwise (Before k') :=
        hf.before.imp_of_mem fun {a b} ha hb hab => ((hkeys a ha).before (hkeys b hb)).mpr hab
      change (k'.queue .ready).Pairwise (Before k')
      rw [ht]
      refine list_insert_ordered_pairwise (fun e he hless => ?_) (fun e _ hless => ?_)
        (fun e _ e' _ hte hee => ?_) hpairs
      · have hle := hf.arrived e he
        rw [← (hkeys e he).arrival] at hle
        simp only [QueueName.less, priority_comp, gt_iff_lt, decide_eq_false_iff_not, not_lt] at hless
        simp only [Before]
        omega
      · simp only [QueueName.less, priority_comp, gt_iff_lt, decide_eq_true_eq] at hless
        exact .inl hless
      · simp only [Before] at hte hee ⊢
        omega
    · change a ∈ k'.queue .ready at ha
      rw [ht] at ha
      rcases mem_list_insert_ordered.mp ha with rfl | ha
      · omega
      · rw [(hkeys a ha).arrival]
        exact Nat.lt_of_lt_of_le (hf.arrived a ha) harrivals

theorem Shifts.of_sublist (hqueue : (k'.queue q).Sublist (k.queue q))
    (hkeys : ∀ t ∈ k.queue q, t ∈ k'.queue q → SameKeys k k' t) (harrivals : k'.arrivals = k.arrivals) :
    Shifts k k' q where
  keys := hkeys
  queue := .inl hqueue
  arrivals := harrivals.ge

theorem Shifts.of_eq (hqueue : k'.queue q = k.queue q) (hkeys : ∀ t ∈ k.queue q, SameKeys k k' t)
    (harrivals : k'.arrivals = k.arrivals) : Shifts k k' q :=
  .of_sublist (by rw [hqueue]) (fun t ht _ => hkeys t ht) harrivals

/-- The running thread is in no queue. -/
theorem Wf.ne_current (h : Wf k) (hrun : k.code.head? ≠ some .schedule) (ht : t ∈ k.queue q) :
    t ≠ k.current := by
  rintro rfl
  have hq := (h.settled.queues.mem q _).mp ht
  rw [h.current_running hrun] at hq
  cases hq

/-- A page that holds no thread is in no queue. -/
theorem Wf.ne_unused (h : Wf k) {u : ThreadId} (hu : place k u = .unused) (ht : t ∈ k.queue q) :
    t ≠ u := by
  rintro rfl
  have hq := (h.settled.queues.mem q _).mp ht
  rw [hu] at hq
  cases hq

theorem Quiet.shifts (hquiet : Quiet (k.set_code rest) k₁) (is' : List Instr) (h : Wf k)
    (hrun : k.code.head? ≠ some .schedule) : Shifts k (k₁.push is') q := by
  refine .of_eq (by simp [hquiet.queue]) (fun t ht => ?_) hquiet.arrivals
  have hne := h.ne_current hrun ht
  have hne₁ : t ≠ k₁.current := by rw [hquiet.current]; exact hne
  have hp := hquiet.priority t hne
  have ha := hquiet.alarm_ticks t
  have hr := hquiet.arrival t
  constructor
  · simpa [hne₁, hne] using hp
  · simpa [hne₁, hne] using ha
  · simpa [hne₁, hne] using hr

theorem priority_comp_congr (h : ∀ t, (k'.threads t).priority = (k.threads t).priority) :
    priority_comp k' = priority_comp k := by
  funext e1 e2
  simp [priority_comp, h]

/-- A blocked thread is made ready after it has been taken off its queue. -/
theorem Wf.make_ready_shifts (h : Wf k) (hrun : k.code.head? ≠ some .schedule)
    (ht : t ∉ k.queue .ready) (hqueue : ∀ q, k₁.queue q = (k.queue q).erase t)
    (hthreads : ∀ u, u ≠ k.current → k₁.threads u = k.threads u)
    (harrivals : k₁.arrivals = k.arrivals) : Shifts k (make_ready k₁ t) q := by
  have hkeys : ∀ u ∈ k.queue q, u ≠ t → SameKeys k (make_ready k₁ t) u := by
    intro u hu hut
    have hu' := hthreads u (h.ne_current hrun hu)
    constructor <;> simp [hut, hu']
  by_cases hq : q = .ready
  · subst hq
    have hready : k₁.ready_list = k.ready_list := by
      have hr := hqueue .ready
      rwa [List.erase_of_not_mem ht] at hr
    refine ⟨fun u hu _ => hkeys u hu ?_, .inr ⟨t, ?_, fun _ => ⟨?_, ?_⟩⟩, ?_⟩
    · rintro rfl
      exact ht hu
    · have hcomp : priority_comp (make_ready k₁ t) = priority_comp k₁ :=
        priority_comp_congr fun u => by
          by_cases hu : u = t <;> simp [hu]
      change list_insert_ordered (priority_comp k₁) t k₁.ready_list =
        list_insert_ordered (priority_comp (make_ready k₁ t)) t k.ready_list
      rw [hcomp, hready]
    · simp [harrivals]
    · change k₁.arrivals + 1 = _
      rw [harrivals]
    · change k.arrivals ≤ k₁.arrivals + 1
      omega
  · have hq' : (make_ready k₁ t).queue q = (k.queue q).erase t := by
      rw [← hqueue]
      cases q with
      | ready => exact absurd rfl hq
      | sleep => rfl
      | wait s => rfl
    refine ⟨fun u hu hu' => hkeys u hu ?_, .inl ?_, ?_⟩
    · rw [hq', (h.settled.queues.nodup q).mem_erase_iff] at hu'
      exact hu'.1
    · rw [hq']
      exact List.erase_sublist
    · change k.arrivals ≤ k₁.arrivals + 1
      omega

/-- What is pushed or put into fields without keys does not matter. -/
theorem Shifts.trans_quiet (h : Shifts k k₁ q) (hq : k'.queue q = k₁.queue q)
    (hkeys : ∀ t, SameKeys k₁ k' t) (harrivals : k'.arrivals = k₁.arrivals) : Shifts k k' q where
  keys t ht ht' := by
    rw [hq] at ht'
    have hs := h.keys t ht ht'
    exact ⟨(hkeys t).priority.trans hs.priority, (hkeys t).alarm_ticks.trans hs.alarm_ticks,
      (hkeys t).arrival.trans hs.arrival⟩
  queue := by
    rw [hq]
    refine h.queue.imp id fun ⟨t, ht, hr⟩ => ⟨t, ?_, fun hready => ?_⟩
    · have hless : q.less k' = q.less k₁ := by
        funext a b
        exact (hkeys a).less (hkeys b) q
      rw [hless, ht]
    · rw [(hkeys t).arrival, harrivals]
      exact hr hready
  arrivals := by
    rw [harrivals]
    exact h.arrivals

theorem set_code_keys (k : Kernel) (code : List Instr) (t : ThreadId) :
    SameKeys k (k.set_code code) t := by
  constructor <;> by_cases ht : t = k.current <;> simp [ht]

/-- A call is as good as an instruction put in front of the code. -/
theorem Shifts.of_push {is : List Instr} (h : Shifts (k.push is) k' q) : Shifts k k' q where
  keys t ht ht' := by
    have hs := h.keys t (by rwa [set_code_queue]) ht'
    have hc := set_code_keys k (is ++ k.code) t
    exact ⟨hs.priority.trans hc.priority, hs.alarm_ticks.trans hc.alarm_ticks,
      hs.arrival.trans hc.arrival⟩
  queue := by
    have hq := h.queue
    rwa [set_code_queue] at hq
  arrivals := h.arrivals

theorem SameKeys.refl (k : Kernel) (t : ThreadId) : SameKeys k k t := ⟨rfl, rfl, rfl⟩

theorem Wf.schedule_shifts (h : Wf k) (he : prj3.schedule k.pop = .ok k') : Shifts k k' q := by
  obtain ⟨next, -, -, sw⟩ := schedule_switches he
  have hqueue : (k'.queue q).Sublist (k.queue q) := by
    cases q with
    | ready =>
      rw [Kernel.queue, sw.ready_list]
      exact List.tail_sublist _
    | sleep => rw [Kernel.queue, sw.sleep_list]; exact .refl _
    | wait s => rw [Kernel.queue, sw.sema]; exact .refl _
  refine .of_sublist hqueue (fun t ht _ => ?_) sw.arrivals
  have hpop := set_code_keys k k.code.tail t
  by_cases hn : t = next
  · rw [hn] at hpop ⊢
    have hs := sw.started
    exact ⟨(congrArg Thread.priority hs).trans hpop.priority,
      (congrArg Thread.alarm_ticks hs).trans hpop.alarm_ticks,
      (congrArg Thread.arrival hs).trans hpop.arrival⟩
  · have hnot : ¬ (t = k.pop.current ∧ Freed k.pop next) := by
      rintro ⟨rfl, hf⟩
      have hd : (k.threads k.current).status = .THREAD_DYING := by simpa using hf.2.1
      have hq := (h.settled.queues.mem q _).mp ht
      have hp : place k k.current = .dying := place_dying.mpr ⟨h.settled.current, hd⟩
      simp [hp, Place.queue] at hq
    have hs := sw.others t hn hnot
    exact ⟨(congrArg Thread.priority hs).trans hpop.priority,
      (congrArg Thread.alarm_ticks hs).trans hpop.alarm_ticks,
      (congrArg Thread.arrival hs).trans hpop.arrival⟩

theorem Wf.yield_shifts (h : Wf k) (hcode : k.code = .thread_yield :: rest)
    (he : prj3.exec k.pop env .thread_yield = .ok k') : Shifts k k' q := by
  have hrun : k.code.head? ≠ some .schedule := by simp [hcode]
  obtain ⟨k₁, hy, he⟩ := bind_eq_ok_iff.mp he
  obtain ⟨-, -, -, rfl⟩ := thread_yield_ok.mp hy
  obtain rfl := ok_eq_ok.mp he
  split
  · have hkeys : ∀ u, u ≠ k.current → SameKeys k (((ready_insert { k.pop with intr_level := .INTR_OFF }
        k.current).update k.current fun th => { th with status := .THREAD_READY }).push
        [.schedule, .intr_set_level k.intr_level]) u := by
      intro u hu
      constructor <;> simp [ready_insert, hu]
    by_cases hq : q = .ready
    · subst hq
      refine ⟨fun u hu _ => hkeys u (h.ne_current hrun hu), .inr ⟨k.current, ?_, fun _ => ⟨?_, rfl⟩⟩,
        Nat.le_succ _⟩
      · refine congrArg (list_insert_ordered · k.current k.ready_list) ?_
        refine (priority_comp_congr fun u => ?_).symm
        by_cases hu : u = k.current <;> simp [ready_insert, hu]
      · simp [ready_insert]
    · refine ⟨fun u hu _ => hkeys u (h.ne_current hrun hu), .inl ?_, Nat.le_succ _⟩
      cases q with
      | ready => exact absurd rfl hq
      | sleep => exact .refl _
      | wait s => exact .refl _
  · refine .of_eq (by cases q <;> rfl) (fun u hu => ?_) rfl
    have hne := h.ne_current hrun hu
    constructor <;> simp [hne]

theorem Wf.sema_up_shifts (h : Wf k) {s : SemaRef} (hcode : k.code = .sema_up s :: rest)
    (he : prj3.exec k.pop env (.sema_up s) = .ok k') : Shifts k k' q := by
  have hrun : k.code.head? ≠ some .schedule := by simp [hcode]
  rw [prj3.exec, prj3.sema_up] at he
  obtain ⟨k₁, hwake, he⟩ := bind_eq_ok_iff.mp he
  obtain rfl := ok_eq_ok.mp he
  rcases sema_wake_ok.mp hwake with ⟨-, rfl⟩ | ⟨t, ws, hw, -, -, rfl⟩
  · refine .of_eq ?_ (fun u hu => ?_) rfl
    · cases q with
      | wait s' => by_cases hs : s' = s <;> simp [Kernel.queue, hs]
      | _ => rfl
    · have hne := h.ne_current hrun hu
      constructor <;> simp [hne]
  · have hw' : (k.sema s).waiters = t :: ws := hw
    have hmem : t ∈ k.queue (.wait s) := by simp [Kernel.queue, hw']
    have hready : t ∉ k.queue .ready := fun hr => by
      cases h.settled.queues.unique hr hmem
    have hshift : Shifts k (make_ready (({ k.pop with intr_level := .INTR_OFF } : Kernel).set_sema s
        { k.sema s with waiters := ws }) t) q := by
      refine h.make_ready_shifts hrun hready (fun q => ?_) (fun u hu => ?_) rfl
      · by_cases hq : q = .wait s
        · subst hq
          simp [Kernel.queue, hw']
        · rw [h.erase_queue hmem hq]
          cases q with
          | ready => rfl
          | sleep => rfl
          | wait s' =>
            have hs : s' ≠ s := fun hs => hq (by rw [hs])
            simp [Kernel.queue, hs]
      · simp [hu]
    refine hshift.trans_quiet ?_ (fun u => ?_) rfl
    · cases q with
      | wait s' => by_cases hs : s' = s <;> simp [Kernel.queue, hs, make_ready, ready_insert]
      | _ => rfl
    · exact ⟨(set_code_keys _ _ u).priority, (set_code_keys _ _ u).alarm_ticks,
        (set_code_keys _ _ u).arrival⟩

/-- The effect of one instruction on a queue. -/
theorem Wf.exec_shifts (h : Wf k) (hcode : k.code = i :: rest) (henv : env.Allowed k)
    (he : prj3.exec k.pop env i = .ok k') : Shifts k k' q := by
  have hpop : k.pop = k.set_code rest := by rw [Kernel.pop, hcode, List.tail_cons]
  have hcur : (k.threads k.current).code = i :: rest := hcode
  have hpending : i.Pending k.current := h.codes.pending k.current i (by simp [hcur])
  by_cases hi : i = .schedule
  · subst hi
    exact h.schedule_shifts he
  have hrun : k.code.head? ≠ some .schedule := by simpa [hcode] using hi
  have hne {u : ThreadId} (hu : u ∈ k.queue q) : u ≠ k.current := h.ne_current hrun hu
  by_cases hplain : i.Plain k
  · have hplain' : i.Plain k.pop := by
      cases i <;> exact hplain
    obtain ⟨k₁, is', hquiet, -, rfl, -⟩ := prj3.exec_plain hplain' (h.own_waiters hrun) he
    rw [hpop] at hquiet
    exact hquiet.shifts is' h hrun
  cases i with
  | schedule => exact absurd rfl hi
  | thread_exit => exact absurd hpending id
  | sema_init s n => exact absurd hpending id
  | thread_yield => exact h.yield_shifts hcode he
  | sema_up s => exact h.sema_up_shifts hcode he
  | thread_block =>
    obtain ⟨k₁, hb, he⟩ := bind_eq_ok_iff.mp he
    obtain ⟨-, -, -, -, rfl⟩ := thread_block_ok.mp hb
    obtain rfl := ok_eq_ok.mp he
    refine .of_eq (by simp) (fun t ht => ?_) rfl
    constructor <;> simp [hne ht]
  | thread_unblock t =>
    obtain ⟨-, -, rfl⟩ := thread_unblock_ok.mp he
    have hp : place k t = .nascent :=
      h.creators.target k.current (.thread_unblock t) (by simp [hcur]) t _ rfl
    refine h.make_ready_shifts hrun (fun ht => ?_) (fun q => ?_) (fun u hu => by simp [hu]) rfl
    · rw [h.settled.queues.mem, hp] at ht
      cases ht
    · rw [h.erase_of_place (by rw [hp]; rfl), set_code_queue]
  | palloc_get_page p f =>
    obtain rfl := ok_eq_ok.mp he
    unfold prj3.palloc_get_page
    split
    · refine .of_eq (by simp) (fun t ht => ?_) rfl
      constructor <;> simp [hne ht]
    · rename_i t hpage
      obtain ⟨hfree, hinitial⟩ := henv t hpage
      have hunused : place k t = .unused := place_eq_unused.mpr fun ht => by
        rcases h.settled.used t ht with hu | hi
        · rw [hfree] at hu
          cases hu
        · exact hinitial hi
      refine .of_eq (by cases q <;> rfl) (fun u hu => ?_) rfl
      constructor <;> simp [hne hu, h.ne_unused hunused hu]
  | init_thread t p f =>
    obtain ⟨-, rfl⟩ := init_thread_ok.mp he
    have hunused : place k t = .unused :=
      h.creators.target k.current (.init_thread t p f) (by simp [hcur]) t _ rfl
    refine .of_eq (by cases q <;> rfl) (fun u hu => ?_) rfl
    constructor <;> simp [init_page, hne hu, h.ne_unused hunused hu]
  | alloc_frames t f =>
    obtain ⟨-, rfl⟩ := alloc_frames_ok.mp he
    refine .of_eq (by cases q <;> rfl) (fun u hu => ?_) rfl
    have hut : u ≠ t := by
      rintro rfl
      rw [h.settled.queues.mem, h.creators.target k.current (.alloc_frames u f) (by simp [hcur]) u _ rfl] at hu
      cases hu
    constructor <;> simp [fill_stack, hne hu, hut]
  | idle =>
    simp only [prj3.exec, thread_current_bind_ok, ok_eq_ok] at he
    obtain ⟨-, -, rfl⟩ := he
    refine .of_eq (by cases q <;> rfl) (fun u hu => ?_) rfl
    constructor <;> simp [hne hu]
  | thread_sleep n =>
    obtain ⟨-, -, -, -, rfl⟩ := thread_sleep_ok.mp he
    have hkeys : ∀ u ∈ k.queue q, SameKeys k (block (enqueue_sleeper k.pop n)
        [.schedule, .ret .thread_sleep]) u := by
      intro u hu
      constructor <;> simp [block, enqueue_sleeper, hne hu]
    by_cases hq : q = .sleep
    · subst hq
      refine ⟨fun u hu _ => hkeys u hu, .inr ⟨k.current, ?_, by simp⟩, le_rfl⟩
      refine congrArg (list_insert_ordered · k.current k.sleep_list) ?_
      funext a b
      by_cases ha : a = k.current <;> by_cases hb : b = k.current <;>
        simp [QueueName.less, alarm_ticks_comp, block, enqueue_sleeper, ha, hb]
    · refine .of_eq ?_ hkeys rfl
      cases q with
      | sleep => exact absurd rfl hq
      | ready => rfl
      | wait s => rfl
  | sema_down_loop s =>
    have hzero : (k.sema s).value = 0 := by simpa [Instr.Plain] using hplain
    obtain ⟨-, -, -, -, rfl⟩ := (sema_down_loop_ok (by simpa using hzero)).mp he
    have hkeys : ∀ u ∈ k.queue q, SameKeys k (block (enqueue_waiter k.pop s)
        [.schedule, .sema_down_loop s]) u := by
      intro u hu
      constructor <;> simp [block, enqueue_waiter, hne hu]
    by_cases hq : q = .wait s
    · subst hq
      refine ⟨fun u hu _ => hkeys u hu, .inr ⟨k.current, ?_, by simp⟩, le_rfl⟩
      have hcomp : priority_comp (block (enqueue_waiter k.pop s) [.schedule, .sema_down_loop s]) =
          priority_comp k.pop :=
        priority_comp_congr fun u => by
          by_cases hu : u = k.current <;> simp [block, enqueue_waiter, hu]
      simp only [QueueName.less, hcomp]
      simp [Kernel.queue, block, enqueue_waiter]
    · refine .of_eq ?_ hkeys rfl
      cases q with
      | ready => rfl
      | sleep => rfl
      | wait s' =>
        have hs : s' ≠ s := fun hs => hq (by rw [hs])
        simp [Kernel.queue, block, enqueue_waiter, hs]
  | _ => exact absurd trivial hplain

theorem Wf.exit_shifts (h : Wf k) (hrun : k.code.head? ≠ some .schedule)
    (he : prj3.thread_exit k = .ok k') : Shifts k k' q := by
  simp only [prj3.thread_exit, ASSERT_bind_ok, thread_current_bind_ok, ok_eq_ok] at he
  obtain ⟨-, -, -, rfl⟩ := he
  refine .of_eq (by cases q <;> rfl) (fun u hu => ?_) rfl
  have hne := h.ne_current hrun hu
  constructor <;> simp [hne]

/-- The effect on a queue of any step but the timer interrupt. -/
theorem Wf.step_shifts (h : Wf k) {l : Label} (hl : l ≠ .timer) (hs : prj3.step k l = some k') :
    Shifts k k' q := by
  obtain ⟨henabled, he⟩ := step_ok hs
  cases l with
  | timer => exact absurd rfl hl
  | next env =>
    obtain ⟨i, rest, hcode⟩ := List.exists_cons_of_ne_nil henabled.1
    simp only [perform, hcode] at he
    exact h.exec_shifts hcode henabled.2 he
  | call c =>
    obtain ⟨hcode, hallowed⟩ := henabled
    have hrun : k.code.head? ≠ some .schedule := by simp [hcode]
    by_cases hsimple : c.Simple
    · obtain ⟨hw, hc⟩ := h.simple_call hsimple hcode
      exact (hw.exec_shifts hc (no_page_allowed _) (by rwa [push_pop])).of_push
    cases c with
    | thread_exit => exact h.exit_shifts hrun he
    | thread_unblock t =>
      obtain ⟨-, -, rfl⟩ := thread_unblock_ok.mp he
      have hp := place_of_parked hallowed
      refine h.make_ready_shifts hrun (fun ht => ?_) (fun q => ?_) (fun _ _ => rfl) rfl
      · rw [h.settled.queues.mem, hp] at ht
        cases ht
      · rw [h.erase_of_place (by rw [hp]; rfl)]
    | sema_init n v =>
      obtain rfl := ok_eq_ok.mp he
      refine .of_eq ?_ (fun _ _ => ⟨rfl, rfl, rfl⟩) rfl
      cases q with
      | wait s =>
        have hnone : (k.sema (.sema n)).waiters = [] := hallowed
        by_cases hs : s = .sema n <;> simp [Kernel.queue, hs, hnone]
      | _ => rfl
    | _ => exact absurd trivial hsimple

/-- Waking the first sleeper in the timer interrupt. -/
theorem Wf.wake_first_shifts (h : Wf k) (hrun : k.code.head? ≠ some .schedule) {l : List ThreadId}
    (hsleep : k.sleep_list = t :: l) : Shifts k (prj3.wake_first k t) q := by
  have hmem : t ∈ k.queue .sleep := by simp [Kernel.queue, hsleep]
  refine h.make_ready_shifts hrun (fun ht => ?_) (fun q => ?_) (fun _ _ => rfl) rfl
  · cases h.settled.queues.unique ht hmem
  · by_cases hq : q = .sleep
    · rw [hq]
      rfl
    · rw [h.erase_queue hmem hq]
      cases q with
      | sleep => exact absurd rfl hq
      | ready => rfl
      | wait s => rfl

end pintos.prj3
