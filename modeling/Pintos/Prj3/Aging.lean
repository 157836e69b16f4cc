import Pintos.Prj3.SemaOrder
import Pintos.Prj3.Synch

/-!
# Aging

A ready thread gains one level of priority with every tick until it has
`PRI_MAX`; from then on every tick takes a thread from in front of it.
-/

open twos_complement strict_weak pintos.kernel transition placement

namespace pintos.prj3

variable {k k' k₁ : Kernel} {l : Label} {ls : List Label} {t u : ThreadId} {n : Nat}

/-- Aging is on, mlfqs is off, and every priority is in range. -/
structure InRange (k : Kernel) : Prop where
  aging : k.thread_prior_aging = true
  mlfqs : k.thread_mlfqs = false
  priority : ∀ t ∈ k.all_list, PRI_MIN ≤ (k.threads t).priority ∧ (k.threads t).priority ≤ PRI_MAX

instance (k : Kernel) : Decidable (InRange k) :=
  decidable_of_iff (k.thread_prior_aging = true ∧ k.thread_mlfqs = false ∧
      ∀ t ∈ k.all_list, PRI_MIN ≤ (k.threads t).priority ∧ (k.threads t).priority ≤ PRI_MAX)
    ⟨fun ⟨ha, hm, hp⟩ => ⟨ha, hm, hp⟩, fun h => ⟨h.aging, h.mlfqs, h.priority⟩⟩

/-- The step starts and ends with every priority in range. -/
def StaysInRange (k : Kernel) (l : Label) : Prop :=
  InRange k ∧ ∀ k' ∈ step k l, InRange k'

instance (k : Kernel) (l : Label) : Decidable (StaysInRange k l) :=
  inferInstanceAs (Decidable (_ ∧ ∀ k' ∈ step k l, _))

/-- The kernel in runs with aging in which all priorities stay in range. -/
def aging_kernel : System Kernel Label := kernel.restrict StaysInRange

/-- The number of threads ahead of `t` in `ready_list`. -/
def ahead (k : Kernel) (t : ThreadId) : Nat := k.ready_list.idxOf t

/-! ## The order of the run queue -/

/-- A thread in a queue is live. -/
theorem Wf.live_of_queue (h : Wf k) {q : QueueName} (ht : t ∈ k.queue q) : Live k t := by
  have hq := (h.settled.queues.mem q t).mp ht
  have hthread : is_thread k t := by
    by_contra hnot
    rw [place_eq_unused.mpr hnot] at hq
    cases hq
  refine ⟨hthread, fun hdying => ?_⟩
  rw [place_dying.mpr ⟨hthread, hdying⟩] at hq
  cases hq

theorem InRange.le (hr : InRange k) (h : Wf k) (hl : Listed k) {q : QueueName} (ht : t ∈ k.queue q) :
    (k.threads t).priority ≤ PRI_MAX :=
  (hr.priority t ((hl.mem t).mpr (h.live_of_queue ht))).2

theorem StaysInRange.keeps_order (hr : StaysInRange k l) (h : kernel.Reachable k) : KeepsOrder k l := by
  intro _ _
  refine .inr (.inl fun t ht => ?_)
  have hw := reachable_wf h
  have hle : (k.threads t).priority ≤ PRI_MAX := by
    rcases List.mem_append.mp ht with hdue | hready
    · exact hr.1.le hw (reachable_listed h) (q := .sleep) (List.takeWhile_subset _ hdue)
    · exact hr.1.le hw (reachable_listed h) (q := .ready) hready
  intro hmax
  rw [hmax] at hle
  exact absurd hle (by decide)

theorem aging_ordered (h : aging_kernel.Reachable k) : Ordered (priority_comp k) k.ready_list :=
  reachable_ready_ordered (h.weaken fun _ _ hr hstays => hstays.keeps_order hr)

/-- At `PRI_MAX` no thread with a priority in range goes in front. -/
theorem comp_top (ht : (k.threads t).priority = PRI_MAX) (hu : (k.threads u).priority ≤ PRI_MAX) :
    priority_comp k u t = false := by
  simp only [priority_comp, ht, gt_iff_lt, decide_eq_false_iff_not, not_lt]
  exact hu

/-! ## Steps of threads -/

theorem Wf.step_ready_priority (h : Wf k) (hl : l ≠ .timer) (hs : prj3.step k l = some k')
    (ht : t ∈ k.ready_list) (ht' : t ∈ k'.ready_list) : (k'.threads t).priority = (k.threads t).priority :=
  ((h.step_shifts (q := .ready) hl hs).keys t ht ht').priority

theorem Wf.step_ahead (h : Wf k) (hl : l ≠ .timer) (hs : prj3.step k l = some k')
    (ho : Ordered (priority_comp k) k.ready_list) (hmax : ∀ u ∈ k'.ready_list,
    (k'.threads u).priority ≤ PRI_MAX)
    (ht : t ∈ k.ready_list) (ht' : t ∈ k'.ready_list) (htop : (k.threads t).priority = PRI_MAX) :
    ahead k' t ≤ ahead k t := by
  have hshifts := h.step_shifts (q := .ready) hl hs
  have htop' : (k'.threads t).priority = PRI_MAX := (hshifts.keys t ht ht').priority.trans htop
  rcases hshifts.queue with hsub | ⟨u, hu, -⟩
  · exact idxOf_le_of_sublist hsub (h.settled.queues.nodup .ready) ht'
  · have hmem (v : ThreadId) (hv : v ∈ k.ready_list) : v ∈ k'.queue .ready := by
      rw [hu]
      exact mem_list_insert_ordered.mpr (.inr hv)
    have ho' : Ordered (priority_comp k') k.ready_list := by
      refine ho.congr fun a ha b hb hab => ?_
      have hless := (hshifts.keys b hb (hmem b hb)).less (hshifts.keys a ha (hmem a ha)) .ready
      exact hless.trans hab
    have hready : k'.ready_list = list_insert_ordered (priority_comp k') u k.ready_list := hu
    have hu' : u ∈ k'.ready_list := by
      rw [hready]
      exact mem_list_insert_ordered.mpr (.inl rfl)
    rw [ahead, hready]
    exact (idxOf_list_insert_ordered (priority_comp_strict k') ho' ht (comp_top htop' (hmax u hu'))).le

/-- `schedule` takes the first thread off `ready_list`. -/
theorem Wf.schedule_ahead (h : Wf k) (hs : prj3.step k l = some k') (hi : k.executes l = some .schedule)
    (ht' : t ∈ k'.ready_list) : ahead k' t < ahead k t := by
  obtain ⟨env, rest, -, he⟩ := step_exec hs hi
  obtain ⟨next, -, -, sw⟩ := schedule_switches he
  have hready : k'.ready_list = k.ready_list.tail := sw.ready_list
  have hnodup : k.ready_list.Nodup := h.settled.queues.nodup .ready
  rw [hready] at ht'
  rw [ahead, hready, ahead]
  cases hlist : k.ready_list with
  | nil => simp [hlist] at ht'
  | cons u us =>
    rw [hlist] at ht' hnodup
    have hne : u ≠ t := fun heq => (List.nodup_cons.mp hnodup).1 (heq ▸ ht')
    rw [List.tail_cons, List.idxOf_cons_ne _ hne]
    exact Nat.lt_succ_self _

/-! ## Ticks -/

theorem accounted_aged (haging : k.thread_prior_aging = true) (hmlfqs : k.thread_mlfqs = false) :
    accounted k = aged k := by
  rw [accounted, if_neg (by simp [hmlfqs]), ripened, if_pos haging]

/-- What waking sleepers one by one keeps of a ready thread. -/
structure KeepsPlace (k : Kernel) (t : ThreadId) (k₁ : Kernel) : Prop where
  modes : k₁.thread_mlfqs = k.thread_mlfqs ∧ k₁.thread_prior_aging = k.thread_prior_aging
  priority : ∀ u, (k₁.threads u).priority = (k.threads u).priority
  sleepers : ∀ u ∈ k₁.sleep_list, u ∈ k.sleep_list
  ordered : Ordered (priority_comp k₁) k₁.ready_list
  ready : t ∈ k₁.ready_list
  ahead : ahead k₁ t = prj3.ahead k t

theorem KeepsPlace.wake (h : KeepsPlace k t k₁)
    (hcomp : priority_comp k u t = false) : KeepsPlace k t (wake_first k₁ u) := by
  have hpriority (v : ThreadId) : ((wake_first k₁ u).threads v).priority = (k₁.threads v).priority := by
    rw [wake_first]
    by_cases hv : v = u <;> simp [hv]
  have hready : (wake_first k₁ u).ready_list = list_insert_ordered (priority_comp k₁) u k₁.ready_list := rfl
  have hcomp₁ : priority_comp k₁ u t = false := by rwa [priority_comp_congr h.priority]
  refine ⟨h.modes, fun v => (hpriority v).trans (h.priority v), fun v hv => ?_, ?_, ?_, ?_⟩
  · exact h.sleepers v (List.mem_of_mem_erase (show v ∈ k₁.sleep_list.erase u from hv))
  · rw [priority_comp_congr hpriority, hready]
    exact list_insert_ordered_ordered (priority_comp_strict k₁) h.ordered
  · rw [hready]
    exact mem_list_insert_ordered.mpr (.inr h.ready)
  · rw [prj3.ahead, hready, idxOf_list_insert_ordered (priority_comp_strict k₁) h.ordered h.ready hcomp₁]
    exact h.ahead

/-- Waking sleepers leaves a thread of top priority where it is. -/
theorem Wf.tick_ahead (h : Wf k) (hl : Listed k) (hr : InRange k) (ho : Ordered (priority_comp k) k.ready_list)
    (hs : prj3.step k .timer = some k') (ht : t ∈ k.ready_list) (htop : (k.threads t).priority = PRI_MAX) :
    ahead k' t = ahead k t := by
  obtain ⟨hon, he⟩ := step_ok hs
  have hstart : KeepsPlace k t (prj3.tick_start k) := ⟨⟨rfl, rfl⟩, fun _ => rfl, fun _ hu => hu, ho, ht, rfl⟩
  obtain ⟨k₁, -, -, hkeeps, -, rfl⟩ := h.intr_handler_induct (P := KeepsPlace k t) hon he hstart
    fun k₁ u us _ _ hk₁ hsleep _ => by
      have hu : u ∈ k₁.sleep_list := by simp [hsleep]
      exact hk₁.wake (comp_top htop (hr.le h hl (q := .sleep) (hk₁.sleepers u hu)))
  have haged := accounted_aged (k := { k₁ with yield_on_return := true })
    (hkeeps.modes.2.trans hr.aging) (hkeeps.modes.1.trans hr.mlfqs)
  rw [haged, ← hkeeps.ahead]
  change (aged { k₁ with yield_on_return := true }).ready_list.idxOf t = k₁.ready_list.idxOf t
  rw [aged_ready_list]

/-- A ready thread ages with the tick. -/
theorem Wf.tick_ages (h : Wf k) (hr : InRange k) (hs : prj3.step k .timer = some k') (ht : t ∈ k.ready_list) :
    t ∈ k'.ready_list ∧ (k'.threads t).priority = (age (k.threads t)).priority := by
  obtain ⟨hon, he⟩ := step_ok hs
  obtain ⟨k₁, hw₁, hw, -, -, rfl⟩ := h.tick hon he
  have ht₁ : t ∈ k₁.ready_list := hw.ready_list.mem_iff.mpr (List.mem_append_right _ ht)
  rw [accounted_aged (hw.modes.2.trans hr.aging) (hw.modes.1.trans hr.mlfqs)]
  refine ⟨?_, ?_⟩
  · change t ∈ (aged k₁).ready_list
    rwa [aged_ready_list]
  · have hnodup : k₁.ready_list.Nodup := hw₁.settled.queues.nodup .ready
    rw [(leave_interrupt_keys _ t).priority, aged, foldl_update _ hnodup]
    simp only [ht₁, if_true]
    simp only [age, hw.priority]

/-- The cap on aging, for a priority in range. -/
theorem age_priority {th : Thread} (hlow : PRI_MIN ≤ th.priority) (hhigh : th.priority ≤ PRI_MAX) :
    (age th).priority = if th.priority = PRI_MAX then PRI_MAX else th.priority + 1 := by
  simp only [PRI_MIN, PRI_MAX] at hlow hhigh
  simp only [age, PRI_MAX]
  rw [int32_of_range (by omega) (by omega)]
  split_ifs <;> omega

/-! ## The yield that ends an interrupt -/

/-- The running thread gives up the processor before anything else happens. -/
def GivingUp (k : Kernel) : Prop :=
  k.intr_level = .INTR_OFF ∧ (k.code.head? = some .thread_yield ∨ k.code.head? = some .schedule)

instance (k : Kernel) : Decidable (GivingUp k) := inferInstanceAs (Decidable (_ ∧ _))

theorem Wf.tick_giving_up (h : Wf k) (hs : prj3.step k .timer = some k') :
    GivingUp k' ∧ k'.code.head? = some .thread_yield := by
  obtain ⟨hon, he⟩ := step_ok hs
  obtain ⟨-, hoff, -, hcode, -⟩ := h.tick_levels hon he
  have hhead : k'.code.head? = some .thread_yield := by rw [hcode]; rfl
  exact ⟨⟨hoff, .inl hhead⟩, hhead⟩

theorem GivingUp.next (h : GivingUp k) (hs : step k l = some k') :
    ∃ env, l = .next env ∧ (k.executes l = some .thread_yield ∨ k.executes l = some .schedule) := by
  obtain ⟨henabled, -⟩ := step_ok hs
  obtain ⟨hoff, hhead⟩ := h
  cases l with
  | next env => exact ⟨env, rfl, hhead⟩
  | call c =>
    have hnil : k.code = [] := henabled.1
    simp [hnil] at hhead
  | timer =>
    have hon : k.intr_level = .INTR_ON := henabled
    rw [hon] at hoff
    cases hoff

theorem yield_giving_up (hs : step k l = some k') (hi : k.executes l = some .thread_yield) :
    GivingUp k' ∧ k'.code.head? = some .schedule := by
  obtain ⟨env, rest, -, he⟩ := step_exec hs hi
  obtain ⟨k₁, hy, he⟩ := bind_eq_ok_iff.mp he
  obtain ⟨-, -, -, rfl⟩ := thread_yield_ok.mp hy
  obtain rfl := ok_eq_ok.mp he
  have hhead (k₂ : Kernel) (level : IntrLevel) :
      (k₂.push [.schedule, .intr_set_level level]).code.head? = some .schedule := by
    rw [Kernel.code_set_code]
    rfl
  refine ⟨⟨?_, .inr (hhead _ _)⟩, hhead _ _⟩
  split <;> rfl

/-! ## Progress -/

theorem ready_max (h : kernel.Reachable k) (hr : InRange k) :
    ∀ u ∈ k.ready_list, (k.threads u).priority ≤ PRI_MAX := fun _ hu =>
  hr.le (reachable_wf h) (reachable_listed h) (q := .ready) hu

theorem step_in_range (hs : aging_kernel.Step k l k') : InRange k ∧ InRange k' ∧ step k l = some k' :=
  ⟨hs.1.1, hs.1.2 k' hs.2, hs.2⟩

theorem aging_in_range (h : aging_kernel.Reachable k) (ht : t ∈ k.ready_list) : InRange k := by
  cases h with
  | init hinit =>
    obtain ⟨mlfqs, aging, t₀, rfl⟩ := hinit
    exact absurd ht List.not_mem_nil
  | step _ hs => exact (step_in_range hs).2.1

/-- A thread leaves `ready_list` to run. -/
theorem leaves_to_run (h : aging_kernel.Reachable k) (hs : aging_kernel.Step k l k') (ht : t ∈ k.ready_list)
    (hleft : t ∉ k'.ready_list) : k'.current = t := by
  obtain ⟨hr, -, hstep⟩ := step_in_range hs
  have hw := reachable_wf h.of_restrict
  by_cases hl : l = .timer
  · subst hl
    exact absurd (hw.tick_ages hr hstep ht).1 hleft
  · exact (((hw.step_effect hl hstep).ready t ht).resolve_left hleft).symm

/-- Nothing goes in front of a ready thread of top priority. -/
theorem never_overtaken (h : aging_kernel.Reachable k) (hs : aging_kernel.Step k l k') (ht : t ∈ k.ready_list)
    (ht' : t ∈ k'.ready_list) (htop : (k.threads t).priority = PRI_MAX) :
    (k'.threads t).priority = PRI_MAX ∧ ahead k' t ≤ ahead k t := by
  obtain ⟨hr, hr', hstep⟩ := step_in_range hs
  have hreach := h.of_restrict
  have hw := reachable_wf hreach
  by_cases hl : l = .timer
  · subst hl
    refine ⟨?_, (hw.tick_ahead (reachable_listed hreach) hr (aging_ordered h) hstep ht htop).le⟩
    rw [(hw.tick_ages hr hstep ht).2, age_priority (by rw [htop]; decide) htop.le, if_pos htop]
  · exact ⟨(hw.step_ready_priority hl hstep ht ht').trans htop,
      hw.step_ahead hl hstep (aging_ordered h) (ready_max (hreach.step hstep) hr') ht ht' htop⟩

/-- The effect of a tick on a thread that is still ready when the interrupted
thread has yielded. -/
theorem tick_progress (h : aging_kernel.Reachable k) (ht : t ∈ k.ready_list) {l₁ l₂ : Label}
    (hrun : aging_kernel.Run k [.timer, l₁, l₂] k') (ht' : t ∈ k'.ready_list) :
    ((k.threads t).priority < PRI_MAX → (k'.threads t).priority = (k.threads t).priority + 1) ∧
      ((k.threads t).priority = PRI_MAX → ahead k' t < ahead k t) := by
  cases hrun with
  | cons htick tail =>
    rename_i k₁
    cases tail with
    | cons hyield tail =>
      rename_i k₂
      cases tail with
      | cons hschedule tail =>
        cases tail
        obtain ⟨hr, hr₁, hs⟩ := step_in_range htick
        obtain ⟨-, -, hs₁⟩ := step_in_range hyield
        obtain ⟨-, -, hs₂⟩ := step_in_range hschedule
        have hw := reachable_wf h.of_restrict
        have hw₁ := reachable_wf (h.of_restrict.step hs)
        have hw₂ := reachable_wf ((h.of_restrict.step hs).step hs₁)
        -- the interrupt leaves exactly the yield and the switch
        obtain ⟨hgiving₁, hhead₁⟩ := hw.tick_giving_up hs
        obtain ⟨env₁, rfl, -⟩ := hgiving₁.next hs₁
        obtain ⟨hgiving₂, hhead₂⟩ := yield_giving_up hs₁ hhead₁
        obtain ⟨env₂, rfl, -⟩ := hgiving₂.next hs₂
        obtain ⟨ht₁, hage⟩ := hw.tick_ages hr hs ht
        have ht₂ : t ∈ k₂.ready_list := by
          obtain ⟨env, rest, -, he⟩ := step_exec hs₂ hhead₂
          obtain ⟨next, -, -, sw⟩ := schedule_switches he
          have hready : k'.ready_list = k₂.ready_list.tail := sw.ready_list
          rw [hready] at ht'
          exact List.mem_of_mem_tail ht'
        refine ⟨fun hlt => ?_, fun htop => ?_⟩
        · rw [hw₂.step_ready_priority (by simp) hs₂ ht₂ ht', hw₁.step_ready_priority (by simp) hs₁ ht₁ ht₂,
            hage, age_priority ?_ hlt.le, if_neg hlt.ne]
          exact (hr.priority t (((reachable_listed h.of_restrict).mem t).mpr
            (hw.live_of_queue (q := .ready) ht))).1
        · obtain ⟨htop₁, hle₁⟩ := never_overtaken h htick ht ht₁ htop
          obtain ⟨-, hle₂⟩ := never_overtaken (h.step htick) hyield ht₁ ht₂ htop₁
          have hlt := hw₂.schedule_ahead hs₂ hhead₂ ht'
          omega

/-! ## The bound -/

/-- How many ticks thread `t` can still wait, when there are `n` others. -/
def patience (n : Nat) (k : Kernel) (t : ThreadId) : Nat :=
  if (k.threads t).priority < PRI_MAX then (PRI_MAX - (k.threads t).priority).toNat + n else ahead k t

/-- A tick has been counted whose yield is still to come. -/
def owed (k : Kernel) (t : ThreadId) : Nat := if GivingUp k ∧ (k.threads t).priority = PRI_MAX then 1 else 0

theorem patience_top (htop : (k.threads t).priority = PRI_MAX) : patience n k t = ahead k t :=
  if_neg (by omega)

theorem patience_below (hlt : (k.threads t).priority < PRI_MAX) :
    patience n k t = (PRI_MAX - (k.threads t).priority).toNat + n :=
  if_pos hlt

theorem owed_le (k : Kernel) (t : ThreadId) : owed k t ≤ 1 := by
  unfold owed
  split <;> omega

theorem owed_top (hgiving : GivingUp k) (htop : (k.threads t).priority = PRI_MAX) : owed k t = 1 :=
  if_pos ⟨hgiving, htop⟩

theorem owed_of_not_giving (hgiving : ¬ GivingUp k) : owed k t = 0 := if_neg fun h => hgiving h.1

theorem owed_below (hlt : (k.threads t).priority < PRI_MAX) : owed k t = 0 := if_neg fun h => hlt.ne h.2

theorem ahead_le (h : kernel.Reachable k) (ht : t ∈ k.ready_list) (hn : k.all_list.length ≤ n + 1) :
    ahead k t ≤ n := by
  have hl := reachable_listed h
  have hw := reachable_wf h
  have hsub : k.ready_list ⊆ k.all_list := fun u hu => (hl.mem u).mpr (hw.live_of_queue (q := .ready) hu)
  have hle := (List.subperm_of_subset (hw.settled.queues.nodup .ready) hsub).length_le
  have hlt : ahead k t < k.ready_list.length := List.idxOf_lt_length_iff.mpr ht
  change k.ready_list.length ≤ _ at hle
  omega

/-- Each tick costs patience, now or when the interrupted thread has yielded. -/
theorem patience_tick (h : aging_kernel.Reachable k) (hs : aging_kernel.Step k .timer k')
    (ht : t ∈ k.ready_list) (ht' : t ∈ k'.ready_list) (hn : k.all_list.length ≤ n + 1) :
    1 + patience n k' t ≤ patience n k t + owed k' t := by
  obtain ⟨hr, -, hstep⟩ := step_in_range hs
  have hreach := h.of_restrict
  have hw := reachable_wf hreach
  have hle := ready_max hreach hr t ht
  rcases hle.eq_or_lt with htop | hlt
  · obtain ⟨htop', hahead⟩ := never_overtaken h hs ht ht' htop
    rw [patience_top htop, patience_top htop', owed_top (hw.tick_giving_up hstep).1 htop']
    omega
  · have hlow := (hr.priority t (((reachable_listed hreach).mem t).mpr (hw.live_of_queue (q := .ready) ht))).1
    have hage := (hw.tick_ages hr hstep ht).2
    rw [age_priority hlow hle, if_neg hlt.ne] at hage
    have hall : k'.all_list.length ≤ n + 1 := by
      obtain ⟨hon, he⟩ := step_ok hstep
      obtain ⟨k₁, -, hwaking, -, -, rfl⟩ := hw.tick hon he
      have hsame : (leave_interrupt (accounted k₁)).all_list = k.all_list :=
        (accounted_calm k₁).all_list.trans hwaking.all_list
      rwa [hsame]
    have hahead := ahead_le (hreach.step hstep) ht' hall
    rw [patience_below hlt]
    rcases (ready_max (hreach.step hstep) (step_in_range hs).2.1 t ht').eq_or_lt with htop' | hlt'
    · rw [patience_top htop']
      omega
    · rw [patience_below hlt', hage]
      omega

/-- No other step wears it, and the switch after a tick pays what is owed. -/
theorem patience_other (h : aging_kernel.Reachable k) (hs : aging_kernel.Step k l k') (hl : l ≠ .timer)
    (ht : t ∈ k.ready_list) (ht' : t ∈ k'.ready_list) :
    patience n k' t + owed k t ≤ patience n k t + owed k' t := by
  obtain ⟨hr, -, hstep⟩ := step_in_range hs
  have hw := reachable_wf h.of_restrict
  have hsame := hw.step_ready_priority hl hstep ht ht'
  rcases (ready_max h.of_restrict hr t ht).eq_or_lt with htop | hlt
  · obtain ⟨htop', hahead⟩ := never_overtaken h hs ht ht' htop
    rw [patience_top htop, patience_top htop']
    by_cases hgiving : GivingUp k
    · rw [owed_top hgiving htop]
      obtain ⟨env, -, hyield | hschedule⟩ := hgiving.next hstep
      · rw [owed_top (yield_giving_up hstep hyield).1 htop']
        omega
      · have hlt := hw.schedule_ahead hstep hschedule ht'
        omega
    · rw [owed_of_not_giving hgiving]
      omega
  · rw [patience_below hlt, patience_below (hsame ▸ hlt), owed_below hlt, hsame]
    omega

theorem patience_step (h : aging_kernel.Reachable k) (hs : aging_kernel.Step k l k') (ht : t ∈ k.ready_list)
    (ht' : t ∈ k'.ready_list) (hn : k.all_list.length ≤ n + 1) :
    [l].count .timer + patience n k' t + owed k t ≤ patience n k t + owed k' t := by
  by_cases hl : l = .timer
  · subst hl
    have hcount : [Label.timer].count .timer = 1 := rfl
    have howed : owed k t = 0 := by
      refine owed_of_not_giving fun hgiving => ?_
      obtain ⟨env, henv, -⟩ := hgiving.next (step_in_range hs).2.2
      cases henv
    rw [hcount, howed]
    exact patience_tick h hs ht ht' hn
  · have hcount : [l].count .timer = 0 := List.count_eq_zero.mpr (by simpa using Ne.symm hl)
    rw [hcount, Nat.zero_add]
    exact patience_other h hs hl ht ht'

/-- The thread is ready, and at most `n` other threads exist. -/
def StillReady (t : ThreadId) (n : Nat) (k : Kernel) (_ : Label) : Prop :=
  t ∈ k.ready_list ∧ k.all_list.length ≤ n + 1

instance (t : ThreadId) (n : Nat) (k : Kernel) (l : Label) : Decidable (StillReady t n k l) :=
  inferInstanceAs (Decidable (_ ∧ _))

theorem patience_run (h : aging_kernel.Reachable k)
    (hrun : (aging_kernel.restrict (StillReady t n)).Run k ls k') (ht' : t ∈ k'.ready_list) :
    ls.count .timer + patience n k' t + owed k t ≤ patience n k t + owed k' t := by
  induction hrun with
  | nil k => simp
  | @cons k₁ k₂ k₃ l ls hstep tail ih =>
    obtain ⟨⟨ht, hn⟩, hs⟩ := hstep
    have ht₂ : t ∈ k₂.ready_list := by
      cases tail with
      | nil => exact ht'
      | cons hstep _ => exact hstep.1.1
    have hhere := patience_step h hs ht ht₂ hn
    have hrest := ih (h.step hs) ht'
    have hcount : (l :: ls).count .timer = [l].count .timer + ls.count .timer := by
      rw [← List.count_append]
      rfl
    omega

/-- Aging as it should work for a ready thread. -/
structure Ages (k : Kernel) (t : ThreadId) : Prop where
  tick : ∀ l₁ l₂ k', aging_kernel.Run k [.timer, l₁, l₂] k' → t ∈ k'.ready_list →
    ((k.threads t).priority < PRI_MAX → (k'.threads t).priority = (k.threads t).priority + 1) ∧
      ((k.threads t).priority = PRI_MAX → ahead k' t < ahead k t)
  not_overtaken : ∀ l k', aging_kernel.Step k l k' → t ∈ k'.ready_list → (k.threads t).priority = PRI_MAX →
    (k'.threads t).priority = PRI_MAX ∧ ahead k' t ≤ ahead k t
  runs : ∀ l k', aging_kernel.Step k l k' → t ∉ k'.ready_list → k'.current = t

/-- Aging prevents starvation: a thread of priority `p` that stays ready among
`n` others sees at most `PRI_MAX - p + n + 1` ticks. -/
theorem aging_prevents_starvation (h : aging_kernel.Reachable k) (ht : t ∈ k.ready_list) :
    Ages k t ∧ ∀ n ls k', (aging_kernel.restrict (StillReady t n)).Run k ls k' → t ∈ k'.ready_list →
      (ls.count .timer : Int) ≤ PRI_MAX - (k.threads t).priority + n + 1 := by
  refine ⟨⟨fun _ _ _ hrun ht' => tick_progress h ht hrun ht',
    fun _ _ hs ht' htop => never_overtaken h hs ht ht' htop,
    fun _ _ hs hleft => leaves_to_run h hs ht hleft⟩, fun n ls k' hrun ht' => ?_⟩
  have hle := ready_max h.of_restrict (aging_in_range h ht) t ht
  cases hrun with
  | nil =>
    rw [List.count_nil]
    omega
  | cons hstep tail =>
    have hbound := patience_run h (.cons hstep tail) ht'
    have howed := owed_le k' t
    have hahead := ahead_le h.of_restrict ht hstep.1.2
    rcases hle.eq_or_lt with htop | hlt
    · rw [patience_top htop] at hbound
      omega
    · rw [patience_below hlt] at hbound
      omega

/-- The theorem for a thread of lowest priority that `main` has created. -/
theorem aging_starts : ∃ k, k.ready_list = [2] ∧ (k.threads 2).priority = PRI_MIN ∧ Ages k 2 := by
  obtain ⟨k, hrun, hk⟩ := exists_of_any (checked (fun k l => decide (StaysInRange k l)) step)
    (boot false true 0)
    (start_up ++ .call (.thread_create PRI_MIN) ::
      (.replicate 8 (.next ⟨some 2, 0⟩) ++ .replicate 33 (.next ⟨none, 0⟩)))
    (fun k => k.ready_list = [2] ∧ (k.threads 2).priority = PRI_MIN) (by decide +kernel)
  obtain ⟨hready, hpriority⟩ := of_decide_eq_true hk
  have hreach : aging_kernel.Reachable k :=
    runLabels_checked (fun _ _ h => of_decide_eq_true h) ⟨false, true, 0, rfl⟩ hrun
  exact ⟨k, hready, hpriority, (aging_prevents_starvation hreach (by simp [hready])).1⟩

end pintos.prj3
