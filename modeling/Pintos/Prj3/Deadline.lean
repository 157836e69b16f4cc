import Pintos.Prj3.Wakeup

/-!
# The deadline of `timer_sleep`

The deadline is computed in 64 bits and stored in the 32 bits of
`alarm_ticks`. A tick wakes a sleeper exactly when the stored number has come.
-/

open twos_complement strict_weak pintos.kernel transition placement

namespace pintos.prj3

variable {k k' k₁ : Kernel} {i : Instr} {is rest : List Instr} {t : ThreadId} {start ticks : Int}

/-- The value is one that an `int64_t` can have. -/
def IsInt64 (x : Int) : Prop := -9223372036854775808 ≤ x ∧ x ≤ 9223372036854775807

/-- The thread sleeps in a call `timer_sleep (ticks)` made at tick `start`. -/
structure Asleep (k : Kernel) (t : ThreadId) (start ticks : Int) : Prop where
  queued : t ∈ k.sleep_list
  call : ∃ rest, resume_point (k.threads t).code =
    .ret .thread_sleep :: .intr_set_level .INTR_ON :: .ret (.timer_sleep start ticks) :: rest

/-! ## `sleep_list` is in order of the stored numbers -/

theorem Calm.alarm_ticks_comp (h : Calm k k') : alarm_ticks_comp k' = alarm_ticks_comp k := by
  funext e1 e2
  simp [prj3.alarm_ticks_comp, h.alarm_ticks]

theorem alarm_ticks_comp_congr (h : ∀ t, (k'.threads t).alarm_ticks = (k.threads t).alarm_ticks) :
    alarm_ticks_comp k' = alarm_ticks_comp k := by
  funext e1 e2
  simp [alarm_ticks_comp, h]

theorem Wf.step_sleep_ordered (h : Wf k) {l : Label} (hs : prj3.step k l = some k')
    (ho : Ordered (alarm_ticks_comp k) k.sleep_list) : Ordered (alarm_ticks_comp k') k'.sleep_list := by
  by_cases hl : l = .timer
  · subst hl
    obtain ⟨hon, he⟩ := step_ok hs
    obtain ⟨k₁, -, hw, ho₁, -, rfl⟩ := h.tick hon he
    have hcalm := accounted_calm k₁
    rw [alarm_ticks_comp_congr fun t => (leave_interrupt_keys _ t).alarm_ticks, hcalm.alarm_ticks_comp]
    change Ordered (alarm_ticks_comp k₁) (accounted k₁).sleep_list
    rw [hcalm.sleep_list]
    exact ho₁ .sleep ho
  · exact (h.step_shifts (q := .sleep) hl hs).ordered ho

theorem reachable_sleep_ordered (h : kernel.Reachable k) : Ordered (alarm_ticks_comp k) k.sleep_list :=
  h.invariant (I := fun k => Ordered (alarm_ticks_comp k) k.sleep_list)
    (fun s hs => by
      obtain ⟨mlfqs, aging, t₀, rfl⟩ := hs
      exact List.Pairwise.nil)
    fun _ _ _ hr ho hs => (reachable_wf hr).step_sleep_ordered hs ho

theorem on_time_mono (k : Kernel) (tick : Int) (a b : ThreadId) (hab : alarm_ticks_comp k b a = false)
    (hb : decide ((k.threads b).alarm_ticks ≤ tick) = true) :
    decide ((k.threads a).alarm_ticks ≤ tick) = true := by
  simp only [alarm_ticks_comp, decide_eq_false_iff_not, not_lt, decide_eq_true_eq] at hab hb ⊢
  omega

/-- The sleepers whose stored number has come are at the front of `sleep_list`. -/
theorem due_eq_filter (ho : Ordered (alarm_ticks_comp k) k.sleep_list) :
    due k = k.sleep_list.filter fun t => (k.threads t).alarm_ticks ≤ k.ticks + 1 :=
  ho.takeWhile_eq_filter (on_time_mono k _)

/-- A sleeper is due exactly when its stored number has come. -/
theorem mem_due (ho : Ordered (alarm_ticks_comp k) k.sleep_list) :
    t ∈ due k ↔ t ∈ k.sleep_list ∧ (k.threads t).alarm_ticks ≤ k.ticks + 1 := by
  rw [due_eq_filter ho, List.mem_filter, decide_eq_true_eq]

/-! ## What is stored -/

/-- In pending code, the argument of `thread_sleep` is the deadline of the
surrounding call of `timer_sleep`. -/
def Deadlines : List Instr → Prop
  | [] => True
  | i :: rest => (∀ n, i = .thread_sleep n → ∀ level start ticks r,
      rest = .intr_set_level level :: .ret (.timer_sleep start ticks) :: r → n = int64 (start + ticks)) ∧
    Deadlines rest

theorem Leaves.deadlines {cur : ThreadId} (h : Leaves cur i is) (hd : Deadlines (i :: rest)) :
    Deadlines (is ++ rest) := by
  cases h with
  | expands h => cases h <;> simp_all [Deadlines]
  | _ => simp_all [Deadlines]

theorem deadlines_rule : CodeRule Deadlines where
  nil := trivial
  exit := by simp [Deadlines]
  boot := by simp [Deadlines]
  start f := by simp [Deadlines]
  call c := by cases c <;> simp [Deadlines, Call.instr]
  tail _ _ h := h.2
  leaves _ _ _ _ h hd := h.deadlines hd
  tick _ h := by simp [Deadlines, h]

/-- A sleeper goes on sleeping in the same call. -/
theorem Asleep.of_code (h : Asleep k' t start ticks) (hqueued : t ∈ k.sleep_list)
    (hcode : (k'.threads t).code = (k.threads t).code ∨ (k'.threads t).code = [] ∨
      ∃ f, (k'.threads t).code = [.kernel_thread f]) : Asleep k t start ticks := by
  obtain ⟨rest, hcall⟩ := h.call
  refine ⟨hqueued, rest, ?_⟩
  rcases hcode with hc | hc | ⟨f, hc⟩
  · rwa [hc] at hcall
  · simp [hc, resume_point] at hcall
  · simp [hc, resume_point] at hcall

/-- The switch away from a thread that has just gone to sleep. -/
theorem Wf.asleep_of_schedule (h : Wf k) (hcode : k.code = .schedule :: rest)
    (hown : (k'.threads k.current).code = [] ∨ (k'.threads k.current).code = rest)
    (hqueued : k.current ∈ k.sleep_list) (ht : Asleep k' k.current start ticks) :
    Asleep k k.current start ticks := by
  obtain ⟨r, hcall⟩ := ht.call
  refine ⟨hqueued, r, ?_⟩
  have hcur : (k.threads k.current).code = .schedule :: rest := hcode
  have hfirst := h.switching.first
  rw [hcode, List.tail_cons] at hfirst
  rw [hcur]
  rcases hown with hc | hc
  · simp [hc, resume_point] at hcall
  · rw [hc] at hcall
    cases rest with
    | nil => simp [resume_point] at hcall
    | cons i rest =>
      have hi : i ≠ .schedule := fun hi => hfirst (by simp [hi])
      cases i <;> first | exact absurd rfl hi | exact hcall

/-- The number stored in a sleeper is its deadline, cut to 32 bits. -/
def Timed (k : Kernel) : Prop :=
  ∀ t start ticks, Asleep k t start ticks → (k.threads t).alarm_ticks = int32 (int64 (start + ticks))

theorem Wf.exec_timed (h : Wf k) (hdeadlines : Deadlines k.code) (hcode : k.code = i :: rest)
    {env : Env} (henv : env.Allowed k) (he : prj3.exec k.pop env i = .ok k')
    (hk : Timed k) : Timed k' := by
  have hexec := h.exec_effect hcode henv he
  intro t start ticks ht
  by_cases hold : t ∈ k.sleep_list
  · have hasleep : Asleep k t start ticks := by
      by_cases hcur : t = k.current
      · subst hcur
        have hi : i = .schedule := by
          by_contra hi
          exact h.ne_current (q := .sleep) (by simpa [hcode] using hi) hold rfl
        subst hi
        rcases hexec.own with ⟨hown, -⟩ | ⟨-, is', hleaves, -⟩
        · exact h.asleep_of_schedule hcode hown hold ht
        · cases hleaves with
          | expands hexpands => cases hexpands
      · exact ht.of_code hold ((hexec.code t hcur).imp_right And.right)
    rw [(hexec.sleepers t hold).2]
    exact hk t start ticks hasleep
  · obtain ⟨rfl, n, rfl, ha⟩ := (hexec.asleep t ht.queued).resolve_left hold
    rcases hexec.own with ⟨-, hi⟩ | ⟨hcurrent, is', hleaves, hc⟩
    · cases hi
    obtain ⟨r, hcall⟩ := ht.call
    rw [Kernel.code, hcurrent] at hc
    have hrest : rest = .intr_set_level .INTR_ON :: .ret (.timer_sleep start ticks) :: r := by
      rw [hc] at hcall
      cases hleaves with
      | expands hexpands => cases hexpands
      | thread_sleep _ => simpa [resume_point] using hcall
    rw [hcode] at hdeadlines
    rw [ha, hdeadlines.1 n rfl _ _ _ _ hrest]

/-- A step that puts no thread to sleep. -/
theorem Wf.effect_timed (h : Wf k) (hrun : k.code.head? ≠ some .schedule) (heffect : Effect k k')
    (hsleep : k'.sleep_list = k.sleep_list) (hk : Timed k) : Timed k' := by
  intro t start ticks ht
  have hold : t ∈ k.sleep_list := hsleep ▸ ht.queued
  have hasleep := ht.of_code hold
    ((heffect.code t (h.ne_current (q := .sleep) hrun hold)).imp_right And.right)
  rw [(heffect.sleepers t hold).2]
  exact hk t start ticks hasleep

theorem Wf.push_timed (h : Wf k) (hrun : k.code.head? ≠ some .schedule) (hk : Timed k) :
    Timed (k.push is) := by
  intro t start ticks ht
  have hne := h.ne_current (q := .sleep) hrun ht.queued
  rw [(set_code_keys k _ t).alarm_ticks]
  exact hk t start ticks (ht.of_code ht.queued (.inl (by simp [hne])))

/-- What the tick does to a sleeper: it is made ready, or sleeps on. -/
theorem Wf.tick_sleeper (h : Wf k) (hon : k.intr_level = .INTR_ON) (he : prj3.intr_handler k = .ok k')
    (hqueued : t ∈ k.sleep_list) : k'.ticks = k.ticks + 1 ∧
      (k'.threads t).alarm_ticks = (k.threads t).alarm_ticks ∧ (k'.threads t).code = (k.threads t).code ∧
      (t ∈ due k → t ∈ k'.ready_list ∧ (k'.threads t).status = .THREAD_READY ∧ t ∉ k'.sleep_list) ∧
      (t ∉ due k → t ∈ k'.sleep_list) := by
  obtain ⟨k₁, hw₁, hw, -, -, rfl⟩ := h.tick hon he
  have hcalm := accounted_calm k₁
  have hne := h.ne_current (q := .sleep) (h.switching.not_pending hon) hqueued
  have hne' : t ≠ (accounted k₁).current := by
    rw [hcalm.current, hw.current]
    exact hne
  refine ⟨hcalm.ticks.trans hw.ticks, ?_, ?_, fun hdue => ⟨?_, ?_, ?_⟩, fun hdue => ?_⟩
  · rw [(leave_interrupt_keys _ t).alarm_ticks, hcalm.alarm_ticks, hw.alarm_ticks]
  · simp [leave_interrupt, hne', hcalm.code, hw.code]
  · change t ∈ (accounted k₁).ready_list
    rw [hcalm.ready_list.mem_iff, hw.ready_list.mem_iff]
    exact List.mem_append_left _ hdue
  · simp [leave_interrupt, hne', hcalm.status, hw.status, hdue]
  · change t ∉ (accounted k₁).sleep_list
    rw [hcalm.sleep_list]
    intro hsleep
    have hready : t ∈ k₁.ready_list := hw.ready_list.mem_iff.mpr (List.mem_append_left _ hdue)
    have hq : t ∈ k₁.queue .ready := hready
    cases hw₁.settled.queues.unique (q := .sleep) hsleep hq
  · change t ∈ (accounted k₁).sleep_list
    rw [hcalm.sleep_list]
    rw [hw.sleep_list] at hqueued
    exact (List.mem_append.mp hqueued).resolve_left hdue

theorem Wf.step_timed (h : Wf k) (hdeadlines : ∀ t, Deadlines (k.threads t).code) {l : Label}
    (hs : prj3.step k l = some k') (hk : Timed k) : Timed k' := by
  obtain ⟨henabled, he⟩ := step_ok hs
  cases l with
  | next env =>
    obtain ⟨i, rest, hcode⟩ := List.exists_cons_of_ne_nil henabled.1
    simp only [perform, hcode] at he
    exact h.exec_timed (hdeadlines k.current) hcode henabled.2 he hk
  | timer =>
    intro t start ticks ht
    have hold : t ∈ k.sleep_list := by
      obtain ⟨k₁, -, hw, -, -, rfl⟩ := h.tick henabled he
      have hsleep : t ∈ (accounted k₁).sleep_list := ht.queued
      rw [(accounted_calm k₁).sleep_list] at hsleep
      rw [hw.sleep_list]
      exact List.mem_append_right _ hsleep
    obtain ⟨-, halarm, hcode, -, -⟩ := h.tick_sleeper henabled he hold
    rw [halarm]
    exact hk t start ticks (ht.of_code hold (.inl hcode))
  | call c =>
    obtain ⟨hcode, hallowed⟩ := henabled
    have hrun : k.code.head? ≠ some .schedule := by simp [hcode]
    have heffect := h.step_effect (l := .call c) (by simp) hs
    by_cases hsimple : c.Simple
    · obtain ⟨hw, hc⟩ := h.simple_call hsimple hcode
      refine hw.exec_timed ?_ hc (no_page_allowed _) (by rwa [push_pop])
        (h.push_timed hrun hk)
      rw [hc]
      exact deadlines_rule.call c
    · refine h.effect_timed hrun heffect ?_ hk
      cases c with
      | thread_exit =>
        simp only [perform, Call.instr, prj3.exec, prj3.thread_exit, ASSERT_bind_ok,
          thread_current_bind_ok, ok_eq_ok] at he
        obtain ⟨-, -, -, rfl⟩ := he
        rfl
      | thread_unblock t =>
        obtain ⟨-, -, rfl⟩ := thread_unblock_ok.mp he
        rfl
      | sema_init n v =>
        obtain rfl := ok_eq_ok.mp he
        rfl
      | _ => exact absurd trivial hsimple

theorem reachable_timed (h : kernel.Reachable k) : Timed k := by
  refine h.invariant (fun s hs => ?_) fun s l s' hr hk hs =>
    (reachable_wf hr).step_timed (reachable_codes deadlines_rule hr) hs hk
  obtain ⟨mlfqs, aging, t₀, rfl⟩ := hs
  intro t start ticks ht
  have hqueued := ht.queued
  simp [boot] at hqueued

/-! ## A sleeper during a run -/

theorem Wf.sleeper_code (h : Wf k) (hqueued : t ∈ k.sleep_list) :
    ∃ r, resume_point (k.threads t).code = .ret .thread_sleep :: r := by
  have hp := h.place_of_sleeper hqueued
  obtain ⟨-, -, hb⟩ := blocked_of_place (by rw [hp]; rfl) (by rw [hp]; simp)
  rw [hp] at hb
  generalize hc : resume_point (k.threads t).code = code at hb
  unfold blocked_place at hb
  split at hb <;> first | exact ⟨_, rfl⟩ | (try split at hb) <;> cases hb

/-- A thread that is asleep after a step as before it sleeps in the same call. -/
theorem Wf.step_asleep (h : Wf k) (h' : Wf k') {l : Label} (hs : prj3.step k l = some k')
    (ht : Asleep k t start ticks) (hqueued : t ∈ k'.sleep_list) : Asleep k' t start ticks := by
  obtain ⟨r', hcode'⟩ := h'.sleeper_code hqueued
  obtain ⟨r, hcall⟩ := ht.call
  by_cases hl : l = .timer
  · subst hl
    obtain ⟨hon, he⟩ := step_ok hs
    obtain ⟨-, -, hsame, -, -⟩ := h.tick_sleeper hon he ht.queued
    exact ⟨hqueued, r, by rw [hsame, hcall]⟩
  by_cases hcur : t = k.current
  · -- only a thread that has still to switch away is asleep while it runs
    have hpending : k.code.head? = some .schedule := by
      by_contra hrun
      exact h.ne_current (q := .sleep) hrun ht.queued hcur
    obtain ⟨henabled, he⟩ := step_ok hs
    obtain ⟨rest, hcode⟩ := List.head?_eq_some_iff.mp hpending
    have hcur_code : (k.threads k.current).code = .schedule :: rest := hcode
    cases l with
    | timer => exact absurd rfl hl
    | call c => simp [henabled.1] at hcode
    | next env =>
      simp only [perform, hcode] at he
      rw [hcur] at hcode' hcall hqueued ⊢
      rw [hcur_code] at hcall
      have hexec := h.schedule_effect hcode he
      rcases hexec.own with ⟨hc | hc, -⟩ | ⟨-, is', hleaves, -⟩
      · simp [hc, resume_point] at hcode'
      · refine ⟨hqueued, r, ?_⟩
        have hrest : rest = .ret .thread_sleep :: .intr_set_level .INTR_ON ::
          .ret (.timer_sleep start ticks) :: r := hcall
        rw [hc, hrest]
        rfl
      · cases hleaves with
        | expands hexpands => cases hexpands
  · rcases (h.step_effect hl hs).code t hcur with hc | ⟨-, hc | ⟨f, hc⟩⟩
    · exact ⟨hqueued, r, by rw [hc, hcall]⟩
    · simp [hc, resume_point] at hcode'
    · simp [hc, resume_point] at hcode'

theorem Wf.step_ticks (h : Wf k) {l : Label} (hs : prj3.step k l = some k') :
    k.ticks ≤ k'.ticks := by
  by_cases hl : l = .timer
  · subst hl
    obtain ⟨hon, he⟩ := step_ok hs
    obtain ⟨k₁, -, hw, -, -, rfl⟩ := h.tick hon he
    have hticks : (leave_interrupt (accounted k₁)).ticks = k.ticks + 1 :=
      (accounted_calm k₁).ticks.trans hw.ticks
    omega
  · exact (h.step_effect hl hs).ticks.ge

/-- The runs during which a thread sleeps. -/
def StaysAsleep (t : ThreadId) (k : Kernel) (_ : Label) : Prop := t ∈ k.sleep_list

/-- During such a run the clock does not go back and the thread sleeps in the same call. -/
theorem run_asleep {ls : List Label} (hrun : (kernel.restrict (StaysAsleep t)).Run k ls k')
    (h : kernel.Reachable k) (ht : Asleep k t start ticks) (hqueued : t ∈ k'.sleep_list) :
    kernel.Reachable k' ∧ k.ticks ≤ k'.ticks ∧ Asleep k' t start ticks := by
  induction hrun with
  | nil s => exact ⟨h, le_rfl, ht⟩
  | cons hstep tail ih =>
    rename_i s s' s'' l ls
    have hr' := h.step hstep.2
    have hmid : t ∈ s'.sleep_list := by
      cases tail with
      | nil => exact hqueued
      | cons hnext _ => exact hnext.1
    obtain ⟨hr, hle, hasleep⟩ := ih hr'
      ((reachable_wf h).step_asleep (reachable_wf hr') hstep.2 ht hmid) hqueued
    exact ⟨hr, ((reachable_wf h).step_ticks hstep.2).trans hle, hasleep⟩

/-! ## The deadline -/

/-- The number stored for a deadline is on the same side of every tick after
`now` as the deadline. -/
def InTime (now deadline : Int) : Prop :=
  int32 deadline = deadline ∨ (deadline ≤ now + 1 ∧ int32 deadline ≤ now + 1)

instance (now deadline : Int) : Decidable (InTime now deadline) :=
  inferInstanceAs (Decidable (_ ∨ _ ∧ _))

theorem inTime_iff {now deadline : Int} :
    InTime now deadline ↔ ∀ tick > now, int32 deadline ≤ tick ↔ deadline ≤ tick := by
  refine ⟨fun h tick htick => ?_, fun h => ?_⟩
  · rcases h with h | ⟨h, h'⟩
    · rw [h]
    · exact iff_of_true (by omega) (by omega)
  · by_cases heq : int32 deadline = deadline
    · exact .inl heq
    · refine .inr ?_
      have hnext := h (now + 1) (by omega)
      have hlow := h (int32 deadline)
      have hhigh := h deadline
      omega

/-- The thread is off `sleep_list` and in the run queue. -/
structure Woken (k : Kernel) (t : ThreadId) : Prop where
  ready : t ∈ k.ready_list
  status : (k.threads t).status = .THREAD_READY
  left : t ∉ k.sleep_list

/-- A tick wakes a sleeper exactly when the stored number has come, and leaves
it asleep otherwise. -/
theorem tick_wakes_iff (h : kernel.Reachable k) (ht : Asleep k t start ticks)
    (hrange : IsInt64 (start + ticks)) (hs : step k .timer = some k') :
    (Woken k' t ↔ int32 (start + ticks) ≤ k'.ticks) ∧ (¬ Woken k' t → Asleep k' t start ticks) := by
  have hw := reachable_wf h
  obtain ⟨hon, he⟩ := step_ok hs
  obtain ⟨hticks, halarm, hcode, hwoken, hsleeps⟩ := hw.tick_sleeper hon he ht.queued
  have hstored := reachable_timed h t start ticks ht
  rw [int64_of_range hrange.1 hrange.2] at hstored
  have hdue : t ∈ due k ↔ int32 (start + ticks) ≤ k'.ticks := by
    rw [mem_due (reachable_sleep_ordered h), hstored, hticks]
    exact and_iff_right ht.queued
  have hwoken_iff : Woken k' t ↔ t ∈ due k := by
    refine ⟨fun hwk => ?_, fun hd => ⟨(hwoken hd).1, (hwoken hd).2.1, (hwoken hd).2.2⟩⟩
    by_contra hd
    exact hwk.left (hsleeps hd)
  refine ⟨hwoken_iff.trans hdue, fun hnot => ?_⟩
  exact hw.step_asleep (hw.step hs) hs ht (hsleeps fun hd => hnot (hwoken_iff.mpr hd))

/-- The running thread is about to go to sleep in `timer_sleep (ticks)`, called
at tick `start`. -/
def FallsAsleep (k : Kernel) (start ticks : Int) : Prop :=
  ∃ rest, k.code = .thread_sleep (int64 (start + ticks)) :: .intr_set_level .INTR_ON ::
    .ret (.timer_sleep start ticks) :: rest

theorem falls_asleep (hfalls : FallsAsleep k start ticks) {env : Env}
    (hs : step k (.next env) = some k') : Asleep k' k.current start ticks ∧ k'.ticks = k.ticks := by
  obtain ⟨rest, hcode⟩ := hfalls
  have he := (step_ok hs).2
  simp only [perform, hcode] at he
  obtain ⟨-, -, -, -, rfl⟩ := thread_sleep_ok.mp he
  refine ⟨⟨mem_list_insert_ordered.mpr (.inl rfl), rest, ?_⟩, rfl⟩
  have hcur : (k.threads k.current).code = _ := hcode
  simp [block, enqueue_sleeper, Kernel.code, hcur, resume_point]

/-- A thread goes to sleep in `timer_sleep`, with a deadline that can be
represented. If the deadline is in time, each later tick that finds the thread
asleep wakes it exactly when the tick has reached the deadline. At any tick
this holds exactly when the deadline cut to 32 bits and the deadline are on the
same side of the tick. -/
theorem timer_sleep_deadline (h : kernel.Reachable k) (hfalls : FallsAsleep k start ticks)
    (hrange : IsInt64 (start + ticks)) {env : Env} (hs : step k (.next env) = some k₁)
    {ls : List Label} {k₂ k₃ : Kernel} (hrun : (kernel.restrict (StaysAsleep k.current)).Run k₁ ls k₂)
    (hqueued : k.current ∈ k₂.sleep_list) (htick : step k₂ .timer = some k₃) :
    (InTime k.ticks (start + ticks) → (Woken k₃ k.current ↔ start + ticks ≤ k₃.ticks)) ∧
      ((Woken k₃ k.current ↔ start + ticks ≤ k₃.ticks) ↔
        (int32 (start + ticks) ≤ k₃.ticks ↔ start + ticks ≤ k₃.ticks)) := by
  obtain ⟨hasleep, hticks⟩ := falls_asleep hfalls hs
  obtain ⟨hr₂, hle, hasleep₂⟩ := run_asleep hrun (h.step hs) hasleep hqueued
  have hwakes := (tick_wakes_iff hr₂ hasleep₂ hrange htick).1
  have hafter : k₃.ticks > k.ticks := by
    obtain ⟨hon, he⟩ := step_ok htick
    have hnext := ((reachable_wf hr₂).tick_sleeper hon he hqueued).1
    omega
  refine ⟨fun hin => hwakes.trans (inTime_iff.mp hin _ hafter), ?_⟩
  rw [hwakes]

/-- `main` calls `timer_sleep (ticks)` before the first tick and gets to `thread_sleep`. -/
def call_timer_sleep (ticks : Int) : List Label :=
  start_up ++ [.call (.timer_sleep ticks), .next ⟨none, 0⟩]

/-- The theorem at the first tick, which wakes `main` from `timer_sleep (1)`. -/
theorem timer_sleep_one_tick : ∃ k₃, k₃.ticks = 1 ∧ (Woken k₃ 0 ↔ 0 + 1 ≤ k₃.ticks) := by
  obtain ⟨k, hrun, hk⟩ := exists_of_any step (boot false false 0) (call_timer_sleep 1)
    (fun k => k.current = 0 ∧ k.ticks = 0 ∧
      k.code = [.thread_sleep (int64 (0 + 1)), .intr_set_level .INTR_ON, .ret (.timer_sleep 0 1)] ∧
      (step k (.next ⟨none, 0⟩)).any fun k₁ =>
        (runLabels (checked (fun k _ => decide (0 ∈ k.sleep_list)) step) k₁
          (.replicate 3 (.next ⟨none, 0⟩))).any fun k₂ =>
          0 ∈ k₂.sleep_list ∧ (step k₂ .timer).any fun k₃ => k₃.ticks = 1)
    (by decide +kernel)
  obtain ⟨hcurrent, hticks, hcode, hnext⟩ := of_decide_eq_true hk
  obtain ⟨k₁, hs, hnext⟩ := (Option.any_eq_true _ _).mp hnext
  obtain ⟨k₂, hsleeps, hnext⟩ := (Option.any_eq_true _ _).mp hnext
  obtain ⟨hqueued, hnext⟩ := of_decide_eq_true hnext
  obtain ⟨k₃, htick, hone⟩ := (Option.any_eq_true _ _).mp hnext
  have hcheck : ∀ (k : Kernel) (l : Label), decide (0 ∈ k.sleep_list) = true → StaysAsleep 0 k l :=
    fun k l h => by simpa [StaysAsleep] using h
  have hstays : (kernel.restrict (StaysAsleep k.current)).Run k₁ (.replicate 3 (.next ⟨none, 0⟩)) k₂ := by
    rw [hcurrent]
    exact runLabels_checked_run hcheck hsleeps
  have hdeadline := (timer_sleep_deadline (runLabels_reachable ⟨false, false, 0, rfl⟩ hrun) ⟨[], hcode⟩
    (by constructor <;> norm_num) hs hstays (by rwa [hcurrent]) htick).1
    (by rw [hticks]; decide)
  rw [hcurrent] at hdeadline
  exact ⟨k₃, of_decide_eq_true hone, hdeadline⟩

/-- A deadline of `2 ^ 32 + 1` is cut to 1: the first tick wakes the sleeper. -/
theorem timer_sleep_wakes_early : ∃ k k', kernel.Reachable k ∧ Asleep k 0 0 4294967297 ∧
    step k .timer = some k' ∧ Woken k' 0 ∧ k'.ticks < 0 + 4294967297 := by
  obtain ⟨k, hrun, hk⟩ := exists_of_any step (boot false false 0)
    (call_timer_sleep 4294967297 ++ .replicate 4 (.next ⟨none, 0⟩))
    (fun k => 0 ∈ k.sleep_list ∧ (k.threads 0).code =
        [.ret .thread_sleep, .intr_set_level .INTR_ON, .ret (.timer_sleep 0 4294967297)] ∧
      (step k .timer).any fun k' => 0 ∈ k'.ready_list ∧ (k'.threads 0).status = .THREAD_READY ∧
        0 ∉ k'.sleep_list ∧ k'.ticks < 0 + 4294967297)
    (by decide +kernel)
  obtain ⟨hqueued, hcode, htick⟩ := of_decide_eq_true hk
  obtain ⟨k', hs, hk'⟩ := (Option.any_eq_true _ _).mp htick
  obtain ⟨hready, hstatus, hleft, hearly⟩ := of_decide_eq_true hk'
  refine ⟨k, k', runLabels_reachable ⟨false, false, 0, rfl⟩ hrun, ⟨hqueued, [], ?_⟩, hs,
    ⟨hready, hstatus, hleft⟩, hearly⟩
  rw [hcode]
  rfl

end pintos.prj3
