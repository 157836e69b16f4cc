import Pintos.Prj3.RecentCpu
import Pintos.Prj3.ThreadStates

/-!
# Threads that spin

A number of threads do nothing but spin. The timer makes each of them yield in
turn, all of them are ready or running at every second, and their `recent_cpu`
follows the recurrence of a thread with their nice value from below.
-/

open twos_complement pintos.kernel transition

namespace pintos.prj3

variable {k k' k₁ : Kernel} {l : Label} {is rest : List Instr} {t : ThreadId} {n : Nat} {load low : Int}

theorem step_of_perform (henabled : Enabled k l) (hp : perform k l = .ok k') : step k l = some k' := by
  rw [step, if_pos henabled, hp]
  rfl

/-! ## The handler succeeds -/

/-- The handler of an external interrupt has interrupted a running thread. -/
structure InHandler (k : Kernel) : Prop where
  thread : is_thread k k.current
  running : (k.threads k.current).status = .THREAD_RUNNING
  external : k.in_external_intr = true

theorem InHandler.calm (h : InHandler k) (hcalm : Calm k k') : InHandler k' where
  thread := by
    rw [is_thread, hcalm.current, hcalm.magic]
    exact h.thread
  running := by
    rw [hcalm.current, hcalm.status]
    exact h.running
  external := hcalm.interrupt.2.1.trans h.external

theorem InHandler.yields (h : InHandler k) : ∃ k', yield_if_outranked k = .ok k' := by
  unfold yield_if_outranked
  split
  · exact ⟨k, rfl⟩
  · rename_i m hm
    by_cases hlt : (k.threads k.current).priority < m
    · refine ⟨{ k with yield_on_return := true }, thread_current_bind_ok.mpr ⟨h.thread, h.running, ?_⟩⟩
      rw [if_pos hlt]
      exact intr_yield_on_return_ok.mpr ⟨h.external, rfl⟩
    · refine ⟨k, thread_current_bind_ok.mpr ⟨h.thread, h.running, ?_⟩⟩
      rw [if_neg hlt]

theorem InHandler.aging_tick (h : InHandler k) : ∃ k', aging_tick k = .ok k' := by
  unfold prj3.aging_tick
  split
  · exact (h.calm (aged_calm k)).yields
  · exact ⟨k, rfl⟩

theorem InHandler.thread_tick (h : InHandler k) : ∃ k', thread_tick k = .ok k' := by
  simp only [prj3.thread_tick, thread_current_bind_ok]
  split
  · exact ⟨_, h.thread, h.running, intr_yield_on_return_ok.mpr ⟨h.external, rfl⟩⟩
  · exact ⟨_, h.thread, h.running, rfl⟩

theorem InHandler.mlfqs_tick (h : InHandler k) : ∃ k', mlfqs_tick k = .ok k' := by
  have hcharge : update_periodic_recent_cpu k = .ok (charged k) := by
    refine thread_current_bind_ok.mpr ⟨h.thread, h.running, ?_⟩
    unfold charged
    split <;> rfl
  have hc := h.calm (charged_calm k)
  have hsecond : mlfqs_second (charged k) = .ok (spent k) := by
    unfold mlfqs_second spent
    rw [(charged_calm k).ticks]
    split
    · rw [bind_eq_ok_iff]
      exact ⟨_, thread_current_bind_ok.mpr ⟨hc.thread, hc.running, rfl⟩, rfl⟩
    · rfl
  have hs := h.calm (spent_calm k)
  by_cases hfour : (spent k).ticks % 4 = 0
  · obtain ⟨k', hk'⟩ := (hs.calm ((recomputed_calm _).trans (sorted_calm _))).yields
    refine ⟨k', bind_eq_ok_iff.mpr ⟨_, hcharge, bind_eq_ok_iff.mpr ⟨_, hsecond, ?_⟩⟩⟩
    rw [if_pos hfour]
    exact hk'
  · refine ⟨spent k, bind_eq_ok_iff.mpr ⟨_, hcharge, bind_eq_ok_iff.mpr ⟨_, hsecond, ?_⟩⟩⟩
    rw [if_neg hfour]

/-- With no thread asleep the timer interrupt fails no assertion. -/
theorem Wf.timer_succeeds (h : Wf k) (hon : k.intr_level = .INTR_ON) (hext : k.in_external_intr = false)
    (hasleep : k.sleep_list = []) : ∃ k', prj3.step k .timer = some k' := by
  obtain ⟨hthread, hrunning⟩ := place_running.mp (h.current_running (h.switching.not_pending hon))
  have hstart : InHandler { k with
      intr_level := .INTR_OFF
      in_external_intr := true
      yield_on_return := false
      ticks := k.ticks + 1 } := ⟨hthread, hrunning, rfl⟩
  obtain ⟨k₁, htick⟩ := hstart.thread_tick
  obtain rfl := thread_tick_ok htick
  have hwake : thread_alarm (prj3.tick_start k) (k.ticks + 1) =
      .ok { prj3.tick_start k with yield_on_return := true } := by
    refine thread_alarm_ok.mpr ⟨prj3.tick_start k, ?_, rfl, rfl⟩
    have hnone : (prj3.tick_start k).sleep_list = [] := hasleep
    rw [hnone]
    rfl
  have hwoken : InHandler { prj3.tick_start k with yield_on_return := true } := ⟨hthread, hrunning, rfl⟩
  obtain ⟨k₂, hage⟩ := hwoken.aging_tick
  obtain rfl := aging_tick_ok hage rfl
  have haged := hwoken.calm (ripened_calm _)
  obtain ⟨k₃, htimer⟩ : ∃ k₃, timer_interrupt { k with
      intr_level := .INTR_OFF
      in_external_intr := true
      yield_on_return := false } = .ok k₃ := by
    by_cases hmlfqs : (ripened { prj3.tick_start k with yield_on_return := true }).thread_mlfqs
    · obtain ⟨k₃, hk₃⟩ := haged.mlfqs_tick
      refine ⟨k₃, bind_eq_ok_iff.mpr ⟨_, htick, bind_eq_ok_iff.mpr
        ⟨_, hwake, bind_eq_ok_iff.mpr ⟨_, hage, ?_⟩⟩⟩⟩
      rw [if_pos hmlfqs]
      exact hk₃
    · refine ⟨ripened { prj3.tick_start k with yield_on_return := true }, bind_eq_ok_iff.mpr ⟨_, htick,
        bind_eq_ok_iff.mpr ⟨_, hwake, bind_eq_ok_iff.mpr ⟨_, hage, ?_⟩⟩⟩⟩
      rw [if_neg hmlfqs]
  have hhandler : ∃ k', prj3.intr_handler k = .ok k' := by
    simp only [prj3.intr_handler, bind_eq_ok_iff]
    exact ⟨_, (), ASSERT_ok_iff.mpr hext, k₃, htimer, rfl⟩
  exact hhandler.imp fun k' hk' => step_of_perform hon hk'

/-! ## One turn -/

/-- What a thread that spins has to execute when it is switched to. -/
def Resumes (code : List Instr) : Prop :=
  code = [.kernel_thread .other] ∨
    code = [.intr_set_level .INTR_OFF, .intr_set_level .INTR_ON, .ret .timer_interrupt]

/-- `n` threads spin, each with nice value 20 and at least `low` as `recent_cpu`;
the running one has `is` to execute. -/
structure Crowd (n : Nat) (load low : Int) (is : List Instr) (k : Kernel) : Prop where
  reachable : (kernel.restrict (Moderate 300)).Reachable k
  mlfqs : k.thread_mlfqs = true
  nice : ∀ t ∈ k.all_list, -20 ≤ (k.threads t).nice ∧ (k.threads t).nice ≤ 20
  asleep : k.sleep_list = []
  load_avg : k.load_avg = load
  size : k.ready_list.length + 1 = n
  idle : ∀ t ∈ k.current :: k.ready_list, k.idle_thread ≠ some t
  spinning : ∀ t ∈ k.current :: k.ready_list, (k.threads t).nice = 20 ∧ low ≤ (k.threads t).recent_cpu
  ready : ∀ t ∈ k.ready_list, Resumes (k.threads t).code
  code : k.code = is

theorem Crowd.wf (h : Crowd n load low is k) : Wf k := reachable_wf h.reachable.of_restrict

theorem Crowd.moderate (h : Crowd n load low is k) (hl : l ≠ .timer) : Moderate 300 k l :=
  ⟨h.mlfqs, h.nice, fun ht => absurd ht hl⟩

theorem Crowd.next_reachable (h : Crowd n load low is k) (hs : step k (.next ⟨none, 0⟩) = some k') :
    (kernel.restrict (Moderate 300)).Reachable k' :=
  h.reachable.step ⟨h.moderate (by simp), hs⟩

/-- The same threads spin after a step that charges no thread. -/
theorem Crowd.transfer (h : Crowd n load low is k) (hreach : (kernel.restrict (Moderate 300)).Reachable k')
    (hmlfqs : k'.thread_mlfqs = k.thread_mlfqs) (hall : k'.all_list = k.all_list)
    (hasleep : k'.sleep_list = k.sleep_list) (hload : k'.load_avg = k.load_avg)
    (hidle : k'.idle_thread = k.idle_thread)
    (hthreads : (k'.current :: k'.ready_list).Perm (k.current :: k.ready_list))
    (haccount : ∀ t, (k'.threads t).account = (k.threads t).account)
    (hready : ∀ t ∈ k'.ready_list, Resumes (k'.threads t).code) : Crowd n load low k'.code k' := by
  have hcpu (t : ThreadId) : (k'.threads t).recent_cpu = (k.threads t).recent_cpu :=
      congrArg Prod.fst (haccount t)
  have hnice (t : ThreadId) : (k'.threads t).nice = (k.threads t).nice := congrArg Prod.snd (haccount t)
  refine ⟨hreach, hmlfqs.trans h.mlfqs, fun t ht => ?_, hasleep.trans h.asleep, hload.trans h.load_avg, ?_,
    fun t ht => ?_, fun t ht => ?_, hready, rfl⟩
  · rw [hnice]
    exact h.nice t (hall ▸ ht)
  · rw [← h.size]
    exact hthreads.length_eq
  · rw [hidle]
    exact h.idle t (hthreads.mem_iff.mp ht)
  · rw [hnice, hcpu]
    exact h.spinning t (hthreads.mem_iff.mp ht)

/-- The running thread is not in `ready_list`. -/
theorem Crowd.not_ready (h : Crowd n load low is k) (hrun : k.code.head? ≠ some .schedule) :
    k.current ∉ k.ready_list := fun hmem => by
  have hq := (h.wf.settled.queues.mem .ready k.current).mp hmem
  rw [h.wf.current_running hrun] at hq
  cases hq

/-- The running thread executes an instruction that concerns only the level. -/
theorem Crowd.runs_on {i : Instr} {level : IntrLevel} (h : Crowd n load low (i :: rest) k) (hi : i ≠ .schedule)
    (he : exec (k.set_code rest) ⟨none, 0⟩ i = .ok { k.set_code rest with intr_level := level }) :
    ∃ k', Crowd n load low rest k' ∧ k'.intr_level = level ∧ k'.ticks = k.ticks := by
  have hpop : k.pop = k.set_code rest := by rw [Kernel.pop, h.code, List.tail_cons]
  have hs : step k (.next ⟨none, 0⟩) = some { k.set_code rest with intr_level := level } := by
    refine step_of_perform ⟨by simp [h.code], no_page_allowed k⟩ ?_
    rw [perform, h.code]
    simp only
    rw [hpop, he]
  have hnot := h.not_ready (by simpa [h.code] using hi)
  refine ⟨{ k.set_code rest with intr_level := level }, ?_, rfl, rfl⟩
  have hcode : ({ k.set_code rest with intr_level := level } : Kernel).code = rest :=
      Kernel.code_set_code k rest
  have htransfer := h.transfer (h.next_reachable hs) rfl rfl rfl rfl rfl (.refl _) (fun t => ?_) fun t ht => ?_
  · rwa [hcode] at htransfer
  · by_cases ht : t = k.current <;> simp [ht, Thread.account]
  · have hne : t ≠ k.current := ne_of_mem_of_not_mem ht hnot
    simpa [hne] using h.ready t ht

theorem Crowd.set_level {level : IntrLevel} (h : Crowd n load low (.intr_set_level level :: rest) k) :
    ∃ k', Crowd n load low rest k' ∧ k'.intr_level = level ∧ k'.ticks = k.ticks := by
  apply h.runs_on (by simp)
  exact ASSERT_bind_ok.mpr ⟨fun _ => (reachable_levels h.reachable.of_restrict).outside, rfl⟩

/-- A thread that was switched to gets back to spinning. -/
theorem Crowd.resumed (h : Crowd n load low is k) (his : Resumes is) :
    ∃ k', Crowd n load low [] k' ∧ k'.intr_level = .INTR_ON ∧ k'.ticks = k.ticks := by
  obtain rfl | rfl := his
  · exact h.runs_on (by simp) rfl
  · obtain ⟨k₁, h₁, -, hticks₁⟩ := h.set_level
    obtain ⟨k₂, h₂, hon, hticks₂⟩ := h₁.set_level
    obtain ⟨k₃, h₃, hlevel, hticks₃⟩ := h₂.runs_on (by simp) rfl
    exact ⟨k₃, h₃, hlevel.trans hon, hticks₃.trans (hticks₂.trans hticks₁)⟩

/-- The running thread has put itself into `ready_list` and is about to switch away. -/
structure Yielding (n : Nat) (load low : Int) (rest : List Instr) (k : Kernel) : Prop where
  reachable : (kernel.restrict (Moderate 300)).Reachable k
  mlfqs : k.thread_mlfqs = true
  nice : ∀ t ∈ k.all_list, -20 ≤ (k.threads t).nice ∧ (k.threads t).nice ≤ 20
  asleep : k.sleep_list = []
  load_avg : k.load_avg = load
  size : k.ready_list.length = n
  positive : 0 < n
  idle : ∀ t ∈ k.ready_list, k.idle_thread ≠ some t
  spinning : ∀ t ∈ k.ready_list, (k.threads t).nice = 20 ∧ low ≤ (k.threads t).recent_cpu
  ready : ∀ t ∈ k.ready_list, Resumes ((k.set_code rest).threads t).code
  code : k.code = .schedule :: rest
  status : (k.threads k.current).status = .THREAD_READY

/-- `thread_yield` up to its call of `schedule`, in a thread that is not the idle thread. -/
def yielded (k : Kernel) : Kernel :=
  ((ready_insert { k.pop with intr_level := .INTR_OFF } k.current).update k.current
    fun th => { th with status := .THREAD_READY }).push [.schedule, .intr_set_level k.intr_level]

theorem yielded_account (k : Kernel) (t : ThreadId) : ((yielded k).threads t).account =
    (k.threads t).account := by
  by_cases ht : t = k.current <;> simp [yielded, ready_insert, ht, Thread.account]

theorem yielded_code_self (hcode : k.code = .thread_yield :: rest) :
    (yielded k).code = .schedule :: .intr_set_level k.intr_level :: rest := by
  rw [yielded, Kernel.code_set_code]
  simp [Kernel.code, ready_insert, show (k.threads k.current).code = .thread_yield :: rest from hcode]

theorem yielded_code_other (ht : t ≠ k.current) : ((yielded k).threads t).code = (k.threads t).code := by
  simp [yielded, ready_insert, ht]

theorem Crowd.yields (h : Crowd n load low (.thread_yield :: rest) k) (hoff : k.intr_level = .INTR_OFF)
    (hrest : Resumes (.intr_set_level .INTR_OFF :: rest)) :
    ∃ k', Yielding n load low (.intr_set_level .INTR_OFF :: rest) k' ∧ k'.ticks = k.ticks := by
  have hext := (reachable_levels h.reachable.of_restrict).outside
  have hidle := h.idle k.current (.head _)
  obtain ⟨hthread, hrunning⟩ := place_running.mp (h.wf.current_running (by simp [h.code]))
  have hs : step k (.next ⟨none, 0⟩) = some (yielded k) := by
    refine step_of_perform ⟨by simp [h.code], no_page_allowed k⟩ ?_
    rw [perform, h.code]
    simp only [exec]
    refine bind_eq_ok_iff.mpr ⟨_, thread_yield_ok.mpr ⟨?_, ?_, hext, rfl⟩, ?_⟩
    · simpa [is_thread] using hthread
    · simpa using hrunning
    · rw [if_pos (show k.pop.idle_thread ≠ some k.pop.current from hidle)]
      rfl
  have hnot := h.not_ready (by simp [h.code])
  have hperm : (yielded k).ready_list.Perm (k.current :: k.ready_list) := list_insert_ordered_perm _ _
  have hcpu (t : ThreadId) : ((yielded k).threads t).recent_cpu = (k.threads t).recent_cpu :=
    congrArg Prod.fst (yielded_account k t)
  have hnice (t : ThreadId) : ((yielded k).threads t).nice = (k.threads t).nice :=
    congrArg Prod.snd (yielded_account k t)
  refine ⟨yielded k, ⟨h.next_reachable hs, h.mlfqs, fun t ht => ?_, h.asleep, h.load_avg, ?_, ?_,
    fun t ht => ?_,
    fun t ht => ?_, fun t ht => ?_, ?_, ?_⟩, rfl⟩
  · rw [hnice]
    exact h.nice t ht
  · rw [hperm.length_eq]
    exact h.size
  · rw [← h.size]
    exact Nat.succ_pos _
  · exact h.idle t (hperm.mem_iff.mp ht)
  · rw [hnice, hcpu]
    exact h.spinning t (hperm.mem_iff.mp ht)
  · have hcur : (yielded k).current = k.current := rfl
    obtain rfl | ht := List.mem_cons.mp (hperm.mem_iff.mp ht)
    · simpa [hcur] using hrest
    · have hne : t ≠ k.current := ne_of_mem_of_not_mem ht hnot
      simpa [hcur, hne, yielded_code_other hne] using h.ready t ht
  · rw [yielded_code_self h.code, hoff]
  · simp [yielded, ready_insert]

/-- The thread switched to is one of those that spin. -/
theorem Yielding.switches (h : Yielding n load low rest k) :
    ∃ k', Crowd n load low k'.code k' ∧ Resumes k'.code ∧ k'.ticks = k.ticks := by
  have hw := reachable_wf h.reachable.of_restrict
  have hpop : k.pop = k.set_code rest := by rw [Kernel.pop, h.code, List.tail_cons]
  obtain ⟨u, l, hlist⟩ : ∃ u l, k.ready_list = u :: l := by
    apply List.exists_cons_of_ne_nil
    intro hnil
    have hsize := h.size
    have hpos := h.positive
    rw [hnil, List.length_nil] at hsize
    omega
  have hthread : is_thread (k.set_code rest) u := by
    have hu := hw.states_agree.thread u .ready (by simp [Kernel.queue, hlist])
    by_cases hc : u = k.current
    · simpa [is_thread, hc] using hc ▸ hu
    · simpa [is_thread, hc] using hu
  have hstatus : ((k.set_code rest).threads k.current).status = .THREAD_READY := by simp [h.status]
  have hs : step k (.next ⟨none, 0⟩) = some (switch_to (k.set_code rest) u) := by
    refine step_of_perform ⟨by simp [h.code], no_page_allowed _⟩ ?_
    rw [perform, h.code]
    simp only [exec]
    rw [hpop, schedule_ok]
    refine ⟨u, by simp [next_thread_to_run, hlist], hw.switching.intr_off (by simp [h.code]), ?_, hthread,
      .inl ⟨fun hfreed => ?_, rfl⟩⟩
    · rw [Kernel.set_code_current, hstatus]
      simp
    · have hdying := hfreed.2.1
      rw [Kernel.set_code_current, hstatus] at hdying
      cases hdying
  generalize hk' : switch_to (k.set_code rest) u = k' at hs
  have hcurrent : k'.current = u := by rw [← hk']; rfl
  have hready : k'.ready_list = l := by rw [← hk']; simp [switch_to, hlist]
  have hcode (t : ThreadId) : (k'.threads t).code = ((k.set_code rest).threads t).code := by
    rw [← hk']
    by_cases ht : t = u <;> simp [switch_to, ht]
  have haccount (t : ThreadId) : (k'.threads t).account = (k.threads t).account := by
    rw [← hk', ← set_code_account k rest t]
    by_cases ht : t = u <;> simp [switch_to, ht, Thread.account]
  have hcpu (t : ThreadId) : (k'.threads t).recent_cpu = (k.threads t).recent_cpu :=
      congrArg Prod.fst (haccount t)
  have hnice (t : ThreadId) : (k'.threads t).nice = (k.threads t).nice := congrArg Prod.snd (haccount t)
  have hmem (t : ThreadId) (ht : t ∈ k'.current :: k'.ready_list) : t ∈ k.ready_list := by
    rwa [hcurrent, hready, ← hlist] at ht
  have hresumes (t : ThreadId) (ht : t ∈ k'.current :: k'.ready_list) : Resumes (k'.threads t).code := by
    rw [hcode]
    exact h.ready t (hmem t ht)
  have hguard : Moderate 300 k (.next ⟨none, 0⟩) := ⟨h.mlfqs, h.nice, by simp⟩
  refine ⟨k', ⟨h.reachable.step ⟨hguard, hs⟩, ?_, fun t ht => ?_, ?_, ?_, ?_, fun t ht => ?_, fun t ht => ?_,
    fun t ht => hresumes t (.tail _ ht), rfl⟩, hresumes k'.current (.head _), ?_⟩
  · rw [← hk']
    exact h.mlfqs
  · rw [hnice]
    rw [← hk'] at ht
    exact h.nice t ht
  · rw [← hk']
    exact h.asleep
  · rw [← hk']
    exact h.load_avg
  · rw [hready, ← h.size, hlist, List.length_cons]
  · rw [← hk']
    exact h.idle t (hmem t ht)
  · rw [hnice, hcpu]
    exact h.spinning t (hmem t ht)
  · rw [← hk']
    rfl

/-! ## Ticks -/

/-- `load_avg` after the tick that makes `ticks` the number of ticks. -/
def tick_load (n : Nat) (ticks load : Int) : Int :=
  if ticks % TIMER_FREQ = 0 then new_load_avg load n else load

/-- A bound on `recent_cpu` from below after that tick, from one before it. -/
def tick_low (n : Nat) (ticks load low : Int) : Int :=
  if ticks % TIMER_FREQ = 0 then new_recent_cpu (new_load_avg load n) low 20 else low

theorem new_recent_cpu_mono {load cpu cpu' nice : Int} (hload : 0 ≤ load ∧ load ≤ 300 * F) (hle : cpu ≤ cpu')
    (hcpu : |cpu| ≤ F * (240 * 300 + 120)) (hcpu' : |cpu'| ≤ F * (240 * 300 + 120))
    (hnice : -20 ≤ nice ∧ nice ≤ 20) : new_recent_cpu load cpu nice ≤ new_recent_cpu load cpu' nice := by
  rw [(new_recent_cpu_eq (le_refl 300) hload hcpu hnice).1,
    (new_recent_cpu_eq (le_refl 300) hload hcpu' hnice).1]
  have hmul : coefficient load * cpu ≤ coefficient load * cpu' :=
    mul_le_mul_of_nonneg_left hle (coefficient_bound hload).1
  have hquot := Int.tdiv_le_tdiv (show (0 : Int) < F by decide) hmul
  omega

theorem Crowd.listed (h : Crowd n load low [] k) (ht : t ∈ k.current :: k.ready_list) : t ∈ k.all_list := by
  have hl := reachable_listed h.reachable.of_restrict
  obtain rfl | ht := List.mem_cons.mp ht
  · exact h.wf.current_listed hl (by simp [h.code])
  · have hready := h.wf.states_agree.thread t .ready ht
    have hplace := (h.wf.settled.queues.mem .ready t).mp ht
    refine (hl.mem t).mpr ⟨hready, fun hdying => ?_⟩
    rw [place_dying.mpr ⟨hready, hdying⟩] at hplace
    cases hplace

/-- A tick charges no thread with less than nothing. -/
theorem Crowd.charged (h : Crowd n load low [] k) (ht : t ∈ k.current :: k.ready_list) :
    low ≤ charged_cpu k t ∧ |charged_cpu k t| ≤ F * (240 * 300 + 120) := by
  have hacc := reachable_accounted (le_refl 300) h.reachable
  have hlt : k.ticks % TIMER_FREQ < 100 := Int.emod_lt_of_pos _ (by decide)
  have hle := hacc.charged (le_refl 300) (h.listed ht) (h.idle t ht)
  have hcpu := hacc.decays t (h.listed ht) (h.idle t ht)
  have hlow := (h.spinning t ht).2
  simp only [F] at hle hcpu ⊢
  refine ⟨?_, by omega⟩
  unfold charged_cpu
  split
  · rw [fp_add_one (le_refl 300) (by simp only [F]; omega)]
    simp only [F]
    omega
  · exact hlow

theorem Crowd.next_load (h : Crowd n load low [] k) (hn : n ≤ 300) : next_load_avg k = new_load_avg load n := by
  have hdue : due k = [] := by rw [due, h.asleep, List.takeWhile_nil]
  have hidle := h.idle k.current (.head _)
  have hsize := h.size
  rw [next_load_avg, run_queue, hdue, List.nil_append, if_neg hidle, h.load_avg,
    int32_of_range (by omega) (by omega)]
  congr 1
  omega

theorem Crowd.interrupted (h : Crowd n load low [] k) (hon : k.intr_level = .INTR_ON) (hn : n ≤ 300)
    (hlow : 0 ≤ low) :
    ∃ k', Crowd n (tick_load n (k.ticks + 1) load) (tick_low n (k.ticks + 1) load low)
        [.thread_yield, .intr_set_level .INTR_ON, .ret .timer_interrupt] k' ∧
      k'.intr_level = .INTR_OFF ∧ k'.ticks = k.ticks + 1 := by
  have hwf := h.wf
  have hext := (reachable_levels h.reachable.of_restrict).outside
  obtain ⟨k', hs⟩ := hwf.timer_succeeds hon hext h.asleep
  have hticked := hwf.ticked (reachable_listed h.reachable.of_restrict) h.mlfqs hs
  obtain ⟨k₁, -, hw, -, -, hk'⟩ := hwf.tick hon (step_ok hs).2
  have hcalm := accounted_calm k₁
  have hdue : due k = [] := by rw [due, h.asleep, List.takeWhile_nil]
  have hcurrent : k'.current = k.current := by
    rw [hk']
    exact hcalm.current.trans hw.current
  have hready : k'.ready_list.Perm k.ready_list := by
    have hperm := hcalm.ready_list.trans hw.ready_list
    rw [hdue, List.nil_append] at hperm
    rw [hk']
    exact hperm
  have hcode (t : ThreadId) : (k'.threads t).code =
      if t = k.current then [.thread_yield, .intr_set_level .INTR_ON, .ret .timer_interrupt]
      else (k.threads t).code := by
    have hcur : (k.threads k.current).code = [] := h.code
    rw [hk', ← hw.code t, ← hcalm.code t]
    have hown : ({ accounted k₁ with in_external_intr := false } : Kernel).code = [] := by
      change ((accounted k₁).threads (accounted k₁).current).code = []
      rw [hcalm.current, hw.current, hcalm.code, hw.code, hcur]
    rw [hcalm.current.trans hw.current |>.symm]
    by_cases ht : t = (accounted k₁).current
    · simp [leave_interrupt, ht, hown]
    · simp [leave_interrupt, ht]
  have hload := h.next_load hn
  have hsize : ready_or_running k' = n := by
    rw [hticked.load, run_queue, hdue, List.nil_append, if_neg (h.idle k.current (.head _))]
    exact h.size
  have hmem (t : ThreadId) (ht : t ∈ k'.current :: k'.ready_list) : t ∈ k.current :: k.ready_list := by
    rw [hcurrent] at ht
    exact (hready.cons _).mem_iff.mp ht
  have hbounds := (reachable_accounted (le_refl 300) h.reachable).load_avg
  have hguard : Moderate 300 k .timer := by
    refine ⟨h.mlfqs, h.nice, fun _ _ k'' hk'' => ?_⟩
    rw [Option.mem_def, hs, Option.some.injEq] at hk''
    rw [← hk'', hsize]
    exact hn
  refine ⟨k', ⟨h.reachable.step ⟨hguard, hs⟩, ?_, fun t ht => ?_, ?_, ?_, ?_, fun t ht => ?_,
    fun t ht => ⟨?_, ?_⟩,
    fun t ht => ?_, ?_⟩, ?_, hticked.ticks⟩
  · rw [hk']
    exact (hcalm.modes.1.trans hw.modes.1).trans h.mlfqs
  · rw [hticked.nice]
    exact h.nice t (hticked.all_list ▸ ht)
  · have hsleep := hw.sleep_list
    rw [hdue, List.nil_append, h.asleep] at hsleep
    rw [hk']
    exact hcalm.sleep_list.trans hsleep.symm
  · rw [hticked.load_avg, tick_load, hload, h.load_avg]
  · rw [hready.length_eq]
    exact h.size
  · rw [hticked.idle]
    exact h.idle t (hmem t ht)
  · rw [hticked.nice]
    exact (h.spinning t (hmem t ht)).1
  · obtain ⟨hle, hbound⟩ := h.charged (hmem t ht)
    have hload' : 0 ≤ k'.load_avg ∧ k'.load_avg ≤ 300 * F :=
      (reachable_accounted (le_refl 300) (h.reachable.step ⟨hguard, hs⟩)).load_avg
    have hload'' := hticked.load_avg
    rw [hticked.recent_cpu t (h.listed (hmem t ht)) (h.idle t (hmem t ht)), tick_low,
      (h.spinning t (hmem t ht)).1]
    split
    · rename_i hsecond
      rw [if_pos hsecond] at hload''
      rw [← hload, ← hload'']
      refine new_recent_cpu_mono hload' hle ?_ hbound (by omega)
      rw [abs_of_nonneg hlow]
      exact hle.trans ((le_abs_self _).trans hbound)
    · exact hle
  · have hne : t ≠ k.current := by
      rintro rfl
      exact h.not_ready (by simp [h.code]) (hready.mem_iff.mp ht)
    rw [hcode, if_neg hne]
    exact h.ready t (hready.mem_iff.mp ht)
  · rw [Kernel.code, hcurrent, hcode, if_pos rfl]
  · rw [hk']
    exact hcalm.interrupt.1.trans hw.intr_level

/-- One tick: the running thread is charged, and the next one spins. -/
theorem Crowd.tick (h : Crowd n load low [] k) (hon : k.intr_level = .INTR_ON) (hn : n ≤ 300) (hlow : 0 ≤ low) :
    ∃ k', Crowd n (tick_load n (k.ticks + 1) load) (tick_low n (k.ticks + 1) load low) [] k' ∧
      k'.intr_level = .INTR_ON ∧ k'.ticks = k.ticks + 1 := by
  obtain ⟨k₁, h₁, hoff, hticks₁⟩ := h.interrupted hon hn hlow
  obtain ⟨k₂, h₂, hticks₂⟩ := h₁.yields hoff (.inr rfl)
  obtain ⟨k₃, h₃, hresumes, hticks₃⟩ := h₂.switches
  obtain ⟨k', h', hon', hticks'⟩ := h₃.resumed hresumes
  exact ⟨k', h', hon', hticks'.trans (hticks₃.trans (hticks₂.trans hticks₁))⟩

/-! ## Seconds -/

/-- The bounds after a number of whole seconds. -/
def second (n : Nat) (p : Int × Int) : Int × Int :=
  (new_load_avg p.1 n, new_recent_cpu (new_load_avg p.1 n) p.2 20)

/-- Between two seconds nothing but `recent_cpu` of the running thread changes. -/
theorem Crowd.ticks (h : Crowd n load low [] k) (hon : k.intr_level = .INTR_ON) (hn : n ≤ 300) (hlow : 0 ≤ low)
    (m : Nat) (hm : k.ticks % TIMER_FREQ + m < TIMER_FREQ) :
    ∃ k', Crowd n load low [] k' ∧ k'.intr_level = .INTR_ON ∧ k'.ticks = k.ticks + m := by
  induction m with
  | zero => exact ⟨k, h, hon, by simp⟩
  | succ m ih =>
    obtain ⟨k₁, h₁, hon₁, hticks₁⟩ := ih (by push_cast at hm; omega)
    obtain ⟨k', h', hon', hticks'⟩ := h₁.tick hon₁ hn hlow
    have hsecond : ¬ (k₁.ticks + 1) % TIMER_FREQ = 0 := by
      simp only [TIMER_FREQ] at hm ⊢
      push_cast at hm
      omega
    rw [tick_load, if_neg hsecond, tick_low, if_neg hsecond] at h'
    exact ⟨k', h', hon', by rw [hticks', hticks₁]; push_cast; omega⟩

theorem Crowd.second (h : Crowd n load low [] k) (hon : k.intr_level = .INTR_ON) (hn : n ≤ 300) (hlow : 0 ≤ low)
    (hticks : k.ticks % TIMER_FREQ = 0) :
    ∃ k', Crowd n (second n (load, low)).1 (prj3.second n (load, low)).2 [] k' ∧ k'.intr_level = .INTR_ON ∧
      k'.ticks % TIMER_FREQ = 0 ∧ 0 ≤ (prj3.second n (load, low)).2 := by
  obtain ⟨k₁, h₁, hon₁, hticks₁⟩ := h.ticks hon hn hlow 99 (by rw [hticks]; decide)
  obtain ⟨k', h', hon', hticks'⟩ := h₁.tick hon₁ hn hlow
  have hsecond : (k₁.ticks + 1) % TIMER_FREQ = 0 := by
    simp only [TIMER_FREQ] at hticks ⊢
    push_cast at hticks₁
    omega
  rw [tick_load, if_pos hsecond, tick_low, if_pos hsecond] at h'
  refine ⟨k', h', hon', by rw [hticks', hsecond], ?_⟩
  have hload : 0 ≤ new_load_avg load n ∧ new_load_avg load n ≤ 300 * F := by
    rw [← h'.load_avg]
    exact (reachable_accounted (le_refl 300) h'.reachable).load_avg
  have hcpu := (reachable_accounted (le_refl 300) h.reachable).recent_cpu k.current
  have hle := (h.spinning k.current (.head _)).2
  have hbound : |low| ≤ F * (240 * 300 + 120) := by
    rw [abs_of_nonneg hlow]
    exact hle.trans ((le_abs_self _).trans hcpu)
  rw [prj3.second, (new_recent_cpu_eq (le_refl 300) hload hbound (by omega)).1]
  have hquot := Int.tdiv_nonneg (mul_nonneg (coefficient_bound hload).1 hlow) (show (0 : Int) ≤ F by decide)
  simp only [F] at hquot ⊢
  omega

/-- A crowd spins for any number of seconds. -/
theorem Crowd.seconds (h : Crowd n load low [] k) (hon : k.intr_level = .INTR_ON) (hn : n ≤ 300)
    (hticks : k.ticks % TIMER_FREQ = 0) (hlow : 0 ≤ low) (m : Nat) :
    ∃ k', Crowd n ((prj3.second n)^[m] (load, low)).1 ((prj3.second n)^[m] (load, low)).2 [] k' ∧
      k'.intr_level = .INTR_ON ∧ k'.ticks % TIMER_FREQ = 0 ∧ 0 ≤ ((prj3.second n)^[m] (load, low)).2 := by
  induction m with
  | zero => exact ⟨k, h, hon, hticks, hlow⟩
  | succ m ih =>
    obtain ⟨k₁, h₁, hon₁, hticks₁, hlow₁⟩ := ih
    rw [Function.iterate_succ_apply']
    exact h₁.second hon₁ hn hlow₁ hticks₁

/-! ## A crowd to start with -/

/-- `main` creates a thread on page `p`. -/
def spawn (p : ThreadId) : List Label :=
  .call (.thread_create PRI_MIN) :: .replicate 7 (.next ⟨none, 0⟩) ++
    .next ⟨some p, 0⟩ :: .replicate 33 (.next ⟨none, 0⟩)

/-- `main` sets its nice value to 20 and creates 33 threads. -/
def assemble : List Label :=
  start_up ++ .call (.thread_set_nice 20) :: .replicate 4 (.next ⟨none, 0⟩) ++
    (List.range 33).flatMap fun i => spawn (i + 2)

/-- The state in which the threads start to spin. -/
def assembled (k : Kernel) : Bool :=
  k.thread_mlfqs && k.sleep_list = [] && k.load_avg = 0 && k.ready_list.length = 33 && k.ticks =
    0 && k.code = [] &&
    k.intr_level = .INTR_ON &&
    (k.current :: k.ready_list).all (fun t => k.idle_thread ≠ some t ∧ (k.threads t).nice = 20 ∧
      0 ≤ (k.threads t).recent_cpu) &&
    k.ready_list.all fun t => (k.threads t).code = [.kernel_thread .other]

theorem crowd_assembled : ∃ k, Crowd 34 0 0 [] k ∧ k.intr_level = .INTR_ON ∧ k.ticks % TIMER_FREQ = 0 := by
  obtain ⟨k, hrun, hk⟩ := exists_of_any (checked sets_nice_in_range step) (boot true false 0) assemble assembled
    (by decide +kernel)
  have hchecked : (kernel.restrict fun k l => sets_nice_in_range k l = true).Reachable k :=
    runLabels_checked (fun _ _ h => h) ⟨true, false, 0, rfl⟩ hrun
  obtain ⟨hreach, hnice⟩ := nice_run_moderate 300 hchecked
  simp only [assembled, Bool.and_eq_true, decide_eq_true_eq, List.all_eq_true] at hk
  obtain ⟨⟨⟨⟨⟨⟨⟨⟨hmlfqs, hasleep⟩, hload⟩, hsize⟩, hticks⟩, hcode⟩, hon⟩, hthreads⟩, hready⟩ := hk
  refine ⟨k, ⟨hreach, hmlfqs, fun t _ => hnice t, hasleep, hload, by omega, fun t ht => (hthreads t ht).1,
    fun t ht => (hthreads t ht).2, fun t ht => .inl (hready t ht), hcode⟩, hon, ?_⟩
  rw [hticks]
  decide

/-- The bounds of 34 threads after each hundred seconds. -/
theorem second_iterate : (second 34)^[300] (0, 0) = (551469, 21554703) := by
  have h₁ : (second 34)^[100] (0, 0) = (452228, 13402190) := by decide +kernel
  have h₂ : (second 34)^[100] (452228, 13402190) = (535962, 19386214) := by decide +kernel
  have h₃ : (second 34)^[100] (535962, 19386214) = (551469, 21554703) := by decide +kernel
  rw [show 300 = 100 + (100 + 100) from rfl, Function.iterate_add_apply, Function.iterate_add_apply, h₁, h₂, h₃]

/-- Thirty-four threads with nice value 20 are always ready or running; after
300 seconds `thread_get_recent_cpu` returns a wrong number. -/
theorem recent_cpu_report_overflow :
    ∃ k, (kernel.restrict (Moderate 300)).Reachable k ∧ k.code = [] ∧ ¬ ReportsCpu k ∧ ¬ Unwrapped k := by
  obtain ⟨k₀, h₀, hon, hticks⟩ := crowd_assembled
  obtain ⟨k, h, -, -, -⟩ := h₀.seconds hon (by omega) hticks (le_refl 0) 300
  have hcpu : RECENT_CPU_MAX < ((second 34)^[300] (0, 0)).2 := by
    rw [second_iterate]
    decide
  have hle := (h.spinning k.current (.head _)).2
  have hlt : ¬ |(k.threads k.current).recent_cpu| ≤ RECENT_CPU_MAX := by
    rw [not_le]
    exact (hcpu.trans_le hle).trans_le (le_abs_self _)
  have hcode := h.code
  refine ⟨k, h.reachable, hcode, ?_, ?_⟩
  · rwa [reports_cpu_iff h.wf hcode]
  · rwa [unwrapped_iff]

end pintos.prj3
