import Pintos.Prj3.Levels
import Pintos.Prj3.ThreadStates

/-!
# `sema_up` in a thread and in an interrupt handler

The comment of `sema_up` allows calls from an interrupt handler, but the
function ends in `thread_yield`, which an external interrupt must not call.
-/

open pintos.kernel transition placement

namespace pintos.prj3

variable {k k' k₁ : Kernel} {env : Env} {i : Instr} {is rest : List Instr} {s : SemaRef} {t : ThreadId}
  {level : IntrLevel}

/-- `intr_handler` when it calls the handler of an external interrupt. -/
def enter_handler (k : Kernel) : Kernel :=
  { k with intr_level := .INTR_OFF, in_external_intr := true, yield_on_return := false }

/-- `intr_handler` for an external interrupt with the given handler. -/
def external_intr (handler : Kernel → Except Assertion Kernel) (k : Kernel) : Except Assertion Kernel := do
  ASSERT (k.in_external_intr = false) .not_intr_context
  let k ← handler (enter_handler k)
  let k := { k with in_external_intr := false }
  let return_ := [.intr_set_level .INTR_ON, .ret .timer_interrupt]
  .ok (k.push (if k.yield_on_return then .thread_yield :: return_ else return_))

theorem intr_handler_external (k : Kernel) : intr_handler k = external_intr timer_interrupt k := rfl

/-- Who calls `sema_up`: a thread, or the handler of an external interrupt. -/
inductive Context where
  | thread
  | external
  deriving DecidableEq, Repr

/-- In state `k`, reached by some run, `sema_up (s)` is called: by kernel code
of the running thread, by its own function, or by an interrupt handler. -/
inductive CallsUp (s : SemaRef) : Context → Kernel → Prop where
  | pending : ∀ k rest, kernel.Reachable k → k.code = .sema_up s :: rest → CallsUp s .thread k
  | own : ∀ k, kernel.Reachable k → k.code = [] → CallsUp s .thread (k.push [.sema_up s])
  | handler : ∀ k, kernel.Reachable k → k.intr_level = .INTR_ON →
    CallsUp s .external ((enter_handler k).push [.sema_up s])

/-- Thread `t` is inside the call of `sema_up (s)` after which it executes `rest`. -/
def InUp (t : ThreadId) (s : SemaRef) (rest : List Instr) (k : Kernel) : Prop :=
  ∃ is, (k.threads t).code = is ++ .ret (.sema_up s) :: rest

/-- The first waiter, if there is one, is taken off the list and made ready. -/
def UnblocksFirst (s : SemaRef) (k k' : Kernel) : Prop :=
  (k'.sema s).waiters = (k.sema s).waiters.tail ∧
    ∀ t ∈ (k.sema s).waiters.head?, (k'.threads t).status = .THREAD_READY ∧ t ∈ k'.ready_list

/-- Thread `t`, inside the call, is not blocked, and when it runs it fails no
assertion; the call returns at the level it was called with. -/
structure Proceeds (level : IntrLevel) (t : ThreadId) (s : SemaRef) (rest : List Instr) (k : Kernel) :
    Prop where
  status : (k.threads t).status = .THREAD_RUNNING ∨ (k.threads t).status = .THREAD_READY
  asserts : k.current = t → ∀ env, ∃ k', perform k (.next env) = .ok k'
  returns : k.current = t → k.code = .ret (.sema_up s) :: rest → k.intr_level = level

/-- What the comment of `sema_up` promises of the call that `k` is about to make. -/
def MeetsUp (s : SemaRef) (k : Kernel) : Prop :=
  ∀ rest, k.code = .sema_up s :: rest → ∃ k₁, (∀ env, perform k (.next env) = .ok k₁) ∧
    UnblocksFirst s k k₁ ∧
    ∀ ls k', (kernel.restrict fun k _ => InUp k₁.current s rest k).Run k₁ ls k' →
      InUp k₁.current s rest k' → Proceeds k.intr_level k₁.current s rest k'

/-! ## The call in a thread -/

/-- The instructions between the wake-up and the return. -/
def Instr.yields_back : Instr → Bool
  | .thread_yield | .schedule | .intr_set_level _ | .ret .timer_interrupt => true
  | _ => false

/-- Thread `t` is on its way through the yield to the return. -/
structure OnTheWay (level : IntrLevel) (t : ThreadId) (s : SemaRef) (rest : List Instr) (k : Kernel) :
    Prop where
  wf : Wf k
  levels : Levels k
  status : (k.threads t).status = .THREAD_RUNNING ∨ (k.threads t).status = .THREAD_READY
  thread : is_thread k t
  code : ∃ is, (k.threads t).code = is ++ .ret (.sema_up s) :: rest ∧
    (∀ i ∈ is, i.yields_back = true) ∧ level_after (k.level_of t) is = level

/-- The switch of threads that `t` asks for finds a thread to run. -/
theorem OnTheWay.schedule_ok (h : OnTheWay level t s rest k) (hcur : k.current = t)
    (hcode : k.code = .schedule :: is) : ∃ k', prj3.schedule k.pop = .ok k' := by
  have hw := h.wf
  have hpending : k.code.head? = some .schedule := by simp [hcode]
  have hready : (k.threads k.current).status = .THREAD_READY := by
    subst hcur
    refine h.status.resolve_left fun hrunning => ?_
    have hp := place_running.mpr ⟨h.thread, hrunning⟩
    exact ((hw.settled.running _).mp hp).2 hpending
  have hnot_freed (next : ThreadId) : ¬ Freed k.pop next := fun hf => by
    have hd := hf.2.1
    simp [hready] at hd
  have hnext : ∃ next, next_thread_to_run k = some next ∧ is_thread k next := by
    cases hlist : k.ready_list with
    | nil =>
      have hidle : k.idle_thread = some k.current := by
        by_contra hidle
        have hp : place k k.current = .ready := place_ready.mpr ⟨hw.settled.current, hready, hidle⟩
        have hin : k.current ∈ k.queue .ready := hw.mem_queue.mpr (by rw [hp]; rfl)
        simp [Kernel.queue, hlist] at hin
      exact ⟨k.current, by simp [next_thread_to_run, hlist, hidle], hw.settled.current⟩
    | cons u l =>
      refine ⟨u, by simp [next_thread_to_run, hlist], ?_⟩
      exact hw.states_agree.thread u .ready (by simp [Kernel.queue, hlist])
  obtain ⟨next, hnext, hthread⟩ := hnext
  refine ⟨_, prj3.schedule_ok.mpr ⟨next, hnext, hw.switching.intr_off hpending, ?_, ?_,
    .inl ⟨hnot_freed next, rfl⟩⟩⟩
  · simp [hready]
  · by_cases hn : next = k.current
    · simpa [is_thread, hn] using hw.settled.current
    · simpa [is_thread, hn] using hthread

theorem InUp.is_thread (h : InUp t s rest k) (hw : Wf k) : prj3.is_thread k t := by
  obtain ⟨is, hcode⟩ := h
  by_contra hnot
  simp [hw.settled.unused t hnot] at hcode

/-- Another thread takes a step. -/
theorem OnTheWay.step_other (h : OnTheWay level t s rest k) (ht : t ≠ k.current) {l : Label}
    (hs : step k l = some k') (hin : InUp t s rest k') : OnTheWay level t s rest k' := by
  have hw := h.wf
  have hw' := hw.step hs
  obtain ⟨is, hcode, hback, hlevel⟩ := h.code
  obtain ⟨is', hcode'⟩ := hin
  have hsame : (k'.threads t).code = (k.threads t).code ∧
      ((k'.threads t).status = .THREAD_RUNNING ∨ (k'.threads t).status = .THREAD_READY) := by
    by_cases hl : l = .timer
    · subst hl
      obtain ⟨hon, he⟩ := step_ok hs
      refine ⟨(hw.tick_levels hon he).2.2.2.2 t ht, ?_⟩
      rw [hw.tick_status hon he]
      split
      · exact .inr rfl
      · exact h.status
    · have heffect := hw.step_effect hl hs
      refine ⟨(heffect.code t ht).resolve_right ?_, ?_⟩
      · rintro ⟨-, hc | ⟨f, hc⟩⟩
        · simp [hc] at hcode'
        · have hmem : Instr.ret (.sema_up s) ∈ (k'.threads t).code := by simp [hcode']
          simp [hc] at hmem
      · rcases heffect.status t ht h.thread with hst | hst | ⟨-, hst⟩
        · rw [hst]
          exact h.status
        · rcases h.status with hst' | hst' <;> rw [hst] at hst' <;> cases hst'
        · exact .inl hst
  refine ⟨hw', hw.step_levels hs h.levels, hsame.2, InUp.is_thread ⟨is', hcode'⟩ hw', is, ?_, hback, ?_⟩
  · rw [hsame.1, hcode]
  · have hlevel_of : k'.level_of t = k.level_of t := by
      rw [Kernel.level_of, Kernel.level_of, if_neg ht]
      split
      · rename_i hcur
        exact (hw.step_current hs).resolve_left fun hc => ht (hcur.trans hc)
      · rfl
    rw [hlevel_of, hlevel]

/-- An instruction of the yield, executed by the thread itself. -/
theorem OnTheWay.exec (h : OnTheWay level t s rest k) (ht : k.current = t)
    (hcode : k.code = i :: is ++ .ret (.sema_up s) :: rest) (hback : ∀ j ∈ i :: is, j.yields_back = true)
    (hlevel : level_after k.intr_level (i :: is) = level) (he : prj3.exec k.pop env i = .ok k')
    (hlive : (k'.threads t).code ≠ []) :
    ((k'.threads t).status = .THREAD_RUNNING ∨ (k'.threads t).status = .THREAD_READY) ∧
      ∃ is, (k'.threads t).code = is ++ .ret (.sema_up s) :: rest ∧
        (∀ i ∈ is, i.yields_back = true) ∧ level_after (k'.level_of t) is = level := by
  have hw := h.wf
  subst ht
  have htail : ∀ j ∈ is, j.yields_back = true := fun j hj => hback j (.tail _ hj)
  have hpop : k.pop = k.set_code (is ++ .ret (.sema_up s) :: rest) := by
    rw [Kernel.pop, hcode, List.cons_append, List.tail_cons]
  have hrunning (hi : i ≠ .schedule) : (k.threads k.current).status = .THREAD_RUNNING :=
    (place_running.mp (hw.current_running (by simpa [hcode] using hi))).2
  cases i with
  | thread_yield =>
    rw [hpop] at he
    obtain ⟨k₁, hy, he⟩ := bind_eq_ok_iff.mp he
    obtain ⟨-, -, -, rfl⟩ := thread_yield_ok.mp hy
    obtain rfl := ok_eq_ok.mp he
    have hpush : ∀ j ∈ .schedule :: .intr_set_level k.intr_level :: is, j.yields_back = true := by
      intro j hj
      rcases List.mem_cons.mp hj with rfl | hj
      · rfl
      rcases List.mem_cons.mp hj with rfl | hj
      · rfl
      · exact htail j hj
    split
    · refine ⟨.inr (by simp [ready_insert]), _, ?_, hpush, ?_⟩
      · simp [Kernel.code, ready_insert]
      · rw [← hlevel, Kernel.level_of]
        simp [Instr.level]
    · refine ⟨.inr (by simp), _, ?_, hpush, ?_⟩
      · simp [Kernel.code]
      · rw [← hlevel, Kernel.level_of]
        simp [Instr.level]
  | schedule =>
    have hcode' : k.code = .schedule :: (is ++ .ret (.sema_up s) :: rest) := hcode
    obtain ⟨next, -, -, sw⟩ := schedule_switches he
    have hready : (k.pop.threads k.current).status = .THREAD_READY := by
      have hst := h.status.resolve_left fun hr =>
        ((hw.settled.running _).mp (place_running.mpr ⟨h.thread, hr⟩)).2 (by rw [hcode]; rfl)
      simpa using hst
    have hnot : ¬ Freed k.pop next := fun hf => by
      have hd := hf.2.1
      rw [Kernel.set_code_current, hready] at hd
      cases hd
    have hlevel_of : k'.level_of k.current = .INTR_OFF := by rw [Kernel.level_of, sw.interrupt.1, ite_self]
    refine ⟨?_, is, ?_, htail, by rw [hlevel_of, ← hlevel]; rfl⟩
    · by_cases hn : k.current = next
      · exact .inl (by rw [hn, sw.started])
      · exact .inr (by rw [sw.others _ hn fun hf => hnot hf.2, hready])
    · rcases (hw.schedule_effect hcode' he).own with ⟨hc | hc, -⟩ | ⟨-, _, hleaves, -⟩
      · exact absurd hc hlive
      · exact hc
      · cases hleaves with
        | expands hexpands => cases hexpands
  | intr_set_level lvl =>
    simp only [prj3.exec, ASSERT_bind_ok, ok_eq_ok] at he
    obtain ⟨-, rfl⟩ := he
    refine ⟨.inl (by simpa using hrunning (by simp)), is, ?_, htail, ?_⟩
    · simp [hcode]
    · rw [← hlevel, Kernel.level_of]
      simp [Instr.level]
  | ret f =>
    obtain rfl := ok_eq_ok.mp he
    refine ⟨.inl (by simpa using hrunning (by simp)), is, ?_, htail, ?_⟩
    · simp [hcode]
    · rw [← hlevel, Kernel.level_of]
      simp [Instr.level]
  | _ => simp [Instr.yields_back] at hback

/-- The thread itself takes a step. -/
theorem OnTheWay.step_own (h : OnTheWay level t s rest k) (ht : k.current = t) {l : Label}
    (hs : step k l = some k') (hin : InUp t s rest k') : OnTheWay level t s rest k' := by
  have hw := h.wf
  have hw' := hw.step hs
  obtain ⟨is, hcode, hback, hlevel⟩ := h.code
  have hthread' := hin.is_thread hw'
  obtain ⟨is', hcode'⟩ := hin
  obtain ⟨henabled, he⟩ := step_ok hs
  rw [Kernel.level_of, if_pos ht.symm] at hlevel
  have hcur : k.code = is ++ .ret (.sema_up s) :: rest := by rw [Kernel.code, ht, hcode]
  suffices hrest : ((k'.threads t).status = .THREAD_RUNNING ∨ (k'.threads t).status = .THREAD_READY) ∧
      ∃ is, (k'.threads t).code = is ++ .ret (.sema_up s) :: rest ∧
        (∀ i ∈ is, i.yields_back = true) ∧ level_after (k'.level_of t) is = level from
    ⟨hw', hw.step_levels hs h.levels, hrest.1, hthread', hrest.2⟩
  cases l with
  | call c =>
    have hnil : k.code = [] := henabled.1
    simp [hcur] at hnil
  | timer =>
    obtain ⟨hcurrent, hoff, -, hc, -⟩ := hw.tick_levels henabled he
    rw [Kernel.code, hcurrent, hcur, ht] at hc
    rw [show k.intr_level = .INTR_ON from henabled] at hlevel
    refine ⟨?_, .thread_yield :: .intr_set_level .INTR_ON :: .ret .timer_interrupt :: is, hc, ?_, ?_⟩
    · rw [hw.tick_status henabled he]
      split
      · exact .inr rfl
      · exact h.status
    · simpa [Instr.yields_back] using hback
    · rw [Kernel.level_of, hcurrent, if_pos ht.symm, hoff, ← hlevel]
      rfl
  | next env =>
    cases is with
    | nil =>
      -- the return itself, after which the thread is out of the call
      have hret : k.code = .ret (.sema_up s) :: rest := hcur
      simp only [perform, hret] at he
      obtain rfl := ok_eq_ok.mp he
      have hlen := congrArg List.length hcode'
      simp [ht, hret] at hlen
      omega
    | cons i is =>
      have hcons : k.code = i :: (is ++ .ret (.sema_up s) :: rest) := hcur
      simp only [perform, hcons] at he
      exact h.exec ht hcur hback hlevel he (by simp [hcode'])

theorem OnTheWay.step (h : OnTheWay level t s rest k) {l : Label} (hs : prj3.step k l = some k')
    (hin : InUp t s rest k') : OnTheWay level t s rest k' := by
  by_cases ht : k.current = t
  · exact h.step_own ht hs hin
  · exact h.step_other (Ne.symm ht) hs hin

theorem OnTheWay.run {ls : List Label} (hrun : (kernel.restrict fun k _ => InUp t s rest k).Run k ls k')
    (h : OnTheWay level t s rest k) (hin : InUp t s rest k') : OnTheWay level t s rest k' := by
  induction hrun with
  | nil => exact h
  | cons hstep tail ih =>
    refine ih (h.step hstep.2 ?_) hin
    cases tail with
    | nil => exact hin
    | cons hnext _ => exact hnext.1

theorem OnTheWay.proceeds (h : OnTheWay level t s rest k) : Proceeds level t s rest k where
  status := h.status
  asserts ht env := by
    obtain ⟨is, hcode, hback, -⟩ := h.code
    have hcur : k.code = is ++ .ret (.sema_up s) :: rest := by rw [Kernel.code, ht, hcode]
    cases is with
    | nil =>
      have hret : k.code = .ret (.sema_up s) :: rest := hcur
      exact ⟨k.pop, by rw [perform, hret]; rfl⟩
    | cons i is =>
      have hcons : k.code = i :: (is ++ .ret (.sema_up s) :: rest) := hcur
      have hi := hback i (.head _)
      have hout : k.pop.in_external_intr = false := h.levels.outside
      simp only [perform, hcons]
      cases i with
      | schedule => exact h.schedule_ok ht hcons
      | thread_yield =>
        have hr := place_running.mp (h.wf.current_running (by simp [hcons]))
        obtain ⟨k₁, hy⟩ : ∃ k₁, prj3.thread_yield k.pop = .ok k₁ :=
          ⟨_, thread_yield_ok.mpr ⟨by simpa [prj3.is_thread] using hr.1, by simpa using hr.2, hout, rfl⟩⟩
        exact ⟨_, by rw [prj3.exec, hy]; rfl⟩
      | intr_set_level lvl =>
        refine ⟨{ k.pop with intr_level := lvl }, ?_⟩
        simp only [prj3.exec, ASSERT_bind_ok, and_true]
        exact fun _ => hout
      | ret f => exact ⟨k.pop, rfl⟩
      | _ => simp [Instr.yields_back] at hi
  returns ht hret := by
    obtain ⟨is, hcode, -, hlevel⟩ := h.code
    have hcur : k.code = is ++ .ret (.sema_up s) :: rest := by rw [Kernel.code, ht, hcode]
    rw [hret] at hcur
    have hnil : is = [] := by
      have hlen := congrArg List.length hcur
      rw [List.length_append] at hlen
      exact List.length_eq_zero_iff.mp (by omega)
    rwa [hnil, level_after_nil, Kernel.level_of, if_pos ht.symm] at hlevel

/-- In a well-formed kernel the first waiter of `s` can be made ready. -/
theorem Wf.sema_up_succeeds (h : Wf k) (hcode : k.code = .sema_up s :: rest) :
    ∃ k₁, prj3.sema_up k.pop s = .ok k₁ := by
  have hrun : k.code.head? ≠ some .schedule := by simp [hcode]
  obtain ⟨k₁, hwake⟩ : ∃ k₁, sema_wake { k.pop with intr_level := .INTR_OFF } s = .ok k₁ := by
    cases hws : (k.sema s).waiters with
    | nil => exact ⟨_, sema_wake_ok.mpr (.inl ⟨hws, rfl⟩)⟩
    | cons t ws =>
      have hp := h.place_of_waiter (s := s) (t := t) (by simp [hws])
      obtain ⟨hthread, hstatus, -⟩ := blocked_of_place (by rw [hp]; rfl) (by rw [hp]; simp)
      have hne : t ≠ k.current := by
        rintro rfl
        rw [h.current_running hrun] at hp
        cases hp
      exact ⟨_, sema_wake_ok.mpr (.inr ⟨t, ws, hws, by simpa [is_thread, hne] using hthread,
        by simpa [hne] using hstatus, rfl⟩)⟩
  exact ⟨_, by rw [prj3.sema_up, hwake]; rfl⟩

/-- The wake-up, in any context. -/
theorem sema_wake_result (he : sema_wake k s = .ok k₁) :
    UnblocksFirst s k k₁ ∧ k₁.current = k.current ∧ k₁.in_external_intr = k.in_external_intr ∧
      k₁.intr_level = k.intr_level ∧ k₁.code = k.code := by
  rcases sema_wake_ok.mp he with ⟨hws, rfl⟩ | ⟨t, ws, hws, -, -, rfl⟩
  · exact ⟨⟨by simp [hws], by simp [hws]⟩, rfl, rfl, rfl, rfl⟩
  · refine ⟨⟨by simp [make_ready, ready_insert, hws], fun u hu => ⟨?_, ?_⟩⟩, rfl, rfl, rfl, ?_⟩
    · obtain rfl : t = u := by simpa [hws] using hu
      simp [make_ready, ready_insert]
    · obtain rfl : t = u := by simpa [hws] using hu
      exact mem_make_ready _ t
    · by_cases ht : k.current = t <;> simp [Kernel.code, make_ready, ready_insert, ht]

/-- What the first half of `sema_up` leaves, in any context. -/
theorem sema_up_result (hcode : k.code = .sema_up s :: rest) (he : prj3.sema_up k.pop s = .ok k₁) :
    UnblocksFirst s k k₁ ∧ k₁.current = k.current ∧ k₁.in_external_intr = k.in_external_intr ∧
      k₁.intr_level = .INTR_OFF ∧
      k₁.code = [.thread_yield, .intr_set_level k.intr_level] ++ .ret (.sema_up s) :: rest := by
  obtain ⟨k₂, hwake, he⟩ := bind_eq_ok_iff.mp he
  obtain rfl := ok_eq_ok.mp he
  obtain ⟨⟨hwaiters, hfirst⟩, hcurrent, hout, hoff, hcode₂⟩ := sema_wake_result hwake
  have hrest : k₂.code = rest := by
    rw [hcode₂]
    change k.pop.code = rest
    rw [Kernel.code_set_code, hcode, List.tail_cons]
  refine ⟨⟨?_, fun t ht => ?_⟩, hcurrent, hout, hoff, ?_⟩
  · simpa using hwaiters
  · obtain ⟨hstatus, hready⟩ := hfirst t ht
    refine ⟨?_, hready⟩
    by_cases htc : t = k₂.current
    · subst htc
      simpa using hstatus
    · simpa [htc] using hstatus
  · rw [Kernel.code_set_code]
    change _ ++ k₂.code = _
    rw [hrest]
    rfl

/-- A thread's call of `sema_up` meets the comment. -/
theorem Wf.meets_up (h : Wf k) (hl : Levels k) : MeetsUp s k := by
  intro rest hcode
  have hrun : k.code.head? ≠ some .schedule := by simp [hcode]
  have hperform (env : Env) : perform k (.next env) = prj3.sema_up k.pop s := by rw [perform, hcode]; rfl
  obtain ⟨k₁, he⟩ := h.sema_up_succeeds hcode
  obtain ⟨hunblocks, hcurrent, -, hoff, hcode₁⟩ := sema_up_result hcode he
  refine ⟨k₁, fun env => (hperform env).trans he, hunblocks, fun ls k' hruns hin => ?_⟩
  have hexec : prj3.exec k.pop ⟨none, 0⟩ (.sema_up s) = .ok k₁ := he
  have hw₁ := h.sema_up hcode hexec
  have hr := place_running.mp (hw₁.current_running (by simp [hcode₁]))
  have hstart : OnTheWay k.intr_level k₁.current s rest k₁ := by
    refine ⟨hw₁, h.exec_levels hcode (no_page_allowed k) hexec hl, .inl hr.2, hr.1, _, hcode₁, ?_, ?_⟩
    · simp [Instr.yields_back]
    · simp [Kernel.level_of, Instr.level]
  exact (hstart.run hruns hin).proceeds

/-- In the handler of an external interrupt the yield fails its assertion. -/
theorem not_meets_up_in_handler (k : Kernel) (s : SemaRef) :
    ¬ MeetsUp s ((enter_handler k).push [.sema_up s]) := by
  intro hmeets
  generalize hk : (enter_handler k).push [.sema_up s] = k₂ at hmeets
  have hcode : k₂.code = .sema_up s :: (enter_handler k).code := by rw [← hk, Kernel.code_set_code]; rfl
  obtain ⟨k₁, he, -, hproceeds⟩ := hmeets _ hcode
  have he : prj3.sema_up k₂.pop s = .ok k₁ := by
    rw [← he ⟨none, 0⟩, perform, hcode]
    rfl
  obtain ⟨-, -, hout, -, hcode₁⟩ := sema_up_result hcode he
  obtain ⟨k', hy⟩ := (hproceeds [] k₁ (.nil k₁) ⟨_, hcode₁⟩).asserts rfl ⟨none, 0⟩
  rw [perform, hcode₁] at hy
  obtain ⟨_, hy, -⟩ := bind_eq_ok_iff.mp hy
  have hinside := (thread_yield_ok.mp hy).2.2.1
  rw [Kernel.set_code_in_external_intr, hout, ← hk] at hinside
  cases hinside

/-- `sema_up` does what its comment promises exactly in the calls that threads
make: in the handler of an external interrupt its yield fails an assertion. -/
theorem sema_up_in_context {ctx : Context} (h : CallsUp s ctx k) : MeetsUp s k ↔ ctx = .thread := by
  cases h with
  | pending k rest hr hcode => exact iff_of_true ((reachable_wf hr).meets_up (reachable_levels hr)) rfl
  | own k hr hcode =>
    have hw := (reachable_wf hr).push_call (i := .sema_up s) hcode trivial rfl rfl (by simp)
    refine iff_of_true (hw.meets_up ⟨fun t => ?_, (reachable_levels hr).outside⟩) rfl
    have hg := (reachable_levels hr).guarded t
    by_cases ht : t = k.current
    · have hnil : (k.threads k.current).code = [] := hcode
      simp [ht, hcode, Instr.atomic]
    · simpa [Kernel.level_of, ht] using hg
  | handler k hr hon => exact iff_of_false (not_meets_up_in_handler k s) (by simp)

/-- The theorem for the first call of `main` after the start of the system. -/
theorem sema_up_in_main : ∃ k, runLabels step (boot false false 0) start_up = some k ∧
    MeetsUp (.sema 0) (k.push [.sema_up (.sema 0)]) := by
  obtain ⟨k, hrun, hcode⟩ := exists_of_any step (boot false false 0) start_up (fun k => k.code = [])
    (by decide +kernel)
  have hr : kernel.Reachable k := runLabels_reachable ⟨false, false, 0, rfl⟩ hrun
  exact ⟨k, hrun, (sema_up_in_context (.own k hr (of_decide_eq_true hcode))).mpr rfl⟩

/-- An interrupt while `main` runs whose handler ups a semaphore, as the disk's
does: the yield fails `ASSERT (!intr_context ())`. -/
theorem sema_up_in_handler_panics : ∃ k k₁, CallsUp (.sema 0) .external k ∧ ¬ MeetsUp (.sema 0) k ∧
    step k (.next ⟨none, 0⟩) = some k₁ ∧ perform k₁ (.next ⟨none, 0⟩) = .error .not_intr_context := by
  obtain ⟨k, hrun, hk⟩ := exists_of_any step (boot false false 0) start_up
    (fun k => k.intr_level = .INTR_ON ∧
      (step ((enter_handler k).push [.sema_up (.sema 0)]) (.next ⟨none, 0⟩)).any fun k₁ =>
        match perform k₁ (.next ⟨none, 0⟩) with
        | .error e => decide (e = .not_intr_context)
        | .ok _ => false)
    (by decide +kernel)
  obtain ⟨hon, hany⟩ := of_decide_eq_true hk
  obtain ⟨k₁, hs, herror⟩ := (Option.any_eq_true _ _).mp hany
  have hcall : CallsUp (.sema 0) .external ((enter_handler k).push [.sema_up (.sema 0)]) :=
    .handler k (runLabels_reachable ⟨false, false, 0, rfl⟩ hrun) hon
  refine ⟨_, k₁, hcall, not_meets_up_in_handler k _, hs, ?_⟩
  split at herror
  · rename_i e he
    rw [he, of_decide_eq_true herror]
  · cases herror

end pintos.prj3
