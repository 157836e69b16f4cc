import Pintos.Prj3.ReadyOrder

/-!
# Who runs when an operation returns

Every operation that can make a thread of higher priority ready, or lower the
priority of the running one, leads to a yield before it returns, unless the
running thread has still the highest priority. The timer interrupt always
yields.
-/

open twos_complement strict_weak pintos.kernel transition placement

namespace pintos.prj3

variable {k k' k₁ : Kernel} {env : Env} {i : Instr} {is is' rest : List Instr} {t : ThreadId}

/-- No ready thread has a higher priority than the running one, and the idle
thread runs only if no thread is ready. -/
structure Dominant (k : Kernel) : Prop where
  highest : ∀ t ∈ k.ready_list, (k.threads t).priority ≤ (k.threads k.current).priority
  idle : k.idle_thread = some k.current → k.ready_list = []

/-- The returns at which the running thread has the highest priority. -/
def Frame.preempts : Frame → Bool
  | .thread_create (some _) | .thread_set_priority | .thread_set_nice | .sema_up _ | .lock_release _ => true
  | .timer_interrupt => true
  | _ => false

/-- The instruction yields the processor or blocks, whatever follows it, or
tests for a yield with the priority that the thread has then. -/
def Instr.yields : Instr → Bool
  | .thread_yield | .schedule | .thread_block | .thread_sleep _ | .sema_up _ | .lock_release _ => true
  | .alloc_frames _ _ | .idle | .idle_loop | .preempt_test none => true
  | _ => false

/-- The instruction expects what a yield establishes. -/
def Instr.expects : Instr → Bool
  | .ret f => f.preempts
  | .preempt_test (some _) | .max_priority_in_ready _ | .compare_front _ _ => true
  | _ => false

/-- The code yields before it gets to an instruction that expects so. -/
def Owed : List Instr → Prop
  | [] => True
  | i :: rest => i.yields = true ∨ (i.expects = false ∧ Owed rest)

theorem owed_cons : Owed (i :: rest) ↔ i.yields = true ∨ (i.expects = false ∧ Owed rest) := Iff.rfl

/-- The instruction can leave the running thread below a ready one. -/
def Instr.lowers : Instr → Bool
  | .recompute_priority | .store_priority _ | .thread_unblock _ => true
  | _ => false

/-- After each instruction that lowers the running thread, the code yields. -/
def Tailed : List Instr → Prop
  | [] => True
  | i :: rest => (i.lowers = true → Owed rest) ∧ Tailed rest

/-- The instructions that test for a yield. -/
def Instr.tests : Instr → Bool
  | .thread_set_priority _ | .preempt_test _ | .max_priority_in_ready _ | .compare_front _ _ => true
  | .schedule => true
  | _ => false

/-- Execution keeps the promise of a yield, the tests apart. -/
theorem Leaves.owed {cur : ThreadId} (h : Leaves cur i is) (hi : i.tests = false)
    (ho : Owed (i :: rest)) : Owed (is ++ rest) := by
  cases h with
  | expands h => cases h <;>
      simp_all [Owed, Instr.yields, Instr.expects, Instr.tests, Frame.preempts]
  | _ => simp_all [Owed, Instr.yields, Instr.expects, Frame.preempts]

theorem Leaves.tailed {cur : ThreadId} (h : Leaves cur i is) (ho : Tailed (i :: rest)) :
    Tailed (is ++ rest) := by
  cases h with
  | expands h => cases h <;> simp_all [Tailed, Instr.lowers, Owed, Instr.yields, Instr.expects]
  | _ => simp_all [Tailed, Instr.lowers, Owed, Instr.yields, Instr.expects]

theorem tailed_rule : CodeRule Tailed where
  nil := trivial
  exit := by simp [Tailed, Instr.lowers]
  boot := by simp [Tailed, Instr.lowers]
  start f := by simp [Tailed, Instr.lowers]
  call c := by cases c <;> simp [Tailed, Instr.lowers, Call.instr, Owed]
  tail _ _ h := h.2
  leaves _ _ _ _ h ho := h.tailed ho
  tick _ h := by simp [Tailed, Instr.lowers, h]

/-- An instruction that is never plain leaves a promise of a yield. -/
theorem Leaves.owed_of_not_plain {cur : ThreadId} (h : Leaves cur i is) (hplain : ¬ i.Plain k)
    (hdown : ∀ s, i ≠ .sema_down_loop s) (hi : i.lowers = true → Owed rest) : Owed (is ++ rest) := by
  cases h with
  | expands h => cases h <;> simp_all [Instr.Plain]
  | _ => simp_all [Owed, Instr.yields, Instr.expects, Instr.lowers]

/-! ## The invariant -/

/-- The running thread may be below a ready one, but its code yields in time. -/
inductive Owes (k : Kernel) : Prop where
  | owed : Owed k.code → Owes k
  | preempt_test : ∀ p rest, k.code = .preempt_test p :: rest →
    p.getD (k.threads k.current).priority = (k.threads k.current).priority → Owes k
  | max_priority_in_ready : ∀ p rest, k.code = .max_priority_in_ready p :: rest →
    p.getD (k.threads k.current).priority = (k.threads k.current).priority → Owes k
  | compare_front : ∀ p t rest, k.code = .compare_front p (some t) :: rest →
    p.getD (k.threads k.current).priority = (k.threads k.current).priority →
    k.ready_list.head? = some t → Owes k

/-- Either the running thread is above the ready ones, or it will yield in time. -/
def Preempts (k : Kernel) : Prop := Dominant k ∨ Owes k

theorem dominant_of_empty (h : k.ready_list = []) : Dominant k :=
  ⟨by simp [h], fun _ => h⟩

/-- What `Dominant` depends on. -/
theorem Dominant.congr (h : Dominant k) (hcurrent : k'.current = k.current)
    (hready : k'.ready_list = k.ready_list) (hidle : k'.idle_thread = k.idle_thread)
    (hpriority : ∀ t, (k'.threads t).priority = (k.threads t).priority) : Dominant k' := by
  refine ⟨fun t ht => ?_, fun hi => ?_⟩
  · rw [hready] at ht
    rw [hcurrent, hpriority, hpriority]
    exact h.highest t ht
  · rw [hready]
    rw [hcurrent, hidle] at hi
    exact h.idle hi

theorem Dominant.set_code (h : Dominant k) (code : List Instr) : Dominant (k.set_code code) :=
  h.congr rfl rfl rfl fun t => (set_code_keys k code t).priority

/-- The thread that `schedule` picks is above the rest of the run queue. -/
theorem Wf.schedule_dominant (h : Wf k) (ho : Ordered (priority_comp k) k.ready_list)
    (he : prj3.schedule k.pop = .ok k') : Dominant k' := by
  obtain ⟨next, hnext, -, sw⟩ := schedule_switches he
  change next_thread_to_run k = some next at hnext
  have hready : k'.ready_list = k.ready_list.tail := sw.ready_list
  cases hlist : k.ready_list with
  | nil => exact dominant_of_empty (by rw [hready, hlist]; rfl)
  | cons t l =>
    obtain rfl : t = next := by simpa [next_thread_to_run, hlist] using hnext
    have hplace : ∀ u ∈ k.ready_list, place k u = .ready := fun u hu => by
      have hq := (h.settled.queues.mem .ready u).mp hu
      cases hp : place k u <;> simp [hp, Place.queue] at hq ⊢
    have hnodup := h.settled.queues.nodup .ready
    rw [Kernel.queue, hlist] at hnodup
    have hpriority : ∀ u ∈ k.ready_list, (k'.threads u).priority = (k.threads u).priority := by
      intro u hu
      rw [← (set_code_keys k k.code.tail u).priority]
      by_cases hut : u = t
      · rw [hut, sw.started]
      · refine congrArg Thread.priority (sw.others u hut fun hf => ?_)
        have hd : (k.threads k.current).status = .THREAD_DYING := by simpa using hf.2.2.1
        have hc : u = k.current := hf.1
        have hp := hplace u hu
        rw [hc] at hp
        have hr := (place_ready.mp hp).2.1
        simp [hr] at hd
    refine ⟨fun u hu => ?_, fun hi => ?_⟩
    · rw [hready, hlist] at hu
      have hle := (List.pairwise_cons.mp (hlist ▸ ordered_priority.mp ho)).1 u hu
      rw [sw.current, hpriority t (by simp [hlist]), hpriority u (by rw [hlist]; exact .tail _ hu)]
      exact hle
    · rw [sw.current, sw.idle] at hi
      exact absurd hi (place_ready.mp (hplace t (by simp [hlist]))).2.2

/-- A promise of a yield that is made at an instruction other than a test. -/
theorem Owes.owed_of_code (h : Owes k) (hcode : k.code = i :: rest) (hi : i.tests = false) :
    Owed (i :: rest) := by
  have hno {j : Instr} {r : List Instr} (hj : j.tests = true) (hc : k.code = j :: r) : False := by
    rw [hcode] at hc
    rw [(List.cons.inj hc).1, hj] at hi
    cases hi
  cases h with
  | owed h => rwa [hcode] at h
  | preempt_test p r hc _ => exact absurd hc fun hc => hno rfl hc
  | max_priority_in_ready p r hc _ => exact absurd hc fun hc => hno rfl hc
  | compare_front p t r hc _ _ => exact absurd hc fun hc => hno rfl hc

/-- `thread_set_priority` and the tests for a yield. -/
theorem Wf.test_preempts (h : Wf k) (hcode : k.code = i :: rest) (ho : Ordered (priority_comp k) k.ready_list)
    (hi : i.tests = true) (he : prj3.exec k.pop env i = .ok k') (hk : Preempts k) : Preempts k' := by
  have hpop : k.pop = k.set_code rest := by rw [Kernel.pop, hcode, List.tail_cons]
  have hpriority : ∀ code, ((k.set_code code).threads k.current).priority = (k.threads k.current).priority :=
    fun code => (set_code_keys k code k.current).priority
  cases i with
  | schedule => exact .inl (h.schedule_dominant ho he)
  | thread_set_priority p =>
    simp only [prj3.exec, thread_current_bind_ok, ok_eq_ok] at he
    obtain ⟨-, -, rfl⟩ := he
    exact .inr (.preempt_test _ _ (Kernel.code_set_code _ _) (by simp))
  | preempt_test p =>
    rw [hpop, prj3.exec] at he
    split at he
    · rename_i hempty
      obtain rfl := ok_eq_ok.mp he
      exact .inl (dominant_of_empty hempty)
    · obtain rfl := ok_eq_ok.mp he
      rw [Kernel.push, Kernel.set_code_set_code]
      refine hk.imp (fun hd => hd.set_code _) fun howes => ?_
      refine .max_priority_in_ready p rest (by simp) ?_
      rw [Kernel.set_code_current, hpriority]
      cases howes with
      | owed hc =>
        rw [hcode] at hc
        cases p with
        | none => rfl
        | some p => simp [Owed, Instr.yields, Instr.expects] at hc
      | preempt_test q r hc hq => simp_all
      | max_priority_in_ready q r hc _ => simp_all
      | compare_front q t r hc _ _ => simp_all
  | max_priority_in_ready p =>
    rw [hpop, prj3.exec] at he
    obtain rfl := ok_eq_ok.mp he
    rw [Kernel.push, Kernel.set_code_set_code]
    cases hlist : k.ready_list with
    | nil => exact .inl (dominant_of_empty hlist)
    | cons t l =>
      refine hk.imp (fun hd => hd.set_code _) fun howes => ?_
      refine .compare_front p t rest (by simp [hlist]) ?_ (by simp [hlist])
      rw [Kernel.set_code_current, hpriority]
      cases howes with
      | owed hc =>
        rw [hcode] at hc
        simp [Owed, Instr.yields, Instr.expects] at hc
      | preempt_test q r hc hq => simp_all
      | max_priority_in_ready q r hc _ => simp_all
      | compare_front q t r hc _ _ => simp_all
  | compare_front p e =>
    rw [hpop, prj3.exec] at he
    split at he
    · obtain rfl := ok_eq_ok.mp he
      exact .inr (.owed (by rw [Kernel.code_set_code]; exact .inl rfl))
    · rename_i hge
      obtain rfl := ok_eq_ok.mp he
      refine .inl (Dominant.set_code ?_ rest)
      rcases hk with hd | howes
      · exact hd
      cases howes with
      | owed hc =>
        rw [hcode] at hc
        simp [Owed, Instr.yields, Instr.expects] at hc
      | preempt_test q r hc hq => simp_all
      | max_priority_in_ready q r hc _ => simp_all
      | compare_front q t r hc hq hhead =>
        obtain ⟨⟨rfl, rfl⟩, rfl⟩ : (p = q ∧ e = some t) ∧ rest = r := by simpa [hcode] using hc
        obtain ⟨l, hlist⟩ := List.head?_eq_some_iff.mp hhead
        have hle : (k.threads t).priority ≤ (k.threads k.current).priority := by
          rw [Kernel.set_code_current, hpriority, hq] at hge
          rw [← (set_code_keys k rest t).priority]
          exact Int.not_lt.mp hge
        refine ⟨fun u hu => ?_, fun hidle => ?_⟩
        · rw [hlist] at hu
          rcases List.mem_cons.mp hu with rfl | hu
          · exact hle
          · exact ((List.pairwise_cons.mp (hlist ▸ ordered_priority.mp ho)).1 u hu).trans hle
        · -- the idle thread never tests
          have hcur : (k.threads k.current).code = .compare_front p (some t) :: rest := hcode
          have honly := (h.codes.idle k.current (.inl hidle)).only (.compare_front p (some t)) (by simp [hcur])
          simp [Instr.idle_only] at honly
  | _ => simp [Instr.tests] at hi

/-- One instruction. -/
theorem Wf.exec_preempts (h : Wf k) (htailed : Tailed k.code) (hcode : k.code = i :: rest)
    (henv : env.Allowed k) (ho : Ordered (priority_comp k) k.ready_list)
    (he : prj3.exec k.pop env i = .ok k') (hk : Preempts k) : Preempts k' := by
  by_cases htests : i.tests = true
  · exact h.test_preempts hcode ho htests he hk
  have htests : i.tests = false := by simpa using htests
  have hpop : k.pop = k.set_code rest := by rw [Kernel.pop, hcode, List.tail_cons]
  have hexec := h.exec_effect hcode henv he
  rcases hexec.own with ⟨-, rfl⟩ | ⟨hcurrent, is', hleaves, hcode'⟩
  · simp [Instr.tests] at htests
  rcases hk with hd | howes
  · by_cases hlowers : i.lowers = true
    · rw [hcode] at htailed
      have hrest := htailed.1 hlowers
      refine .inr (.owed ?_)
      rw [hcode']
      refine hleaves.owed htests (.inr ⟨?_, hrest⟩)
      cases i <;> simp_all [Instr.lowers, Instr.expects]
    have hrun : k.code.head? ≠ some .schedule := by
      rw [hcode]
      rintro ⟨⟩
      simp [Instr.tests] at htests
    by_cases hplain : i.Plain k
    · have hplain' : i.Plain k.pop := by
        cases i <;> exact hplain
      obtain ⟨k₁, is'', hquiet, -, rfl, hstores⟩ := prj3.exec_plain hplain' (h.own_waiters hrun) he
      have hstores : (k₁.threads k.current).priority = (k.pop.threads k.current).priority :=
        hstores.resolve_left (by cases i <;> simp_all [Instr.stores, Instr.lowers, Instr.tests])
      refine .inl (Dominant.set_code (hd.congr hquiet.current hquiet.ready_list hquiet.idle fun t => ?_) _)
      rw [← (set_code_keys k k.code.tail t).priority]
      by_cases ht : t = k.current
      · rw [ht]
        exact hstores
      · exact hquiet.priority t ht
    · refine .inr (.owed ?_)
      by_cases hdown : ∃ s, i = .sema_down_loop s
      · obtain ⟨s, rfl⟩ := hdown
        have hzero : (k.sema s).value = 0 := by simpa [Instr.Plain] using hplain
        obtain ⟨-, -, -, -, rfl⟩ := (sema_down_loop_ok (by simpa using hzero)).mp he
        rw [block, Kernel.code_set_code]
        exact .inl rfl
      · rw [hcode']
        exact hleaves.owed_of_not_plain hplain (fun s hs => hdown ⟨s, hs⟩) fun hl => absurd hl hlowers
  · refine .inr (.owed ?_)
    rw [hcode']
    exact hleaves.owed htests (howes.owed_of_code hcode htests)

/-- One step. -/
theorem Wf.step_preempts (h : Wf k) (htailed : ∀ t, Tailed (k.threads t).code)
    (ho : Ordered (priority_comp k) k.ready_list) {l : Label} (hs : prj3.step k l = some k')
    (hk : Preempts k) : Preempts k' := by
  obtain ⟨henabled, he⟩ := step_ok hs
  cases l with
  | next env =>
    obtain ⟨i, rest, hcode⟩ := List.exists_cons_of_ne_nil henabled.1
    simp only [perform, hcode] at he
    exact h.exec_preempts (htailed k.current) hcode henabled.2 ho he hk
  | timer =>
    obtain ⟨k₁, -, -, -, -, rfl⟩ := h.tick henabled he
    exact .inr (.owed (by rw [leave_interrupt, Kernel.code_set_code]; exact .inl rfl))
  | call c =>
    obtain ⟨hcode, hallowed⟩ := henabled
    by_cases hsimple : c.Simple
    · obtain ⟨hw, hc⟩ := h.simple_call hsimple hcode
      have hpush : Preempts (k.push [c.instr]) := by
        refine hk.imp (fun hd => hd.set_code _) fun _ => .owed ?_
        rw [hc, owed_cons]
        cases c <;> simp [Call.instr, Instr.yields, Instr.expects, Owed]
      have ho' : Ordered (priority_comp (k.push [c.instr])) (k.push [c.instr]).ready_list := by
        rw [priority_comp_congr fun t => (set_code_keys k _ t).priority]
        exact ho
      refine hw.exec_preempts ?_ hc (no_page_allowed _) ho' (by rwa [push_pop]) hpush
      rw [hc]
      exact tailed_rule.call c
    · cases c with
      | thread_exit =>
        simp only [perform, Call.instr, prj3.exec, prj3.thread_exit, ASSERT_bind_ok,
          thread_current_bind_ok, ok_eq_ok] at he
        obtain ⟨-, -, -, rfl⟩ := he
        exact .inr (.owed (by simp [Kernel.code, Owed, Instr.yields]))
      | thread_unblock t =>
        obtain ⟨-, -, rfl⟩ := thread_unblock_ok.mp he
        have hsame : (make_ready k t).code = k.code := by
          by_cases ht : k.current = t <;> simp [Kernel.code, make_ready, ready_insert, ht]
        exact .inr (.owed (by rw [hsame, hcode]; trivial))
      | sema_init n v =>
        obtain rfl := ok_eq_ok.mp he
        exact .inr (.owed (by
          change Owed k.code
          rw [hcode]
          trivial))
      | _ => exact absurd trivial hsimple

/-- The invariant of the runs whose ticks keep the run queue in order. -/
theorem reachable_preempts (h : (kernel.restrict KeepsOrder).Reachable k) : Preempts k := by
  have hboth := h.restrict_invariant
    (I := fun k => Ordered (priority_comp k) k.ready_list ∧ Preempts k) (fun s hs => ?_)
    fun s l s' hr ho hkeeps hs => ⟨((reachable_wf hr).step_ready_ordered (reachable_isInt hr) hs ho.1).mpr
      hkeeps, (reachable_wf hr).step_preempts (reachable_codes tailed_rule hr) ho.1 hs ho.2⟩
  · exact hboth.2
  · obtain ⟨mlfqs, aging, t₀, rfl⟩ := hs
    exact ⟨List.Pairwise.nil, .inl (dominant_of_empty rfl)⟩

/-- In a run whose ticks keep the run queue in order: when a creation, a change
of priority or niceness, a wake-up, a release or the timer interrupt returns, no
ready thread has a higher priority than the running one, which is not the idle
thread unless no thread is ready. -/
theorem returns_to_highest (h : (kernel.restrict KeepsOrder).Reachable k) {f : Frame}
    (hret : k.code = .ret f :: rest) (hf : f.preempts = true) :
    Dominant k ∧ ∀ env k', step k (.next env) = some k' → Dominant k' := by
  have hd : Dominant k := by
    refine (reachable_preempts h).resolve_right fun howes => ?_
    have howed := howes.owed_of_code hret rfl
    simp [Owed, Instr.yields, Instr.expects, hf] at howed
  refine ⟨hd, fun env k' hs => ?_⟩
  have he := (step_ok hs).2
  simp only [perform, hret, exec, ok_eq_ok] at he
  rw [he]
  exact hd.set_code _

/-- The theorem at the return from the second tick, to `main` while the threads
that aging has raised are ready. -/
theorem returns_to_highest_at_tick : ∃ k, k.code = [.ret .timer_interrupt] ∧ k.ready_list = [3, 2] ∧
    k.ticks = 2 ∧ Dominant k := by
  obtain ⟨k, hrun, hk⟩ := exists_of_any
    (checked (fun k l => decide (KeepsOrder k l)) step) (boot false true 0)
    (start_up ++ create_two ++ sleep_one_tick PRI_MAX ++ .replicate 5 (.next ⟨none, 0⟩) ++
      [.timer] ++ .replicate 4 (.next ⟨none, 0⟩))
    (fun k => k.code = [.ret .timer_interrupt] ∧ k.ready_list = [3, 2] ∧ k.ticks = 2)
    (by decide +kernel)
  obtain ⟨hcode, hready, hticks⟩ := of_decide_eq_true hk
  have hreach : (kernel.restrict KeepsOrder).Reachable k :=
    runLabels_checked (fun _ _ h => of_decide_eq_true h) ⟨false, true, 0, rfl⟩ hrun
  exact ⟨k, hcode, hready, hticks, (returns_to_highest hreach hcode rfl).1⟩

/-- With priority `INT_MAX` the woken thread overflows, and the interrupt
returns to a thread whose priority is below that of a ready one. -/
theorem returns_below_ready : ∃ k, kernel.Reachable k ∧ k.code = [.ret .timer_interrupt] ∧
    3 ∈ k.ready_list ∧ (k.threads k.current).priority < (k.threads 3).priority := by
  obtain ⟨k, hrun, hk⟩ := exists_of_any step (boot false true 0)
    (start_up ++ create_two ++ sleep_one_tick INT_MAX ++ .replicate 4 (.next ⟨none, 0⟩))
    (fun k => k.code = [.ret .timer_interrupt] ∧ 3 ∈ k.ready_list ∧
      (k.threads k.current).priority < (k.threads 3).priority)
    (by decide +kernel)
  exact ⟨k, runLabels_reachable ⟨false, true, 0, rfl⟩ hrun, of_decide_eq_true hk⟩

end pintos.prj3
