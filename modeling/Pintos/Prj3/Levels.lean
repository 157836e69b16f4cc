import Pintos.Prj3.Wakeup

/-!
# The interrupt level along pending code

The level at which each pending instruction will execute follows from the
level now: a thread that is switched away resumes with interrupts off, and
every kernel function leaves the level as it found it or sets it itself.
-/

open pintos.kernel transition

namespace pintos.prj3

variable {k k' : Kernel} {env : Env} {i : Instr} {is rest : List Instr} {t : ThreadId} {l l' : IntrLevel}

/-- The level at which an instruction, taken up at level `l`, is done with. -/
def Instr.level (i : Instr) (l : IntrLevel) : IntrLevel :=
  match i with
  | .intr_set_level level => level
  | .schedule => .INTR_OFF
  | .kernel_thread _ | .idle | .idle_loop | .timer_sleep _ | .timer_sleep_from _ _ => .INTR_ON
  | _ => l

/-- The level after the code. -/
def level_after (l : IntrLevel) (code : List Instr) : IntrLevel :=
  code.foldl (fun l i => i.level l) l

@[simp] theorem level_after_nil : level_after l [] = l := rfl

@[simp] theorem level_after_cons : level_after l (i :: is) = level_after (i.level l) is := rfl

@[simp] theorem level_after_append : level_after l (is ++ rest) = level_after (level_after l is) rest :=
  List.foldl_append

/-- The instructions that the code only gets to with interrupts off. -/
def Instr.atomic : Instr → Bool
  | .schedule | .sema_down_loop _ => true
  | _ => false

/-- Every atomic instruction of the code is taken up with interrupts off. -/
def Guarded : IntrLevel → List Instr → Prop
  | _, [] => True
  | l, i :: rest => (i.atomic = true → l = .INTR_OFF) ∧ Guarded (i.level l) rest

@[simp] theorem guarded_nil : Guarded l [] := trivial

@[simp] theorem guarded_cons :
    Guarded l (i :: rest) ↔ (i.atomic = true → l = .INTR_OFF) ∧ Guarded (i.level l) rest := Iff.rfl

@[simp] theorem guarded_append : Guarded l (is ++ rest) ↔ Guarded l is ∧ Guarded (level_after l is) rest := by
  induction is generalizing l with
  | nil => simp
  | cons i is ih => simp [ih, and_assoc]

/-- The level at which a thread takes up its code. -/
def Kernel.level_of (k : Kernel) (t : ThreadId) : IntrLevel :=
  if t = k.current then k.intr_level else .INTR_OFF

/-- The state between two steps, as far as interrupts are concerned. -/
structure Levels (k : Kernel) : Prop where
  guarded : ∀ t, Guarded (k.level_of t) (k.threads t).code
  outside : k.in_external_intr = false

/-- What an instruction leaves in its place is done with at the same level. -/
structure SameLevel (k k' : Kernel) (i : Instr) (is : List Instr) : Prop where
  current : k'.current = k.current
  outside : k'.in_external_intr = k.in_external_intr
  code : k'.code = is ++ k.code
  level : level_after k'.intr_level is = i.level k.intr_level
  guarded : Guarded k'.intr_level is

theorem SameLevel.push {k₁ : Kernel} (hcurrent : k₁.current = k.current)
    (houtside : k₁.in_external_intr = k.in_external_intr) (hcode : k₁.code = k.code)
    (hlevel : level_after k₁.intr_level is = i.level k.intr_level) (hguarded : Guarded k₁.intr_level is) :
    SameLevel k (k₁.push is) i is :=
  ⟨hcurrent, houtside, by rw [Kernel.code_set_code, hcode], hlevel, hguarded⟩

theorem SameLevel.done (hcurrent : k'.current = k.current)
    (houtside : k'.in_external_intr = k.in_external_intr) (hcode : k'.code = k.code)
    (hlevel : k'.intr_level = i.level k.intr_level) : SameLevel k k' i [] :=
  ⟨hcurrent, houtside, hcode, hlevel, trivial⟩

/-- Every instruction but a switch of threads or an exit keeps the level that
its function was called with, over what it leaves in its place. -/
theorem exec_level (hi : i ≠ .schedule) (hexit : i ≠ .thread_exit)
    (htarget : ∀ t p, i.target = some (t, p) → t ≠ k.current) (hpage : ∀ t ∈ env.page, t ≠ k.current)
    (he : exec k env i = .ok k') : ∃ is, SameLevel k k' i is := by
  cases i with
  | schedule => exact absurd rfl hi
  | thread_exit => exact absurd rfl hexit
  | thread_yield =>
    obtain ⟨k₁, hy, he⟩ := bind_eq_ok_iff.mp he
    obtain ⟨-, -, -, rfl⟩ := thread_yield_ok.mp hy
    obtain rfl := ok_eq_ok.mp he
    split
    · exact ⟨_, .push rfl rfl (by simp [Kernel.code, ready_insert]) rfl (by simp [Instr.atomic, ready_insert])⟩
    · exact ⟨_, .push rfl rfl (by simp [Kernel.code]) rfl (by simp [Instr.atomic])⟩
  | thread_block =>
    obtain ⟨k₁, hb, he⟩ := bind_eq_ok_iff.mp he
    obtain ⟨-, hoff, -, -, rfl⟩ := thread_block_ok.mp hb
    obtain rfl := ok_eq_ok.mp he
    exact ⟨_, .push rfl rfl (by simp [Kernel.code]) (by simp [Instr.level, hoff])
      (by simp [Instr.atomic, hoff])⟩
  | thread_unblock t =>
    obtain ⟨-, -, rfl⟩ := thread_unblock_ok.mp he
    have hne := htarget t _ rfl
    exact ⟨_, .done rfl rfl (by simp [Kernel.code, make_ready, ready_insert, hne.symm]) rfl⟩
  | palloc_get_page p f =>
    obtain rfl := ok_eq_ok.mp he
    unfold prj3.palloc_get_page
    split
    · exact ⟨_, .push rfl rfl rfl rfl (by simp [Instr.atomic])⟩
    · rename_i t ht
      have hne := hpage t ht
      exact ⟨_, .push rfl rfl (by simp [Kernel.code, hne.symm]) rfl (by simp [Instr.atomic])⟩
  | init_thread t p f =>
    obtain ⟨-, rfl⟩ := init_thread_ok.mp he
    have hne := htarget t _ rfl
    exact ⟨_, .push rfl rfl (by simp [Kernel.code, init_page, hne.symm]) rfl (by simp [Instr.atomic])⟩
  | alloc_frames t f =>
    obtain ⟨-, rfl⟩ := alloc_frames_ok.mp he
    have hne := htarget t _ rfl
    exact ⟨_, .push rfl rfl (by simp [Kernel.code, fill_stack, hne.symm]) rfl (by simp [Instr.atomic])⟩
  | thread_sleep n =>
    obtain ⟨-, -, -, hoff, rfl⟩ := thread_sleep_ok.mp he
    exact ⟨_, .push rfl rfl (by simp [Kernel.code, enqueue_sleeper])
      (by simp [enqueue_sleeper, Instr.level, hoff]) (by simp [enqueue_sleeper, Instr.atomic, hoff])⟩
  | sema_up s =>
    obtain ⟨k₁, hwake, he⟩ := bind_eq_ok_iff.mp he
    obtain rfl := ok_eq_ok.mp he
    rcases sema_wake_ok.mp hwake with ⟨-, rfl⟩ | ⟨t, ws, -, -, -, rfl⟩
    · exact ⟨_, .push rfl rfl rfl rfl (by simp [Instr.atomic])⟩
    · refine ⟨_, .push rfl rfl ?_ rfl (by simp [Instr.atomic])⟩
      by_cases ht : k.current = t <;> simp [Kernel.code, make_ready, ready_insert, ht]
  | sema_down_loop s =>
    by_cases hzero : (k.sema s).value = 0
    · obtain ⟨-, -, -, hoff, rfl⟩ := (sema_down_loop_ok hzero).mp he
      exact ⟨_, .push rfl rfl (by simp [Kernel.code, enqueue_waiter])
        (by simp [enqueue_waiter, Instr.level, hoff])
        (by simp [enqueue_waiter, Instr.atomic, Instr.level, hoff])⟩
    · simp only [exec, prj3.sema_down_loop, if_neg hzero, ok_eq_ok] at he
      subst he
      exact ⟨_, .done rfl rfl rfl rfl⟩
  | kernel_thread f =>
    cases f with
    | idle =>
      obtain rfl := ok_eq_ok.mp he
      exact ⟨_, .push rfl rfl rfl rfl (by simp [Instr.atomic])⟩
    | other =>
      obtain rfl := ok_eq_ok.mp he
      exact ⟨_, .done rfl rfl rfl rfl⟩
  | set_tid u tid =>
    obtain rfl := ok_eq_ok.mp he
    refine ⟨_, .done rfl rfl ?_ rfl⟩
    by_cases hu : k.current = u <;> simp [Kernel.code, hu]
  | inherit u =>
    simp only [exec] at he
    split at he <;> obtain rfl := ok_eq_ok.mp he
    · refine ⟨_, .done rfl rfl ?_ rfl⟩
      by_cases hu : k.current = u <;> simp [Kernel.code, hu]
    · exact ⟨_, .done rfl rfl rfl rfl⟩
  | store_priority p =>
    obtain rfl := ok_eq_ok.mp he
    exact ⟨_, .done rfl rfl (by simp [Kernel.code]) rfl⟩
  | preempt_test p =>
    simp only [exec] at he
    split at he <;> obtain rfl := ok_eq_ok.mp he
    · exact ⟨_, .done rfl rfl rfl rfl⟩
    · exact ⟨_, .push rfl rfl rfl rfl (by simp [Instr.atomic])⟩
  | compare_front p e =>
    simp only [exec] at he
    split at he <;> obtain rfl := ok_eq_ok.mp he
    · exact ⟨_, .push rfl rfl rfl rfl (by simp [Instr.atomic])⟩
    · exact ⟨_, .done rfl rfl rfl rfl⟩
  | sema_try_down s =>
    simp only [exec, prj3.sema_try_down] at he
    split at he <;> obtain rfl := ok_eq_ok.mp he <;>
      exact ⟨_, .push rfl rfl rfl rfl (by simp [Instr.atomic])⟩
  | lock_try_acquire lk =>
    simp only [exec, prj3.sema_try_down, ASSERT_bind_ok, thread_current_bind_ok] at he
    obtain ⟨-, -, -, he⟩ := he
    by_cases hv : (k.sema (.lock lk)).value > 0
    · simp only [hv, ↓reduceIte, ok_eq_ok] at he
      subst he
      exact ⟨_, .push rfl rfl rfl rfl (by simp [Instr.atomic])⟩
    · simp only [hv, ↓reduceIte, Bool.false_eq_true, ok_eq_ok] at he
      subst he
      exact ⟨_, .push rfl rfl rfl rfl (by simp [Instr.atomic])⟩
  | cond_signal c lk =>
    simp only [exec, ASSERT_bind_ok, thread_current_bind_ok] at he
    obtain ⟨-, -, -, -, he⟩ := he
    split at he <;> obtain rfl := ok_eq_ok.mp he <;>
      exact ⟨_, .push rfl rfl rfl rfl (by simp [Instr.atomic])⟩
  | cond_broadcast c lk =>
    simp only [exec] at he
    split at he <;> obtain rfl := ok_eq_ok.mp he <;>
      exact ⟨_, .push rfl rfl rfl rfl (by simp [Instr.atomic])⟩
  | ret f =>
    obtain rfl := ok_eq_ok.mp he
    exact ⟨_, .done rfl rfl rfl rfl⟩
  | sema_init s v =>
    obtain rfl := ok_eq_ok.mp he
    exact ⟨_, .done rfl rfl rfl rfl⟩
  | intr_set_level level =>
    simp only [exec, ASSERT_bind_ok, ok_eq_ok] at he
    obtain ⟨-, rfl⟩ := he
    exact ⟨_, .done rfl rfl rfl rfl⟩
  | set_holder lk =>
    simp only [exec, thread_current_bind_ok, ok_eq_ok] at he
    obtain ⟨-, -, rfl⟩ := he
    exact ⟨_, .done rfl rfl rfl rfl⟩
  | thread_set_priority p =>
    simp only [exec, thread_current_bind_ok, ok_eq_ok] at he
    obtain ⟨-, -, rfl⟩ := he
    exact ⟨_, .push rfl rfl (by simp [Kernel.code]) rfl (by simp [Instr.atomic])⟩
  | thread_set_nice n =>
    simp only [exec, thread_current_bind_ok, ok_eq_ok] at he
    obtain ⟨-, -, rfl⟩ := he
    exact ⟨_, .push rfl rfl (by simp [Kernel.code]) rfl (by simp [Instr.atomic])⟩
  | _ =>
    simp only [exec, ASSERT_bind_ok, thread_current_bind_ok, ok_eq_ok] at he
    first
      | (subst he; exact ⟨_, .push rfl rfl rfl rfl (by simp [Instr.atomic, Instr.level])⟩)
      | (obtain ⟨-, rfl⟩ := he; exact ⟨_, .push rfl rfl rfl rfl (by simp [Instr.atomic, Instr.level])⟩)
      | (obtain ⟨-, -, rfl⟩ := he; exact ⟨_, .push rfl rfl rfl rfl (by simp [Instr.atomic, Instr.level])⟩)
      | (obtain ⟨-, -, -, rfl⟩ := he; exact ⟨_, .push rfl rfl rfl rfl (by simp [Instr.atomic, Instr.level])⟩)
      | (obtain ⟨-, -, -, -, rfl⟩ := he
         exact ⟨_, .push rfl rfl rfl rfl (by simp [Instr.atomic, Instr.level])⟩)

/-! ## The levels of every thread -/

/-- The threads that an instruction works on do not run. -/
theorem Wf.ne_target (h : Wf k) (hcode : k.code = i :: rest) (hi : i ≠ .schedule) {p : Place}
    (ht : i.target = some (t, p)) : t ≠ k.current := by
  have hcur : (k.threads k.current).code = i :: rest := hcode
  have hp := h.creators.target k.current i (by simp [hcur]) t p ht
  rintro rfl
  rw [h.current_running (by simpa [hcode] using hi)] at hp
  rcases target_place ht with hq | hq <;> rw [hq] at hp <;> cases hp

theorem Wf.ne_page (h : Wf k) (henv : env.Allowed k) :
    ∀ t ∈ env.page, t ≠ k.current := by
  rintro t ht rfl
  obtain ⟨hfree, hinitial⟩ := henv _ ht
  rcases h.settled.used _ h.settled.current with hu | hi
  · rw [hfree] at hu
    cases hu
  · exact hinitial hi

/-- A pending instruction that does not end its thread's run. -/
theorem Wf.exec_same_level (h : Wf k) (hcode : k.code = i :: rest) (hi : i ≠ .schedule)
    (henv : env.Allowed k) (he : prj3.exec k.pop env i = .ok k') : ∃ is, SameLevel k.pop k' i is := by
  have hcur : (k.threads k.current).code = i :: rest := hcode
  refine exec_level hi ?_ (fun t p ht => h.ne_target hcode hi ht) (h.ne_page henv) he
  rintro rfl
  exact h.codes.pending k.current .thread_exit (by simp [hcur])

/-- The threads that do not run keep their code, or get their first. -/
theorem Effect.guarded (h : Effect k k') (ht : t ≠ k.current) (hk : Guarded l (k.threads t).code) :
    Guarded l (k'.threads t).code := by
  rcases h.code t ht with hc | ⟨-, hc | ⟨f, hc⟩⟩
  · rwa [hc]
  · simp [hc]
  · simp [hc, Instr.atomic]

theorem Wf.exec_levels (h : Wf k) (hcode : k.code = i :: rest) (henv : env.Allowed k)
    (he : prj3.exec k.pop env i = .ok k') (hk : Levels k) : Levels k' := by
  have hcur : (k.threads k.current).code = i :: rest := hcode
  have hpop : k.pop = k.set_code rest := by rw [Kernel.pop, hcode, List.tail_cons]
  have hexec := h.exec_effect hcode henv he
  have hown := hk.guarded k.current
  rw [Kernel.level_of, if_pos rfl, hcur, guarded_cons] at hown
  have hothers (t : ThreadId) (ht : t ≠ k.current) : Guarded .INTR_OFF (k'.threads t).code := by
    refine hexec.toEffect.guarded ht ?_
    have hg := hk.guarded t
    rwa [Kernel.level_of, if_neg ht] at hg
  by_cases hi : i = .schedule
  · subst hi
    obtain ⟨next, -, -, sw⟩ := schedule_switches he
    refine ⟨fun t => ?_, sw.interrupt.2.trans hk.outside⟩
    have hlevel : k'.level_of t = .INTR_OFF := by
      rw [Kernel.level_of, sw.interrupt.1, ite_self]
    rw [hlevel]
    by_cases ht : t = k.current
    · rcases hexec.own with ⟨hc | hc, -⟩ | ⟨-, is', hleaves, -⟩
      · simp [ht, hc]
      · rw [ht, hc]
        exact hown.2
      · cases hleaves with
        | expands hexpands => cases hexpands
    · exact hothers t ht
  · obtain ⟨is, hsame⟩ := h.exec_same_level hcode hi henv he
    refine ⟨fun t => ?_, hsame.outside.trans hk.outside⟩
    by_cases ht : t = k.current
    · have hc : (k'.threads k.current).code = is ++ rest := by
        have hc := hsame.code
        rwa [Kernel.code, hsame.current, hpop, Kernel.code_set_code] at hc
      rw [Kernel.level_of, hsame.current, Kernel.set_code_current, if_pos ht, ht, hc, guarded_append]
      refine ⟨hsame.guarded, ?_⟩
      rw [hsame.level]
      exact hown.2
    · rw [Kernel.level_of, hsame.current, Kernel.set_code_current, if_neg ht]
      exact hothers t ht

/-- The interrupt leaves the interrupted thread with interrupts off, which its
code sets on again. -/
theorem Wf.tick_levels (h : Wf k) (hon : k.intr_level = .INTR_ON) (he : prj3.intr_handler k = .ok k') :
    k'.current = k.current ∧ k'.intr_level = .INTR_OFF ∧ k'.in_external_intr = false ∧
      k'.code = .thread_yield :: .intr_set_level .INTR_ON :: .ret .timer_interrupt :: k.code ∧
      ∀ t, t ≠ k.current → (k'.threads t).code = (k.threads t).code := by
  obtain ⟨k₁, -, hw, -, -, rfl⟩ := h.tick hon he
  have hcalm := accounted_calm k₁
  have hcurrent : (accounted k₁).current = k.current := hcalm.current.trans hw.current
  refine ⟨hcurrent, hcalm.interrupt.1.trans hw.intr_level, rfl, ?_, fun t ht => ?_⟩
  · simp [leave_interrupt, Kernel.code, hcurrent, hcalm.code, hw.code]
  · simp [leave_interrupt, hcurrent, ht, hcalm.code, hw.code]

theorem Wf.step_levels (h : Wf k) {lb : Label} (hs : prj3.step k lb = some k') (hk : Levels k) :
    Levels k' := by
  obtain ⟨henabled, he⟩ := step_ok hs
  cases lb with
  | next env =>
    obtain ⟨i, rest, hcode⟩ := List.exists_cons_of_ne_nil henabled.1
    simp only [perform, hcode] at he
    exact h.exec_levels hcode henabled.2 he hk
  | timer =>
    obtain ⟨hcurrent, hoff, houtside, hcode, hothers⟩ := h.tick_levels henabled he
    refine ⟨fun t => ?_, houtside⟩
    have hold := hk.guarded t
    by_cases ht : t = k.current
    · rw [Kernel.level_of, if_pos ht, henabled, ht] at hold
      rw [Kernel.code, hcurrent] at hcode
      rw [Kernel.level_of, hcurrent, if_pos ht, hoff, ht, hcode]
      change Guarded .INTR_ON k.code at hold
      simpa [Instr.atomic, Instr.level] using hold
    · rw [Kernel.level_of, if_neg ht] at hold
      rw [Kernel.level_of, hcurrent, if_neg ht, hothers t ht]
      exact hold
  | call c =>
    obtain ⟨hcode, hallowed⟩ := henabled
    by_cases hsimple : c.Simple
    · obtain ⟨hw, hc⟩ := h.simple_call hsimple hcode
      refine hw.exec_levels hc (no_page_allowed _) (by rwa [push_pop]) ⟨fun t => ?_, hk.outside⟩
      by_cases ht : t = k.current
      · subst ht
        have hc' : ((k.push [c.instr]).threads k.current).code = [c.instr] := hc
        rw [hc', guarded_cons]
        refine ⟨?_, trivial⟩
        cases c <;> simp [Call.instr, Instr.atomic]
      · simpa [Kernel.level_of, ht] using hk.guarded t
    cases c with
    | thread_exit =>
      simp only [perform, Call.instr, prj3.exec, prj3.thread_exit, ASSERT_bind_ok, thread_current_bind_ok,
        ok_eq_ok] at he
      obtain ⟨houtside, -, -, rfl⟩ := he
      refine ⟨fun t => ?_, houtside⟩
      by_cases ht : t = k.current
      · simp [Kernel.level_of, ht, Instr.atomic]
      · simpa [Kernel.level_of, ht] using hk.guarded t
    | thread_unblock u =>
      obtain ⟨-, -, rfl⟩ := thread_unblock_ok.mp he
      refine ⟨fun t => ?_, hk.outside⟩
      have hg := hk.guarded t
      by_cases ht : t = u
      · simpa [make_ready, ready_insert, Kernel.level_of, ht] using ht ▸ hg
      · simpa [make_ready, ready_insert, Kernel.level_of, ht] using hg
    | sema_init n v =>
      obtain rfl := ok_eq_ok.mp he
      exact ⟨hk.guarded, hk.outside⟩
    | _ => exact absurd trivial hsimple

theorem reachable_levels (h : kernel.Reachable k) : Levels k := by
  refine h.invariant (fun s hs => ?_) fun _ _ _ hr hk hs => (reachable_wf hr).step_levels hs hk
  obtain ⟨mlfqs, aging, t₀, rfl⟩ := hs
  refine ⟨fun t => ?_, rfl⟩
  by_cases ht : t = t₀
  · simp [prj3.boot, ht, Instr.atomic]
  · simp [prj3.boot, ht, Thread.zero]

theorem Wf.exec_current (h : Wf k) (hcode : k.code = i :: rest) (henv : env.Allowed k)
    (he : prj3.exec k.pop env i = .ok k') : k'.current = k.current ∨ k'.intr_level = .INTR_OFF := by
  rcases (h.exec_effect hcode henv he).own with ⟨-, rfl⟩ | ⟨hcurrent, -⟩
  · obtain ⟨next, -, -, sw⟩ := schedule_switches he
    exact .inr sw.interrupt.1
  · exact .inl hcurrent

/-- The processor changes hands with interrupts off. -/
theorem Wf.step_current (h : Wf k) {lb : Label} (hs : prj3.step k lb = some k') :
    k'.current = k.current ∨ k'.intr_level = .INTR_OFF := by
  obtain ⟨henabled, he⟩ := step_ok hs
  cases lb with
  | next env =>
    obtain ⟨i, rest, hcode⟩ := List.exists_cons_of_ne_nil henabled.1
    simp only [perform, hcode] at he
    exact h.exec_current hcode henabled.2 he
  | timer => exact .inl (h.tick_levels henabled he).1
  | call c =>
    obtain ⟨hcode, hallowed⟩ := henabled
    by_cases hsimple : c.Simple
    · obtain ⟨hw, hc⟩ := h.simple_call hsimple hcode
      have hexec := hw.exec_current hc (no_page_allowed _) (by rwa [push_pop])
      exact hexec
    left
    cases c with
    | thread_exit =>
      simp only [perform, Call.instr, prj3.exec, prj3.thread_exit, ASSERT_bind_ok, thread_current_bind_ok,
        ok_eq_ok] at he
      obtain ⟨-, -, -, rfl⟩ := he
      rfl
    | thread_unblock u =>
      obtain ⟨-, -, rfl⟩ := thread_unblock_ok.mp he
      rfl
    | sema_init n v =>
      obtain rfl := ok_eq_ok.mp he
      rfl
    | _ => exact absurd trivial hsimple

end pintos.prj3
