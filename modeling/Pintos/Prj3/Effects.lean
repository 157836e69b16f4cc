import Pintos.Prj3.Order

/-!
# What a step can change

The parts of the state that most steps leave alone: the scheduler mode, the
clock, priorities, `all_list`, the sleeping threads, and the code of threads
that do not run.
-/

open twos_complement strict_weak pintos.kernel transition placement

namespace pintos.prj3

variable {k k' k₁ : Kernel} {env : Env} {i : Instr} {is is' rest : List Instr} {t : ThreadId}

/-- The largest `int`. -/
def INT_MAX : Int := 2147483647

/-- The value is one that an `int` can have. -/
def IsInt (x : Int) : Prop := -2147483648 ≤ x ∧ x ≤ INT_MAX

theorem isInt_int32 (x : Int) : IsInt (int32 x) := int32_range x

theorem isInt_zero : IsInt 0 := by simp [IsInt, INT_MAX]

/-- The thread exists and has not exited. -/
def Live (k : Kernel) (t : ThreadId) : Prop :=
  is_thread k t ∧ (k.threads t).status ≠ .THREAD_DYING

/-- `all_list` has each live thread once. -/
structure Listed (k : Kernel) : Prop where
  nodup : k.all_list.Nodup
  mem : ∀ t, t ∈ k.all_list ↔ Live k t

theorem Listed.congr (h : Listed k) (hall : k'.all_list = k.all_list)
    (hlive : ∀ t, Live k' t ↔ Live k t) : Listed k' where
  nodup := by
    rw [hall]
    exact h.nodup
  mem t := by rw [hall, h.mem, hlive]

/-- What an instruction of thread `cur` leaves in its place. -/
inductive Leaves (cur : ThreadId) : Instr → List Instr → Prop where
  | expands : ∀ {i is}, Expands cur i is → Leaves cur i is
  | thread_yield : ∀ level, Leaves cur .thread_yield [.schedule, .intr_set_level level]
  | thread_block : Leaves cur .thread_block [.schedule, .ret .thread_block]
  | thread_unblock : ∀ t, Leaves cur (.thread_unblock t) []
  | palloc_get_page_none : ∀ p f, Leaves cur (.palloc_get_page p f)
    [.lock_release .pool_lock, .ret (.thread_create none)]
  | palloc_get_page : ∀ p f t, Leaves cur (.palloc_get_page p f)
    [.lock_release .pool_lock, .init_thread t p f]
  | init_thread : ∀ t p f, Leaves cur (.init_thread t p f)
    [.lock_acquire .tid_lock, .next_tid t, .inherit t, .alloc_frames t f]
  | alloc_frames : ∀ t f, Leaves cur (.alloc_frames t f)
    [.thread_unblock t, .thread_yield, .ret (.thread_create (some t))]
  | idle : Leaves cur .idle [.sema_up .idle_started, .idle_loop]
  | thread_sleep : ∀ n, Leaves cur (.thread_sleep n) [.schedule, .ret .thread_sleep]
  | sema_down_loop : ∀ s, Leaves cur (.sema_down_loop s) [.schedule, .sema_down_loop s]
  | sema_up : ∀ s level, Leaves cur (.sema_up s)
    [.thread_yield, .intr_set_level level, .ret (.sema_up s)]

/-- What a step other than the timer interrupt can do to the threads. -/
structure Effect (k k' : Kernel) : Prop where
  modes : k'.thread_mlfqs = k.thread_mlfqs ∧ k'.thread_prior_aging = k.thread_prior_aging
  ticks : k'.ticks = k.ticks
  priority : ∀ t, (k'.threads t).priority = (k.threads t).priority ∨ IsInt (k'.threads t).priority
  listed : Listed k → Listed k'
  sleepers : ∀ t ∈ k.sleep_list, t ∈ k'.sleep_list ∧
    (k'.threads t).alarm_ticks = (k.threads t).alarm_ticks
  code : ∀ t, t ≠ k.current → (k'.threads t).code = (k.threads t).code ∨
    (place k t = .unused ∨ place k t = .nascent) ∧
      ((k'.threads t).code = [] ∨ ∃ f, (k'.threads t).code = [.kernel_thread f])
  ready : ∀ t ∈ k.ready_list, t ∈ k'.ready_list ∨ t = k'.current
  status : ∀ t, t ≠ k.current → is_thread k t → (k'.threads t).status = (k.threads t).status ∨
    (k.threads t).status = .THREAD_BLOCKED ∨ t = k'.current ∧ (k'.threads t).status = .THREAD_RUNNING

/-- What an instruction does to the threads and to the code of its own thread. -/
structure Executes (i : Instr) (rest : List Instr) (k k' : Kernel) : Prop extends Effect k k' where
  own : ((k'.threads k.current).code = [] ∨ (k'.threads k.current).code = rest) ∧ i = .schedule ∨
    k'.current = k.current ∧ ∃ is', Leaves k.current i is' ∧ k'.code = is' ++ rest
  asleep : ∀ t ∈ k'.sleep_list, t ∈ k.sleep_list ∨
    t = k.current ∧ ∃ n, i = .thread_sleep n ∧ (k'.threads t).alarm_ticks = int32 n

theorem Quiet.effect (hquiet : Quiet (k.set_code rest) k₁) (is' : List Instr) (h : Wf k)
    (hrun : k.code.head? ≠ some .schedule) : Effect k (k₁.push is') where
  modes := hquiet.modes
  ticks := hquiet.ticks
  priority t := by
    by_cases ht : t = k.current
    · subst ht
      rcases hquiet.stored with hs | ⟨p, hp⟩
      · left
        simpa [hquiet.current] using hs
      · right
        have hint := isInt_int32 p
        rw [← hp] at hint
        simpa [hquiet.current] using hint
    · left
      have hp := hquiet.priority t ht
      simpa [hquiet.current, ht] using hp
  listed hl := by
    refine hl.congr hquiet.all_list fun t => ?_
    have hm := hquiet.magic t
    have hs := hquiet.status t
    by_cases ht : t = k.current <;> simp_all [Live, is_thread, hquiet.current]
  sleepers t ht := by
    have hne := h.ne_current (q := .sleep) hrun ht
    have ha := hquiet.alarm_ticks t
    refine ⟨by simpa [hquiet.sleep_list] using ht, ?_⟩
    simpa [hquiet.current, hne] using ha
  code t ht := by
    have hc := hquiet.code t
    simp_all [hquiet.current]
  ready t ht := .inl (by simpa [hquiet.ready_list] using ht)
  status t ht _ := by
    have hs := hquiet.status t
    simp_all [hquiet.current]

theorem Effect.set_sema (h : Effect k k') (s : SemaRef) (v : Semaphore) : Effect k (k'.set_sema s v) :=
  ⟨h.modes, h.ticks, h.priority, fun hl => ⟨(h.listed hl).nodup, (h.listed hl).mem⟩, h.sleepers, h.code,
    h.ready, h.status⟩

theorem Effect.set_code (h : Effect k k') (hcurrent : k'.current = k.current) (code : List Instr) :
    Effect k (k'.set_code code) where
  modes := h.modes
  ticks := h.ticks
  priority t := by
    have hp := h.priority t
    by_cases ht : t = k'.current <;> simp_all
  listed hl := by
    refine (h.listed hl).congr rfl fun t => ?_
    by_cases ht : t = k'.current <;> simp [Live, is_thread, ht]
  sleepers t ht := by
    refine ⟨(h.sleepers t ht).1, ?_⟩
    have ha := (h.sleepers t ht).2
    by_cases ht : t = k'.current <;> simp_all
  code t ht := by
    have hc := h.code t ht
    have ht' : t ≠ k'.current := by rwa [hcurrent]
    simpa [ht'] using hc
  ready := h.ready
  status t ht hthread := by
    have hs := h.status t ht hthread
    have ht' : t ≠ k'.current := by rwa [hcurrent]
    simpa [ht'] using hs

/-- A blocked thread is made ready, and the running thread goes on with other code. -/
theorem Wf.make_ready_effect (h : Wf k) (hrun : k.code.head? ≠ some .schedule) (ht : t ∉ k.sleep_list)
    (hblocked : (k.threads t).status = .THREAD_BLOCKED) (hmodes : k₁.thread_mlfqs = k.thread_mlfqs ∧
      k₁.thread_prior_aging = k.thread_prior_aging) (hticks : k₁.ticks = k.ticks)
    (hall : k₁.all_list = k.all_list) (hsleep : k₁.sleep_list = k.sleep_list)
    (hready : k₁.ready_list = k.ready_list) (hthreads : ∀ u, k₁.threads u = k.threads u ∨
      u = k.current ∧ ∃ code, k₁.threads u = (k.threads u).set_code code) :
    Effect k (make_ready k₁ t) where
  modes := hmodes
  ticks := hticks
  priority u := by
    left
    rcases hthreads u with hu | ⟨-, code, hu⟩ <;> by_cases hut : u = t <;> simp_all
  listed hl := by
    refine hl.congr hall fun u => ?_
    rcases hthreads u with hu | ⟨-, code, hu⟩ <;> by_cases hut : u = t <;>
      simp_all [Live, is_thread]
  sleepers u hu := by
    have hut : u ≠ t := by
      rintro rfl
      exact ht hu
    have hne := h.ne_current (q := .sleep) hrun hu
    have hsame := (hthreads u).resolve_right fun hc => hne hc.1
    refine ⟨?_, by simp [hut, hsame]⟩
    change u ∈ k₁.sleep_list
    rwa [hsleep]
  code u hu := by
    left
    have hsame := (hthreads u).resolve_right fun hc => hu hc.1
    by_cases hut : u = t <;> simp_all
  ready u hu := by
    left
    rw [← hready] at hu
    exact mem_list_insert_ordered.mpr (.inr hu)
  status u hu _ := by
    have hsame := (hthreads u).resolve_right fun hc => hu hc.1
    by_cases hut : u = t <;> simp_all

/-- The running thread changes its own status, and goes on with other code. -/
theorem Wf.own_effect (h : Wf k) (hrun : k.code.head? ≠ some .schedule)
    (hmodes : k'.thread_mlfqs = k.thread_mlfqs ∧ k'.thread_prior_aging = k.thread_prior_aging)
    (hticks : k'.ticks = k.ticks) (hall : k'.all_list = k.all_list)
    (hsleep : ∀ t ∈ k.sleep_list, t ∈ k'.sleep_list)
    (hready : ∀ t ∈ k.ready_list, t ∈ k'.ready_list) (hothers : ∀ t, t ≠ k.current → k'.threads t = k.threads t)
    (hpriority : (k'.threads k.current).priority = (k.threads k.current).priority)
    (hmagic : (k'.threads k.current).magic = (k.threads k.current).magic)
    (hstatus : (k'.threads k.current).status ≠ .THREAD_DYING) : Effect k k' where
  modes := hmodes
  ticks := hticks
  priority t := by
    by_cases ht : t = k.current
    · exact .inl (ht ▸ hpriority)
    · exact .inl (by rw [hothers t ht])
  listed hl := by
    refine hl.congr hall fun t => ?_
    by_cases ht : t = k.current
    · have hr := place_running.mp (h.current_running hrun)
      rw [ht]
      simp_all [Live, is_thread]
    · rw [Live, is_thread, hothers t ht]
      rfl
  sleepers t ht := by
    have hne := h.ne_current (q := .sleep) hrun ht
    exact ⟨hsleep t ht, by rw [hothers t hne]⟩
  code t ht := .inl (by rw [hothers t ht])
  ready t ht := .inl (hready t ht)
  status t ht _ := .inl (by rw [hothers t ht])

theorem Wf.schedule_effect (h : Wf k) (hcode : k.code = .schedule :: rest)
    (he : prj3.schedule k.pop = .ok k') : Executes .schedule rest k k' := by
  obtain ⟨next, hnext, hthread, sw⟩ := schedule_switches he
  have hrun : k.code.head? = some .schedule := by simp [hcode]
  have hpop : k.pop = k.set_code rest := by rw [Kernel.pop, hcode, List.tail_cons]
  have hpopped : ∀ t, (k.pop.threads t).priority = (k.threads t).priority ∧
      (k.pop.threads t).status = (k.threads t).status ∧ (k.pop.threads t).magic = (k.threads t).magic ∧
      (k.pop.threads t).alarm_ticks = (k.threads t).alarm_ticks := fun t => by
    by_cases ht : t = k.current <;> simp [ht]
  have hthread' : is_thread k next := by
    rw [is_thread, ← (hpopped next).2.2.1]
    exact hthread
  have hplace := h.next_place hrun hnext hthread'
  have hfreed : Freed k.pop next → place k k.current = .dying := fun hf =>
    place_dying.mpr ⟨h.settled.current, (hpopped _).2.1 ▸ hf.2.1⟩
  have hsame (t : ThreadId) (hf : ¬ (t = k.current ∧ Freed k.pop next)) :
      (k'.threads t).priority = (k.threads t).priority ∧ (k'.threads t).magic = (k.threads t).magic ∧
        (k'.threads t).alarm_ticks = (k.threads t).alarm_ticks ∧
        (k'.threads t).code = (k.pop.threads t).code := by
    by_cases hn : t = next
    · rw [hn, sw.started]
      exact ⟨(hpopped _).1, (hpopped _).2.2.1, (hpopped _).2.2.2, rfl⟩
    · rw [sw.others t hn hf]
      exact ⟨(hpopped t).1, (hpopped t).2.2.1, (hpopped t).2.2.2, rfl⟩
  have hzero (hf : Freed k.pop next) : k'.threads k.current = .zero := (sw.freed hf).2
  refine ⟨⟨sw.modes, sw.ticks, fun t => ?_, fun hl => ?_, fun t ht => ?_, fun t ht => .inl ?_, fun t ht => ?_,
    fun t ht _ => ?_⟩, .inl ⟨?_, rfl⟩, fun t ht => .inl ?_⟩
  · by_cases hf : t = k.current ∧ Freed k.pop next
    · right
      rw [hf.1, hzero hf.2]
      exact isInt_zero
    · exact .inl (hsame t hf).1
  · refine hl.congr sw.all_list fun t => ?_
    by_cases hf : t = k.current ∧ Freed k.pop next
    · have hd := (place_dying.mp (hfreed hf.2)).2
      rw [hf.1]
      simp [Live, is_thread, hzero hf.2, hd, Thread.zero]
    · by_cases hn : t = next
      · have hstatus : (k.threads next).status ≠ .THREAD_DYING := fun hs => by
          rw [place_dying.mpr ⟨hthread', hs⟩] at hplace
          simp at hplace
        have hmagic := (hsame t hf).2.1
        rw [hn] at hmagic ⊢
        rw [Live, Live, is_thread, is_thread, hmagic]
        simp [sw.started, hstatus]
      · rw [Live, Live, is_thread, is_thread, sw.others t hn hf, (hpopped t).2.1, (hpopped t).2.2.1]
  · have hp := h.place_of_sleeper ht
    have hf : ¬ (t = k.current ∧ Freed k.pop next) := by
      rintro ⟨rfl, hf⟩
      rw [hfreed hf] at hp
      cases hp
    refine ⟨?_, (hsame t hf).2.2.1⟩
    rw [sw.sleep_list]
    exact ht
  · rw [(hsame t fun hf => ht hf.1).2.2.2]
    simp [ht]
  · change next_thread_to_run k = some next at hnext
    have hready : k'.ready_list = k.ready_list.tail := sw.ready_list
    cases hlist : k.ready_list with
    | nil => simp [hlist] at ht
    | cons u l =>
      obtain rfl : u = next := by simpa [next_thread_to_run, hlist] using hnext
      rw [hready, sw.current, hlist, List.tail_cons]
      rw [hlist] at ht
      exact (List.mem_cons.mp ht).symm
  · by_cases hn : t = next
    · exact .inr (.inr ⟨by rw [hn, sw.current], by rw [hn, sw.started]⟩)
    · exact .inl (by rw [sw.others t hn fun hf => ht hf.1, (hpopped t).2.1])
  · by_cases hf : Freed k.pop next
    · left
      rw [hzero hf]
      rfl
    · right
      rw [(hsame k.current fun hc => hf hc.2).2.2.2, hpop]
      simp
  · rw [sw.sleep_list] at ht
    exact ht

theorem Wf.yield_effect (h : Wf k) (hcode : k.code = .thread_yield :: rest)
    (he : prj3.exec k.pop env .thread_yield = .ok k') : Executes .thread_yield rest k k' := by
  have hrun : k.code.head? ≠ some .schedule := by simp [hcode]
  have hpop : k.pop = k.set_code rest := by rw [Kernel.pop, hcode, List.tail_cons]
  rw [hpop] at he
  obtain ⟨k₁, hy, he⟩ := bind_eq_ok_iff.mp he
  obtain ⟨-, -, -, rfl⟩ := thread_yield_ok.mp hy
  obtain rfl := ok_eq_ok.mp he
  split
  · refine ⟨?_, .inr ⟨rfl, [.schedule, .intr_set_level k.intr_level], .thread_yield k.intr_level, ?_⟩,
      fun _ ht => .inl ht⟩
    · apply h.own_effect hrun
      · exact ⟨rfl, rfl⟩
      · rfl
      · rfl
      · exact fun _ ht => ht
      · exact fun t ht => mem_list_insert_ordered.mpr (.inr ht)
      · intro t ht
        simp [ready_insert, ht]
      · simp [ready_insert]
      · simp [ready_insert]
      · simp [ready_insert]
    · simp [Kernel.code, ready_insert]
  · refine ⟨?_, .inr ⟨rfl, [.schedule, .intr_set_level k.intr_level], .thread_yield k.intr_level, ?_⟩,
      fun _ ht => .inl ht⟩
    · apply h.own_effect hrun
      · exact ⟨rfl, rfl⟩
      · rfl
      · rfl
      · exact fun _ ht => ht
      · exact fun _ ht => ht
      · intro t ht
        simp [ht]
      · simp
      · simp
      · simp
    · simp [Kernel.code]

theorem Wf.sema_up_effect (h : Wf k) {s : SemaRef} (hcode : k.code = .sema_up s :: rest)
    (he : prj3.exec k.pop env (.sema_up s) = .ok k') : Executes (.sema_up s) rest k k' := by
  have hrun : k.code.head? ≠ some .schedule := by simp [hcode]
  have hpop : k.pop = k.set_code rest := by rw [Kernel.pop, hcode, List.tail_cons]
  have hrunning := (place_running.mp (h.current_running hrun)).2
  rw [hpop, prj3.exec, prj3.sema_up] at he
  obtain ⟨k₁, hwake, he⟩ := bind_eq_ok_iff.mp he
  obtain rfl := ok_eq_ok.mp he
  rcases sema_wake_ok.mp hwake with ⟨-, rfl⟩ | ⟨t, ws, hw, hthread, hstatus, rfl⟩
  · refine ⟨?_, .inr ⟨rfl, _, .sema_up s k.intr_level, ?_⟩, fun _ ht => .inl ht⟩
    · apply h.own_effect hrun
      · exact ⟨rfl, rfl⟩
      · rfl
      · rfl
      · exact fun _ ht => ht
      · exact fun _ ht => ht
      · intro t ht
        simp [ht]
      · simp
      · simp
      · simp [hrunning]
    · simp [Kernel.code]
  · have hp := h.place_of_waiter (t := t) (s := s) (by
      have hw' : (k.sema s).waiters = t :: ws := hw
      simp [hw'])
    have hne : t ≠ k.current := by
      rintro rfl
      rw [h.current_running hrun] at hp
      cases hp
    have hsleep : t ∉ k.sleep_list := fun ht => by
      rw [h.place_of_sleeper ht] at hp
      cases hp
    have hblocked : (k.threads t).status = .THREAD_BLOCKED := by simpa [hne] using hstatus
    refine ⟨Effect.set_code (Effect.set_sema ?_ _ _) ?_ _, .inr ⟨?_, _, .sema_up s k.intr_level, ?_⟩,
      fun u hu => .inl ?_⟩
    · refine h.make_ready_effect hrun hsleep hblocked ?_ ?_ ?_ ?_ ?_ fun u => ?_
      · exact ⟨rfl, rfl⟩
      · rfl
      · rfl
      · rfl
      · rfl
      · by_cases hu : u = k.current
        · exact .inr ⟨hu, rest, by simp [hu]⟩
        · exact .inl (by simp [hu])
    · rfl
    · simp [make_ready, ready_insert]
    · simp [Kernel.code, make_ready, ready_insert, Ne.symm hne]
    · simpa [make_ready, ready_insert] using hu

theorem Wf.palloc_effect (h : Wf k) {p : Int} {f : ThreadFunc}
    (hcode : k.code = .palloc_get_page p f :: rest) (henv : env.Allowed k)
    (he : prj3.exec k.pop env (.palloc_get_page p f) = .ok k') :
    Executes (.palloc_get_page p f) rest k k' := by
  have hrun : k.code.head? ≠ some .schedule := by simp [hcode]
  have hrunning := (place_running.mp (h.current_running hrun)).2
  have hpop : k.pop = k.set_code rest := by rw [Kernel.pop, hcode, List.tail_cons]
  rw [hpop] at he
  obtain rfl := ok_eq_ok.mp he
  unfold prj3.palloc_get_page
  split
  · refine ⟨h.own_effect hrun ⟨rfl, rfl⟩ rfl rfl (fun _ ht => ht) (fun _ ht => ht)
      (fun t ht => by simp [ht]) (by simp)
      (by simp) (by simp [hrunning]), .inr ⟨rfl, _, .palloc_get_page_none p f, by simp [Kernel.code]⟩,
      fun _ ht => .inl ht⟩
  · rename_i t hpage
    obtain ⟨hfree, hinitial⟩ := henv t hpage
    have hunused : place k t = .unused := place_eq_unused.mpr fun ht => by
      rcases h.settled.used t ht with hu | hi
      · rw [hfree] at hu
        cases hu
      · exact hinitial hi
    have hmagic : (k.threads t).magic = false := by
      simpa [is_thread] using place_eq_unused.mp hunused
    have hne : t ≠ k.current := by
      rintro rfl
      rw [h.current_running hrun] at hunused
      cases hunused
    refine ⟨⟨⟨rfl, rfl⟩, rfl, fun u => ?_, fun hl => hl.congr rfl fun u => ?_, fun u hu => ⟨hu, ?_⟩,
      fun u hu => ?_, fun u hu => .inl hu, fun u hu hthread => .inl ?_⟩,
        .inr ⟨rfl, _, .palloc_get_page p f t, ?_⟩, fun u hu => .inl hu⟩
    · by_cases hut : u = t
      · right
        simpa [hut, hne, Thread.zero] using isInt_zero
      · left
        by_cases huc : u = k.current <;> simp_all
    · by_cases hut : u = t
      · simp [Live, is_thread, hut, hne, hmagic, Thread.zero]
      · by_cases huc : u = k.current <;> simp_all [Live, is_thread]
    · have hut := h.ne_unused (q := .sleep) hunused hu
      have huc := h.ne_current (q := .sleep) hrun hu
      simp [hut, huc]
    · by_cases hut : u = t
      · exact .inr ⟨.inl (hut ▸ hunused), .inl (by simp [hut, hne, Thread.zero])⟩
      · exact .inl (by simp [hut, hu])
    · have hut : u ≠ t := fun hut => place_eq_unused.mp hunused (hut ▸ hthread)
      simp [hut, hu]
    · simp [Kernel.code, Ne.symm hne]

theorem Wf.init_effect (h : Wf k) {p : Int} {f : ThreadFunc} (hcode : k.code = .init_thread t p f :: rest)
    (he : prj3.exec k.pop env (.init_thread t p f) = .ok k') : Executes (.init_thread t p f) rest k k' := by
  have hrun : k.code.head? ≠ some .schedule := by simp [hcode]
  have hcur : (k.threads k.current).code = .init_thread t p f :: rest := hcode
  have hpop : k.pop = k.set_code rest := by rw [Kernel.pop, hcode, List.tail_cons]
  rw [hpop] at he
  obtain ⟨hrange, rfl⟩ := init_thread_ok.mp he
  have hunused : place k t = .unused :=
    h.creators.target k.current (.init_thread t p f) (by simp [hcur]) t _ rfl
  have hnot : ¬ Live k t := fun hl => place_eq_unused.mp hunused hl.1
  have hne : t ≠ k.current := by
    rintro rfl
    rw [h.current_running hrun] at hunused
    cases hunused
  refine ⟨⟨⟨rfl, rfl⟩, rfl, fun u => ?_, fun hl => ⟨?_, fun u => ?_⟩, fun u hu => ⟨hu, ?_⟩,
    fun u hu => ?_, fun u hu => .inl hu, fun u hu hthread => .inl ?_⟩,
      .inr ⟨rfl, _, .init_thread t p f, ?_⟩, fun u hu => .inl hu⟩
  · by_cases hut : u = t
    · right
      simp only [PRI_MIN, PRI_MAX] at hrange
      have hint : IsInt p := ⟨by omega, by simp only [INT_MAX]; omega⟩
      simpa [init_page, hut, hne] using hint
    · left
      by_cases huc : u = k.current <;> simp_all [init_page]
  · have hmem : t ∉ k.all_list := fun ht => hnot ((hl.mem t).mp ht)
    refine List.nodup_append.mpr ⟨hl.nodup, by simp, fun a ha b hb hab => ?_⟩
    obtain rfl : b = t := by simpa using hb
    exact hmem (hab ▸ ha)
  · by_cases hut : u = t
    · simp [init_page, Live, is_thread, hut, hne]
    · have hu := hl.mem u
      by_cases huc : u = k.current <;> simp_all [init_page, Live, is_thread]
  · have hut := h.ne_unused (q := .sleep) hunused hu
    have huc := h.ne_current (q := .sleep) hrun hu
    simp [init_page, hut, huc]
  · by_cases hut : u = t
    · exact .inr ⟨.inl (hut ▸ hunused), .inl (by simp [init_page, hut, hne, Thread.zero])⟩
    · exact .inl (by simp [init_page, hut, hu])
  · have hut : u ≠ t := fun hut => place_eq_unused.mp hunused (hut ▸ hthread)
    simp [init_page, hut, hu]
  · simp [Kernel.code, init_page, Ne.symm hne]

/-- The effect of one instruction. -/
theorem Wf.exec_effect (h : Wf k) (hcode : k.code = i :: rest) (henv : env.Allowed k)
    (he : prj3.exec k.pop env i = .ok k') : Executes i rest k k' := by
  have hpop : k.pop = k.set_code rest := by rw [Kernel.pop, hcode, List.tail_cons]
  have hcur : (k.threads k.current).code = i :: rest := hcode
  have hpending : i.Pending k.current := h.codes.pending k.current i (by simp [hcur])
  by_cases hi : i = .schedule
  · subst hi
    exact h.schedule_effect hcode he
  have hrun : k.code.head? ≠ some .schedule := by simpa [hcode] using hi
  have hrunning := (place_running.mp (h.current_running hrun)).2
  by_cases hplain : i.Plain k
  · have hplain' : i.Plain k.pop := by
      cases i <;> exact hplain
    obtain ⟨k₁, is', hquiet, hexpands, rfl, -⟩ := prj3.exec_plain hplain' (h.own_waiters hrun) he
    rw [hpop] at hquiet
    refine ⟨hquiet.effect is' h hrun, .inr ⟨hquiet.current, is', .expands hexpands, ?_⟩, fun t ht => ?_⟩
    · rw [Kernel.code_set_code, hquiet.code_eq, Kernel.code_set_code]
    · left
      have hs := hquiet.sleep_list
      exact hs ▸ ht
  cases i with
  | schedule => exact absurd rfl hi
  | thread_exit => exact absurd hpending id
  | sema_init s n => exact absurd hpending id
  | thread_yield => exact h.yield_effect hcode he
  | sema_up s => exact h.sema_up_effect hcode he
  | thread_block =>
    rw [hpop] at he
    obtain ⟨k₁, hb, he⟩ := bind_eq_ok_iff.mp he
    obtain ⟨-, -, -, -, rfl⟩ := thread_block_ok.mp hb
    obtain rfl := ok_eq_ok.mp he
    refine ⟨h.own_effect hrun ⟨rfl, rfl⟩ rfl rfl (fun _ ht => ht) (fun _ ht => ht)
      (fun t ht => by simp [ht]) (by simp)
      (by simp) (by simp), .inr ⟨rfl, _, .thread_block, by simp [Kernel.code]⟩, fun _ ht => .inl ht⟩
  | thread_unblock t =>
    rw [hpop] at he
    obtain ⟨-, -, rfl⟩ := thread_unblock_ok.mp he
    have hp : place k t = .nascent :=
      h.creators.target k.current (.thread_unblock t) (by simp [hcur]) t _ rfl
    have hne : t ≠ k.current := by
      rintro rfl
      rw [h.current_running hrun] at hp
      cases hp
    refine ⟨h.make_ready_effect hrun (fun ht => ?_) ?_ ⟨rfl, rfl⟩ rfl rfl rfl rfl fun u => ?_,
      .inr ⟨rfl, _, .thread_unblock t, ?_⟩, fun _ ht => .inl ht⟩
    · rw [h.place_of_sleeper ht] at hp
      cases hp
    · exact (blocked_of_place (by rw [hp]; rfl) (by rw [hp]; simp)).2.1
    · by_cases hu : u = k.current
      · exact .inr ⟨hu, rest, by simp [hu]⟩
      · exact .inl (by simp [hu])
    · simp [Kernel.code, make_ready, ready_insert, Ne.symm hne]
  | palloc_get_page p f => exact h.palloc_effect hcode henv he
  | init_thread t p f => exact h.init_effect hcode he
  | alloc_frames t f =>
    rw [hpop] at he
    obtain ⟨-, rfl⟩ := alloc_frames_ok.mp he
    have hp : place k t = .nascent :=
      h.creators.target k.current (.alloc_frames t f) (by simp [hcur]) t _ rfl
    have hne : t ≠ k.current := by
      rintro rfl
      rw [h.current_running hrun] at hp
      cases hp
    refine ⟨⟨⟨rfl, rfl⟩, rfl, fun u => .inl ?_, fun hl => hl.congr rfl fun u => ?_, fun u hu => ⟨hu, ?_⟩,
      fun u hu => ?_, fun u hu => .inl hu, fun u hu _ => .inl ?_⟩, .inr ⟨rfl, _, .alloc_frames t f, ?_⟩,
        fun u hu => .inl hu⟩
    · by_cases huc : u = k.current <;> by_cases hut : u = t <;> simp_all [fill_stack]
    · by_cases huc : u = k.current <;> by_cases hut : u = t <;> simp_all [fill_stack, Live, is_thread]
    · by_cases huc : u = k.current <;> by_cases hut : u = t <;> simp_all [fill_stack]
    · by_cases hut : u = t
      · exact .inr ⟨.inr (hut ▸ hp), .inr ⟨f, by simp [fill_stack, hut, hne]⟩⟩
      · exact .inl (by simp [fill_stack, hut, hu])
    · by_cases hut : u = t <;> simp_all [fill_stack]
    · simp [Kernel.code, fill_stack, Ne.symm hne]
  | idle =>
    rw [hpop] at he
    simp only [prj3.exec, thread_current_bind_ok, ok_eq_ok] at he
    obtain ⟨-, -, rfl⟩ := he
    refine ⟨h.own_effect hrun ⟨rfl, rfl⟩ rfl rfl (fun _ ht => ht) (fun _ ht => ht)
      (fun t ht => by simp [ht]) (by simp)
      (by simp) (by simp [hrunning]), .inr ⟨rfl, _, .idle, by simp [Kernel.code]⟩, fun _ ht => .inl ht⟩
  | thread_sleep n =>
    rw [hpop] at he
    obtain ⟨-, -, -, -, rfl⟩ := thread_sleep_ok.mp he
    refine ⟨h.own_effect hrun ⟨rfl, rfl⟩ rfl rfl (fun t ht => ?_) (fun _ ht => ht) (fun t ht => ?_) ?_ ?_ ?_,
      .inr ⟨rfl, _, .thread_sleep n, ?_⟩, fun t ht => ?_⟩
    · exact mem_list_insert_ordered.mpr (.inr ht)
    · simp [block, enqueue_sleeper, ht]
    · simp [block, enqueue_sleeper]
    · simp [block, enqueue_sleeper]
    · simp [block, enqueue_sleeper]
    · simp [Kernel.code, block, enqueue_sleeper]
    · rcases mem_list_insert_ordered.mp ht with rfl | ht
      · exact .inr ⟨rfl, n, rfl, by simp [block, enqueue_sleeper]⟩
      · exact .inl ht
  | sema_down_loop s =>
    rw [hpop] at he
    have hzero : (k.sema s).value = 0 := by simpa [Instr.Plain] using hplain
    obtain ⟨-, -, -, -, rfl⟩ := (sema_down_loop_ok (by simpa using hzero)).mp he
    refine ⟨h.own_effect hrun ⟨rfl, rfl⟩ rfl rfl (fun t ht => ht) (fun _ ht => ht) (fun t ht => ?_) ?_ ?_ ?_,
      .inr ⟨rfl, _, .sema_down_loop s, ?_⟩, fun t ht => .inl ht⟩
    · simp [block, enqueue_waiter, ht]
    · simp [block, enqueue_waiter]
    · simp [block, enqueue_waiter]
    · simp [block, enqueue_waiter]
    · simp [Kernel.code, block, enqueue_waiter]
  | _ => exact absurd trivial hplain

theorem Effect.of_push (h : Effect (k.push is) k') : Effect k k' where
  modes := h.modes
  ticks := h.ticks
  priority t := by
    rw [← (set_code_keys k (is ++ k.code) t).priority]
    exact h.priority t
  listed hl := by
    refine h.listed ⟨hl.nodup, fun t => ?_⟩
    rw [Kernel.set_code_all_list, hl.mem]
    by_cases ht : t = k.current <;> simp [Live, is_thread, ht]
  sleepers t ht := by
    rw [← (set_code_keys k (is ++ k.code) t).alarm_ticks]
    exact h.sleepers t ht
  code t ht := by
    have hplace : place (k.push is) t = place k t :=
      place_congr (by simp [ht]) (by simp [ht]) (by simp [ht]) Iff.rfl
    have hc := h.code t ht
    rw [hplace] at hc
    simpa [ht] using hc
  ready := h.ready
  status t ht hthread := by
    have hs := h.status t ht (by simpa [is_thread, ht] using hthread)
    simpa [ht] using hs

/-- A thread's own function exits. -/
theorem thread_exit_effect (he : thread_exit k = .ok k') : Effect k k' := by
  simp only [thread_exit, ASSERT_bind_ok, thread_current_bind_ok, ok_eq_ok] at he
  obtain ⟨-, -, -, rfl⟩ := he
  refine ⟨⟨rfl, rfl⟩, rfl, fun t => .inl ?_, fun hl => ⟨?_, fun t => ?_⟩, fun t ht => ⟨ht, ?_⟩,
    fun t ht => .inl ?_, fun t ht => .inl ht, fun t ht _ => .inl (by simp [ht])⟩
  · by_cases ht : t = k.current <;> simp [ht]
  · exact hl.nodup.erase _
  · have hmem := hl.mem t
    simp only [Kernel.update, hl.nodup.mem_erase_iff]
    by_cases ht : t = k.current
    · simp [Live, ht]
    · simpa [Live, is_thread, ht] using hmem
  · by_cases ht : t = k.current <;> simp [ht]
  · simp [ht]

/-- The effect of any step but the timer interrupt. -/
theorem Wf.step_effect (h : Wf k) {l : Label} (hl : l ≠ .timer) (hs : prj3.step k l = some k') :
    Effect k k' := by
  obtain ⟨henabled, he⟩ := step_ok hs
  cases l with
  | timer => exact absurd rfl hl
  | next env =>
    obtain ⟨i, rest, hcode⟩ := List.exists_cons_of_ne_nil henabled.1
    simp only [perform, hcode] at he
    exact (h.exec_effect hcode henabled.2 he).toEffect
  | call c =>
    obtain ⟨hcode, hallowed⟩ := henabled
    have hrun : k.code.head? ≠ some .schedule := by simp [hcode]
    by_cases hsimple : c.Simple
    · obtain ⟨hw, hc⟩ := h.simple_call hsimple hcode
      exact (hw.exec_effect hc (no_page_allowed _) (by rwa [push_pop])).of_push
    cases c with
    | thread_exit => exact thread_exit_effect he
    | thread_unblock t =>
      obtain ⟨-, -, rfl⟩ := thread_unblock_ok.mp he
      have hp := place_of_parked hallowed
      refine h.make_ready_effect hrun (fun ht => ?_) hallowed.2.1 ⟨rfl, rfl⟩ rfl rfl rfl rfl fun u => .inl rfl
      rw [h.place_of_sleeper ht] at hp
      cases hp
    | sema_init n v =>
      obtain rfl := ok_eq_ok.mp he
      exact ⟨⟨rfl, rfl⟩, rfl, fun _ => .inl rfl, fun hl => ⟨hl.nodup, hl.mem⟩, fun _ ht => ⟨ht, rfl⟩,
        fun _ _ => .inl rfl, fun _ ht => .inl ht, fun _ _ _ => .inl rfl⟩
    | _ => exact absurd trivial hsimple

end pintos.prj3
