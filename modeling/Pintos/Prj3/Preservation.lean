import Pintos.Prj3.Moves
import Pintos.Prj3.Operations

/-!
# What keeps the kernel well formed

One rule for each way in which an operation changes the places of threads: not
at all, a thread is woken, the running thread gives up the processor, the
processor is switched, a thread is created.
-/

open pintos.kernel transition placement

namespace pintos.prj3

variable {k k' : Kernel} {t : ThreadId} {is is' rest : List Instr}

/-- Code without a pending call of `schedule` replaced by such code. -/
theorem Switching.replace (h : Switching k) (hrun : k.code.head? ≠ some .schedule)
    (hcurrent : k'.current = k.current)
    (hothers : ∀ u, u ≠ k.current → (k'.threads u).code = (k.threads u).code)
    (hcode : k.code = is ++ rest) (hcode' : k'.code = is' ++ rest) (hpush : .schedule ∉ is') :
    Switching k' ∧ k'.code.head? ≠ some .schedule := by
  have hnot := h.not_mem hrun
  have hnot' : .schedule ∉ k'.code := by
    rw [hcode, List.mem_append, not_or] at hnot
    rw [hcode', List.mem_append, not_or]
    exact ⟨hpush, hnot.2⟩
  have hhead : k'.code.head? ≠ some .schedule := fun hh => hnot' (List.mem_of_mem_head? hh)
  refine ⟨⟨fun u hu => ?_, fun hm => hnot' (List.mem_of_mem_tail hm), fun hh => absurd hh hhead⟩, hhead⟩
  rw [hcurrent] at hu
  rw [hothers u hu]
  exact h.others u hu

/-- The running thread goes on; nobody moves. -/
theorem Wf.stays (h : Wf k) (is is' : List Instr) (hrun : k.code.head? ≠ some .schedule)
    (m : Moves k.current k k') (hstatus : (k'.threads k.current).status = (k.threads k.current).status)
    (hidle : k'.idle_thread = k.idle_thread) (hqueue : ∀ q, (k'.queue q).Perm (k.queue q))
    (hcode : k.code = is ++ rest) (hcode' : k'.code = is' ++ rest) (hcodes : Codes k')
    (hold : ∀ i ∈ is, i.target = none) (hnew : ∀ i ∈ is', i.target = none)
    (hno : .schedule ∉ is') : Wf k' := by
  have hcur := place_running.mp (h.current_running hrun)
  have hplace : ∀ u, place k' u = place k u := by
    intro u
    by_cases hu : u = k.current
    · subst hu
      refine place_congr (m.magic _) hstatus (fun hb => ?_) (by rw [hidle])
      rw [hcur.2] at hb
      cases hb
    · exact m.place_eq h.settled hrun hu
  have hpage : ∀ u, .page u ∉ tokens is := fun u hu => by
    obtain ⟨i, hi, p, hp⟩ := page_mem_tokens_code.mp hu
    rw [hold i hi] at hp
    cases hp
  obtain ⟨hswitch, hrun'⟩ := h.switching.replace hrun m.current m.code hcode hcode' hno
  refine ⟨hcodes,
    h.creators.replace h.codes m.current m.code m.used hcode hcode' hnew (fun u _ _ => hplace u)
      (fun u hu => ⟨by rw [← hplace, hu], hpage u⟩)
      (by rw [hplace, h.current_running hrun]; simp), hswitch, ?_⟩
  refine h.settled.moves m hrun ?_ ?_ (fun u => ?_) fun hd => ?_
  · exact h.settled.queues.congr hqueue fun u => by rw [hplace]
  · rw [hplace]
    exact h.settled.found _
  · rw [hplace, h.settled.running]
    exact and_congr_right fun _ => iff_of_true hrun hrun'
  · rw [hplace, h.current_running hrun] at hd
    cases hd

/-- A blocked thread becomes ready. -/
theorem Wf.woken (h : Wf k) (hrun : k.code.head? ≠ some .schedule) (m : Moves t k k')
    (hblocked : (place k t).blocked = true ∧ place k t ≠ .idling)
    (hidle : k'.idle_thread = k.idle_thread) (hstatus : (k'.threads t).status = .THREAD_READY)
    (hqueue : ∀ q, (k'.queue q).Perm
      (if q = .ready then t :: (k.queue q).erase t else (k.queue q).erase t))
    (hcode : k.code = is ++ rest) (hcode' : k'.code = is' ++ rest) (hpush : Pushed k.current is is')
    (hold : ∀ u, .page u ∈ tokens is ↔ u = t ∧ place k t = .nascent)
    (hnew : ∀ i ∈ is', i.target = none) (hno : .schedule ∉ is') : Wf k' := by
  have hthread := (blocked_of_place hblocked.1 hblocked.2).1
  have hready : place k' t = .ready := by
    refine place_ready.mpr ⟨?_, hstatus, ?_⟩
    · rw [is_thread, m.magic]
      exact hthread
    · rw [hidle]
      exact h.ne_idle (.inr hblocked)
  have hne : t ≠ k.current := by
    rintro rfl
    rw [h.current_running hrun] at hblocked
    simp [Place.blocked] at hblocked
  have hplace : ∀ u, u ≠ t → place k' u = place k u := fun u hu => m.place_eq h.settled hrun hu
  obtain ⟨hswitch, hrun'⟩ := h.switching.replace hrun m.current m.code hcode hcode' hno
  refine ⟨h.codes.replace m.current m.code hidle hcode hcode' hpush, ?_, hswitch, ?_⟩
  · refine h.creators.replace h.codes m.current m.code m.used hcode hcode' hnew
      (fun u hu hnot => hplace u ?_) (fun u hu => ?_)
      (by rw [hplace _ (Ne.symm hne), h.current_running hrun]; simp)
    · rintro rfl
      rcases hu with hu | hu
      · simp [hu, Place.blocked] at hblocked
      · exact hnot ((hold u).mpr ⟨rfl, hu⟩)
    · have hut : u ≠ t := by
        rintro rfl
        rw [hready] at hu
        cases hu
      exact ⟨by rw [← hplace u hut, hu], fun hin => hut ((hold u).mp hin).1⟩
  · refine h.settled.moves m hrun ?_ (by rw [hready]; simp) (fun u => ?_) fun hd => ?_
    · refine h.settled.queues.move t .ready hqueue fun u => ?_
      by_cases hu : u = t
      · simp [hu, hready, Place.queue]
      · simp [hu, hplace u hu]
    · by_cases hu : u = t
      · simp [hu, hready, hne]
      · rw [hplace u hu, h.settled.running]
        exact and_congr_right fun _ => iff_of_true hrun hrun'
    · rw [hready] at hd
      cases hd

/-- The running thread gives up the processor; its call of `schedule` is pending. -/
theorem Wf.suspended (h : Wf k) (is is' : List Instr) (hrun : k.code.head? ≠ some .schedule)
    (m : Moves k.current k k') (hidle : k'.idle_thread = k.idle_thread)
    (hplace' : place k' k.current ∉ [.running, .nascent, .unused, .lost])
    (hdying : place k' k.current = .dying → k'.code = [.schedule])
    (hqueue : ∀ q, (k'.queue q).Perm
      (if (place k' k.current).queue = some q then k.current :: k.queue q else k.queue q))
    (hcode : k.code = is ++ rest) (hcode' : k'.code = .schedule :: is' ++ rest)
    (hpush : Pushed k.current is (.schedule :: is')) (hold : ∀ i ∈ is, i.target = none)
    (hnew : ∀ i ∈ is', i.target = none) (hno : .schedule ∉ is') (hoff : k'.intr_level = .INTR_OFF) :
    Wf k' := by
  have hcur := h.current_running hrun
  simp only [List.mem_cons, not_or] at hplace'
  obtain ⟨hp_run, hp_nascent, hp_unused, hp_lost, -⟩ := hplace'
  have hplace : ∀ u, u ≠ k.current → place k' u = place k u :=
    fun u hu => m.place_eq h.settled hrun hu
  have hpage : ∀ u, .page u ∉ tokens is := fun u hu => by
    obtain ⟨i, hi, p, hp⟩ := page_mem_tokens_code.mp hu
    rw [hold i hi] at hp
    cases hp
  refine ⟨h.codes.replace m.current m.code hidle hcode hcode' hpush, ?_, ?_, ?_⟩
  · refine h.creators.replace h.codes m.current m.code m.used hcode hcode' ?_
      (fun u hu _ => hplace u ?_) (fun u hu => ?_) hp_nascent
    · simpa [Instr.target] using hnew
    · rintro rfl
      simp [hcur] at hu
    · have hne : u ≠ k.current := by
        rintro rfl
        exact hp_nascent hu
      exact ⟨by rw [← hplace u hne, hu], hpage u⟩
  · refine ⟨fun u hu => ?_, ?_, fun _ => hoff⟩
    · rw [m.current] at hu
      rw [m.code u hu]
      exact h.switching.others u hu
    · have hnot := h.switching.not_mem hrun
      rw [hcode, List.mem_append, not_or] at hnot
      rw [hcode', List.cons_append, List.tail_cons, List.mem_append, not_or]
      exact ⟨hno, hnot.2⟩
  · refine h.settled.moves m hrun ?_ hp_lost (fun u => ?_) fun hd => ⟨rfl, hdying hd⟩
    · cases hq : (place k' k.current).queue with
      | none =>
        refine h.settled.queues.congr (fun q => by simpa [hq] using hqueue q) fun u => ?_
        by_cases hu : u = k.current
        · rw [hu, hq, hcur]
          rfl
        · rw [hplace u hu]
      | some p =>
        refine h.settled.queues.enter (t := k.current) (by simp [hcur, Place.queue]) p (fun q => ?_) fun u => ?_
        · simpa [hq, eq_comm] using hqueue q
        · by_cases hu : u = k.current
          · simp [hu, hq]
          · simp [hu, hplace u hu]
    · rw [hcode']
      by_cases hu : u = k.current
      · simp [hu, hp_run]
      · simp [hu, hplace u hu, h.settled.running]

/-! ## Switching threads -/

/-- What `schedule` leaves as it was, apart from the thread that it starts and
the page that it frees. -/
structure Switches (next : ThreadId) (exits : Prop) (k k' : Kernel) : Prop where
  current : k'.current = next
  ready_list : k'.ready_list = k.ready_list.tail
  sleep_list : k'.sleep_list = k.sleep_list
  sema : k'.sema = k.sema
  idle : k'.idle_thread = k.idle_thread
  initial : k'.initial_thread = k.initial_thread
  started : k'.threads next = { k.threads next with status := .THREAD_RUNNING }
  others : ∀ u, u ≠ next → ¬ (u = k.current ∧ exits) → k'.threads u = k.threads u
  freed : exits → k.current ≠ next ∧ k'.threads k.current = .zero
  used : ∀ u, ¬ (u = k.current ∧ exits) → k'.used_map u = k.used_map u
  page : exits → k'.used_map k.current = false
  arrivals : k'.arrivals = k.arrivals
  modes : k'.thread_mlfqs = k.thread_mlfqs ∧ k'.thread_prior_aging = k.thread_prior_aging
  all_list : k'.all_list = k.all_list
  ticks : k'.ticks = k.ticks
  holder : k'.holder = k.holder
  cond_waiters : k'.cond_waiters = k.cond_waiters
  interrupt : k'.intr_level = .INTR_OFF ∧ k'.in_external_intr = k.in_external_intr

theorem schedule_switches (h : schedule k = .ok k') :
    ∃ next, next_thread_to_run k = some next ∧ is_thread k next ∧ Switches next (Freed k next) k k' := by
  obtain ⟨next, hnext, hoff, -, hthread, ⟨hf, rfl⟩ | ⟨hf, -, rfl⟩⟩ := schedule_ok.mp h
  · refine ⟨next, hnext, hthread, rfl, rfl, rfl, rfl, rfl, rfl, by simp [switch_to],
      fun u hu _ => by simp [switch_to, hu], fun h => absurd h hf, fun _ _ => rfl,
      fun h => absurd h hf, rfl, ⟨rfl, rfl⟩, rfl, rfl, rfl, rfl, hoff, rfl⟩
  · have hne := hf.1
    refine ⟨next, hnext, hthread, rfl, rfl, rfl, rfl, rfl, rfl,
      by simp [switch_to, free_page, Ne.symm hne], fun u hu hnot => ?_,
      fun _ => ⟨hne, by simp [free_page]⟩, fun u hnot => ?_,
      fun _ => by simp [free_page], rfl, ⟨rfl, rfl⟩, rfl, rfl, rfl, rfl, hoff, rfl⟩
    · have hc : u ≠ k.current := fun hc => hnot ⟨hc, hf⟩
      simp [switch_to, free_page, hu, hc]
    · have hc : u ≠ k.current := fun hc => hnot ⟨hc, hf⟩
      simp [switch_to, free_page, hc]

theorem place_pop_schedule (h : Wf k) (hcode : k.code = .schedule :: rest) (u : ThreadId) :
    place k.pop u = place k u := by
  by_cases hu : u = k.current
  · subst hu
    have hfirst := h.switching.first
    have hcur : (k.threads k.current).code = .schedule :: rest := hcode
    rw [hcode, List.tail_cons] at hfirst
    have hresume : resume_point rest = rest := by
      cases rest with
      | nil => rfl
      | cons i rest =>
        unfold resume_point
        split
        · simp_all
        · rfl
    simp only [place, Kernel.set_code_threads, Kernel.set_code_idle_thread, ↓reduceIte,
      Thread.set_code_magic, status_place, Thread.set_code_status, Thread.set_code_code, hcode,
      List.tail_cons, hresume, hcur]
    rfl
  · exact place_congr (by simp [hu]) (by simp [hu]) (fun _ => by simp [hu]) (by simp)

/-- The thread to which `schedule` switches was ready, or is the idle thread. -/
theorem Wf.next_place (h : Wf k) (hrun : k.code.head? = some .schedule) {next : ThreadId}
    (hnext : next_thread_to_run k = some next) (hthread : is_thread k next) :
    place k next = .ready ∨ place k next = .idling := by
  unfold next_thread_to_run at hnext
  split at hnext
  · right
    rename_i hempty
    have hnot_ready : place k next ≠ .ready := fun hp => by
      have := (h.settled.queues.mem .ready next).mpr (by simp [hp, Place.queue])
      simp [Kernel.queue, hempty] at this
    cases hp : place k next with
    | idling => rfl
    | ready => exact absurd hp hnot_ready
    | running => exact absurd hrun ((h.settled.running next).mp hp).2
    | unused => exact absurd hthread (place_eq_unused.mp hp)
    | dying =>
      have hloops := (h.codes.idle next (.inl hnext)).loops
      rcases h.settled.dying next hp with ⟨-, hc⟩ | ⟨rfl, hc⟩
      · simp [hc] at hloops
      · have hc : (k.threads k.current).code = [.schedule] := hc
        simp [hc] at hloops
    | lost => exact absurd hp (h.settled.found next)
    | sleeping => exact absurd hnext (h.ne_idle (.inr (by simp [hp, Place.blocked])))
    | waiting s => exact absurd hnext (h.ne_idle (.inr (by simp [hp, Place.blocked])))
    | parked => exact absurd hnext (h.ne_idle (.inr (by simp [hp, Place.blocked])))
    | nascent => exact absurd hnext (h.ne_idle (.inr (by simp [hp, Place.blocked])))
  · left
    rename_i t r hcons
    obtain rfl : t = next := by simpa using hnext
    have hmem : t ∈ k.queue .ready := by simp [Kernel.queue, hcons]
    have hq := (h.settled.queues.mem .ready t).mp hmem
    cases hp : place k t <;> simp [hp, Place.queue] at hq ⊢

/-- The pending call of `schedule` is carried out. -/
theorem Wf.schedule (h : Wf k) (hcode : k.code = .schedule :: rest) (hs : schedule k.pop = .ok k') :
    Wf k' := by
  have hrun : k.code.head? = some .schedule := by rw [hcode]; rfl
  obtain ⟨next, hnext, hthread, sw⟩ := schedule_switches hs
  have hnext : next_thread_to_run k = some next := hnext
  have hthread : is_thread k next := by
    by_cases hu : next = k.current <;> simpa [is_thread, hu] using hthread
  have hcur : (k.threads k.current).code = .schedule :: rest := hcode
  have hrest : .schedule ∉ rest := by simpa [hcode] using h.switching.first
  have hnone : ∀ u, place k u ≠ .running := fun u hu => ((h.settled.running u).mp hu).2 hrun
  have hp_next := h.next_place hrun hnext hthread
  -- the thread whose page is freed
  have hfreed : Freed k.pop next → place k k.current = .dying ∧ rest = [] := by
    intro hf
    have hd : place k k.current = .dying := by
      rw [← place_pop_schedule h hcode]
      refine place_dying.mpr ⟨?_, hf.2.1⟩
      simpa [is_thread] using h.settled.current
    refine ⟨hd, ?_⟩
    rcases h.settled.dying _ hd with ⟨hi, -⟩ | ⟨-, hc⟩
    · exact absurd hi hf.2.2
    · rw [hcode] at hc
      exact (List.cons.inj hc).2
  have hplace : ∀ u, u ≠ next → ¬ (u = k.current ∧ Freed k.pop next) → place k' u = place k u := by
    intro u hu hnot
    have ht := sw.others u hu hnot
    rw [← place_pop_schedule h hcode]
    exact place_congr (by rw [ht]) (by rw [ht]) (fun _ => by rw [ht]) (by rw [sw.idle])
  have hplace_next : place k' next = .running := by
    refine place_running.mpr ⟨?_, by rw [sw.started]⟩
    rw [is_thread, sw.started]
    by_cases hu : next = k.current <;> simpa [is_thread, hu] using hthread
  have hzero : Freed k.pop next → k'.threads k.current = .zero := fun hf => (sw.freed hf).2
  have hplace_freed : Freed k.pop next → place k' k.current = .unused := fun hf =>
    place_eq_unused.mpr (by simp [is_thread, hzero hf, Thread.zero])
  have hcode_cur : (k'.threads k.current).code = rest := by
    by_cases hf : Freed k.pop next
    · rw [hzero hf, (hfreed hf).2]
      rfl
    · by_cases hu : k.current = next
      · rw [hu, sw.started]
        simp [← hu, hcode]
      · rw [sw.others _ hu fun hc => hf hc.2]
        simp [hcode]
  have hcode_other : ∀ u, u ≠ k.current → (k'.threads u).code = (k.threads u).code := by
    intro u hu
    by_cases hn : u = next
    · rw [hn, sw.started]
      simp [← hn, hu]
    · rw [sw.others u hn fun hc => hu hc.1]
      simp [hu]
  have hmagic : ∀ u, is_thread k' u → is_thread k u ∧ ¬ (u = k.current ∧ Freed k.pop next) := by
    intro u hu
    refine ⟨?_, ?_⟩
    · by_contra hnot
      have hn : u ≠ next := fun hn => hnot (hn ▸ hthread)
      by_cases hf : u = k.current ∧ Freed k.pop next
      · exact hnot (hf.1 ▸ h.settled.current)
      · rw [← place_eq_unused, ← hplace u hn hf, place_eq_unused] at hnot
        exact hnot hu
    · rintro ⟨rfl, hf⟩
      exact place_eq_unused.mp (hplace_freed hf) hu
  have hno : ∀ u, .schedule ∉ (k'.threads u).code := by
    intro u
    by_cases hu : u = k.current
    · rw [hu, hcode_cur]
      exact hrest
    · rw [hcode_other u hu]
      exact h.switching.others u hu
  have htokens : ∀ u, tokens (k'.threads u).code = tokens (k.threads u).code := by
    intro u
    by_cases hu : u = k.current
    · rw [hu, hcode_cur, hcur]
      rfl
    · rw [hcode_other u hu]
  have hmem : ∀ u i, i ∈ (k'.threads u).code → i ∈ (k.threads u).code := by
    intro u i hi
    by_cases hu : u = k.current
    · rw [hu, hcode_cur] at hi
      rw [hu, hcur]
      exact List.mem_cons_of_mem _ hi
    · rwa [hcode_other u hu] at hi
  have hcreated : ∀ u, place k u = .unused ∨ place k u = .nascent → place k' u = place k u := by
    intro u hu
    refine hplace u ?_ ?_
    · rintro rfl
      rcases hp_next with hp | hp <;> simp [hp] at hu
    · rintro ⟨rfl, hf⟩
      simp [(hfreed hf).1] at hu
  have hnascent : ∀ u, place k' u = .nascent → place k u = .nascent := by
    intro u hu
    by_cases hnx : u = next
    · rw [hnx, hplace_next] at hu
      cases hu
    · by_cases hf : u = k.current ∧ Freed k.pop next
      · rw [hf.1, hplace_freed hf.2] at hu
        cases hu
      · rw [← hplace u hnx hf, hu]
  refine ⟨⟨fun u i hi => h.codes.pending u i (hmem u i hi), fun u => by rw [htokens]; exact h.codes.once u,
    fun u v a => by rw [htokens, htokens]; exact h.codes.unique u v a,
    fun u => by rw [htokens, sw.idle]; exact h.codes.idle_unset u, fun u hu => ?_⟩,
    ⟨fun c u hu => ?_, fun c i hi u p hp => ?_, fun u hu => ?_, fun u hu => ?_⟩,
    ⟨fun u _ => hno u, fun hm => hno _ (by rw [Kernel.code] at hm; exact List.mem_of_mem_tail hm),
      fun hh => absurd (List.mem_of_mem_head? hh) (hno _)⟩,
    ⟨?_, fun u => ?_, ?_, fun u => ?_, fun u hu => ?_, fun u hu => ?_, ?_, fun u hu => ?_⟩⟩
  · have hidle : IdleCode (k.threads u).code := by
      refine h.codes.idle u ?_
      rw [sw.idle] at hu
      exact hu.imp_right fun hu => hu.imp (hmem u _) (hmem u _)
    refine ⟨fun i hi => hidle.only i (hmem u i hi), ?_⟩
    by_cases hc : u = k.current
    · have hl := hidle.loops
      rw [hc, hcur] at hl
      rw [hc, hcode_cur]
      simpa using hl
    · rw [hcode_other u hc]
      exact hidle.loops
  · rw [htokens] at hu
    obtain ⟨i, hi, p, hp⟩ := page_mem_tokens_code.mp hu
    rw [sw.used]
    · exact h.creators.used c u hu
    · rintro ⟨hc, hf⟩
      have hc : u = k.current := hc
      have hpl := h.creators.target c i hi u p hp
      rw [hc, (hfreed hf).1] at hpl
      rcases target_place hp with rfl | rfl <;> cases hpl
  · have hpl := h.creators.target c i (hmem c i hi) u p hp
    rw [← hpl]
    refine hcreated u ?_
    rw [hpl]
    exact target_place hp
  · obtain ⟨c, hc⟩ := h.creators.created u (hnascent u hu)
    exact ⟨c, by rwa [htokens]⟩
  · have hne : u ≠ k.current := by
      rintro rfl
      have hstack := h.creators.stack _ (hnascent _ hu)
      simp [hcur] at hstack
    rw [hcode_other u hne]
    exact h.creators.stack u (hnascent u hu)
  · refine h.settled.queues.leave next (fun q => ?_) fun u => ?_
    · have hq : (k.queue q).erase next = if q = .ready then k.ready_list.tail else k.queue q := by
        by_cases hr : q = .ready
        · subst hr
          rw [if_pos rfl]
          unfold next_thread_to_run at hnext
          split at hnext
          · rename_i he
            simp [Kernel.queue, he]
          · rename_i t r hc
            obtain rfl : t = next := by simpa using hnext
            simp [Kernel.queue, hc]
        · rw [if_neg hr]
          refine List.erase_of_not_mem fun hin => hr ?_
          have hfiled := (h.settled.queues.mem q next).mp hin
          rcases hp_next with hp | hp <;> simp [hp, Place.queue] at hfiled
          exact hfiled.symm
      rw [hq]
      cases q with
      | ready => simp [Kernel.queue, sw.ready_list]
      | sleep => simp [Kernel.queue, sw.sleep_list]
      | wait s => simp [Kernel.queue, sw.sema]
    · by_cases hn : u = next
      · simp [hn, hplace_next, Place.queue]
      · rw [if_neg hn]
        by_cases hf : u = k.current ∧ Freed k.pop next
        · rw [hf.1, hplace_freed hf.2, (hfreed hf.2).1]
          rfl
        · rw [hplace u hn hf]
  · by_cases hn : u = next
    · simp [hn, hplace_next]
    · by_cases hf : u = k.current ∧ Freed k.pop next
      · simp [hf.1, hplace_freed hf.2]
      · rw [hplace u hn hf]
        exact h.settled.found u
  · rw [sw.current]
    exact (place_running.mp hplace_next).1
  · rw [sw.current]
    have hhead : k'.code.head? ≠ some .schedule := fun hh => hno _ (List.mem_of_mem_head? hh)
    by_cases hn : u = next
    · simp [hn, hplace_next, hhead]
    · simp only [hn, false_and, iff_false]
      by_cases hf : u = k.current ∧ Freed k.pop next
      · simp [hf.1, hplace_freed hf.2]
      · rw [hplace u hn hf]
        exact hnone u
  · left
    have hn : u ≠ next := by
      rintro rfl
      rw [hplace_next] at hu
      cases hu
    have hf : ¬ (u = k.current ∧ Freed k.pop next) := by
      rintro ⟨rfl, hf⟩
      rw [hplace_freed hf] at hu
      cases hu
    rw [hplace u hn hf] at hu
    rcases h.settled.dying u hu with ⟨hi, hc⟩ | ⟨rfl, hc⟩
    · refine ⟨by rw [hi, sw.initial]; rfl, ?_⟩
      have hne : u ≠ k.current := by
        rintro rfl
        rw [hcur] at hc
        cases hc
      rw [hcode_other u hne, hc]
    · refine ⟨?_, by rw [hcode_cur]; rw [hcode] at hc; exact (List.cons.inj hc).2⟩
      have hstatus := (place_dying.mp hu).2
      by_contra hi
      rw [sw.initial] at hi
      exact hf ⟨rfl, hn, by simpa using hstatus, hi⟩
  · obtain ⟨hu, hf⟩ := hmagic u hu
    rw [sw.used u hf, sw.initial]
    exact h.settled.used u hu
  · rw [sw.initial, sw.used]
    · exact h.settled.initial
    · rintro ⟨hi, hf⟩
      exact hf.2.2 hi.symm
  · by_cases hc : u = k.current
    · rw [hc, hcode_cur]
      by_cases hf : Freed k.pop next
      · exact (hfreed hf).2
      · exfalso
        refine hu ?_
        rw [hc]
        by_cases hn : k.current = next
        · exact hn ▸ (place_running.mp hplace_next).1
        · have hp := hplace k.current hn fun h => hf h.2
          by_contra hnot
          rw [← place_eq_unused, hp, place_eq_unused] at hnot
          exact hnot h.settled.current
    · rw [hcode_other u hc]
      refine h.settled.unused u fun ht => hu ?_
      by_cases hn : u = next
      · exact hn ▸ (place_running.mp hplace_next).1
      · by_contra hnot
        rw [← place_eq_unused, hplace u hn fun h => hc h.1, place_eq_unused] at hnot
        exact hnot ht

/-! ## Creating threads -/

/-- A step of `thread_create` that works on the page of `t` and leaves `stack`
there. -/
structure Creates (t : ThreadId) (stack : List Instr) (k k' : Kernel) : Prop where
  current : k'.current = k.current
  initial : k'.initial_thread = k.initial_thread
  idle : k'.idle_thread = k.idle_thread
  queue : ∀ q, k'.queue q = k.queue q
  magic : ∀ u, u ≠ t → (k'.threads u).magic = (k.threads u).magic
  status : ∀ u, u ≠ t → (k'.threads u).status = (k.threads u).status
  code : ∀ u, u ≠ t → u ≠ k.current → (k'.threads u).code = (k.threads u).code
  page_code : (k'.threads t).code = stack
  used : ∀ u, u ≠ t → k'.used_map u = k.used_map u
  page_used : k'.used_map t = true
  new_place : place k' t = .unused ∨ place k' t = .nascent
  unused : place k' t = .unused → stack = []
  only : stack = [] ∨ ∃ f, stack = [.kernel_thread f]

/-- The part of the pending work that a step of `thread_create` does. -/
structure Progress (t : ThreadId) (cur : ThreadId) (stack is is' : List Instr) (p : Place) : Prop where
  owned : .page t ∈ tokens is'
  work : ∀ a ∈ tokens is' ++ tokens stack, a = .page t ∨ a ∈ tokens is
  once : (tokens is' ++ tokens stack).Nodup
  pages : ∀ u, .page u ∈ tokens is → u = t
  target : ∀ i ∈ is', ∀ u q, i.target = some (u, q) → u = t ∧ q = p
  pending : ∀ i ∈ is', i.Pending cur
  not_idle : ∃ i ∈ is, ¬ i.idle_only
  starts : .kernel_thread .idle ∉ is' ∧ .idle ∉ is'
  no_schedule : .schedule ∉ is'

section creates

variable {stack : List Instr}

theorem Creates.place_eq (c : Creates t stack k k') (h : Wf k) (hrun : k.code.head? ≠ some .schedule)
    {u : ThreadId} (hu : u ≠ t) : place k' u = place k u := by
  refine place_congr (c.magic u hu) (c.status u hu) (fun hb => c.code u hu ?_) (by rw [c.idle])
  rintro rfl
  rw [(place_running.mp (h.current_running hrun)).2] at hb
  cases hb

/-- The pending work of all threads after the step. -/
theorem Codes.creates (h : Wf k) (c : Creates t stack k k')
    (hold : place k t = .unused ∨ place k t = .nascent)
    (hcode : k.code = is ++ rest) (hcode' : k'.code = is' ++ rest) {p : Place}
    (hp : Progress t k.current stack is is' p)
    (hfresh : .page t ∈ tokens is ∨ k.used_map t = false) : Codes k' := by
  have hcur : (k.threads k.current).code = is ++ rest := hcode
  have hcur' : (k'.threads k.current).code = is' ++ rest := by rw [← c.current]; exact hcode'
  -- a token of the code that stays behind is not one of those worked on
  have hstay : ∀ u a, a ∈ tokens (if u = k.current then rest else (k.threads u).code) →
      a ≠ .page t ∧ a ∉ tokens is := by
    intro u a ha
    have ha' : a ∈ tokens (k.threads u).code := by
      by_cases hu : u = k.current
      · rw [if_pos hu] at ha
        rw [hu, hcur, tokens_append]
        exact List.mem_append_right _ ha
      · rwa [if_neg hu] at ha
    have hnot : a ∉ tokens is := by
      intro hin
      have hin' : a ∈ tokens (k.threads k.current).code := by
        rw [hcur, tokens_append]
        exact List.mem_append_left _ hin
      have hu := h.codes.unique u k.current a ha' hin'
      rw [if_pos hu] at ha
      have honce := h.codes.once k.current
      rw [hcur, tokens_append] at honce
      exact (List.nodup_append.mp honce).2.2 _ hin _ ha rfl
    refine ⟨?_, hnot⟩
    rintro rfl
    rcases hfresh with hf | hf
    · exact hnot hf
    · rw [h.creators.used u t ha'] at hf
      cases hf
  have hcode_t : ∀ a, a ∈ tokens stack → a ∈ tokens is := by
    intro a ha
    refine (hp.work a (List.mem_append_right _ ha)).resolve_left ?_
    rintro rfl
    obtain ⟨i, hi, q, hq⟩ := page_mem_tokens_code.mp ha
    rcases c.only with hs | ⟨f, hs⟩
    · simp [hs] at hi
    · obtain rfl : i = .kernel_thread f := by simpa [hs] using hi
      cases hq
  -- where a token of the new state comes from
  have hfrom : ∀ u a, a ∈ tokens (k'.threads u).code →
      (u = t ∧ a ∈ tokens stack) ∨ (u = k.current ∧ a ∈ tokens is') ∨
        (u ≠ t ∧ a ∈ tokens (if u = k.current then rest else (k.threads u).code)) := by
    intro u a ha
    by_cases hu : u = t
    · rw [hu, c.page_code] at ha
      exact .inl ⟨hu, ha⟩
    · by_cases huc : u = k.current
      · rw [huc, hcur', tokens_append] at ha
        rcases List.mem_append.mp ha with ha | ha
        · exact .inr (.inl ⟨huc, ha⟩)
        · exact .inr (.inr ⟨hu, by rwa [if_pos huc]⟩)
      · rw [c.code u hu huc] at ha
        exact .inr (.inr ⟨hu, by rwa [if_neg huc]⟩)
  refine ⟨fun u i hi => ?_, fun u => ?_, fun u v a hu hv => ?_, fun u hu => ?_, fun u hu => ?_⟩
  · by_cases hu : u = t
    · rw [hu, c.page_code] at hi
      rcases c.only with hs | ⟨f, hs⟩
      · simp [hs] at hi
      · obtain rfl : i = .kernel_thread f := by simpa [hs] using hi
        simp [Instr.Pending]
    · by_cases huc : u = k.current
      · rw [huc, hcur'] at hi
        rw [huc]
        rcases List.mem_append.mp hi with hi | hi
        · exact hp.pending i hi
        · exact h.codes.pending _ i (by rw [hcur]; exact List.mem_append_right _ hi)
      · rw [c.code u hu huc] at hi
        exact h.codes.pending u i hi
  · by_cases hu : u = t
    · rw [hu, c.page_code]
      exact (List.nodup_append.mp hp.once).2.1
    · by_cases huc : u = k.current
      · have honce := h.codes.once k.current
        rw [hcur, tokens_append] at honce
        rw [huc, hcur', tokens_append]
        refine List.nodup_append.mpr ⟨(List.nodup_append.mp hp.once).1,
          (List.nodup_append.mp honce).2.1, fun a ha b hb hab => ?_⟩
        subst hab
        obtain ⟨hpage, hnot⟩ := hstay k.current a (by rwa [if_pos rfl])
        exact (hp.work a (List.mem_append_left _ ha)).elim hpage hnot
      · rw [c.code u hu huc]
        exact h.codes.once u
  · have hold_tok : ∀ w, a ∈ tokens (if w = k.current then rest else (k.threads w).code) →
        a ∈ tokens (k.threads w).code := by
      intro w hw
      by_cases hwc : w = k.current
      · rw [if_pos hwc] at hw
        rw [hwc, hcur, tokens_append]
        exact List.mem_append_right _ hw
      · rwa [if_neg hwc] at hw
    have hdisj := (List.nodup_append.mp hp.once).2.2
    rcases hfrom u a hu with ⟨rfl, ha⟩ | ⟨rfl, ha⟩ | ⟨hut, ha⟩ <;>
      rcases hfrom v a hv with ⟨rfl, hb⟩ | ⟨rfl, hb⟩ | ⟨hvt, hb⟩
    · rfl
    · exact absurd rfl (hdisj a hb a ha)
    · exact ((hp.work a (List.mem_append_right _ ha)).elim (hstay v a hb).1 (hstay v a hb).2).elim
    · exact absurd rfl (hdisj a ha a hb)
    · rfl
    · exact ((hp.work a (List.mem_append_left _ ha)).elim (hstay v a hb).1 (hstay v a hb).2).elim
    · exact ((hp.work a (List.mem_append_right _ hb)).elim (hstay u a ha).1 (hstay u a ha).2).elim
    · exact ((hp.work a (List.mem_append_left _ hb)).elim (hstay u a ha).1 (hstay u a ha).2).elim
    · exact h.codes.unique u v a (hold_tok u ha) (hold_tok v hb)
  · rw [c.idle]
    have htok : .idle ∈ tokens is ∨ .idle ∈ tokens (if u = k.current then rest else (k.threads u).code) := by
      rcases hfrom u _ hu with ⟨-, hu⟩ | ⟨-, hu⟩ | ⟨-, hu⟩
      · exact .inl (hcode_t _ hu)
      · exact .inl ((hp.work _ (List.mem_append_left _ hu)).resolve_left (by simp))
      · exact .inr hu
    rcases htok with hin | hin
    · refine h.codes.idle_unset k.current ?_
      rw [hcur, tokens_append]
      exact List.mem_append_left _ hin
    · refine h.codes.idle_unset u ?_
      by_cases huc : u = k.current
      · rw [if_pos huc] at hin
        rw [huc, hcur, tokens_append]
        exact List.mem_append_right _ hin
      · rwa [if_neg huc] at hin
  · by_cases hut : u = t
    · rw [hut, c.page_code, c.idle] at hu
      rw [hut, c.page_code]
      have hidle : k.idle_thread ≠ some t := by
        refine h.ne_idle ?_
        rcases hold with ho | ho <;> simp [ho, Place.blocked]
      have hstart := hu.resolve_left hidle
      rcases c.only with hs | ⟨f, hs⟩
      · simp [hs] at hstart
      · cases f with
        | idle => exact ⟨by simp [hs, Instr.idle_only], .inl (by simp [hs])⟩
        | other => simp [hs] at hstart
    · by_cases huc : u = k.current
      · exfalso
        have hidle : IdleCode (k.threads k.current).code := by
          refine h.codes.idle k.current ?_
          rw [huc, hcur', c.idle] at hu
          rw [hcur]
          simp only [List.mem_append, hp.starts.1, hp.starts.2, false_or] at hu
          simp only [List.mem_append]
          tauto
        rw [hcur] at hidle
        obtain ⟨i, hi, hnot⟩ := hp.not_idle
        exact hnot (hidle.only i (List.mem_append_left _ hi))
      · rw [c.code u hut huc] at hu ⊢
        rw [c.idle] at hu
        exact h.codes.idle u hu

/-- A step of `thread_create` before the new thread is published. -/
theorem Wf.creates (h : Wf k) (stack is is' : List Instr) (hrun : k.code.head? ≠ some .schedule)
    (hne : t ≠ k.current) (hinitial : t ≠ k.initial_thread) (c : Creates t stack k k')
    (hold : place k t = .unused ∨ place k t = .nascent)
    (hcode : k.code = is ++ rest) (hcode' : k'.code = is' ++ rest)
    (hp : Progress t k.current stack is is' (place k' t))
    (hfresh : .page t ∈ tokens is ∨ k.used_map t = false) : Wf k' := by
  have hcur : (k.threads k.current).code = is ++ rest := hcode
  have hcur' : (k'.threads k.current).code = is' ++ rest := by rw [← c.current]; exact hcode'
  have hcodes := Codes.creates h c hold hcode hcode' hp hfresh
  have hplace : ∀ u, u ≠ t → place k' u = place k u := fun u hu => c.place_eq h hrun hu
  have howned : .page t ∈ tokens (k'.threads k.current).code := by
    rw [hcur', tokens_append]
    exact List.mem_append_left _ hp.owned
  have htoken : ∀ u v, u ≠ t → .page u ∈ tokens (k'.threads v).code →
      .page u ∈ tokens (k.threads v).code := by
    intro u v hu hin
    by_cases hv : v = t
    · rw [hv, c.page_code] at hin
      obtain ⟨i, hi, q, hq⟩ := page_mem_tokens_code.mp hin
      rcases c.only with hs | ⟨f, hs⟩
      · simp [hs] at hi
      · obtain rfl : i = .kernel_thread f := by simpa [hs] using hi
        cases hq
    · by_cases hvc : v = k.current
      · rw [hvc, hcur', tokens_append] at hin
        rw [hvc, hcur, tokens_append]
        rcases List.mem_append.mp hin with hin | hin
        · have := (hp.work _ (List.mem_append_left _ hin)).resolve_left (by simpa using hu)
          exact absurd (hp.pages u this) hu
        · exact List.mem_append_right _ hin
      · rwa [c.code v hv hvc] at hin
  have hinstr : ∀ v, ∀ i ∈ (k'.threads v).code, ∀ u q, i.target = some (u, q) →
      (u = t ∧ q = place k' t) ∨ (u ≠ t ∧ i ∈ (k.threads v).code) := by
    intro v i hi u q hq
    by_cases hv : v = t
    · rw [hv, c.page_code] at hi
      rcases c.only with hs | ⟨f, hs⟩
      · simp [hs] at hi
      · obtain rfl : i = .kernel_thread f := by simpa [hs] using hi
        cases hq
    · by_cases hvc : v = k.current
      · rw [hvc, hcur'] at hi
        rcases List.mem_append.mp hi with hi | hi
        · obtain ⟨rfl, rfl⟩ := hp.target i hi u q hq
          exact .inl ⟨rfl, rfl⟩
        · refine .inr ⟨?_, by rw [hvc, hcur]; exact List.mem_append_right _ hi⟩
          rintro rfl
          have honce := hcodes.once k.current
          rw [hcur', tokens_append] at honce
          exact (List.nodup_append.mp honce).2.2 _ hp.owned _
            (page_mem_tokens_code.mpr ⟨i, hi, q, hq⟩) rfl
      · refine .inr ⟨?_, by rwa [c.code v hv hvc] at hi⟩
        rintro rfl
        exact hvc (hcodes.unique v k.current _ (page_mem_tokens_code.mpr ⟨i, hi, q, hq⟩) howned)
  have hthread : ∀ u, u ≠ t → (is_thread k' u ↔ is_thread k u) := fun u hu => by
    rw [is_thread, is_thread, c.magic u hu]
  obtain ⟨hno, hno'⟩ : .schedule ∉ (k'.threads k.current).code ∧ .schedule ∉ (k'.threads t).code := by
    have hnot := h.switching.not_mem hrun
    rw [hcode, List.mem_append, not_or] at hnot
    refine ⟨?_, ?_⟩
    · rw [hcur', List.mem_append, not_or]
      exact ⟨hp.no_schedule, hnot.2⟩
    · rw [c.page_code]
      rcases c.only with hs | ⟨f, hs⟩ <;> simp [hs]
  have hcode_eq : k'.code = (k'.threads k.current).code := by rw [Kernel.code, c.current]
  have hcur_place : place k' k.current = .running := by
    rw [hplace _ (Ne.symm hne)]
    exact h.current_running hrun
  refine ⟨hcodes, ⟨fun v u hu => ?_, fun v i hi u q hq => ?_, fun u hu => ?_, fun u hu => ?_⟩,
    ⟨fun u hu => ?_, fun hm => hno (by rw [hcode_eq] at hm; exact List.mem_of_mem_tail hm),
      fun hh => absurd (by rw [hcode_eq] at hh; exact List.mem_of_mem_head? hh) hno⟩,
    ⟨?_, fun u => ?_, ?_, fun u => ?_, fun u hu => ?_, fun u hu => ?_, ?_, fun u hu => ?_⟩⟩
  · by_cases hut : u = t
    · rw [hut]
      exact c.page_used
    · rw [c.used u hut]
      exact h.creators.used v u (htoken u v hut hu)
  · rcases hinstr v i hi u q hq with ⟨rfl, rfl⟩ | ⟨hut, hin⟩
    · rfl
    · rw [hplace u hut]
      exact h.creators.target v i hin u q hq
  · by_cases hut : u = t
    · exact ⟨k.current, hut ▸ howned⟩
    · rw [hplace u hut] at hu
      obtain ⟨v, hv⟩ := h.creators.created u hu
      have hvt : v ≠ t := by
        rintro rfl
        have hcode : (k.threads v).code = [] ∨ ∃ f, (k.threads v).code = [.kernel_thread f] := by
          rcases hold with ho | ho
          · exact .inl (h.settled.unused v (place_eq_unused.mp ho))
          · exact h.creators.stack v ho
        obtain ⟨i, hi, q, hq⟩ := page_mem_tokens_code.mp hv
        rcases hcode with hs | ⟨f, hs⟩
        · simp [hs] at hi
        · obtain rfl : i = .kernel_thread f := by simpa [hs] using hi
          cases hq
      refine ⟨v, ?_⟩
      by_cases hvc : v = k.current
      · rw [hvc, hcur, tokens_append] at hv
        rw [hvc, hcur', tokens_append]
        exact List.mem_append_right _ ((List.mem_append.mp hv).resolve_left fun hin => hut (hp.pages u hin))
      · rwa [c.code v hvt hvc]
  · by_cases hut : u = t
    · rw [hut, c.page_code]
      exact c.only
    · rw [hplace u hut] at hu
      have huc : u ≠ k.current := by
        rintro rfl
        rw [h.current_running hrun] at hu
        cases hu
      rw [c.code u hut huc]
      exact h.creators.stack u hu
  · rw [c.current] at hu
    by_cases hut : u = t
    · rw [hut]
      exact hno'
    · rw [c.code u hut hu]
      exact h.switching.others u hu
  · refine h.settled.queues.congr (fun q => by rw [c.queue]) fun u => ?_
    by_cases hut : u = t
    · rw [hut]
      rcases hold with ho | ho <;> rcases c.new_place with hn | hn <;> rw [ho, hn] <;> rfl
    · rw [hplace u hut]
  · by_cases hut : u = t
    · rw [hut]
      rcases c.new_place with hn | hn <;> simp [hn]
    · rw [hplace u hut]
      exact h.settled.found u
  · rw [c.current]
    exact (place_running.mp hcur_place).1
  · rw [c.current]
    have hhead : k'.code.head? ≠ some .schedule := fun hh =>
      hno (by rw [hcode_eq] at hh; exact List.mem_of_mem_head? hh)
    by_cases hut : u = t
    · rw [hut]
      rcases c.new_place with hn | hn <;> simp [hn, hne]
    · rw [hplace u hut, h.settled.running]
      exact and_congr_right fun _ => iff_of_true hrun hhead
  · have hut : u ≠ t := by
      rintro rfl
      rcases c.new_place with hn | hn <;> simp [hn] at hu
    rw [hplace u hut] at hu
    left
    rcases h.settled.dying u hu with ⟨hi, hc⟩ | ⟨-, hc⟩
    · refine ⟨by rw [hi, c.initial], ?_⟩
      rw [c.code u hut, hc]
      rintro rfl
      rw [h.current_running hrun] at hu
      cases hu
    · rw [hc] at hrun
      exact absurd rfl hrun
  · by_cases hut : u = t
    · rw [hut]
      exact .inl c.page_used
    · rw [c.used u hut, c.initial]
      exact h.settled.used u ((hthread u hut).mp hu)
  · rw [c.initial, c.used _ (Ne.symm hinitial)]
    exact h.settled.initial
  · by_cases hut : u = t
    · rw [hut, c.page_code]
      exact c.unused (by rw [← hut]; exact place_eq_unused.mpr hu)
    · have hu' := mt (hthread u hut).mpr hu
      rw [c.code u hut]
      · exact h.settled.unused u hu'
      · rintro rfl
        exact hu' h.settled.current

end creates

end pintos.prj3
