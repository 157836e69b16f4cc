import Pintos.Prj3.Preservation
import Pintos.Prj3.Tick

/-!
# The kernel is well formed in every reachable state

Each instruction, each call and the timer interrupt is an instance of one of
the rules for moving threads.
-/

open twos_complement pintos.kernel transition placement

namespace pintos.prj3

variable {k k' k₁ : Kernel} {env : Env} {i : Instr} {is is' rest : List Instr} {t : ThreadId}

/-! ## Plain instructions -/

theorem Expands.pushed {cur : ThreadId} (h : Expands cur i is') :
    Pushed cur [i] is' ∧ i.target = none ∧ (∀ j ∈ is', j.target = none) ∧ .schedule ∉ is' := by
  cases h <;> refine ⟨⟨?_, ?_, ?_, ?_, ?_⟩, ?_, ?_, ?_⟩ <;>
    simp [Instr.Pending, tokens, Instr.tokens, Instr.idle_only, Instr.target, ThreadFunc.tokens]
  case sema_down.refine_1 s level => cases s <;> simp

theorem Quiet.moves (h : Quiet k k') (t : ThreadId) : Moves t k k' where
  current := h.current
  used := h.used
  initial := h.initial
  idle u _ := by rw [h.idle]
  magic := h.magic
  status u _ := h.status u
  code u _ := h.code u

theorem Quiet.queue (h : Quiet k k') (q : QueueName) : k'.queue q = k.queue q := by
  cases q with
  | ready => exact h.ready_list
  | sleep => exact h.sleep_list
  | wait s => exact h.waiters s

theorem Quiet.code_eq (h : Quiet k k') : k'.code = k.code := by
  rw [Kernel.code, h.current, h.code, Kernel.code]

@[simp] theorem set_code_queue (k : Kernel) (code : List Instr) (q : QueueName) :
    (k.set_code code).queue q = k.queue q := by
  cases q <;> rfl

@[simp] theorem update_queue (k : Kernel) (t : ThreadId) (f : Thread → Thread) (q : QueueName) :
    (k.update t f).queue q = k.queue q := by
  cases q <;> rfl

@[simp] theorem set_code_status (k : Kernel) (code : List Instr) (t : ThreadId) :
    ((k.set_code code).threads t).status = (k.threads t).status := by
  by_cases ht : t = k.current <;> simp [ht]

theorem Quiet.set_code_self (k : Kernel) : Quiet (k.set_code k.code) k := by
  rw [Kernel.set_code_self]
  exact .refl k

/-- The running thread goes on with other code. -/
theorem Wf.quiet (h : Wf k) (is is' : List Instr) (hrun : k.code.head? ≠ some .schedule)
    (hcode : k.code = is ++ rest)
    (hquiet : Quiet (k.set_code rest) k₁) (hpush : Pushed k.current is is')
    (hold : ∀ j ∈ is, j.target = none) (hnew : ∀ j ∈ is', j.target = none)
    (hno : .schedule ∉ is') : Wf (k₁.push is') := by
  have m := ((Moves.set_code k.current k rest).trans (hquiet.moves _)).trans
    (.set_code _ k₁ (is' ++ k₁.code))
  have hcode' : (k₁.push is').code = is' ++ rest := by
    rw [Kernel.code_set_code, hquiet.code_eq, Kernel.code_set_code]
  refine h.stays is is' hrun m ?_ hquiet.idle (fun q => ?_) hcode hcode'
    (h.codes.replace m.current m.code hquiet.idle hcode hcode' hpush) hold hnew hno
  · rw [set_code_status, hquiet.status, set_code_status]
  · rw [set_code_queue, hquiet.queue, set_code_queue]

/-- Nobody but the running thread waits on the semaphore of its `cond_wait`. -/
theorem Wf.own_waiters (h : Wf k) (hrun : k.code.head? ≠ some .schedule) :
    (k.sema (.waiter k.current)).waiters = [] := by
  by_contra hne
  obtain ⟨t, ht⟩ := List.exists_mem_of_ne_nil _ hne
  have hq := (h.settled.queues.mem (.wait (.waiter k.current)) t).mp ht
  have hp : place k t = .waiting (.waiter k.current) := by
    cases hp : place k t <;> simp_all [Place.queue]
  obtain ⟨hthread, hstatus, hb⟩ := blocked_of_place (by rw [hp]; rfl) (by simp [hp])
  have hpending : .sema_down_loop (.waiter k.current) ∈ (k.threads t).code := by
    rw [hp] at hb
    generalize (k.threads t).code = code at hb ⊢
    have hsub : ∀ i ∈ resume_point code, i ∈ code := by
      unfold resume_point
      split <;> simp +contextual
    refine hsub _ ?_
    unfold blocked_place at hb
    split at hb <;> simp_all
    split at hb <;> simp at hb
  have ht : k.current = t := h.codes.pending t _ hpending
  rw [← ht, h.current_running hrun] at hp
  cases hp

theorem Wf.plain (h : Wf k) (hcode : k.code = i :: rest) (hplain : i.Plain k)
    (he : exec k.pop env i = .ok k') : Wf k' := by
  have hrun : k.code.head? ≠ some .schedule := by
    rw [hcode]
    rintro ⟨rfl⟩
    exact hplain
  have hpop : k.pop = k.set_code rest := by rw [Kernel.pop, hcode, List.tail_cons]
  have hplain' : i.Plain k.pop := by
    rw [hpop]
    cases i <;> exact hplain
  obtain ⟨k₁, is', hquiet, hexpands, rfl, -⟩ := exec_plain hplain' (h.own_waiters hrun) he
  obtain ⟨hpush, hold, hnew, hno⟩ := hexpands.pushed
  rw [hpop] at hquiet
  exact h.quiet [i] is' hrun hcode hquiet hpush (by simpa using hold) hnew hno

/-! ## Waking a thread -/

@[simp] theorem make_ready_threads (k : Kernel) (t u : ThreadId) :
    (make_ready k t).threads u =
      if u = t then { k.threads t with arrival := k.arrivals, status := .THREAD_READY }
      else k.threads u := by
  by_cases hu : u = t <;> simp [make_ready, ready_insert, hu]

theorem make_ready_moves (k : Kernel) (t : ThreadId) : Moves t k (make_ready k t) := by
  refine ⟨rfl, rfl, rfl, fun _ _ => Iff.rfl, fun u => ?_, fun u hu => ?_, fun u _ => ?_⟩
  · by_cases hu : u = t <;> simp [hu]
  · simp [hu]
  · by_cases hu : u = t <;> simp [hu]

theorem make_ready_queue (k : Kernel) (t : ThreadId) (q : QueueName) :
    ((make_ready k t).queue q).Perm (if q = .ready then t :: k.queue q else k.queue q) := by
  cases q with
  | ready => exact list_insert_ordered_perm _ _
  | sleep => exact .refl _
  | wait s => exact .refl _

theorem mem_make_ready (k : Kernel) (t : ThreadId) : t ∈ (make_ready k t).ready_list :=
  (make_ready_queue k t .ready).mem_iff.mpr (.head _)

/-- A thread is taken off the queue that it is in and made ready, and the
running thread goes on with other code. -/
theorem Wf.wakes (h : Wf k) (k₁ : Kernel) (is is' : List Instr)
    (hrun : k.code.head? ≠ some .schedule) (hcode : k.code = is ++ rest)
    (hmoves : Moves t (k.set_code rest) k₁) (hcode₁ : k₁.code = rest)
    (hidle : k₁.idle_thread = k.idle_thread)
    (hblocked : (place k t).blocked = true ∧ place k t ≠ .idling)
    (hqueue : ∀ q, k₁.queue q = (k.queue q).erase t) (hpush : Pushed k.current is is')
    (hold : ∀ u, .page u ∈ tokens is ↔ u = t ∧ place k t = .nascent)
    (hnew : ∀ j ∈ is', j.target = none) (hno : .schedule ∉ is')
    (hk' : Quiet (make_ready k₁ t) k') : Wf (k'.push is') := by
  have m := (((Moves.set_code t k rest).trans hmoves).trans (make_ready_moves k₁ t)).trans
    ((hk'.moves t).trans (.set_code t k' (is' ++ k'.code)))
  have hne : t ≠ k₁.current := by
    rw [hmoves.current]
    rintro rfl
    have hr := h.current_running hrun
    rw [Kernel.set_code_current, hr] at hblocked
    simp [Place.blocked] at hblocked
  have hready_code : (make_ready k₁ t).code = rest := by
    rw [← hcode₁]
    simp only [Kernel.code, make_ready_threads]
    rw [if_neg]
    · rfl
    · exact Ne.symm hne
  refine h.woken hrun m hblocked (hk'.idle.trans hidle) ?_ (fun q => ?_) hcode ?_ hpush hold hnew hno
  · rw [set_code_status, hk'.status]
    simp
  · rw [set_code_queue, hk'.queue]
    exact hqueue q ▸ make_ready_queue k₁ t q
  · rw [Kernel.code_set_code, hk'.code_eq, hready_code]

/-- A thread waits in at most one queue. -/
theorem Wf.erase_queue (h : Wf k) {q : QueueName} (ht : t ∈ k.queue q) {q' : QueueName}
    (hne : q' ≠ q) : (k.queue q').erase t = k.queue q' :=
  List.erase_of_not_mem fun ht' => hne (h.settled.queues.unique ht' ht)

theorem Wf.erase_of_place (h : Wf k) (hp : (place k t).queue = none) (q : QueueName) :
    (k.queue q).erase t = k.queue q :=
  h.settled.queues.erase_of_none hp q

/-- The first waiter, if there is one, is taken off and made ready. -/
theorem sema_wake_ok {s : SemaRef} :
    sema_wake k s = .ok k' ↔
      ((k.sema s).waiters = [] ∧ k' = k) ∨
      ∃ t ws, (k.sema s).waiters = t :: ws ∧ is_thread k t ∧
        (k.threads t).status = .THREAD_BLOCKED ∧
        k' = make_ready (k.set_sema s { k.sema s with waiters := ws }) t := by
  unfold sema_wake
  split
  · rename_i hw
    simp [hw, eq_comm]
  · rename_i t ws hw
    rw [thread_unblock_ok]
    simp [hw, is_thread]

/-- What a waiting thread's place is. -/
theorem Wf.place_of_waiter (h : Wf k) {s : SemaRef} (ht : t ∈ (k.sema s).waiters) :
    place k t = .waiting s := by
  have hq := (h.settled.queues.mem (.wait s) t).mp ht
  cases hp : place k t <;> simp_all [Place.queue]

theorem Wf.place_of_sleeper (h : Wf k) (ht : t ∈ k.sleep_list) : place k t = .sleeping := by
  have hq := (h.settled.queues.mem .sleep t).mp ht
  cases hp : place k t <;> simp_all [Place.queue]

theorem Wf.sema_up (h : Wf k) {s : SemaRef} (hcode : k.code = .sema_up s :: rest)
    (he : exec k.pop env (.sema_up s) = .ok k') : Wf k' := by
  have hrun : k.code.head? ≠ some .schedule := by simp [hcode]
  have hpop : k.pop = k.set_code rest := by rw [Kernel.pop, hcode, List.tail_cons]
  rw [hpop, exec, prj3.sema_up] at he
  obtain ⟨k₁, hwake, he⟩ := bind_eq_ok_iff.mp he
  rw [ok_eq_ok] at he
  subst he
  have hpush : Pushed k.current [.sema_up s]
      [.thread_yield, .intr_set_level k.intr_level, .ret (.sema_up s)] := by
    constructor <;> simp [Instr.Pending, tokens, Instr.tokens, Instr.idle_only]
    cases s <;> simp
  rcases sema_wake_ok.mp hwake with ⟨-, rfl⟩ | ⟨t, ws, hw, hthread, hstatus, rfl⟩
  · refine h.quiet [.sema_up s] _ hrun hcode ?_ hpush ?_ ?_ ?_
    · exact (Quiet.set_intr _ _).trans (.set_sema _ s _ rfl)
    all_goals simp [Instr.target]
  · have hw' : (k.sema s).waiters = t :: ws := hw
    have hp := h.place_of_waiter (t := t) (s := s) (by simp [hw'])
    refine h.wakes (t := t) (({ k.set_code rest with intr_level := .INTR_OFF } : Kernel).set_sema s
        { k.sema s with waiters := ws }) [.sema_up s] _ hrun hcode
      ?_ ?_ ?_ ?_ (fun q => ?_) hpush ?_ ?_ ?_ (.set_sema _ s _ rfl)
    · exact ⟨rfl, rfl, rfl, fun _ _ => Iff.rfl, fun _ => rfl, fun _ _ => rfl, fun _ _ => rfl⟩
    · simp [Kernel.code]
    · rfl
    · simp [hp, Place.blocked]
    · by_cases hq : q = .wait s
      · subst hq
        simp [Kernel.queue, hw']
      · rw [h.erase_queue (q := .wait s) (by simp [Kernel.queue, hw']) hq]
        cases q with
        | ready => rfl
        | sleep => rfl
        | wait s' =>
          have hs : s' ≠ s := fun hs => hq (by rw [hs])
          simp [Kernel.queue, hs]
    · simp [tokens, Instr.tokens, hp]
    all_goals simp [Instr.target]

theorem Wf.thread_unblock (h : Wf k) (hcode : k.code = .thread_unblock t :: rest)
    (he : exec k.pop env (.thread_unblock t) = .ok k') : Wf k' := by
  have hrun : k.code.head? ≠ some .schedule := by simp [hcode]
  have hpop : k.pop = k.set_code rest := by rw [Kernel.pop, hcode, List.tail_cons]
  rw [hpop, exec, thread_unblock_ok] at he
  obtain ⟨-, -, rfl⟩ := he
  have hp : place k t = .nascent := by
    refine h.creators.target k.current (.thread_unblock t) ?_ t _ rfl
    have hcur : (k.threads k.current).code = .thread_unblock t :: rest := hcode
    simp [hcur]
  have hw := h.wakes (t := t) _ [.thread_unblock t] [] hrun hcode
    (.set_code t _ rest) (by simp) rfl (by simp [hp, Place.blocked])
    (fun q => by rw [h.erase_of_place (by rw [hp]; rfl)]; simp) (by constructor <;> simp)
    (by simp [tokens, Instr.tokens, hp]) (by simp) (by simp) (.refl _)
  rwa [Kernel.set_code_set_code, Kernel.push, List.nil_append, Kernel.set_code_self] at hw

/-! ## Giving up the processor -/

/-- The running thread takes the status `s`, and `schedule` is called. -/
theorem Wf.gives_up (h : Wf k) (k₁ : Kernel) (is is' : List Instr)
    (hrun : k.code.head? ≠ some .schedule) (hcode : k.code = is ++ rest)
    (hmoves : Moves k.current k k₁) (hcode₁ : k₁.code = rest) (hidle : k₁.idle_thread = k.idle_thread)
    (hoff : k₁.intr_level = .INTR_OFF) {s : ThreadStatus} {p : Place}
    (hplace : ∀ k', is_thread k' k.current → (k'.threads k.current).status = s →
      (k'.threads k.current).code = .schedule :: is' ++ rest → k'.idle_thread = k.idle_thread →
      place k' k.current = p)
    (hp : p ∉ [.running, .nascent, .unused, .lost, .dying])
    (hqueue : ∀ q, (k₁.queue q).Perm (if p.queue = some q then k.current :: k.queue q else k.queue q))
    (hpush : Pushed k.current is (.schedule :: is')) (hold : ∀ j ∈ is, j.target = none)
    (hnew : ∀ j ∈ is', j.target = none) (hno : .schedule ∉ is') :
    Wf ((k₁.update k₁.current fun th => { th with status := s }).push (.schedule :: is')) := by
  have hcurrent : k₁.current = k.current := hmoves.current
  have m := (hmoves.trans (.set_status k.current k₁ s)).trans
    (.set_code k.current _ (.schedule :: is' ++ rest))
  rw [hcurrent]
  have hcode_upd : (k₁.update k.current fun th => { th with status := s }).code = rest := by
    rw [← hcode₁]
    simp [Kernel.code, hcurrent]
  rw [Kernel.push, hcode_upd]
  have hpl := hplace _ ((m.magic _).trans h.settled.current) (by rw [set_code_status]; simp)
    (by simp [hcurrent]) hidle
  simp only [List.mem_cons, not_or] at hp
  refine h.suspended is is' hrun m hidle (by rw [hpl]; simp [hp]) (fun hd => ?_) (fun q => ?_) hcode ?_ hpush
    hold hnew hno hoff
  · rw [hpl] at hd
    exact absurd hd hp.2.2.2.2.1
  · rw [hpl, set_code_queue, update_queue]
    exact hqueue q
  · rw [Kernel.code_set_code]

theorem Wf.thread_yield (h : Wf k) (hcode : k.code = .thread_yield :: rest)
    (he : exec k.pop env .thread_yield = .ok k') : Wf k' := by
  have hrun : k.code.head? ≠ some .schedule := by simp [hcode]
  have hpop : k.pop = k.set_code rest := by rw [Kernel.pop, hcode, List.tail_cons]
  rw [hpop, exec] at he
  obtain ⟨k₁, hy, he⟩ := bind_eq_ok_iff.mp he
  rw [ok_eq_ok] at he
  subst he
  obtain ⟨-, -, -, rfl⟩ := thread_yield_ok.mp hy
  have hpush : Pushed k.current [.thread_yield] [.schedule, .intr_set_level k.intr_level] := by
    constructor <;> simp [Instr.Pending, tokens, Instr.tokens, Instr.idle_only]
  have hoff : Moves k.current k { k.set_code rest with intr_level := .INTR_OFF } :=
    (Moves.set_code k.current k rest).trans ((Quiet.set_intr _ _).moves _)
  have hcode_off : ({ k.set_code rest with intr_level := .INTR_OFF } : Kernel).code = rest := by
    simp [Kernel.code]
  by_cases hidle : k.idle_thread = some k.current
  · rw [if_neg (by simpa using hidle)]
    refine h.gives_up _ [.thread_yield] [.intr_set_level k.intr_level]
      (p := .idling) hrun hcode hoff hcode_off rfl rfl (fun k' hthread hstatus _ hi => ?_)
      (by simp) (fun q => ?_)
      hpush (by simp [Instr.target]) (by simp [Instr.target]) (by simp)
    · rw [place_of_ready hthread hstatus, hi, if_pos hidle]
    · simp only [Place.queue, reduceCtorEq, ↓reduceIte]
      cases q <;> exact .refl _
  · rw [if_pos (by simpa using hidle)]
    refine h.gives_up (ready_insert { k.set_code rest with intr_level := .INTR_OFF } k.current)
      [.thread_yield] [.intr_set_level k.intr_level] (p := .ready) hrun hcode (hoff.trans ?_) ?_ rfl rfl
      (fun k' hthread hstatus _ hi => ?_) (by simp) (fun q => ?_)
      hpush (by simp [Instr.target]) (by simp [Instr.target]) (by simp)
    · refine ⟨rfl, rfl, rfl, fun _ _ => Iff.rfl, fun u => ?_, fun u hu => ?_, fun u hu => ?_⟩
      all_goals simp_all [ready_insert]
      split <;> rfl
    · simp [Kernel.code, ready_insert]
    · rw [place_of_ready hthread hstatus, hi, if_neg hidle]
    · cases q with
      | ready => exact list_insert_ordered_perm _ _
      | sleep => exact .refl _
      | wait s => exact .refl _

theorem Wf.thread_block (h : Wf k) (hcode : k.code = .thread_block :: rest)
    (he : exec k.pop env .thread_block = .ok k') : Wf k' := by
  have hrun : k.code.head? ≠ some .schedule := by simp [hcode]
  have hpop : k.pop = k.set_code rest := by rw [Kernel.pop, hcode, List.tail_cons]
  rw [hpop, exec] at he
  obtain ⟨k₁, hb, he⟩ := bind_eq_ok_iff.mp he
  rw [ok_eq_ok] at he
  subst he
  obtain ⟨-, hoff, -, -, rfl⟩ := thread_block_ok.mp hb
  refine h.gives_up _ [.thread_block] [.ret .thread_block]
    (p := if k.idle_thread = some k.current then .idling else .parked) hrun hcode
    (.set_code _ k rest) (by simp) rfl hoff (fun k' hthread hstatus hc hi => ?_) ?_ (fun q => ?_)
    ?_ (by simp [Instr.target]) (by simp [Instr.target]) (by simp)
  · rw [place_of_blocked hthread hstatus, hc, hi]
    simp [resume_point, blocked_place]
  · split <;> simp
  · by_cases hidle : k.idle_thread = some k.current <;> simp [hidle, Place.queue]
  · constructor <;> simp [Instr.Pending, tokens, Instr.tokens, Instr.idle_only]

theorem Wf.sema_down_loop (h : Wf k) {s : SemaRef} (hcode : k.code = .sema_down_loop s :: rest)
    (hzero : (k.sema s).value = 0) (he : exec k.pop env (.sema_down_loop s) = .ok k') : Wf k' := by
  have hrun : k.code.head? ≠ some .schedule := by simp [hcode]
  have hpop : k.pop = k.set_code rest := by rw [Kernel.pop, hcode, List.tail_cons]
  rw [hpop, exec, sema_down_loop_ok (by simpa using hzero)] at he
  obtain ⟨-, -, -, hoff, rfl⟩ := he
  refine h.gives_up (enqueue_waiter (k.set_code rest) s) [.sema_down_loop s] [.sema_down_loop s]
    (p := .waiting s) hrun hcode ((Moves.set_code _ k rest).trans
      ⟨rfl, rfl, rfl, fun _ _ => Iff.rfl, fun _ => rfl, fun _ _ => rfl, fun _ _ => rfl⟩)
    (by simp [Kernel.code, enqueue_waiter]) rfl hoff (fun k' hthread hstatus hc hi => ?_) (by simp)
    (fun q => ?_)
    ?_ (by simp [Instr.target]) (by simp [Instr.target]) (by simp)
  · rw [place_of_blocked hthread hstatus, hc]
    simp [resume_point, blocked_place]
  · cases q with
    | ready => exact .refl _
    | sleep => exact .refl _
    | wait s' =>
      by_cases hs : s = s'
      · subst hs
        simpa [Place.queue, Kernel.queue, enqueue_waiter] using list_insert_ordered_perm _ _
      · simp [Place.queue, Kernel.queue, enqueue_waiter, hs, Ne.symm hs]
  · constructor <;> simp [Instr.Pending, tokens, Instr.tokens, Instr.idle_only]

theorem Wf.thread_sleep (h : Wf k) {n : Int} (hcode : k.code = .thread_sleep n :: rest)
    (he : exec k.pop env (.thread_sleep n) = .ok k') : Wf k' := by
  have hrun : k.code.head? ≠ some .schedule := by simp [hcode]
  have hpop : k.pop = k.set_code rest := by rw [Kernel.pop, hcode, List.tail_cons]
  rw [hpop, exec, thread_sleep_ok] at he
  obtain ⟨-, -, -, hoff, rfl⟩ := he
  refine h.gives_up (enqueue_sleeper (k.set_code rest) n) [.thread_sleep n] [.ret .thread_sleep]
    (p := .sleeping) hrun hcode ((Moves.set_code _ k rest).trans
      ⟨rfl, rfl, rfl, fun _ _ => Iff.rfl, fun u => ?_, fun u hu => ?_, fun u hu => ?_⟩)
    (by simp [Kernel.code, enqueue_sleeper]) rfl hoff (fun k' hthread hstatus hc hi => ?_) (by simp)
    (fun q => ?_) ?_ (by simp [Instr.target]) (by simp [Instr.target]) (by simp)
  · by_cases hu : u = k.current <;> simp [enqueue_sleeper, hu]
  · simp_all [enqueue_sleeper]
  · simp_all [enqueue_sleeper]
  · rw [place_of_blocked hthread hstatus, hc]
    simp [resume_point, blocked_place]
  · cases q with
    | ready => exact .refl _
    | sleep => exact list_insert_ordered_perm _ _
    | wait s' => exact .refl _
  · constructor <;> simp [Instr.Pending, tokens, Instr.tokens, Instr.idle_only]

/-- `thread_exit`, called by the thread's own function. -/
theorem Wf.thread_exit (h : Wf k) (hcode : k.code = []) (he : thread_exit k = .ok k') : Wf k' := by
  have hrun : k.code.head? ≠ some .schedule := by simp [hcode]
  rw [prj3.thread_exit, ASSERT_bind_ok] at he
  obtain ⟨-, he⟩ := he
  rw [thread_current_bind_ok] at he
  obtain ⟨hthread, -, he⟩ := he
  rw [ok_eq_ok] at he
  subst he
  have hplace : place (({ k with intr_level := .INTR_OFF, all_list := k.all_list.erase k.current } :
      Kernel).update k.current fun th => { th with status := .THREAD_DYING, code := [.schedule] })
      k.current = .dying :=
    place_dying.mpr ⟨by simpa [is_thread] using hthread, by simp⟩
  refine h.suspended [] [] hrun
    ⟨rfl, rfl, rfl, fun _ _ => Iff.rfl, fun u => ?_, fun u hu => ?_, fun u hu => ?_⟩ rfl
    (by rw [hplace]; simp) (fun _ => by simp [Kernel.code]) (fun q => ?_) hcode
    (by simp [Kernel.code]) ?_ (by simp) (by simp) (by simp) rfl
  · by_cases hu : u = k.current <;> simp [hu]
  · simp [hu]
  · simp [hu]
  · rw [hplace]
    cases q <;> exact .refl _
  · constructor <;> simp [Instr.Pending, tokens, Instr.tokens, Instr.idle_only]

/-! ## Creating a thread -/

theorem Wf.palloc_get_page (h : Wf k) {p : Int} {f : ThreadFunc}
    (hcode : k.code = .palloc_get_page p f :: rest) (henv : env.Allowed k)
    (he : exec k.pop env (.palloc_get_page p f) = .ok k') : Wf k' := by
  have hrun : k.code.head? ≠ some .schedule := by simp [hcode]
  have hpop : k.pop = k.set_code rest := by rw [Kernel.pop, hcode, List.tail_cons]
  rw [hpop, exec, ok_eq_ok] at he
  subst he
  unfold prj3.palloc_get_page
  split
  · refine h.quiet [.palloc_get_page p f] _ hrun hcode (.refl _) ?_ ?_ ?_ ?_
    · constructor <;> simp [Instr.Pending, tokens, Instr.tokens, Instr.idle_only]
    all_goals simp [Instr.target]
  · rename_i t hpage
    obtain ⟨hfree, hinitial⟩ := henv t hpage
    have hunused : place k t = .unused := place_eq_unused.mpr fun ht => by
      rcases h.settled.used t ht with hu | hi
      · rw [hfree] at hu
        cases hu
      · exact hinitial hi
    have hne : t ≠ k.current := by
      rintro rfl
      exact place_eq_unused.mp hunused h.settled.current
    change Wf ((allocate (k.set_code rest) t).push _)
    have hplace : place ((allocate (k.set_code rest) t).push
        [.lock_release .pool_lock, .init_thread t p f]) t = .unused :=
      place_eq_unused.mpr (by simp [is_thread, allocate, hne, Thread.zero])
    refine h.creates (t := t) [] [.palloc_get_page p f] [.lock_release .pool_lock, .init_thread t p f]
      hrun hne hinitial
      ⟨rfl, rfl, rfl, fun q => by cases q <;> rfl, fun u hu => ?_, fun u hu => ?_, fun u hu huc => ?_, ?_,
        fun u hu => ?_, ?_, .inl hplace, fun _ => rfl, .inl rfl⟩ (.inl hunused)
      hcode ?_
      (by rw [hplace]; constructor <;> cases f <;>
        simp [tokens, Instr.tokens, ThreadFunc.tokens, Instr.target, Instr.Pending, Instr.idle_only])
      (.inr hfree)
    · by_cases huc : u = k.current <;> simp [allocate, hu, huc, Ne.symm hne]
    · by_cases huc : u = k.current <;> simp [allocate, hu, huc, Ne.symm hne]
    · simp [allocate, hu, huc]
    · simp [allocate, hne, Thread.zero]
    · simp [allocate, hu]
    · simp [allocate]
    · simp [Kernel.code, allocate, Ne.symm hne]

theorem Wf.init_thread (h : Wf k) {p : Int} {f : ThreadFunc}
    (hcode : k.code = .init_thread t p f :: rest)
    (he : exec k.pop env (.init_thread t p f) = .ok k') : Wf k' := by
  have hrun : k.code.head? ≠ some .schedule := by simp [hcode]
  have hpop : k.pop = k.set_code rest := by rw [Kernel.pop, hcode, List.tail_cons]
  have hcur : (k.threads k.current).code = .init_thread t p f :: rest := hcode
  rw [hpop, exec, init_thread_ok] at he
  obtain ⟨-, rfl⟩ := he
  have hunused : place k t = .unused :=
    h.creators.target k.current (.init_thread t p f) (by simp [hcur]) t _ rfl
  have hne : t ≠ k.current := by
    rintro rfl
    exact place_eq_unused.mp hunused h.settled.current
  have hused : k.used_map t = true :=
    h.creators.used k.current t (by simp [hcur, Instr.tokens])
  have hinitial : t ≠ k.initial_thread := by
    rintro rfl
    rw [h.settled.initial] at hused
    cases hused
  have hplace : place ((init_page (k.set_code rest) t p).push
      [.lock_acquire .tid_lock, .next_tid t, .inherit t, .alloc_frames t f]) t = .nascent := by
    rw [place_of_blocked]
    · simp [init_page, hne, Thread.zero, resume_point, blocked_place]
    · simp [is_thread, init_page, hne]
    · simp [init_page, hne]
  refine h.creates (t := t) [] [.init_thread t p f]
    [.lock_acquire .tid_lock, .next_tid t, .inherit t, .alloc_frames t f] hrun hne hinitial
    ⟨rfl, rfl, rfl, fun q => by cases q <;> rfl, fun u hu => ?_, fun u hu => ?_, fun u hu huc => ?_, ?_,
      fun _ _ => rfl, hused, .inr hplace, fun _ => rfl, .inl rfl⟩ (.inl hunused)
    hcode ?_
    (by rw [hplace]; constructor <;> cases f <;>
      simp [tokens, Instr.tokens, ThreadFunc.tokens, Instr.target, Instr.Pending, Instr.idle_only])
    (.inl (by simp [tokens, Instr.tokens]))
  · by_cases huc : u = k.current <;> simp [init_page, hu, huc, Ne.symm hne]
  · by_cases huc : u = k.current <;> simp [init_page, hu, huc, Ne.symm hne]
  · simp [init_page, hu, huc]
  · simp [init_page, hne, Thread.zero]
  · simp [Kernel.code, init_page, Ne.symm hne]

theorem Wf.alloc_frames (h : Wf k) {f : ThreadFunc} (hcode : k.code = .alloc_frames t f :: rest)
    (he : exec k.pop env (.alloc_frames t f) = .ok k') : Wf k' := by
  have hrun : k.code.head? ≠ some .schedule := by simp [hcode]
  have hpop : k.pop = k.set_code rest := by rw [Kernel.pop, hcode, List.tail_cons]
  have hcur : (k.threads k.current).code = .alloc_frames t f :: rest := hcode
  rw [hpop, exec, alloc_frames_ok] at he
  obtain ⟨-, rfl⟩ := he
  have hnascent : place k t = .nascent :=
    h.creators.target k.current (.alloc_frames t f) (by simp [hcur]) t _ rfl
  obtain ⟨hthread, hstatus, -⟩ := blocked_of_place (by rw [hnascent]; rfl) (by simp [hnascent])
  have hne : t ≠ k.current := by
    rintro rfl
    rw [h.current_running hrun] at hnascent
    cases hnascent
  have hused : k.used_map t = true :=
    h.creators.used k.current t (by simp [hcur, Instr.tokens])
  have hinitial : t ≠ k.initial_thread := by
    rintro rfl
    rw [h.settled.initial] at hused
    cases hused
  have hplace : place ((fill_stack (k.set_code rest) t [.kernel_thread f]).push
      [.thread_unblock t, .thread_yield, .ret (.thread_create (some t))]) t = .nascent := by
    rw [place_of_blocked]
    · simp [fill_stack, hne, resume_point, blocked_place]
    · simpa [is_thread, fill_stack, hne] using hthread
    · simpa [fill_stack, hne] using hstatus
  refine h.creates (t := t) [.kernel_thread f] [.alloc_frames t f]
    [.thread_unblock t, .thread_yield, .ret (.thread_create (some t))] hrun hne hinitial
    ⟨rfl, rfl, rfl, fun q => by cases q <;> rfl, fun u hu => ?_, fun u hu => ?_, fun u hu huc => ?_, ?_,
      fun _ _ => rfl, hused, .inr hplace, fun hu => ?_, .inr ⟨f, rfl⟩⟩ (.inr hnascent)
    hcode ?_
    (by rw [hplace]; constructor <;> cases f <;>
      simp [tokens, Instr.tokens, ThreadFunc.tokens, Instr.target, Instr.Pending, Instr.idle_only])
    (.inl (by simp [tokens, Instr.tokens]))
  · by_cases huc : u = k.current <;> simp [fill_stack, hu, huc, Ne.symm hne]
  · by_cases huc : u = k.current <;> simp [fill_stack, hu, huc, Ne.symm hne]
  · simp [fill_stack, hu, huc]
  · simp [fill_stack, hne]
  · rw [hplace] at hu
    cases hu
  · simp [Kernel.code, fill_stack, Ne.symm hne]

/-! ## The idle thread -/

/-- The running thread becomes the idle thread, when nobody else can. -/
theorem Wf.set_idle (h : Wf k) (hrun : k.code.head? ≠ some .schedule) (hnone : k.idle_thread = none)
    (htokens : ∀ t, .idle ∉ tokens (k.threads t).code) (hcode : IdleCode k.code) :
    Wf { k with idle_thread := some k.current } := by
  have hplace : ∀ u, place { k with idle_thread := some k.current } u = place k u := by
    intro u
    by_cases hu : u = k.current
    · subst hu
      obtain ⟨hthread, hstatus⟩ := place_running.mp (h.current_running hrun)
      rw [h.current_running hrun]
      exact place_running.mpr ⟨hthread, hstatus⟩
    · exact place_congr rfl rfl (fun _ => rfl) (by simp [hnone, Ne.symm hu])
  refine ⟨⟨h.codes.pending, h.codes.once, h.codes.unique, fun t ht => absurd ht (htokens t),
    fun t ht => ?_⟩, ⟨h.creators.used, fun c i hi t p hp => ?_, fun t ht => ?_, fun t ht => ?_⟩,
    ⟨h.switching.others, h.switching.first, h.switching.intr_off⟩,
    ⟨?_, fun t => ?_, h.settled.current, fun t => ?_, fun t ht => ?_, h.settled.used, h.settled.initial,
      h.settled.unused⟩⟩
  · rcases ht with ht | ht
    · obtain rfl := Option.some.inj ht
      exact hcode
    · exact h.codes.idle t (.inr ht)
  · rw [hplace]
    exact h.creators.target c i hi t p hp
  · rw [hplace] at ht
    exact h.creators.created t ht
  · rw [hplace] at ht
    exact h.creators.stack t ht
  · exact h.settled.queues.congr (fun q => by cases q <;> exact .refl _) fun t => by rw [hplace]
  · rw [hplace]
    exact h.settled.found t
  · rw [hplace]
    exact h.settled.running t
  · rw [hplace] at ht
    exact h.settled.dying t ht

theorem Wf.idle (h : Wf k) (hcode : k.code = .idle :: rest) (he : exec k.pop env .idle = .ok k') :
    Wf k' := by
  have hrun : k.code.head? ≠ some .schedule := by simp [hcode]
  have hpop : k.pop = k.set_code rest := by rw [Kernel.pop, hcode, List.tail_cons]
  have hcur : (k.threads k.current).code = .idle :: rest := hcode
  rw [hpop, exec, thread_current_bind_ok] at he
  obtain ⟨-, -, he⟩ := he
  rw [ok_eq_ok] at he
  subst he
  have hw := h.quiet [.idle] [.sema_up .idle_started, .idle_loop] hrun hcode (.refl _)
    (by constructor <;> simp [Instr.Pending, tokens, Instr.tokens, Instr.idle_only])
    (by simp [Instr.target]) (by simp [Instr.target]) (by simp)
  have htoken : .idle ∈ tokens (k.threads k.current).code := by simp [hcur, Instr.tokens]
  have hidle : IdleCode (.idle :: rest) := hcur ▸ h.codes.idle k.current (.inr (.inr (by simp [hcur])))
  refine hw.set_idle (by simp) (h.codes.idle_unset _ htoken) (fun t ht => ?_) ?_
  · by_cases htc : t = k.current
    · have honce := h.codes.once k.current
      simp [hcur, Instr.tokens, htc] at ht honce
      exact honce.1 ht
    · simp only [Kernel.set_code_threads, Kernel.set_code_current, htc, ↓reduceIte] at ht
      exact htc (h.codes.unique t k.current _ ht htoken)
  · rw [Kernel.code_set_code, Kernel.code_set_code]
    refine ⟨fun i hi => ?_, .inr (.inr (by simp))⟩
    simp only [List.mem_append, List.mem_cons, List.not_mem_nil, or_false] at hi
    rcases hi with (rfl | rfl) | hi
    · rfl
    · rfl
    · exact hidle.only i (List.mem_cons_of_mem _ hi)

/-! ## One step of the running thread -/

theorem Wf.exec (h : Wf k) (hcode : k.code = i :: rest) (henv : env.Allowed k)
    (he : exec k.pop env i = .ok k') : Wf k' := by
  have hpending : i.Pending k.current := by
    refine h.codes.pending k.current i ?_
    have hcur : (k.threads k.current).code = i :: rest := hcode
    simp [hcur]
  cases i with
  | schedule => exact h.schedule hcode he
  | thread_yield => exact h.thread_yield hcode he
  | thread_block => exact h.thread_block hcode he
  | thread_unblock t => exact h.thread_unblock hcode he
  | thread_exit => exact absurd hpending id
  | palloc_get_page p f => exact h.palloc_get_page hcode henv he
  | init_thread t p f => exact h.init_thread hcode he
  | alloc_frames t f => exact h.alloc_frames hcode he
  | idle => exact h.idle hcode he
  | thread_sleep n => exact h.thread_sleep hcode he
  | sema_up s => exact h.sema_up hcode he
  | sema_init s n => exact absurd hpending id
  | sema_down_loop s =>
    by_cases hzero : (k.sema s).value = 0
    · exact h.sema_down_loop hcode hzero he
    · exact h.plain hcode hzero he
  | _ => exact h.plain hcode trivial he

/-- A call is the execution of an instruction put in front of no code. -/
theorem push_pop (k : Kernel) (i : Instr) : (k.push [i]).pop = k := by
  rw [Kernel.pop, Kernel.code_set_code, List.singleton_append, List.tail_cons,
    Kernel.set_code_set_code, Kernel.set_code_self]

theorem place_of_parked (h : Parked k t) : place k t = .parked := by
  obtain ⟨hthread, hstatus, hhead, hidle⟩ := h
  obtain ⟨rest, hc⟩ : ∃ rest, (k.threads t).code = .ret .thread_block :: rest := by
    cases hc : (k.threads t).code with
    | nil => simp [hc] at hhead
    | cons i rest => exact ⟨rest, by simpa [hc] using hhead⟩
  rw [place_of_blocked hthread hstatus, hc]
  simp [resume_point, blocked_place, hidle]

/-- `thread_unblock`, called for a thread that blocked itself. -/
theorem Wf.unblock_parked (h : Wf k) (hcode : k.code = []) (hparked : Parked k t)
    (he : prj3.thread_unblock k t = .ok k') : Wf k' := by
  obtain ⟨-, -, rfl⟩ := thread_unblock_ok.mp he
  have hp := place_of_parked hparked
  have hself : k.set_code [] = k := by rw [← hcode, Kernel.set_code_self]
  have hw := h.wakes (t := t) k [] [] (by simp [hcode])
    hcode (by rw [hself]; exact (Quiet.refl k).moves t) hcode rfl (by simp [hp, Place.blocked])
    (fun q => by rw [h.erase_of_place (by rw [hp]; rfl)]) (by constructor <;> simp)
    (by simp [hp]) (by simp) (by simp) (.refl _)
  rwa [Kernel.push, List.nil_append, Kernel.set_code_self] at hw

theorem Wf.sema_init (h : Wf k) (hrun : k.code.head? ≠ some .schedule) {s : SemaRef} {n : Nat}
    (hwaiters : (k.sema s).waiters = []) : Wf (k.set_sema s { value := n % 2 ^ 32, waiters := [] }) := by
  have hquiet : Quiet k (k.set_sema s { value := n % 2 ^ 32, waiters := [] }) :=
    .set_sema k s _ hwaiters.symm
  have hw := h.quiet [] [] hrun (show k.code = [] ++ k.code from rfl)
    (by rw [Kernel.set_code_self]; exact hquiet) (by constructor <;> simp) (by simp) (by simp) (by simp)
  rwa [Kernel.push, List.nil_append, Kernel.set_code_self] at hw

/-- A function without pending code, which the idle thread never is, calls the kernel. -/
theorem Wf.push_call (h : Wf k) (hcode : k.code = []) (hpending : i.Pending k.current)
    (htokens : i.tokens = []) (htarget : i.target = none) (hno : i ≠ .schedule) :
    Wf (k.push [i]) := by
  have hcur : (k.threads k.current).code = [] := hcode
  have hnot : ¬ IdleCode (k.threads k.current).code := fun hidle => by simpa [hcur] using hidle.loops
  have hcode' : ∀ u, ((k.push [i]).threads u).code =
      if u = k.current then [i] else (k.threads u).code := by
    intro u
    by_cases hu : u = k.current <;> simp [hu, hcode]
  refine h.stays [] [i] (by simp [hcode]) (.set_code _ k _) (by simp) rfl
    (fun q => by simp) hcode (by rw [Kernel.code_set_code, hcode])
    ⟨fun u j hj => ?_, fun u => ?_, fun u v a ha hb => ?_, fun u ha => ?_, fun u ha => ?_⟩
    (by simp) (by simpa using htarget) (by simpa using Ne.symm hno)
  all_goals simp only [hcode'] at *
  · by_cases hu : u = k.current
    · simp only [hu, ↓reduceIte, List.mem_singleton] at hj
      rw [hj, hu]
      exact hpending
    · rw [if_neg hu] at hj
      exact h.codes.pending u j hj
  · by_cases hu : u = k.current
    · simp [hu, htokens]
    · rw [if_neg hu]
      exact h.codes.once u
  · by_cases hu : u = k.current
    · simp [hu, htokens] at ha
    · by_cases hv : v = k.current
      · simp [hv, htokens] at hb
      · rw [if_neg hu] at ha
        rw [if_neg hv] at hb
        exact h.codes.unique u v a ha hb
  · by_cases hu : u = k.current
    · simp [hu, htokens] at ha
    · rw [if_neg hu] at ha
      exact h.codes.idle_unset u ha
  · by_cases hu : u = k.current
    · exfalso
      rw [if_pos hu] at ha
      rcases ha with ha | ha | ha
      · exact hnot (h.codes.idle _ (.inl (hu ▸ ha)))
      · rw [List.mem_singleton] at ha
        simp [← ha, Instr.tokens, ThreadFunc.tokens] at htokens
      · rw [List.mem_singleton] at ha
        simp [← ha, Instr.tokens] at htokens
    · rw [if_neg hu] at ha ⊢
      exact h.codes.idle u ha

/-- The calls that are no more than their instruction. -/
def Call.Simple : Call → Prop
  | .thread_exit | .thread_unblock _ | .sema_init _ _ => False
  | _ => True

/-- A simple call steps like the same instruction in front of the code. -/
theorem Wf.simple_call (h : Wf k) {c : Call} (hsimple : c.Simple) (hcode : k.code = []) :
    Wf (k.push [c.instr]) ∧ (k.push [c.instr]).code = [c.instr] := by
  refine ⟨?_, by rw [Kernel.code_set_code, hcode]; rfl⟩
  have hno : c.instr ≠ .schedule := by cases c <;> simp [Call.instr]
  cases c with
  | thread_exit => exact absurd hsimple id
  | thread_unblock t => exact absurd hsimple id
  | sema_init n v => exact absurd hsimple id
  | _ => exact h.push_call hcode (by simp [Call.instr, Instr.Pending]) rfl rfl hno

theorem Wf.call (h : Wf k) (c : Call) (hcode : k.code = []) (hallowed : c.Allowed k)
    (he : prj3.exec k env c.instr = .ok k') (henv : env.page = none) : Wf k' := by
  have hrun : k.code.head? ≠ some .schedule := by simp [hcode]
  by_cases hsimple : c.Simple
  · obtain ⟨hw, hc⟩ := h.simple_call hsimple hcode
    exact hw.exec hc (show env.Allowed _ by simp [Env.Allowed, henv]) (by rwa [push_pop])
  cases c with
  | thread_exit => exact h.thread_exit hcode he
  | thread_unblock t => exact h.unblock_parked hcode hallowed he
  | sema_init n v =>
    simp only [Call.instr, prj3.exec, ok_eq_ok] at he
    exact he ▸ h.sema_init hrun hallowed
  | _ => exact absurd trivial hsimple

/-! ## The timer interrupt -/

theorem Switching.not_pending (h : Switching k) (hon : k.intr_level = .INTR_ON) :
    k.code.head? ≠ some .schedule := fun hh => by
  have hoff := h.intr_off hh
  rw [hon] at hoff
  cases hoff

/-- Nobody moves and no code changes. -/
theorem Wf.still (h : Wf k) (hrun : k.code.head? ≠ some .schedule) (m : ∀ t, Moves t k k')
    (hcode : ∀ t, (k'.threads t).code = (k.threads t).code)
    (hstatus : ∀ t, (k'.threads t).status = (k.threads t).status)
    (hidle : k'.idle_thread = k.idle_thread) (hqueue : ∀ q, (k'.queue q).Perm (k.queue q)) : Wf k' := by
  have hcode' : k'.code = [] ++ k.code := by
    rw [Kernel.code, (m k.current).current, hcode, List.nil_append, Kernel.code]
  have hsame : k.code = [] ++ k.code := rfl
  exact h.stays [] [] hrun (m _) (hstatus _) hidle hqueue hsame hcode'
    (h.codes.replace (m k.current).current (fun u _ => hcode u) hidle hsame hcode'
      (by constructor <;> simp))
    (by simp) (by simp) (by simp)

theorem Calm.moves (h : Calm k k') (t : ThreadId) : Moves t k k' where
  current := h.current
  used := h.used
  initial := h.initial
  idle u _ := by rw [h.idle]
  magic := h.magic
  status u _ := h.status u
  code u _ := h.code u

theorem Wf.calm (h : Wf k) (hrun : k.code.head? ≠ some .schedule) (hcalm : Calm k k') : Wf k' := by
  refine h.still hrun hcalm.moves hcalm.code hcalm.status hcalm.idle fun q => ?_
  cases q with
  | ready => exact hcalm.ready_list
  | sleep => rw [Kernel.queue, hcalm.sleep_list, Kernel.queue]
  | wait s => rw [Kernel.queue, hcalm.sema, Kernel.queue]

/-- The interrupt's own flags and counters have no part in the places. -/
theorem Wf.tick_start (h : Wf k) (hrun : k.code.head? ≠ some .schedule) : Wf (prj3.tick_start k) :=
  h.still hrun (fun _ => ⟨rfl, rfl, rfl, fun _ _ => Iff.rfl, fun _ => rfl, fun _ _ => rfl,
    fun _ _ => rfl⟩) (fun _ => rfl) (fun _ => rfl) rfl fun q => by cases q <;> exact .refl _

theorem Wf.wake_first (h : Wf k) (hrun : k.code.head? ≠ some .schedule) {l : List ThreadId}
    (hsleep : k.sleep_list = t :: l) : Wf (wake_first k t) := by
  have hmem : t ∈ k.queue .sleep := by simp [Kernel.queue, hsleep]
  have hp := h.place_of_sleeper hmem
  have hw := h.wakes (t := t) { k with sleep_list := k.sleep_list.erase t } [] [] hrun
    (show k.code = [] ++ k.code from rfl)
    (by
      rw [Kernel.set_code_self]
      exact ⟨rfl, rfl, rfl, fun _ _ => Iff.rfl, fun _ => rfl, fun _ _ => rfl, fun _ _ => rfl⟩)
    rfl rfl (by simp [hp, Place.blocked])
    (fun q => by
      by_cases hq : q = .sleep
      · rw [hq]
        rfl
      · rw [h.erase_queue hmem hq]
        cases q <;> first | rfl | exact absurd rfl hq)
    (by constructor <;> simp) (by simp [hp]) (by simp) (by simp) (.refl _)
  rwa [Kernel.push, List.nil_append, Kernel.set_code_self] at hw

theorem wake_first_code (h : Wf k) (hrun : k.code.head? ≠ some .schedule) {l : List ThreadId}
    (hsleep : k.sleep_list = t :: l) : (prj3.wake_first k t).code = k.code := by
  have hne : k.current ≠ t := by
    rintro rfl
    have hp := h.place_of_sleeper (t := k.current) (by simp [hsleep])
    rw [h.current_running hrun] at hp
    cases hp
  change ((prj3.wake_first k t).threads k.current).code = (k.threads k.current).code
  simp [prj3.wake_first, hne]

/-- The flag by which the interrupt asks for a yield has no part in the places. -/
theorem Wf.yields (h : Wf k) (hrun : k.code.head? ≠ some .schedule) :
    Wf { k with yield_on_return := true } :=
  h.still hrun (fun _ => ⟨rfl, rfl, rfl, fun _ _ => Iff.rfl, fun _ => rfl, fun _ _ => rfl,
    fun _ _ => rfl⟩) (fun _ => rfl) (fun _ => rfl) rfl fun q => by cases q <;> exact .refl _

/-- The timer interrupt, and a property that waking the first sleeper keeps. No
sleeper whose time has come is left. -/
theorem Wf.intr_handler_induct {P : Kernel → Prop} (h : Wf k) (hon : k.intr_level = .INTR_ON)
    (he : intr_handler k = .ok k') (hstart : P (prj3.tick_start k))
    (hwake : ∀ k₁ t l, Wf k₁ → k₁.code.head? ≠ some .schedule → P k₁ → k₁.sleep_list = t :: l →
      (k₁.threads t).alarm_ticks ≤ k.ticks + 1 → P (prj3.wake_first k₁ t)) :
    ∃ k₁, Wf k₁ ∧ k₁.code.head? ≠ some .schedule ∧ P k₁ ∧
      (∀ t ∈ k₁.sleep_list.head?, k.ticks + 1 < (k₁.threads t).alarm_ticks) ∧
      k' = ({ accounted { k₁ with yield_on_return := true } with in_external_intr := false } :
        Kernel).push [.thread_yield, .intr_set_level .INTR_ON, .ret .timer_interrupt] := by
  have hrun := h.switching.not_pending hon
  obtain ⟨k₁, hloop, -, hk'⟩ := intr_handler_ok he
  obtain ⟨⟨hw₁, hrun₁, hp₁⟩, hleft⟩ := thread_alarm_loop_induct (k := prj3.tick_start k)
    (P := fun k => Wf k ∧ k.code.head? ≠ some .schedule ∧ P k)
    (fun k₂ t l ⟨hw, hr, hp⟩ hsleep hle _ _ =>
      ⟨hw.wake_first hr hsleep, by rw [wake_first_code hw hr hsleep]; exact hr,
        hwake k₂ t l hw hr hp hsleep hle⟩)
    hloop ⟨h.tick_start hrun, hrun, hstart⟩
  exact ⟨k₁, hw₁, hrun₁, hp₁, hleft, hk'⟩

theorem Wf.intr_handler (h : Wf k) (hon : k.intr_level = .INTR_ON) (he : intr_handler k = .ok k') :
    Wf k' := by
  obtain ⟨k₁, hw₁, hrun₁, -, -, rfl⟩ := h.intr_handler_induct (P := fun _ => True) hon he trivial
    fun _ _ _ _ _ _ _ _ => trivial
  have hw₂ := hw₁.yields hrun₁
  have hcalm := accounted_calm { k₁ with yield_on_return := true }
  have hw₃ := hw₂.calm hrun₁ hcalm
  have hrun₃ : (accounted { k₁ with yield_on_return := true }).code.head? ≠ some .schedule := by
    rw [Kernel.code, hcalm.current, hcalm.code]
    exact hrun₁
  have hw₄ : Wf { accounted { k₁ with yield_on_return := true } with in_external_intr := false } :=
    hw₃.still hrun₃ (fun _ => ⟨rfl, rfl, rfl, fun _ _ => Iff.rfl, fun _ => rfl, fun _ _ => rfl,
      fun _ _ => rfl⟩) (fun _ => rfl) (fun _ => rfl) rfl fun q => by cases q <;> exact .refl _
  refine hw₄.quiet [] _ hrun₃ (List.nil_append _).symm (.set_code_self _) ?_ (by simp) (by simp [Instr.target])
    (by simp)
  constructor <;> simp [Instr.Pending, tokens, Instr.tokens, Instr.idle_only]

/-! ## Every reachable state -/

theorem step_ok {l : Label} (h : step k l = some k') : Enabled k l ∧ perform k l = .ok k' := by
  unfold step at h
  split at h
  · rename_i henabled
    refine ⟨henabled, ?_⟩
    cases hp : perform k l with
    | ok k₁ => simpa [hp, Except.toOption] using h
    | error a => simp [hp, Except.toOption] at h
  · cases h

theorem Wf.step {l : Label} (h : Wf k) (hs : step k l = some k') : Wf k' := by
  obtain ⟨henabled, he⟩ := step_ok hs
  cases l with
  | next env =>
    obtain ⟨hne, henv⟩ := henabled
    obtain ⟨i, rest, hcode⟩ := List.exists_cons_of_ne_nil hne
    simp only [perform, hcode] at he
    exact h.exec hcode henv he
  | call c => exact h.call c henabled.1 henabled.2 he rfl
  | timer => exact h.intr_handler henabled he

theorem Wf.boot (mlfqs aging : Bool) (t₀ : ThreadId) : Wf (boot mlfqs aging t₀) := by
  have hplace : ∀ t, place (prj3.boot mlfqs aging t₀) t = if t = t₀ then .running else .unused := by
    intro t
    by_cases ht : t = t₀ <;> simp [place, prj3.boot, ht, Thread.zero, status_place]
  have hcode : ∀ t, ((prj3.boot mlfqs aging t₀).threads t).code = if t = t₀ then
      [.thread_create PRI_MIN .idle, .intr_set_level .INTR_ON, .sema_down .idle_started] else [] := by
    intro t
    by_cases ht : t = t₀ <;> simp [prj3.boot, ht, Thread.zero]
  have htokens : ∀ t, tokens ((prj3.boot mlfqs aging t₀).threads t).code =
      if t = t₀ then [.idle] else [] := by
    intro t
    rw [hcode]
    split <;> rfl
  refine ⟨⟨fun t i hi => ?_, fun t => ?_, fun t u a ht hu => ?_, fun t _ => rfl, fun t ht => ?_⟩,
    ⟨fun c t ht => ?_, fun c i hi t p hp => ?_, fun t ht => ?_, fun t ht => ?_⟩,
    ⟨fun t ht => ?_, ?_, ?_⟩,
    ⟨⟨fun q => ?_, fun q t => ?_⟩, fun t => ?_, ?_, fun t => ?_, fun t ht => ?_, fun t ht => ?_, rfl,
      fun t ht => ?_⟩⟩
  · rw [hcode] at hi
    split at hi
    · simp only [List.mem_cons, List.not_mem_nil, or_false] at hi
      rcases hi with rfl | rfl | rfl <;> simp [Instr.Pending]
    · simp at hi
  · rw [htokens]
    split <;> simp
  · rw [htokens] at ht hu
    by_cases htt : t = t₀ <;> by_cases hut : u = t₀ <;> simp_all
  · rw [hcode] at ht
    simp only [prj3.boot, reduceCtorEq, false_or] at ht
    split at ht <;> simp at ht
  · rw [htokens] at ht
    split at ht <;> simp at ht
  · have hpage : .page t ∈ tokens ((prj3.boot mlfqs aging t₀).threads c).code :=
      page_mem_tokens_code.mpr ⟨i, hi, p, hp⟩
    rw [htokens] at hpage
    split at hpage <;> simp at hpage
  · rw [hplace] at ht
    split at ht <;> cases ht
  · rw [hplace] at ht
    split at ht <;> cases ht
  · rw [hcode, if_neg (show t ≠ t₀ from ht)]
    simp
  · rw [Kernel.code, hcode]
    simp [prj3.boot]
  · rw [Kernel.code, hcode]
    simp [prj3.boot]
  · cases q with
    | wait s => cases s <;> simp [Kernel.queue, prj3.boot]
    | _ => simp [Kernel.queue, prj3.boot]
  · rw [hplace]
    have hq : (prj3.boot mlfqs aging t₀).queue q = [] := by
      cases q with
      | wait s => cases s <;> rfl
      | _ => rfl
    rw [hq]
    split <;> simp [Place.queue]
  · rw [hplace]
    split <;> simp
  · simp [is_thread, prj3.boot]
  · rw [hplace, Kernel.code, hcode]
    by_cases ht : t = t₀ <;> simp [ht, prj3.boot]
  · rw [hplace] at ht
    split at ht <;> cases ht
  · by_cases htt : t = t₀
    · exact .inr htt
    · simp [is_thread, prj3.boot, htt, Thread.zero] at ht
  · rw [hcode]
    by_cases htt : t = t₀
    · simp [is_thread, prj3.boot, htt] at ht
    · rw [if_neg htt]

/-- The kernel is well formed in every reachable state. -/
theorem reachable_wf (h : kernel.Reachable k) : Wf k :=
  h.invariant (fun s hs => by obtain ⟨m, a, t, rfl⟩ := hs; exact .boot m a t)
    fun _ _ _ _ hw hs => hw.step hs

end pintos.prj3
