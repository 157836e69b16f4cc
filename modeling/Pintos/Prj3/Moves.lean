import Pintos.Prj3.Places

/-!
# Moving one thread

What an operation keeps when it moves one thread to another place and gives
the running thread other code: the ingredients from which every operation of
the scheduler keeps the kernel well formed.
-/

open pintos.kernel transition placement

namespace pintos.prj3

/-- The operation leaves every thread but `t` where it is, and every code but
the running thread's. -/
structure Moves (t : ThreadId) (k k' : Kernel) : Prop where
  current : k'.current = k.current
  used : k'.used_map = k.used_map
  initial : k'.initial_thread = k.initial_thread
  idle : ∀ u, u ≠ t → (k'.idle_thread = some u ↔ k.idle_thread = some u)
  magic : ∀ u, (k'.threads u).magic = (k.threads u).magic
  status : ∀ u, u ≠ t → (k'.threads u).status = (k.threads u).status
  code : ∀ u, u ≠ k.current → (k'.threads u).code = (k.threads u).code

theorem Moves.set_code (t : ThreadId) (k : Kernel) (code : List Instr) : Moves t k (k.set_code code) where
  current := rfl
  used := rfl
  initial := rfl
  idle _ _ := Iff.rfl
  magic u := by by_cases hu : u = k.current <;> simp [hu]
  status u _ := by by_cases hu : u = k.current <;> simp [hu]
  code u hu := by simp [hu]

theorem Moves.set_status (t : ThreadId) (k : Kernel) (s : ThreadStatus) :
    Moves t k (k.update t fun th => { th with status := s }) where
  current := rfl
  used := rfl
  initial := rfl
  idle _ _ := Iff.rfl
  magic u := by by_cases hu : u = t <;> simp [hu]
  status u hu := by simp [hu]
  code u _ := by by_cases hu : u = t <;> simp [hu]

theorem Moves.trans {t : ThreadId} {k k₁ k₂ : Kernel} (h : Moves t k k₁) (h' : Moves t k₁ k₂) :
    Moves t k k₂ where
  current := h'.current.trans h.current
  used := h'.used.trans h.used
  initial := h'.initial.trans h.initial
  idle u hu := (h'.idle u hu).trans (h.idle u hu)
  magic u := (h'.magic u).trans (h.magic u)
  status u hu := (h'.status u hu).trans (h.status u hu)
  code u hu := (h'.code u (h.current ▸ hu)).trans (h.code u hu)

/-- The instructions `is` of thread `t` give way to `is'`, which promise the
same work or less. -/
structure Pushed (t : ThreadId) (is is' : List Instr) : Prop where
  pending : (∀ i ∈ is, i.Pending t) → ∀ i ∈ is', i.Pending t
  tokens : (tokens is').Sublist (tokens is)
  starts : .kernel_thread .idle ∈ is' ∨ .idle ∈ is' → .kernel_thread .idle ∈ is ∨ .idle ∈ is
  idle_only : (∀ i ∈ is, i.idle_only) → ∀ i ∈ is', i.idle_only
  loops : .kernel_thread .idle ∈ is ∨ .idle ∈ is ∨ .idle_loop ∈ is →
    .kernel_thread .idle ∈ is' ∨ .idle ∈ is' ∨ .idle_loop ∈ is'

theorem page_mem_tokens {i : Instr} {t : ThreadId} :
    .page t ∈ i.tokens ↔ ∃ p, i.target = some (t, p) := by
  have hfunc (f : ThreadFunc) : Token.page t ∉ f.tokens := by cases f <;> simp [ThreadFunc.tokens]
  cases i <;> simp [Instr.tokens, Instr.target, hfunc, eq_comm]

theorem target_place {i : Instr} {t : ThreadId} {p : Place} (h : i.target = some (t, p)) :
    p = .unused ∨ p = .nascent := by
  revert h
  cases i <;> simp [Instr.target, eq_comm]
  all_goals tauto

theorem page_mem_tokens_code {code : List Instr} {t : ThreadId} :
    .page t ∈ tokens code ↔ ∃ i ∈ code, ∃ p, i.target = some (t, p) := by
  simp [tokens, page_mem_tokens]

theorem IdleCode.replace {t : ThreadId} {is is' rest : List Instr} (h : IdleCode (is ++ rest))
    (hpush : Pushed t is is') : IdleCode (is' ++ rest) where
  only i hi := by
    rcases List.mem_append.mp hi with hi | hi
    · exact hpush.idle_only (fun j hj => h.only j (List.mem_append_left _ hj)) i hi
    · exact h.only i (List.mem_append_right _ hi)
  loops := by
    have hl := h.loops
    simp only [List.mem_append] at hl ⊢
    have := hpush.loops
    tauto

section codes

variable {k k' : Kernel} {is is' rest : List Instr}

/-- The running thread replaces its next instructions. -/
theorem Codes.replace (h : Codes k) (hcurrent : k'.current = k.current)
    (hothers : ∀ u, u ≠ k.current → (k'.threads u).code = (k.threads u).code)
    (hidle : k'.idle_thread = k.idle_thread) (hcode : k.code = is ++ rest)
    (hcode' : k'.code = is' ++ rest) (hpush : Pushed k.current is is') : Codes k' := by
  have hcur : (k.threads k.current).code = is ++ rest := hcode
  have hcur' : (k'.threads k.current).code = is' ++ rest := by rw [← hcurrent]; exact hcode'
  have hsub : ∀ u, (tokens (k'.threads u).code).Sublist (tokens (k.threads u).code) := by
    intro u
    by_cases hu : u = k.current
    · subst hu
      rw [hcur, hcur', tokens_append, tokens_append]
      exact hpush.tokens.append (List.Sublist.refl _)
    · rw [hothers u hu]
  refine ⟨fun u i hi => ?_, fun u => (h.once u).sublist (hsub u),
    fun u v a hu hv => h.unique u v a ((hsub u).subset hu) ((hsub v).subset hv),
    fun u hu => hidle.trans (h.idle_unset u ((hsub u).subset hu)), fun u hu => ?_⟩
  · by_cases hc : u = k.current
    · subst hc
      rw [hcur'] at hi
      have hp := h.pending k.current
      rw [hcur] at hp
      rcases List.mem_append.mp hi with hi | hi
      · exact hpush.pending (fun j hj => hp j (List.mem_append_left _ hj)) i hi
      · exact hp i (List.mem_append_right _ hi)
    · rw [hothers u hc] at hi
      exact h.pending u i hi
  · by_cases hc : u = k.current
    · subst hc
      have hi := h.idle k.current
      rw [hcur] at hi
      rw [hcur', hidle] at hu
      rw [hcur']
      refine (hi ?_).replace hpush
      simp only [List.mem_append] at hu ⊢
      have := hpush.starts
      tauto
    · rw [hothers u hc] at hu ⊢
      rw [hidle] at hu
      exact h.idle u hu

/-- The running thread replaces its next instructions by such as have no part
in the creation of threads. -/
theorem Creators.replace (h : Creators k) (hcodes : Codes k) (hcurrent : k'.current = k.current)
    (hothers : ∀ u, u ≠ k.current → (k'.threads u).code = (k.threads u).code)
    (hused : k'.used_map = k.used_map) (hcode : k.code = is ++ rest) (hcode' : k'.code = is' ++ rest)
    (htarget : ∀ i ∈ is', i.target = none)
    (hplace : ∀ u, place k u = .unused ∨ place k u = .nascent → .page u ∉ tokens is →
      place k' u = place k u)
    (hcreated : ∀ u, place k' u = .nascent → place k u = .nascent ∧ .page u ∉ tokens is)
    (hrunning : place k' k.current ≠ .nascent) : Creators k' := by
  have hcur : (k.threads k.current).code = is ++ rest := hcode
  have hcur' : (k'.threads k.current).code = is' ++ rest := by rw [← hcurrent]; exact hcode'
  have hold : ∀ c, ∀ i ∈ (k'.threads c).code, i.target ≠ none →
      i ∈ (k.threads c).code ∧ (c = k.current → i ∈ rest) := by
    intro c i hi hnone
    by_cases hc : c = k.current
    · subst hc
      rw [hcur'] at hi
      rcases List.mem_append.mp hi with hi | hi
      · exact absurd (htarget i hi) hnone
      · exact ⟨by rw [hcur]; exact List.mem_append_right _ hi, fun _ => hi⟩
    · rw [hothers c hc] at hi
      exact ⟨hi, fun h => absurd h hc⟩
  have hfree : ∀ c, ∀ i ∈ (k'.threads c).code, ∀ t p, i.target = some (t, p) →
      .page t ∉ tokens is := by
    intro c i hi t p ht hin
    obtain ⟨hi', hrest⟩ := hold c i hi (by simp [ht])
    have htok : .page t ∈ tokens (k.threads c).code := page_mem_tokens_code.mpr ⟨i, hi', p, ht⟩
    have htok' : .page t ∈ tokens (k.threads k.current).code := by
      rw [hcur, tokens_append]
      exact List.mem_append_left _ hin
    have hc := hcodes.unique c k.current _ htok htok'
    have honce := hcodes.once k.current
    rw [hcur, tokens_append] at honce
    exact (List.nodup_append.mp honce).2.2 _ hin _
      (page_mem_tokens_code.mpr ⟨i, hrest hc, p, ht⟩) rfl
  refine ⟨fun c t ht => ?_, fun c i hi t p ht => ?_, fun t ht => ?_, fun t ht => ?_⟩
  · obtain ⟨i, hi, p, hp⟩ := page_mem_tokens_code.mp ht
    rw [hused]
    exact h.used c t (page_mem_tokens_code.mpr ⟨i, (hold c i hi (by simp [hp])).1, p, hp⟩)
  · obtain ⟨hi', -⟩ := hold c i hi (by simp [ht])
    have hp := h.target c i hi' t p ht
    rw [← hp]
    refine hplace t ?_ (hfree c i hi t p ht)
    rw [hp]
    exact target_place ht
  · obtain ⟨hn, hnot⟩ := hcreated t ht
    obtain ⟨c, hc⟩ := h.created t hn
    refine ⟨c, ?_⟩
    by_cases hcc : c = k.current
    · subst hcc
      rw [hcur, tokens_append] at hc
      rw [hcur', tokens_append]
      exact List.mem_append_right _ ((List.mem_append.mp hc).resolve_left hnot)
    · rw [hothers c hcc]
      exact hc
  · rw [hothers t]
    · exact h.stack t (hcreated t ht).1
    · rintro rfl
      exact hrunning ht

end codes

section moves

variable {k k' : Kernel} {t : ThreadId}

theorem Moves.place_eq (m : Moves t k k') (h : Settled k) (hrun : k.code.head? ≠ some .schedule)
    {u : ThreadId} (hu : u ≠ t) : place k' u = place k u := by
  refine place_congr (m.magic u) (m.status u hu) (fun hb => ?_) (m.idle u hu)
  refine m.code u fun hc => ?_
  have hr := (place_running.mp ((h.running u).mpr ⟨hc, hrun⟩)).2
  rw [hb] at hr
  cases hr

theorem Settled.moves (h : Settled k) (m : Moves t k k') (hrun : k.code.head? ≠ some .schedule)
    (hqueues : Placed k'.queue fun u => (place k' u).queue) (hfound : place k' t ≠ .lost)
    (hrunning : ∀ u, place k' u = .running ↔ u = k.current ∧ k'.code.head? ≠ some .schedule)
    (hdying : place k' t = .dying → t = k.current ∧ k'.code = [.schedule]) : Settled k' where
  queues := hqueues
  found u := by
    by_cases hu : u = t
    · rw [hu]
      exact hfound
    · rw [m.place_eq h hrun hu]
      exact h.found u
  current := by
    rw [is_thread, m.current, m.magic]
    exact h.current
  running u := by rw [hrunning, m.current]
  dying u hd := by
    rw [m.initial, m.current]
    by_cases hu : u = t
    · subst hu
      exact .inr (hdying hd)
    · rw [m.place_eq h hrun hu] at hd
      have hc : u ≠ k.current := by
        rintro rfl
        rw [(h.running _).mpr ⟨rfl, hrun⟩] at hd
        cases hd
      rw [m.code u hc]
      exact (h.dying u hd).imp_right fun hcur => absurd hcur.1 hc
  used u hu := by
    rw [is_thread, m.magic] at hu
    rw [m.used, m.initial]
    exact h.used u hu
  initial := by
    rw [m.used, m.initial]
    exact h.initial
  unused u hu := by
    rw [is_thread, m.magic] at hu
    rw [m.code u]
    · exact h.unused u hu
    · rintro rfl
      exact hu h.current

theorem Wf.current_running (h : Wf k) (hrun : k.code.head? ≠ some .schedule) :
    place k k.current = .running :=
  (h.settled.running _).mpr ⟨rfl, hrun⟩

theorem Switching.not_mem (h : Switching k) (hrun : k.code.head? ≠ some .schedule) :
    .schedule ∉ k.code := by
  have hfirst := h.first
  cases hc : k.code with
  | nil => simp
  | cons i rest =>
    rw [hc] at hfirst hrun
    simp only [List.mem_cons, not_or]
    exact ⟨fun he => hrun (by simp [he]), hfirst⟩

theorem IdleCode.resumes {code : List Instr} (h : IdleCode code) :
    ∃ i ∈ code, ∃ rest, resume_point code = i :: rest := by
  cases code with
  | nil => simpa using h.loops
  | cons i rest =>
    by_cases hi : i = .schedule
    · subst hi
      cases rest with
      | nil => simpa using h.loops
      | cons j rest => exact ⟨j, by simp, rest, rfl⟩
    · refine ⟨i, by simp, rest, ?_⟩
      unfold resume_point
      split <;> simp_all

theorem IdleCode.blocked_idling {code : List Instr} (h : IdleCode code)
    (hstart : .idle ∉ tokens code) :
    blocked_place true (resume_point code) = .idling ∨ blocked_place true (resume_point code) = .lost := by
  obtain ⟨i, hi, rest, hr⟩ := h.resumes
  have honly := h.only i hi
  have hnot : .idle ∉ i.tokens := fun hin => hstart (List.mem_flatMap.mpr ⟨i, hi, hin⟩)
  rw [hr]
  unfold blocked_place
  split
  · contradiction
  · rename_i f _ heq
    cases heq
    cases f with
    | idle => simp [Instr.tokens, ThreadFunc.tokens] at hnot
    | other => simp [Instr.idle_only] at honly
  · rename_i heq
    cases heq
    simp [Instr.idle_only] at honly
  · rename_i heq
    cases heq
    simp [Instr.idle_only] at honly
  · exact .inl rfl
  · exact .inr rfl

/-- The idle thread is never at the places from which threads are woken. -/
theorem Wf.ne_idle (h : Wf k) {u : ThreadId}
    (hu : place k u = .unused ∨ ((place k u).blocked = true ∧ place k u ≠ .idling)) :
    k.idle_thread ≠ some u := by
  intro hi
  have hcode := h.codes.idle u (.inl hi)
  rcases hu with hu | ⟨hb, hidling⟩
  · have hloops := hcode.loops
    rw [h.settled.unused u (place_eq_unused.mp hu)] at hloops
    simp at hloops
  · obtain ⟨-, -, hp⟩ := blocked_of_place hb hidling
    have hstart : .idle ∉ tokens (k.threads u).code := fun ht => by
      simp [h.codes.idle_unset u ht] at hi
    rw [decide_eq_true hi] at hp
    rcases hcode.blocked_idling hstart with hq | hq
    · exact hidling (hp.trans hq)
    · exact h.settled.found u (hp.trans hq)

end moves

end pintos.prj3
