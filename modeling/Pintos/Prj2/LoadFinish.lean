import Pintos.Prj2.ProcessTree

/-!
# What `process_execute` polls for

A process that polls `load_finish` polls for its new child, which is still to set it, unless there is no new
child or it has exited in its load.
-/

open interaction Prog transition

namespace pintos.prj2

variable {f f' f₁ : Family} {t u c : ThreadId} {p p' q q' : Proc} {a : Act} {point : Point} {notes : List Note}

/-- A process is in its load, and has still to tell its parent. -/
def Stage.loads : Stage → Bool
  | .loading | .unloaded | .loaded _ => true
  | _ => false

namespace Family

/-- The child that a process has just made is in its load. -/
def Polls (f : Family) : Prop :=
  ∀ t p tid, f.procs t = some p → p.point.stage = .created tid → p.load_finish = false →
    ∃ c q, f.procs c = some q ∧ tid = some q.tid ∧ q.parent = t ∧ q.point.stage.loads = true

/-- No thread is made in vain by a process that then polls, and no child that is polled for exits. -/
def Answers (f : Family) (t : ThreadId) (a : Act) : Prop :=
  (a = .create none → ∀ p, f.procs t = some p → p.load_finish = true) ∧
    ∀ status, a = .ends (.exit status) → ∀ p, f.procs t = some p → p.point.stage = .loading →
      ∀ q, f.procs p.parent = some q → q.load_finish = true

theorem Move.to_created {tid : Option Int} (hmove : f.Move t p a f₁ point notes) (ha : a ≠ .die)
    (hs : point.stage = .created tid) : a = .create tid := by
  cases hmove with
  | create_none | create =>
    cases hs
    rfl
  | die hs => exact absurd rfl ha
  | @find x hs' =>
    simp only at hs
    cases hfound : f.find_child p.child_list x <;> rw [hfound] at hs <;> cases hs
  | @poll_load_finish x hs' hf => cases x <;> cases hs
  | @finish success _ hs' hf => cases success <;> cases hs
  | exec hs' | judge hs' | returns hs' => cases hs'.symm.trans hs
  | _ => cases hs

/-- A process in its load stays there until it exits, or tells its parent. -/
theorem Move.of_loads (hmove : f.Move t p a f₁ point notes) (hs : p.point.stage.loads = true) :
    point.stage.loads = true ∨ (∃ status, a = .ends (.exit status) ∧ p.point.stage = .loading) ∨
      a = .finish := by
  cases hmove with
  | unload | loaded => exact .inl rfl
  | exits hs' =>
    obtain hs' | hs' := hs'
    · rw [hs'] at hs
      cases hs
    · exact .inr (.inl ⟨_, rfl, hs'⟩)
  | finish => exact .inr (.inr rfl)
  | fault hs' => obtain hs' | hs' := hs' <;> rw [hs'] at hs <;> cases hs
  | waited hs' => obtain hs' | ⟨hs', -⟩ := hs' <;> rw [hs'] at hs <;> cases hs
  | die hs' | lock hs' | unlock hs' | create_none hs' | create hs' | poll_load_finish hs' | free_copy hs' | find hs'
    | wait_ready hs' | read_status hs' | remove hs' | release hs' | killed hs' | fails hs' | store_status hs'
    | ready hs' | poll_deleted hs' | exec hs' | judge hs' | returns hs' =>
    rw [hs'] at hs
    cases hs

/-- A process that tells its parent sets its flag. -/
theorem Step.told (hstep : f.Step t .finish f') (hp : f.procs t = some p) (hu : f'.procs p.parent = some q') :
    q'.load_finish = true := by
  obtain ⟨p₁, f₁, point, notes, hp₁, hmove, rfl⟩ := hstep
  cases hp.symm.trans hp₁
  cases hmove with
  | finish hs hparent =>
    rw [note_procs, go_procs, update_procs, update_procs, if_pos rfl, hparent] at hu
    split at hu
    · rename_i heq
      rw [if_pos heq.symm] at hu
      cases hu
      rfl
    · cases hu
      rfl

theorem Polls.step (h : f.Polls) (hstep : f.Step t a f') (hanswers : f.Answers t a) : f'.Polls := by
  intro u q' tid hu hs hflag
  by_cases hut : u = t
  · subst hut
    obtain ⟨p, p', f₁, point, notes, hp, hmove, hp', rfl, hcont, hdie, heq⟩ := hstep.self hu
    obtain rfl := hmove.to_created hdie hs
    cases tid with
    | none =>
      cases hmove with
      | create_none =>
        cases hp.symm.trans hp'
        cases (hanswers.1 rfl p hp).symm.trans hflag
    | some tid =>
      cases hmove with
      | @create c hs' he hc =>
        have hcu : c ≠ u := fun hcu => by
          rw [hcu, hp] at hc
          cases hc
        refine ⟨c, .new f.next_tid u, ?_, rfl, rfl, rfl⟩
        rw [heq, note_procs, go_procs, if_neg hcu, create_procs, if_pos rfl]
  · obtain ⟨q, hq, halike⟩ | ⟨-, -, rfl⟩ := hstep.kept hut hu
    swap
    · cases hs
    have hflag' : q.load_finish = false := by
      cases hf : q.load_finish with
      | false => rfl
      | true => cases (halike.load_finish hf).symm.trans hflag
    obtain ⟨c, qc, hqc, htid, hparent, hloads⟩ := h u q tid hq (halike.point ▸ hs) hflag'
    by_cases hct : c = t
    swap
    · obtain ⟨qc', hqc', hsame⟩ := hstep.keeps hct hqc
      exact ⟨c, qc', hqc', hsame.tid ▸ htid, hsame.parent.trans hparent, hsame.point ▸ hloads⟩
    subst hct
    obtain ⟨p, f₁, point, notes, hp, hmove, heq⟩ := id hstep
    cases hqc.symm.trans hp
    obtain hloads' | ⟨status, rfl, hloading⟩ | rfl := hmove.of_loads hloads
    · cases hp' : f₁.procs c with
      | none =>
        rw [(hmove.gone hqc hp').2] at hloads
        cases hloads
      | some p' =>
        have hcont := hmove.continues hqc hp'
        refine ⟨c, { p' with point }, ?_, hcont.tid ▸ htid, hcont.parent.trans hparent, hloads'⟩
        rw [heq, note_procs, go_procs, if_pos rfl, hp']
        rfl
    · cases (hanswers.2 status rfl qc hqc hloading q (hparent ▸ hq)).symm.trans hflag'
    · cases (hstep.told hqc (hparent ▸ hu)).symm.trans hflag

theorem Boot.polls (h : f.Boot) : f.Polls := by
  obtain ⟨main, idle, -, -, -, -, -, hprocs⟩ := h.procs
  intro t p tid hp hs
  obtain ⟨rfl, rfl⟩ | ⟨rfl, rfl⟩ := hprocs t p hp <;> cases hs

end Family

/-- What a process does in its load, before it tells its parent. -/
def Op.ends_load (o : Op) : Prop := o = .parent_load_finish ∨ ∃ status, o = .mark (.ended (.exit status))

theorem Stage.next_loads {s : Stage} {o : Op} {after : o.Ans → Stage} (hs : s.loads = true)
    (hnext : s.next o = some after) : o.ends_load ∨ ∀ r, (after r).loads = true := by
  refine or_iff_not_imp_left.mpr fun ho r => ?_
  cases o with
  | parent_load_finish => exact absurd (.inl rfl) ho
  | mark m =>
    cases m with
    | ended how =>
      cases how with
      | exit status => exact absurd (.inr ⟨status, rfl⟩) ho
      | _ => cases s <;> cases hs <;> cases hnext
    | loaded success =>
      cases success <;> cases s <;> cases hs <;> cases hnext
      all_goals rfl
    | _ => cases s <;> cases hs <;> cases hnext
  | sema_down x | sema_up x =>
    cases x <;> cases s <;> cases hs <;> cases hnext
    all_goals rfl
  | _ =>
    cases s <;> cases hs <;> cases hnext
    all_goals rfl

/-- The code of a process in its load does not end before it tells its parent, or exits. -/
theorem until_told {s : Point} {code : Kernel (Option Int)} (hs : s.stage.loads = true)
    (h : Goes (fun p _ => p = ⟨.running, .idle⟩) s code) : code.Until Op.ends_load := by
  refine Follows.until_of (S := fun s => s.stage.loads = true) h hs (fun s a hs hend => ?_)
    fun s o after hs hnext => ?_
  · rw [hend] at hs
    cases hs
  · obtain ⟨g, e, hg, -, hafter⟩ := Point.next_some hnext
    simp only [hafter]
    exact Stage.next_loads hs hg

/-- A process that has made no thread polls next. -/
theorem Stage.next_created {o : Op} {after : o.Ans → Stage} (hnext : (Stage.created none).next o = some after) :
    o = .poll_load_finish ∧ ∀ r, after r = .uncreated := by
  cases o with
  | poll_load_finish =>
    cases hnext
    exact ⟨rfl, fun _ => rfl⟩
  | mark m =>
    cases m with
    | loaded success => cases success <;> cases hnext
    | _ => cases hnext
  | sema_down x | sema_up x => cases x <;> cases hnext
  | _ => cases hnext

/-- After that it gives its page back. -/
theorem Stage.next_uncreated {o : Op} {after : o.Ans → Stage} (hnext : Stage.uncreated.next o = some after) :
    o = .palloc_free_page := by
  cases o with
  | palloc_free_page => rfl
  | mark m =>
    cases m with
    | loaded success => cases success <;> cases hnext
    | _ => cases hnext
  | sema_down x | sema_up x => cases x <;> cases hnext
  | _ => cases hnext

/-- The code of a process that has made no thread. -/
theorem goes_created {s : Point} {code : Kernel (Option Int)} (hs : s.stage = .created none)
    (h : Goes (fun p _ => p = ⟨.running, .idle⟩) s code) :
    ∃ k, code = .ask .poll_load_finish k ∧ ∀ r, ∃ k', k r = .ask .palloc_free_page k' := by
  obtain ⟨stage, e⟩ := s
  obtain rfl : stage = .created none := hs
  cases code with
  | ret a => cases h
  | ask o k =>
    obtain ⟨after, hnext, hk⟩ := h
    obtain ⟨g, e', hg, -, hafter⟩ := Point.next_some hnext
    obtain ⟨rfl, huncreated⟩ := Stage.next_created hg
    refine ⟨k, rfl, fun r => ?_⟩
    have hgoes := hk r
    rw [hafter, huncreated] at hgoes
    cases hr : k r with
    | ret a =>
      rw [hr] at hgoes
      cases hgoes
    | ask o' k' =>
      rw [hr] at hgoes
      obtain ⟨after', hnext', -⟩ := hgoes
      obtain ⟨g', -, hg', -, -⟩ := Point.next_some hnext'
      obtain rfl := Stage.next_uncreated hg'
      exact ⟨k', rfl⟩

theorem Stage.next_poll {s : Stage} {after : Op.poll_load_finish.Ans → Stage}
    (hnext : s.next .poll_load_finish = some after) : ∃ tid, s = .created tid := by
  cases s with
  | created tid => exact ⟨tid, rfl⟩
  | _ => cases hnext

/-- The step does not stray. It is no `thread_create` that fails while `load_finish` is not set, and no exit of a
process in its load while `load_finish` of the parent is not set. -/
def polls_answered (s : World × History) (l : Label) : Prop :=
  (∀ w, l.event ≠ .stray w) ∧ ∀ th, s.1.threads l.thread = some th →
    (∀ name fn_copy k env, th.code = .ask (.thread_create name fn_copy) k → l.event = .go env →
      env.page = none → th.load_finish = true) ∧
    ∀ status k, th.code = .ask (.mark (.ended (.exit status))) k → (s.2.points l.thread).stage = .loading →
      ∀ parent, s.1.threads th.parent = some parent → parent.load_finish = true

theorem exit_of_act {o : Op} {r : o.Ans} {status : Int} (ha : o.act r = some (.ends (.exit status))) :
    o = .mark (.ended (.exit status)) := by
  cases o with
  | mark m =>
    cases m with
    | ended how =>
      cases ha
      rfl
    | _ => cases ha
  | sema_down s | sema_up s => cases s <;> cases ha
  | _ => cases ha

/-- A request that makes a thread, if there is a page for it. -/
theorem create_of_act {w w₁ : World} {th : Thread} {env : Env} {o : Op} {r : o.Ans} {tid : Option Int}
    (hreply : w.reply t th env o = some (r, w₁)) (ha : o.act r = some (.create tid)) :
    ∃ name fn_copy, o = .thread_create name fn_copy ∧ tid.isSome = env.page.isSome := by
  cases o with
  | thread_create name fn_copy =>
    refine ⟨name, fn_copy, rfl, ?_⟩
    cases ha
    simp only [World.reply] at hreply
    split at hreply
    · rename_i hpage
      cases hreply
      rw [hpage]
      rfl
    · rename_i hpage
      split at hreply
      · cases hreply
        rw [hpage]
        rfl
      · cases hreply
  | mark m => cases m <;> cases ha
  | sema_down s | sema_up s => cases s <;> cases ha
  | _ => cases ha

/-- What shows in a step that meets the condition. -/
theorem answers_of_shows {s : World × History} {l : Label} (hguard : polls_answered s l)
    (hshows : s.1.Shows l a) : (s.1.family s.2).Answers l.thread a := by
  refine ⟨fun ha p hp => ?_, fun status ha p hp hs q hq => ?_⟩
  · subst ha
    obtain ⟨th, hth, rfl⟩ := Option.map_eq_some_iff.mp hp
    cases hshows with
    | request hth' hcode he hreply ha =>
      cases hth.symm.trans hth'
      obtain ⟨name, fn_copy, rfl, hpage⟩ := create_of_act hreply ha
      exact (hguard.2 th hth).1 name fn_copy _ _ hcode he (Option.not_isSome_iff_eq_none.mp (by simp [← hpage]))
  · subst ha
    obtain ⟨th, hth, rfl⟩ := Option.map_eq_some_iff.mp hp
    obtain ⟨parent, hparent, rfl⟩ := Option.map_eq_some_iff.mp hq
    cases hshows with
    | request hth' hcode he hreply ha =>
      cases hth.symm.trans hth'
      obtain rfl := exit_of_act ha
      exact (hguard.2 th hth).2 status _ hcode hs parent hparent

/-- Whoever polls `load_finish` polls for a child in its load, that it has just made. Without a thread, the
process does not poll, gives its page back, and `process_execute` returns `TID_ERROR`. -/
theorem polls_for_child {s : World × History} (h : (observed_processes.restrict polls_answered).Reachable s) :
    (∀ t th k, s.1.threads t = some th → th.code = .ask .poll_load_finish k → th.load_finish = false →
      ∃ c child, s.1.threads c = some child ∧ (s.2.points t).stage = .created (some child.tid) ∧
        child.parent = t ∧
        (s.2.points c).stage.loads = true ∧ child.code.Until Op.ends_load) ∧
    (∀ t th, s.1.threads t = some th → (s.2.points t).stage = .created none → th.load_finish = true ∧
      ∃ k, th.code = .ask .poll_load_finish k ∧ ∀ r, ∃ k', k r = .ask .palloc_free_page k') ∧
    ∀ file_name, Goes (ExecStage.Executed .called) ⟨.running, .called⟩ (process_execute file_name) := by
  obtain ⟨hpoint, hpolls⟩ := family_invariant (fun s l hg => hg.1) (fun s l a hg => answers_of_shows hg)
    (fun f hf => hf.polls) (fun f t a f' hf hanswers hstep => hf.step hstep hanswers) h
  refine ⟨fun t th k hth hcode hflag => ?_, fun t th hth hs => ⟨?_, ?_⟩,
    fun file_name => goes_process_execute file_name (.inr rfl)⟩
  · have hgoes := hpoint t th hth
    rw [hcode] at hgoes
    obtain ⟨after, hnext, -⟩ := hgoes
    obtain ⟨g, -, hg, -, -⟩ := Point.next_some hnext
    obtain ⟨tid, hs⟩ := Stage.next_poll hg
    obtain ⟨c, q, hq, rfl, hparent, hloads⟩ := hpolls t _ tid (World.family_procs s.2 hth) hs hflag
    obtain ⟨child, hchild, rfl⟩ := Option.map_eq_some_iff.mp hq
    exact ⟨c, child, hchild, hs, hparent, hloads, until_told hloads (hpoint c child hchild)⟩
  · cases hflag : th.load_finish with
    | true => rfl
    | false =>
      obtain ⟨c, q, -, htid, -⟩ := hpolls t _ none (World.family_procs s.2 hth) hs hflag
      cases htid
  · exact goes_created hs (hpoint t th hth)

/-- The initial thread starts a process, and polls. -/
def poll_labels (page : Option ThreadId) : List Label :=
  [⟨0, .run_task [112]⟩, .grant 0 0 none, .grant 0 0 none, .grant 0 0 page]

/-- Whether the code polls `load_finish`. -/
def polls_load_finish (code : Kernel (Option Int)) : Bool :=
  match code with
  | .ask .poll_load_finish _ => true
  | _ => false

theorem polls_load_finish_iff {code : Kernel (Option Int)} (h : polls_load_finish code = true) :
    ∃ k, code = .ask .poll_load_finish k := by
  unfold polls_load_finish at h
  split at h
  · exact ⟨_, rfl⟩
  · cases h

/-- Whether the code makes a thread. -/
def creates_thread (code : Kernel (Option Int)) : Bool :=
  match code with
  | .ask (.thread_create _ _) _ => true
  | _ => false

/-- Whether the code ends the process with a status. -/
def exits (code : Kernel (Option Int)) : Bool :=
  match code with
  | .ask (.mark (.ended (.exit _))) _ => true
  | _ => false

/-- Whether a new thread may find its page. -/
def Event.has_page : Event → Bool
  | .go env => env.page.isSome
  | _ => true

/-- The test of `polls_answered`. -/
def checks_answers (s : World × History) (l : Label) : Bool :=
  l.event.stays && (s.1.threads l.thread).all fun th =>
    (!creates_thread th.code || l.event.has_page) && !exits th.code

theorem polls_for_child_start : ∃ s : World × History,
    ((s.1.threads 0).any fun th => polls_load_finish th.code && !th.load_finish) = true ∧
    (∀ t th k, s.1.threads t = some th → th.code = .ask .poll_load_finish k → th.load_finish = false →
      ∃ c child, s.1.threads c = some child ∧ (s.2.points t).stage = .created (some child.tid) ∧
        child.parent = t ∧
        (s.2.points c).stage.loads = true ∧ child.code.Until Op.ends_load) ∧
    (∀ t th, s.1.threads t = some th → (s.2.points t).stage = .created none → th.load_finish = true ∧
      ∃ k, th.code = .ask .poll_load_finish k ∧ ∀ r, ∃ k', k r = .ask .palloc_free_page k') ∧
    ∀ file_name, Goes (ExecStage.Executed .called) ⟨.running, .called⟩ (process_execute file_name) := by
  obtain ⟨s, hs, hpolls, -⟩ := @observed_run polls_answered
    checks_answers
    (fun s l hl => by
      rw [checks_answers, Bool.and_eq_true] at hl
      refine ⟨Event.not_stray hl.1, fun th hth => ⟨fun name fn_copy k env hcode he hpage => ?_,
        fun status k hcode => ?_⟩⟩
      · simp [hth, hcode, he, hpage, creates_thread, Event.has_page] at hl
      · simp [hth, hcode, exits] at hl)
    (poll_labels (some 2)) (fun s => (s.1.threads 0).any fun th => polls_load_finish th.code && !th.load_finish)
    (by decide +kernel)
  exact ⟨s, hpolls, polls_for_child hs⟩

/-- Without a page for the thread, the initial thread polls for ever. -/
theorem polls_for_child_none : ∃ s, observed_processes.Reachable s ∧ ∃ t th k, s.1.threads t = some th ∧
    th.code = .ask .poll_load_finish k ∧ th.load_finish = false ∧ ∀ c, (s.2.points c).stage.loads = false := by
  obtain ⟨s, hs, htest, hrun⟩ := @observed_run (fun _ _ => True) (fun _ _ => true) (fun _ _ _ => trivial)
    (poll_labels none)
    (fun s => ((s.1.threads 0).any fun th => polls_load_finish th.code && !th.load_finish) &&
      (List.range 2).all fun c => !(s.2.points c).stage.loads)
    (by decide +kernel)
  rw [Bool.and_eq_true, List.all_eq_true] at htest
  obtain ⟨th, hth, hpolls⟩ := (Option.any_eq_true _ _).mp htest.1
  rw [Bool.and_eq_true, Bool.not_eq_true'] at hpolls
  obtain ⟨k, hcode⟩ := polls_load_finish_iff hpolls.1
  refine ⟨s, hs.of_restrict, 0, th, k, hth, hcode, hpolls.2, fun c => ?_⟩
  by_cases hc : c < 2
  · exact (Bool.not_eq_true' _).mp (htest.2 c (List.mem_range.mpr hc))
  · rw [@points_within c 2 _ (Nat.not_lt.mp hc) _ _ _ (by decide +kernel) hrun]
    rfl

end pintos.prj2
