import Pintos.Prj2.ExecResult

/-!
# What becomes of processes

Runs without stray accesses, from any state on: whoever has been created is live or has been reaped by
its creator, an orphan is never destroyed, `mutex` is lost for good when its holder faults, and a load
that has failed fails every later `exec`.
-/

open interaction Prog transition

namespace pintos.prj2

variable {f f' f₁ : Family} {t u v c : ThreadId} {p p' q q' : Proc} {a : Act} {point : Point}
  {notes : List Note}
  {s s' s₁ : World × History} {ls : List Label} {tid child : Int} {th : Thread}

/-- The step does not stray. -/
def inside (_ : World × History) (l : Label) : Prop := ∀ w, l.event ≠ .stray w

/-- The code of every thread goes on from where the thread is, and waiting works. -/
theorem reaping_of_reachable (h : (observed_processes.restrict inside).Reachable s) :
    s.1.OnPoint s.2 ∧ (s.1.family s.2).Reaping :=
  family_invariant (G := fun _ _ _ => True) (fun _ _ hg => hg) (fun _ _ _ _ _ => trivial)
    (fun _ hf => hf.reaping) (fun _ _ _ _ hf _ hstep => hf.step hstep) h

/-- A rule for what a run keeps from a state on. -/
theorem family_run {I : Family → Prop} (hstep : ∀ f t a f', f.Reaping → I f → f.Step t a f' → I f')
    (h : (observed_processes.restrict inside).Reachable s) (hI : I (s.1.family s.2))
    (hrun : (observed_processes.restrict inside).Run s ls s') : I (s'.1.family s'.2) := by
  induction hrun with
  | nil => exact hI
  | @cons s m s' l ls hs _ ih =>
    refine ih (h.step hs) ?_
    obtain ⟨w', h'⟩ := m
    obtain ⟨hinside, hstep', hrecord⟩ := hs
    simp only at hstep' hrecord
    subst hrecord
    obtain ⟨hpoint, hreaping⟩ := reaping_of_reachable h
    obtain ⟨-, hsame | ⟨a, -, hmove⟩⟩ := World.step_family hpoint hstep' hinside
    · rw [hsame]
      exact hI
    · exact hstep _ _ _ _ hreaping hI hmove

/-- A run that can be computed. -/
def steps (s : World × History) (ls : List Label) : Option (World × History) :=
  runLabels (checked (fun _ l => l.event.stays) (observed World.step World.record)) s ls

theorem steps_run (h : steps s ls = some s') : (observed_processes.restrict inside).Run s ls s' := by
  rw [observed_processes, processes, observe_ofStep]
  exact runLabels_checked_run (fun s l hl => Event.not_stray hl) h

/-- A run that can be computed from boot on. -/
theorem exists_steps (ls : List Label) (test : World × History → Bool)
    (h : (steps (World.boot 0 1, .boot) ls).any test = true) :
    ∃ s, (observed_processes.restrict inside).Reachable s ∧ test s = true := by
  obtain ⟨s, hs, htest, -⟩ := @observed_run inside _ (fun _ _ hl => Event.not_stray hl) ls test h
  exact ⟨s, hs, htest⟩

/-- The first step of a run that can be computed. -/
theorem steps_cons {l : Label} (h : (steps s (l :: ls)).isSome = true) :
    ∃ s₁ s', (observed_processes.restrict inside).Step s l s₁ ∧
      (observed_processes.restrict inside).Run s₁ ls s' := by
  obtain ⟨s', hs'⟩ := Option.isSome_iff_exists.mp h
  cases steps_run hs' with
  | cons hstep hrun => exact ⟨_, _, hstep, hrun⟩

/-! ## Children -/

namespace Family

/-- Who has created and released a process. -/
structure Accounts (f : Family) : Prop where
  unique : ∀ x y child, .created x child ∈ f.notes → .created y child ∈ f.notes → x = y
  released : ∀ t p, f.procs t = some p → p.deleted_from_parent = true →
    ∃ x, .created x p.tid ∈ f.notes ∧ .removed x p.tid ∈ f.notes ∧ .released x p.tid ∈ f.notes
  accounted : ∀ x child, .created x child ∈ f.notes → (∃ t p, f.procs t = some p ∧ p.tid = child) ∨
    .removed x child ∈ f.notes ∧ .released x child ∈ f.notes ∧ ∃ how, .ended child how ∈ f.notes

/-- A process that is deleted by a step is deleted by the one that has removed it. -/
theorem Reaping.deletes (h : f.Reaping) (hstep : f.Step t a f') (hq : f.procs u = some q)
    (hu : f'.procs u = some q') (hdeleted : q.deleted_from_parent = false)
    (hdeleted' : q'.deleted_from_parent = true) :
    ∃ x, .created x q.tid ∈ f.notes ∧ .removed x q.tid ∈ f.notes ∧ .released x q.tid ∈ f'.notes := by
  obtain ⟨p, f₁, point, notes, hp, hmove, heq⟩ := id hstep
  have hnotes : f'.notes = notes ++ f.notes := heq ▸ hmove.step_notes
  obtain ⟨tid, status, hs⟩ : ∃ tid status, p.point.stage = .removed tid u status := by
    by_contra hnot
    obtain ⟨q₁, hq₁, -, hq₁', -⟩ := h.lasts hstep hq hdeleted fun p₁ tid status hp₁ hs => by
      cases hp.symm.trans hp₁
      exact hnot ⟨tid, status, hs⟩
    cases hu.symm.trans hq₁
    cases hdeleted'.symm.trans hq₁'
  have hwaits := h.waits t p hp
  rw [Waits, hs] at hwaits
  obtain ⟨-, hremoved, q₁, hq₁, rfl, -⟩ := hwaits
  cases hq.symm.trans hq₁
  refine ⟨p.tid, ?_, hremoved, ?_⟩
  · exact created_of_awaitable ((h.awaits t p q.tid hp).mpr (.inr (congrArg Stage.taking hs)))
  · rw [hnotes]
    exact List.mem_append_left _ (hmove.releases hs hq)

theorem Accounts.step (h : f.Accounts) (hr : f.Reaping) (hstep : f.Step t a f') : f'.Accounts := by
  obtain ⟨p, f₁, point, notes, hp, hmove, heq⟩ := id hstep
  have hnotes : f'.notes = notes ++ f.notes := heq ▸ hmove.step_notes
  have hold : ∀ {n}, n ∈ f.notes → n ∈ f'.notes := fun hmem => hnotes ▸ List.mem_append_right _ hmem
  refine ⟨fun x y child hx hy => ?_, fun u q' hu hdeleted => ?_, fun x child hx => ?_⟩
  · rw [hnotes] at hx hy
    obtain hx | hx := List.mem_append.mp hx <;> obtain hy | hy := List.mem_append.mp hy
    · exact (hmove.created_mem hx).2.1.trans (hmove.created_mem hy).2.1.symm
    · obtain ⟨-, -, rfl, -⟩ := hmove.created_mem hx
      exact absurd (hr.subject _ hy _ rfl) (Int.lt_irrefl _)
    · obtain ⟨-, -, rfl, -⟩ := hmove.created_mem hy
      exact absurd (hr.subject _ hx _ rfl) (Int.lt_irrefl _)
    · exact h.unique x y child hx hy
  · obtain ⟨q, hq, hlater⟩ | ⟨-, -, rfl⟩ := hstep.earlier hu
    · rw [hlater.tid]
      cases hd : q.deleted_from_parent with
      | true =>
        obtain ⟨x, hcreated, hremoved, hreleased⟩ := h.released u q hq hd
        exact ⟨x, hold hcreated, hold hremoved, hold hreleased⟩
      | false =>
        obtain ⟨x, hcreated, hremoved, hreleased⟩ := hr.deletes hstep hq hu hd hdeleted
        exact ⟨x, hold hcreated, hold hremoved, hreleased⟩
    · cases hdeleted
  · rw [hnotes] at hx
    obtain hx | hx := List.mem_append.mp hx
    · obtain ⟨rfl, rfl, rfl, -⟩ := hmove.created_mem hx
      cases hmove with
      | @create c hs he hc =>
        have hct : c ≠ t := fun hct => by
          rw [hct, hp] at hc
          cases hc
        refine .inl ⟨c, .new f.next_tid t, ?_, rfl⟩
        rw [heq, note_procs, go_procs, if_neg hct, create_procs, if_pos rfl]
    · obtain ⟨u, q, hq, rfl⟩ | ⟨hremoved, hreleased, how, hended⟩ := h.accounted x child hx
      · cases hu : f'.procs u with
        | some q' =>
          obtain ⟨q₁, hq₁, hlater⟩ | ⟨hnone, -⟩ := hstep.earlier hu
          · cases hq.symm.trans hq₁
            exact .inl ⟨u, q', hu, hlater.tid⟩
          · cases hq.symm.trans hnone
        | none =>
          -- the process is gone: its parent has released it
          have hut : u = t := by
            by_contra hut
            obtain ⟨q', hq', -⟩ := hstep.keeps hut hq
            cases hu.symm.trans hq'
          subst hut
          cases hp.symm.trans hq
          have hgone : f₁.procs u = none := by
            rw [heq, note_procs, go_procs, if_pos rfl] at hu
            exact Option.map_eq_none_iff.mp hu
          have hdying := (hmove.gone hp hgone).2
          have hends := hr.ends u p hp
          obtain ⟨y, hcreated, hremoved, hreleased⟩ := h.released u p hp (hends.dying hdying)
          obtain rfl := h.unique x y p.tid hx hcreated
          obtain ⟨how, hended, -⟩ := hends.past (.inr (.inr hdying))
          exact .inr ⟨hold hremoved, hold hreleased, how, hold hended⟩
      · exact .inr ⟨hold hremoved, hold hreleased, how, hold hended⟩

theorem Boot.accounts (h : f.Boot) : f.Accounts := by
  obtain ⟨main, idle, -, -, hnotes, hmain, hidle, hprocs⟩ := h.procs
  refine ⟨fun x y child hx hy => ?_, fun t p hp hdeleted => ?_, fun x child hx => ?_⟩
  · rw [hnotes] at hx hy
    simp only [List.mem_cons, Note.created.injEq, List.not_mem_nil, or_false] at hx hy
    omega
  · obtain ⟨rfl, rfl⟩ | ⟨rfl, rfl⟩ := hprocs t p hp <;> cases hdeleted
  · rw [hnotes] at hx
    simp only [List.mem_cons, Note.created.injEq, List.not_mem_nil, or_false] at hx
    obtain ⟨-, rfl⟩ | ⟨-, rfl⟩ := hx
    · exact .inl ⟨idle, _, hidle, rfl⟩
    · exact .inl ⟨main, _, hmain, rfl⟩

end Family

/-- Whoever has been created is live, or has ended and been removed and released by its creator. -/
theorem children_accounted (h : (observed_processes.restrict inside).Reachable s)
    (hcreated : .created tid child ∈ s.2.notes) :
    (∃ t th, s.1.threads t = some th ∧ th.tid = child) ∨
      .removed tid child ∈ s.2.notes ∧ .released tid child ∈ s.2.notes ∧ ∃ how,
        .ended child how ∈ s.2.notes := by
  obtain ⟨-, -, haccounts⟩ := family_invariant (I := fun f => f.Reaping ∧ f.Accounts) (G := fun _ _ _ => True)
    (fun _ _ hg => hg) (fun _ _ _ _ _ => trivial) (fun _ hf => ⟨hf.reaping, hf.accounts⟩)
    (fun _ _ _ _ hf _ hstep => ⟨hf.1.step hstep, hf.2.step hf.1 hstep⟩) h
  obtain ⟨t, p, hp, htid⟩ | hreaped := haccounts.accounted tid child hcreated
  · obtain ⟨th, hth, rfl⟩ := Option.map_eq_some_iff.mp hp
    exact .inl ⟨t, th, hth, htid⟩
  · exact .inr hreaped

/-- The initial thread waits for its child, which is destroyed. -/
theorem children_accounted_reaped : ∃ s : World × History, s.1.threads 2 = none ∧
    ((∃ t th, s.1.threads t = some th ∧ th.tid = 3) ∨
      .removed 1 3 ∈ s.2.notes ∧ .released 1 3 ∈ s.2.notes ∧ ∃ how, .ended 3 how ∈ s.2.notes) := by
  obtain ⟨s, hs, htest⟩ := exists_steps (exit_labels ++ [.grant 2 0 none, ⟨2, .die⟩])
    (fun s => (s.1.threads 2).isNone && s.2.notes.contains (.created 1 3)) (by decide +kernel)
  rw [Bool.and_eq_true, List.contains_iff_mem] at htest
  exact ⟨s, Option.isNone_iff_eq_none.mp htest.1, children_accounted hs htest.2⟩

/-! ## Orphans -/

namespace Family

/-- A live process that nobody will ever release. -/
def Orphan (f : Family) (t : ThreadId) (tid : Int) : Prop :=
  ∃ p, f.procs t = some p ∧ p.tid = tid ∧ p.deleted_from_parent = false ∧
    (∀ v q, f.procs v = some q → t ∉ q.child_list) ∧
    ∀ v q x status, f.procs v = some q → q.point.stage ≠ .removed x t status

theorem Orphan.step (h : f.Orphan u tid) (hr : f.Reaping) (hstep : f.Step t a f') : f'.Orphan u tid := by
  obtain ⟨p, hp, rfl, hdeleted, hlists, hremoved⟩ := h
  obtain ⟨p', hp', htid, hdeleted', -⟩ := hr.lasts hstep hp hdeleted fun q x status hq =>
    hremoved t q x status hq
  refine ⟨p', hp', htid, hdeleted', fun v q' hv hmem => ?_, fun v q' x status hv hs => ?_⟩
  · obtain ⟨q, hq, hmem⟩ := hstep.listed hv hmem hp
    exact hlists v q hq hmem
  · by_cases hvt : v = t
    · subst hvt
      obtain ⟨q, q₁, f₁, point, notes, hq, hmove, -, rfl, -, hdie, -⟩ := hstep.self hv
      obtain ⟨-, htold⟩ := hmove.to_removed hdie hs
      have hwaits := hr.waits v q hq
      rw [Waits, htold] at hwaits
      exact hlists v q hq hwaits.1
    · obtain ⟨q, hq, halike⟩ | ⟨-, -, rfl⟩ := hstep.kept hvt hv
      · exact hremoved v q x status hq (halike.point ▸ hs)
      · cases hs

/-- The children of a process that is destroyed are orphans. -/
theorem Reaping.orphans (h : f.Reaping) (hstep : f.Step t .die f') (hp : f.procs t = some p)
    (hc : c ∈ p.child_list) (hq : f.procs c = some q) (hct : c ≠ t) : f'.Orphan c q.tid := by
  obtain ⟨p₁, f₁, point, notes, hp₁, hmove, heq⟩ := id hstep
  cases hp.symm.trans hp₁
  obtain ⟨q₁, hq₁, hdeleted⟩ := h.live hp hc
  cases hq.symm.trans hq₁
  have hgone : f'.procs t = none := by
    rw [heq, note_procs, go_procs, if_pos rfl]
    cases hmove with
    | die hs => rw [Option.map_eq_none_iff]; exact Function.update_self _ _ _
  obtain ⟨q', hq', halike⟩ := hstep.keeps hct hq
  have hsame : q'.deleted_from_parent = false := by
    obtain ⟨q₂, hq₂, -, hdeleted₂, -⟩ := h.lasts hstep hq hdeleted fun p₁ x status hp₁ hs => by
      cases hp.symm.trans hp₁
      cases hmove with
      | die hs' => cases hs.symm.trans hs'
    cases hq'.symm.trans hq₂
    exact hdeleted₂
  refine ⟨q', hq', halike.tid, hsame, fun v pv hv hmem => ?_, fun v pv x status hv hs => ?_⟩
  · obtain ⟨pv₀, hpv₀, hmem₀⟩ := hstep.listed hv hmem hq
    obtain rfl := h.kinship.disjoint (kin_some hpv₀) (kin_some hp) hmem₀ hc
    cases hgone.symm.trans hv
  · have hvt : v ≠ t := fun hvt => by
      rw [hvt, hgone] at hv
      cases hv
    obtain ⟨pv₀, hpv₀, halike'⟩ | ⟨-, -, rfl⟩ := hstep.kept hvt hv
    · have hwaits := h.waits v pv₀ hpv₀
      rw [Waits, ← halike'.point, hs] at hwaits
      exact hwaits.1.unlisted t p hp hc
    · cases hs

end Family

/-- A thread that dies is a move of the family. -/
theorem die_step (h : (observed_processes.restrict inside).Reachable s)
    (hstep : (observed_processes.restrict inside).Step s ⟨t, .die⟩ s₁) :
    (s.1.family s.2).Step t .die (s₁.1.family s₁.2) := by
  obtain ⟨w₁, h₁⟩ := s₁
  obtain ⟨hinside, hstep, hrecord⟩ := hstep
  simp only at hstep hrecord
  subst hrecord
  obtain ⟨-, hsame | ⟨a, hshows, hmove⟩⟩ := World.step_family (reaping_of_reachable h).1 hstep hinside
  · obtain ⟨th, hth, hstep⟩ := Option.bind_eq_some_iff.mp hstep
    have hnone : w₁.threads t = none := by
      simp only at hstep
      split at hstep <;> first | contradiction | skip
      cases hstep
      exact Function.update_self _ _ _
    have hgone := congrArg (fun f => f.procs t) hsame
    simp [World.family, hnone, hth] at hgone
  · cases hshows with
    | die => exact hmove
    | request hth hcode he => cases he
    | fault he => cases he

/-- A child that its parent has not waited for when it is destroyed is never destroyed itself. -/
theorem orphan_never_dies (h : (observed_processes.restrict inside).Reachable s) (hth : s.1.threads t = some th)
    (hc : c ∈ th.child_list) (hdie : (observed_processes.restrict inside).Step s ⟨t, .die⟩ s₁)
    (hrun : (observed_processes.restrict inside).Run s₁ ls s') :
    ∃ child th', s.1.threads c = some child ∧ s'.1.threads c = some th' ∧ th'.tid = child.tid := by
  have hreaping := (reaping_of_reachable h).2
  have hp := World.family_procs s.2 hth
  obtain ⟨q, hq, hdeleted⟩ := hreaping.live hp hc
  have hmove := die_step h hdie
  have hct : c ≠ t := by
    rintro rfl
    obtain ⟨p₁, f₁, point, notes, hp₁, hmove, -⟩ := hmove
    cases hmove with
    | die hs =>
      have hends := (hreaping.ends c p₁ hp₁).dying hs
      cases hq.symm.trans hp₁
      cases hdeleted.symm.trans hends
  have horphan := family_run (I := fun f => f.Orphan c q.tid)
      (fun _ _ _ _ hr hI hstep => hI.step hr hstep) (h.step hdie)
    (hreaping.orphans hmove hp hc hq hct) hrun
  obtain ⟨p', hp', htid, -⟩ := horphan
  obtain ⟨child, hchild, rfl⟩ := Option.map_eq_some_iff.mp hq
  obtain ⟨th', hth', rfl⟩ := Option.map_eq_some_iff.mp hp'
  exact ⟨child, th', hchild, hth', htid⟩

/-- The child exits after its parent is gone, and stays. -/
def stay_labels : List Label := [⟨3, .syscall 0⟩, .grant 3 1 none] ++ List.replicate 5 (.grant 3 0 none)

theorem orphan_never_dies_exits : ∃ s s' : World × History, s.1.threads 2 ≠ none ∧
    ∃ child th', s.1.threads 3 = some child ∧ s'.1.threads 3 = some th' ∧ th'.tid = child.tid := by
  obtain ⟨s, hs, htest⟩ := exists_steps (start_labels ++ exec_labels ++ leave_labels.dropLast)
    (fun s => (s.1.threads 2).any (fun th => th.child_list.contains 3) &&
      (steps s (⟨2, .die⟩ :: stay_labels)).isSome) (by decide +kernel)
  rw [Bool.and_eq_true] at htest
  obtain ⟨th, hth, hchild⟩ := (Option.any_eq_true _ _).mp htest.1
  obtain ⟨s₁, s', hdie, hrun⟩ := steps_cons htest.2
  refine ⟨s, s', by simp [hth], ?_⟩
  exact orphan_never_dies hs hth (List.contains_iff_mem.mp hchild) hdie hrun

/-! ## `mutex` -/

namespace Family

/-- `mutex` is down, and nobody will release it. -/
def Lost (f : Family) : Prop := f.mutex = 0 ∧ ∀ t p, f.procs t = some p → p.point.stage ≠ .locked

/-- The process that has moved is on its new point. -/
theorem Step.on_point (hmove : f' = (f₁.go t point).note notes) (hu : f'.procs t = some q') :
    q'.point = point := by
  rw [hmove, note_procs, go_procs, if_pos rfl] at hu
  obtain ⟨p₁, -, rfl⟩ := Option.map_eq_some_iff.mp hu
  rfl

/-- A process that holds `mutex` after a step of another held it before. -/
theorem Step.locked_other (hstep : f.Step t a f') (hut : u ≠ t) (hu : f'.procs u = some q')
    (hs : q'.point.stage = .locked) : ∃ q, f.procs u = some q ∧ q.point.stage = .locked := by
  obtain ⟨q, hq, halike⟩ | ⟨-, -, rfl⟩ := hstep.kept hut hu
  · exact ⟨q, hq, halike.point ▸ hs⟩
  · cases hs

theorem Lost.step (h : f.Lost) (hstep : f.Step t a f') : f'.Lost := by
  obtain ⟨p, f₁, point, notes, hp, hmove, heq⟩ := id hstep
  have hlocked := h.2 t p hp
  have hmutex := h.1
  have hlock : a ≠ .lock := by
    rintro rfl
    cases hmove with
    | lock hs hm => omega
  have hunlock : a ≠ .unlock := by
    rintro rfl
    cases hmove with
    | unlock hs => exact hlocked hs
  obtain ⟨hsame, -, hpoint⟩ := hmove.mutex_apart (fun _ => hlocked) hlock hunlock
  refine ⟨by rw [heq]; exact hsame.trans hmutex, fun u q' hu hs => ?_⟩
  by_cases hut : u = t
  · subst hut
    exact hpoint (Step.on_point heq hu ▸ hs)
  · obtain ⟨q, hq, hs⟩ := hstep.locked_other hut hu hs
    exact h.2 u q hq hs

/-- The holder of `mutex` loses it in a page fault. -/
theorem Held.fault {holder : Option ThreadId} (h : f.Held holder) (hstep : f.Step t .fault f')
    (hp : f.procs t = some p) (hs : p.point.stage = .locked) : f'.Lost := by
  obtain ⟨p₁, f₁, point, notes, hp₁, hmove, heq⟩ := id hstep
  cases hp.symm.trans hp₁
  cases hmove with
  | fault =>
    obtain rfl := (h.locked t p hp).mp hs
    refine ⟨by rw [heq]; exact h.mutex, fun u q' hu hs' => ?_⟩
    by_cases hut : u = t
    · subst hut
      rw [Step.on_point heq hu] at hs'
      cases hs'
    · obtain ⟨q, hq, hs'⟩ := hstep.locked_other hut hu hs'
      exact hut (Option.some.inj ((h.locked u q hq).mp hs')).symm

/-- `mutex` is lost, or is up unless the one process holds it that is between its `sema_down` and `sema_up`. -/
def Guarded (f : Family) : Prop := f.Lost ∨ ∃ holder, f.Held holder

theorem Guarded.step (h : f.Guarded) (hstep : f.Step t a f') : f'.Guarded := by
  obtain hlost | ⟨holder, hheld⟩ := h
  · exact .inl (hlost.step hstep)
  obtain ⟨p, hp⟩ : ∃ p, f.procs t = some p := by
    obtain ⟨p, -, -, -, hp, -⟩ := id hstep
    exact ⟨p, hp⟩
  by_cases hfault : a = .fault ∧ p.point.stage = .locked
  · obtain ⟨rfl, hs⟩ := hfault
    exact .inl (hheld.fault hstep hp hs)
  · refine .inr (hheld.step hstep fun ha p₁ hp₁ hs => hfault ⟨ha, ?_⟩)
    cases hp.symm.trans hp₁
    exact hs

theorem Guarded.exclusive (h : f.Guarded) (hp : f.procs t = some p) (hs : p.point.stage = .locked) :
    f.mutex = 0 ∧ ∀ u q, f.procs u = some q → q.point.stage = .locked → u = t := by
  obtain hlost | ⟨holder, hheld⟩ := h
  · exact absurd hs (hlost.2 t p hp)
  · obtain rfl := (hheld.locked t p hp).mp hs
    exact ⟨hheld.mutex, fun u q hq hs => (Option.some.inj ((hheld.locked u q hq).mp hs)).symm⟩

end Family

theorem guarded_of_reachable (h : (observed_processes.restrict inside).Reachable s) :
    (s.1.family s.2).Guarded :=
  (family_invariant (G := fun _ _ _ => True) (fun _ _ hg => hg) (fun _ _ _ _ _ => trivial)
    (fun _ hf => .inr ⟨none, hf.held⟩) (fun _ _ _ _ hf _ hstep => hf.step hstep) h).2

/-- No two processes are between their `sema_down` and `sema_up` of `mutex`, which is then down. -/
theorem mutex_exclusive (h : (observed_processes.restrict inside).Reachable s) (hth : s.1.threads t = some th)
    (hlocked : (s.2.points t).stage = .locked) :
    s.1.mutex = 0 ∧ ∀ u th', s.1.threads u = some th' → (s.2.points u).stage = .locked → u = t := by
  obtain ⟨hmutex, hunique⟩ := (guarded_of_reachable h).exclusive (World.family_procs s.2 hth) hlocked
  exact ⟨hmutex, fun u th' hth' hs => hunique u _ (World.family_procs s.2 hth') hs⟩

theorem mutex_exclusive_reads : ∃ s : World × History, (s.2.points 2).stage = .locked ∧ s.1.mutex = 0 ∧
    ∀ u th', s.1.threads u = some th' → (s.2.points u).stage = .locked → u = 2 := by
  obtain ⟨s, hs, htest⟩ := exists_steps (start_labels ++ read_labels)
    (fun s => (s.1.threads 2).isSome && (s.2.points 2).stage = .locked) (by decide +kernel)
  rw [Bool.and_eq_true, Option.isSome_iff_exists, decide_eq_true_eq] at htest
  obtain ⟨⟨th, hth⟩, hlocked⟩ := htest
  exact ⟨s, hlocked, mutex_exclusive hs hth hlocked⟩

/-- A page fault is a move of the family. -/
theorem fault_step {addr : Addr} (h : (observed_processes.restrict inside).Reachable s)
    (hlocked : (s.2.points t).stage = .locked)
    (hstep : (observed_processes.restrict inside).Step s ⟨t, .fault addr⟩ s₁) :
    (s.1.family s.2).Step t .fault (s₁.1.family s₁.2) := by
  obtain ⟨w₁, h₁⟩ := s₁
  obtain ⟨hinside, hstep, hrecord⟩ := hstep
  simp only at hstep hrecord
  subst hrecord
  obtain ⟨-, hsame | ⟨a, hshows, hmove⟩⟩ := World.step_family (reaping_of_reachable h).1 hstep hinside
  · obtain ⟨th, hth, hstep⟩ := Option.bind_eq_some_iff.mp hstep
    -- the fault takes the process out of its critical section
    have hpoint : (s.1.record ⟨t, .fault addr⟩ s.2).points t = ⟨.running, .idle⟩ := by
      simp only at hstep
      rw [World.record, hth]
      split at hstep <;> first | contradiction | skip
      rename_i hcode
      simp only [hcode, Function.update_self]
    have hproc := congrArg (fun f => f.procs t) hsame
    simp only [World.family, hth, Option.map_some, Option.map_eq_some_iff, hpoint] at hproc
    obtain ⟨th₁, -, hproc⟩ := hproc
    have hstage := congrArg (fun p => p.point.stage) hproc
    cases hstage.trans hlocked
  · cases hshows with
    | fault => exact hmove
    | request hth hcode he => cases he
    | die he => cases he

/-- When the process that holds `mutex` takes a page fault, `mutex` is down for ever: no process gets it again. -/
theorem mutex_lost {addr : Addr} (h : (observed_processes.restrict inside).Reachable s)
    (hlocked : (s.2.points t).stage = .locked)
    (hfault : (observed_processes.restrict inside).Step s ⟨t, .fault addr⟩ s₁)
    (hrun : (observed_processes.restrict inside).Run s₁ ls s') :
    s'.1.mutex = 0 ∧ ∀ u th, s'.1.threads u = some th → (s'.2.points u).stage ≠ .locked := by
  have hmove := fault_step h hlocked hfault
  have hlost : (s₁.1.family s₁.2).Lost := by
    obtain ⟨p, -, -, -, hp, -⟩ := id hmove
    obtain ⟨th, hth, rfl⟩ := Option.map_eq_some_iff.mp hp
    obtain hlost | ⟨holder, hheld⟩ := guarded_of_reachable h
    · exact absurd hlocked (hlost.2 t _ hp)
    · exact hheld.fault hmove hp hlocked
  obtain ⟨hmutex, hnone⟩ := @family_run _ _ _ Family.Lost (fun _ _ _ _ _ hI hstep => hI.step hstep)
    (h.step hfault) hlost hrun
  exact ⟨hmutex, fun u th hth => hnone u _ (World.family_procs s'.2 hth)⟩

theorem mutex_lost_reads : ∃ s s' : World × History, (s.2.points 2).stage = .locked ∧ s'.1.mutex = 0 ∧
    ∀ u th, s'.1.threads u = some th → (s'.2.points u).stage ≠ .locked := by
  obtain ⟨s, hs, htest⟩ := exists_steps (start_labels ++ read_labels)
    (fun s => (s.2.points 2).stage = .locked &&
      (steps s (⟨2, .fault 0⟩ :: List.replicate 3 (.grant 2 0 none))).isSome) (by decide +kernel)
  rw [Bool.and_eq_true, decide_eq_true_eq] at htest
  obtain ⟨s₁, s', hfault, hrun⟩ := steps_cons htest.2
  exact ⟨s, s', htest.1, mutex_lost hs htest.1 hfault hrun⟩

/-! ## Calls of `exec` after a load that has failed -/

namespace Family

/-- The result of `exec` is decided by the look at `child_load_success`. -/
theorem Move.to_judged {res : Int} (hmove : f.Move t p a f₁ point notes)
    (hfailed : p.child_load_success = false)
    (hres : point.exec = .judged res) : p.point.exec = .judged res ∨ res = -1 := by
  cases hmove with
  | judge hs he =>
    simp only [hfailed] at hres
    unfold ExecStage.judge at hres
    split at hres
    · contradiction
    · exact .inr (ExecStage.judged.inj hres).symm
  | fault | exec | returns => cases hres
  | create_none hs he | create hs he =>
    obtain he | he := he <;> rw [he] at hres <;> cases hres
  | _ => exact .inl hres

theorem Move.returned_mem {res : Int} (hmove : f.Move t p a f₁ point notes)
    (hmem : .exec_returned tid res ∈ notes) : tid = p.tid ∧ p.point.exec = .judged res := by
  cases hmove with
  | returns hs he =>
    obtain ⟨rfl, rfl⟩ := Note.exec_returned.inj (List.mem_singleton.mp hmem)
    exact ⟨rfl, he⟩
  | create | find | remove =>
    simp [accessed] at hmem
  | _ => simp at hmem

/-- A load of a child of the process `tid` has failed, and no call of `exec` of it will return anything but -1. -/
structure Spoilt (f : Family) (tid : Int) (old : List Note) : Prop where
  lt : tid < f.next_tid
  failed : ∀ t p, f.procs t = some p → p.tid = tid → p.child_load_success = false
  judged : ∀ t p res, f.procs t = some p → p.tid = tid → p.point.exec = .judged res → res = -1
  returned : ∃ new, f.notes = new ++ old ∧ ∀ res, .exec_returned tid res ∈ new → res = -1

theorem Spoilt.step {old : List Note} (h : f.Spoilt tid old) (hstep : f.Step t a f') : f'.Spoilt tid old := by
  obtain ⟨p, f₁, point, notes, hp, hmove, heq⟩ := id hstep
  have hnotes : f'.notes = notes ++ f.notes := heq ▸ hmove.step_notes
  have hlt : f.next_tid ≤ f'.next_tid := heq ▸ hmove.next_tid_le
  have hbefore : ∀ {u q'}, f'.procs u = some q' → q'.tid = tid → ∃ q, f.procs u = some q ∧ q.tid = tid := by
    intro u q' hu htid
    obtain ⟨q, hq, hlater⟩ | ⟨-, -, rfl⟩ := hstep.earlier hu
    · exact ⟨q, hq, hlater.tid ▸ htid⟩
    · exact absurd h.lt (by rw [← htid]; exact Int.lt_irrefl _)
  refine ⟨Int.lt_of_lt_of_le h.lt hlt, fun u q' hu htid => ?_, fun u q' res hu htid hres => ?_, ?_⟩
  · obtain ⟨q, hq, htid⟩ := hbefore hu htid
    exact (hstep.flags hp hq hu).2.mpr (.inl (h.failed u q hq htid))
  · obtain ⟨q, hq, htid⟩ := hbefore hu htid
    by_cases hut : u = t
    · subst hut
      cases hp.symm.trans hq
      rw [Step.on_point heq hu] at hres
      obtain hres | hres := hmove.to_judged (h.failed u p hp htid) hres
      · exact h.judged u p res hp htid hres
      · exact hres
    · obtain ⟨q₁, hq₁, halike⟩ | ⟨hnone, -⟩ := hstep.kept hut hu
      · cases hq.symm.trans hq₁
        exact h.judged u q res hq htid (halike.point ▸ hres)
      · cases hq.symm.trans hnone
  · obtain ⟨new, hnew, hreturned⟩ := h.returned
    refine ⟨notes ++ new, by rw [hnotes, hnew, List.append_assoc], fun res hmem => ?_⟩
    obtain hmem | hmem := List.mem_append.mp hmem
    · obtain ⟨rfl, hres⟩ := hmove.returned_mem hmem
      exact h.judged t p res hp rfl hres
    · exact hreturned res hmem

end Family

/-- Once a load of a child has failed, every later call of `exec` returns -1, whatever becomes of its child. -/
theorem exec_fails_on (h : (observed_processes.restrict inside).Reachable s) (hth : s.1.threads t = some th)
    (hfailed : th.child_load_success = false) (hexec : ∀ res, (s.2.points t).exec ≠ .judged res)
    (hrun : (observed_processes.restrict inside).Run s ls s') :
    ∃ new, s'.2.notes = new ++ s.2.notes ∧ ∀ res, .exec_returned th.tid res ∈ new → res = -1 := by
  have hreaping := (reaping_of_reachable h).2
  have hp := World.family_procs s.2 hth
  have hself : ∀ u p, (s.1.family s.2).procs u = some p → p.tid = th.tid → u = t := fun u p hu htid =>
    hreaping.tid_inj hu hp htid
  have hspoilt : (s.1.family s.2).Spoilt th.tid s.2.notes := by
    refine ⟨hreaping.tid_lt hp, fun u p hu htid => ?_, fun u p res hu htid hres => ?_, [], rfl, by simp⟩
    all_goals
      obtain rfl := hself u p hu htid
      cases hp.symm.trans hu
    · exact hfailed
    · exact absurd hres (hexec res)
  exact (@family_run _ _ _ (fun f => f.Spoilt th.tid s.2.notes) (fun _ _ _ _ _ hI hstep => hI.step hstep)
    h hspoilt hrun).returned

/-- There is no page directory. -/
def Query.refuse : (q : Query) → q.Ans
  | .pagedir_create => false
  | q => q.grant

/-- The process execs a child whose load fails. -/
def fail_labels : List Label :=
  call_exec_labels 3 ++ List.replicate 5 ⟨3, .go { byte := 0, word := 0, answer := Query.refuse, page := none }⟩

/-- It then execs another that is loaded. -/
def retry_labels : List Label :=
  return_exec_labels ++ call_exec_labels 4 ++ List.replicate 9 (.grant 4 0 none) ++ return_exec_labels

theorem exec_fails_on_retry : ∃ s s' : World × History, .loaded 5 true ∈ s'.2.notes ∧
    ∃ new, s'.2.notes = new ++ s.2.notes ∧ ∀ res, .exec_returned 3 res ∈ new → res = -1 := by
  obtain ⟨s, hs, htest⟩ := exists_steps (start_labels ++ fail_labels)
    (fun s => (s.1.threads 2).any (fun th => th.tid = 3 && !th.child_load_success) &&
      (s.2.points 2).exec = .made (some 4) &&
      (steps s retry_labels).any fun s' => s'.2.notes.contains (.loaded 5 true)) (by decide +kernel)
  simp only [Bool.and_eq_true, Option.any_eq_true, decide_eq_true_eq, Bool.not_eq_true', List.contains_iff_mem]
    at htest
  obtain ⟨⟨⟨th, hth, htid, hfailed⟩, hexec⟩, s', hs', hloaded⟩ := htest
  refine ⟨s, s', hloaded, ?_⟩
  rw [← htid]
  exact exec_fails_on hs hth hfailed (fun res hres => by rw [hexec] at hres; cases hres) (steps_run hs')

/-! ## Pointers to children -/

/-- The child that `process_wait` points to. -/
def Stage.pointer : Stage → Option (Int × ThreadId)
  | .found tid c | .awaited tid c | .told tid c _ | .removed tid c _ => some (tid, c)
  | _ => none

/-- The children in the lists are live, unreleased, each in one place of one list, and so is the child that
`process_wait` points to, which has the number that is waited for. -/
theorem child_pointers_live (h : (observed_processes.restrict inside).Reachable s)
    (hth : s.1.threads t = some th) :
    th.child_list.Nodup ∧
    (∀ c ∈ th.child_list, (∃ child, s.1.threads c = some child ∧ child.deleted_from_parent = false) ∧
      ∀ u th', s.1.threads u = some th' → c ∈ th'.child_list → u = t) ∧
    (∀ u th', s.1.threads u = some th' → th'.tid = th.tid → u = t) ∧
    ∀ c, (s.2.points t).stage.pointer = some (tid, c) →
      ∃ child, s.1.threads c = some child ∧ child.deleted_from_parent = false ∧ child.tid = tid := by
  have hreaping := (reaping_of_reachable h).2
  have hp := World.family_procs s.2 hth
  refine ⟨hreaping.kinship.nodup (Family.kin_some hp), fun c hc => ⟨?_, fun u th' hu hmem => ?_⟩,
    fun u th' hu htid => hreaping.tid_inj (World.family_procs s.2 hu) hp htid, fun c hchild => ?_⟩
  · obtain ⟨q, hq, hdeleted⟩ := hreaping.live hp hc
    obtain ⟨child, hchild, rfl⟩ := Option.map_eq_some_iff.mp hq
    exact ⟨child, hchild, hdeleted⟩
  · exact hreaping.kinship.disjoint (Family.kin_some (World.family_procs s.2 hu)) (Family.kin_some hp) hmem hc
  · have hwaits := hreaping.waits t _ hp
    have hlisted : ∀ {q}, c ∈ th.child_list → (s.1.family s.2).procs c = some q →
        q.deleted_from_parent = false := fun hc hq => by
      obtain ⟨q', hq', hdeleted⟩ := hreaping.live hp hc
      cases hq.symm.trans hq'
      exact hdeleted
    obtain ⟨q, hq, hdeleted, htid⟩ : ∃ q, (s.1.family s.2).procs c = some q ∧ q.deleted_from_parent = false ∧
        q.tid = tid := by
      simp only [Family.Waits, Thread.proc] at hwaits
      cases hs : (s.2.points t).stage with
      | found =>
        rw [hs] at hchild hwaits
        cases hchild
        obtain ⟨hc, q, hq, htid⟩ := hwaits
        exact ⟨q, hq, hlisted hc hq, htid⟩
      | awaited | told =>
        rw [hs] at hchild hwaits
        cases hchild
        obtain ⟨hc, q, hq, htid, -⟩ := hwaits
        exact ⟨q, hq, hlisted hc hq, htid⟩
      | removed =>
        rw [hs] at hchild hwaits
        cases hchild
        obtain ⟨-, -, q, hq, htid, -, -, hdeleted⟩ := hwaits
        exact ⟨q, hq, hdeleted, htid⟩
      | _ => rw [hs] at hchild; cases hchild
    obtain ⟨child, hth', rfl⟩ := Option.map_eq_some_iff.mp hq
    exact ⟨child, hth', hdeleted, htid⟩

/-- The initial thread is in `process_wait` for the process 3. -/
theorem child_pointers_live_waits : ∃ s : World × History, ∃ th, s.1.threads 0 = some th ∧
    th.child_list.Nodup ∧
    (∀ c ∈ th.child_list, (∃ child, s.1.threads c = some child ∧ child.deleted_from_parent = false) ∧
      ∀ u th', s.1.threads u = some th' → c ∈ th'.child_list → u = 0) ∧
    (∀ u th', s.1.threads u = some th' → th'.tid = th.tid → u = 0) ∧
    ∀ c, (s.2.points 0).stage.pointer = some (3, c) →
      ∃ child, s.1.threads c = some child ∧ child.deleted_from_parent = false ∧ child.tid = 3 := by
  obtain ⟨s, hs, htest⟩ := exists_steps (exit_labels.dropLast.dropLast.dropLast)
    (fun s => (s.1.threads 0).isSome && (s.2.points 0).stage.pointer = some (3, 2)) (by decide +kernel)
  rw [Bool.and_eq_true, Option.isSome_iff_exists] at htest
  obtain ⟨⟨th, hth⟩, -⟩ := htest
  exact ⟨s, th, hth, child_pointers_live hs hth⟩

end pintos.prj2
