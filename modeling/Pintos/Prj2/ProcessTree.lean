import Pintos.Prj2.WaitStatus

/-!
# The tree of processes

As long as no process is destroyed before it has waited for its children, every process that has not been
reaped has a live parent that lists it.
-/

open interaction Prog transition

namespace pintos.prj2

variable {f f' f₁ : Family} {t u v c : ThreadId} {p p' q q' : Proc} {a : Act} {point : Point}
  {notes : List Note}

namespace Family

/-- A process is a child of a live parent, or the parent is about to release it, or it has been released. -/
inductive Rooted (f : Family) (t : ThreadId) (p : Proc) : Prop where
  | listed {q : Proc} (hq : f.procs p.parent = some q) (hmem : t ∈ q.child_list)
  | taken {q : Proc} {tid status : Int} (hq : f.procs p.parent = some q)
      (hs : q.point.stage = .removed tid t status)
  | reaped {tid : Int} (hready : p.ready_to_exit = true) (hdeleted : p.deleted_from_parent = true)
      (hnote : .removed tid p.tid ∈ f.notes)

/-- A process that has not been reaped has a live parent with it among its children. -/
theorem Rooted.parent_lists (h : f.Rooted t p) (hf : f.Reaping) (hp : f.procs t = some p)
    (hnote : ∀ tid, .removed tid p.tid ∉ f.notes) : ∃ q, f.procs p.parent = some q ∧ t ∈ q.child_list := by
  cases h with
  | listed hq hmem => exact ⟨_, hq, hmem⟩
  | @taken q tid status hq hs =>
    have hwaits := hf.waits _ q hq
    rw [Waits, hs] at hwaits
    obtain ⟨-, hremoved, p', hp', htid, -⟩ := hwaits
    cases hp.symm.trans hp'
    exact absurd (htid.symm ▸ hremoved) (hnote q.tid)
  | reaped _ _ hremoved => exact absurd hremoved (hnote _)

/-- A process that is not ready to exit, or that its parent has not released, has a live parent. -/
theorem Rooted.parent_live (h : f.Rooted t p)
    (hunreaped : ¬ (p.ready_to_exit = true ∧ p.deleted_from_parent = true)) :
    ∃ q, f.procs p.parent = some q := by
  cases h with
  | listed hq _ => exact ⟨_, hq⟩
  | taken hq _ => exact ⟨_, hq⟩
  | reaped hready hdeleted _ => exact absurd ⟨hready, hdeleted⟩ hunreaped

/-- A new process is in the list of the process that has created it. -/
theorem Step.created (hstep : f.Step t a f') (hnone : f.procs u = none) (hu : f'.procs u = some q') :
    ∃ p', f'.procs t = some p' ∧ u ∈ p'.child_list ∧ q' = .new f.next_tid t := by
  obtain ⟨p, f₁, point, notes, hp, hmove, rfl⟩ := id hstep
  have hut : u ≠ t := fun heq => by
    rw [heq, hp] at hnone
    cases hnone
  obtain ⟨q, hq, -⟩ | ⟨-, rfl, rfl⟩ := hstep.kept hut hu
  · cases hnone.symm.trans hq
  cases hmove with
  | @create c hs he hc =>
    have hct : t ≠ c := fun heq => by
      rw [← heq, hp] at hc
      cases hc
    rw [note_procs, go_procs, if_neg hut, create_procs] at hu
    split at hu
    · rename_i huc
      refine ⟨_, by rw [note_procs, go_procs, if_pos rfl, create_procs, if_neg hct, if_pos rfl, hp]; rfl, ?_, rfl⟩
      exact List.mem_append_right _ (List.mem_singleton.mpr huc)
    · cases hnone.symm.trans hu

/-- A process that has removed a child goes on and releases it. -/
theorem Move.releases {tid status : Int} (hmove : f.Move t p a f₁ point notes)
    (hs : p.point.stage = .removed tid c status) (hq : f.procs c = some q) : .released p.tid q.tid ∈ notes := by
  cases hmove with
  | release hs' hc =>
    cases hs.symm.trans hs'
    cases hq.symm.trans hc
    exact List.mem_cons_self
  | @loaded success hs' => cases success <;> cases hs.symm.trans hs'
  | _ => simp_all

/-- A child stays in the list until its parent removes it. -/
theorem Step.lists_child (hstep : f.Step t a f') (hv : f.procs v = some q) (hmem : u ∈ q.child_list)
    (hdie : a = .die → ∀ p, f.procs t = some p → p.child_list = []) :
    ∃ q', f'.procs v = some q' ∧
      (u ∈ q'.child_list ∨ ∃ tid status, q'.point.stage = .removed tid u status) := by
  by_cases hvt : v = t
  swap
  · obtain ⟨q', hq', halike⟩ := hstep.keeps hvt hv
    exact ⟨q', hq', .inl (halike.child_list ▸ hmem)⟩
  subst hvt
  obtain ⟨p, f₁, point, notes, hp, hmove, rfl⟩ := hstep
  cases hv.symm.trans hp
  cases hp' : f₁.procs v with
  | none =>
    rw [hdie (hmove.gone hv hp').1 q hv] at hmem
    cases hmem
  | some p' =>
    refine ⟨{ p' with point }, by rw [note_procs, go_procs, if_pos rfl, hp']; rfl, ?_⟩
    have hcont := hmove.continues hv hp'
    cases hmove with
    | @create c hs he hc =>
      have hvc : v ≠ c := fun heq => by
        rw [← heq, hv] at hc
        cases hc
      rw [create_procs, if_neg hvc, if_pos rfl, hv] at hp'
      cases hp'
      exact .inl (List.mem_append_left _ hmem)
    | @remove tid c status child hs hc =>
      rw [update_procs, if_pos rfl, hv] at hp'
      cases hp'
      by_cases huc : u = c
      · exact .inr ⟨tid, status, by rw [huc]⟩
      · exact .inl ((List.mem_erase_of_ne huc).mpr hmem)
    | _ =>
      refine .inl ?_
      simp only [hcont.child_list rfl]
      exact hmem

/-- Processes stay in the tree. -/
theorem Rooted.step (h : ∀ t p, f.procs t = some p → f.Rooted t p) (hf : f.Reaping) (hstep : f.Step t a f')
    (hdie : a = .die → ∀ p, f.procs t = some p → p.child_list = []) (hu : f'.procs u = some q') :
    f'.Rooted u q' := by
  obtain ⟨q, hq, hlater⟩ | ⟨hnone, -, -⟩ := hstep.earlier hu
  swap
  · obtain ⟨p', hp', hmem, rfl⟩ := hstep.created hnone hu
    exact .listed hp' hmem
  have hparent := hlater.parent.symm
  obtain ⟨p, f₁, point, notes, hp, hmove, heq⟩ := id hstep
  have hnotes : f'.notes = notes ++ f.notes := heq ▸ hmove.step_notes
  have hreaped : ∀ tid, q.ready_to_exit = true → q'.deleted_from_parent = true → .removed tid q.tid ∈ f.notes →
      f'.Rooted u q' := by
    intro tid hready hdeleted hnote
    refine @reaped _ _ _ tid (hlater.ready_to_exit hready) hdeleted ?_
    rw [hnotes, hlater.tid]
    exact List.mem_append_right _ hnote
  cases h u q hq with
  | listed hv hmem =>
    obtain ⟨pv, hpv, hmem | ⟨tid, status, hs⟩⟩ := hstep.lists_child hv hmem hdie
    · exact .listed (hparent ▸ hpv) hmem
    · exact .taken (hparent ▸ hpv) hs
  | @taken pv tid status hv hs =>
    by_cases hvt : q.parent = t
    · cases hp.symm.trans (hvt ▸ hv)
      have hwaits := hf.waits _ p hp
      rw [Waits, hs] at hwaits
      obtain ⟨-, hremoved, q₁, hq₁, htid, hready, -⟩ := hwaits
      cases hq.symm.trans hq₁
      have hreleased : .released p.tid q.tid ∈ f'.notes := by
        rw [hnotes]
        exact List.mem_append_left _ (hmove.releases hs hq)
      exact hreaped p.tid hready (hf.released_step hstep hreleased hu hlater.tid) (htid.symm ▸ hremoved)
    · obtain ⟨pv', hpv', halike⟩ := hstep.keeps hvt hv
      exact .taken (hparent ▸ hpv') (halike.point.symm ▸ hs)
  | reaped hready hdeleted hnote => exact hreaped _ hready (hlater.deleted_from_parent hdeleted) hnote

theorem Boot.rooted (h : f.Boot) (hp : f.procs t = some p) : f.Rooted t p := by
  obtain ⟨main, idle, -, -, -, hmain, hidle, hprocs⟩ := h.procs
  obtain ⟨rfl, rfl⟩ | ⟨rfl, rfl⟩ := hprocs t p hp
  · exact .listed hmain List.mem_cons_self
  · exact .listed hmain (List.mem_cons_of_mem _ List.mem_cons_self)

end Family

/-- A process that writes to its parent is not ready to exit. -/
theorem next_to_parent {o : Op} {s : Point} {after : o.Ans → Point}
    (ho : o = .parent_load_finish ∨ o = .parent_child_load_success) (hnext : s.next o = some after) :
    s.stage ≠ .ready ∧ s.stage ≠ .dying := by
  obtain ⟨f, e, hf, -, -⟩ := Point.next_some hnext
  constructor <;> intro hs <;> rw [hs] at hf <;> obtain rfl | rfl := ho <;> cases hf

/-- The step does not stray, and destroys no process that has still children to wait for. -/
def dies_childless (s : World × History) (l : Label) : Prop :=
  (∀ w, l.event ≠ .stray w) ∧ (l.event = .die → ∀ th, s.1.threads l.thread = some th → th.child_list = [])

/-- Every process that has not been reaped has a live parent with it among its children; a process that still
waits for its release, or has still to tell its parent how its load has gone, has a live parent. -/
theorem process_tree {s : World × History} (h : (observed_processes.restrict dies_childless).Reachable s) :
    (∀ t th, s.1.threads t = some th → (∀ tid, .removed tid th.tid ∉ s.2.notes) →
      ∃ parent, s.1.threads th.parent = some parent ∧ t ∈ parent.child_list) ∧
    (∀ t th k, s.1.threads t = some th → th.code = .ask .poll_deleted_from_parent k →
      th.deleted_from_parent = false → ∃ parent, s.1.threads th.parent = some parent) ∧
    ∀ t th o k, s.1.threads t = some th → th.code = .ask o k →
      o = .parent_load_finish ∨ o = .parent_child_load_success →
        ∃ parent, s.1.threads th.parent = some parent := by
  have hinv := family_invariant (I := fun f => f.Reaping ∧ ∀ t p, f.procs t = some p → f.Rooted t p)
    (G := fun f t a => a = .die → ∀ p, f.procs t = some p → p.child_list = []) (fun s l hg => hg.1) ?_
    (fun f hf => ⟨hf.reaping, fun t p hp => hf.rooted hp⟩)
    (fun f t a f' hf hdie hstep => ⟨hf.1.step hstep, fun u q' hu => .step hf.2 hf.1 hstep hdie hu⟩) h
  · obtain ⟨hpoint, hreaping, hrooted⟩ := hinv
    have hthread : ∀ {t q}, (s.1.family s.2).procs t = some q →
        ∃ th, s.1.threads t = some th ∧ q = th.proc (s.2.points t) := by
      intro t q hq
      obtain ⟨th, hth, rfl⟩ := Option.map_eq_some_iff.mp hq
      exact ⟨th, hth, rfl⟩
    have hlive : ∀ t th, s.1.threads t = some th → ¬ (th.ready_to_exit = true ∧ th.deleted_from_parent = true) →
        ∃ parent, s.1.threads th.parent = some parent := by
      intro t th hth hunreaped
      obtain ⟨q, hq⟩ := (hrooted t _ (World.family_procs s.2 hth)).parent_live hunreaped
      obtain ⟨parent, hparent, -⟩ := hthread hq
      exact ⟨parent, hparent⟩
    refine ⟨fun t th hth hnote => ?_, fun t th k hth _ hdeleted => ?_, fun t th o k hth hcode ho => ?_⟩
    · obtain ⟨q, hq, hmem⟩ := (hrooted t _ (World.family_procs s.2 hth)).parent_lists hreaping
        (World.family_procs s.2 hth) hnote
      obtain ⟨parent, hparent, rfl⟩ := hthread hq
      exact ⟨parent, hparent, hmem⟩
    · exact hlive t th hth fun hreaped => Bool.false_ne_true (hdeleted.symm.trans hreaped.2)
    · refine hlive t th hth fun hreaped => ?_
      have hends := (hreaping.ends t _ (World.family_procs s.2 hth)).ready.mp hreaped.1
      have hgoes := hpoint t th hth
      rw [hcode] at hgoes
      obtain ⟨after, hnext, -⟩ := hgoes
      obtain ⟨hready, hdying⟩ := next_to_parent ho hnext
      obtain hs | hs := hends
      · exact hready hs
      · exact hdying hs
  · rintro s l a ⟨-, hdie⟩ hshows rfl p hp
    obtain ⟨th, hth, rfl⟩ := Option.map_eq_some_iff.mp hp
    cases hshows with
    | die he => exact hdie he th hth
    | request hth hcode he hreply ha => exact absurd rfl (Op.act_ne ha).2

/-- The thread reads a byte of the name of its file. -/
def Label.read (t : ThreadId) : Label :=
  ⟨t, .go { byte := 112, word := 0, answer := Query.grant, page := none }⟩

/-- The process calls `exec`, and gets a child in the page. -/
def call_exec_labels (page : ThreadId) : List Label :=
  [⟨2, .syscall 0⟩, .grant 2 2 none, .grant 2 2 none, .grant 2 0 none, .grant 2 0 none, .read 2,
    .grant 2 0 none, .grant 2 0 none, .grant 2 0 none, .grant 2 0 none, .read 2, .grant 2 0 none,
    .read 2, .grant 2 0 none, .read 2, .grant 2 0 none, .grant 2 0 (some page)]

/-- The call of `exec` goes on to its end. -/
def return_exec_labels : List Label := List.replicate 3 (.grant 2 0 none)

/-- The process execs a child, which is loaded. -/
def exec_labels : List Label := call_exec_labels 3 ++ List.replicate 9 (.grant 3 0 none) ++ return_exec_labels

theorem process_tree_exec : ∃ s : World × History, (s.1.threads 3).isSome ∧
    (∀ t th, s.1.threads t = some th → (∀ tid, .removed tid th.tid ∉ s.2.notes) →
      ∃ parent, s.1.threads th.parent = some parent ∧ t ∈ parent.child_list) ∧
    (∀ t th k, s.1.threads t = some th → th.code = .ask .poll_deleted_from_parent k →
      th.deleted_from_parent = false → ∃ parent, s.1.threads th.parent = some parent) ∧
    ∀ t th o k, s.1.threads t = some th → th.code = .ask o k →
      o = .parent_load_finish ∨ o = .parent_child_load_success →
        ∃ parent, s.1.threads th.parent = some parent := by
  obtain ⟨s, hs, hchild, -⟩ := @observed_run dies_childless
    (fun _ l => match l.event with | .go _ | .syscall _ | .run_task _ => true | _ => false)
    (fun s l hl => ⟨fun w he => by simp [he] at hl, fun he => by simp [he] at hl⟩)
    (start_labels ++ exec_labels) (fun s => (s.1.threads 3).isSome) (by decide +kernel)
  exact ⟨s, hchild, process_tree hs⟩

/-- The process exits without a wait for its child, and is waited for and destroyed. -/
def leave_labels : List Label :=
  [⟨2, .syscall 0⟩, .grant 2 1 none] ++ List.replicate 5 (.grant 2 0 none) ++ wait_labels ++
    [.grant 2 0 none, ⟨2, .die⟩]

/-- Then the child has no parent. -/
theorem process_tree_orphan : ∃ s, observed_processes.Reachable s ∧ ∃ t th, s.1.threads t = some th ∧
    (∀ tid, .removed tid th.tid ∉ s.2.notes) ∧ s.1.threads th.parent = none := by
  obtain ⟨s, hs, htest, -⟩ := @observed_run (fun _ _ => True) (fun _ _ => true) (fun _ _ _ => trivial)
    (start_labels ++ exec_labels ++ leave_labels)
    (fun s => (s.1.threads 3).any fun th => (s.1.threads th.parent).isNone &&
      s.2.notes.all fun n => match n with | .removed _ child => child ≠ th.tid | _ => true)
    (by decide +kernel)
  obtain ⟨th, hth, hrest⟩ := (Option.any_eq_true _ _).mp htest
  rw [Bool.and_eq_true, List.all_eq_true] at hrest
  refine ⟨s, hs.of_restrict, 3, th, hth, fun tid hmem => ?_, Option.isNone_iff_eq_none.mp hrest.1⟩
  exact of_decide_eq_true (hrest.2 _ hmem) rfl

end pintos.prj2
