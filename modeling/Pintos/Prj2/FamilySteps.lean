import Pintos.Prj2.Interleaving

/-!
# What a move leaves alone
-/

open interaction transition

namespace pintos.prj2

variable {f f' f₁ : Family} {t u : ThreadId} {p p' q q' : Proc} {a : Act} {point : Point} {notes : List Note}

/-- What a process keeps while others move: all but the flags that they set. -/
structure Proc.Alike (q q' : Proc) : Prop where
  tid : q'.tid = q.tid
  parent : q'.parent = q.parent
  child_list : q'.child_list = q.child_list
  exit_status : q'.exit_status = q.exit_status
  ready_to_exit : q'.ready_to_exit = q.ready_to_exit
  point : q'.point = q.point
  deleted_from_parent : q.deleted_from_parent = true → q'.deleted_from_parent = true
  load_finish : q.load_finish = true → q'.load_finish = true

theorem Proc.Alike.refl (q : Proc) : q.Alike q := ⟨rfl, rfl, rfl, rfl, rfl, rfl, id, id⟩

namespace Family

@[simp] theorem go_procs (f : Family) (t u : ThreadId) (point : Point) :
    (f.go t point).procs u = if u = t then (f.procs t).map fun p => { p with point } else f.procs u :=
  update_procs f t u _

@[simp] theorem create_procs (f : Family) (t c u : ThreadId) :
    (f.create t c).procs u = if u = c then some (.new f.next_tid t)
      else if u = t then (f.procs t).map fun p => { p with child_list := p.child_list ++ [c] }
      else f.procs u := by
  simp only [create, Function.update_apply, update_procs]

/-- A change of the flags keeps processes alike. -/
theorem update_alike {g : Proc → Proc} (hg : ∀ q : Proc, q.Alike (g q)) (hu : f.procs u = some q) :
    ∃ q', (f.update t g).procs u = some q' ∧ q.Alike q' := by
  rw [update_procs]
  split
  · rename_i heq
    rw [← heq, hu]
    exact ⟨g q, rfl, hg q⟩
  · exact ⟨q, hu, .refl q⟩

/-- Others keep their processes in a move. -/
theorem Move.keeps (hmove : f.Move t p a f₁ point notes) (hne : u ≠ t) (hu : f.procs u = some q) :
    ∃ q', f₁.procs u = some q' ∧ q.Alike q' := by
  cases hmove with
  | release => exact update_alike (fun _ => ⟨rfl, rfl, rfl, rfl, rfl, rfl, fun _ => rfl, id⟩) hu
  | unload => exact update_alike (fun _ => ⟨rfl, rfl, rfl, rfl, rfl, rfl, id, id⟩) hu
  | finish => exact update_alike (fun _ => ⟨rfl, rfl, rfl, rfl, rfl, rfl, id, fun _ => rfl⟩) hu
  | create hs he hc =>
    refine ⟨q, ?_, .refl q⟩
    rw [create_procs, if_neg, if_neg hne]
    · exact hu
    · rintro rfl
      rw [hc] at hu
      cases hu
  | remove | store_status | ready => exact ⟨q, by rw [update_procs, if_neg hne]; exact hu, .refl q⟩
  | die => exact ⟨q, (Function.update_of_ne hne _ _).trans hu, .refl q⟩
  | _ => exact ⟨q, hu, .refl q⟩

/-- Other processes have been there before, but for one that has just been created. -/
theorem Move.kept (hmove : f.Move t p a f₁ point notes) (hne : u ≠ t) (hu : f₁.procs u = some q') :
    (∃ q, f.procs u = some q ∧ q.Alike q') ∨
      f.procs u = none ∧ a = .create (some f.next_tid) ∧ q' = .new f.next_tid t := by
  cases hf : f.procs u with
  | some q =>
    obtain ⟨q'', hq, halike⟩ := hmove.keeps hne hf
    rw [hu] at hq
    cases hq
    exact .inl ⟨q, rfl, halike⟩
  | none =>
    refine .inr ⟨rfl, ?_⟩
    cases hmove with
    | create hs he hc =>
      rw [create_procs, if_neg hne] at hu
      split at hu
      · cases hu
        exact ⟨rfl, rfl⟩
      · rw [hf] at hu
        cases hu
    | release | unload | finish | remove | store_status | ready =>
      rw [update_procs] at hu
      split at hu
      · rename_i heq
        rw [← heq, hf] at hu
        cases hu
      · rw [hf] at hu
        cases hu
    | die =>
      have hnone : Function.update f.procs t none u = none := (Function.update_of_ne hne _ _).trans hf
      cases hnone.symm.trans hu
    | _ =>
      rw [hf] at hu
      cases hu

theorem Step.keeps (hstep : f.Step t a f') (hne : u ≠ t) (hu : f.procs u = some q) :
    ∃ q', f'.procs u = some q' ∧ q.Alike q' := by
  obtain ⟨p, f₁, point, notes, -, hmove, rfl⟩ := hstep
  rw [note_procs, go_procs, if_neg hne]
  exact hmove.keeps hne hu

theorem Step.kept (hstep : f.Step t a f') (hne : u ≠ t) (hu : f'.procs u = some q') :
    (∃ q, f.procs u = some q ∧ q.Alike q') ∨
      f.procs u = none ∧ a = .create (some f.next_tid) ∧ q' = .new f.next_tid t := by
  obtain ⟨p, f₁, point, notes, -, hmove, rfl⟩ := hstep
  rw [note_procs, go_procs, if_neg hne] at hu
  exact hmove.kept hne hu

theorem Move.step_notes (hmove : f.Move t p a f₁ point notes) :
    ((f₁.go t point).note notes).notes = notes ++ f.notes := by
  cases hmove <;> rfl

end Family

end pintos.prj2
