import Pintos.Prj2.Reaping

/-!
# Waiting for children

What a process has found out about a child stays true while it waits, and what the notes say about
children is what the lists say.
-/

open interaction transition

namespace pintos.prj2

variable {f f' f₁ : Family} {t u v c : ThreadId} {p p' q q' : Proc} {a : Act} {point : Point} {n : Note}
  {ns notes : List Note} {tid child status : Int} {how : Ending}

/-- The initial thread after boot. -/
def Proc.main (main idle : ThreadId) : Proc :=
  { Proc.new 1 main with child_list := [main, idle], point := ⟨.running, .idle⟩ }

/-- The idle thread. -/
def Proc.idle (main : ThreadId) : Proc := { Proc.new 2 main with point := ⟨.running, .idle⟩ }

/-- What a process keeps in every step. -/
structure Proc.Later (q q' : Proc) : Prop where
  tid : q'.tid = q.tid
  deleted_from_parent : q.deleted_from_parent = true → q'.deleted_from_parent = true
  parent : q'.parent = q.parent
  ready_to_exit : q.ready_to_exit = true → q'.ready_to_exit = true

/-- The child that has been taken out of the list. -/
def Stage.taking : Stage → Option Int
  | .removed tid _ _ | .released tid _ => some tid
  | _ => none

namespace Family

/-- The child has been taken out of the list, and of no other. -/
structure Taken (f : Family) (t c : ThreadId) : Prop where
  unlisted : ∀ u q, f.procs u = some q → c ∉ q.child_list
  unique : ∀ u q tid status, f.procs u = some q → q.point.stage = .removed tid c status → u = t

/-- What the stage of a process says about a child. -/
def Waits (f : Family) (t : ThreadId) (p : Proc) : Prop :=
  match p.point.stage with
  | .found tid c => c ∈ p.child_list ∧ ∃ q, f.procs c = some q ∧ q.tid = tid
  | .awaited tid c => c ∈ p.child_list ∧ ∃ q, f.procs c = some q ∧ q.tid = tid ∧ q.ready_to_exit = true
  | .told tid c status => c ∈ p.child_list ∧ ∃ q, f.procs c = some q ∧ q.tid = tid ∧
      q.ready_to_exit = true ∧ q.exit_status = status
  | .removed tid c status => f.Taken t c ∧ .removed p.tid tid ∈ f.notes ∧ ∃ q,
      f.procs c = some q ∧ q.tid = tid ∧
      q.ready_to_exit = true ∧ q.exit_status = status ∧ q.deleted_from_parent = false
  | .released tid status => Verdict Ending.Leaves f.notes tid status ∧ .removed p.tid tid ∈ f.notes
  | .absent tid => awaitable p.tid tid f.notes = false
  | _ => True

/-- A process of the list has the `tid`. -/
def Lists (f : Family) (l : List ThreadId) (tid : Int) : Prop := ∃ c ∈ l, ∃ q, f.procs c = some q ∧ q.tid = tid

/-- The child is in the list, or the process is about to have waited for it. -/
def Awaits (f : Family) (p : Proc) (child : Int) : Prop :=
  f.Lists p.child_list child ∨ p.point.stage.taking = some child

/-- Waiting works. -/
structure Reaping (f : Family) : Prop where
  kinship : Kinship f.kin f.next_tid
  creator : ∀ tid child, .created tid child ∈ f.notes → tid < f.next_tid
  subject : ∀ n ∈ f.notes, ∀ child, n.subject = some child → child < f.next_tid
  ends : ∀ t p, f.procs t = some p → p.Ends f.notes
  released : ∀ tid child u q, .released tid child ∈ f.notes → f.procs u = some q → q.tid = child →
    q.deleted_from_parent = true
  removed : ∀ tid child u q, .removed tid child ∈ f.notes → f.procs u = some q → q.tid = child →
    ∀ v p, f.procs v = some p → u ∉ p.child_list
  waits : ∀ t p, f.procs t = some p → f.Waits t p
  awaits : ∀ t p child, f.procs t = some p → (awaitable p.tid child f.notes = true ↔ f.Awaits p child)
  proper : Proper Ending.Leaves f.notes

theorem lists_append {l l' : List ThreadId} : f.Lists (l ++ l') tid ↔ f.Lists l tid ∨ f.Lists l' tid := by
  simp only [Lists, List.mem_append, or_and_right, exists_or]

theorem lists_singleton (hq : f.procs c = some q) : f.Lists [c] tid ↔ q.tid = tid := by
  simp [Lists, hq]

theorem lists_erase {l : List ThreadId} (hc : c ∈ l) (hq : f.procs c = some q) :
    f.Lists l tid ↔ f.Lists (l.erase c) tid ∨ q.tid = tid := by
  constructor
  · rintro ⟨c', hc', q', hq', htid⟩
    by_cases heq : c' = c
    · subst heq
      cases hq.symm.trans hq'
      exact .inr htid
    · exact .inl ⟨c', (List.mem_erase_of_ne heq).mpr hc', q', hq', htid⟩
  · rintro (⟨c', hc', hrest⟩ | htid)
    · exact ⟨c', List.mem_of_mem_erase hc', hrest⟩
    · exact ⟨c, hc, q, hq, htid⟩

theorem Reaping.tid_lt (h : f.Reaping) (hp : f.procs t = some p) : p.tid < f.next_tid :=
  h.kinship.tid_lt (kin_some hp)

theorem Reaping.tid_inj (h : f.Reaping) (hp : f.procs t = some p) (hq : f.procs u = some q)
    (heq : p.tid = q.tid) :
    t = u :=
  h.kinship.tid_inj (kin_some hp) (kin_some hq) heq

/-- The members of lists are live. -/
theorem Reaping.live (h : f.Reaping) (hp : f.procs t = some p) (hc : c ∈ p.child_list) :
    ∃ q, f.procs c = some q ∧ q.deleted_from_parent = false := by
  obtain ⟨k, hk, hdeleted⟩ := h.kinship.live (kin_some hp) hc
  obtain ⟨q, hq, rfl⟩ := Option.map_eq_some_iff.mp hk
  exact ⟨q, hq, hdeleted⟩

theorem Reaping.kinship_step (h : f.Reaping) (hstep : f.Step t a f') : Kinship f'.kin f'.next_tid := by
  obtain ⟨p, f₁, point, notes, hp, hmove, rfl⟩ := hstep
  rw [kin_note, kin_go]
  refine h.kinship.move hmove.kin hp (fun tid c status hs u k hk => ?_) (h.ends t p hp).dying
  obtain ⟨q, hq, rfl⟩ := Option.map_eq_some_iff.mp hk
  have hwaits := h.waits t p hp
  rw [Waits, hs] at hwaits
  exact hwaits.1.unlisted u q hq

/-- Only a release sets the flag. -/
theorem Move.deleted_same (hmove : f.Move t p a f₁ point notes) (hq : f.procs c = some q)
    (hq' : f₁.procs c = some q') (hrelease : ∀ tid status, p.point.stage ≠ .removed tid c status) :
    q'.deleted_from_parent = q.deleted_from_parent := by
  have hk := kin_some hq
  have hk' := kin_some hq'
  have hsame : ∀ k, some q'.kin = some k → k.deleted_from_parent = q.deleted_from_parent →
      q'.deleted_from_parent = q.deleted_from_parent := fun k heq hd =>
    (congrArg Kin.deleted_from_parent (Option.some.inj heq)).trans hd
  cases hmove.kin with
  | same hkins _ =>
    rw [hkins, hk] at hk'
    exact hsame _ hk'.symm rfl
  | create c' _ hc hkins _ =>
    have hne : c ≠ c' := fun heq => by
      rw [heq, hc] at hk
      cases hk
    rw [hkins, Function.update_of_ne hne, Function.update_apply] at hk'
    split at hk'
    · rename_i heq
      rw [← heq, hk] at hk'
      exact hsame _ hk'.symm rfl
    · rw [hk] at hk'
      exact hsame _ hk'.symm rfl
  | remove _ _ _ _ _ hkins _ =>
    rw [hkins, Function.update_apply] at hk'
    split at hk'
    · rename_i heq
      rw [← heq, hk] at hk'
      exact hsame _ hk'.symm rfl
    · rw [hk] at hk'
      exact hsame _ hk'.symm rfl
  | release tid c' status _ hs hkins _ =>
    have hne : c ≠ c' := fun heq => hrelease tid status (heq ▸ hs)
    rw [hkins, Function.update_of_ne hne, hk] at hk'
    exact hsame _ hk'.symm rfl
  | die _ _ hkins _ =>
    rw [hkins, Function.update_apply] at hk'
    split at hk'
    · cases hk'
    · rw [hk] at hk'
      exact hsame _ hk'.symm rfl

/-- A process that is ready to exit moves on when it has been released. -/
theorem Move.from_ready (hmove : f.Move t p a f₁ point notes) (h : p.Ends ns)
    (hready : p.ready_to_exit = true) :
    p.deleted_from_parent = true := by
  obtain hs' | hs' := h.ready.mp hready
  · cases hmove with
    | poll_deleted hs hd => exact hd
    | @loaded success hs => cases success <;> simp_all
    | _ => simp_all
  · exact h.dying hs'

/-- A process that is gone has been dying. -/
theorem Move.gone (hmove : f.Move t p a f₁ point notes) (hp : f.procs t = some p) (hgone : f₁.procs t = none) :
    a = .die ∧ p.point.stage = .dying := by
  cases hmove with
  | die hs => exact ⟨rfl, hs⟩
  | create hs he hc =>
    rw [create_procs, if_pos rfl, hp] at hgone
    split at hgone <;> cases hgone
  | release | remove | store_status | ready | unload | finish =>
    rw [update_procs] at hgone
    split at hgone
    · rename_i heq
      rw [← heq, hp] at hgone
      cases hgone
    · rw [hp] at hgone
      cases hgone
  | _ =>
    rw [hp] at hgone
    cases hgone

/-- A child that is not released lasts, and is as it is from the time on that it is ready to exit. -/
theorem Reaping.lasts (h : f.Reaping) (hstep : f.Step t a f') (hq : f.procs c = some q)
    (hdeleted : q.deleted_from_parent = false)
    (hrelease : ∀ p tid status, f.procs t = some p → p.point.stage ≠ .removed tid c status) :
    ∃ q', f'.procs c = some q' ∧ q'.tid = q.tid ∧ q'.deleted_from_parent = false ∧
      (q.ready_to_exit = true → q'.ready_to_exit = true ∧ q'.exit_status = q.exit_status) := by
  obtain ⟨p, f₁, point, notes, hp, hmove, rfl⟩ := hstep
  by_cases hc : c = t
  · subst hc
    obtain rfl : q = p := Option.some.inj (hq.symm.trans hp)
    cases hp' : f₁.procs c with
    | none => cases ((h.ends c q hq).dying (hmove.gone hq hp').2).symm.trans hdeleted
    | some p' =>
      refine ⟨{ p' with point }, by simp [hp'], ?_, ?_, fun hready => ?_⟩
      · exact (hmove.continues hq hp').tid
      · exact (hmove.deleted_same hq hp' fun tid status => hrelease q tid status hq).trans hdeleted
      · cases (hmove.from_ready (h.ends c q hq) hready).symm.trans hdeleted
  · obtain ⟨q', hq', halike⟩ := hmove.keeps hc hq
    refine ⟨q', by simp [hc, hq'], halike.tid, ?_, fun hready => ?_⟩
    · exact (hmove.deleted_same hq hq' fun tid status => hrelease p tid status hp).trans hdeleted
    · exact ⟨halike.ready_to_exit.trans hready, halike.exit_status⟩

/-- A process has been there before, or has just been created. -/
theorem Step.earlier (hstep : f.Step t a f') (hu : f'.procs u = some q') :
    (∃ q, f.procs u = some q ∧ q.Later q') ∨ f.procs u = none ∧ u ≠ t ∧ q' = .new f.next_tid t := by
  by_cases hut : u = t
  · subst hut
    obtain ⟨p, f₁, point, notes, hp, hmove, rfl⟩ := hstep
    rw [note_procs, go_procs, if_pos rfl] at hu
    obtain ⟨p', hp', rfl⟩ := Option.map_eq_some_iff.mp hu
    have hcont := hmove.continues hp hp'
    exact .inl ⟨p, hp, hcont.tid, hcont.deleted_from_parent, hcont.parent, hcont.stays_ready⟩
  · obtain ⟨q, hq, halike⟩ | ⟨hnone, -, hnew⟩ := hstep.kept hut hu
    · refine .inl ⟨q, hq, halike.tid, halike.deleted_from_parent, halike.parent, fun hready => ?_⟩
      exact halike.ready_to_exit.trans hready
    · exact .inr ⟨hnone, hut, hnew⟩

theorem Reaping.subject_step (h : f.Reaping) (hstep : f.Step t a f') :
    ∀ n ∈ f'.notes, ∀ child, n.subject = some child → child < f'.next_tid := by
  obtain ⟨p, f₁, point, notes, hp, hmove, rfl⟩ := hstep
  intro n hmem child hsubject
  rw [hmove.step_notes] at hmem
  obtain hmem | hmem := List.mem_append.mp hmem
  · exact hmove.subject_lt hp (fun u q hq => h.tid_lt hq) n hmem child hsubject
  · exact Int.lt_of_lt_of_le (h.subject n hmem child hsubject) hmove.next_tid_le

theorem Reaping.ends_step (h : f.Reaping) (hstep : f.Step t a f') (hu : f'.procs u = some q') :
    q'.Ends f'.notes := by
  obtain ⟨p, f₁, point, notes, hp, hmove, rfl⟩ := id hstep
  rw [hmove.step_notes]
  by_cases hut : u = t
  · subst hut
    rw [note_procs, go_procs, if_pos rfl] at hu
    obtain ⟨p', hp', rfl⟩ := Option.map_eq_some_iff.mp hu
    exact (h.ends u p hp).move hmove hp hp'
  · obtain ⟨q, hq, halike⟩ | ⟨-, -, rfl⟩ := hstep.kept hut hu
    · have hends := h.ends u q hq
      refine ⟨?_, fun hs => ?_, fun s hs => ?_, fun hs => ?_, fun hs => ⟨?_, fun how hmem => ?_⟩⟩
      · rw [halike.ready_to_exit, halike.point]
        exact hends.ready
      · exact halike.deleted_from_parent (hends.dying (halike.point ▸ hs))
      · rw [halike.tid]
        exact List.mem_append_right _ (hends.exiting s (halike.point ▸ hs))
      · obtain ⟨how, hmem, hstatus⟩ := hends.past (halike.point ▸ hs)
        exact ⟨how, List.mem_append_right _ (halike.tid ▸ hmem), halike.exit_status.trans hstatus⟩
      · exact halike.exit_status.trans (hends.alive (halike.point ▸ hs)).1
      · rw [halike.tid] at hmem
        obtain hmem | hmem := List.mem_append.mp hmem
        · exact hut (h.tid_inj hq hp (hmove.ended_mem hmem).1)
        · exact (hends.alive (halike.point ▸ hs)).2 how hmem
    · refine ⟨by simp [Proc.new], by simp [Proc.new], by simp [Proc.new], by simp [Proc.new], fun _ => ⟨rfl, ?_⟩⟩
      intro how hmem
      obtain hmem | hmem := List.mem_append.mp hmem
      · exact absurd (hmove.ended_mem hmem).1 (Int.ne_of_gt (h.tid_lt hp))
      · exact absurd (h.subject _ hmem _ rfl) (Int.lt_irrefl _)

theorem Reaping.released_step (h : f.Reaping) (hstep : f.Step t a f') (hmem : .released tid child ∈ f'.notes)
    (hu : f'.procs u = some q') (htid : q'.tid = child) : q'.deleted_from_parent = true := by
  obtain ⟨p, f₁, point, notes, hp, hmove, rfl⟩ := id hstep
  rw [hmove.step_notes] at hmem
  obtain hmem | hmem := List.mem_append.mp hmem
  · obtain ⟨rfl, tid', c, status, q, hs, hq, rfl, rfl⟩ := hmove.released_mem hmem
    have huc : u = c := by
      obtain ⟨q₀, hq₀, htid₀, -⟩ | ⟨-, -, rfl⟩ := hstep.earlier hu
      · exact h.tid_inj hq₀ hq (htid₀.symm.trans htid)
      · exact absurd (h.tid_lt hq) (htid ▸ Int.lt_irrefl _)
    subst huc
    cases hmove with
    | release hs' hc =>
      cases hs.symm.trans hs'
      rw [note_procs, go_procs, update_procs, update_procs, if_pos rfl, hq] at hu
      split at hu
      · rename_i heq
        rw [if_pos heq.symm] at hu
        cases hu
        rfl
      · cases hu
        rfl
  · obtain ⟨q, hq, htid', hdeleted⟩ | ⟨-, -, rfl⟩ := hstep.earlier hu
    · exact hdeleted (h.released tid child u q hmem hq (htid'.symm.trans htid))
    · exact absurd (h.subject _ hmem child rfl) (htid ▸ Int.lt_irrefl _)

/-- The elements of a list that have been there before have been in it. -/
theorem Step.listed (hstep : f.Step t a f') (hv : f'.procs v = some p') (hmem : u ∈ p'.child_list)
    (hu : f.procs u = some q) : ∃ p, f.procs v = some p ∧ u ∈ p.child_list := by
  obtain ⟨p, f₁, point, notes, hp, hmove, rfl⟩ := hstep
  have hk : ((f₁.go t point).note notes).kin v = some p'.kin := kin_some hv
  rw [kin_note, kin_go] at hk
  have hold : ∀ k : Kin, f.kin v = some k → u ∈ k.child_list → ∃ p, f.procs v = some p ∧ u ∈ p.child_list := by
    intro k hk hmem
    obtain ⟨p, hp, rfl⟩ := Option.map_eq_some_iff.mp hk
    exact ⟨p, hp, hmem⟩
  cases hmove.kin with
  | same hkins _ =>
    rw [hkins] at hk
    exact hold _ hk hmem
  | create c _ hc hkins _ =>
    rw [hkins, Function.update_apply, Function.update_apply] at hk
    split at hk
    · have hnil : [] = p'.child_list := congrArg Kin.child_list (Option.some.inj hk)
      rw [← hnil] at hmem
      cases hmem
    · split at hk
      · rename_i heq
        obtain ⟨k, hk, heqk⟩ := Option.map_eq_some_iff.mp hk
        rw [← show k.child_list ++ [c] = p'.child_list from congrArg Kin.child_list heqk] at hmem
        obtain hmem | hmem := List.mem_append.mp hmem
        · exact hold k (heq ▸ hk) hmem
        · rw [← List.mem_singleton.mp hmem, kin_some hu] at hc
          cases hc
      · exact hold _ hk hmem
  | remove _ c _ _ _ hkins _ =>
    rw [hkins, Function.update_apply] at hk
    split at hk
    · rename_i heq
      obtain ⟨k, hk, heqk⟩ := Option.map_eq_some_iff.mp hk
      refine hold k (heq ▸ hk) (List.erase_subset (a := c) ?_)
      rw [show k.child_list.erase c = p'.child_list from congrArg Kin.child_list heqk]
      exact hmem
    · exact hold _ hk hmem
  | release _ c _ _ _ hkins _ =>
    rw [hkins, Function.update_apply] at hk
    split at hk
    · rename_i heq
      obtain ⟨k, hk, heqk⟩ := Option.map_eq_some_iff.mp hk
      refine hold k (heq ▸ hk) ?_
      rw [show k.child_list = p'.child_list from congrArg Kin.child_list heqk]
      exact hmem
    · exact hold _ hk hmem
  | die _ _ hkins _ =>
    rw [hkins, Function.update_apply] at hk
    split at hk
    · cases hk
    · exact hold _ hk hmem

theorem Reaping.removed_step (h : f.Reaping) (hstep : f.Step t a f') (hmem : .removed tid child ∈ f'.notes)
    (hu : f'.procs u = some q') (htid : q'.tid = child) (hv : f'.procs v = some p') : u ∉ p'.child_list := by
  obtain ⟨p, f₁, point, notes, hp, hmove, rfl⟩ := id hstep
  rw [hmove.step_notes] at hmem
  intro hlist
  obtain hmem | hmem := List.mem_append.mp hmem
  · obtain ⟨rfl, tid', c, status, q, hs, hq, rfl, rfl⟩ := hmove.removed_mem hmem
    have huc : u = c := by
      obtain ⟨q₀, hq₀, htid₀, -⟩ | ⟨-, -, rfl⟩ := hstep.earlier hu
      · exact h.tid_inj hq₀ hq (htid₀.symm.trans htid)
      · exact absurd (h.tid_lt hq) (htid ▸ Int.lt_irrefl _)
    subst huc
    have hwaits := h.waits t p hp
    rw [Waits, hs] at hwaits
    obtain ⟨p₀, hp₀, hlist₀⟩ := hstep.listed hv hlist hq
    obtain rfl := h.kinship.disjoint (kin_some hp₀) (kin_some hp) hlist₀ hwaits.1
    cases hmove with
    | remove hs' hc =>
      cases hs.symm.trans hs'
      rw [note_procs, go_procs, update_procs, if_pos rfl, if_pos rfl, hp] at hv
      cases hv
      exact (h.kinship.nodup (kin_some hp)).not_mem_erase hlist
  · obtain ⟨q, hq, htid', -⟩ | ⟨-, -, rfl⟩ := hstep.earlier hu
    · obtain ⟨p₀, hp₀, hlist₀⟩ := hstep.listed hv hlist hq
      exact h.removed tid child u q hmem hq (htid'.symm.trans htid) v p₀ hp₀ hlist₀
    · exact absurd (h.subject _ hmem child rfl) (htid ▸ Int.lt_irrefl _)

theorem Move.to_removed (hmove : f.Move t p a f₁ point notes) (ha : a ≠ .die)
    (hs' : point.stage = .removed tid c status) : a = .remove ∧ p.point.stage = .told tid c status := by
  cases hmove with
  | remove hs hc =>
    cases hs'
    exact ⟨rfl, hs⟩
  | die hs => exact absurd rfl ha
  | find hs =>
    simp only at hs'
    cases hfound : f.find_child p.child_list _ <;> rw [hfound] at hs' <;> cases hs'
  | poll_load_finish hs hf =>
    simp only at hs'
    split at hs' <;> cases hs'
  | finish hs hf =>
    simp only at hs'
    split at hs' <;> cases hs'
  | exec hs | judge hs | returns hs => cases hs.symm.trans hs'
  | _ => cases hs'

theorem Step.self (hstep : f.Step t a f') (hu : f'.procs t = some q') :
    ∃ p p' f₁ point notes, f.procs t = some p ∧ f.Move t p a f₁ point notes ∧ f₁.procs t = some p' ∧
      q' = { p' with point } ∧ p.Continues p' a ∧ a ≠ .die ∧ f' = (f₁.go t point).note notes := by
  obtain ⟨p, f₁, point, notes, hp, hmove, rfl⟩ := hstep
  rw [note_procs, go_procs, if_pos rfl] at hu
  obtain ⟨p', hp', rfl⟩ := Option.map_eq_some_iff.mp hu
  refine ⟨p, p', f₁, point, notes, hp, hmove, hp', rfl, hmove.continues hp hp', ?_, rfl⟩
  rintro rfl
  cases hmove with
  | die hs =>
    have hnone : Function.update f.procs t none t = none := Function.update_self _ _ _
    cases hnone.symm.trans hp'

/-- A child that has been taken stays so while others move. -/
theorem Reaping.taken_step (h : f.Reaping) (hstep : f.Step t a f') (htaken : f.Taken u c)
    (hq : f.procs c = some q) :
    f'.Taken u c := by
  refine ⟨fun v p' hv hlist => ?_, fun v p' tid status hv hs => ?_⟩
  · obtain ⟨p₀, hp₀, hlist₀⟩ := hstep.listed hv hlist hq
    exact htaken.unlisted v p₀ hp₀ hlist₀
  · by_cases hvt : v = t
    · subst hvt
      obtain ⟨p, p₁, f₁, point, notes, hp, hmove, -, rfl, -, hdie, -⟩ := hstep.self hv
      obtain ⟨-, htold⟩ := hmove.to_removed hdie hs
      have hwaits := h.waits v p hp
      rw [Waits, htold] at hwaits
      exact absurd hwaits.1 (htaken.unlisted v p hp)
    · obtain ⟨p₀, hp₀, halike⟩ | ⟨-, -, rfl⟩ := hstep.kept hvt hv
      · exact htaken.unique v p₀ tid status hp₀ (halike.point ▸ hs)
      · cases hs

/-- What others know of their children stays true. -/
theorem Reaping.waits_other (h : f.Reaping) (hstep : f.Step t a f') (hut : u ≠ t) (hu : f'.procs u = some q') :
    f'.Waits u q' := by
  obtain ⟨q, hq, halike⟩ | ⟨-, -, rfl⟩ := hstep.kept hut hu
  swap
  · trivial
  have hwaits := h.waits u q hq
  obtain ⟨p, f₁, point, notes, hp, hmove, heq⟩ := id hstep
  have hnotes : f'.notes = notes ++ f.notes := heq ▸ hmove.step_notes
  -- a child in the list is not released by another process
  have hrelease : ∀ c, c ∈ q.child_list → ∀ p tid status, f.procs t = some p →
      p.point.stage ≠ .removed tid c status := by
    intro c hc p tid status hp hs
    have hwaits := h.waits t p hp
    rw [Waits, hs] at hwaits
    exact hwaits.1.unlisted u q hq hc
  rw [Waits] at hwaits ⊢
  rw [halike.point, halike.child_list, halike.tid]
  cases hs : q.point.stage with
  | found tid c =>
    rw [hs] at hwaits
    obtain ⟨hc, child, hchild, htid⟩ := hwaits
    obtain ⟨child', hchild', hdeleted⟩ := h.live hq hc
    cases hchild.symm.trans hchild'
    obtain ⟨child', hchild', htid', -, -⟩ := h.lasts hstep hchild hdeleted (hrelease c hc)
    exact ⟨hc, child', hchild', htid'.trans htid⟩
  | awaited tid c =>
    rw [hs] at hwaits
    obtain ⟨hc, child, hchild, htid, hready⟩ := hwaits
    obtain ⟨child', hchild', hdeleted⟩ := h.live hq hc
    cases hchild.symm.trans hchild'
    obtain ⟨child', hchild', htid', -, hrest⟩ := h.lasts hstep hchild hdeleted (hrelease c hc)
    exact ⟨hc, child', hchild', htid'.trans htid, (hrest hready).1⟩
  | told tid c status =>
    rw [hs] at hwaits
    obtain ⟨hc, child, hchild, htid, hready, hstatus⟩ := hwaits
    obtain ⟨child', hchild', hdeleted⟩ := h.live hq hc
    cases hchild.symm.trans hchild'
    obtain ⟨child', hchild', htid', -, hrest⟩ := h.lasts hstep hchild hdeleted (hrelease c hc)
    exact ⟨hc, child', hchild', htid'.trans htid, (hrest hready).1, (hrest hready).2.trans hstatus⟩
  | removed tid c status =>
    rw [hs] at hwaits
    obtain ⟨htaken, hnote, child, hchild, htid, hready, hstatus, hdeleted⟩ := hwaits
    obtain ⟨child', hchild', htid', hdeleted', hrest⟩ := h.lasts hstep hchild hdeleted fun p tid status hp hs =>
      hut (htaken.unique t p tid status hp hs).symm
    refine ⟨h.taken_step hstep htaken hchild, hnotes ▸ List.mem_append_right _ hnote, child', hchild',
      htid'.trans htid, (hrest hready).1, (hrest hready).2.trans hstatus, hdeleted'⟩
  | released tid status =>
    rw [hs] at hwaits
    exact ⟨hnotes ▸ hwaits.1.mono notes, hnotes ▸ List.mem_append_right _ hwaits.2⟩
  | absent tid =>
    rw [hs] at hwaits
    simp only [hnotes]
    rw [hmove.awaitable_of_ne fun htid => hut (h.tid_inj hq hp htid)]
    exact hwaits
  | _ => trivial

/-- What a process finds out about a child is true. -/
theorem Reaping.waits_self (h : f.Reaping) (hstep : f.Step t a f') (hu : f'.procs t = some q') :
    f'.Waits t q' := by
  obtain ⟨p, p', f₁, point, notes, hp, hmove, hp', rfl, hcont, hdie, heq⟩ := hstep.self hu
  have hnotes : f'.notes = notes ++ f.notes := heq ▸ hmove.step_notes
  have hwaits := h.waits t p hp
  have hlasts : ∀ c q, c ∈ p.child_list → f.procs c = some q →
      (∀ tid status, p.point.stage ≠ .removed tid c status) →
      ∃ q', f'.procs c = some q' ∧ q'.tid = q.tid ∧ q'.deleted_from_parent = false ∧
        (q.ready_to_exit = true → q'.ready_to_exit = true ∧ q'.exit_status = q.exit_status) := by
    intro c q hc hq hs
    obtain ⟨q₁, hq₁, hdeleted⟩ := h.live hp hc
    cases hq.symm.trans hq₁
    refine h.lasts hstep hq hdeleted fun p₁ tid status hp₁ => ?_
    cases hp.symm.trans hp₁
    exact hs tid status
  rw [Waits] at hwaits ⊢
  cases hmove with
  | @find tid hs =>
    cases hp.symm.trans hp'
    cases hfound : f.find_child p.child_list tid with
    | none =>
      simp only [Option.elim_none, hnotes, awaitable_accessed]
      refine Bool.eq_false_iff.mpr fun hawait => ?_
      obtain ⟨c, hc, q, hq, htid⟩ | htaking := (h.awaits t p tid hp).mp hawait
      · refine List.find?_eq_none.mp hfound c hc ?_
        simp [hq, htid]
      · rw [hs] at htaking
        cases htaking
    | some c =>
      have hmem : c ∈ p.child_list := List.mem_of_find?_eq_some hfound
      have hsome : (f.procs c).any (fun q => q.tid = tid) = true :=
        List.find?_some (p := fun c => (f.procs c).any fun q : Proc => q.tid = tid) hfound
      obtain ⟨q, hq, htid⟩ := (Option.any_eq_true _ _).mp hsome
      obtain ⟨q', hq', htid', -, -⟩ := hlasts c q hmem hq (by simp [hs])
      simp only [Option.elim_some]
      exact ⟨hmem, q', hq', htid'.trans (of_decide_eq_true htid)⟩
  | wait_ready hs hc hready =>
    rw [hs] at hwaits
    obtain ⟨hmem, q, hq, htid⟩ := hwaits
    cases hc.symm.trans hq
    obtain ⟨q', hq', htid', -, hrest⟩ := hlasts _ _ hmem hq (by simp [hs])
    cases hp.symm.trans hp'
    exact ⟨hmem, q', hq', htid'.trans htid, (hrest hready).1⟩
  | read_status hs hc =>
    rw [hs] at hwaits
    obtain ⟨hmem, q, hq, htid, hready⟩ := hwaits
    cases hc.symm.trans hq
    obtain ⟨q', hq', htid', -, hrest⟩ := hlasts _ _ hmem hq (by simp [hs])
    cases hp.symm.trans hp'
    exact ⟨hmem, q', hq', htid'.trans htid, hrest hready⟩
  | @remove _ _ _ child hs hc =>
    rw [hs] at hwaits
    obtain ⟨hmem, q, hq, htid, hready, hstatus⟩ := hwaits
    obtain rfl : q = child := Option.some.inj (hq.symm.trans hc)
    obtain ⟨q', hq', htid', hdeleted, hrest⟩ := hlasts _ _ hmem hq (by simp [hs])
    rw [update_procs, if_pos rfl, hp] at hp'
    cases hp'
    have hnote : .removed p.tid q.tid ∈ f'.notes := by
      rw [hnotes]
      exact List.mem_cons_self
    refine ⟨⟨fun v p'' hv => h.removed_step hstep hnote hq' htid' hv, fun v p'' tid' status' hv hs' => ?_⟩,
      htid ▸ hnote, q', hq', htid'.trans htid, (hrest hready).1, (hrest hready).2.trans hstatus, hdeleted⟩
    by_contra hvt
    obtain ⟨p₀, hp₀, halike⟩ | ⟨-, -, rfl⟩ := hstep.kept hvt hv
    · have hwaits := h.waits v p₀ hp₀
      rw [Waits, ← halike.point, hs'] at hwaits
      exact hwaits.1.unlisted t p hp hmem
    · cases hs'
  | release hs hc =>
    rw [hs] at hwaits
    obtain ⟨-, hnote, q, hq, htid, hready, hstatus, -⟩ := hwaits
    have hends := h.ends _ q hq
    obtain ⟨how, hended, hhow⟩ := hends.past (.inr (hends.ready.mp hready))
    simp only [hcont.tid, hnotes]
    refine ⟨⟨how, List.mem_append_right _ (htid ▸ hended), ?_⟩, List.mem_append_right _ hnote⟩
    exact hstatus.symm.trans hhow
  | @poll_load_finish tid hs hf => cases tid <;> trivial
  | @finish success _ hs hf => cases success <;> trivial
  | exec hs | judge hs | returns hs => simp only [hs]
  | die hs => exact absurd rfl hdie
  | _ => trivial

theorem Reaping.creator_step (h : f.Reaping) (hstep : f.Step t a f') (hmem : .created tid child ∈ f'.notes) :
    tid < f'.next_tid := by
  obtain ⟨p, f₁, point, notes, hp, hmove, rfl⟩ := hstep
  rw [hmove.step_notes] at hmem
  obtain hmem | hmem := List.mem_append.mp hmem
  · exact (hmove.created_mem hmem).2.1 ▸ Int.lt_of_lt_of_le (h.tid_lt hp) hmove.next_tid_le
  · exact Int.lt_of_lt_of_le (h.creator tid child hmem) hmove.next_tid_le

/-- Children keep their tids. -/
theorem Reaping.lists_step (h : f.Reaping) (hstep : f.Step t a f') (hq : f.procs u = some q) {l : List ThreadId}
    (hl : ∀ c ∈ l, c ∈ q.child_list) : f'.Lists l child ↔ f.Lists l child := by
  have hlasts : ∀ c ∈ l, ∃ q₁ q₂, f.procs c = some q₁ ∧ f'.procs c = some q₂ ∧ q₂.tid = q₁.tid := by
    intro c hc
    obtain ⟨q₁, hq₁, hdeleted⟩ := h.live hq (hl c hc)
    obtain ⟨q₂, hq₂, htid, -⟩ := h.lasts hstep hq₁ hdeleted fun p tid status hp hs => by
      have hwaits := h.waits t p hp
      rw [Waits, hs] at hwaits
      exact hwaits.1.unlisted u q hq (hl c hc)
    exact ⟨q₁, q₂, hq₁, hq₂, htid⟩
  constructor
  · rintro ⟨c, hc, q', hq', htid⟩
    obtain ⟨q₁, q₂, hq₁, hq₂, heq⟩ := hlasts c hc
    cases hq'.symm.trans hq₂
    exact ⟨c, hc, q₁, hq₁, heq.symm.trans htid⟩
  · rintro ⟨c, hc, q', hq', htid⟩
    obtain ⟨q₁, q₂, hq₁, hq₂, heq⟩ := hlasts c hc
    cases hq'.symm.trans hq₁
    exact ⟨c, hc, q₂, hq₂, heq.trans htid⟩

theorem Move.taking (hmove : f.Move t p a f₁ point notes) (hremove : a ≠ .remove) (hwaited : a ≠ .waited) :
    point.stage.taking = p.point.stage.taking := by
  cases hmove with
  | remove => exact absurd rfl hremove
  | waited => exact absurd rfl hwaited
  | fault hs | exits hs => obtain hs | hs := hs <;> rw [hs] <;> rfl
  | @find tid hs =>
    rw [hs]
    cases f.find_child p.child_list tid <;> rfl
  | @poll_load_finish tid hs hf =>
    rw [hs]
    cases tid <;> rfl
  | @finish success _ hs hf =>
    rw [hs]
    cases success <;> rfl
  | @loaded success hs =>
    rw [hs]
    cases success <;> rfl
  | die | exec | judge | returns => rfl
  | lock hs | unlock hs | create_none hs | create hs | free_copy hs | wait_ready hs | read_status hs | release hs
    | killed hs | fails hs | store_status hs | ready hs | poll_deleted hs | unload hs =>
    rw [hs]
    rfl

/-- The notes of others do not change what a process has to wait for. -/
theorem Reaping.awaits_other (h : f.Reaping) (hstep : f.Step t a f') (hut : u ≠ t) (hu : f'.procs u = some q') :
    awaitable q'.tid child f'.notes = true ↔ f'.Awaits q' child := by
  obtain ⟨p, f₁, point, notes, hp, hmove, heq⟩ := id hstep
  have hnotes : f'.notes = notes ++ f.notes := heq ▸ hmove.step_notes
  obtain ⟨q, hq, halike⟩ | ⟨-, -, rfl⟩ := hstep.kept hut hu
  · rw [halike.tid, hnotes, hmove.awaitable_of_ne fun htid => hut (h.tid_inj hq hp htid), h.awaits u q child hq]
    rw [Awaits, Awaits, halike.child_list, halike.point, h.lists_step hstep hq fun _ => id]
  · refine iff_of_false (fun hawait => ?_) ?_
    · have htid : (Proc.new f.next_tid t).tid ≠ p.tid := Int.ne_of_gt (h.tid_lt hp)
      rw [hnotes, hmove.awaitable_of_ne htid] at hawait
      exact absurd (h.creator _ _ (created_of_awaitable hawait)) (Int.lt_irrefl _)
    · rintro (⟨c, hc, -⟩ | htaking)
      · cases hc
      · cases htaking

/-- What a process has to wait for are its children and the one that it is about to have waited for. -/
theorem Reaping.awaits_self (h : f.Reaping) (hstep : f.Step t a f') (hu : f'.procs t = some q') :
    awaitable q'.tid child f'.notes = true ↔ f'.Awaits q' child := by
  obtain ⟨p, p', f₁, point, notes, hp, hmove, hp', rfl, hcont, hdie, heq⟩ := hstep.self hu
  have hnotes : f'.notes = notes ++ f.notes := heq ▸ hmove.step_notes
  have hold := h.awaits t p child hp
  have hwaits := h.waits t p hp
  have hlists : ∀ {l : List ThreadId}, (∀ c ∈ l, c ∈ p.child_list) → (f'.Lists l child ↔ f.Lists l child) :=
    fun hl => h.lists_step hstep hp hl
  rw [Awaits] at hold
  rw [Waits] at hwaits
  have htid : ({ p' with point } : Proc).tid = p.tid := hcont.tid
  rw [htid, hnotes]
  change _ ↔ f'.Lists p'.child_list child ∨ point.stage.taking = some child
  have hsame : a.lists = false → a ≠ .waited →
      (awaitable p.tid child (notes ++ f.notes) = true ↔
        f'.Lists p'.child_list child ∨ point.stage.taking = some child) := by
    intro ha hwaited
    rw [hmove.awaitable_same (fun heq => by simp [heq, Act.lists] at ha) hwaited, hold, hcont.child_list ha,
      hlists fun _ => id, hmove.taking (fun heq => by simp [heq, Act.lists] at ha) hwaited]
  cases hmove with
  | @create c hs he hc =>
    have hct : c ≠ t := fun heq => by
      rw [heq, hp] at hc
      cases hc
    have hnew : f'.procs c = some (.new f.next_tid t) := by
      rw [heq, note_procs, go_procs, if_neg hct, create_procs, if_pos rfl]
    have hlist : p'.child_list = p.child_list ++ [c] := by
      rw [create_procs, if_neg hct.symm, if_pos rfl, hp] at hp'
      cases hp'
      rfl
    rw [hs] at hold
    rw [List.cons_append, awaitable, awaitable_accessed, hlist, lists_append, lists_singleton hnew,
      hlists fun _ => id]
    split
    · rename_i hchild
      exact iff_of_true rfl (.inl (.inr hchild.2))
    · rename_i hchild
      have hother : (Proc.new f.next_tid t).tid ≠ child := fun hnext => hchild ⟨rfl, hnext⟩
      rw [hold, or_iff_left hother]
      rfl
  | @remove tid c status child' hs hc =>
    rw [hs] at hwaits
    obtain ⟨hmem, q, hq, htid, -⟩ := hwaits
    have hlist : p'.child_list = p.child_list.erase c := by
      rw [update_procs, if_pos rfl, hp] at hp'
      cases hp'
      rfl
    rw [List.cons_append, awaitable, awaitable_accessed, hold, hs, hlist,
      hlists fun _ => List.mem_of_mem_erase, lists_erase hmem hq, htid]
    · simp [Stage.taking]
    all_goals simp
  | @waited tid status hs =>
    cases hp.symm.trans hp'
    rw [List.singleton_append, awaitable, hlists fun _ => id]
    split
    · rename_i hchild
      refine iff_of_false Bool.false_ne_true ?_
      rintro (⟨c, hc, q, hq, htid⟩ | htaking)
      · obtain hs | ⟨hs, -⟩ := hs
        · rw [hs] at hwaits
          exact h.removed _ _ c q hwaits.2 hq (htid.trans hchild.2.symm) t p hp hc
        · rw [hs] at hwaits
          rw [← hchild.2, hwaits] at hold
          exact absurd (hold.mpr (.inl ⟨c, hc, q, hq, htid.trans hchild.2.symm⟩)) Bool.false_ne_true
      · cases htaking
    · rename_i hchild
      rw [hold]
      obtain hs | ⟨hs, -⟩ := hs <;> rw [hs] <;> simp_all [Stage.taking]
  | _ => exact hsame rfl (by simp)

/-- A process has not released the children in its list. -/
theorem Reaping.unreleased (h : f.Reaping) (hp : f.procs t = some p) :
    ∀ c ∈ p.child_list, ∀ q, f.procs c = some q → .released p.tid q.tid ∉ f.notes := by
  intro c hc q hq hmem
  obtain ⟨q', hq', hdeleted⟩ := h.live hp hc
  cases hq.symm.trans hq'
  cases (h.released p.tid q.tid c q hmem hq rfl).symm.trans hdeleted

/-- The notes of a move fit those before. -/
theorem Reaping.proper_step (h : f.Reaping) (hstep : f.Step t a f') : Proper Ending.Leaves f'.notes := by
  obtain ⟨p, f₁, point, notes, hp, hmove, rfl⟩ := hstep
  rw [hmove.step_notes]
  have hwaits := h.waits t p hp
  have hreleased := h.unreleased hp
  have hends := h.ends t p hp
  rw [Waits] at hwaits
  cases hmove with
  | find hs => exact h.proper.accessed hreleased
  | create hs he hc => exact ⟨trivial, h.proper.accessed hreleased⟩
  | wait_ready hs hc hready =>
    rw [hs] at hwaits
    exact ⟨hreleased _ hwaits.1 _ hc, h.proper⟩
  | read_status hs hc =>
    rw [hs] at hwaits
    exact ⟨hreleased _ hwaits.1 _ hc, h.proper⟩
  | @remove _ c _ q hs hc =>
    rw [hs] at hwaits
    refine ⟨fun tid hmem => ?_, h.proper.accessed hreleased⟩
    obtain hmem | hmem := List.mem_append.mp hmem
    · obtain ⟨_, _, _, _, heq⟩ := mem_accessed.mp hmem
      cases heq
    · exact h.removed tid q.tid c q hmem hc rfl t p hp hwaits.1
  | @release _ c _ q hs hc =>
    rw [hs] at hwaits
    obtain ⟨-, -, q', hq', -, -, -, hdeleted⟩ := hwaits
    cases hc.symm.trans hq'
    refine ⟨trivial, fun hmem => ?_, h.proper⟩
    cases (h.released p.tid q.tid c q hmem hc rfl).symm.trans hdeleted
  | @waited tid status hs =>
    refine ⟨(?_ : Note.Fits Ending.Leaves f.notes _), h.proper⟩
    rw [Note.Fits]
    obtain hs | ⟨hs, rfl⟩ := hs
    · rw [hs] at hwaits
      rw [if_pos ((h.awaits t p tid hp).mpr (.inr (congrArg Stage.taking hs)))]
      exact hwaits
    · rw [hs] at hwaits
      simp [hwaits]
  | exits hs => exact ⟨(hends.alive (by obtain hs | hs := hs <;> rw [hs] <;> rfl)).2, h.proper⟩
  | killed hs | fails hs => exact ⟨(hends.alive (by rw [hs]; rfl)).2, h.proper⟩
  | loaded hs | exec hs he | returns hs he => exact ⟨trivial, h.proper⟩
  | _ => exact h.proper

theorem Reaping.step (h : f.Reaping) (hstep : f.Step t a f') : f'.Reaping where
  kinship := h.kinship_step hstep
  creator _ _ hmem := h.creator_step hstep hmem
  subject := h.subject_step hstep
  ends _ _ hu := h.ends_step hstep hu
  released _ _ _ _ hmem hu htid := h.released_step hstep hmem hu htid
  removed _ _ _ _ hmem hu htid _ _ hv := h.removed_step hstep hmem hu htid hv
  waits u q' hu := by
    by_cases hut : u = t
    · subst hut
      exact h.waits_self hstep hu
    · exact h.waits_other hstep hut hu
  awaits u q' child hu := by
    by_cases hut : u = t
    · exact h.awaits_self hstep (hut ▸ hu)
    · exact h.awaits_other hstep hut hu
  proper := h.proper_step hstep

theorem Boot.procs (h : f.Boot) : ∃ main idle, main ≠ idle ∧ f.next_tid = 3 ∧
    f.notes = [.created 1 2, .created 1 1] ∧
    f.procs main = some (.main main idle) ∧ f.procs idle = some (.idle main) ∧
    ∀ t p, f.procs t = some p → t = main ∧ p = .main main idle ∨ t = idle ∧ p = .idle main := by
  obtain ⟨main, idle, hne, rfl⟩ := h
  refine ⟨main, idle, hne, rfl, rfl, ?_, ?_, fun t p hp => ?_⟩
  · simp [World.family, World.boot, Proc.main, Thread.proc, Thread.new, Proc.new, History.boot]
  · simp [World.family, World.boot, Proc.idle, Thread.proc, Thread.new, Proc.new, History.boot, hne.symm]
  simp only [World.family, World.boot, History.boot, Option.map_eq_some_iff] at hp
  obtain ⟨th, hth, rfl⟩ := hp
  split at hth
  · cases hth
    exact .inl ⟨‹_›, rfl⟩
  · split at hth
    · cases hth
      exact .inr ⟨‹_›, rfl⟩
    · cases hth

theorem Boot.kinship (h : f.Boot) : Kinship f.kin f.next_tid := by
  obtain ⟨main, idle, hne, hnext, -, hmain, hidle, hprocs⟩ := h.procs
  have hkin : ∀ t k, f.kin t = some k → t = main ∧ k = (Proc.main main idle).kin ∨ t = idle ∧
      k = (Proc.idle main).kin := by
    intro t k hk
    obtain ⟨p, hp, rfl⟩ := Option.map_eq_some_iff.mp hk
    obtain ⟨rfl, rfl⟩ | ⟨rfl, rfl⟩ := hprocs t p hp
    · exact .inl ⟨rfl, rfl⟩
    · exact .inr ⟨rfl, rfl⟩
  rw [hnext]
  refine ⟨fun {t k} hk => ?_, fun {t u k k'} hk hk' htids => ?_, fun {t k c} hk hc => ?_, fun {t k} hk => ?_,
    fun {t u k k' c} hk hk' hc hc' => ?_⟩
  · obtain ⟨-, rfl⟩ | ⟨-, rfl⟩ := hkin t k hk
    · exact (by decide : (1 : Int) < 3)
    · exact (by decide : (2 : Int) < 3)
  · obtain ⟨rfl, rfl⟩ | ⟨rfl, rfl⟩ := hkin t k hk <;> obtain ⟨rfl, rfl⟩ | ⟨rfl, rfl⟩ := hkin u k' hk'
    · rfl
    · cases htids
    · cases htids
    · rfl
  · obtain ⟨rfl, rfl⟩ | ⟨rfl, rfl⟩ := hkin t k hk
    · obtain rfl | hc := List.mem_cons.mp hc
      · exact ⟨_, kin_some hmain, rfl⟩
      · rw [List.mem_singleton.mp hc]
        exact ⟨_, kin_some hidle, rfl⟩
    · cases hc
  · obtain ⟨-, rfl⟩ | ⟨-, rfl⟩ := hkin t k hk
    · simp [Proc.main, Proc.kin, hne]
    · exact List.nodup_nil
  · obtain ⟨rfl, rfl⟩ | ⟨rfl, rfl⟩ := hkin t k hk
    · obtain ⟨rfl, -⟩ | ⟨rfl, rfl⟩ := hkin u k' hk'
      · rfl
      · cases hc'
    · cases hc

theorem Boot.reaping (h : f.Boot) : f.Reaping := by
  obtain ⟨main, idle, hne, hnext, hnotes, hmain, hidle, hprocs⟩ := h.procs
  have hended : ∀ tid how, .ended tid how ∉ f.notes := by simp [hnotes]
  refine ⟨h.kinship, fun tid child hmem => ?_, fun n hmem child hsubject => ?_, fun t p hp => ?_, ?_,
    ?_, fun t p hp => ?_,
    fun t p child hp => ?_, ?_⟩
  · rw [hnotes] at hmem
    rw [hnext]
    simp only [List.mem_cons, Note.created.injEq, List.not_mem_nil, or_false] at hmem
    omega
  · rw [hnotes] at hmem
    rw [hnext]
    simp only [List.mem_cons, List.not_mem_nil, or_false] at hmem
    obtain rfl | rfl := hmem <;> cases hsubject <;> decide
  · obtain ⟨rfl, rfl⟩ | ⟨rfl, rfl⟩ := hprocs t p hp
    all_goals
      refine ⟨?_, ?_, ?_, ?_, fun _ => ⟨rfl, hended _⟩⟩ <;> simp [Proc.main, Proc.idle, Proc.new]
  · simp [hnotes]
  · simp [hnotes]
  · obtain ⟨rfl, rfl⟩ | ⟨rfl, rfl⟩ := hprocs t p hp <;> trivial
  · rw [hnotes]
    obtain ⟨rfl, rfl⟩ | ⟨rfl, rfl⟩ := hprocs t p hp
    · have hlists : f.Lists [t, idle] child ↔ 1 = child ∨ 2 = child := by
        simp [Lists, hmain, hidle, Proc.main, Proc.idle, Proc.new]
      refine Iff.trans ?_ (hlists.symm.trans (or_iff_left (by simp [Proc.main, Stage.taking])).symm)
      simp [awaitable, Proc.main, Proc.new, or_comm]
    · refine iff_of_false (by simp [awaitable, Proc.idle, Proc.new]) ?_
      rintro (⟨c, hc, -⟩ | htaking)
      · cases hc
      · cases htaking
  · rw [hnotes]
    exact ⟨trivial, trivial, trivial⟩

end Family

end pintos.prj2
