import Pintos.Prj2.LoadFinish

/-!
# What `exec` returns

The first call of `exec` that makes a process waits for its load, and returns what has become of it. The
flags of the parent are never reset: later calls neither wait nor can succeed after a load that has failed.
-/

open interaction Prog transition

namespace pintos.prj2

/-- The process that the last call of `exec` has made. -/
def exec_child (tid : Int) : List Note → Option Int
  | [] => none
  | .exec_called tid' :: ns => if tid' = tid then none else exec_child tid ns
  | .created tid' child :: ns => if tid' = tid then some child else exec_child tid ns
  | _ :: ns => exec_child tid ns

/-- The load of a process is done, with the result. -/
def Loaded (ns : List Note) (tid : Int) (success : Bool) : Prop := ∀ b, .loaded tid b ∈ ns ↔ b = success

/-- The call of `exec` may return: the load of the process that it has made is done, and its `tid` or -1
is returned for it. -/
def Result (ns : List Note) (tid res : Int) : Prop :=
  match exec_child tid ns with
  | none => res = -1
  | some child => ∃ success, Loaded ns child success ∧ res = if success then child else -1

/-- Every call of `exec` that has returned. -/
def Answered : List Note → Prop
  | [] => True
  | .exec_returned tid res :: ns => Result ns tid res ∧ Answered ns
  | _ :: ns => Answered ns

variable {f f' f₁ : Family} {t u v c : ThreadId} {p p' q q' : Proc} {a : Act} {point : Point}
  {ns notes : List Note}
  {tid child : Int} {success : Bool}

theorem exec_child_accessed (l : List ThreadId) :
    exec_child tid (f.accessed p l ++ ns) = exec_child tid ns := by
  induction l with
  | nil => rfl
  | cons c l ih =>
    rw [Family.accessed, List.filterMap_cons]
    cases f.procs c with
    | none => exact ih
    | some q => exact ih

theorem answered_accessed (l : List ThreadId) : Answered (f.accessed p l ++ ns) ↔ Answered ns := by
  induction l with
  | nil => rfl
  | cons c l ih =>
    rw [Family.accessed, List.filterMap_cons]
    cases f.procs c with
    | none => exact ih
    | some q => exact ih

namespace Family

theorem Move.loaded_mem (hmove : f.Move t p a f₁ point notes) (hmem : .loaded tid success ∈ notes) :
    tid = p.tid ∧ a = .loaded success := by
  cases hmove with
  | find hs =>
    obtain ⟨_, _, _, _, heq⟩ := mem_accessed.mp hmem
    cases heq
  | create | remove =>
    obtain heq | hmem := List.mem_cons.mp hmem
    · cases heq
    · obtain ⟨_, _, _, _, heq⟩ := mem_accessed.mp hmem
      cases heq
  | _ => simp_all

/-- Children of a process are created by the process itself, in its own calls. -/
theorem Move.exec_child_of_ne (hmove : f.Move t p a f₁ point notes) (hne : tid ≠ p.tid) :
    exec_child tid (notes ++ ns) = exec_child tid ns := by
  cases hmove with
  | find hs => exact exec_child_accessed _
  | create hs he hc =>
    rw [List.cons_append, exec_child, if_neg hne.symm]
    exact exec_child_accessed _
  | remove hs hc =>
    rw [List.cons_append, exec_child]
    · exact exec_child_accessed _
    all_goals simp
  | exec hs => exact if_neg hne.symm
  | _ => rfl

theorem Move.exec_child_same (hmove : f.Move t p a f₁ point notes) (hcreate : a ≠ .create (some f.next_tid))
    (hexec : a ≠ .exec) : exec_child tid (notes ++ ns) = exec_child tid ns := by
  cases hmove with
  | find hs => exact exec_child_accessed _
  | create hs he hc => exact absurd rfl hcreate
  | remove hs hc =>
    rw [List.cons_append, exec_child]
    · exact exec_child_accessed _
    all_goals simp
  | exec hs => exact absurd rfl hexec
  | _ => rfl

/-- What a move does to the flags. -/
theorem Move.flags (hmove : f.Move t p a f₁ point notes) (hp : f.procs t = some p) (hq : f.procs u = some q)
    (hq' : f₁.procs u = some q') :
    (q'.load_finish = true ↔ q.load_finish = true ∨ a = .finish ∧ u = p.parent) ∧
      (q'.child_load_success = false ↔ q.child_load_success = false ∨ a = .unload ∧ u = p.parent) := by
  have hsame : a ≠ .finish → a ≠ .unload → q'.load_finish = q.load_finish →
      q'.child_load_success = q.child_load_success →
      (q'.load_finish = true ↔ q.load_finish = true ∨ a = .finish ∧ u = p.parent) ∧
        (q'.child_load_success = false ↔ q.child_load_success = false ∨ a = .unload ∧ u = p.parent) := by
    intro hfinish hunload hflag hresult
    rw [hflag, hresult]
    exact ⟨(or_iff_left fun h => hfinish h.1).symm, (or_iff_left fun h => hunload h.1).symm⟩
  cases hmove with
  | create hs he hc =>
    rw [create_procs, if_neg] at hq'
    · split at hq'
      · rename_i heq
        rw [← heq, hq] at hq'
        cases hq'
        exact hsame nofun nofun rfl rfl
      · cases hq.symm.trans hq'
        exact hsame nofun nofun rfl rfl
    · rintro rfl
      rw [hc] at hq
      cases hq
  | release | remove | store_status | ready =>
    rw [update_procs] at hq'
    split at hq'
    · rename_i heq
      rw [← heq, hq] at hq'
      cases hq'
      exact hsame nofun nofun rfl rfl
    · cases hq.symm.trans hq'
      exact hsame nofun nofun rfl rfl
  | unload hs hparent =>
    rw [update_procs] at hq'
    split at hq'
    · rename_i heq
      rw [← heq, hq] at hq'
      cases hq'
      simp [heq]
    · rename_i heq
      cases hq.symm.trans hq'
      simp [heq]
  | finish hs hparent =>
    rw [update_procs] at hq'
    split at hq'
    · rename_i heq
      rw [← heq, hq] at hq'
      cases hq'
      simp [heq]
    · rename_i heq
      cases hq.symm.trans hq'
      simp [heq]
  | die hs =>
    by_cases hut : u = t
    · subst hut
      have hnone : Function.update f.procs u none u = none := Function.update_self _ _ _
      cases hnone.symm.trans hq'
    · have hsome : Function.update f.procs t none u = some q := (Function.update_of_ne hut _ _).trans hq
      cases hsome.symm.trans hq'
      exact hsame nofun nofun rfl rfl
  | _ =>
    cases hq.symm.trans hq'
    exact hsame nofun nofun rfl rfl

theorem Step.flags (hstep : f.Step t a f') (hp : f.procs t = some p) (hq : f.procs u = some q)
    (hq' : f'.procs u = some q') :
    (q'.load_finish = true ↔ q.load_finish = true ∨ a = .finish ∧ u = p.parent) ∧
      (q'.child_load_success = false ↔ q.child_load_success = false ∨ a = .unload ∧ u = p.parent) := by
  obtain ⟨p₁, f₁, point, notes, hp₁, hmove, rfl⟩ := hstep
  cases hp.symm.trans hp₁
  rw [note_procs, go_procs] at hq'
  split at hq'
  · rename_i heq
    obtain ⟨q₁, hq₁, rfl⟩ := Option.map_eq_some_iff.mp hq'
    have hflags := hmove.flags hp hq (heq ▸ hq₁)
    exact hflags
  · exact hmove.flags hp hq hq'

/-- The load of a process fails, and its parent has been told so. -/
def Fails (q : Proc) : Prop := q.point.stage = .unloaded ∨ q.point.stage = .loaded false

/-- What a process in a call of `exec` knows. -/
def Calls (f : Family) (p : Proc) : Prop :=
  match p.point.exec with
  | .idle => True
  | .called => exec_child p.tid f.notes = none
  | .made none => exec_child p.tid f.notes = none
  | .made (some child) => exec_child p.tid f.notes = some child ∧
      (p.load_finish = false → p.point.stage = .created (some child)) ∧
      (p.load_finish = true → Loaded f.notes child p.child_load_success)
  | .judged res => Result f.notes p.tid res

/-- The calls of `exec` work: a process in its load has a parent that waits for it alone. -/
structure Execs (f : Family) : Prop where
  loaded_lt : ∀ tid success, .loaded tid success ∈ f.notes → tid < f.next_tid
  waits : ∀ c q, f.procs c = some q → q.point.stage.loads = true →
    ∃ p, f.procs q.parent = some p ∧ p.point.stage = .created (some q.tid) ∧ p.load_finish = false
  fails : ∀ c q, f.procs c = some q → Fails q → ∀ p, f.procs q.parent = some p → p.child_load_success = false
  succeeds : ∀ t p, f.procs t = some p → p.load_finish = false → p.child_load_success = false →
    ∃ c q, f.procs c = some q ∧ q.parent = t ∧ Fails q
  unnoted : ∀ c q, f.procs c = some q → q.point.stage = .loading ∨ q.point.stage = .unloaded →
    ∀ success, .loaded q.tid success ∉ f.notes
  noted : ∀ c q success, f.procs c = some q → q.point.stage = .loaded success → Loaded f.notes q.tid success
  calls : ∀ t p, f.procs t = some p → f.Calls p
  answered : Answered f.notes

/-- A thread is made only while `load_finish` is not set. -/
def MakesOne (f : Family) (t : ThreadId) (a : Act) : Prop :=
  a = .create (some f.next_tid) → ∀ p, f.procs t = some p → p.load_finish = false

theorem Move.to_loads (hmove : f.Move t p a f₁ point notes) (ha : a ≠ .die) (hs : point.stage.loads = true) :
    (a = .unload ∧ p.point.stage = .loading ∧ point.stage = .unloaded) ∨
      ∃ success, a = .loaded success ∧ point.stage = .loaded success ∧
        p.point.stage = if success then .loading else .unloaded := by
  cases hmove with
  | unload hs' => exact .inl ⟨rfl, hs', rfl⟩
  | @loaded success hs' => exact .inr ⟨success, rfl, rfl, hs'⟩
  | die => exact absurd rfl ha
  | @find tid hs' =>
    simp only at hs
    cases hfound : f.find_child p.child_list tid <;> rw [hfound] at hs <;> cases hs
  | @poll_load_finish tid hs' hf => cases tid <;> cases hs
  | @finish success _ hs' hf => cases success <;> cases hs
  | exec hs' | judge hs' | returns hs' =>
    simp only [hs'] at hs
    cases hs
  | _ => cases hs

/-- A process that has made a thread polls until it is told. -/
theorem Move.of_created {tid : Option Int} (hmove : f.Move t p a f₁ point notes)
    (hs : p.point.stage = .created tid) : a = .poll_load_finish ∧ p.load_finish = true := by
  cases hmove with
  | poll_load_finish hs' hf => exact ⟨rfl, hf⟩
  | @loaded success hs' => cases success <;> cases hs.symm.trans hs'
  | fault hs' | exits hs' => obtain hs' | hs' := hs' <;> cases hs.symm.trans hs'
  | waited hs' => obtain hs' | ⟨hs', -⟩ := hs' <;> cases hs.symm.trans hs'
  | die hs' | lock hs' | unlock hs' | create_none hs' | create hs' | free_copy hs' | find hs' | wait_ready hs'
    | read_status hs' | remove hs' | release hs' | killed hs' | fails hs' | store_status hs' | ready hs'
    | poll_deleted hs' | unload hs' | finish hs' | exec hs' | judge hs' | returns hs' => cases hs.symm.trans hs'

/-- Two processes in their loads have different parents. -/
theorem Execs.alone (h : f.Execs) (hr : f.Reaping) (hp : f.procs t = some p) (hq : f.procs u = some q)
    (hloads : p.point.stage.loads = true) (hloads' : q.point.stage.loads = true)
    (hparent : p.parent = q.parent) :
    t = u := by
  obtain ⟨pp, hpp, hs, -⟩ := h.waits t p hp hloads
  obtain ⟨qq, hqq, hs', -⟩ := h.waits u q hq hloads'
  rw [hparent, hqq] at hpp
  cases hpp
  exact hr.tid_inj hp hq (by simpa using hs.symm.trans hs')

theorem Execs.loaded_lt_step (h : f.Execs) (hr : f.Reaping) (hstep : f.Step t a f')
    (hmem : .loaded tid success ∈ f'.notes) : tid < f'.next_tid := by
  obtain ⟨p, f₁, point, notes, hp, hmove, rfl⟩ := hstep
  rw [hmove.step_notes] at hmem
  obtain hmem | hmem := List.mem_append.mp hmem
  · exact (hmove.loaded_mem hmem).1 ▸ Int.lt_of_lt_of_le (hr.tid_lt hp) hmove.next_tid_le
  · exact Int.lt_of_lt_of_le (h.loaded_lt tid success hmem) hmove.next_tid_le

theorem Fails.loads (h : Fails q) : q.point.stage.loads = true := by
  obtain hs | hs := h <;> rw [hs] <;> rfl

theorem Execs.waits_step (h : f.Execs) (hr : f.Reaping) (hstep : f.Step t a f') (hone : f.MakesOne t a)
    (hu : f'.procs u = some q') (hloads : q'.point.stage.loads = true) :
    ∃ p, f'.procs q'.parent = some p ∧ p.point.stage = .created (some q'.tid) ∧ p.load_finish = false := by
  obtain ⟨p, f₁, point, notes, hp, hmove, heq⟩ := id hstep
  -- a parent that waits is not the process that moves, and goes on to wait unless it is told
  have hparent : ∀ v pv x, f.procs v = some pv → pv.point.stage = .created (some x) → pv.load_finish = false →
      ¬ (a = .finish ∧ v = p.parent) →
      ∃ p, f'.procs v = some p ∧ p.point.stage = .created (some x) ∧ p.load_finish = false := by
    intro v pv x hpv hs hflag hnot
    have hvt : v ≠ t := fun hvt => by
      rw [hvt, hp] at hpv
      cases hpv
      cases (hmove.of_created hs).2.symm.trans hflag
    obtain ⟨pv', hpv', halike⟩ := hstep.keeps hvt hpv
    refine ⟨pv', hpv', halike.point ▸ hs, Bool.eq_false_iff.mpr fun hset => ?_⟩
    obtain hset | hfinish := (hstep.flags hp hpv hpv').1.mp hset
    · cases hset.symm.trans hflag
    · exact hnot hfinish
  by_cases hut : u = t
  · subst hut
    obtain ⟨p₁, p', f₂, point', notes', hp₁, hmove', hp', rfl, hcont, hdie, -⟩ := hstep.self hu
    cases hp.symm.trans hp₁
    have hold : p.point.stage.loads = true ∧ a ≠ .finish := by
      obtain ⟨rfl, hs, -⟩ | ⟨success, rfl, -, hs⟩ := hmove'.to_loads hdie hloads
      · exact ⟨by rw [hs]; rfl, nofun⟩
      · exact ⟨by rw [hs]; cases success <;> rfl, nofun⟩
    obtain ⟨pv, hpv, hs, hflag⟩ := h.waits u p hp hold.1
    have htid : ({ p' with point := point' } : Proc).tid = p.tid := hcont.tid
    have hpar : ({ p' with point := point' } : Proc).parent = p.parent := hcont.parent
    rw [htid, hpar]
    exact hparent _ pv _ hpv hs hflag fun hfinish => hold.2 hfinish.1
  · obtain ⟨q, hq, halike⟩ | ⟨hnone, ha, rfl⟩ := hstep.kept hut hu
    · have hqloads : q.point.stage.loads = true := halike.point ▸ hloads
      obtain ⟨pv, hpv, hs, hflag⟩ := h.waits u q hq hqloads
      rw [halike.parent, halike.tid]
      refine hparent _ pv _ hpv hs hflag fun ⟨hfinish, hpar⟩ => ?_
      subst hfinish
      cases hmove with
      | finish hs' hparent' => exact hut (h.alone hr hq hp hqloads (by rw [hs']; rfl) hpar)
    · obtain ⟨p', hp', hmem, -⟩ := hstep.created hnone hu
      subst ha
      refine ⟨p', hp', ?_, Bool.eq_false_iff.mpr fun hset => ?_⟩
      · obtain ⟨p₁, p₂, f₂, point', notes', -, hmove', -, rfl, -, -, -⟩ := hstep.self hp'
        cases hmove'
        rfl
      · obtain hset | ⟨hfinish, -⟩ := (hstep.flags hp hp hp').1.mp hset
        · cases hset.symm.trans (hone rfl p hp)
        · cases hfinish

/-- What a failed load has told the parent stays true. -/
theorem Execs.fails_step (h : f.Execs) (hstep : f.Step t a f') (hu : f'.procs u = some q') (hfails : Fails q')
    (hv : f'.procs q'.parent = some p') : p'.child_load_success = false := by
  obtain ⟨p, f₁, point, notes, hp, hmove, heq⟩ := id hstep
  have hkeeps : ∀ v pv, f.procs v = some pv → pv.child_load_success = false → f'.procs v = some p' →
      p'.child_load_success = false := fun v pv hpv hfalse hv => (hstep.flags hp hpv hv).2.mpr (.inl hfalse)
  by_cases hut : u = t
  · subst hut
    obtain ⟨p₁, p₂, f₂, point', notes', hp₁, hmove', hp', rfl, hcont, hdie, -⟩ := hstep.self hu
    cases hp.symm.trans hp₁
    have hpar : f'.procs p.parent = some p' := hcont.parent ▸ hv
    have hloads : p.point.stage.loads = true := by
      obtain ⟨-, hs, -⟩ | ⟨success, -, -, hs⟩ := hmove'.to_loads hdie hfails.loads
      · rw [hs]
        rfl
      · rw [hs]
        cases success <;> rfl
    obtain ⟨pv, hpv, -⟩ := h.waits u p hp hloads
    obtain ⟨rfl, -, -⟩ | ⟨success, rfl, hs', hs⟩ := hmove'.to_loads hdie hfails.loads
    · exact (hstep.flags hp hpv hpar).2.mpr (.inr ⟨rfl, rfl⟩)
    · cases success with
      | false => exact hkeeps _ pv hpv (h.fails u p hp (.inl hs) pv hpv) hpar
      | true => obtain hs'' | hs'' := hfails <;> cases hs'.symm.trans hs''
  · obtain ⟨q, hq, halike⟩ | ⟨-, -, rfl⟩ := hstep.kept hut hu
    · have hfails' : Fails q := by rwa [Fails, ← halike.point]
      obtain ⟨pv, hpv, -⟩ := h.waits u q hq hfails'.loads
      exact hkeeps _ pv hpv (h.fails u q hq hfails' pv hpv) (halike.parent ▸ hv)
    · obtain hs | hs := hfails <;> cases hs

/-- A process that knows of a failed load, but not of the end of one, has a child with such a load. -/
theorem Execs.succeeds_step (h : f.Execs) (hstep : f.Step t a f') (hu : f'.procs u = some q')
    (hflag : q'.load_finish = false) (hfalse : q'.child_load_success = false) :
    ∃ c q, f'.procs c = some q ∧ q.parent = u ∧ Fails q := by
  obtain ⟨p, f₁, point, notes, hp, hmove, heq⟩ := id hstep
  obtain ⟨q, hq, -⟩ | ⟨-, -, rfl⟩ := hstep.earlier hu
  swap
  · cases hfalse
  obtain ⟨hfinish, hresult⟩ := hstep.flags hp hq hu
  have hflag' : q.load_finish = false := Bool.eq_false_iff.mpr fun hset => by
    cases (hfinish.mpr (.inl hset)).symm.trans hflag
  -- the process that moves stays, and keeps its parent
  have hself : a ≠ .die → ∃ q, f'.procs t = some q ∧ q.parent = p.parent ∧ q.point = point := by
    intro hdie
    cases hp' : f₁.procs t with
    | none => exact absurd (hmove.gone hp hp').1 hdie
    | some p' =>
      refine ⟨{ p' with point }, ?_, (hmove.continues hp hp').parent, rfl⟩
      rw [heq, note_procs, go_procs, if_pos rfl, hp']
      rfl
  obtain hfalse' | ⟨rfl, hpar⟩ := hresult.mp hfalse
  · obtain ⟨c, qc, hqc, hpar, hfails⟩ := h.succeeds u q hq hflag' hfalse'
    by_cases hct : c = t
    · subst hct
      cases hp.symm.trans hqc
      obtain hs | ⟨status, -, hs⟩ | rfl := hmove.of_loads hfails.loads
      · have hdie : a ≠ .die := by
          rintro rfl
          cases hmove with
          | die hs' => obtain hs | hs := hfails <;> cases hs.symm.trans hs'
        obtain ⟨q₁, hq₁, hpar₁, hpoint₁⟩ := hself hdie
        refine ⟨c, q₁, hq₁, hpar₁.trans hpar, .inr ?_⟩
        rw [hpoint₁]
        obtain ⟨-, hs', -⟩ | ⟨success, -, hs', hs''⟩ := hmove.to_loads hdie hs
        · obtain hs | hs := hfails <;> cases hs.symm.trans hs'
        · cases success with
          | false => exact hs'
          | true => obtain hs | hs := hfails <;> cases hs.symm.trans hs''
      · obtain hs' | hs' := hfails <;> cases hs.symm.trans hs'
      · cases (hfinish.mpr (.inr ⟨rfl, hpar.symm⟩)).symm.trans hflag
    · obtain ⟨qc', hqc', halike⟩ := hstep.keeps hct hqc
      exact ⟨c, qc', hqc', halike.parent.trans hpar, by rwa [Fails, halike.point]⟩
  · obtain ⟨q₁, hq₁, hpar₁, hpoint₁⟩ := hself nofun
    refine ⟨t, q₁, hq₁, hpar₁.trans hpar.symm, .inl ?_⟩
    cases hmove
    rw [hpoint₁]

/-- A process has no note of its load before the load is done. -/
theorem Execs.unnoted_step (h : f.Execs) (hr : f.Reaping) (hstep : f.Step t a f') (hu : f'.procs u = some q')
    (hs : q'.point.stage = .loading ∨ q'.point.stage = .unloaded) : .loaded q'.tid success ∉ f'.notes := by
  obtain ⟨p, f₁, point, notes, hp, hmove, heq⟩ := id hstep
  have hnotes : f'.notes = notes ++ f.notes := heq ▸ hmove.step_notes
  rw [hnotes]
  intro hmem
  by_cases hut : u = t
  · subst hut
    obtain ⟨p₁, p₂, f₂, point', notes', hp₁, hmove', hp', rfl, hcont, hdie, -⟩ := hstep.self hu
    cases hp.symm.trans hp₁
    have hloads : point'.stage.loads = true := by obtain hs | hs := hs <;> rw [hs] <;> rfl
    obtain ⟨rfl, hs', -⟩ | ⟨success, rfl, hs', -⟩ := hmove'.to_loads hdie hloads
    · obtain hmem | hmem := List.mem_append.mp hmem
      · cases (hmove.loaded_mem hmem).2
      · exact h.unnoted u p hp (.inl hs') _ (hcont.tid ▸ hmem)
    · obtain hs | hs := hs <;> cases hs.symm.trans hs'
  · obtain ⟨q, hq, halike⟩ | ⟨-, rfl, rfl⟩ := hstep.kept hut hu
    · rw [halike.tid] at hmem
      obtain hmem | hmem := List.mem_append.mp hmem
      · exact hut (hr.tid_inj hq hp (hmove.loaded_mem hmem).1)
      · exact h.unnoted u q hq (halike.point ▸ hs) _ hmem
    · obtain hmem | hmem := List.mem_append.mp hmem
      · cases (hmove.loaded_mem hmem).2
      · exact absurd (h.loaded_lt _ _ hmem) (Int.lt_irrefl _)

/-- The result of a load stays. -/
theorem Execs.loaded_same (h : f.Execs) (hmove : f.Move t p a f₁ point notes) (hp : f.procs t = some p)
    (hloaded : Loaded f.notes tid success) : Loaded (notes ++ f.notes) tid success := by
  intro b
  rw [List.mem_append, hloaded b]
  refine or_iff_right_of_imp fun hmem => ?_
  obtain ⟨rfl, rfl⟩ := hmove.loaded_mem hmem
  cases hmove with
  | loaded hs =>
    refine absurd ((hloaded success).mpr rfl) (h.unnoted t p hp ?_ success)
    cases b with
    | false => exact .inr hs
    | true => exact .inl hs

theorem Execs.noted_step (h : f.Execs) (hstep : f.Step t a f') (hu : f'.procs u = some q')
    (hs : q'.point.stage = .loaded success) : Loaded f'.notes q'.tid success := by
  obtain ⟨p, f₁, point, notes, hp, hmove, heq⟩ := id hstep
  have hnotes : f'.notes = notes ++ f.notes := heq ▸ hmove.step_notes
  rw [hnotes]
  by_cases hut : u = t
  · subst hut
    obtain ⟨p₁, p₂, f₂, point', notes', hp₁, hmove', hp', rfl, hcont, hdie, heq'⟩ := hstep.self hu
    cases hp.symm.trans hp₁
    have hloads : point'.stage.loads = true := by
      rw [hs]
      rfl
    have htid : ({ p₂ with point := point' } : Proc).tid = p.tid := hcont.tid
    rw [htid]
    obtain ⟨-, -, hs'⟩ | ⟨success', rfl, hs', hs''⟩ := hmove'.to_loads hdie hloads
    · cases hs.symm.trans hs'
    · cases hs.symm.trans hs'
      have hold : ∀ b, .loaded p.tid b ∉ f.notes := h.unnoted u p hp (by
        cases success with
        | false => exact .inr hs''
        | true => exact .inl hs'')
      cases hmove with
      | loaded => simp [Loaded, hold]
  · obtain ⟨q, hq, halike⟩ | ⟨-, -, rfl⟩ := hstep.kept hut hu
    · rw [halike.tid]
      exact h.loaded_same hmove hp (h.noted u q success hq (halike.point ▸ hs))
    · cases hs

/-- A process that is told of the end of a load is told of the one that it waits for. -/
theorem Execs.told_step (h : f.Execs) (hr : f.Reaping) (hstep : f.Step t a f') (hq : f.procs u = some q)
    (hu : f'.procs u = some q') (hwaits : q.load_finish = false → q.point.stage = .created (some child))
    (htold : q.load_finish = true → Loaded f.notes child q.child_load_success) (hset : q'.load_finish = true) :
    Loaded f'.notes child q'.child_load_success := by
  obtain ⟨p, f₁, point, notes, hp, hmove, heq⟩ := id hstep
  have hnotes : f'.notes = notes ++ f.notes := heq ▸ hmove.step_notes
  obtain ⟨hfinish, hresult⟩ := hstep.flags hp hq hu
  have hsame : ¬ (a = .unload ∧ u = p.parent) → q'.child_load_success = q.child_load_success := by
    intro hnot
    rw [or_iff_left hnot] at hresult
    cases hc : q.child_load_success with
    | false => exact hresult.mpr hc
    | true => exact Bool.eq_true_of_not_eq_false fun hfalse =>
        Bool.false_ne_true ((hresult.mp hfalse).symm.trans hc)
  rw [hnotes]
  obtain hset | ⟨rfl, hpar⟩ := hfinish.mp hset
  · rw [hsame]
    · exact h.loaded_same hmove hp (htold hset)
    · rintro ⟨rfl, hpar⟩
      cases hmove with
      | unload hs hparent =>
        obtain ⟨pv, hpv, -, hflag⟩ := h.waits t p hp (by rw [hs]; rfl)
        cases hq.symm.trans (hpar ▸ hpv)
        cases hset.symm.trans hflag
  · rw [hsame nofun]
    have hloaded : ∃ success, p.point.stage = .loaded success := by
      cases hmove with
      | finish hs hparent => exact ⟨_, hs⟩
    obtain ⟨success, hs⟩ := hloaded
    have hloads : p.point.stage.loads = true := by
      rw [hs]
      rfl
    obtain ⟨pv, hpv, hs', hflag⟩ := h.waits t p hp hloads
    cases hq.symm.trans (hpar ▸ hpv)
    have hchild : child = p.tid := by simpa using (hwaits hflag).symm.trans hs'
    rw [hchild]
    refine h.loaded_same hmove hp ?_
    have hcls : q.child_load_success = success := by
      cases success with
      | false => exact h.fails t p hp (.inr hs) q (hpar ▸ hq)
      | true =>
        refine Bool.eq_true_of_not_eq_false fun hfalse => ?_
        obtain ⟨c, qc, hqc, hparc, hfails⟩ := h.succeeds u q hq hflag hfalse
        obtain rfl := h.alone hr hqc hp hfails.loads hloads (hparc.trans hpar)
        cases hp.symm.trans hqc
        obtain hs'' | hs'' := hfails <;> cases hs.symm.trans hs''
    rw [hcls]
    exact h.noted t p success hp hs

theorem Execs.result_same (h : f.Execs) (hmove : f.Move t p a f₁ point notes)
    (hp : f.procs t = some p) {res : Int}
    (hsame : exec_child tid (notes ++ f.notes) = exec_child tid f.notes) (hresult : Result f.notes tid res) :
    Result (notes ++ f.notes) tid res := by
  rw [Result] at hresult ⊢
  rw [hsame]
  split
  · rename_i hchild
    rwa [hchild] at hresult
  · rename_i child hchild
    rw [hchild] at hresult
    obtain ⟨success, hloaded, hres⟩ := hresult
    exact ⟨success, h.loaded_same hmove hp hloaded, hres⟩

/-- Moves that are no part of the call keep what is known in it. -/
theorem Execs.calls_kept (h : f.Execs) (hr : f.Reaping) (hstep : f.Step t a f') (hq : f.procs u = some q)
    (hu : f'.procs u = some q') (htid : q'.tid = q.tid) (hexec : q'.point.exec = q.point.exec)
    (hsame : exec_child q.tid f'.notes = exec_child q.tid f.notes)
    (hstage : q'.load_finish = false → ∀ x, q.point.stage = .created x → q'.point.stage = .created x) :
    f'.Calls q' := by
  obtain ⟨p, f₁, point, notes, hp, hmove, heq⟩ := id hstep
  have hnotes : f'.notes = notes ++ f.notes := heq ▸ hmove.step_notes
  have hcalls := h.calls u q hq
  have hflag : q'.load_finish = false → q.load_finish = false := fun hflag => by
    refine Bool.eq_false_iff.mpr fun hset => ?_
    cases ((hstep.flags hp hq hu).1.mpr (.inl hset)).symm.trans hflag
  rw [Calls] at hcalls ⊢
  rw [hexec, htid, hsame]
  cases he : q.point.exec with
  | idle => trivial
  | called =>
    rw [he] at hcalls
    exact hcalls
  | made x =>
    rw [he] at hcalls
    cases x with
    | none => exact hcalls
    | some child =>
      obtain ⟨hchild, hwaits, htold⟩ := hcalls
      exact ⟨hchild, fun hf => hstage hf _ (hwaits (hflag hf)), h.told_step hr hstep hq hu hwaits htold⟩
  | judged res =>
    rw [he] at hcalls
    rw [hnotes]
    exact h.result_same hmove hp (hnotes ▸ hsame) hcalls

theorem Execs.calls_step (h : f.Execs) (hr : f.Reaping) (hstep : f.Step t a f') (hone : f.MakesOne t a)
    (hu : f'.procs u = some q') : f'.Calls q' := by
  by_cases hut : u = t
  swap
  · obtain ⟨q, hq, halike⟩ | ⟨-, -, rfl⟩ := hstep.kept hut hu
    · obtain ⟨p, f₁, point, notes, hp, hmove, heq⟩ := id hstep
      refine h.calls_kept hr hstep hq hu halike.tid (congrArg Point.exec halike.point) ?_
        fun _ x hs => halike.point ▸ hs
      rw [show f'.notes = notes ++ f.notes from heq ▸ hmove.step_notes]
      exact hmove.exec_child_of_ne fun htid => hut (hr.tid_inj hq hp htid)
    · trivial
  subst hut
  obtain ⟨p, p', f₁, point, notes, hp, hmove, hp', rfl, hcont, hdie, heq⟩ := hstep.self hu
  have hnotes : f'.notes = notes ++ f.notes := heq ▸ hmove.step_notes
  have hcalls := h.calls u p hp
  have htid : ({ p' with point } : Proc).tid = p.tid := hcont.tid
  have hkept : a ≠ .create (some f.next_tid) → a ≠ .exec → point.exec = p.point.exec →
      f'.Calls { p' with point } := by
    intro hcreate hexec hsame
    refine h.calls_kept hr hstep hp hu htid hsame
      (hnotes ▸ hmove.exec_child_same hcreate hexec) fun hflag x hs => ?_
    have hset : p'.load_finish = true := (hstep.flags hp hp hu).1.mpr (.inl (hmove.of_created hs).2)
    cases hset.symm.trans hflag
  rw [Calls] at hcalls
  cases hmove with
  | fault => trivial
  | returns => trivial
  | die => exact absurd rfl hdie
  | exec hs he =>
    rw [Calls, htid, hnotes]
    exact if_pos rfl
  | create_none hs he =>
    obtain he | he := he
    · simp only [Calls, he, ExecStage.make]
    · rw [he] at hcalls
      simp only [Calls, he, ExecStage.make, hcont.tid, hnotes]
      exact hcalls
  | @create c hs he hc =>
    obtain he | he := he
    · simp only [Calls, he, ExecStage.make]
    · have hset : p'.load_finish ≠ true := fun hset => by
        obtain hset | ⟨hfinish, -⟩ := (hstep.flags hp hp hu).1.mp hset
        · cases hset.symm.trans (hone rfl p hp)
        · cases hfinish
      simp only [Calls, he, ExecStage.make, hcont.tid, hnotes]
      exact ⟨if_pos rfl, fun _ => trivial, fun h => absurd h hset⟩
  | judge hs hcalled =>
    simp only [Calls, hcont.tid, hnotes]
    cases he : p.point.exec with
    | called =>
      rw [he] at hcalls
      simp only [ExecStage.judge, Result, List.nil_append, hcalls]
    | made tid =>
      rw [he] at hcalls
      cases tid with
      | none => cases p.child_load_success <;> simp [ExecStage.judge, Result, hcalls, TID_ERROR]
      | some child =>
        obtain ⟨hchild, hwaits, htold⟩ := hcalls
        have hset : p.load_finish = true := Bool.eq_true_of_not_eq_false fun hflag => by
          cases hs.symm.trans (hwaits hflag)
        have hloaded := htold hset
        cases hc : p.child_load_success <;> rw [hc] at hloaded <;>
          simp only [ExecStage.judge, Result, List.nil_append, hchild]
        · exact ⟨false, hloaded, rfl⟩
        · exact ⟨true, hloaded, rfl⟩
    | idle | judged => simp [he, ExecStage.calls] at hcalled
  | _ => exact hkept (by simp) (by simp) rfl

theorem Execs.answered_step (h : f.Execs) (hstep : f.Step t a f') : Answered f'.notes := by
  obtain ⟨p, f₁, point, notes, hp, hmove, rfl⟩ := hstep
  rw [hmove.step_notes]
  have hcalls := h.calls t p hp
  cases hmove with
  | find hs => exact (answered_accessed _).mpr h.answered
  | create | remove => exact (answered_accessed (f := f) (p := p) _).mpr h.answered
  | returns hs he =>
    rw [Calls, he] at hcalls
    exact ⟨hcalls, h.answered⟩
  | _ => exact h.answered

theorem Execs.step (h : f.Execs) (hr : f.Reaping) (hstep : f.Step t a f') (hone : f.MakesOne t a) :
    f'.Execs where
  loaded_lt _ _ hmem := h.loaded_lt_step hr hstep hmem
  waits _ _ hu hloads := h.waits_step hr hstep hone hu hloads
  fails _ _ hu hfails _ hv := h.fails_step hstep hu hfails hv
  succeeds _ _ hu hflag hfalse := h.succeeds_step hstep hu hflag hfalse
  unnoted _ _ hu hs _ := h.unnoted_step hr hstep hu hs
  noted _ _ _ hu hs := h.noted_step hstep hu hs
  calls _ _ hu := h.calls_step hr hstep hone hu
  answered := h.answered_step hstep

theorem Boot.execs (h : f.Boot) : f.Execs := by
  obtain ⟨main, idle, -, -, hnotes, -, -, hprocs⟩ := h.procs
  refine ⟨by simp [hnotes], fun c q hq hloads => ?_, fun c q hq hfails => ?_, fun t p hp _ hfalse => ?_,
    fun c q hq hs => ?_, fun c q success hq hs => ?_, fun t p hp => ?_, ?_⟩
  · obtain ⟨rfl, rfl⟩ | ⟨rfl, rfl⟩ := hprocs c q hq <;> cases hloads
  · obtain ⟨rfl, rfl⟩ | ⟨rfl, rfl⟩ := hprocs c q hq <;> obtain hs | hs := hfails <;> cases hs
  · obtain ⟨rfl, rfl⟩ | ⟨rfl, rfl⟩ := hprocs t p hp <;> cases hfalse
  · obtain ⟨rfl, rfl⟩ | ⟨rfl, rfl⟩ := hprocs c q hq <;> obtain hs | hs := hs <;> cases hs
  · obtain ⟨rfl, rfl⟩ | ⟨rfl, rfl⟩ := hprocs c q hq <;> cases hs
  · obtain ⟨rfl, rfl⟩ | ⟨rfl, rfl⟩ := hprocs t p hp <;> trivial
  · rw [hnotes]
    trivial

end Family

/-- The step does not stray, and is no `thread_create` that makes a thread while `load_finish` is set. -/
def makes_first (s : World × History) (l : Label) : Prop :=
  (∀ w, l.event ≠ .stray w) ∧ ∀ th name fn_copy k env, s.1.threads l.thread = some th →
    th.code = .ask (.thread_create name fn_copy) k → l.event = .go env → env.page ≠ none →
      th.load_finish = false

/-- Every call of `exec` that has returned has done so after the load of the process that it has made, with what
has become of it. -/
theorem exec_results {s : World × History} (h : (observed_processes.restrict makes_first).Reachable s) :
    Answered s.2.notes := by
  refine (family_invariant (I := fun f => f.Reaping ∧ f.Execs) (G := Family.MakesOne) (fun s l hg => hg.1) ?_
    (fun f hf => ⟨hf.reaping, hf.execs⟩)
    (fun f t a f' hf hone hstep => ⟨hf.1.step hstep, hf.2.step hf.1 hstep hone⟩) h).2.2.answered
  rintro s l a ⟨-, hfirst⟩ hshows rfl p hp
  obtain ⟨th, hth, rfl⟩ := Option.map_eq_some_iff.mp hp
  cases hshows with
  | request hth' hcode he hreply ha =>
    cases hth.symm.trans hth'
    obtain ⟨name, fn_copy, rfl, hpage⟩ := create_of_act hreply ha
    refine hfirst th name fn_copy _ _ hth hcode he fun hnone => ?_
    rw [hnone] at hpage
    cases hpage

/-- The test of `makes_first`. -/
def checks_first (s : World × History) (l : Label) : Bool :=
  l.event.stays && (s.1.threads l.thread).all fun th => !creates_thread th.code || !th.load_finish

theorem exec_results_first : ∃ s : World × History, s.2.notes.head? = some (.exec_returned 3 4) ∧
    Answered s.2.notes := by
  obtain ⟨s, hs, hreturned, -⟩ := @observed_run makes_first
    checks_first
    (fun s l hl => by
      rw [checks_first, Bool.and_eq_true] at hl
      refine ⟨Event.not_stray hl.1, fun th name fn_copy k env hth hcode _ _ => ?_⟩
      simpa [hth, hcode, creates_thread] using hl.2)
    (start_labels ++ exec_labels) (fun s => s.2.notes.head? = some (.exec_returned 3 4)) (by decide +kernel)
  exact ⟨s, of_decide_eq_true hreturned, exec_results hs⟩

/-- The load is of another process. -/
def Note.loads_other (tid : Int) : Note → Bool
  | .loaded child _ => child ≠ tid
  | _ => true

/-- The process 3 has the process 5 back from a call of `exec`, before any load of 5. -/
def returned_early : List Note → Bool
  | .exec_returned 3 5 :: ns => exec_child 3 ns = some 5 && ns.all (Note.loads_other 5)
  | _ => false

/-- A second call of `exec` does not wait for the load of the process that it makes. -/
theorem exec_results_second : ∃ s, observed_processes.Reachable s ∧ ¬ Answered s.2.notes := by
  obtain ⟨s, hs, htest, -⟩ := @observed_run (fun _ _ => True) (fun _ _ => true) (fun _ _ _ => trivial)
    (start_labels ++ exec_labels ++ call_exec_labels 4 ++ return_exec_labels)
    (fun s => returned_early s.2.notes) (by decide +kernel)
  refine ⟨s, hs.of_restrict, fun hanswered => ?_⟩
  unfold returned_early at htest
  split at htest
  · rename_i ns hnotes
    rw [Bool.and_eq_true, List.all_eq_true] at htest
    rw [hnotes] at hanswered
    have hresult := hanswered.1
    rw [Result, of_decide_eq_true htest.1] at hresult
    obtain ⟨success, hloaded, -⟩ := hresult
    have hother := htest.2 _ ((hloaded success).mpr rfl)
    simp [Note.loads_other] at hother
  · cases htest

end pintos.prj2
