import Pintos.Prj2.Family

/-!
# Processes move as their families do

In a run without stray accesses the code of every thread goes on from where the thread is, and the
processes move as `Family` says.
-/

open interaction Prog transition

namespace pintos.prj2

variable {w w' w₁ : World} {h : History} {t u c : ThreadId} {th : Thread} {l : Label} {env : Env} {o : Op}

section Family

variable {f : Family} {p : Proc}

@[simp] theorem Family.update_procs (f : Family) (t u : ThreadId) (g : Proc → Proc) :
    (f.update t g).procs u = if u = t then (f.procs t).map g else f.procs u :=
  Function.update_apply _ _ _ _

/-- The family after a change to a thread and one to where it is. -/
theorem World.family_set_code (w : World) (h : History) (t : ThreadId)
    (code : Kernel (Option Int)) (p : Point) :
    (w.set_code t code).family { h with points := Function.update h.points t p } = (w.family h).go t p := by
  simp only [family, Family.go, Family.update, set_code, update, Family.mk.injEq, and_true]
  funext u
  by_cases hu : u = t
  · subst hu
    simp [Function.update_self, Function.comp_def, Thread.proc]
  · simp [Function.update_of_ne hu]

/-- The family after a change to the thread alone. -/
theorem World.family_update (w : World) (h : History) (t : ThreadId) {f : Thread → Thread} {g : Proc → Proc}
    (hg : ∀ th point, (f th).proc point = g (th.proc point)) :
    (w.update t f).family h = (w.family h).update t g := by
  simp only [family, Family.update, update, Family.mk.injEq, and_true]
  funext u
  by_cases hu : u = t
  · subst hu
    simp [Function.update_self, Function.comp_def, hg]
  · simp [Function.update_of_ne hu]

theorem World.family_update_same (w : World) (h : History) (t : ThreadId) {f : Thread → Thread}
    (hf : ∀ th point, (f th).proc point = th.proc point) : (w.update t f).family h = w.family h := by
  rw [family_update w h t (g := id) hf, Family.update, Option.map_id, id_eq, Function.update_eq_self]

theorem World.family_procs (h : History) (ht : w.threads t = some th) :
    (w.family h).procs t = some (th.proc (h.points t)) := by
  simp only [family, ht, Option.map_some]

end Family

/-- The act that a request is. -/
def Op.act : (o : Op) → o.Ans → Option Act
  | .sema_down .mutex, _ => some .lock
  | .sema_up .mutex, _ => some .unlock
  | .thread_create _ _, tid => some (.create tid)
  | .palloc_free_page, _ => some .free_copy
  | .poll_load_finish, _ => some .poll_load_finish
  | .child_load_success, _ => some .judge
  | .parent_child_load_success, _ => some .unload
  | .parent_load_finish, _ => some .finish
  | .find_child tid, _ => some (.find tid)
  | .poll_ready_to_exit _, _ => some .wait_ready
  | .child_exit_status _, _ => some .read_status
  | .list_remove _, _ => some .remove
  | .deleted_from_parent _, _ => some .release
  | .exit_status _, _ => some .store_status
  | .ready_to_exit, _ => some .ready
  | .poll_deleted_from_parent, _ => some .poll_deleted
  | .mark .exec_called, _ => some .exec
  | .mark (.exec_returned res), _ => some (.returns res)
  | .mark (.loaded success), _ => some (.loaded success)
  | .mark (.ended how), _ => some (.ends how)
  | .mark (.waited _ _), _ => some .waited
  | _, _ => none


section Next

variable {s : Stage} {p : Point}

theorem Point.next_some {g : o.Ans → Point} (hnext : p.next o = some g) :
    ∃ f e, p.stage.next o = some f ∧ p.exec.next o = some e ∧ ∀ r, g r = ⟨f r, e r⟩ := by
  obtain ⟨f, hf, hg⟩ := Option.bind_eq_some_iff.mp hnext
  obtain ⟨e, he, rfl⟩ := Option.map_eq_some_iff.mp hg
  exact ⟨f, e, hf, he, fun _ => rfl⟩

end Next

section Replies

variable {k : o.Ans → Kernel (Option Int)} {r : o.Ans} {g : o.Ans → Point}

theorem World.family_go (w : World) (h : History) (t : ThreadId) (code : Kernel (Option Int)) (p : Point)
    (notes : List Note) :
    (w.set_code t code).family { points := Function.update h.points t p, notes := notes ++ h.notes } =
      ((w.family h).go t p).note notes :=
  congrArg (fun f => Family.note f notes) (w.family_set_code h t code p)

theorem Family.go_self {f : Family} {p : Proc} (hp : f.procs t = some p) : f.go t p.point = f := by
  rw [go, update]
  congr 1
  funext u
  by_cases hu : u = t
  · subst hu
    rw [Function.update_self, hp]
    rfl
  · exact Function.update_of_ne hu _ _

theorem Family.note_nil (f : Family) : f.note [] = f := rfl

theorem World.record_go (hth : w.threads t = some th) (hcode : th.code = .ask o k)
    (hreply : w.reply t th env o = some (r, w₁)) (hnext : (h.points t).next o = some g)
    (hpage : o.new_page env = none) :
    w.record ⟨t, .go env⟩ h = { points := Function.update h.points t (g r), notes := w.notes th o r ++ h.notes } := by
  rw [record, hth]
  simp only [hcode, hreply, hnext, hpage, Option.elim_some, Option.elim_none]

theorem World.accessed_eq (w : World) (h : History) (th : Thread) (p : Point) (children : List ThreadId) :
    w.accessed th children = (w.family h).accessed (th.proc p) children := by
  simp [accessed, Family.accessed, family, Option.map_map, Function.comp_def, Thread.proc]

theorem World.find_child_eq (w : World) (h : History) (children : List ThreadId) (tid : Int) :
    w.find_child children tid = (w.family h).find_child children tid := by
  simp only [find_child, Family.find_child, family]
  congr
  funext c
  cases w.threads c <;> rfl

theorem World.family_create (w : World) (h : History) (t : ThreadId) {c : ThreadId} (name fn_copy : Str)
    (hc : w.threads c = none) :
    (w.create t c name fn_copy).family { h with points := Function.update h.points c ⟨.loading, .idle⟩ } =
      (w.family h).create t c := by
  simp only [family, Family.create, Family.update, create, update, Family.mk.injEq, and_true]
  funext u
  by_cases hu : u = c
  · subst hu
    simp only [Function.update_self, Option.map_some]
    rfl
  · simp only [Function.update_of_ne hu]
    by_cases ht : u = t
    · subst ht
      simp only [Function.update_self, Option.map_map]
      rfl
    · simp only [Function.update_of_ne ht]

end Replies

section Moves

variable {k : o.Ans → Kernel (Option Int)} {r : o.Ans} {g : o.Ans → Point}

/-- The act of a step. -/
inductive World.Shows (w : World) (l : Label) : Act → Prop where
  | request {th : Thread} {o : Op} {k : o.Ans → Kernel (Option Int)} {env : Env} {r : o.Ans}
      {w₁ : World} {a : Act}
      (hth : w.threads l.thread = some th) (hcode : th.code = .ask o k) (he : l.event = .go env)
      (hreply : w.reply l.thread th env o = some (r, w₁)) (ha : o.act r = some a) : w.Shows l a
  | fault {addr : Addr} (he : l.event = .fault addr) : w.Shows l .fault
  | die (he : l.event = .die) : w.Shows l .die

/-- A granted request is a move of the family, or none that others notice. -/
theorem World.reply_moves (hth : w.threads t = some th) (hcode : th.code = .ask o k)
    (hstray : w.strays th o = false) (hreply : w.reply t th env o = some (r, w₁))
    (hnext : (h.points t).next o = some g) :
    (w₁.set_code t (k r)).family (w.record ⟨t, .go env⟩ h) = w.family h ∨
      ∃ a, o.act r = some a ∧
        (w.family h).Step t a ((w₁.set_code t (k r)).family (w.record ⟨t, .go env⟩ h)) := by
  have hp : (w.family h).procs t = some (th.proc (h.points t)) := family_procs h hth
  obtain ⟨f, e, hf, he, hg⟩ := Point.next_some hnext
  have hkeep (hpage : o.new_page env = none) (hw : w₁.family h = w.family h)
      (hpoint : g r = h.points t) (hnotes : w.notes th o r = []) :
      (w₁.set_code t (k r)).family (w.record ⟨t, .go env⟩ h) = w.family h := by
    have hself : (w.family h).go t (h.points t) = w.family h := Family.go_self hp
    rw [record_go hth hcode hreply hnext hpage, family_go, hw,
      hpoint, hnotes, hself, Family.note_nil]
  have hstep (hpage : o.new_page env = none)
      {a : Act} (ha : o.act r = some a) {f₁ : Family} {point : Point} {notes : List Note}
      (hmove : (w.family h).Move t (th.proc (h.points t)) a f₁ point notes) (hw : w₁.family h = f₁)
      (hpoint : g r = point) (hnotes : w.notes th o r = notes) :
      ∃ a, o.act r = some a ∧
        (w.family h).Step t a ((w₁.set_code t (k r)).family (w.record ⟨t, .go env⟩ h)) := by
    rw [record_go hth hcode hreply hnext hpage, family_go, hw, hpoint, hnotes]
    exact ⟨a, ha, _, _, _, _, hp, hmove, rfl⟩
  cases o with
  | load _ | load_word _ | store _ _ | query _ | own =>
    cases hreply
    cases he
    cases (Option.ite_none_right_eq_some.mp hf).2
    exact .inl (hkeep rfl rfl (hg _) rfl)
  | set_own s =>
    cases hreply
    cases he
    cases (Option.ite_none_right_eq_some.mp hf).2
    exact .inl (hkeep rfl (family_update_same w h t fun _ _ => rfl) (hg _) rfl)
  | wild => cases hreply
  | shutdown_power_off | panic | spin | schedule_dying => exact r.elim
  | sema_down sema =>
    cases he
    cases sema with
    | mutex =>
      obtain ⟨hm, heq⟩ := Option.ite_none_right_eq_some.mp hreply
      cases heq
      simp only [Stage.next] at hf
      split at hf
      · rename_i hs
        cases hf
        exact .inr (hstep rfl rfl (.lock hs hm) rfl (hg _) rfl)
      · cases hf
    | fd_wait =>
      obtain ⟨-, heq⟩ := Option.ite_none_right_eq_some.mp hreply
      cases heq
      cases (Option.ite_none_right_eq_some.mp hf).2
      exact .inl (hkeep rfl (family_update_same w h t fun _ _ => rfl) (hg _) rfl)
  | sema_up sema =>
    cases he
    cases sema with
    | mutex =>
      cases hreply
      simp only [Stage.next] at hf
      split at hf
      · rename_i hs
        cases hf
        exact .inr (hstep rfl rfl (.unlock hs) rfl (hg _) rfl)
      · cases hf
    | fd_wait =>
      cases hreply
      cases (Option.ite_none_right_eq_some.mp hf).2
      exact .inl (hkeep rfl (family_update_same w h t fun _ _ => rfl) (hg _) rfl)
  | palloc_free_page =>
    cases hreply
    cases he
    simp only [Stage.next] at hf
    split at hf
    · rename_i hs
      cases hf
      exact .inr (hstep rfl rfl (.free_copy hs) rfl (hg _) rfl)
    · rename_i hs
      cases hf
      exact .inl (hkeep rfl rfl ((hg _).trans (by rw [← hs])) rfl)
    · cases (Option.ite_none_right_eq_some.mp hf).2
      exact .inl (hkeep rfl rfl (hg _) rfl)
  | poll_load_finish =>
    cases he
    obtain ⟨hfinish, heq⟩ := Option.ite_none_right_eq_some.mp hreply
    cases heq
    simp only [Stage.next] at hf
    split at hf
    · rename_i hs
      cases hf
      exact .inr (hstep rfl rfl (.poll_load_finish hs hfinish) rfl (hg _) rfl)
    · cases hf
  | child_load_success =>
    cases hreply
    simp only [Stage.next] at hf
    split at hf
    · rename_i hs
      cases hf
      obtain ⟨hcalls, heq⟩ := Option.ite_none_right_eq_some.mp he
      cases heq
      exact .inr (hstep rfl rfl (.judge hs hcalls) rfl ((hg _).trans (by rw [← hs]; rfl)) rfl)
    · cases hf
  | parent_child_load_success =>
    cases hreply
    cases he
    simp only [Stage.next] at hf
    split at hf
    · rename_i hs
      cases hf
      obtain ⟨parent, hparent⟩ := Option.isSome_iff_exists.mp (Option.isNone_eq_false_iff.mp hstray)
      exact .inr (hstep rfl rfl (.unload hs (family_procs h hparent))
        (family_update w h _ fun _ _ => rfl) (hg _) rfl)
    · cases hf
  | parent_load_finish =>
    cases hreply
    cases he
    simp only [Stage.next] at hf
    split at hf
    · rename_i hs
      cases hf
      obtain ⟨parent, hparent⟩ := Option.isSome_iff_exists.mp (Option.isNone_eq_false_iff.mp hstray)
      exact .inr (hstep rfl rfl (.finish hs (family_procs h hparent))
        (family_update w h _ fun _ _ => rfl) (hg _) rfl)
    · cases hf
  | find_child tid =>
    cases hreply
    cases he
    simp only [Stage.next] at hf
    split at hf
    · rename_i hs
      cases hf
      refine .inr (hstep rfl rfl (.find hs) rfl ((hg _).trans ?_) (accessed_eq w h th _ _))
      rw [find_child_eq w h]
      rfl
    · cases hf
  | poll_ready_to_exit c =>
    cases he
    obtain ⟨hready, heq⟩ := Option.ite_none_right_eq_some.mp hreply
    cases heq
    obtain ⟨child, hchild, hready⟩ := (Option.any_eq_true _ _).mp hready
    simp only [Stage.next] at hf
    split at hf
    · rename_i hs
      obtain ⟨rfl, heq⟩ := Option.ite_none_right_eq_some.mp hf
      cases heq
      refine .inr (hstep rfl rfl (.wait_ready hs (family_procs h hchild) hready) rfl (hg _) ?_)
      simp only [notes, accessed, List.filterMap_cons, hchild, Option.map_some, List.filterMap_nil]
      rfl
    · cases hf
  | child_exit_status c =>
    cases he
    obtain ⟨child, hchild, heq⟩ := Option.map_eq_some_iff.mp hreply
    cases heq
    simp only [Stage.next] at hf
    split at hf
    · rename_i hs
      obtain ⟨rfl, heq⟩ := Option.ite_none_right_eq_some.mp hf
      cases heq
      refine .inr (hstep rfl rfl (.read_status hs (family_procs h hchild)) rfl (hg _) ?_)
      simp only [notes, accessed, List.filterMap_cons, hchild, Option.map_some, List.filterMap_nil]
      rfl
    · cases hf
  | list_remove c =>
    cases hreply
    cases he
    obtain ⟨child, hchild⟩ := Option.isSome_iff_exists.mp (Option.isNone_eq_false_iff.mp hstray)
    simp only [Stage.next] at hf
    split at hf
    · rename_i hs
      obtain ⟨rfl, heq⟩ := Option.ite_none_right_eq_some.mp hf
      cases heq
      refine .inr (hstep rfl rfl (.remove hs (family_procs h hchild)) (family_update w h _ fun _ _ => rfl)
        (hg _) ?_)
      rw [notes, hchild, accessed_eq w h th (h.points t)]
      rfl
    · cases hf
  | deleted_from_parent c =>
    cases hreply
    cases he
    obtain ⟨child, hchild⟩ := Option.isSome_iff_exists.mp (Option.isNone_eq_false_iff.mp hstray)
    simp only [Stage.next] at hf
    split at hf
    · rename_i hs
      obtain ⟨rfl, heq⟩ := Option.ite_none_right_eq_some.mp hf
      cases heq
      refine .inr (hstep rfl rfl (.release hs (family_procs h hchild)) (family_update w h _ fun _ _ => rfl)
        (hg _) ?_)
      simp only [notes, accessed, List.filterMap_cons, hchild, Option.map_some, List.filterMap_nil]
      rfl
    · cases hf
  | exit_status status =>
    cases hreply
    cases he
    simp only [Stage.next] at hf
    split at hf
    · rename_i hs
      obtain ⟨rfl, heq⟩ := Option.ite_none_right_eq_some.mp hf
      cases heq
      exact .inr (hstep rfl rfl (.store_status hs) (family_update w h _ fun _ _ => rfl) (hg _) rfl)
    · cases hf
  | ready_to_exit =>
    cases hreply
    cases he
    simp only [Stage.next] at hf
    split at hf
    · rename_i hs
      cases hf
      exact .inr (hstep rfl rfl (.ready hs) (family_update w h _ fun _ _ => rfl) (hg _) rfl)
    · cases hf
  | poll_deleted_from_parent =>
    cases he
    obtain ⟨hdeleted, heq⟩ := Option.ite_none_right_eq_some.mp hreply
    cases heq
    simp only [Stage.next] at hf
    split at hf
    · rename_i hs
      cases hf
      exact .inr (hstep rfl rfl (.poll_deleted hs hdeleted) rfl (hg _) rfl)
    · cases hf
  | mark m =>
    cases hreply
    obtain ⟨s', hs', rfl⟩ := Option.map_eq_some_iff.mp hf
    cases m with
    | exec_called =>
      obtain ⟨hs, heq⟩ := Option.ite_none_right_eq_some.mp hs'
      cases heq
      obtain ⟨hidle, heq⟩ := Option.ite_none_right_eq_some.mp he
      cases heq
      exact .inr (hstep rfl rfl (.exec hs hidle) rfl ((hg _).trans (by rw [← hs]; rfl)) rfl)
    | exec_returned res =>
      obtain ⟨hs, heq⟩ := Option.ite_none_right_eq_some.mp hs'
      cases heq
      obtain ⟨hjudged, heq⟩ := Option.ite_none_right_eq_some.mp he
      cases heq
      exact .inr (hstep rfl rfl (.returns hs hjudged) rfl ((hg _).trans (by rw [← hs]; rfl)) rfl)
    | loaded success =>
      obtain ⟨hs, heq⟩ := Option.ite_none_right_eq_some.mp hs'
      cases heq
      cases he
      exact .inr (hstep rfl rfl (.loaded hs) rfl (hg _) rfl)
    | waited tid status =>
      obtain ⟨hs, heq⟩ := Option.ite_none_right_eq_some.mp hs'
      cases heq
      cases he
      exact .inr (hstep rfl rfl (.waited hs) rfl (hg _) rfl)
    | ended how =>
      cases he
      simp only [Stage.marked, Stage.ends] at hs'
      split at hs'
      · rename_i hs
        cases hs'
        exact .inr (hstep rfl rfl (.exits (.inl hs)) rfl (hg _) rfl)
      · rename_i hs
        cases hs'
        exact .inr (hstep rfl rfl (.exits (.inr hs)) rfl (hg _) rfl)
      · rename_i hs
        cases hs'
        exact .inr (hstep rfl rfl (.killed hs) rfl (hg _) rfl)
      · rename_i hs
        cases hs'
        exact .inr (hstep rfl rfl (.fails hs) rfl (hg _) rfl)
      · cases hs'
  | thread_create name fn_copy =>
    simp only [Stage.next] at hf
    split at hf
    · rename_i hs
      cases hf
      obtain ⟨hexec, heq⟩ := Option.ite_none_right_eq_some.mp he
      cases heq
      simp only [reply] at hreply
      split at hreply
      · rename_i hpage
        cases hreply
        exact .inr (hstep hpage rfl (.create_none hs hexec) rfl (hg _) rfl)
      · rename_i c hpage
        obtain ⟨hc, heq⟩ := Option.ite_none_right_eq_some.mp hreply
        cases heq
        refine .inr ⟨_, rfl, _, _, _, _, hp, .create hs hexec (c := c) ?_, ?_⟩
        · simp only [family, Option.isNone_iff_eq_none.mp hc, Option.map_none]
        · have hne : c ≠ t := fun heq => by simp [heq, hth] at hc
          have hrecord : w.record ⟨t, .go env⟩ h =
              { points := Function.update (Function.update h.points c ⟨.loading, .idle⟩) t (g (some w.next_tid))
                notes := w.notes th (.thread_create name fn_copy) (some w.next_tid) ++ h.notes } := by
            rw [record, hth]
            simp only [hcode, reply, hpage, hc, hnext, Op.new_page, Option.elim_some, if_true,
              History.mk.injEq, and_true]
            exact Function.update_comm hne.symm _ _ _
          have hgo := (w.create t c name fn_copy).family_go
            { h with points := Function.update h.points c ⟨.loading, .idle⟩ } t (k (some w.next_tid))
            (g (some w.next_tid)) (w.notes th (.thread_create name fn_copy) (some w.next_tid))
          rw [family_create w h t name fn_copy (Option.isNone_iff_eq_none.mp hc), hg, notes,
            accessed_eq w h th (h.points t)] at hgo
          rw [hrecord, hg, notes, accessed_eq w h th (h.points t)]
          exact hgo
    · cases hf

/-- A request is no fault and no death. -/
theorem Op.act_ne {a : Act} (ha : o.act r = some a) : a ≠ .fault ∧ a ≠ .die := by
  unfold Op.act at ha
  split at ha <;> cases ha <;> simp

end Moves

section Steps

variable {thu : Thread}

/-- The ways in which a thread makes a step. -/
inductive World.Moves (w : World) (t : ThreadId) (th : Thread) : Event → World → Prop where
  | enters {e : Event} {v : Option Int} {code : Kernel (Option Int)} (hcode : th.code = .ret v)
      (hstays : Stays ⟨.running, .idle⟩ code) :
      w.Moves t th e (w.set_code t code)
  | requests {env : Env} {o : Op} {k : o.Ans → Kernel (Option Int)} {r : o.Ans} {w₁ : World}
      (hcode : th.code = .ask o k) (hstrays : w.strays th o = false)
      (hreply : w.reply t th env o = some (r, w₁)) : w.Moves t th (.go env) (w₁.set_code t (k r))
  | faults {addr : Addr} {o : Op} {k : o.Ans → Kernel (Option Int)} (hcode : th.code = .ask o k)
      (haccesses : o.accesses = true) :
      w.Moves t th (.fault addr) (w.set_code t (page_fault (kernel_fault addr)))
  | dies {k : Empty → Kernel (Option Int)} (hcode : th.code = .ask .schedule_dying k) :
      w.Moves t th .die { w with threads := Function.update w.threads t none }
  | strays {w' : World} {o : Op} {k : o.Ans → Kernel (Option Int)} (hcode : th.code = .ask o k)
      (hstrays : w.strays th o = true) : w.Moves t th (.stray w') w'

theorem World.step_moves (hstep : w.step l = some w') :
    ∃ th, w.threads l.thread = some th ∧ w.Moves l.thread th l.event w' := by
  obtain ⟨t, e⟩ := l
  obtain ⟨th, hth, hstep⟩ := Option.bind_eq_some_iff.mp hstep
  refine ⟨th, hth, ?_⟩
  simp only at hstep
  cases hcode : th.code with
  | ret v =>
    cases e with
    | syscall esp =>
      simp only [hcode, Option.ite_none_right_eq_some, Option.some.injEq] at hstep
      obtain ⟨-, rfl⟩ := hstep
      exact .enters hcode (stays_syscall_handler esp)
    | exception f =>
      simp only [hcode, Option.ite_none_right_eq_some, Option.some.injEq] at hstep
      obtain ⟨-, rfl⟩ := hstep
      exact .enters hcode (stays_intr_handler f)
    | run_task task =>
      simp only [hcode, Option.ite_none_right_eq_some, Option.some.injEq] at hstep
      obtain ⟨-, rfl⟩ := hstep
      exact .enters hcode (stays_run_task task)
    | _ => simp [hcode] at hstep
  | ask o k =>
    cases e with
    | go env =>
      simp only [hcode] at hstep
      split at hstep
      · cases hstep
      · obtain ⟨⟨r, w₁⟩, hreply, hstep⟩ := Option.bind_eq_some_iff.mp hstep
        obtain rfl := Option.some.inj hstep
        exact .requests hcode (Bool.eq_false_of_not_eq_true ‹_›) hreply
    | fault addr =>
      simp only [hcode, Option.ite_none_right_eq_some, Option.some.injEq] at hstep
      obtain ⟨haccesses, rfl⟩ := hstep
      exact .faults hcode haccesses
    | die =>
      cases o with
      | schedule_dying =>
        simp only [hcode, Option.some.injEq] at hstep
        obtain rfl := hstep
        exact .dies hcode
      | _ => simp [hcode] at hstep
    | stray w'' =>
      simp only [hcode, Option.ite_none_right_eq_some, Option.some.injEq] at hstep
      obtain ⟨hstrays, rfl⟩ := hstep
      exact .strays hcode hstrays
    | _ => simp [hcode] at hstep

/-- A change to a thread that keeps its code. -/
theorem World.update_code {f : Thread → Thread} (hu : (w.update t f).threads u = some thu)
    (hf : ∀ th, (f th).code = th.code) : ∃ th₀, w.threads u = some th₀ ∧ thu.code = th₀.code := by
  simp only [update, Function.update_apply] at hu
  split at hu
  · rename_i heq
    obtain ⟨th₀, hth, rfl⟩ := Option.map_eq_some_iff.mp hu
    exact ⟨th₀, heq ▸ hth, hf th₀⟩
  · exact ⟨thu, hu, rfl⟩

/-- A request leaves the code of all threads as it is, and may make a thread with the code of a
new process. -/
theorem World.reply_code {r : o.Ans} (hreply : w.reply t th env o = some (r, w₁))
    (hu : w₁.threads u = some thu) :
    (∃ th₀, w.threads u = some th₀ ∧ thu.code = th₀.code) ∨
      ∃ name fn_copy, o = .thread_create name fn_copy ∧ o.new_page env = some u ∧ w.threads u = none ∧
        thu.code = start_process fn_copy := by
  cases o with
  | load _ | load_word _ | store _ _ | query _ | own | child_load_success | find_child _ | mark _
    | palloc_free_page =>
    cases hreply
    exact .inl ⟨thu, hu, rfl⟩
  | set_own s =>
    cases hreply
    exact .inl (update_code hu fun _ => rfl)
  | sema_down sema =>
    cases sema with
    | mutex =>
      cases (Option.ite_none_right_eq_some.mp hreply).2
      exact .inl ⟨thu, hu, rfl⟩
    | fd_wait =>
      cases (Option.ite_none_right_eq_some.mp hreply).2
      exact .inl (update_code hu fun _ => rfl)
  | sema_up sema =>
    cases sema with
    | mutex =>
      cases hreply
      exact .inl ⟨thu, hu, rfl⟩
    | fd_wait =>
      cases hreply
      exact .inl (update_code hu fun _ => rfl)
  | thread_create name fn_copy =>
    simp only [reply] at hreply
    split at hreply
    · cases hreply
      exact .inl ⟨thu, hu, rfl⟩
    · rename_i c hpage
      obtain ⟨hc, heq⟩ := Option.ite_none_right_eq_some.mp hreply
      cases heq
      simp only [create, Function.update_apply] at hu
      split at hu
      · rename_i heq
        cases hu
        exact .inr ⟨name, fn_copy, rfl, heq ▸ hpage, heq ▸ Option.isNone_iff_eq_none.mp hc, rfl⟩
      · exact .inl (update_code hu fun _ => rfl)
  | poll_load_finish =>
    cases (Option.ite_none_right_eq_some.mp hreply).2
    exact .inl ⟨thu, hu, rfl⟩
  | poll_ready_to_exit c =>
    cases (Option.ite_none_right_eq_some.mp hreply).2
    exact .inl ⟨thu, hu, rfl⟩
  | poll_deleted_from_parent =>
    cases (Option.ite_none_right_eq_some.mp hreply).2
    exact .inl ⟨thu, hu, rfl⟩
  | child_exit_status c =>
    obtain ⟨child, -, heq⟩ := Option.map_eq_some_iff.mp hreply
    cases heq
    exact .inl ⟨thu, hu, rfl⟩
  | parent_child_load_success | parent_load_finish | list_remove c | deleted_from_parent c | exit_status status
    | ready_to_exit =>
    cases hreply
    exact .inl (update_code hu fun _ => rfl)
  | schedule_dying | shutdown_power_off | panic | spin | wild => cases hreply

theorem World.set_code_threads (w : World) (t u : ThreadId) (code : Kernel (Option Int)) :
    (w.set_code t code).threads u =
      if u = t then (w.threads t).map fun th => { th with code } else w.threads u :=
  Function.update_apply _ _ _ _

/-- The points of the threads after a request that has been granted. -/
theorem World.record_points {k : o.Ans → Kernel (Option Int)} {r : o.Ans} {g : o.Ans → Point}
    (hth : w.threads t = some th) (hcode : th.code = .ask o k)
    (hreply : w.reply t th env o = some (r, w₁)) (hnext : (h.points t).next o = some g) (u : ThreadId) :
    (w.record ⟨t, .go env⟩ h).points u =
      if o.new_page env = some u then ⟨.loading, .idle⟩ else if u = t then g r else h.points u := by
  rw [record, hth]
  simp only [hcode, hreply, hnext, Option.elim_some]
  cases hpage : o.new_page env with
  | none => simp [Function.update_apply]
  | some c => simp [Function.update_apply, eq_comm (a := c)]

/-- The page of a new thread has been free. -/
theorem World.reply_new_page {r : o.Ans} (hreply : w.reply t th env o = some (r, w₁))
    (hpage : o.new_page env = some u) : w.threads u = none := by
  cases o with
  | thread_create name fn_copy =>
    simp only [Op.new_page] at hpage
    simp only [reply, hpage] at hreply
    exact Option.isNone_iff_eq_none.mp (Option.ite_none_right_eq_some.mp hreply).1
  | _ => cases hpage

theorem next_touches {p : Point} {g : o.Ans → Point} (haccesses : o.accesses = true)
    (hnext : p.next o = some g) :
    p.stage = .running ∨ p.stage = .locked := by
  obtain ⟨f, e, hf, -, -⟩ := Point.next_some hnext
  cases o with
  | load _ | load_word _ | store _ _ =>
    have htouches := (Option.ite_none_right_eq_some.mp hf).1
    unfold Stage.touches at htouches
    split at htouches
    · exact .inl ‹_›
    · exact .inr ‹_›
    · cases htouches
  | _ => cases haccesses

theorem next_schedule_dying {p : Point} {g : Op.schedule_dying.Ans → Point}
    (hnext : p.next .schedule_dying = some g) : p.stage = .dying := by
  obtain ⟨f, e, hf, -, -⟩ := Point.next_some hnext
  simp only [Stage.next] at hf
  split at hf
  · assumption
  · cases hf

/-- A step that strays nowhere leaves every thread on its point, and is a move of the family or none
that others notice. -/
theorem World.step_family (hpoint : w.OnPoint h) (hstep : w.step l = some w')
    (hstray : ∀ w'', l.event ≠ .stray w'') :
    w'.OnPoint (w.record l h) ∧
      (w'.family (w.record l h) = w.family h ∨
        ∃ a, w.Shows l a ∧ (w.family h).Step l.thread a (w'.family (w.record l h))) := by
  obtain ⟨th, hth, hmoves⟩ := step_moves hstep
  obtain ⟨t, e⟩ := l
  have hcode := hpoint t th hth
  simp only at hth hmoves hstray ⊢
  cases hmoves with
  | @enters _ v code hret hstays =>
    rw [hret] at hcode
    have hrecord : w.record ⟨t, e⟩ h = h := by
      rw [record, hth]
      simp only [hret]
    rw [hrecord]
    refine ⟨fun u thu hu => ?_, .inl (family_update_same w h t fun _ _ => rfl)⟩
    rw [set_code_threads] at hu
    split at hu
    · rename_i heq
      rw [hth] at hu
      cases hu
      rw [heq, show h.points t = ⟨.running, .idle⟩ from hcode]
      exact hstays
    · exact hpoint u thu hu
  | @requests env o k r w₁ hask hstrays hreply =>
    rw [hask] at hcode
    obtain ⟨g, hnext, hk⟩ := hcode
    constructor
    · intro u thu hu
      rw [record_points hth hask hreply hnext]
      rw [set_code_threads] at hu
      split at hu
      · rename_i heq
        obtain ⟨th₁, hth₁, rfl⟩ := Option.map_eq_some_iff.mp hu
        have hpage : o.new_page env ≠ some u := fun hpage => by
          rw [heq] at hpage
          rw [reply_new_page hreply hpage] at hth
          cases hth
        rw [if_neg hpage, if_pos heq]
        exact hk r
      · rename_i hne
        obtain ⟨th₀, hth₀, hsame⟩ | ⟨name, fn_copy, rfl, hpage, -, hnew⟩ := reply_code hreply hu
        · have hpage : o.new_page env ≠ some u := fun hpage => by
            rw [reply_new_page hreply hpage] at hth₀
            cases hth₀
          rw [if_neg hpage, if_neg hne, hsame]
          exact hpoint u th₀ hth₀
        · rw [if_pos hpage, hnew]
          exact goes_start_process fn_copy
    · refine (reply_moves hth hask hstrays hreply hnext).imp_right ?_
      rintro ⟨a, ha, hstep⟩
      exact ⟨a, .request hth hask rfl hreply ha, hstep⟩
  | @faults addr o k hask haccesses =>
    rw [hask] at hcode
    obtain ⟨g, hnext, -⟩ := hcode
    have hrecord : w.record ⟨t, .fault addr⟩ h =
        { points := Function.update h.points t ⟨.running, .idle⟩, notes := [] ++ h.notes } := by
      rw [record, hth]
      simp only [hask, List.nil_append]
    rw [hrecord]
    constructor
    · intro u thu hu
      rw [set_code_threads] at hu
      simp only [Function.update_apply]
      split at hu
      · rename_i heq
        rw [if_pos heq]
        obtain ⟨th₁, -, rfl⟩ := Option.map_eq_some_iff.mp hu
        exact stays_page_fault _
      · rename_i hne
        rw [if_neg hne]
        exact hpoint u thu hu
    · refine .inr ⟨.fault, .fault rfl, _, _, _, _, family_procs h hth,
        .fault (next_touches haccesses hnext), ?_⟩
      exact family_go w h t _ _ []
  | @dies k hask =>
    rw [hask] at hcode
    obtain ⟨g, hnext, -⟩ := hcode
    have hrecord : w.record ⟨t, .die⟩ h = h := by rw [record, hth]
    rw [hrecord]
    constructor
    · intro u thu hu
      simp only [Function.update_apply] at hu
      split at hu
      · cases hu
      · exact hpoint u thu hu
    · refine .inr ⟨.die, .die rfl, _, _, _, _, family_procs h hth, .die (next_schedule_dying hnext), ?_⟩
      simp only [family, Family.note, Family.go, Family.update, List.nil_append, Family.mk.injEq, and_true]
      funext u
      by_cases hu : u = t
      · subst hu
        simp [Function.update_self]
      · simp [Function.update_of_ne hu]
  | strays hask _ => exact absurd rfl (hstray _)

end Steps

section Runs

variable {f f' : Family} {p q : Proc} {a : Act}

@[simp] theorem Family.note_procs (f : Family) (notes : List Note) : (f.note notes).procs = f.procs := rfl

@[simp] theorem Family.note_notes (f : Family) (notes : List Note) :
    (f.note notes).notes = notes ++ f.notes := rfl

@[simp] theorem Family.note_mutex (f : Family) (notes : List Note) : (f.note notes).mutex = f.mutex := rfl

@[simp] theorem Family.note_next_tid (f : Family) (notes : List Note) :
    (f.note notes).next_tid = f.next_tid := rfl

@[simp] theorem Family.go_notes (f : Family) (t : ThreadId) (p : Point) : (f.go t p).notes = f.notes := rfl

@[simp] theorem Family.go_mutex (f : Family) (t : ThreadId) (p : Point) : (f.go t p).mutex = f.mutex := rfl

@[simp] theorem Family.go_next_tid (f : Family) (t : ThreadId) (p : Point) :
    (f.go t p).next_tid = f.next_tid := rfl

/-- The family when boot is done. -/
def Family.Boot (f : Family) : Prop :=
  ∃ main idle, main ≠ idle ∧ f = (World.boot main idle).family .boot

/-- A rule for runs without stray accesses: what holds at boot, and is kept by moves that meet a
condition, holds of every family that steps reach whose acts meet it. -/
theorem family_invariant {guard : World × History → Label → Prop} {G : Family → ThreadId → Act → Prop}
    {I : Family → Prop} (hstray : ∀ s l, guard s l → ∀ w', l.event ≠ .stray w')
    (hguard : ∀ s l a, guard s l → s.1.Shows l a → G (s.1.family s.2) l.thread a)
    (hboot : ∀ f, f.Boot → I f) (hstep : ∀ f t a f', I f → G f t a → f.Step t a f' → I f')
    {s : World × History} (h : (observed_processes.restrict guard).Reachable s) :
    s.1.OnPoint s.2 ∧ I (s.1.family s.2) := by
  refine h.invariant (I := fun s => s.1.OnPoint s.2 ∧ I (s.1.family s.2)) ?_ ?_
  · rintro ⟨w, h⟩ ⟨⟨main, idle, hne, hw⟩, hh⟩
    simp only at hw hh
    subst hw hh
    refine ⟨fun t th ht => ?_, hboot _ ⟨main, idle, hne, rfl⟩⟩
    simp only [World.boot] at ht
    split at ht
    · cases ht
      exact rfl
    · split at ht
      · cases ht
        exact rfl
      · cases ht
  · rintro s l ⟨w', h'⟩ - ⟨hpoint, hI⟩ ⟨hg, hstep', hh'⟩
    simp only at hstep' hh'
    subst hh'
    obtain ⟨hpoint', hfamily⟩ := World.step_family hpoint hstep' (hstray s l hg)
    refine ⟨hpoint', ?_⟩
    obtain hsame | ⟨a, ha, hmove⟩ := hfamily
    · rw [hsame]
      exact hI
    · exact hstep _ _ _ _ hI (hguard s l a hg ha) hmove

end Runs

/-! ## Runs that can be computed -/

section Computed

/-- The files that these runs find. -/
def DirEntry.p : DirEntry where
  name := [112]
  in_use := true
  length_le := by decide
  no_nul := by decide

/-- Whatever is asked for is there. -/
def Query.grant : (q : Query) → q.Ans
  | .malloc _ _ | .palloc_get_page | .pagedir_create | .free_map_allocate | .inode_create _ | .dir_write
  | .load_segments | .setup_stack _ => true
  | .dir_open_root => some [.p]
  | .file_open => some 0
  | .file _ => { length := 0, pos := 0, deny_write := false, data := fun _ => 0 }
  | .input_getc _ => 0

/-- Whatever is asked for is there, in a request of a thread that may find a word and a page. -/
def Label.grant (t : ThreadId) (word : Word) (page : Option ThreadId) : Label :=
  ⟨t, .go { byte := 0, word, answer := Query.grant, page }⟩

/-- The step is one of the first `n` threads. -/
def Label.within (n : Nat) (l : Label) : Bool :=
  l.thread < n && match l.event with
    | .go env => env.page.all (· < n)
    | _ => true

/-- The event is no stray access. -/
def Event.stays : Event → Bool
  | .stray _ => false
  | _ => true

theorem Event.not_stray {e : Event} (h : e.stays = true) (w : World) : e ≠ .stray w := fun he => by
  simp [he, stays] at h

/-- A run that can be computed, with a guard that can. -/
theorem observed_run {guard : World × History → Label → Prop} (check : World × History → Label → Bool)
    (hcheck : ∀ s l, check s l = true → guard s l) (labels : List Label) (test : World × History → Bool)
    (h : (runLabels (checked check (observed World.step World.record)) (World.boot 0 1, .boot)
      labels).any test = true) :
    ∃ s, (observed_processes.restrict guard).Reachable s ∧ test s = true ∧
      runLabels (checked check (observed World.step World.record)) (World.boot 0 1, .boot) labels = some s := by
  obtain ⟨s, hs, htest⟩ := exists_of_any _ _ _ _ h
  refine ⟨s, ?_, htest, hs⟩
  rw [observed_processes, processes, observe_ofStep]
  exact runLabels_checked hcheck ⟨⟨0, 1, by decide, rfl⟩, rfl⟩ hs

/-- A step of one of the first threads leaves the others where they are. -/
theorem World.record_within {n : Nat} (hl : l.within n = true) (hu : n ≤ u) :
    (w.record l h).points u = h.points u := by
  simp only [Label.within, Bool.and_eq_true, decide_eq_true_eq] at hl
  obtain ⟨hthread, hpage⟩ := hl
  have hne : u ≠ l.thread := fun heq => absurd (heq ▸ hthread) (Nat.not_lt.mpr hu)
  rw [record]
  cases w.threads l.thread with
  | none => rfl
  | some th =>
    simp only
    split
    · rename_i env o k he hcode
      split
      · rfl
      · rw [he] at hpage
        cases hnew : o.new_page env with
        | none => exact Function.update_of_ne hne _ _
        | some c =>
          have hc : env.page = some c := by
            cases o with
            | thread_create => exact hnew
            | _ => cases hnew
          have hlt : c < n := by simpa [hc] using hpage
          refine (Function.update_of_ne (fun heq => ?_) _ _).trans (Function.update_of_ne hne _ _)
          exact absurd (heq ▸ hlt) (Nat.not_lt.mpr hu)
    · exact Function.update_of_ne hne _ _
    · rfl

/-- Nor does a run. -/
theorem points_within {n : Nat} {check : World × History → Label → Bool} (hu : n ≤ u) {labels : List Label} :
    ∀ {s s' : World × History}, labels.all (Label.within n) = true →
      runLabels (checked check (observed World.step World.record)) s labels = some s' →
      s'.2.points u = s.2.points u := by
  induction labels with
  | nil =>
    intro s s' _ h
    cases h
    rfl
  | cons l labels ih =>
    intro s s' hwithin h
    rw [List.all_cons, Bool.and_eq_true] at hwithin
    obtain ⟨m, hm, hrest⟩ := Option.bind_eq_some_iff.mp h
    rw [ih hwithin.2 hrest]
    obtain ⟨w₁, -, rfl⟩ := Option.map_eq_some_iff.mp (Option.ite_none_right_eq_some.mp hm).2
    exact World.record_within hwithin.1 hu

end Computed

end pintos.prj2
