import Pintos.Prj2.Kinship

/-!
# How children end, and how parents learn of it

The notes of a run show that every wait has the answer it should have, that every child is removed
once, and that no parent looks at a child that it has released.
-/

open interaction transition

namespace pintos.prj2

/-- Whether `child` has become a child of `tid` that has not been waited for since. -/
def awaitable (tid child : Int) : List Note → Bool
  | [] => false
  | .created tid' child' :: ns => if tid' = tid ∧ child' = child then true else awaitable tid child ns
  | .waited tid' child' _ :: ns => if tid' = tid ∧ child' = child then false else awaitable tid child ns
  | _ :: ns => awaitable tid child ns

/-- The status that an ending leaves. -/
def Ending.status : Ending → Int
  | .exit status => status
  | .killed _ => 0
  | .load_failed => 0

def Ending.Leaves (how : Ending) (status : Int) : Prop := status = how.status

section Proper

variable (Says : Ending → Int → Prop)

/-- The child has ended, and the status says how, as `Says` has it. -/
def Verdict (ns : List Note) (child status : Int) : Prop := ∃ how, .ended child how ∈ ns ∧ Says how status

/-- A note that may follow others: a wait is answered with the status of the child the first time, and
with -1 otherwise; a child is removed once, before it has been waited for, and not accessed by its
parent from its release on; a process ends once. -/
def Note.Fits (ns : List Note) : Note → Prop
  | .waited tid child status =>
    if awaitable tid child ns then Verdict Says ns child status ∧ .removed tid child ∈ ns else status = -1
  | .removed _ child => ∀ tid, .removed tid child ∉ ns
  | .accessed tid child => .released tid child ∉ ns
  | .ended tid _ => ∀ how, .ended tid how ∉ ns
  | _ => True

/-- Each note fits those before it. -/
def Proper : List Note → Prop
  | [] => True
  | n :: ns => n.Fits Says ns ∧ Proper ns

end Proper

variable {f f' f₁ : Family} {t u c : ThreadId} {p p' q q' : Proc} {a : Act} {point : Point} {n : Note}
  {ns notes : List Note} {tid child status : Int} {how : Ending} {Says : Ending → Int → Prop}

section Notes

/-- The process that the note is about. -/
def Note.subject : Note → Option Int
  | .created _ child | .removed _ child | .released _ child => some child
  | .ended tid _ => some tid
  | _ => none

theorem mem_accessed {l : List ThreadId} :
    n ∈ f.accessed p l ↔ ∃ c ∈ l, ∃ q, f.procs c = some q ∧ n = .accessed p.tid q.tid := by
  simp only [Family.accessed, List.mem_filterMap, Option.map_eq_some_iff, eq_comm (a := n)]

theorem awaitable_accessed (l : List ThreadId) :
    awaitable tid child (f.accessed p l ++ ns) = awaitable tid child ns := by
  induction l with
  | nil => rfl
  | cons c l ih =>
    rw [Family.accessed, List.filterMap_cons]
    cases f.procs c with
    | none => exact ih
    | some q => exact ih

theorem created_of_awaitable (h : awaitable tid child ns = true) : .created tid child ∈ ns := by
  induction ns with
  | nil => cases h
  | cons n ns ih =>
    cases n with
    | created tid' child' =>
      rw [awaitable] at h
      split at h
      · rename_i heq
        rw [heq.1, heq.2]
        exact List.mem_cons_self
      · exact List.mem_cons_of_mem _ (ih h)
    | waited tid' child' status =>
      rw [awaitable] at h
      split at h
      · cases h
      · exact List.mem_cons_of_mem _ (ih h)
    | _ => exact List.mem_cons_of_mem _ (ih h)

theorem Verdict.mono (h : Verdict Says ns child status) (notes : List Note) :
    Verdict Says (notes ++ ns) child status := by
  obtain ⟨how, hmem, hstatus⟩ := h
  exact ⟨how, List.mem_append_right notes hmem, hstatus⟩

/-- Where every end leaves a status that says how, the notes are proper for it. -/
theorem Proper.imp {Says' : Ending → Int → Prop} (h : Proper Says ns)
    (himp : ∀ tid how status, .ended tid how ∈ ns → Says how status → Says' how status) : Proper Says' ns := by
  induction ns with
  | nil => trivial
  | cons n ns ih =>
    refine ⟨?_, ih h.2 fun tid how status hmem => himp tid how status (List.mem_cons_of_mem _ hmem)⟩
    have hfits := h.1
    cases n with
    | waited tid child status =>
      rw [Note.Fits] at hfits ⊢
      split
      · rename_i hawaitable
        obtain ⟨⟨how, hmem, hstatus⟩, hremoved⟩ := (if_pos hawaitable).mp hfits
        exact ⟨⟨how, hmem, himp _ how status (List.mem_cons_of_mem _ hmem) hstatus⟩, hremoved⟩
      · rename_i hawaitable
        exact (if_neg hawaitable).mp hfits
    | _ => exact hfits

theorem Proper.accessed {l : List ThreadId} (h : Proper Says ns)
    (hreleased : ∀ c ∈ l, ∀ q, f.procs c = some q → .released p.tid q.tid ∉ ns) :
    Proper Says (f.accessed p l ++ ns) := by
  induction l with
  | nil => exact h
  | cons c l ih =>
    have hrest := ih fun c hc => hreleased c (List.mem_cons_of_mem _ hc)
    rw [Family.accessed, List.filterMap_cons]
    cases hc : f.procs c with
    | none => exact hrest
    | some q =>
      refine ⟨fun hmem => ?_, hrest⟩
      obtain hmem | hmem := List.mem_append.mp hmem
      · obtain ⟨_, _, _, _, heq⟩ := mem_accessed.mp hmem
        cases heq
      · exact hreleased c List.mem_cons_self q hc hmem

end Notes

/-- Notes that a process of the family makes in a move. -/
theorem Family.Move.ended_mem (hmove : f.Move t p a f₁ point notes) (hmem : .ended tid how ∈ notes) :
    tid = p.tid ∧ a = .ends how := by
  cases hmove with
  | find hs =>
    obtain ⟨_, _, _, _, heq⟩ := mem_accessed.mp hmem
    cases heq
  | create | remove =>
    obtain heq | hmem := List.mem_cons.mp hmem
    · cases heq
    · obtain ⟨_, _, _, _, heq⟩ := mem_accessed.mp hmem
      cases heq
  | _ => simp_all

theorem Family.Move.released_mem (hmove : f.Move t p a f₁ point notes) (hmem : .released tid child ∈ notes) :
    a = .release ∧ ∃ tid' c status q, p.point.stage = .removed tid' c status ∧ f.procs c = some q ∧
      tid = p.tid ∧ child = q.tid := by
  cases hmove with
  | find hs =>
    obtain ⟨_, _, _, _, heq⟩ := mem_accessed.mp hmem
    cases heq
  | create | remove =>
    obtain heq | hmem := List.mem_cons.mp hmem
    · cases heq
    · obtain ⟨_, _, _, _, heq⟩ := mem_accessed.mp hmem
      cases heq
  | @release tid' c status q hs hc => exact ⟨rfl, tid', c, status, q, hs, hc, by simpa using hmem⟩
  | _ => simp_all

theorem Family.Move.removed_mem (hmove : f.Move t p a f₁ point notes) (hmem : .removed tid child ∈ notes) :
    a = .remove ∧ ∃ tid' c status q, p.point.stage = .told tid' c status ∧ f.procs c = some q ∧
      tid = p.tid ∧ child = q.tid := by
  cases hmove with
  | find hs =>
    obtain ⟨_, _, _, _, heq⟩ := mem_accessed.mp hmem
    cases heq
  | create =>
    obtain heq | hmem := List.mem_cons.mp hmem
    · cases heq
    · obtain ⟨_, _, _, _, heq⟩ := mem_accessed.mp hmem
      cases heq
  | @remove tid' c status q hs hc =>
    obtain heq | hmem := List.mem_cons.mp hmem
    · cases heq
      exact ⟨rfl, tid', c, status, q, hs, hc, rfl, rfl⟩
    · obtain ⟨_, _, _, _, heq⟩ := mem_accessed.mp hmem
      cases heq
  | _ => simp_all

theorem Family.Move.created_mem (hmove : f.Move t p a f₁ point notes) (hmem : .created tid child ∈ notes) :
    a = .create (some f.next_tid) ∧ tid = p.tid ∧ child = f.next_tid ∧ f₁.next_tid = f.next_tid + 1 := by
  cases hmove with
  | find hs =>
    obtain ⟨_, _, _, _, heq⟩ := mem_accessed.mp hmem
    cases heq
  | create =>
    obtain heq | hmem := List.mem_cons.mp hmem
    · cases heq
      exact ⟨rfl, rfl, rfl, rfl⟩
    · obtain ⟨_, _, _, _, heq⟩ := mem_accessed.mp hmem
      cases heq
  | remove hs hc =>
    obtain heq | hmem := List.mem_cons.mp hmem
    · cases heq
    · obtain ⟨_, _, _, _, heq⟩ := mem_accessed.mp hmem
      cases heq
  | _ => simp_all

/-- Children of a process are created and waited for by the process itself. -/
theorem Family.Move.awaitable_of_ne (hmove : f.Move t p a f₁ point notes) (hne : tid ≠ p.tid) :
    awaitable tid child (notes ++ ns) = awaitable tid child ns := by
  cases hmove with
  | find hs => exact awaitable_accessed _
  | create hs he hc =>
    rw [List.cons_append, awaitable, if_neg fun h => hne h.1.symm]
    exact awaitable_accessed _
  | remove hs hc =>
    rw [List.cons_append, awaitable]
    · exact awaitable_accessed _
    all_goals simp
  | waited hs => exact if_neg fun h => hne h.1.symm
  | _ => rfl

/-- What a process has still to wait for changes when it creates a child, and when it waits for one. -/
theorem Family.Move.awaitable_same (hmove : f.Move t p a f₁ point notes)
    (hcreate : a ≠ .create (some f.next_tid))
    (hwaited : a ≠ .waited) : awaitable tid child (notes ++ ns) = awaitable tid child ns := by
  cases hmove with
  | find hs => exact awaitable_accessed _
  | create hs he hc => exact absurd rfl hcreate
  | remove hs hc =>
    rw [List.cons_append, awaitable]
    · exact awaitable_accessed _
    all_goals simp
  | waited hs => exact absurd rfl hwaited
  | _ => rfl

theorem Family.Move.next_tid_le (hmove : f.Move t p a f₁ point notes) : f.next_tid ≤ f₁.next_tid := by
  cases hmove with
  | create => exact Int.le_of_lt (Int.lt_succ _)
  | _ => exact Int.le_refl _

theorem Family.Move.subject_lt (hmove : f.Move t p a f₁ point notes) (hp : f.procs t = some p)
    (hlt : ∀ u q, f.procs u = some q → q.tid < f.next_tid) :
    ∀ n ∈ notes, ∀ child, n.subject = some child → child < f₁.next_tid := by
  intro n hmem child hsubject
  have hle := hmove.next_tid_le
  cases n with
  | created x y =>
    obtain rfl := Option.some.inj hsubject
    obtain ⟨-, -, rfl, hnext⟩ := hmove.created_mem hmem
    exact hnext ▸ Int.lt_succ _
  | removed x y =>
    obtain rfl := Option.some.inj hsubject
    obtain ⟨-, -, c, -, q, -, hq, -, rfl⟩ := hmove.removed_mem hmem
    exact Int.lt_of_lt_of_le (hlt c q hq) hle
  | released x y =>
    obtain rfl := Option.some.inj hsubject
    obtain ⟨-, -, c, -, q, -, hq, -, rfl⟩ := hmove.released_mem hmem
    exact Int.lt_of_lt_of_le (hlt c q hq) hle
  | ended x how =>
    obtain rfl := Option.some.inj hsubject
    exact (hmove.ended_mem hmem).1 ▸ Int.lt_of_lt_of_le (hlt t p hp) hle
  | _ => cases hsubject

section Ends

/-- The process is past its end. -/
def Stage.past_end : Stage → Bool
  | .exiting _ | .closing | .ready | .dying => true
  | _ => false

/-- How far a process has come with its end. -/
structure Proc.Ends (p : Proc) (ns : List Note) : Prop where
  ready : p.ready_to_exit = true ↔ p.point.stage = .ready ∨ p.point.stage = .dying
  dying : p.point.stage = .dying → p.deleted_from_parent = true
  exiting : ∀ s, p.point.stage = .exiting s → .ended p.tid (.exit s) ∈ ns
  past : p.point.stage = .closing ∨ p.point.stage = .ready ∨ p.point.stage = .dying →
    ∃ how, .ended p.tid how ∈ ns ∧ p.exit_status = how.status
  alive : p.point.stage.past_end = false → p.exit_status = 0 ∧ ∀ how, .ended p.tid how ∉ ns

/-- Acts that change a list of children. -/
def Act.lists : Act → Bool
  | .create (some _) | .remove => true
  | _ => false

/-- What a process keeps in its own moves. -/
structure Proc.Continues (p p' : Proc) (a : Act) : Prop where
  tid : p'.tid = p.tid
  parent : p'.parent = p.parent
  child_list : a.lists = false → p'.child_list = p.child_list
  exit_status : a ≠ .store_status → p'.exit_status = p.exit_status
  ready_to_exit : a ≠ .ready → p'.ready_to_exit = p.ready_to_exit
  stays_ready : p.ready_to_exit = true → p'.ready_to_exit = true
  deleted_from_parent : p.deleted_from_parent = true → p'.deleted_from_parent = true

theorem Family.Move.continues (hmove : f.Move t p a f₁ point ns) (hp : f.procs t = some p)
    (hp' : f₁.procs t = some p') : p.Continues p' a := by
  have hself : f₁.procs t = f.procs t → p.Continues p' a := fun heq => by
    rw [heq, hp] at hp'
    cases hp'
    exact ⟨rfl, rfl, fun _ => rfl, fun _ => rfl, fun _ => rfl, id, id⟩
  cases hmove with
  | create hs he hc =>
    rw [create_procs, if_neg, if_pos rfl, hp] at hp'
    · cases hp'
      exact ⟨rfl, rfl, nofun, fun _ => rfl, fun _ => rfl, id, id⟩
    · rintro rfl
      rw [hc] at hp
      cases hp
  | remove hs hc =>
    rw [update_procs, if_pos rfl, hp] at hp'
    cases hp'
    exact ⟨rfl, rfl, nofun, fun _ => rfl, fun _ => rfl, id, id⟩
  | store_status hs =>
    rw [update_procs, if_pos rfl, hp] at hp'
    cases hp'
    exact ⟨rfl, rfl, fun _ => rfl, fun h => absurd rfl h, fun _ => rfl, id, id⟩
  | ready hs =>
    rw [update_procs, if_pos rfl, hp] at hp'
    cases hp'
    exact ⟨rfl, rfl, fun _ => rfl, fun _ => rfl, fun h => absurd rfl h, fun _ => rfl, id⟩
  | release hs hc | unload hs hc | finish hs hc =>
    rw [update_procs] at hp'
    split at hp'
    · rename_i heq
      rw [← heq, hp] at hp'
      cases hp'
      exact ⟨rfl, rfl, fun _ => rfl, fun _ => rfl, fun _ => rfl, id, by simp⟩
    · rw [hp] at hp'
      cases hp'
      exact ⟨rfl, rfl, fun _ => rfl, fun _ => rfl, fun _ => rfl, id, id⟩
  | die hs =>
    have hnone : Function.update f.procs t none t = none := Function.update_self _ _ _
    cases hnone.symm.trans hp'
  | _ => exact hself rfl

/-- Acts that are no part of the end of a process. -/
def Act.ordinary : Act → Bool
  | .ends _ | .store_status | .ready | .poll_deleted | .die => false
  | _ => true

theorem Family.Move.ordinary (hmove : f.Move t p a f₁ point notes) (ha : a.ordinary = true) :
    p.point.stage.past_end = false ∧ point.stage.past_end = false ∧ ∀ tid how, .ended tid how ∉ notes := by
  cases hmove with
  | fault hs => exact ⟨by obtain hs | hs := hs <;> rw [hs] <;> rfl, rfl, by simp⟩
  | find hs =>
    refine ⟨by rw [hs]; rfl, ?_, fun tid how hmem => ?_⟩
    · cases f.find_child p.child_list _ <;> rfl
    · obtain ⟨_, _, _, _, heq⟩ := mem_accessed.mp hmem
      cases heq
  | create hs he hc | remove hs hc =>
    refine ⟨by rw [hs]; rfl, rfl, fun tid how hmem => ?_⟩
    obtain heq | hmem := List.mem_cons.mp hmem
    · cases heq
    · obtain ⟨_, _, _, _, heq⟩ := mem_accessed.mp hmem
      cases heq
  | poll_load_finish hs hf =>
    refine ⟨by rw [hs]; rfl, ?_, by simp⟩
    simp only
    split <;> rfl
  | finish hs hparent =>
    refine ⟨by rw [hs]; rfl, ?_, by simp⟩
    simp only
    split <;> rfl
  | @loaded success hs => exact ⟨by rw [hs]; cases success <;> rfl, rfl, by simp⟩
  | waited hs => exact ⟨by obtain hs | ⟨hs, -⟩ := hs <;> rw [hs] <;> rfl, rfl, by simp⟩
  | exec hs | judge hs | returns hs => exact ⟨by rw [hs]; rfl, by rw [hs]; rfl, by simp⟩
  | lock hs | unlock hs | create_none hs | free_copy hs | wait_ready hs | read_status hs | release hs | unload hs =>
    exact ⟨by rw [hs]; rfl, rfl, by simp⟩
  | exits | killed | fails | store_status | ready | poll_deleted | die => cases ha

theorem Stage.not_past_end {s : Stage} (h : s.past_end = false) :
    (∀ status, s ≠ .exiting status) ∧ s ≠ .closing ∧ s ≠ .ready ∧ s ≠ .dying :=
  ⟨fun _ hs => by simp [hs, past_end] at h, fun hs => by simp [hs, past_end] at h,
    fun hs => by simp [hs, past_end] at h, fun hs => by simp [hs, past_end] at h⟩

/-- The end of a process goes on with its own moves. -/
theorem Proc.Ends.move (h : p.Ends f.notes) (hmove : f.Move t p a f₁ point notes) (hp : f.procs t = some p)
    (hp' : f₁.procs t = some p') : ({ p' with point } : Proc).Ends (notes ++ f.notes) := by
  have hcont := hmove.continues hp hp'
  by_cases ha : a.ordinary = true
  · obtain ⟨hstage, hpoint, hnotes⟩ := hmove.ordinary ha
    obtain ⟨-, -, hready, hdying⟩ := Stage.not_past_end hstage
    obtain ⟨hexiting', hclosing', hready', hdying'⟩ := Stage.not_past_end hpoint
    have hstatus : p'.exit_status = p.exit_status :=
      hcont.exit_status fun heq => by simp [heq, Act.ordinary] at ha
    have hsame : p'.ready_to_exit = p.ready_to_exit :=
      hcont.ready_to_exit fun heq => by simp [heq, Act.ordinary] at ha
    obtain ⟨hzero, hends⟩ := h.alive hstage
    refine ⟨?_, fun hs => absurd hs hdying', fun s hs => absurd hs (hexiting' s), ?_,
      fun _ => ⟨?_, fun how hmem => ?_⟩⟩
    · rw [hsame, h.ready]
      exact iff_of_false (by simp [hready, hdying]) (by simp [hready', hdying'])
    · rintro (hs | hs | hs)
      · exact absurd hs hclosing'
      · exact absurd hs hready'
      · exact absurd hs hdying'
    · exact hstatus.trans hzero
    · obtain hmem | hmem := List.mem_append.mp hmem
      · exact hnotes _ _ hmem
      · exact hends how (hcont.tid ▸ hmem)
  cases hmove with
  | exits hs =>
    obtain rfl : p' = p := Option.some.inj (hp'.symm.trans hp)
    refine ⟨?_, by simp, fun s hs => ?_, by simp, by simp [Stage.past_end]⟩
    · simp only [h.ready, reduceCtorEq, or_self, iff_false]
      obtain hs | hs := hs <;> simp [hs]
    · cases hs
      exact List.mem_cons_self
  | killed hs =>
    obtain rfl : p' = p := Option.some.inj (hp'.symm.trans hp)
    refine ⟨?_, by simp, by simp, fun _ => ⟨_, List.mem_cons_self, ?_⟩, by simp [Stage.past_end]⟩
    · simp [h.ready, hs]
    · exact (h.alive (by rw [hs]; rfl)).1
  | fails hs =>
    obtain rfl : p' = p := Option.some.inj (hp'.symm.trans hp)
    refine ⟨?_, by simp, by simp, fun _ => ⟨_, List.mem_cons_self, ?_⟩, by simp [Stage.past_end]⟩
    · simp [h.ready, hs]
    · exact (h.alive (by rw [hs]; rfl)).1
  | store_status hs =>
    rw [Family.update_procs, if_pos rfl, hp] at hp'
    cases hp'
    refine ⟨?_, by simp, by simp, fun _ => ⟨_, h.exiting _ hs, rfl⟩, by simp [Stage.past_end]⟩
    simp [h.ready, hs]
  | ready hs =>
    rw [Family.update_procs, if_pos rfl, hp] at hp'
    cases hp'
    exact ⟨by simp, by simp, by simp, fun _ => h.past (.inl hs), by simp [Stage.past_end]⟩
  | poll_deleted hs hd =>
    obtain rfl : p' = p := Option.some.inj (hp'.symm.trans hp)
    refine ⟨?_, fun _ => hd, by simp, fun _ => h.past (.inr (.inl hs)), by simp [Stage.past_end]⟩
    simp [h.ready, hs]
  | die hs =>
    have hnone : Function.update f.procs t none t = none := Function.update_self _ _ _
    cases hnone.symm.trans hp'
  | _ => exact absurd rfl ha

end Ends

end pintos.prj2
