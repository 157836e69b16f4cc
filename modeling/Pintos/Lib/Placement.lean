import Mathlib.Data.List.Perm.Basic
import Mathlib.Logic.Function.Basic

/-!
# Items kept in a family of queues

Every item is filed in one queue of a family, or in none. The queues agree
with the filing when each holds exactly the items filed in it, once each.
Moving an item is removing it everywhere and entering it in one queue.
-/

namespace placement

variable {Queue Item : Type*}

/-- Each queue holds exactly the items filed in it, once each. -/
structure Placed (queue : Queue → List Item) (filed : Item → Option Queue) : Prop where
  nodup : ∀ q, (queue q).Nodup
  mem : ∀ q t, t ∈ queue q ↔ filed t = some q

/-- An item is in at most one queue. -/
theorem Placed.unique {queue : Queue → List Item} {filed : Item → Option Queue}
    (h : Placed queue filed) {t : Item} {q q' : Queue} (hq : t ∈ queue q) (hq' : t ∈ queue q') :
    q = q' :=
  Option.some.inj (((h.mem q t).mp hq).symm.trans ((h.mem q' t).mp hq'))

/-- The order inside the queues does not matter. -/
theorem Placed.congr {queue queue' : Queue → List Item} {filed filed' : Item → Option Queue}
    (h : Placed queue filed) (hqueue : ∀ q, (queue' q).Perm (queue q))
    (hfiled : ∀ t, filed' t = filed t) : Placed queue' filed' where
  nodup q := (hqueue q).nodup_iff.mpr (h.nodup q)
  mem q t := by rw [(hqueue q).mem_iff, h.mem, hfiled]

variable [DecidableEq Item]

theorem Placed.leave {queue queue' : Queue → List Item} {filed filed' : Item → Option Queue}
    (h : Placed queue filed) (t : Item) (hqueue : ∀ q, queue' q = (queue q).erase t)
    (hfiled : ∀ u, filed' u = if u = t then none else filed u) : Placed queue' filed' where
  nodup q := by
    rw [hqueue]
    exact (h.nodup q).erase t
  mem q u := by
    rw [hqueue, (h.nodup q).mem_erase_iff, h.mem, hfiled]
    by_cases hu : u = t <;> simp [hu]

theorem Placed.enter {queue queue' : Queue → List Item} {filed filed' : Item → Option Queue}
    [DecidableEq Queue] (h : Placed queue filed) {t : Item} (hfree : filed t = none) (p : Queue)
    (hqueue : ∀ q, (queue' q).Perm (if q = p then t :: queue q else queue q))
    (hfiled : ∀ u, filed' u = if u = t then some p else filed u) : Placed queue' filed' where
  nodup q := by
    rw [(hqueue q).nodup_iff]
    by_cases hq : q = p
    · rw [if_pos hq, List.nodup_cons, h.mem]
      exact ⟨by simp [hfree], h.nodup q⟩
    · rw [if_neg hq]
      exact h.nodup q
  mem q u := by
    rw [(hqueue q).mem_iff, hfiled]
    by_cases hq : q = p
    · by_cases hu : u = t <;> simp [hq, hu, h.mem]
    · by_cases hu : u = t
      · simp [hq, hu, h.mem, hfree, Ne.symm hq]
      · simp [hq, hu, h.mem]

/-- An item moves from wherever it is to one queue. -/
theorem Placed.move {queue queue' : Queue → List Item} {filed filed' : Item → Option Queue}
    [DecidableEq Queue] (h : Placed queue filed) (t : Item) (p : Queue)
    (hqueue : ∀ q, (queue' q).Perm (if q = p then t :: (queue q).erase t else (queue q).erase t))
    (hfiled : ∀ u, filed' u = if u = t then some p else filed u) : Placed queue' filed' := by
  have hleft : Placed (fun q => (queue q).erase t) (fun u => if u = t then none else filed u) :=
    h.leave t (fun _ => rfl) fun _ => rfl
  refine hleft.enter (t := t) (if_pos rfl) p hqueue fun u => ?_
  by_cases hu : u = t <;> simp [hu, hfiled]

/-- An item that is in no queue is not found in the lists. -/
theorem Placed.erase_of_none {queue : Queue → List Item} {filed : Item → Option Queue}
    (h : Placed queue filed) {t : Item} (hfree : filed t = none) (q : Queue) :
    (queue q).erase t = queue q :=
  List.erase_of_not_mem (by simp [h.mem, hfree])

end placement
