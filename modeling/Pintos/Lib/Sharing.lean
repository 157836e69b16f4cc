import Mathlib.Data.Set.Card

/-!
# Shared objects and the flags of their handles

A handle refers to an object and may have its flag set. Other references to an object are only
counted. The rules say how the numbers of references and of flags of each object change with
the handles.
-/

namespace sharing

/-- Changing a function at one argument changes how many arguments have a property there. -/
theorem ncard_update {H V : Type} [DecidableEq H] (f : H → V) (P : V → Prop) [DecidablePred P]
    (hfin : {g | P (f g)}.Finite) (h : H) (v : V) :
    {g | P (if g = h then v else f g)}.ncard + (if P (f h) then 1 else 0) =
      {g | P (f g)}.ncard + if P v then 1 else 0 := by
  have hrest : ({g | P (f g)} \ {h}).ncard + (if P (f h) then 1 else 0) = {g | P (f g)}.ncard := by
    split_ifs with hold
    · exact Set.ncard_sdiff_singleton_add_one hold hfin
    · have hself : {g | P (f g)} \ {h} = {g | P (f g)} := Set.sdiff_singleton_eq_self hold
      rw [hself, Nat.add_zero]
  have hafter : {g | P (if g = h then v else f g)}.ncard =
      ({g | P (f g)} \ {h}).ncard + if P v then 1 else 0 := by
    split_ifs with hnew
    · rw [← Set.ncard_insert_of_notMem (a := h) (by simp) (hfin.subset Set.sdiff_subset)]
      congr 1
      ext g
      by_cases hg : g = h
      · simp [hg, hnew]
      · simp [hg]
    · congr 1
      ext g
      by_cases hg : g = h
      · simp [hg, hnew]
      · simp [hg]
  omega

/-- The object and the flag of each handle, and the number of the other references to each
object. -/
structure Table (H O : Type) where
  handle : H → Option (O × Bool)
  held : O → Nat

namespace Table

variable {H O : Type} {t : Table H O} {h : H} {o o' : O}

/-- The handles of an object. -/
def handles (t : Table H O) (o : O) : Set H := {h | (t.handle h).map Prod.fst = some o}

/-- Those of them whose flag is set. -/
def flagged (t : Table H O) (o : O) : Set H := {h | t.handle h = some (o, true)}

noncomputable def references (t : Table H O) (o : O) : Nat := (t.handles o).ncard + t.held o

noncomputable def flags (t : Table H O) (o : O) : Nat := (t.flagged o).ncard

/-- Every object has finitely many handles. -/
def Finite (t : Table H O) : Prop := ∀ o, (t.handles o).Finite

theorem flagged_subset (t : Table H O) (o : O) : t.flagged o ⊆ t.handles o := by
  intro h hflag
  have hhandle : t.handle h = some (o, true) := hflag
  simp [handles, hhandle]

theorem Finite.flagged (ht : t.Finite) (o : O) : (t.flagged o).Finite :=
  (ht o).subset (t.flagged_subset o)

/-- An object has no more flags than references. -/
theorem Finite.flags_le (ht : t.Finite) (o : O) : t.flags o ≤ t.references o :=
  (Set.ncard_le_ncard (t.flagged_subset o) (ht o)).trans (Nat.le_add_right _ _)

/-- An object that a handle refers to has a reference. -/
theorem Finite.references_pos (ht : t.Finite) {flag : Bool} (hh : t.handle h = some (o, flag)) :
    0 < t.references o := by
  have hmem : h ∈ t.handles o := by simp [handles, hh]
  have hpos := (Set.ncard_pos (ht o)).mpr ⟨h, hmem⟩
  rw [references]
  omega

section Held

variable [DecidableEq O]

/-- One reference more. -/
def acquire (t : Table H O) (o : O) : Table H O :=
  { t with held := fun q => if q = o then t.held q + 1 else t.held q }

/-- One reference less. -/
def release (t : Table H O) (o : O) : Table H O :=
  { t with held := fun q => if q = o then t.held q - 1 else t.held q }

@[simp] theorem flags_acquire (t : Table H O) (o o' : O) : (t.acquire o).flags o' = t.flags o' := rfl

@[simp] theorem flags_release (t : Table H O) (o o' : O) : (t.release o).flags o' = t.flags o' := rfl

theorem references_acquire (t : Table H O) (o o' : O) :
    (t.acquire o).references o' = t.references o' + if o' = o then 1 else 0 := by
  simp only [references, acquire, handles]
  split_ifs <;> omega

theorem references_release (hheld : 0 < t.held o) (o' : O) :
    (t.release o).references o' + (if o' = o then 1 else 0) = t.references o' := by
  simp only [references, release, handles]
  split_ifs with ho
  · subst ho
    omega
  · omega

end Held

section Handle

variable [DecidableEq H]

/-- One handle changed. -/
def set (t : Table H O) (h : H) (v : Option (O × Bool)) : Table H O :=
  { t with handle := fun g => if g = h then v else t.handle g }

theorem set_self (t : Table H O) (h : H) : t.set h (t.handle h) = t := by
  simp only [set]
  congr
  funext g
  split_ifs with hg
  · rw [hg]
  · rfl

theorem Finite.set (ht : t.Finite) (h : H) (v : Option (O × Bool)) : (t.set h v).Finite := by
  intro o
  apply ((ht o).insert h).subset
  intro g hg
  by_cases hgh : g = h
  · exact .inl hgh
  · right
    simpa [handles, Table.set, hgh] using hg

variable [DecidableEq O]

theorem references_set (ht : t.Finite) (h : H) (v : Option (O × Bool)) (o : O) :
    (t.set h v).references o + (if (t.handle h).map Prod.fst = some o then 1 else 0) =
      t.references o + if v.map Prod.fst = some o then 1 else 0 := by
  have hcount := ncard_update t.handle (fun v => v.map Prod.fst = some o) (ht o) h v
  simp only [references, handles, set]
  omega

theorem flags_set (ht : t.Finite) (h : H) (v : Option (O × Bool)) (o : O) :
    (t.set h v).flags o + (if t.handle h = some (o, true) then 1 else 0) =
      t.flags o + if v = some (o, true) then 1 else 0 :=
  ncard_update t.handle (fun v => v = some (o, true)) (ht.flagged o) h v

/-- The flag of a handle changes no number of references. -/
theorem references_flag (ht : t.Finite) {flag : Bool} (hh : t.handle h = some (o, flag)) (flag' : Bool)
    (o' : O) : (t.set h (some (o, flag'))).references o' = t.references o' := by
  have hset := references_set ht h (some (o, flag')) o'
  simpa [hh] using hset

theorem flags_raise (ht : t.Finite) (hh : t.handle h = some (o, false)) (o' : O) :
    (t.set h (some (o, true))).flags o' = t.flags o' + if o' = o then 1 else 0 := by
  have hset := flags_set ht h (some (o, true)) o'
  simpa [hh, @eq_comm _ o o'] using hset

theorem flags_lower (ht : t.Finite) (hh : t.handle h = some (o, true)) (o' : O) :
    (t.set h (some (o, false))).flags o' + (if o' = o then 1 else 0) = t.flags o' := by
  have hset := flags_set ht h (some (o, false)) o'
  simpa [hh, @eq_comm _ o o'] using hset

/-- A reference becomes that of a new handle. -/
def attach (t : Table H O) (h : H) (o : O) : Table H O := (t.release o).set h (some (o, false))

/-- A handle goes, its reference stays. -/
def detach (t : Table H O) (h : H) (o : O) : Table H O := (t.acquire o).set h none

theorem references_attach (ht : t.Finite) (hnew : t.handle h = none) (hheld : 0 < t.held o) (o' : O) :
    (t.attach h o).references o' = t.references o' := by
  have hset := references_set (t := t.release o) ht h (some (o, false)) o'
  have hrelease := references_release hheld o'
  have hhandle : (t.release o).handle h = none := hnew
  simp only [hhandle, Option.map_none, reduceCtorEq, if_false, Option.map_some, Option.some.injEq,
    @eq_comm _ o o'] at hset
  rw [attach]
  omega

theorem flags_attach (ht : t.Finite) (hnew : t.handle h = none) (o o' : O) :
    (t.attach h o).flags o' = t.flags o' := by
  have hset := flags_set (t := t.release o) ht h (some (o, false)) o'
  have hhandle : (t.release o).handle h = none := hnew
  simpa [attach, hhandle] using hset

theorem references_detach (ht : t.Finite) {flag : Bool} (hh : t.handle h = some (o, flag)) (o' : O) :
    (t.detach h o).references o' = t.references o' := by
  have hset := references_set (t := t.acquire o) ht h none o'
  have hacquire := t.references_acquire o o'
  have hhandle : (t.acquire o).handle h = some (o, flag) := hh
  simp only [hhandle, Option.map_none, reduceCtorEq, if_false, Option.map_some, Option.some.injEq,
    @eq_comm _ o o'] at hset
  rw [detach]
  omega

theorem flags_detach (ht : t.Finite) (hh : t.handle h = some (o, false)) (o' : O) :
    (t.detach h o).flags o' = t.flags o' := by
  have hset := flags_set (t := t.acquire o) ht h none o'
  have hhandle : (t.acquire o).handle h = some (o, false) := hh
  simpa [detach, hhandle] using hset

end Handle

end Table

end sharing
