import Pintos.Prj2.FamilySteps

/-!
# Parents and children

The lists of children are apart from each other and name live processes. Only four kinds of moves
change them, or the processes that are live.
-/

open interaction transition

namespace pintos.prj2

/-- What makes a process a relative of others. -/
structure Kin where
  tid : Int
  parent : ThreadId
  child_list : List ThreadId
  deleted_from_parent : Bool

def Proc.kin (p : Proc) : Kin where
  tid := p.tid
  parent := p.parent
  child_list := p.child_list
  deleted_from_parent := p.deleted_from_parent

def Family.kin (f : Family) (t : ThreadId) : Option Kin := (f.procs t).map Proc.kin

/-- The relatives of a new process. -/
def Kin.new (tid : Int) (parent : ThreadId) : Kin where
  tid
  parent
  child_list := []
  deleted_from_parent := false

/-- Processes have different tids, and every list of children has live processes that no other list
has. -/
structure Kinship (kins : ThreadId → Option Kin) (next_tid : Int) : Prop where
  tid_lt : ∀ {t k}, kins t = some k → k.tid < next_tid
  tid_inj : ∀ {t u k k'}, kins t = some k → kins u = some k' → k.tid = k'.tid → t = u
  live : ∀ {t k c}, kins t = some k → c ∈ k.child_list →
    ∃ k', kins c = some k' ∧ k'.deleted_from_parent = false
  nodup : ∀ {t k}, kins t = some k → k.child_list.Nodup
  disjoint : ∀ {t u k k' c}, kins t = some k → kins u = some k' →
    c ∈ k.child_list → c ∈ k'.child_list → t = u

variable {f f' f₁ : Family} {t u c : ThreadId} {p p' q q' : Proc} {a : Act} {point : Point} {notes : List Note}
  {kins : ThreadId → Option Kin} {k k' : Kin} {next_tid : Int}

namespace Family

theorem kin_some (h : f.procs t = some p) : f.kin t = some p.kin := by rw [kin, h, Option.map_some]

theorem kin_note (f : Family) (notes : List Note) : (f.note notes).kin = f.kin := rfl

theorem kin_update {g : Proc → Proc} (hg : ∀ q : Proc, (g q).kin = q.kin) : (f.update t g).kin = f.kin := by
  funext u
  rw [kin, kin, update_procs]
  split
  · rename_i heq
    rw [heq, Option.map_map]
    exact congrArg (fun h => Option.map h (f.procs t)) (funext hg)
  · rfl

theorem kin_go (f : Family) (t : ThreadId) (point : Point) : (f.go t point).kin = f.kin :=
  kin_update fun _ => rfl

/-- What a move does to the relatives. -/
inductive KinMove (f : Family) (t : ThreadId) (p : Proc) (a : Act) (kins : ThreadId → Option Kin)
    (next_tid : Int) :
    Prop where
  | same (hkins : kins = f.kin) (hnext : next_tid = f.next_tid)
  | create (c : ThreadId) (ha : a = .create (some f.next_tid)) (hc : f.kin c = none)
      (hkins : kins = Function.update (Function.update f.kin t
        ((f.kin t).map fun k => { k with child_list := k.child_list ++ [c] })) c (some (.new f.next_tid t)))
      (hnext : next_tid = f.next_tid + 1)
  | remove (tid : Int) (c : ThreadId) (status : Int) (ha : a = .remove)
      (hs : p.point.stage = .told tid c status)
      (hkins : kins = Function.update f.kin t
        ((f.kin t).map fun k => { k with child_list := k.child_list.erase c })) (hnext : next_tid = f.next_tid)
  | release (tid : Int) (c : ThreadId) (status : Int) (ha : a = .release)
      (hs : p.point.stage = .removed tid c status)
      (hkins : kins = Function.update f.kin c
        ((f.kin c).map fun k => { k with deleted_from_parent := true })) (hnext : next_tid = f.next_tid)
  | die (ha : a = .die) (hs : p.point.stage = .dying) (hkins : kins = Function.update f.kin t none)
      (hnext : next_tid = f.next_tid)

theorem kin_update_of {g : Proc → Proc} {g' : Kin → Kin} (hg : ∀ q : Proc, (g q).kin = g' q.kin) :
    (f.update t g).kin = Function.update f.kin t ((f.kin t).map g') := by
  funext u
  rw [kin, update_procs, Function.update_apply]
  split
  · rw [kin, Option.map_map, Option.map_map]
    exact congrArg (fun h => Option.map h (f.procs t)) (funext hg)
  · rfl

theorem kin_create (f : Family) (t c : ThreadId) :
    (f.create t c).kin = Function.update (Function.update f.kin t
      ((f.kin t).map fun k => { k with child_list := k.child_list ++ [c] })) c (some (.new f.next_tid t)) := by
  funext u
  rw [kin, create_procs, Function.update_apply, Function.update_apply]
  split
  · rfl
  · split
    · rw [kin, Option.map_map, Option.map_map]
      rfl
    · rfl

theorem Move.kin (hmove : f.Move t p a f₁ point notes) : f.KinMove t p a f₁.kin f₁.next_tid := by
  cases hmove with
  | create hs he hc => exact .create _ rfl (by rw [Family.kin, hc, Option.map_none]) (kin_create f t _) rfl
  | remove hs hc => exact .remove _ _ _ rfl hs (kin_update_of fun _ => rfl) rfl
  | release hs hc => exact .release _ _ _ rfl hs (kin_update_of fun _ => rfl) rfl
  | die hs =>
    refine .die rfl hs (funext fun u => ?_) rfl
    simp only [Family.kin, Function.update_apply]
    split <;> rfl
  | store_status | ready | unload | finish => exact .same (kin_update fun _ => rfl) rfl
  | _ => exact .same rfl rfl

end Family

/-- Lists may get shorter. -/
theorem Kinship.shrink (h : Kinship kins next_tid) {kins' : ThreadId → Option Kin}
    (hsub : ∀ u k', kins' u = some k' →
      ∃ k, kins u = some k ∧ k'.tid = k.tid ∧ k'.child_list.Sublist k.child_list)
    (hlive : ∀ u k' c k, kins' u = some k' → c ∈ k'.child_list → kins c = some k →
    k.deleted_from_parent = false →
      ∃ k, kins' c = some k ∧ k.deleted_from_parent = false) : Kinship kins' next_tid where
  tid_lt hk := by
    obtain ⟨k, hold, htid, -⟩ := hsub _ _ hk
    exact htid ▸ h.tid_lt hold
  tid_inj hk hk' htids := by
    obtain ⟨k₁, hold₁, htid₁, -⟩ := hsub _ _ hk
    obtain ⟨k₂, hold₂, htid₂, -⟩ := hsub _ _ hk'
    exact h.tid_inj hold₁ hold₂ (htid₁.symm.trans (htids.trans htid₂))
  live hk hc := by
    obtain ⟨k, hold, -, hlist⟩ := hsub _ _ hk
    obtain ⟨k₁, hk₁, hdeleted⟩ := h.live hold (hlist.subset hc)
    exact hlive _ _ _ _ hk hc hk₁ hdeleted
  nodup hk := by
    obtain ⟨k, hold, -, hlist⟩ := hsub _ _ hk
    exact hlist.nodup (h.nodup hold)
  disjoint hk hk' hc hc' := by
    obtain ⟨k₁, hold₁, -, hlist₁⟩ := hsub _ _ hk
    obtain ⟨k₂, hold₂, -, hlist₂⟩ := hsub _ _ hk'
    exact h.disjoint hold₁ hold₂ (hlist₁.subset hc) (hlist₂.subset hc')

theorem Kinship.create (h : Kinship kins next_tid) (hc : kins c = none) (ht : kins t = some k) :
    Kinship (Function.update (Function.update kins t
      ((kins t).map fun k => { k with child_list := k.child_list ++ [c] })) c (some (.new next_tid t)))
      (next_tid + 1) := by
  -- the new process has no children, and is in the list of `t` only
  have hnew : ∀ u k', Function.update (Function.update kins t
        ((kins t).map fun k => { k with child_list := k.child_list ++ [c] })) c
        (some (.new next_tid t)) u = some k' →
      u = c ∧ k' = .new next_tid t ∨ u ≠ c ∧ ∃ k, kins u = some k ∧ k'.tid = k.tid ∧
        k'.deleted_from_parent = k.deleted_from_parent ∧
        k'.child_list = if u = t then k.child_list ++ [c] else k.child_list := by
    intro u k' hk'
    by_cases hu : u = c
    · subst hu
      rw [Function.update_self] at hk'
      exact .inl ⟨rfl, (Option.some.inj hk').symm⟩
    · rw [Function.update_of_ne hu] at hk'
      refine .inr ⟨hu, ?_⟩
      by_cases hut : u = t
      · subst hut
        rw [Function.update_self, ht] at hk'
        cases hk'
        exact ⟨k, ht, rfl, rfl, (if_pos rfl).symm⟩
      · rw [Function.update_of_ne hut] at hk'
        exact ⟨k', hk', rfl, rfl, (if_neg hut).symm⟩
  have hfree : ∀ u k', kins u = some k' → c ∉ k'.child_list := by
    intro u k' hk' hmem
    obtain ⟨k₁, hk₁, -⟩ := h.live hk' hmem
    rw [hc] at hk₁
    cases hk₁
  have hlist : ∀ u (k₁ k' : Kin) c', kins u = some k₁ → k'.child_list =
      (if u = t then k₁.child_list ++ [c] else k₁.child_list) →
      c' ∈ k'.child_list → c' ∈ k₁.child_list ∧ c' ≠ c ∨ u = t ∧ c' = c := by
    intro u k₁ k' c' hk₁ heq hmem
    rw [heq] at hmem
    split at hmem
    · rename_i hut
      obtain hmem | hmem := List.mem_append.mp hmem
      · exact .inl ⟨hmem, fun hcc => hfree u k₁ hk₁ (hcc ▸ hmem)⟩
      · exact .inr ⟨hut, List.mem_singleton.mp hmem⟩
    · exact .inl ⟨hmem, fun hcc => hfree u k₁ hk₁ (hcc ▸ hmem)⟩
  refine ⟨fun {u k'} hk' => ?_, fun {u v k' k''} hk' hk'' htids => ?_, fun {u k' c'} hk' hmem => ?_,
    fun {u k'} hk' => ?_, fun {u v k' k'' c'} hk' hk'' hmem hmem' => ?_⟩
  · obtain ⟨-, rfl⟩ | ⟨-, k₁, hk₁, htid, -⟩ := hnew u k' hk'
    · exact Int.lt_succ _
    · rw [htid]
      exact Int.lt_trans (h.tid_lt hk₁) (Int.lt_succ _)
  · obtain ⟨rfl, rfl⟩ | ⟨-, k₁, hk₁, htid, -⟩ := hnew u k' hk'
    · obtain ⟨rfl, -⟩ | ⟨-, k₂, hk₂, htid₂, -⟩ := hnew v k'' hk''
      · rfl
      · exact absurd (htid₂.symm.trans htids.symm) (Int.ne_of_lt (h.tid_lt hk₂))
    · obtain ⟨rfl, rfl⟩ | ⟨-, k₂, hk₂, htid₂, -⟩ := hnew v k'' hk''
      · exact absurd (htid.symm.trans htids) (Int.ne_of_lt (h.tid_lt hk₁))
      · exact h.tid_inj hk₁ hk₂ (htid.symm.trans (htids.trans htid₂))
  · obtain ⟨rfl, rfl⟩ | ⟨-, k₁, hk₁, -, -, heq⟩ := hnew u k' hk'
    · cases hmem
    · obtain ⟨hmem, hne⟩ | ⟨-, rfl⟩ := hlist u k₁ k' c' hk₁ heq hmem
      · obtain ⟨k₂, hk₂, hdeleted⟩ := h.live hk₁ hmem
        rw [Function.update_of_ne hne, Function.update_apply]
        split
        · rename_i hct
          rw [← hct, hk₂]
          exact ⟨_, rfl, hdeleted⟩
        · exact ⟨k₂, hk₂, hdeleted⟩
      · exact ⟨_, Function.update_self _ _ _, rfl⟩
  · obtain ⟨rfl, rfl⟩ | ⟨-, k₁, hk₁, -, -, heq⟩ := hnew u k' hk'
    · exact List.nodup_nil
    · rw [heq]
      split
      · refine List.nodup_append.mpr ⟨h.nodup hk₁, List.nodup_cons.mpr
          ⟨List.not_mem_nil, List.nodup_nil⟩, fun c' hc' d hd => ?_⟩
        rw [List.mem_singleton.mp hd]
        exact fun hcc => hfree u k₁ hk₁ (hcc ▸ hc')
      · exact h.nodup hk₁
  · obtain ⟨rfl, rfl⟩ | ⟨-, k₁, hk₁, -, -, heq⟩ := hnew u k' hk'
    · cases hmem
    obtain ⟨rfl, rfl⟩ | ⟨-, k₂, hk₂, -, -, heq₂⟩ := hnew v k'' hk''
    · cases hmem'
    obtain ⟨hmem, hne⟩ | ⟨rfl, rfl⟩ := hlist u k₁ k' c' hk₁ heq hmem
    · obtain ⟨hmem', -⟩ | ⟨-, rfl⟩ := hlist v k₂ k'' c' hk₂ heq₂ hmem'
      · exact h.disjoint hk₁ hk₂ hmem hmem'
      · exact absurd rfl hne
    · obtain ⟨-, hne⟩ | ⟨rfl, -⟩ := hlist v k₂ k'' c' hk₂ heq₂ hmem'
      · exact absurd rfl hne
      · rfl

/-- What a move does must not leave a list with a process that is gone or released. -/
theorem Kinship.move (h : Kinship f.kin f.next_tid) (hmove : f.KinMove t p a kins next_tid)
    (hp : f.procs t = some p)
    (hrelease : ∀ tid c status, p.point.stage = .removed tid c status → ∀ u k, f.kin u = some k →
    c ∉ k.child_list)
    (hdie : p.point.stage = .dying → p.deleted_from_parent = true) : Kinship kins next_tid := by
  cases hmove with
  | same hkins hnext => exact hkins ▸ hnext ▸ h
  | create c _ hc hkins hnext => exact hkins ▸ hnext ▸ h.create hc (Family.kin_some hp)
  | remove tid c status _ hs hkins hnext =>
    rw [hkins, hnext]
    refine h.shrink (fun u k' hk' => ?_) fun u k' c' k _ _ hk hdeleted => ?_
    · rw [Function.update_apply] at hk'
      split at hk'
      · obtain ⟨k, hk, rfl⟩ := Option.map_eq_some_iff.mp hk'
        rename_i heq
        exact ⟨k, heq ▸ hk, rfl, List.erase_sublist⟩
      · exact ⟨k', hk', rfl, .refl _⟩
    · rw [Function.update_apply]
      split
      · rename_i heq
        rw [← heq, hk]
        exact ⟨_, rfl, hdeleted⟩
      · exact ⟨k, hk, hdeleted⟩
  | release tid c status _ hs hkins hnext =>
    rw [hkins, hnext]
    have hold : ∀ u k', Function.update f.kin c
        ((f.kin c).map fun k => { k with deleted_from_parent := true }) u =
        some k' → ∃ k, f.kin u = some k ∧ k'.tid = k.tid ∧ k'.child_list.Sublist k.child_list := by
      intro u k' hk'
      rw [Function.update_apply] at hk'
      split at hk'
      · obtain ⟨k, hk, rfl⟩ := Option.map_eq_some_iff.mp hk'
        rename_i heq
        exact ⟨k, heq ▸ hk, rfl, .refl _⟩
      · exact ⟨k', hk', rfl, .refl _⟩
    refine h.shrink hold fun u k' c' k hk' hmem hk hdeleted => ?_
    obtain ⟨k₁, hk₁, -, hlist⟩ := hold u k' hk'
    have hne : c' ≠ c := fun heq => hrelease tid c status hs u k₁ hk₁ (heq ▸ hlist.subset hmem)
    exact ⟨k, (Function.update_of_ne hne _ _).trans hk, hdeleted⟩
  | die _ hs hkins hnext =>
    rw [hkins, hnext]
    have hold : ∀ u k', Function.update f.kin t none u = some k' → f.kin u = some k' := by
      intro u k' hk'
      rw [Function.update_apply] at hk'
      split at hk'
      · cases hk'
      · exact hk'
    refine h.shrink (fun u k' hk' => ⟨k', hold u k' hk', rfl, .refl _⟩) fun u k' c' k hk' hmem hk hdeleted => ?_
    have hne : c' ≠ t := fun heq => by
      rw [heq, Family.kin_some hp] at hk
      cases hk
      cases (hdie hs).symm.trans hdeleted
    exact ⟨k, (Function.update_of_ne hne _ _).trans hk, hdeleted⟩

end pintos.prj2
