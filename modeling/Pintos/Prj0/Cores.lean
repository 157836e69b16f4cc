import Pintos.Prj0.NameTable

/-!
# The cores of the name table

A slot owns its core from the creation of a structure on: lists and hash tables keep
their core when they are deleted, bitmaps lose it. The cores that are there are those
of the owning slots, each with one owner.
-/

open pintos.kernel

namespace pintos.prj0_2

section Table

variable {α : Type} {t t' : Table α} {owns : slot → Bool} {empty : α → Prop} {i j : Fin ARRAY_SIZE} {s : slot}
  {c : Nat} {a b : α} {name : List Char}

@[simp] theorem set_slot_slots : (t.set_slot i s).slots j = if j = i then s else t.slots j :=
  Function.update_apply t.slots i s j

@[simp] theorem set_slot_heap : (t.set_slot i s).heap = t.heap := rfl

@[simp] theorem set_slot_mallocs : (t.set_slot i s).mallocs = t.mallocs := rfl

@[simp] theorem set_slot_frees : (t.set_slot i s).frees = t.frees := rfl

@[simp] theorem put_slots : (t.put c a).slots = t.slots := rfl

@[simp] theorem put_heap (d : Nat) : (t.put c a).heap d = if d = c then some a else t.heap d :=
  Function.update_apply t.heap c (some a) d

@[simp] theorem put_mallocs : (t.put c a).mallocs = t.mallocs := rfl

@[simp] theorem put_frees : (t.put c a).frees = t.frees := rfl

@[simp] theorem malloc_slots :
    (t.malloc i a).slots j = if j = i then { t.slots i with core := some t.mallocs } else t.slots j :=
  Function.update_apply t.slots i _ j

@[simp] theorem malloc_heap (d : Nat) : (t.malloc i a).heap d = if d = t.mallocs then some a else t.heap d :=
  Function.update_apply t.heap t.mallocs (some a) d

@[simp] theorem malloc_mallocs : (t.malloc i a).mallocs = t.mallocs + 1 := rfl

@[simp] theorem malloc_frees : (t.malloc i a).frees = t.frees := rfl

@[simp] theorem free_slots : (t.free c).slots = t.slots := rfl

@[simp] theorem free_heap (d : Nat) : (t.free c).heap d = if d = c then none else t.heap d :=
  Function.update_apply t.heap c none d

@[simp] theorem free_mallocs : (t.free c).mallocs = t.mallocs := rfl

@[simp] theorem free_frees (d : Nat) : (t.free c).frees d = if d = c then t.frees c + 1 else t.frees d :=
  Function.update_apply t.frees c _ d

/-- The cores that are there are those of the owning slots, one each. Slots in use own a
core, and the core of an owner out of use is empty. -/
structure Sound (owns : slot → Bool) (empty : α → Prop) (t : Table α) : Prop where
  owned : ∀ i, owns (t.slots i) = true → ∃ c a, (t.slots i).core = some c ∧ t.heap c = some a ∧
    ((t.slots i).used = false → empty a)
  distinct : ∀ i j c, owns (t.slots i) = true → owns (t.slots j) = true → (t.slots i).core = some c →
    (t.slots j).core = some c → i = j
  live : ∀ c a, t.heap c = some a → c < t.mallocs ∧ t.frees c = 0 ∧
    ∃ i, owns (t.slots i) = true ∧ (t.slots i).core = some c
  dead : ∀ c, t.heap c = none → (c < t.mallocs → t.frees c = 1) ∧ (t.mallocs ≤ c → t.frees c = 0)
  used_owns : ∀ i, (t.slots i).used = true → owns (t.slots i) = true

theorem Sound.zero (howns : owns ⟨none, [], false, false⟩ = false) : Sound owns empty Table.zero := by
  refine ⟨fun i hi => ?_, fun i j c hi => ?_, fun c a hc => ?_, fun c _ => ?_, fun i hi => ?_⟩
  · cases howns.symm.trans hi
  · cases howns.symm.trans hi
  · cases hc
  · exact ⟨fun hlt => absurd hlt (Nat.not_lt_zero c), fun _ => rfl⟩
  · cases hi

/-- The contents of a core change. -/
theorem Sound.put (h : Sound owns empty t) (hc : t.heap c = some b)
    (hidle : ∀ i, owns (t.slots i) = true → (t.slots i).core = some c → (t.slots i).used = false → empty a) :
    Sound owns empty (t.put c a) := by
  refine ⟨fun i hi => ?_, h.distinct, fun d x hd => ?_, fun d hd => ?_, h.used_owns⟩
  · obtain ⟨d, x, hd, hx, hempty⟩ := h.owned i hi
    by_cases heq : d = c
    · subst heq
      exact ⟨d, a, hd, by simp, hidle i hi hd⟩
    · exact ⟨d, x, hd, by simpa [heq] using hx, hempty⟩
  · by_cases heq : d = c
    · subst heq
      exact h.live d b hc
    · exact h.live d x (by simpa [heq] using hd)
  · by_cases heq : d = c
    · simp [heq] at hd
    · exact h.dead d (by simpa [heq] using hd)

/-- A slot changes its labels. -/
theorem Sound.relabel (h : Sound owns empty t) (howns : owns s = owns (t.slots i))
    (hcore : s.core = (t.slots i).core) (hused : s.used = true → owns s = true)
    (hidle : s.used = false → ∀ c a, (t.slots i).core = some c → t.heap c = some a → owns s = true → empty a) :
    Sound owns empty (t.set_slot i s) := by
  have hsame : ∀ j, owns ((t.set_slot i s).slots j) = owns (t.slots j) ∧
      ((t.set_slot i s).slots j).core = (t.slots j).core := by
    intro j
    by_cases heq : j = i
    · subst heq
      simp [howns, hcore]
    · simp [heq]
  refine ⟨fun j hj => ?_, fun j k c hj hk hcj hck => ?_, fun d x hd => ?_, h.dead, fun j hj => ?_⟩
  · obtain ⟨c, a, hc, ha, hempty⟩ := h.owned j ((hsame j).1 ▸ hj)
    refine ⟨c, a, (hsame j).2.trans hc, ha, ?_⟩
    by_cases heq : j = i
    · subst heq
      intro hs
      exact hidle (by simpa using hs) c a hc ha (by simpa using hj)
    · simpa [heq] using hempty
  · rw [(hsame j).1] at hj
    rw [(hsame k).1] at hk
    rw [(hsame j).2] at hcj
    rw [(hsame k).2] at hck
    exact h.distinct j k c hj hk hcj hck
  · obtain ⟨hlt, hfrees, j, hj, hcj⟩ := h.live d x hd
    exact ⟨hlt, hfrees, j, (hsame j).1.trans hj, (hsame j).2.trans hcj⟩
  · by_cases heq : j = i
    · subst heq
      simpa using hused (by simpa using hj)
    · rw [(hsame j).1]
      exact h.used_owns j (by simpa [heq] using hj)

/-- A slot that owns nothing gets a new core. -/
theorem Sound.gain (h : Sound owns empty t) (hfree : owns (t.slots i) = false) (howns : owns s = true)
    (hcore : s.core = some t.mallocs) (hidle : s.used = false → empty a) :
    Sound owns empty ((t.malloc i a).set_slot i s) := by
  have hfresh : ∀ d x, t.heap d = some x → d ≠ t.mallocs := fun d x hd => Nat.ne_of_lt (h.live d x hd).1
  have hother : ∀ j, owns (t.slots j) = true → j ≠ i := by
    rintro j hj rfl
    cases hfree.symm.trans hj
  have hold : ∀ j, owns (t.slots j) = true → (t.slots j).core ≠ some t.mallocs := by
    intro j hj hc
    obtain ⟨d, x, hd, hx, -⟩ := h.owned j hj
    rw [hd, Option.some.injEq] at hc
    exact hfresh d x hx hc
  refine ⟨fun j hj => ?_, fun j k c hj hk hcj hck => ?_, fun d x hd => ?_, fun d hd => ?_, fun j hj => ?_⟩
  · by_cases heq : j = i
    · subst heq
      exact ⟨t.mallocs, a, by simpa using hcore, by simp, by simpa using hidle⟩
    · obtain ⟨c, x, hc, hx, hempty⟩ := h.owned j (by simpa [heq] using hj)
      exact ⟨c, x, by simpa [heq] using hc, by simpa [hfresh c x hx] using hx, by simpa [heq] using hempty⟩
  · by_cases hji : j = i <;> by_cases hki : k = i
    · rw [hji, hki]
    · subst hji
      simp [hcore] at hcj
      simp only [set_slot_slots, hki, if_false, malloc_slots] at hk hck
      exact absurd (hck.trans (congrArg some hcj.symm)) (hold k hk)
    · subst hki
      simp [hcore] at hck
      simp only [set_slot_slots, hji, if_false, malloc_slots] at hj hcj
      exact absurd (hcj.trans (congrArg some hck.symm)) (hold j hj)
    · simp only [set_slot_slots, hji, hki, if_false, malloc_slots] at hj hk hcj hck
      exact h.distinct j k c hj hk hcj hck
  · by_cases heq : d = t.mallocs
    · subst heq
      have hnone : t.heap t.mallocs = none := by
        cases hd' : t.heap t.mallocs with
        | none => rfl
        | some y => exact absurd rfl (hfresh _ _ hd')
      exact ⟨Nat.lt_succ_self _, (h.dead _ hnone).2 (Nat.le_refl _), i,
        by simpa using howns, by simpa using hcore⟩
    · obtain ⟨hlt, hfrees, j, hj, hcj⟩ := h.live d x (by simpa [heq] using hd)
      exact ⟨Nat.lt_succ_of_lt hlt, hfrees, j,
        by simpa [hother j hj] using hj, by simpa [hother j hj] using hcj⟩
  · have heq : d ≠ t.mallocs := by
      rintro rfl
      simp at hd
    obtain ⟨hold, hnew⟩ := h.dead d (by simpa [heq] using hd)
    constructor
    · intro hlt
      exact hold (Nat.lt_of_le_of_ne (Nat.le_of_lt_succ hlt) heq)
    · intro hle
      exact hnew (Nat.le_of_succ_le hle)
  · by_cases heq : j = i
    · subst heq
      simpa using howns
    · simp only [set_slot_slots, heq, if_false, malloc_slots] at hj ⊢
      exact h.used_owns j hj

/-- A slot gives its core back. -/
theorem Sound.lose (h : Sound owns empty t) (hown : owns (t.slots i) = true) (hc : (t.slots i).core = some c)
    (howns : owns s = false) (hused : s.used = false) : Sound owns empty ((t.free c).set_slot i s) := by
  have hother : ∀ {j}, owns (((t.free c).set_slot i s).slots j) = true → j ≠ i := by
    rintro j hj rfl
    simp [howns] at hj
  have hkept : ∀ j d, owns (t.slots j) = true → j ≠ i → (t.slots j).core = some d → d ≠ c := by
    rintro j d hj hne hd rfl
    exact hne (h.distinct j i d hj hown hd hc)
  refine ⟨fun j hj => ?_, fun j k d hj hk hdj hdk => ?_, fun d x hd => ?_, fun d hd => ?_, fun j hj => ?_⟩
  · have hne := hother hj
    simp only [set_slot_slots, hne, if_false, free_slots] at hj ⊢
    obtain ⟨d, x, hd, hx, hempty⟩ := h.owned j hj
    exact ⟨d, x, hd, by simpa [hkept j d hj hne hd] using hx, hempty⟩
  · have hji := hother hj
    have hki := hother hk
    simp only [set_slot_slots, hji, hki, if_false, free_slots] at hj hk hdj hdk
    exact h.distinct j k d hj hk hdj hdk
  · have hne : d ≠ c := by
      rintro rfl
      simp at hd
    obtain ⟨hlt, hfrees, j, hj, hcj⟩ := h.live d x (by simpa [hne] using hd)
    have hji : j ≠ i := by
      rintro rfl
      rw [hc, Option.some.injEq] at hcj
      exact hne hcj.symm
    exact ⟨hlt, by simpa [hne] using hfrees, j, by simpa [hji] using hj, by simpa [hji] using hcj⟩
  · obtain ⟨e, x, he, hx, -⟩ := h.owned i hown
    obtain rfl := Option.some.inj (he.symm.trans hc)
    by_cases heq : d = e
    · subst heq
      obtain ⟨hlt, hfrees, -⟩ := h.live d x hx
      refine ⟨fun _ => by simp [hfrees], fun hle => ?_⟩
      exact absurd hlt (Nat.not_lt.mpr hle)
    · have hdead := h.dead d (by simpa [heq] using hd)
      refine ⟨fun hlt => ?_, fun hle => ?_⟩
      · simpa [heq] using hdead.1 hlt
      · simpa [heq] using hdead.2 hle
  · by_cases heq : j = i
    · subst heq
      simp [hused] at hj
    · simp only [set_slot_slots, heq, if_false, free_slots] at hj ⊢
      exact h.used_owns j hj

theorem findTargetIndex_eq_some :
    findTargetIndex t name = some i ↔ (t.slots i).name = name ∧ ∀ j < i, (t.slots j).name ≠ name := by
  rw [findTargetIndex, Fin.find?_eq_some_iff]
  simp

theorem findEmptyIndex_eq_some :
    findEmptyIndex t = some i ↔ (t.slots i).used = false ∧ ∀ j < i, (t.slots j).used = true := by
  rw [findEmptyIndex, Fin.find?_eq_some_iff]
  simp

/-- No slot out of use comes before those in use with the name. -/
def Clear (t : Table α) (name : List Char) : Prop :=
  ∀ i, (t.slots i).name = name → (t.slots i).used = false → ∃ j < i, (t.slots j).name = name ∧
    (t.slots j).used = true

/-- The names that are clear are those that lead to slots in use only. -/
theorem clear_iff : Clear t name ↔ ∀ i, findTargetIndex t name = some i → (t.slots i).used = true := by
  constructor
  · intro hclear i hi
    obtain ⟨hname, hfirst⟩ := findTargetIndex_eq_some.mp hi
    by_contra hused
    obtain ⟨j, hj, hnamej, -⟩ := hclear i hname (Bool.eq_false_iff.mpr hused)
    exact hfirst j hj hnamej
  · intro hfind i hname hunused
    have hsome : (findTargetIndex t name).isSome := Fin.isSome_find?_iff.mpr ⟨i, decide_eq_true hname⟩
    obtain ⟨j, hj⟩ := Option.isSome_iff_exists.mp hsome
    have hused := hfind j hj
    obtain ⟨hnamej, hfirst⟩ := findTargetIndex_eq_some.mp hj
    refine ⟨j, ?_, hnamej, hused⟩
    obtain hlt | heq | hlt := lt_trichotomy j i
    · exact hlt
    · subst heq
      cases hunused.symm.trans hused
    · exact absurd hname (hfirst i hlt)

/-- The name of a new structure leads to it, or to an older one in use. -/
theorem entered_found (hi : findEmptyIndex t = some i) (hother : ∀ j, j ≠ i → t'.slots j = t.slots j)
    (hname : (t'.slots i).name = name) : ∃ j, findTargetIndex t' name = some j ∧
      (j = i ∨ t'.slots j = t.slots j ∧ (t.slots j).used = true ∧ (t.slots j).name = name) := by
  have hsome : (findTargetIndex t' name).isSome := Fin.isSome_find?_iff.mpr ⟨i, decide_eq_true hname⟩
  obtain ⟨j, hj⟩ := Option.isSome_iff_exists.mp hsome
  obtain ⟨hnamej, hfirst⟩ := findTargetIndex_eq_some.mp hj
  refine ⟨j, hj, ?_⟩
  obtain hlt | heq | hlt := lt_trichotomy j i
  · have hsame := hother j (ne_of_lt hlt)
    exact .inr ⟨hsame, (findEmptyIndex_eq_some.mp hi).2 j hlt, hsame ▸ hnamej⟩
  · exact .inl heq
  · exact absurd hname (hfirst i hlt)

/-- The owner's core is there. -/
theorem Sound.core (h : Sound owns empty t) (hi : owns (t.slots i) = true) :
    ∃ c a, (t.slots i).core = some c ∧ t.heap c = some a ∧ t.core i = .ok (c, a) := by
  obtain ⟨c, a, hc, ha, -⟩ := h.owned i hi
  exact ⟨c, a, hc, ha, by simp [Table.core, hc, ha]⟩

end Table

/-- A result, or a fault in the contents of cores. -/
def Meets {β : Type} (P : β → Prop) : Except Crash β → Prop
  | .ok b => P b
  | .error e => ∃ fault, e = .contents fault

section Meets

variable {β γ : Type} {P : β → Prop} {Q : γ → Prop}

theorem Meets.bind {x : Except Crash β} {f : β → Except Crash γ} (h : Meets P x)
    (hf : ∀ b, P b → Meets Q (f b)) :
    Meets Q (x >>= f) := by
  cases x with
  | ok b => exact hf b h
  | error e => exact h

theorem Meets.weaken {x : Except Crash β} {P' : β → Prop} (h : Meets P x) (himp : ∀ b, P b → P' b) :
    Meets P' x := by
  cases x with
  | ok b => exact himp b h
  | error e => exact h

theorem meets_on_contents (x : Except Fault β) : Meets (fun _ => True) (on_contents x) := by
  cases x with
  | ok b => trivial
  | error fault => exact ⟨fault, rfl⟩

theorem meets_getName {name : List Char} (h : name.length < 50) : Meets (· = name) (getName name) := by
  rw [getName, if_pos h]
  rfl

end Meets

section Table

variable {α : Type} {t t' : Table α} {owns : slot → Bool} {empty : α → Prop} {i j : Fin ARRAY_SIZE}
  {name : List Char} {clear : α → α}

/-- The name leads to a new structure, which is empty, or to an older one in use. -/
def Created (empty : α → Prop) (t t' : Table α) (name : List Char) : Prop :=
  ∃ i, findTargetIndex t' name = some i ∧ (t'.slots i).used = true ∧
    ((t.slots i).used = true ∧ (t.slots i).name = name ∨
      (t.slots i).used = false ∧ ∃ c a, (t'.slots i).core = some c ∧ t'.heap c = some a ∧ empty a)

/-- There is room for the structure only in a slot out of use. -/
def CreatesIn (empty : α → Prop) (t t' : Table α) (name : List Char) : Prop :=
  (∃ i, (t.slots i).used = false) → Created empty t t' name

theorem createsIn_of_full (h : findEmptyIndex t = none) : CreatesIn empty t t' name := by
  rintro ⟨i, hi⟩
  have hused := Fin.find?_eq_none_iff.mp h i
  simp [hi] at hused

/-- A slot that gets a name. -/
theorem Sound.enter (h : Sound owns empty t) (hown : owns { t.slots i with name, used := true } = true)
    (howns : owns (t.slots i) = true) : Sound owns empty (t.enter i name) :=
  h.relabel (hown.trans howns.symm) rfl (fun _ => hown) fun hused => by cases hused

theorem create_meets {init : Except Crash α} (h : Sound slot.allocated empty t) (hinit : Meets empty init)
    (hname : name.length < 50) :
    Meets (fun t' => Sound slot.allocated empty t' ∧ CreatesIn empty t t' name) (t.create init name) := by
  unfold Table.create
  cases hi : findEmptyIndex t with
  | none => exact ⟨h, createsIn_of_full hi⟩
  | some i =>
    have hunused := (findEmptyIndex_eq_some.mp hi).1
    -- the core of the slot, old or new, is empty
    refine Meets.bind (P := fun t₁ => Sound slot.allocated empty t₁ ∧ (t₁.slots i).allocated = true ∧
      (t₁.slots i).used = false ∧ ∀ j, j ≠ i → t₁.slots j = t.slots j) ?_ ?_
    · unfold Table.allocate
      by_cases hallocated : (t.slots i).allocated = true
      · rw [if_pos hallocated]
        exact ⟨h, hallocated, hunused, fun _ _ => rfl⟩
      · rw [if_neg hallocated]
        refine hinit.bind fun a ha => ⟨?_, by simp, by simp [hunused], fun j hj => by simp [hj]⟩
        exact h.gain (Bool.eq_false_iff.mpr hallocated) rfl (by simp) fun _ => ha
    · rintro t₁ ⟨h₁, hallocated, hunused₁, hother⟩
      refine (meets_getName hname).bind fun n hn => ?_
      subst hn
      refine ⟨h₁.enter hallocated hallocated, fun _ => ?_⟩
      obtain ⟨j, hj, hcases⟩ := @entered_found _ t (t₁.enter i n) i n hi
        (fun j hj => by simp [Table.enter, hj, hother j hj]) (by simp [Table.enter])
      refine ⟨j, hj, ?_⟩
      obtain rfl | ⟨hsame, hused, hnamed⟩ := hcases
      · refine ⟨by simp [Table.enter], .inr ⟨hunused, ?_⟩⟩
        obtain ⟨c, a, hc, ha, hempty⟩ := h₁.owned j hallocated
        exact ⟨c, a, by simpa [Table.enter] using hc, ha, hempty hunused₁⟩
      · exact ⟨by rw [hsame, hused], .inl ⟨hused, hnamed⟩⟩

/-- A slot out of use leads nowhere. -/
def Unreachable (t : Table α) (c : Nat) : Prop :=
  ∀ name i, Clear t name → findTargetIndex t name = some i → (t.slots i).core ≠ some c

/-- A deleted list or hash table is empty, and its core waits for the next one. -/
theorem delete_meets {c : Nat} (h : Sound slot.allocated empty t) (hempty : ∀ a, empty (clear a))
    (hi : (t.slots i).allocated = true) (hc : (t.slots i).core = some c) : ∃ t', t.delete clear i = .ok t' ∧
      Sound slot.allocated empty t' ∧ Unreachable t' c ∧ (t'.slots i).allocated = true ∧
      (t'.slots i).used = false ∧ t'.mallocs = t.mallocs ∧ ∀ j, j ≠ i → t'.slots j = t.slots j := by
  obtain ⟨d, a, hd, ha, hcore⟩ := h.core hi
  obtain rfl := Option.some.inj (hd.symm.trans hc)
  have hput : Sound slot.allocated empty (t.put d (clear a)) := h.put ha fun _ _ _ _ => hempty a
  have hdeleted : Sound slot.allocated empty
      ((t.put d (clear a)).set_slot i { (t.put d (clear a)).slots i with name := [], used := false }) := by
    refine hput.relabel rfl rfl (fun hused => by cases hused) fun _ e b he hb _ => ?_
    obtain rfl : e = d := Option.some.inj (he.symm.trans hd)
    obtain rfl : clear a = b := by simpa using hb
    exact hempty a
  refine ⟨_, by rw [Table.delete, hcore]; rfl, hdeleted, fun name j hclear hj hcj => ?_, by simpa using hi,
    by simp, rfl, fun j hj => by simp [hj]⟩
  have hused := clear_iff.mp hclear j hj
  have heq := hdeleted.distinct j i d (hdeleted.used_owns j hused) (by simpa using hi) hcj (by simpa using hc)
  subst heq
  simp at hused

/-- A slot of lists or hash tables after its turn in `quit`. -/
theorem quit_meets (clear : α → α) (h : Sound slot.allocated empty t) (hempty : ∀ a, empty (clear a))
    (i : Fin ARRAY_SIZE) :
    ∃ t', t.quit clear i = .ok t' ∧ Sound slot.allocated empty t' ∧ (t'.slots i).allocated = false ∧
      t'.mallocs = t.mallocs ∧ ∀ j, j ≠ i → t'.slots j = t.slots j := by
  by_cases hallocated : (t.slots i).allocated = true
  · obtain ⟨c, -, hc, -, -⟩ := h.core hallocated
    obtain ⟨t₁, hdelete, h₁, -, hallocated₁, hunused, hmallocs, hother⟩ := delete_meets h hempty hallocated hc
    obtain ⟨d, a, hd, -, hcore⟩ := h₁.core hallocated₁
    refine ⟨(t₁.free d).set_slot i { t₁.slots i with allocated := false }, ?_,
      h₁.lose hallocated₁ hd rfl hunused, by simp, hmallocs, fun j hj => ?_⟩
    · rw [Table.quit, if_pos hallocated, hdelete]
      simp only [bind, Except.bind, hcore]
      rfl
    · simpa [hj] using hother j hj
  · refine ⟨t, by rw [Table.quit, if_neg hallocated], h, Bool.eq_false_iff.mpr hallocated, rfl, fun _ _ => rfl⟩

/-- A command on the core of a slot in use. -/
theorem Sound.work (h : Sound owns empty t) (hi : (t.slots i).used = true) :
    ∃ c a, (t.slots i).core = some c ∧ t.heap c = some a ∧ t.core i = .ok (c, a) ∧
      ∀ b, Sound owns empty (t.put c b) := by
  have hown := h.used_owns i hi
  obtain ⟨c, a, hc, ha, hcore⟩ := h.core hown
  refine ⟨c, a, hc, ha, hcore, fun b => h.put ha fun j hj hcj hunused => ?_⟩
  obtain rfl := h.distinct j i c hj hown hcj hc
  cases hunused.symm.trans hi

theorem command_meets {work : α → Except Fault α} (h : Sound owns empty t) (hname : name.length < 50)
    (hclear : Clear t name) : Meets (Sound owns empty) (t.command name work) := by
  refine (meets_getName hname).bind fun n hn => ?_
  subst hn
  cases hi : findTargetIndex t n with
  | none => exact h
  | some i =>
    obtain ⟨c, a, -, -, hcore, hput⟩ := h.work (clear_iff.mp hclear i hi)
    simp only [hcore]
    exact (meets_on_contents (work a)).bind fun b _ => hput b

/-- The work of a command on the cores of two slots in use. -/
theorem work_on_meets {work : α → α → Except Fault (α × α)} {twice : α → Except Fault α} {c₁ c₂ : Nat × α}
    (h : Sound owns empty t) (hi : (t.slots i).used = true) (hj : (t.slots j).used = true)
    (hc₁ : t.core i = .ok c₁) (hc₂ : t.core j = .ok c₂) : Meets (Sound owns empty)
    (t.work_on c₁ c₂ work twice) := by
  obtain ⟨c, a, hci, -, hcore, hput⟩ := h.work hi
  obtain ⟨d, b, hdj, -, hdcore, -⟩ := h.work hj
  obtain rfl := Except.ok.inj (hcore.symm.trans hc₁)
  obtain rfl := Except.ok.inj (hdcore.symm.trans hc₂)
  unfold Table.work_on
  split
  · exact (meets_on_contents (twice a)).bind fun x _ => hput x
  · refine (meets_on_contents (work a b)).bind fun x _ => ?_
    obtain ⟨e, y, hej, -, -, hput'⟩ := (hput x.1).work (i := j) (by simpa using hj)
    obtain rfl := Option.some.inj (hej.symm.trans hdj)
    exact hput' x.2

end Table

section Bitmaps

variable {t t' : Table bitmap} {i j : Fin ARRAY_SIZE} {name : List Char} {block : Option (Nat → Elem)}

/-- What bitmaps start from is not promised. -/
abbrev SoundBitmaps : Table bitmap → Prop := Sound slot.used fun _ => True

theorem createBitmap_meets {bit_cnt : BitVec 32} (h : SoundBitmaps t) (hmemory : block.isSome)
    (hname : name.length < 50) :
    Meets (fun t' => SoundBitmaps t' ∧ CreatesIn (fun _ => True) t t' name)
      (createBitmap t block name bit_cnt) := by
  obtain ⟨block, rfl⟩ := Option.isSome_iff_exists.mp hmemory
  unfold createBitmap
  cases hi : findEmptyIndex t with
  | none => exact ⟨h, createsIn_of_full hi⟩
  | some i =>
    have hunused := (findEmptyIndex_eq_some.mp hi).1
    refine (meets_getName hname).bind fun n hn => ?_
    subst hn
    have hnamed : SoundBitmaps (t.set_slot i { t.slots i with name := n }) :=
      h.relabel rfl rfl (fun hused => hused) fun _ _ _ _ _ _ => trivial
    refine Meets.bind (P := fun t₁ => ∃ b, t₁ = (t.set_slot i { t.slots i with name := n }).malloc i b) ?_ ?_
    · exact (meets_on_contents _).bind fun b _ => ⟨b, rfl⟩
    · rintro t₁ ⟨b, rfl⟩
      have hsound := hnamed.gain (a := b) (i := i)
        (s := { ((t.set_slot i { t.slots i with name := n }).malloc i b).slots i with used := true })
        (by simp [hunused]) rfl (by simp) fun _ => trivial
      refine ⟨hsound, fun _ => ?_⟩
      obtain ⟨j, hj, hcases⟩ := @entered_found _ t (((t.set_slot i
        { t.slots i with name := n }).malloc i b).set_slot i
        { ((t.set_slot i { t.slots i with name := n }).malloc i b).slots i with used := true }) i n hi
        (fun j hj => by simp [hj]) (by simp)
      refine ⟨j, hj, ?_⟩
      obtain rfl | ⟨hsame, hused, hname⟩ := hcases
      · exact ⟨by simp, .inr ⟨hunused, t.mallocs, b, by simp, by simp, trivial⟩⟩
      · exact ⟨by rw [hsame, hused], .inl ⟨hused, hname⟩⟩

/-- A deleted bitmap is freed. -/
theorem deleteBitmap_meets {c : Nat} (h : SoundBitmaps t) (hi : (t.slots i).used = true)
    (hc : (t.slots i).core = some c) : ∃ t', deleteBitmap t i = .ok t' ∧ SoundBitmaps t' ∧ Unreachable t' c ∧
      (t'.slots i).used = false ∧ t'.mallocs = t.mallocs ∧ ∀ j, j ≠ i → t'.slots j = t.slots j := by
  obtain ⟨d, a, hd, ha, hcore⟩ := h.core hi
  obtain rfl := Option.some.inj (hd.symm.trans hc)
  have hdeleted : SoundBitmaps ((t.free d).set_slot i { (t.free d).slots i with used := false }) :=
    h.lose hi hc rfl rfl
  refine ⟨_, ?_, hdeleted, fun name j hclear hj hcj => ?_, by simp, rfl, fun j hj => by simp [hj]⟩
  · rw [deleteBitmap, Table.bitmap_destroy, hc]
    simp only [bind, Except.bind, hcore]
  · obtain ⟨e, x, he, hx, -⟩ := hdeleted.owned j (clear_iff.mp hclear j hj)
    obtain rfl := Option.some.inj (he.symm.trans hcj)
    simp at hx

/-- A slot of bitmaps after its turn in `quit`. -/
theorem quit_bitmap_meets (h : SoundBitmaps t) (i : Fin ARRAY_SIZE) : ∃ t', quit_bitmap t i = .ok t' ∧
    SoundBitmaps t' ∧ (t'.slots i).used = false ∧ t'.mallocs = t.mallocs ∧ ∀ j, j ≠ i →
      t'.slots j = t.slots j := by
  by_cases hused : (t.slots i).used = true
  · obtain ⟨c, -, hc, -, -⟩ := h.core hused
    obtain ⟨t', hdelete, hsound, -, hfree, hmallocs, hother⟩ := deleteBitmap_meets h hused hc
    exact ⟨t', by rw [quit_bitmap, if_pos hused, hdelete], hsound, hfree, hmallocs, hother⟩
  · exact ⟨t, if_neg hused, h, Bool.eq_false_iff.mpr hused, rfl, fun _ _ => rfl⟩

theorem bitmap_expand_meets {size : BitVec 32} (h : SoundBitmaps t) (hmemory : block.isSome)
    (hname : name.length < 50) (hclear : Clear t name) :
    Meets SoundBitmaps (bitmap_expand_command t block name size) := by
  obtain ⟨block, rfl⟩ := Option.isSome_iff_exists.mp hmemory
  refine (meets_getName hname).bind fun n hn => ?_
  subst hn
  cases hi : findTargetIndex t n with
  | none => exact h
  | some i =>
    have hused := clear_iff.mp hclear i hi
    obtain ⟨c, a, hc, ha, hcore, -⟩ := h.work hused
    simp only [hcore]
    refine (meets_on_contents _).bind fun b _ => ?_
    -- the old core goes before the new one comes
    have hlost := h.lose (s := { t.slots i with used := false }) hused hc rfl rfl
    have hgained := hlost.gain (a := b) (i := i) (s := { t.slots i with core := some t.mallocs })
        (by simp) hused rfl
      fun _ => trivial
    have hne : c ≠ t.mallocs := Nat.ne_of_lt (h.live c a ha).1
    have hsame : (t.malloc i b).free c =
        ((((t.free c).set_slot i { t.slots i with used := false }).malloc i b).set_slot i
          { t.slots i with core := some t.mallocs }) := by
      simp only [Table.malloc, Table.free, Table.set_slot, Function.update_idem, Table.mk.injEq, true_and,
        and_true]
      exact Function.update_comm hne.symm (some b) none t.heap
    exact hsame ▸ hgained

end Bitmaps

end pintos.prj0_2
