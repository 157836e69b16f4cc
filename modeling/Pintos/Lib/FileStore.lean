import Mathlib.Logic.Function.Basic
import Mathlib.Data.List.TakeDrop

/-!
# A store of named files

Files have contents of a fixed length. They are found by name and used through handles, and a file is
kept as long as it has a name or a handle.
-/

namespace file_store

variable {N K H α : Type*}

/-- A file that is open, where its next transfer starts, and whether its opener denies writes. -/
structure Opener (K : Type*) where
  file : K
  pos : Nat
  deny_write : Bool

@[ext]
structure Store (N K H α : Type*) where
  name : N → Option K
  content : K → Option (List α)
  opener : H → Option (Opener K)

/-- What happens to a store. -/
inductive Event (N K H α : Type*) where
  | create (n : N) (k : K) (c : List α)
  | remove (n : N)
  | open_by_name (n : N) (h : H)
  | reopen (g h : H)
  | close (h : H)
  | seek (h : H) (pos : Nat)
  | deny_write (h : H) (flag : Bool)
  | read (h : H) (size : Nat) (data : List α)
  | write (h : H) (data : List α) (n : Nat)

/-- The items from `pos` on are replaced. -/
def overwrite (old : List α) (pos : Nat) (data : List α) : List α :=
  old.take pos ++ data ++ old.drop (pos + data.length)

namespace Store

variable {s t : Store N K H α} {k : K}

/-- The file has a name or a handle. -/
def Live (s : Store N K H α) (k : K) : Prop :=
  (∃ n, s.name n = some k) ∨ ∃ h o, s.opener h = some o ∧ o.file = k

/-- An opener of the file denies writes. -/
def Denied (s : Store N K H α) (k : K) : Prop :=
  ∃ h o, s.opener h = some o ∧ o.file = k ∧ o.deny_write = true

/-- The files there are have a name or a handle, and no two names are for one file. -/
structure Valid (s : Store N K H α) : Prop where
  live : ∀ k, (∃ c, s.content k = some c) ↔ s.Live k
  one_name : ∀ n n' k, s.name n = some k → s.name n' = some k → n = n'

open Classical in
/-- Files that have neither a name nor a handle are gone. -/
noncomputable def keep_live (s : Store N K H α) : Store N K H α :=
  { s with content := fun k => if s.Live k then s.content k else none }

variable [DecidableEq N] [DecidableEq K] [DecidableEq H] {n : N} {h g : H} {o o' : Opener K}

/-- The handle is for another open file, or for none. -/
def set_opener (s : Store N K H α) (h : H) (v : Option (Opener K)) : Store N K H α :=
  { s with opener := Function.update s.opener h v }

omit [DecidableEq N] [DecidableEq K] in
@[simp] theorem set_opener_name (s : Store N K H α) (h : H) (v : Option (Opener K)) :
    (s.set_opener h v).name = s.name := rfl

open Classical in
/-- One event. A write moves nothing where writes are denied, and never makes the file longer. -/
inductive Step : Store N K H α → Event N K H α → Store N K H α → Prop where
  | create {s : Store N K H α} {n : N} {k : K} {c : List α} (hname : s.name n = none)
      (hnew : s.content k = none) : Step s (.create n k c)
      { s with name := Function.update s.name n (some k), content := Function.update s.content k (some c) }
  | remove {s : Store N K H α} {n : N} {k : K} (hname : s.name n = some k) :
      Step s (.remove n) (keep_live { s with name := Function.update s.name n none })
  | open_by_name {s : Store N K H α} {n : N} {h : H} {k : K} (hname : s.name n = some k)
      (hnew : s.opener h = none) :
      Step s (.open_by_name n h) (s.set_opener h (some { file := k, pos := 0, deny_write := false }))
  | reopen {s : Store N K H α} {g h : H} {o : Opener K} (hopen : s.opener g = some o)
      (hnew : s.opener h = none) :
      Step s (.reopen g h) (s.set_opener h (some { file := o.file, pos := 0, deny_write := false }))
  | close {s : Store N K H α} {h : H} {o : Opener K} (hopen : s.opener h = some o) :
      Step s (.close h) (s.set_opener h none).keep_live
  | seek {s : Store N K H α} {h : H} {o : Opener K} {pos : Nat} (hopen : s.opener h = some o) :
      Step s (.seek h pos) (s.set_opener h (some { o with pos := pos }))
  | deny_write {s : Store N K H α} {h : H} {o : Opener K} {flag : Bool} (hopen : s.opener h = some o) :
      Step s (.deny_write h flag) (s.set_opener h (some { o with deny_write := flag }))
  | read {s : Store N K H α} {h : H} {o : Opener K} {c : List α} {size : Nat}
      (hopen : s.opener h = some o) (hfile : s.content o.file = some c) :
      Step s (.read h size ((c.drop o.pos).take size))
        (s.set_opener h (some { o with pos := o.pos + min size (c.length - o.pos) }))
  | write {s : Store N K H α} {h : H} {o : Opener K} {c data : List α} {n : Nat}
      (hopen : s.opener h = some o) (hfile : s.content o.file = some c)
      (hn : n = if s.Denied o.file then 0 else min data.length (c.length - o.pos)) :
      Step s (.write h data n) { s with
        content := Function.update s.content o.file (some (overwrite c o.pos (data.take n)))
        opener := Function.update s.opener h (some { o with pos := o.pos + n }) }

omit [DecidableEq N] [DecidableEq K] in
/-- The other handles are for the files that they were for. -/
theorem live_set_opener {v : Option (Opener K)} (hsame : v.map Opener.file = (s.opener h).map Opener.file) :
    (s.set_opener h v).Live k ↔ s.Live k := by
  refine or_congr Iff.rfl ?_
  have hfiles : ∀ g, ((s.set_opener h v).opener g).map Opener.file = (s.opener g).map Opener.file := by
    intro g
    by_cases hg : g = h
    · simpa [set_opener, hg] using hsame
    · simp [set_opener, hg]
  have hexists : ∀ u : Store N K H α, (∃ g o, u.opener g = some o ∧ o.file = k) ↔
      ∃ g, (u.opener g).map Opener.file = some k := by
    intro u
    simp only [Option.map_eq_some_iff]
  rw [hexists, hexists]
  simp only [hfiles]

omit [DecidableEq N] [DecidableEq K] in
/-- A handle more for a file that there is. -/
theorem live_add_opener (hnew : s.opener h = none) (hlive : s.Live o.file) :
    (s.set_opener h (some o)).Live k ↔ s.Live k := by
  constructor
  · rintro (hname | ⟨g, o', hopen, rfl⟩)
    · exact .inl hname
    · by_cases hg : g = h
      · simp only [set_opener, hg, Function.update_self] at hopen
        rw [← Option.some.inj hopen]
        exact hlive
      · simp only [set_opener, Function.update_of_ne hg] at hopen
        exact .inr ⟨g, o', hopen, rfl⟩
  · rintro (hname | ⟨g, o', hopen, rfl⟩)
    · exact .inl hname
    · have hg : g ≠ h := by
        rintro rfl
        rw [hnew] at hopen
        cases hopen
      refine .inr ⟨g, o', ?_, rfl⟩
      simp only [set_opener, Function.update_of_ne hg, hopen]

omit [DecidableEq N] [DecidableEq K] [DecidableEq H] in
/-- The store stays as it should be where files that were kept alive are let go. -/
theorem Valid.keep_live (hv : s.Valid) (hcontent : t.content = s.content) (hlive : ∀ k, t.Live k → s.Live k)
    (hname : ∀ n n' k, t.name n = some k → t.name n' = some k → n = n') : t.keep_live.Valid where
  live k := by
    have hkept : (∃ c, t.keep_live.content k = some c) ↔ t.Live k := by
      simp only [Store.keep_live]
      split_ifs with hk
      · rw [hcontent]
        exact ⟨fun _ => hk, fun _ => (hv.live k).mpr (hlive k hk)⟩
      · exact ⟨fun hsome => absurd hsome.choose_spec (by simp), fun h => absurd h hk⟩
    exact hkept
  one_name := hname

omit [DecidableEq N] [DecidableEq K] in
theorem Valid.set_opener (hv : s.Valid) {v : Option (Opener K)}
    (hlive : ∀ k, (s.set_opener h v).Live k ↔ s.Live k) : (s.set_opener h v).Valid where
  live k := (hv.live k).trans (hlive k).symm
  one_name := hv.one_name

/-- Every event leaves the store as it should be. -/
theorem Step.valid {e : Event N K H α} (hstep : Step s e t) (hv : s.Valid) : t.Valid := by
  cases hstep with
  | @create n k c hname hnew =>
    have hdead : ¬ s.Live k := by
      rw [← hv.live, hnew]
      rintro ⟨c, hc⟩
      cases hc
    constructor
    · intro l
      by_cases hl : l = k
      · simp only [hl, Function.update_self, Option.some.injEq, exists_eq', true_iff]
        exact .inl ⟨n, Function.update_self _ _ _⟩
      · simp only [Function.update_of_ne hl, hv.live]
        refine or_congr (exists_congr fun n' => ?_) Iff.rfl
        by_cases hn : n' = n
        · simp [hn, hname, Ne.symm hl]
        · simp [hn]
    · intro n₁ n₂ l h₁ h₂
      have hold : ∀ n', n' ≠ n → Function.update s.name n (some k) n' = some l → s.name n' = some l := by
        intro n' hn hl
        rwa [Function.update_of_ne hn] at hl
      have hnew' : Function.update s.name n (some k) n = some l → l = k := by
        intro hl
        rw [Function.update_self] at hl
        exact (Option.some.inj hl).symm
      by_cases hn₁ : n₁ = n <;> by_cases hn₂ : n₂ = n
      · rw [hn₁, hn₂]
      · obtain rfl := hnew' (hn₁ ▸ h₁)
        exact absurd (.inl ⟨n₂, hold n₂ hn₂ h₂⟩) hdead
      · obtain rfl := hnew' (hn₂ ▸ h₂)
        exact absurd (.inl ⟨n₁, hold n₁ hn₁ h₁⟩) hdead
      · exact hv.one_name n₁ n₂ l (hold n₁ hn₁ h₁) (hold n₂ hn₂ h₂)
  | @remove n k hname =>
    have hold : ∀ n' l, Function.update s.name n none n' = some l → s.name n' = some l := by
      intro n' l hl
      by_cases hn : n' = n
      · simp [hn] at hl
      · rwa [Function.update_of_ne hn] at hl
    refine hv.keep_live rfl ?_ fun n₁ n₂ l h₁ h₂ => hv.one_name n₁ n₂ l (hold n₁ l h₁) (hold n₂ l h₂)
    rintro l (⟨n', hl⟩ | hopen)
    · exact .inl ⟨n', hold n' l hl⟩
    · exact .inr hopen
  | @open_by_name n h k hname hnew => exact hv.set_opener fun _ => live_add_opener hnew (.inl ⟨n, hname⟩)
  | @reopen g h o hopen hnew => exact hv.set_opener fun _ => live_add_opener hnew (.inr ⟨g, o, hopen, rfl⟩)
  | @close h o hopen =>
    refine hv.keep_live rfl ?_ hv.one_name
    rintro l (hname | ⟨g, o', hg, rfl⟩)
    · exact .inl hname
    · by_cases hgh : g = h
      · simp [set_opener, hgh] at hg
      · simp only [set_opener, Function.update_of_ne hgh] at hg
        exact .inr ⟨g, o', hg, rfl⟩
  | seek hopen => exact hv.set_opener fun _ => live_set_opener (by rw [hopen]; rfl)
  | deny_write hopen => exact hv.set_opener fun _ => live_set_opener (by rw [hopen]; rfl)
  | read hopen _ => exact hv.set_opener fun _ => live_set_opener (by rw [hopen]; rfl)
  | @write h o c data n hopen hfile _ =>
    have hlive : ∀ l, (s.set_opener h (some { o with pos := o.pos + n })).Live l ↔ s.Live l :=
      fun l => live_set_opener (by rw [hopen]; rfl)
    refine ⟨fun l => ?_, hv.one_name⟩
    refine Iff.trans ?_ (hlive l).symm
    rw [← hv.live]
    by_cases hl : l = o.file
    · simp [hl, hfile]
    · simp [hl]

end Store

end file_store
