import Mathlib.Data.Set.Pairwise.Basic
import Mathlib.Data.Set.Lattice
import Mathlib.Order.CompletePartialOrder

/-!
# Ownership of resources

Some owners are there, each with the resources that it owns, and some resources are
in use. Every resource that is owned is in use, and has a single owner.
-/

namespace ownership

variable {κ ρ : Type*} {there there' : Set κ} {own own' : κ → Set ρ} {used used' : Set ρ} {k : κ}

/-- Resources in use, and none with two owners. -/
structure Owned (there : Set κ) (own : κ → Set ρ) (used : Set ρ) : Prop where
  used : ∀ k ∈ there, own k ⊆ used
  apart : there.PairwiseDisjoint own

namespace Owned

/-- An owner may leave without giving anything back. -/
theorem leave (h : Owned there own used) (hsub : there' ⊆ there) : Owned there' own used :=
  ⟨fun k hk => h.used k (hsub hk), h.apart.subset hsub⟩

theorem congr (h : Owned there own used) (hown : ∀ k ∈ there, own' k = own k) : Owned there own' used := by
  constructor
  · intro k hk
    rw [hown k hk]
    exact h.used k hk
  · intro k hk l hl hne
    simp only [Function.onFun, hown k hk, hown l hl]
    exact h.apart hk hl hne

/-- A new owner, of resources that nobody owns. -/
theorem enter (h : Owned there own used) (hused : own k ⊆ used)
    (hfree : ∀ l ∈ there, Disjoint (own k) (own l)) :
    Owned (insert k there) own used := by
  constructor
  · intro l hl
    obtain rfl | hl := Set.mem_insert_iff.mp hl
    · exact hused
    · exact h.used l hl
  · exact Set.pairwiseDisjoint_insert.mpr ⟨h.apart, fun l hl _ => hfree l hl⟩

/-- Resources that nobody owns go out of use. -/
theorem give_back (h : Owned there own used) {rs : Set ρ} (hfree : ∀ k ∈ there, Disjoint (own k) rs) :
    Owned there own (used \ rs) :=
  ⟨fun k hk _ hx => ⟨h.used k hk hx, Set.disjoint_left.mp (hfree k hk) hx⟩, h.apart⟩

/-- The owner of a resource. -/
theorem owner_unique (h : Owned there own used) {l : κ} {x : ρ} (hk : k ∈ there) (hl : l ∈ there)
    (hkx : x ∈ own k) (hlx : x ∈ own l) : k = l :=
  h.apart.elim_set hk hl x hkx hlx

end Owned

end ownership
