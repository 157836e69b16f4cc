import Mathlib.Data.List.Perm.Basic
import Mathlib.Data.List.Nodup
import Mathlib.Logic.Equiv.Basic
import Mathlib.Order.Defs.Unbundled

/-!
# Heaps in sequences

A sequence with 1-based positions as a binary tree, in which no child comes after its parent.
One element that is out of order is exchanged with its greatest child until it is in order, and
every exchange rearranges the sequence.
-/

namespace heap_order

variable {α : Type*} {le : α → α → Prop} {f f' f'' : Nat → α} {lo hi cnt i j k m : Nat}

/-- Position `c` is a child of position `p`. -/
def Child (p c : Nat) : Prop := c = 2 * p ∨ c = 2 * p + 1

theorem Child.lt {p c : Nat} (h : Child p c) (hp : 0 < p) : p < c := by
  rw [Child] at h
  omega

theorem Child.unique {p q c : Nat} (h : Child p c) (h' : Child q c) : p = q := by
  rw [Child] at h h'
  omega

variable (le) in
/-- From position `lo` on, parents are in order with their children among the first `cnt`. -/
def HeapFrom (f : Nat → α) (lo cnt : Nat) : Prop :=
  ∀ p, lo ≤ p → ∀ c, Child p c → c ≤ cnt → le (f c) (f p)

variable (le) in
/-- Only position `j` may be out of order with its children, which are in order with its parent. -/
structure Sifting (f : Nat → α) (lo cnt j : Nat) : Prop where
  others : ∀ p, lo ≤ p → p ≠ j → ∀ c, Child p c → c ≤ cnt → le (f c) (f p)
  grand : ∀ p, lo ≤ p → Child p j → ∀ c, Child j c → c ≤ cnt → le (f c) (f p)

theorem HeapFrom.sifting (h : HeapFrom le f (lo + 1) cnt) (hlo : 0 < lo) : Sifting le f lo cnt lo := by
  constructor
  · intro p hp hne
    exact h p (by omega)
  · intro p hp hchild
    have hlt := hchild.lt (by omega)
    omega

theorem Sifting.stop (h : Sifting le f lo cnt j) (hj : ∀ c, Child j c → c ≤ cnt → le (f c) (f j)) :
    HeapFrom le f lo cnt := by
  intro p hp
  by_cases hpj : p = j
  · rw [hpj]
    exact hj
  · exact h.others p hp hpj

/-- The element goes down to the place of its greatest child. -/
theorem Sifting.swap (h : Sifting le f lo cnt j) (hlo : 0 < lo) (hj : lo ≤ j) (hm : Child j m) (hcnt : m ≤ cnt)
    (hgreatest : ∀ c, Child j c → c ≤ cnt → le (f c) (f m)) (hle : le (f j) (f m)) :
    Sifting le (f ∘ Equiv.swap j m) lo cnt m := by
  have hjm : j < m := hm.lt (by omega)
  have hatj : (f ∘ Equiv.swap j m) j = f m := congrArg f (Equiv.swap_apply_left j m)
  have hatm : (f ∘ Equiv.swap j m) m = f j := congrArg f (Equiv.swap_apply_right j m)
  have hother : ∀ k, k ≠ j → k ≠ m → (f ∘ Equiv.swap j m) k = f k :=
    fun k hkj hkm => congrArg f (Equiv.swap_apply_of_ne_of_ne hkj hkm)
  constructor
  · intro p hp hpm c hc hccnt
    have hpc : p < c := hc.lt (by omega)
    by_cases hpj : p = j
    · subst hpj
      rw [hatj]
      by_cases hcm : c = m
      · rw [hcm, hatm]
        exact hle
      · rw [hother c (by omega) hcm]
        exact hgreatest c hc hccnt
    · have hcm : c ≠ m := by
        rintro rfl
        exact hpj (hc.unique hm)
      rw [hother p hpj hpm]
      by_cases hcj : c = j
      · subst hcj
        rw [hatj]
        exact h.grand p hp hc m hm hcnt
      · rw [hother c hcj hcm]
        exact h.others p hp hpj c hc hccnt
  · intro p hp hpm c hc hccnt
    obtain rfl := hpm.unique hm
    have hmc : m < c := hc.lt (by omega)
    rw [hatj, hother c (by omega) (by omega)]
    exact h.others m (by omega) (by omega) c hc hccnt

/-- The root is the greatest element. -/
theorem HeapFrom.le_root [Std.Refl le] [IsTrans α le] (h : HeapFrom le f 1 cnt) (hk : 0 < k) (hcnt : k ≤ cnt) :
    le (f k) (f 1) := by
  induction k using Nat.strongRecOn with
  | ind k ih =>
    by_cases hroot : k = 1
    · rw [hroot]
      exact Std.Refl.refl _
    · have hchild : Child (k / 2) k := by
        rw [Child]
        omega
      have hparent := ih (k / 2) (by omega) (by omega) (by omega)
      exact IsTrans.trans _ _ _ (h (k / 2) (by omega) k hchild hcnt) hparent

section Rearranged

/-- The elements at the positions from `lo` to `hi` have changed places. -/
def Rearranged (lo hi : Nat) (f f' : Nat → α) : Prop :=
  ∃ σ : Equiv.Perm Nat, (∀ k, ¬ (lo ≤ k ∧ k ≤ hi) → σ k = k) ∧ f' = f ∘ σ

namespace Rearranged

theorem refl (f : Nat → α) : Rearranged lo hi f f := ⟨Equiv.refl Nat, fun _ _ => rfl, rfl⟩

theorem trans (h : Rearranged lo hi f f') (h' : Rearranged lo hi f' f'') : Rearranged lo hi f f'' := by
  obtain ⟨σ, hσ, rfl⟩ := h
  obtain ⟨τ, hτ, rfl⟩ := h'
  refine ⟨τ.trans σ, ?_, rfl⟩
  intro k hk
  rw [Equiv.trans_apply, hτ k hk, hσ k hk]

theorem swap (f : Nat → α) (hi' : lo ≤ i ∧ i ≤ hi) (hj : lo ≤ j ∧ j ≤ hi) :
    Rearranged lo hi f (f ∘ Equiv.swap i j) := by
  refine ⟨Equiv.swap i j, ?_, rfl⟩
  intro k hk
  apply Equiv.swap_apply_of_ne_of_ne
  · rintro rfl
    exact hk hi'
  · rintro rfl
    exact hk hj

theorem mono {lo' hi' : Nat} (h : Rearranged lo hi f f') (hlo : lo' ≤ lo) (hhi : hi ≤ hi') :
    Rearranged lo' hi' f f' := by
  obtain ⟨σ, hσ, rfl⟩ := h
  exact ⟨σ, fun k hk => hσ k fun hin => hk ⟨Nat.le_trans hlo hin.1, Nat.le_trans hin.2 hhi⟩, rfl⟩

theorem outside (h : Rearranged lo hi f f') (hk : ¬ (lo ≤ k ∧ k ≤ hi)) : f' k = f k := by
  obtain ⟨σ, hσ, rfl⟩ := h
  exact congrArg f (hσ k hk)

/-- What holds of all the elements there holds of them in their new places. -/
theorem inside {P : α → Prop} (h : Rearranged lo hi f f') (hp : ∀ k, lo ≤ k → k ≤ hi → P (f k)) :
    ∀ k, lo ≤ k → k ≤ hi → P (f' k) := by
  obtain ⟨σ, hσ, rfl⟩ := h
  intro k hlow hhigh
  have hin : lo ≤ σ k ∧ σ k ≤ hi := by
    by_contra hout
    have hk : σ k = k := σ.injective (hσ (σ k) hout)
    exact hout (hk.symm ▸ ⟨hlow, hhigh⟩)
  exact hp _ hin.1 hin.2

theorem perm (h : Rearranged 1 cnt f f') :
    ((List.range' 1 cnt).map f').Perm ((List.range' 1 cnt).map f) := by
  obtain ⟨σ, hσ, rfl⟩ := h
  have hsame : ((List.range' 1 cnt).map σ).Perm (List.range' 1 cnt) := by
    apply (List.perm_ext_iff_of_nodup (List.Nodup.map σ.injective List.nodup_range') List.nodup_range').mpr
    intro k
    have hmem : ∀ k, k ∈ List.range' 1 cnt ↔ 1 ≤ k ∧ k ≤ cnt := by
      intro k
      rw [List.mem_range'_1]
      omega
    have himage : ∀ k, (1 ≤ σ k ∧ σ k ≤ cnt) ↔ (1 ≤ k ∧ k ≤ cnt) := by
      intro k
      by_cases hin : 1 ≤ k ∧ k ≤ cnt
      · refine iff_of_true ?_ hin
        by_contra hout
        have hk : σ k = k := σ.injective (hσ (σ k) hout)
        exact hout (hk.symm ▸ hin)
      · rw [hσ k hin]
    rw [List.mem_map]
    constructor
    · rintro ⟨x, hx, rfl⟩
      exact (hmem _).mpr ((himage x).mpr ((hmem x).mp hx))
    · intro hk
      have hx := (hmem k).mp hk
      rw [← σ.apply_symm_apply k] at hx
      exact ⟨σ.symm k, (hmem _).mpr ((himage _).mp hx), σ.apply_symm_apply k⟩
  rw [← List.map_map]
  exact hsame.map f

end Rearranged

end Rearranged

end heap_order
