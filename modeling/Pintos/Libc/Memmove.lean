import Pintos.Lib.Bytes

/-!
# Moving memory (`lib/string.c`)

`memmove` with its two directions. Addresses are numbers, as no object goes around the end of
the address space.
-/

open bytes

namespace pintos.lib

/-- The bytes of memory. -/
abbrev Memory := Nat → BitVec 8

/-- `*p = c`. -/
def store_at (m : Memory) (p : Nat) (c : BitVec 8) : Memory := fun a => if a = p then c else m a

/-- `while (size-- > 0) *dst++ = *src++`: memory, and `dst` after the loop. -/
def copy_up : Nat → Memory → Nat → Nat → Memory × Nat
  | 0, m, dst, _ => (m, dst)
  | size + 1, m, dst, src => copy_up size (store_at m dst (m src)) (dst + 1) (src + 1)

/-- `while (size-- > 0) *--dst = *--src`: memory, and `dst` after the loop. -/
def copy_down : Nat → Memory → Nat → Nat → Memory × Nat
  | 0, m, dst, _ => (m, dst)
  | size + 1, m, dst, src => copy_down size (store_at m (dst - 1) (m (src - 1))) (dst - 1) (src - 1)

/-- `memmove`: memory and the return value. There is none where an `ASSERT` fails. -/
def memmove (m : Memory) (dst src size : Nat) : Option (Memory × Nat) := do
  guard (dst ≠ 0 ∨ size = 0)
  guard (src ≠ 0 ∨ size = 0)
  if dst < src then copy_up size m dst src
  else copy_down size m (dst + size) (src + size)

/-- The bytes at `dst` are those that were at `src`, and no other byte has changed. -/
structure Moved (dst src size : Nat) (m m' : Memory) : Prop where
  inside : ∀ i < size, m' (dst + i) = m (src + i)
  outside : ∀ a, a < dst ∨ dst + size ≤ a → m' a = m a

variable {m : Memory} {dst src size : Nat}

theorem moved_copy (m : Memory) (dst src size : Nat) : Moved dst src size m (copy m dst m src size) := by
  refine ⟨?_, fun a ha => copy_outside ha⟩
  intro i hi
  rw [copy_inside (by omega) (by omega), Nat.add_sub_cancel_left]

/-- Upwards, what is stored lies below what is still to be read. -/
theorem copy_up_run (size : Nat) : ∀ {m : Memory} {dst src : Nat}, dst < src →
    copy_up size m dst src = (copy m dst m src size, dst + size) := by
  induction size with
  | zero =>
    intro m dst src _
    rw [copy_zero]
    rfl
  | succ size ih =>
    intro m dst src hlt
    rw [copy_up, ih (by omega)]
    refine Prod.ext ?_ (by simp only; omega)
    funext a
    simp only [copy, store_at]
    split_ifs <;> first | rfl | omega | (congr 1; omega)

/-- Downwards, what is stored lies above what is still to be read. -/
theorem copy_down_run (size : Nat) : ∀ {m : Memory}, src ≤ dst →
    copy_down size m (dst + size) (src + size) = (copy m dst m src size, dst) := by
  induction size with
  | zero =>
    intro m _
    rw [copy_zero]
    rfl
  | succ size ih =>
    intro m hle
    rw [copy_down, ← Nat.add_assoc, ← Nat.add_assoc, Nat.add_sub_cancel, Nat.add_sub_cancel, ih hle]
    refine Prod.ext ?_ rfl
    funext a
    simp only [copy, store_at]
    split_ifs <;> first | rfl | omega | (congr 1; omega)

/-- In either direction the bytes are moved; the return value is where the loop leaves `dst`. -/
theorem memmove_run (hdst : dst ≠ 0 ∨ size = 0) (hsrc : src ≠ 0 ∨ size = 0) :
    ∃ m', memmove m dst src size = some (m', if dst < src then dst + size else dst) ∧
      Moved dst src size m m' := by
  refine ⟨_, ?_, moved_copy m dst src size⟩
  simp only [memmove, guard, if_pos hdst, if_pos hsrc, Option.pure_def, Option.bind_eq_bind, Option.bind_some]
  split_ifs with hlt
  · rw [copy_up_run size hlt]
  · rw [copy_down_run size (Nat.le_of_not_lt hlt)]

/-- `memmove` moves the bytes and returns `dst` exactly if there are none, or `src` is a place
that does not lie after `dst`. -/
theorem memmove_returns_dst_iff (m : Memory) (dst src size : Nat) :
    (∃ m', memmove m dst src size = some (m', dst) ∧ Moved dst src size m m') ↔
      size = 0 ∨ (src ≤ dst ∧ src ≠ 0) := by
  constructor
  · rintro ⟨m', hrun, -⟩
    by_cases hsize : size = 0
    · exact .inl hsize
    · have hsrc : src ≠ 0 := by
        rintro rfl
        simp [memmove, guard, hsize] at hrun
      have hdst : dst ≠ 0 := by
        rintro rfl
        simp [memmove, guard, hsize] at hrun
      obtain ⟨m'', hrun', -⟩ := @memmove_run m dst src size (.inl hdst) (.inl hsrc)
      have hreturn := congrArg Prod.snd (Option.some.inj (hrun.symm.trans hrun'))
      refine .inr ⟨Nat.le_of_not_lt fun hlt => ?_, hsrc⟩
      rw [if_pos hlt] at hreturn
      omega
  · intro h
    have hsrc : src ≠ 0 ∨ size = 0 := h.elim .inr fun h => .inl h.2
    have hdst : dst ≠ 0 ∨ size = 0 := h.elim .inr fun h => .inl (by omega)
    obtain ⟨m', hrun, hmoved⟩ := @memmove_run m dst src size hdst hsrc
    refine ⟨m', ?_, hmoved⟩
    rw [hrun]
    split_ifs with hlt
    · rw [h.resolve_right (by omega), Nat.add_zero]
    · rfl

/-- One byte moved to the address before it: the address after it is returned. -/
theorem memmove_returns_end : ¬ ∃ m', memmove (fun a => BitVec.ofNat 8 a) 1 2 1 = some (m', 1) ∧
    Moved 1 2 1 (fun a => BitVec.ofNat 8 a) m' := by
  rintro ⟨m', hrun, -⟩
  have hreturn : 2 = 1 := congrArg Prod.snd (Option.some.inj hrun)
  contradiction

end pintos.lib
