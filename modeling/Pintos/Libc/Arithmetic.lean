import Pintos.Lib.LongDivision
import Pintos.Lib.TwosComplement

/-!
# 64-bit division (`lib/arithmetic.c`)

The routines that the compiler calls for 64-bit integers. There is no result where the DIVL
instruction traps.
-/

open long_division twos_complement

namespace pintos.lib

/-- `divl`: traps with a divide error if the quotient does not fit in 32 bits. -/
def divl (n : BitVec 64) (d : BitVec 32) : Option (BitVec 32) :=
  if d = 0 ∨ 2 ^ 32 ≤ n.toNat / d.toNat then none else some (BitVec.ofNat 32 (n.toNat / d.toNat))

/-- A step of `nlz`: what is at most `bound` is shifted by `k`. -/
def nlz_step (bound : BitVec 32) (k : Nat) (p : Nat × BitVec 32) : Nat × BitVec 32 :=
  if p.2 ≤ bound then (p.1 + k, p.2 <<< k) else p

/-- `nlz`; the last step leaves `x` alone. -/
def nlz (x : BitVec 32) : Nat :=
  let p := nlz_step 0x0000FFFF 16 (0, x)
  let p := nlz_step 0x00FFFFFF 8 p
  let p := nlz_step 0x0FFFFFFF 4 p
  let p := nlz_step 0x3FFFFFFF 2 p
  if p.2 ≤ 0x7FFFFFFF then p.1 + 1 else p.1

/-- `udiv64`. -/
def udiv64 (n d : BitVec 64) : Option (BitVec 64) :=
  if d >>> 32 = 0 then do
    let b : BitVec 64 := 1 <<< 32
    let n1 := (n >>> 32).setWidth 32
    let n0 := n.setWidth 32
    let d0 := d.setWidth 32
    let q ← divl (b * (n1 % d0).setWidth 64 + n0.setWidth 64) d0
    return q.setWidth 64 + b * (n1 / d0).setWidth 64
  else if n < d then return 0
  else do
    let d1 := (d >>> 32).setWidth 32
    let s := nlz d1
    let q ← divl (n >>> 1) (((d <<< s) >>> 32).setWidth 32)
    let q := (q >>> (31 - s)).setWidth 64
    return if n - (q - 1) * d < d then q - 1 else q

/-- `umod64`, which returns 32 bits. -/
def umod64 (n d : BitVec 64) : Option (BitVec 32) := do return (n - d * (← udiv64 n d)).setWidth 32

/-- `sdiv64`. -/
def sdiv64 (n d : BitVec 64) : Option (BitVec 64) := do
  let n_abs := if 0 ≤ n.toInt then n else -n
  let d_abs := if 0 ≤ d.toInt then d else -d
  let q_abs ← udiv64 n_abs d_abs
  return if (n.toInt < 0 ↔ d.toInt < 0) then q_abs else -q_abs

/-- `smod64`, which returns 32 bits. -/
def smod64 (n d : BitVec 64) : Option (BitVec 32) := do return (n - d * (← sdiv64 n d)).setWidth 32

/-- `__divdi3`. -/
def divdi3 (n d : BitVec 64) : Option (BitVec 64) := sdiv64 n d

/-- `__moddi3`. -/
def moddi3 (n d : BitVec 64) : Option (BitVec 64) := do return (← smod64 n d).signExtend 64

/-- `__udivdi3`. -/
def udivdi3 (n d : BitVec 64) : Option (BitVec 64) := udiv64 n d

/-- `__umoddi3`. -/
def umoddi3 (n d : BitVec 64) : Option (BitVec 64) := do return (← umod64 n d).setWidth 64

section Unsigned

variable {x : BitVec 32} {p : Nat × BitVec 32} {c k : Nat} {n d : BitVec 64}

theorem divl_run {d : BitVec 32} (hd : 0 < d.toNat) (hq : n.toNat / d.toNat < 2 ^ 32) :
    ∃ q, divl n d = some q ∧ q.toNat = n.toNat / d.toNat := by
  have hne : d ≠ 0 := by
    rintro rfl
    exact absurd hd (by decide)
  refine ⟨_, if_neg ?_, ?_⟩
  · rintro (h | h)
    · exact hne h
    · omega
  · rw [BitVec.toNat_ofNat, Nat.mod_eq_of_lt hq]

/-- `x` has been shifted by as much as has been counted, and has a bit at `c` or above. -/
structure Shifted (x : BitVec 32) (c : Nat) (p : Nat × BitVec 32) : Prop where
  shift : p.2.toNat = x.toNat * 2 ^ p.1
  high : 2 ^ c ≤ p.2.toNat

theorem Shifted.step (h : Shifted x c p) (bound : BitVec 32) (hk : k ≤ 32) (hc : 32 ≤ c + 2 * k)
    (hbound : bound.toNat = 2 ^ (32 - k) - 1) : Shifted x (32 - k) (nlz_step bound k p) := by
  have hpow : 2 ^ (32 - k) * 2 ^ k = 2 ^ 32 := by rw [← Nat.pow_add, Nat.sub_add_cancel hk]
  have hpos := Nat.two_pow_pos (32 - k)
  rw [nlz_step]
  split_ifs with hle
  · rw [BitVec.le_def, hbound] at hle
    have hlt : p.2.toNat * 2 ^ k < 2 ^ 32 := by
      rw [← hpow]
      exact Nat.mul_lt_mul_of_pos_right (by omega) (Nat.two_pow_pos k)
    have hshift : (p.2 <<< k).toNat = p.2.toNat * 2 ^ k := by
      rw [BitVec.toNat_shiftLeft, Nat.shiftLeft_eq, Nat.mod_eq_of_lt hlt]
    refine ⟨?_, ?_⟩
    · rw [hshift, h.shift, Nat.mul_assoc, ← Nat.pow_add]
    · rw [hshift]
      calc 2 ^ (32 - k)
        _ ≤ 2 ^ (c + k) := Nat.pow_le_pow_right (by decide) (by omega)
        _ = 2 ^ c * 2 ^ k := Nat.pow_add ..
        _ ≤ p.2.toNat * 2 ^ k := Nat.mul_le_mul_right _ h.high
  · rw [BitVec.le_def, hbound] at hle
    exact ⟨h.shift, by omega⟩

/-- Shifted by its leading zeros, a number has its highest bit set. -/
theorem nlz_spec (hx : x ≠ 0) : 2 ^ 31 ≤ x.toNat * 2 ^ nlz x ∧ x.toNat * 2 ^ nlz x < 2 ^ 32 ∧ nlz x ≤ 31 := by
  have hpos : 0 < x.toNat := Nat.pos_of_ne_zero fun hzero => hx (BitVec.eq_of_toNat_eq hzero)
  have h0 : Shifted x 0 (0, x) := ⟨by simp, hpos⟩
  have h1 := h0.step 0x0000FFFF (k := 16) (by omega) (by omega) (by decide)
  have h2 := h1.step 0x00FFFFFF (k := 8) (by omega) (by omega) (by decide)
  have h3 := h2.step 0x0FFFFFFF (k := 4) (by omega) (by omega) (by decide)
  have h4 := h3.step 0x3FFFFFFF (k := 2) (by omega) (by omega) (by decide)
  have h5 := h4.step 0x7FFFFFFF (k := 1) (by omega) (by omega) (by decide)
  have hnlz : nlz x = (nlz_step 0x7FFFFFFF 1 (nlz_step 0x3FFFFFFF 2 (nlz_step 0x0FFFFFFF 4
      (nlz_step 0x00FFFFFF 8 (nlz_step 0x0000FFFF 16 (0, x)))))).1 := by
    rw [nlz_step, apply_ite Prod.fst]
    rfl
  have hshift := h5.shift
  have hlt := (nlz_step 0x7FFFFFFF 1 (nlz_step 0x3FFFFFFF 2 (nlz_step 0x0FFFFFFF 4
      (nlz_step 0x00FFFFFF 8 (nlz_step 0x0000FFFF 16 (0, x)))))).2.isLt
  rw [← hnlz] at hshift
  refine ⟨hshift ▸ h5.high, hshift ▸ hlt, ?_⟩
  by_contra hn
  have hbig : 2 ^ 32 ≤ 2 ^ nlz x := Nat.pow_le_pow_right (by decide) (by omega)
  have hmul : 1 * 2 ^ nlz x ≤ x.toNat * 2 ^ nlz x := Nat.mul_le_mul_right _ hpos
  omega

/-- A divisor of 32 bits: the quotient is found digit by digit. -/
theorem udiv64_small (hd : 0 < d.toNat) (hsmall : d.toNat < 2 ^ 32) : udiv64 n d = some (n / d) := by
  have hn := n.isLt
  have hhigh : d >>> 32 = 0 := by
    apply BitVec.eq_of_toNat_eq
    rw [BitVec.toNat_ushiftRight, Nat.shiftRight_eq_div_pow, Nat.div_eq_of_lt hsmall]
    rfl
  have hd0 : (d.setWidth 32).toNat = d.toNat := by rw [BitVec.toNat_setWidth, Nat.mod_eq_of_lt hsmall]
  have hn0 : (n.setWidth 32).toNat = n.toNat % 2 ^ 32 := BitVec.toNat_setWidth ..
  have hn1 : ((n >>> 32).setWidth 32).toNat = n.toNat / 2 ^ 32 := by
    rw [BitVec.toNat_setWidth, BitVec.toNat_ushiftRight, Nat.shiftRight_eq_div_pow]
    omega
  have hdivides := low_quotient_lt hd (Nat.mod_lt n.toNat (Nat.two_pow_pos 32)) (n.toNat / 2 ^ 32)
  have hmod := Nat.mod_lt (n.toNat / 2 ^ 32) hd
  have hlow : ((1 <<< 32 : BitVec 64) * (((n >>> 32).setWidth 32 % d.setWidth 32).setWidth 64) +
      (n.setWidth 32).setWidth 64).toNat = 2 ^ 32 * (n.toNat / 2 ^ 32 % d.toNat) + n.toNat % 2 ^ 32 := by
    rw [BitVec.toNat_add, BitVec.toNat_mul, BitVec.toNat_setWidth, BitVec.toNat_setWidth,
      BitVec.toNat_umod, hn1, hd0,
      hn0, show (1 <<< 32 : BitVec 64).toNat = 2 ^ 32 from rfl]
    omega
  obtain ⟨q, hq, hqval⟩ := divl_run (n := (1 <<< 32 : BitVec 64) *
    (((n >>> 32).setWidth 32 % d.setWidth 32).setWidth 64) + (n.setWidth 32).setWidth 64) (d := d.setWidth 32)
    (by rwa [hd0]) (by rwa [hlow, hd0])
  rw [udiv64, if_pos hhigh]
  simp only [hq, Option.bind_eq_bind, Option.bind_some, Option.pure_def]
  congr 1
  apply BitVec.eq_of_toNat_eq
  have hdigits := two_digits hd (2 ^ 32) (n.toNat / 2 ^ 32) (n.toNat % 2 ^ 32)
  rw [Nat.div_add_mod] at hdigits
  have hsum : (2 ^ 32 * (n.toNat / 2 ^ 32 % d.toNat) + n.toNat % 2 ^ 32) / d.toNat +
      2 ^ 32 * (n.toNat / 2 ^ 32 / d.toNat) < 2 ^ 64 := by
    rw [hdigits]
    exact Nat.lt_of_le_of_lt (Nat.div_le_self ..) hn
  rw [BitVec.toNat_udiv, ← hdigits, BitVec.toNat_add, BitVec.toNat_mul, BitVec.toNat_setWidth,
    BitVec.toNat_setWidth,
    hqval, hlow, BitVec.toNat_udiv, hn1, hd0, show (1 <<< 32 : BitVec 64).toNat = 2 ^ 32 from rfl]
  generalize (2 ^ 32 * (n.toNat / 2 ^ 32 % d.toNat) + n.toNat % 2 ^ 32) / d.toNat = low at hsum ⊢
  generalize n.toNat / 2 ^ 32 / d.toNat = high at hsum ⊢
  omega

/-- An estimate that may be one too large is corrected. -/
theorem corrected {q : BitVec 64} (hd : 0 < d.toNat) (hle : d.toNat ≤ n.toNat)
    (hlow : n.toNat / d.toNat ≤ q.toNat)
    (hhigh : q.toNat ≤ n.toNat / d.toNat + 1) : (if n - (q - 1) * d < d then q - 1 else q) = n / d := by
  have hn := n.isLt
  have hpos : 0 < n.toNat / d.toNat := Nat.div_pos hle hd
  have hmul : d.toNat * (n.toNat / d.toNat) + n.toNat % d.toNat = n.toNat := Nat.div_add_mod ..
  have hmod := Nat.mod_lt n.toNat hd
  have hone : (q - 1).toNat = q.toNat - 1 := by
    rw [BitVec.toNat_sub_of_le (by rw [BitVec.le_def, show (1 : BitVec 64).toNat = 1 from rfl]; omega)]
    rfl
  have hback : (q.toNat - 1) * d.toNat ≤ n.toNat := by
    calc (q.toNat - 1) * d.toNat
      _ ≤ n.toNat / d.toNat * d.toNat := Nat.mul_le_mul_right _ (by omega)
      _ ≤ n.toNat := Nat.div_mul_le_self ..
  have hproduct : ((q - 1) * d).toNat = (q.toNat - 1) * d.toNat := by
    rw [BitVec.toNat_mul, hone, Nat.mod_eq_of_lt (Nat.lt_of_le_of_lt hback hn)]
  have hrest : (n - (q - 1) * d).toNat = n.toNat - (q.toNat - 1) * d.toNat := by
    rw [BitVec.toNat_sub_of_le (by rwa [BitVec.le_def, hproduct]), hproduct]
  apply BitVec.eq_of_toNat_eq
  simp only [BitVec.lt_def, hrest, BitVec.toNat_udiv]
  obtain hq | hq : q.toNat = n.toNat / d.toNat ∨ q.toNat = n.toNat / d.toNat + 1 := by omega
  · -- the estimate is exact: one divisor more is left over
    have hsplit : (q.toNat - 1) * d.toNat + d.toNat = d.toNat * (n.toNat / d.toNat) := by
      rw [← Nat.succ_mul, Nat.succ_eq_add_one, Nat.sub_add_cancel (by omega), hq, Nat.mul_comm]
    rw [if_neg (by omega), hq]
  · have hsplit : (q.toNat - 1) * d.toNat = d.toNat * (n.toNat / d.toNat) := by
      rw [hq, Nat.add_sub_cancel, Nat.mul_comm]
    rw [if_pos (by omega), hone, hq, Nat.add_sub_cancel]

/-- A larger divisor: the quotient is estimated with 32 bits of it, and corrected. -/
theorem udiv64_large (hlarge : 2 ^ 32 ≤ d.toNat) (hle : d.toNat ≤ n.toNat) : udiv64 n d = some (n / d) := by
  have hn := n.isLt
  have hd := d.isLt
  have hzero : (0 : BitVec 32).toNat = 0 := rfl
  have hhigh : (d >>> 32).toNat = d.toNat / 2 ^ 32 :=
      by rw [BitVec.toNat_ushiftRight, Nat.shiftRight_eq_div_pow]
  have hd1 : ((d >>> 32).setWidth 32).toNat = d.toNat / 2 ^ 32 := by
    rw [BitVec.toNat_setWidth, hhigh]
    omega
  have hd1ne : (d >>> 32).setWidth 32 ≠ (0 : BitVec 32) := by
    intro heq
    rw [heq, hzero] at hd1
    omega
  obtain ⟨hbit, hfits, hs⟩ := nlz_spec hd1ne
  rw [hd1] at hbit hfits
  have hne : ¬ d >>> 32 = 0 := by
    intro heq
    rw [heq] at hd1
    rw [← hd1] at hbit
    simp at hbit
  rw [udiv64, if_neg hne, if_neg (by rw [BitVec.lt_def]; omega)]
  simp only
  generalize nlz ((d >>> 32).setWidth 32) = s at hbit hfits hs ⊢
  -- The divisor loses its lowest `32 - s` bits.
  have hwidth : 2 ^ (32 - s) * 2 ^ s = 2 ^ 32 := by rw [← Nat.pow_add, Nat.sub_add_cancel (by omega)]
  have hhalf : 2 * 2 ^ (31 - s) = 2 ^ (32 - s) := by rw [← Nat.pow_succ', show (31 - s).succ = 32 - s by omega]
  have hroom : d.toNat * 2 ^ s < 2 ^ 64 := by
    have hlt : d.toNat / 2 ^ 32 < 2 ^ (32 - s) := by
      apply Nat.lt_of_mul_lt_mul_right (a := 2 ^ s)
      rwa [hwidth]
    have hdlt : d.toNat < 2 ^ 32 * 2 ^ (32 - s) := Nat.lt_of_lt_of_le (Nat.lt_mul_div_succ _ (by decide))
      (Nat.mul_le_mul_left _ hlt)
    calc d.toNat * 2 ^ s
      _ < 2 ^ 32 * 2 ^ (32 - s) * 2 ^ s := Nat.mul_lt_mul_of_pos_right hdlt (Nat.two_pow_pos s)
      _ = 2 ^ 64 := by rw [Nat.mul_assoc, hwidth, ← Nat.pow_add]
  have hlead : d.toNat * 2 ^ s / 2 ^ 32 = d.toNat / 2 ^ (32 - s) := by
    rw [← hwidth, Nat.mul_div_mul_right _ _ (Nat.two_pow_pos s)]
  have hlow : 2 ^ 31 ≤ d.toNat / 2 ^ (32 - s) := by
    rw [← hlead, Nat.le_div_iff_mul_le (by decide)]
    calc 2 ^ 31 * 2 ^ 32
      _ ≤ d.toNat / 2 ^ 32 * 2 ^ s * 2 ^ 32 := Nat.mul_le_mul_right _ hbit
      _ = d.toNat / 2 ^ 32 * 2 ^ 32 * 2 ^ s := by rw [Nat.mul_right_comm]
      _ ≤ d.toNat * 2 ^ s := Nat.mul_le_mul_right _ (Nat.div_mul_le_self ..)
  have hdivisor : (((d <<< s) >>> 32).setWidth 32).toNat = d.toNat / 2 ^ (32 - s) := by
    rw [BitVec.toNat_setWidth, BitVec.toNat_ushiftRight, BitVec.toNat_shiftLeft, Nat.shiftLeft_eq,
      Nat.shiftRight_eq_div_pow, Nat.mod_eq_of_lt hroom, ← hlead, Nat.mod_eq_of_lt]
    omega
  have hdividend : (n >>> 1).toNat = n.toNat / 2 := by rw [BitVec.toNat_ushiftRight, Nat.shiftRight_eq_div_pow]
  have hfit : (n >>> 1).toNat / (((d <<< s) >>> 32).setWidth 32).toNat < 2 ^ 32 := by
    rw [hdividend, hdivisor, Nat.div_lt_iff_lt_mul (by omega)]
    omega
  obtain ⟨q, hq, hqval⟩ := divl_run (by omega) hfit
  rw [hdividend, hdivisor] at hqval
  have hshifted : ((q >>> (31 - s)).setWidth 64).toNat = n.toNat / (d.toNat / 2 ^ (32 - s) * 2 ^ (32 - s)) := by
    have hqlt := q.isLt
    have hle : q.toNat / 2 ^ (31 - s) ≤ q.toNat := Nat.div_le_self ..
    rw [BitVec.toNat_setWidth, BitVec.toNat_ushiftRight, Nat.shiftRight_eq_div_pow, Nat.mod_eq_of_lt (by omega),
      hqval, Nat.div_div_eq_div_mul, Nat.div_div_eq_div_mul, ← hhalf]
    congr 1
    ring
  have hkept : 2 ^ 31 * 2 ^ (32 - s) ≤ d.toNat / 2 ^ (32 - s) * 2 ^ (32 - s) := Nat.mul_le_mul_right _ hlow
  have hquotient : n.toNat / d.toNat < 2 * 2 ^ s := by
    rw [Nat.div_lt_iff_lt_mul (by omega)]
    calc n.toNat
      _ < 2 * 2 ^ 31 * (2 ^ (32 - s) * 2 ^ s) := by
        rw [hwidth]
        omega
      _ = 2 * 2 ^ s * (2 ^ 31 * 2 ^ (32 - s)) := by ring
      _ ≤ 2 * 2 ^ s * d.toNat := Nat.mul_le_mul_left _ (hkept.trans (Nat.div_mul_le_self ..))
  -- What is lost is too little to be seen in the quotient, more than once.
  have hlost : 2 * 2 ^ s * (2 ^ (32 - s) - 1) ≤ 2 ^ 31 * 2 ^ (32 - s) := by
    rw [Nat.mul_sub_one, Nat.mul_assoc, Nat.mul_comm (2 ^ s), hwidth]
    obtain rfl | hsmall := Nat.eq_or_lt_of_le hs
    · decide
    · have hfour : 2 ^ 2 ≤ 2 ^ (32 - s) := Nat.pow_le_pow_right (by decide) (by omega)
      omega
  have hestimate := @estimate d.toNat (d.toNat / 2 ^ (32 - s) * 2 ^ (32 - s)) n.toNat (2 ^ (32 - s)) (2 * 2 ^ s)
    (Nat.div_mul_le_self ..) (Nat.lt_div_mul_add (Nat.two_pow_pos _))
    (Nat.mul_pos (by omega) (Nat.two_pow_pos _))
    hquotient (hlost.trans hkept)
  rw [← hshifted] at hestimate
  simp only [hq, Option.bind_eq_bind, Option.bind_some, Option.pure_def]
  rw [corrected (by omega) hle hestimate.1 hestimate.2]

/-- `udiv64` is the quotient, and no `divl` on the way traps. -/
theorem udiv64_run (hd : d ≠ 0) : udiv64 n d = some (n / d) := by
  have hpos : 0 < d.toNat := Nat.pos_of_ne_zero fun hzero => hd (BitVec.eq_of_toNat_eq hzero)
  obtain hsmall | hlarge := Nat.lt_or_ge d.toNat (2 ^ 32)
  · exact udiv64_small hpos hsmall
  · obtain hlt | hle := Nat.lt_or_ge n.toNat d.toNat
    · have hne : ¬ d >>> 32 = 0 := by
        intro heq
        have hzero := congrArg BitVec.toNat heq
        rw [BitVec.toNat_ushiftRight, Nat.shiftRight_eq_div_pow,
          show (0 : BitVec 64).toNat = 0 from rfl] at hzero
        omega
      rw [udiv64, if_neg hne, if_pos (BitVec.lt_def.mpr hlt)]
      congr 1
      apply BitVec.eq_of_toNat_eq
      rw [BitVec.toNat_udiv, Nat.div_eq_of_lt hlt]
      rfl
    · exact udiv64_large hlarge hle

end Unsigned

section Signed

variable {n d : BitVec 64}

/-- `sdiv64` is the quotient of signed numbers, modulo `2 ^ 64`. -/
theorem sdiv64_run (hd : d ≠ 0) : sdiv64 n d = some (BitVec.ofInt 64 (n.toInt.tdiv d.toInt)) := by
  have hquotient : BitVec.ofInt 64 (n.toInt.tdiv d.toInt) = n.sdiv d := by
    apply BitVec.eq_of_toInt_eq
    rw [BitVec.toInt_ofInt, BitVec.toInt_sdiv]
  have hneg : -d ≠ 0 := by simpa using hd
  have hsign : ∀ x : BitVec 64, x.toInt < 0 ↔ x.msb = true := by
    intro x
    rw [BitVec.msb_eq_toInt, decide_eq_true_iff]
  rw [hquotient, sdiv64, BitVec.sdiv_eq]
  simp only [← Int.not_lt, hsign]
  have hpp := @udiv64_run n d hd
  have hpn := @udiv64_run n (-d) hneg
  have hnp := @udiv64_run (-n) d hd
  have hnn := @udiv64_run (-n) (-d) hneg
  cases hn : n.msb <;> cases hdm : d.msb <;> simp [hpp, hpn, hnp, hnn]

/-- Division is exact for all operands, and no `divl` on the way traps. -/
theorem division_exact (n : BitVec 64) {d : BitVec 64} (hd : d ≠ 0) :
    (∃ q, udiv64 n d = some q ∧ q.toNat = n.toNat / d.toNat) ∧
      sdiv64 n d = some (BitVec.ofInt 64 (n.toInt.tdiv d.toInt)) :=
  ⟨⟨_, udiv64_run hd, BitVec.toNat_udiv⟩, sdiv64_run hd⟩

/-- The largest dividend, by a divisor of which the first estimate is one too large. -/
theorem division_exact_largest : (∃ q, udiv64 (-1) 0x1ffffffff = some q ∧
      q.toNat = (-1 : BitVec 64).toNat / (0x1ffffffff : BitVec 64).toNat) ∧
    sdiv64 (-1) 0x1ffffffff =
      some (BitVec.ofInt 64 ((-1 : BitVec 64).toInt.tdiv (0x1ffffffff : BitVec 64).toInt)) :=
  division_exact (-1) (by decide)

end Signed

section Remainder

variable {n d : BitVec 64}

theorem sub_mul_udiv (n d : BitVec 64) : n - d * (n / d) = n % d := by
  have hn := n.isLt
  have hsplit := Nat.div_add_mod n.toNat d.toNat
  have hle : d.toNat * (n.toNat / d.toNat) ≤ n.toNat := Nat.mul_div_le ..
  have hproduct : (d * (n / d)).toNat = d.toNat * (n.toNat / d.toNat) := by
    rw [BitVec.toNat_mul, BitVec.toNat_udiv, Nat.mod_eq_of_lt (Nat.lt_of_le_of_lt hle hn)]
  apply BitVec.eq_of_toNat_eq
  rw [BitVec.toNat_sub_of_le (by rwa [BitVec.le_def, hproduct]), hproduct, BitVec.toNat_umod]
  omega

theorem sub_mul_tdiv (n d : BitVec 64) : n - d * BitVec.ofInt 64 (n.toInt.tdiv d.toInt) = n.srem d := by
  apply BitVec.eq_of_toInt_eq
  have hrange := BitVec.toInt_bmod_cancel (n.srem d)
  rw [BitVec.toInt_srem] at hrange
  rw [BitVec.toInt_sub, BitVec.toInt_mul, BitVec.toInt_ofInt, BitVec.toInt_srem, Int.mul_bmod_bmod,
    Int.sub_bmod_bmod,
    ← Int.tmod_def, hrange]

/-- The unsigned remainder is what the quotient leaves, and below the divisor. -/
def UnsignedIdentity (n d : BitVec 64) : Prop :=
  ∃ q r, udivdi3 n d = some q ∧ umoddi3 n d = some r ∧ r = n - d * q ∧ r < d

/-- The signed remainder is what the quotient leaves, with the sign of the dividend and a magnitude
below that of the divisor. -/
def SignedIdentity (n d : BitVec 64) : Prop :=
  ∃ q r, divdi3 n d = some q ∧ moddi3 n d = some r ∧ r = n - d * q ∧
    (0 < r.toInt → 0 < n.toInt) ∧ (r.toInt < 0 → n.toInt < 0) ∧ r.toInt.natAbs < d.toInt.natAbs

theorem umoddi3_run (hd : d ≠ 0) : umoddi3 n d = some (((n % d).setWidth 32).setWidth 64) := by
  simp only [umoddi3, umod64, udiv64_run hd, sub_mul_udiv, Option.bind_eq_bind, Option.bind_some,
    Option.pure_def]

theorem moddi3_run (hd : d ≠ 0) : moddi3 n d = some (((n.srem d).setWidth 32).signExtend 64) := by
  simp only [moddi3, smod64, sdiv64_run hd, sub_mul_tdiv, Option.bind_eq_bind, Option.bind_some,
    Option.pure_def]

theorem unsignedIdentity_iff (hd : d ≠ 0) : UnsignedIdentity n d ↔ n.toNat % d.toNat < 2 ^ 32 := by
  have hpos : 0 < d.toNat := Nat.pos_of_ne_zero fun hzero => hd (BitVec.eq_of_toNat_eq hzero)
  have hvalue : (((n % d).setWidth 32).setWidth 64).toNat = n.toNat % d.toNat % 2 ^ 32 := by
    rw [BitVec.toNat_setWidth, BitVec.toNat_setWidth, BitVec.toNat_umod]
    omega
  constructor
  · rintro ⟨q, r, hq, hr, hidentity, -⟩
    obtain rfl := Option.some.inj ((udiv64_run hd).symm.trans hq)
    obtain rfl := Option.some.inj ((umoddi3_run hd).symm.trans hr)
    have heq := congrArg BitVec.toNat hidentity
    rw [sub_mul_udiv, hvalue, BitVec.toNat_umod] at heq
    omega
  · intro hsmall
    have hexact : ((n % d).setWidth 32).setWidth 64 = n % d := by
      apply BitVec.eq_of_toNat_eq
      rw [hvalue, BitVec.toNat_umod, Nat.mod_eq_of_lt hsmall]
    refine ⟨n / d, n % d, udiv64_run hd, hexact ▸ umoddi3_run hd, (sub_mul_udiv n d).symm, ?_⟩
    rw [BitVec.lt_def, BitVec.toNat_umod]
    exact Nat.mod_lt _ hpos

theorem signedIdentity_iff (hd : d ≠ 0) :
    SignedIdentity n d ↔ -2 ^ 31 ≤ n.toInt.tmod d.toInt ∧ n.toInt.tmod d.toInt < 2 ^ 31 := by
  have hvalue : (((n.srem d).setWidth 32).signExtend 64).toInt = int32 (n.toInt.tmod d.toInt) := by
    rw [BitVec.toInt_signExtend_of_le (by decide), BitVec.toInt_setWidth, ← BitVec.toInt_srem,
      BitVec.toInt_eq_toNat_bmod]
    exact (Int.bmod_bmod_of_dvd (by decide)).symm
  constructor
  · rintro ⟨q, r, hq, hr, hidentity, -⟩
    obtain rfl := Option.some.inj ((sdiv64_run hd).symm.trans hq)
    obtain rfl := Option.some.inj ((moddi3_run hd).symm.trans hr)
    have heq := congrArg BitVec.toInt hidentity
    rw [sub_mul_tdiv, hvalue, BitVec.toInt_srem] at heq
    have hrange := int32_range (n.toInt.tmod d.toInt)
    omega
  · rintro ⟨hlow, hhigh⟩
    have hexact : ((n.srem d).setWidth 32).signExtend 64 = n.srem d := by
      apply BitVec.eq_of_toInt_eq
      rw [hvalue, BitVec.toInt_srem, int32_of_range (by omega) (by omega)]
    refine ⟨_, n.srem d, sdiv64_run hd, hexact ▸ moddi3_run hd, (sub_mul_tdiv n d).symm, ?_⟩
    rw [BitVec.toInt_srem]
    refine ⟨?_, ?_, ?_⟩
    · intro hpos
      by_contra hn
      have hneg := Int.tmod_nonneg d.toInt (show 0 ≤ -n.toInt by omega)
      rw [Int.neg_tmod] at hneg
      omega
    · intro hneg
      by_contra hn
      have hpos := Int.tmod_nonneg d.toInt (show 0 ≤ n.toInt by omega)
      omega
    · rw [Int.natAbs_tmod]
      apply Nat.mod_lt
      rw [Int.natAbs_pos]
      exact BitVec.toInt_ne.mpr hd

/-- The remainders pass through 32 bits: they are right exactly where they fit. -/
theorem division_identity_iff (n : BitVec 64) {d : BitVec 64} (hd : d ≠ 0) :
    (UnsignedIdentity n d ↔ n.toNat % d.toNat < 2 ^ 32) ∧
      (SignedIdentity n d ↔ -2 ^ 31 ≤ n.toInt.tmod d.toInt ∧ n.toInt.tmod d.toInt < 2 ^ 31) :=
  ⟨unsignedIdentity_iff hd, signedIdentity_iff hd⟩

theorem division_identity_seven :
    (UnsignedIdentity 7 2 ↔ (7 : BitVec 64).toNat % (2 : BitVec 64).toNat < 2 ^ 32) ∧
      (SignedIdentity 7 2 ↔ -2 ^ 31 ≤ (7 : BitVec 64).toInt.tmod (2 : BitVec 64).toInt ∧
        (7 : BitVec 64).toInt.tmod (2 : BitVec 64).toInt < 2 ^ 31) :=
  division_identity_iff 7 (by decide)

/-- `2 ^ 32` is its own remainder by the double of it, and comes out as zero. -/
theorem umoddi3_truncates : ¬ UnsignedIdentity 0x100000000 0x200000000 := by
  rintro ⟨q, r, hq, hr, hidentity, -⟩
  obtain rfl : (0 : BitVec 64) = q := Option.some.inj (Eq.trans (by decide) hq)
  obtain rfl : (0 : BitVec 64) = r := Option.some.inj (Eq.trans (by decide) hr)
  exact absurd hidentity (by decide)

end Remainder

end pintos.lib
