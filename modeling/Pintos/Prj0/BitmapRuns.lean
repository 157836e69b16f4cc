import Pintos.Prj0.Bitmap
import Mathlib.Data.List.Induction

/-!
# What bitmaps of the list library hold

Calls change the bits in the low halves of the elements as they should, and leave
those in the high halves as they were in the block from `malloc`.
-/

namespace pintos.prj0_2

/-- The bit that an element holds for an index. -/
def bitmap.bit (b : bitmap) (i : Nat) : Bool := (b.bits.getD (elem_idx i) 0).getLsbD (i % ELEM_BITS)

/-- The bit of the block from `malloc`. -/
def block_bit (block : Nat → Elem) (i : Nat) : Bool := (block (elem_idx i)).getLsbD (i % ELEM_BITS)

/-- The bit is in the low half of its element. -/
def Low (i : Nat) : Prop := i % ELEM_BITS < 32

instance (i : Nat) : Decidable (Low i) := inferInstanceAs (Decidable (_ < _))

/-- A call with `v` as the truth values that it should lead to: it reaches those in the
low halves only. -/
structure Becomes (v : Nat → Bool) (b b' : bitmap) : Prop where
  bit_cnt : b'.bit_cnt = b.bit_cnt
  length : b'.bits.length = b.bits.length
  bit : ∀ i, i < ELEM_BITS * b.bits.length → b'.bit i = if Low i then v i else b.bit i

section Bits

variable {b b' b'' : bitmap} {i k : Nat}

theorem Becomes.trans {v v' : Nat → Bool} (h : Becomes v b b') (h' : Becomes v' b' b'') : Becomes v' b b'' := by
  refine ⟨h'.bit_cnt.trans h.bit_cnt, h'.length.trans h.length, ?_⟩
  intro i hi
  rw [h'.bit i (h.length ▸ hi), h.bit i hi]
  split <;> rfl

theorem low_half_getLsbD (op : BitVec 32 → BitVec 32 → BitVec 32) (elem mask : Elem) {j : Nat} (hj : j < 64) :
    (low_half op elem mask).getLsbD j =
      if j < 32 then (op (elem.setWidth 32) (mask.setWidth 32)).getLsbD j else elem.getLsbD j := by
  rw [low_half, BitVec.getLsbD_append]
  split
  · rfl
  · have hlt : j - 32 < 32 := by omega
    have hback : 32 + (j - 32) = j := by omega
    simp [hlt, hback]

theorem bit_mask_getLsbD {j : Nat} (hj : j < 64) : (bit_mask k).getLsbD j = decide (j = k % ELEM_BITS) := by
  have hk : k % ELEM_BITS < 64 := Nat.mod_lt _ (by decide)
  simp only [bit_mask, BitVec.getLsbD_shiftLeft, BitVec.getLsbD_one]
  rw [Bool.eq_iff_iff]
  simp
  omega

/-- An instruction changes the bit that its mask has, if that is in the low half. -/
theorem on_elem_becomes {op : BitVec 32 → BitVec 32 → BitVec 32} {mask : Elem} {g : Bool → Bool}
    (hk : k < ELEM_BITS * b.bits.length)
    (hop : ∀ (elem : Elem) (j : Nat), j < 32 → (op (elem.setWidth 32) (mask.setWidth 32)).getLsbD j =
      if j = k % ELEM_BITS then g (elem.getLsbD j) else elem.getLsbD j) :
    ∃ b', on_elem b (elem_idx k) (fun elem => low_half op elem mask) = .ok b' ∧
      Becomes (fun i => if i = k then g (b.bit i) else b.bit i) b b' := by
  have hidx : elem_idx k < b.bits.length := Nat.div_lt_of_lt_mul hk
  rw [on_elem, List.getElem?_eq_getElem hidx]
  refine ⟨_, rfl, rfl, List.length_set, ?_⟩
  intro i hi
  have hj : i % ELEM_BITS < 64 := Nat.mod_lt _ (by decide)
  have hi' : elem_idx i < b.bits.length := Nat.div_lt_of_lt_mul hi
  simp only [bitmap.bit, List.getD_eq_getElem?_getD, List.getElem?_set, Low]
  by_cases hsame : elem_idx k = elem_idx i
  · have hsplit : i = k ↔ i % ELEM_BITS = k % ELEM_BITS := by
      simp only [elem_idx, ELEM_BITS] at hsame ⊢
      omega
    rw [if_pos hsame, if_pos hidx, List.getElem?_eq_getElem hi']
    simp only [Option.getD_some, low_half_getLsbD op _ mask hj, hsame]
    split
    · rename_i hlow
      simp only [hop _ _ hlow, hsplit]
    · rfl
  · have hne : i ≠ k := fun h => hsame (by rw [h])
    rw [if_neg hsame, if_neg hne]
    split <;> rfl

theorem bitmap_mark_becomes (hk : k < ELEM_BITS * b.bits.length) :
    ∃ b', bitmap_mark b k = .ok b' ∧ Becomes (fun i => if i = k then true else b.bit i) b b' := by
  apply on_elem_becomes (g := fun _ => true) hk
  intro elem j hj
  rw [BitVec.getLsbD_or, BitVec.getLsbD_setWidth, BitVec.getLsbD_setWidth, bit_mask_getLsbD (by omega)]
  by_cases hjk : j = k % ELEM_BITS
  · have hk' : k % ELEM_BITS < 32 := hjk ▸ hj
    simp [hjk, hk']
  · simp [hjk, hj]

theorem bitmap_reset_becomes (hk : k < ELEM_BITS * b.bits.length) :
    ∃ b', bitmap_reset b k = .ok b' ∧ Becomes (fun i => if i = k then false else b.bit i) b b' := by
  apply on_elem_becomes (g := fun _ => false) hk
  intro elem j hj
  have hj' : j < 64 := by omega
  rw [BitVec.getLsbD_and, BitVec.getLsbD_setWidth, BitVec.getLsbD_setWidth, BitVec.getLsbD_not,
    bit_mask_getLsbD hj']
  by_cases hjk : j = k % ELEM_BITS <;> simp [hjk, hj, hj']

theorem bitmap_flip_becomes (hk : k < ELEM_BITS * b.bits.length) :
    ∃ b', bitmap_flip b k = .ok b' ∧ Becomes (fun i => if i = k then !b.bit i else b.bit i) b b' := by
  apply on_elem_becomes (g := not) hk
  intro elem j hj
  rw [BitVec.getLsbD_xor, BitVec.getLsbD_setWidth, BitVec.getLsbD_setWidth, bit_mask_getLsbD (by omega)]
  by_cases hjk : j = k % ELEM_BITS
  · have hk' : k % ELEM_BITS < 32 := hjk ▸ hj
    simp [hjk, hk']
  · simp [hjk, hj]

end Bits

/-- The elements that the bits need are in the block. -/
structure Fits (b : bitmap) : Prop where
  no_wrap : b.bit_cnt + 63 < 2 ^ 64
  length : b.bits.length = elem_cnt b.bit_cnt

section Calls

variable {b b' : bitmap} {i k : Nat}

theorem Fits.bit_lt (h : Fits b) (hi : i < b.bit_cnt) : i < ELEM_BITS * b.bits.length := by
  have hwrap := h.no_wrap
  rw [h.length, elem_cnt]
  simp only [ELEM_BITS]
  omega

theorem Fits.becomes {v : Nat → Bool} (h : Fits b) (hb : Becomes v b b') : Fits b' := by
  refine ⟨hb.bit_cnt ▸ h.no_wrap, ?_⟩
  rw [hb.length, h.length, hb.bit_cnt]

theorem bitmap_set_becomes (h : Fits b) (hk : k < b.bit_cnt) (value : Bool) :
    ∃ b', bitmap_set b k value = .ok b' ∧ Becomes (fun i => if i = k then value else b.bit i) b b' := by
  rw [bitmap_set, if_pos hk]
  cases value with
  | true => exact bitmap_mark_becomes (h.bit_lt hk)
  | false => exact bitmap_reset_becomes (h.bit_lt hk)

/-- `bitmap_test` reads the element. -/
theorem bitmap_test_run (h : Fits b) (hk : k < b.bit_cnt) : bitmap_test b k = .ok (b.bit k) := by
  have hidx : elem_idx k < b.bits.length := Nat.div_lt_of_lt_mul (h.bit_lt hk)
  have hbit : ∀ elem : Elem, decide (elem &&& bit_mask k ≠ 0) = elem.getLsbD (k % ELEM_BITS) := by
    intro elem
    have hj : k % ELEM_BITS < 64 := Nat.mod_lt _ (by decide)
    rw [Bool.eq_iff_iff, decide_eq_true_iff]
    constructor
    · intro hne
      by_contra hclear
      apply hne
      apply BitVec.eq_of_getLsbD_eq
      intro j hj'
      rw [BitVec.getLsbD_and, bit_mask_getLsbD hj']
      by_cases hjk : j = k % ELEM_BITS
      · subst hjk
        simp [Bool.eq_false_iff.mpr hclear]
      · simp [hjk]
    · intro hset hzero
      have hand := congrArg (fun e => e.getLsbD (k % ELEM_BITS)) hzero
      simp only [BitVec.getLsbD_and, bit_mask_getLsbD hj, hset] at hand
      simp at hand
  rw [bitmap_test, if_pos hk, List.getElem?_eq_getElem hidx]
  simp only [hbit, bitmap.bit, List.getD_eq_getElem?_getD, List.getElem?_eq_getElem hidx, Option.getD_some]

theorem set_loop_becomes (value : Bool) (n : Nat) : ∀ {i : Nat} {b : bitmap}, Fits b → i + n ≤ b.bit_cnt →
    ∃ b', set_loop value n i b = .ok b' ∧
      Becomes (fun j => if i ≤ j ∧ j < i + n then value else b.bit j) b b' := by
  induction n with
  | zero =>
    intro i b _ _
    refine ⟨b, rfl, rfl, rfl, ?_⟩
    intro j _
    have hnone : ¬ (i ≤ j ∧ j < i + 0) := by omega
    rw [if_neg hnone, ite_self]
  | succ n ih =>
    intro i b h hi
    obtain ⟨b₁, hset, hb₁⟩ := bitmap_set_becomes h (show i < b.bit_cnt by omega) value
    obtain ⟨b', hloop, hb'⟩ := ih (h.becomes hb₁) (show i + 1 + n ≤ b₁.bit_cnt by rw [hb₁.bit_cnt]; omega)
    refine ⟨b', ?_, hb'.bit_cnt.trans hb₁.bit_cnt, hb'.length.trans hb₁.length, ?_⟩
    · rw [set_loop, hset]
      exact hloop
    · intro j hj
      rw [hb'.bit j (hb₁.length ▸ hj), hb₁.bit j hj]
      split_ifs <;> first | rfl | omega

theorem bitmap_set_multiple_becomes (h : Fits b) {start cnt : Nat} (hend : start + cnt ≤ b.bit_cnt)
    (value : Bool) :
    ∃ b', bitmap_set_multiple b start cnt value = .ok b' ∧
      Becomes (fun j => if start ≤ j ∧ j < start + cnt then value else b.bit j) b b' := by
  have hwrap := h.no_wrap
  have hmod : (start + cnt) % 2 ^ 64 = start + cnt := Nat.mod_eq_of_lt (by omega)
  rw [bitmap_set_multiple, hmod, if_pos ⟨by omega, hend⟩]
  exact set_loop_becomes value cnt h hend

/-- A new bitmap has false bits in the low halves, and those of the block in the
high ones. -/
theorem bitmap_create_becomes {n : Nat} (hn : n + 63 < 2 ^ 64) (block : Nat → Elem) :
    ∃ b, bitmap_create n block = .ok b ∧ Fits b ∧ b.bit_cnt = n ∧
      ∀ i < n, b.bit i = if Low i then false else block_bit block i := by
  let b₀ : bitmap := { bit_cnt := n, bits := (List.range (elem_cnt n)).map block }
  have hfits : Fits b₀ := ⟨hn, by simp [b₀]⟩
  obtain ⟨b, hset, hb⟩ := bitmap_set_multiple_becomes hfits (show 0 + n ≤ b₀.bit_cnt by simp [b₀]) false
  refine ⟨b, hset, hfits.becomes hb, hb.bit_cnt, ?_⟩
  intro i hi
  have hlt := hfits.bit_lt hi
  have hidx : elem_idx i < elem_cnt n := by
    have hdiv : elem_idx i < b₀.bits.length := Nat.div_lt_of_lt_mul hlt
    simpa [b₀] using hdiv
  have hin : 0 ≤ i ∧ i < 0 + n := by omega
  rw [hb.bit i hlt, if_pos hin]
  congr 1
  simp [b₀, bitmap.bit, block_bit, hidx]

theorem expand_loop_becomes (hb : Fits b) (n : Nat) : ∀ {i : Nat} {c : bitmap}, Fits c → i + n ≤ b.bit_cnt →
    b.bit_cnt ≤ c.bit_cnt →
    ∃ c', expand_loop b n i c = .ok c' ∧
      Becomes (fun j => if i ≤ j ∧ j < i + n then b.bit j else c.bit j) c c' := by
  induction n with
  | zero =>
    intro i c _ _ _
    refine ⟨c, rfl, rfl, rfl, ?_⟩
    intro j _
    have hnone : ¬ (i ≤ j ∧ j < i + 0) := by omega
    rw [if_neg hnone, ite_self]
  | succ n ih =>
    intro i c h hi hle
    obtain ⟨c₁, hset, hc₁⟩ := bitmap_set_becomes h (show i < c.bit_cnt by omega) (b.bit i)
    obtain ⟨c', hloop, hc'⟩ := ih (h.becomes hc₁) (show i + 1 + n ≤ b.bit_cnt by omega)
      (by rw [hc₁.bit_cnt]; exact hle)
    refine ⟨c', ?_, hc'.bit_cnt.trans hc₁.bit_cnt, hc'.length.trans hc₁.length, ?_⟩
    · rw [expand_loop, bitmap_test_run hb (by omega)]
      simp only [bind, Except.bind, hset]
      exact hloop
    · intro j hj
      rw [hc'.bit j (hc₁.length ▸ hj), hc₁.bit j hj]
      by_cases hij : j = i
      · subst hij
        split_ifs <;> first | rfl | omega
      · split_ifs <;> first | rfl | omega

end Calls

/-- The bitmap holds the truth values in the low halves, and the block's bits in the
high ones. -/
structure Agrees (b : bitmap) (l : List Bool) (block : Nat → Elem) : Prop where
  fits : Fits b
  bit_cnt : b.bit_cnt = l.length
  bit : ∀ (i : Nat) (v : Bool), l[i]? = some v → b.bit i = if Low i then v else block_bit block i

section Runs

variable {b b' : bitmap} {l : List Bool} {block : Nat → Elem} {op : Op} {ops : List Op} {n : Nat}

theorem Agrees.becomes {v : Nat → Bool} {l' : List Bool} (h : Agrees b l block) (hb : Becomes v b b')
    (hlength : l'.length = l.length) (hv : ∀ i w, l'[i]? = some w → Low i → v i = w) : Agrees b' l' block := by
  refine ⟨h.fits.becomes hb, hb.bit_cnt.trans (h.bit_cnt.trans hlength.symm), ?_⟩
  intro i w hw
  have hi : i < l.length := by
    rw [← hlength]
    exact (List.getElem?_eq_some_iff.mp hw).1
  rw [hb.bit i (h.fits.bit_lt (h.bit_cnt ▸ hi))]
  by_cases hlow : Low i
  · rw [if_pos hlow, if_pos hlow, hv i w hw hlow]
  · rw [if_neg hlow, if_neg hlow, h.bit i l[i] (List.getElem?_eq_getElem hi), if_neg hlow]

/-- One call on a bitmap that agrees. -/
theorem exec_agrees (h : Agrees b l block) (hin : op.InRange l) (hfits : (op.apply l).length + 63 < 2 ^ 64) :
    ∃ b', op.exec b = .ok b' ∧ Agrees b' (op.apply l) (op.block block) := by
  have hset : ∀ {k : Nat} {value : Bool} {b' : bitmap}, Becomes
      (fun i => if i = k then value else b.bit i) b b' →
      Agrees b' (l.set k value) block := by
    intro k value b' hb
    apply h.becomes hb (List.length_set)
    intro i w hw hlow
    rw [List.getElem?_set] at hw
    split_ifs at hw with hik hk
    · simpa [hik] using hw
    · simp only [if_neg (Ne.symm hik), h.bit i w hw, if_pos hlow]
  cases op with
  | mark k =>
    obtain ⟨b', hrun, hb⟩ := bitmap_mark_becomes (h.fits.bit_lt (h.bit_cnt.symm ▸ show _ < l.length from hin))
    exact ⟨b', hrun, hset hb⟩
  | reset k =>
    obtain ⟨b', hrun, hb⟩ := bitmap_reset_becomes (h.fits.bit_lt (h.bit_cnt.symm ▸ show _ < l.length from hin))
    exact ⟨b', hrun, hset hb⟩
  | flip k =>
    obtain ⟨b', hrun, hb⟩ := bitmap_flip_becomes (h.fits.bit_lt (h.bit_cnt.symm ▸ show _ < l.length from hin))
    refine ⟨b', hrun, h.becomes hb (List.length_modify _ _ _) ?_⟩
    intro i w hw hlow
    rw [Op.apply, List.getElem?_modify] at hw
    obtain ⟨v, hv, rfl⟩ := Option.map_eq_some_iff.mp hw
    simp only [h.bit i v hv, if_pos hlow]
    split_ifs <;> first | rfl | omega
  | set k value =>
    obtain ⟨b', hrun, hb⟩ := bitmap_set_becomes h.fits (h.bit_cnt.symm ▸ show _ < l.length from hin) value
    exact ⟨b', hrun, hset hb⟩
  | set_multiple start cnt value =>
    obtain ⟨b', hrun, hb⟩ := bitmap_set_multiple_becomes h.fits
      (h.bit_cnt.symm ▸ show start + cnt ≤ l.length from hin) value
    refine ⟨b', hrun, h.becomes hb List.length_mapIdx ?_⟩
    intro i w hw hlow
    rw [Op.apply, List.getElem?_mapIdx] at hw
    obtain ⟨v, hv, rfl⟩ := Option.map_eq_some_iff.mp hw
    simp only [h.bit i v hv, if_pos hlow]
  | expand size block' =>
    simp only [Op.apply, List.length_append, List.length_replicate] at hfits
    have hmod : (b.bit_cnt + size) % 2 ^ 64 = l.length + size := by
      rw [h.bit_cnt]
      exact Nat.mod_eq_of_lt (by omega)
    obtain ⟨c, hcreate, hc, hcount, hbits⟩ := bitmap_create_becomes hfits block'
    obtain ⟨b', hloop, hb'⟩ := expand_loop_becomes h.fits b.bit_cnt hc (Nat.le_of_eq (Nat.zero_add _))
      (by rw [hcount, h.bit_cnt]; omega)
    refine ⟨b', ?_, hc.becomes hb', ?_, ?_⟩
    · rw [Op.exec, bitmap_expand, hmod, hcreate]
      exact hloop
    · rw [hb'.bit_cnt, hcount, Op.apply, List.length_append, List.length_replicate]
    · intro i w hw
      have hi : i < l.length + size := by
        simpa [Op.apply] using (List.getElem?_eq_some_iff.mp hw).1
      rw [hb'.bit i (hc.bit_lt (hcount ▸ hi)), hbits i hi]
      by_cases hlow : Low i
      · simp only [if_pos hlow]
        by_cases hil : i < l.length
        · have hw' : l[i]? = some w := by rwa [Op.apply, List.getElem?_append_left hil] at hw
          rw [if_pos (by rw [h.bit_cnt]; omega), h.bit i w hw', if_pos hlow]
        · rw [Op.apply, List.getElem?_append_right (by omega), List.getElem?_replicate] at hw
          rw [if_neg (by rw [h.bit_cnt]; omega)]
          split_ifs at hw
          simpa using hw
      · simp only [if_neg hlow]
        rfl

/-- The block of memory is large enough for the bits, whenever they are counted. -/
def NoWrap (n : Nat) (ops : List Op) : Prop := ∀ pre, pre <+: ops → (model n pre).length + 63 < 2 ^ 64

/-- The arguments of all calls are in range. -/
def InRange (n : Nat) (ops : List Op) : Prop := ∀ pre op, pre ++ [op] <+: ops → op.InRange (model n pre)

theorem model_append (n : Nat) (ops : List Op) (op : Op) : model n (ops ++ [op]) = op.apply (model n ops) := by
  simp [model]

theorem current_block_append (block : Nat → Elem) (ops : List Op) (op : Op) :
    current_block block (ops ++ [op]) = op.block (current_block block ops) := by
  simp [current_block]

theorem run_append (n : Nat) (block : Nat → Elem) (ops : List Op) (op : Op) :
    run n block (ops ++ [op]) = run n block ops >>= fun b => op.exec b := by
  simp [run]

theorem run_agrees (block : Nat → Elem) (hin : InRange n ops) (hfits : NoWrap n ops) :
    ∃ b, run n block ops = .ok b ∧ Agrees b (model n ops) (current_block block ops) := by
  induction ops using List.reverseRecOn with
  | nil =>
    have hn := hfits [] (List.prefix_rfl)
    simp only [model, List.foldl_nil, List.length_replicate] at hn
    obtain ⟨b, hcreate, hb, hcount, hbits⟩ := bitmap_create_becomes hn block
    refine ⟨b, by simp [run, hcreate, bind, Except.bind, pure, Except.pure], hb, by simp [model, hcount], ?_⟩
    intro i v hv
    simp only [model, List.foldl_nil, List.getElem?_replicate] at hv
    split_ifs at hv with hi
    rw [hbits i hi, ← Option.some.inj hv]
    rfl
  | append_singleton ops op ih =>
    have hsub : ops <+: ops ++ [op] := List.prefix_append _ _
    obtain ⟨b, hrun, hb⟩ := ih (fun pre op' h => hin pre op' (h.trans hsub))
      (fun pre h => hfits pre (h.trans hsub))
    have hnext := hfits (ops ++ [op]) List.prefix_rfl
    rw [model_append] at hnext
    obtain ⟨b', hexec, hb'⟩ := exec_agrees hb (hin ops op List.prefix_rfl) hnext
    refine ⟨b', ?_, ?_⟩
    · rw [run_append, hrun]
      exact hexec
    · rw [model_append, current_block_append]
      exact hb'

/-- After some calls, the code has a bitmap with as many bits as there are truth
values, and `bitmap_test` returns them. -/
def Shows (n : Nat) (block : Nat → Elem) (ops : List Op) : Prop :=
  ∃ b, run n block ops = .ok b ∧ b.bit_cnt = (model n ops).length ∧
    ∀ (i : Nat) (v : Bool), (model n ops)[i]? = some v → bitmap_test b i = .ok v

/-- No truth value in a high half is true, and neither is a bit there that `malloc`
left in the block. -/
def HighClear (n : Nat) (block : Nat → Elem) (ops : List Op) : Prop :=
  ∀ i < (model n ops).length, ¬ Low i → (model n ops)[i]? = some false ∧
    block_bit (current_block block ops) i = false

theorem Agrees.test (h : Agrees b l block) {i : Nat} {v : Bool} (hv : l[i]? = some v) :
    bitmap_test b i = .ok (if Low i then v else block_bit block i) := by
  have hi : i < b.bit_cnt := by
    rw [h.bit_cnt]
    exact (List.getElem?_eq_some_iff.mp hv).1
  rw [bitmap_test_run h.fits hi, h.bit i v hv]

/-- The element count of a bitmap with too many bits wraps around to 0. -/
theorem bitmap_create_wraps (hlow : 2 ^ 64 ≤ n + 63) (hhigh : n < 2 ^ 64) (block : Nat → Elem) :
    bitmap_create n block = .error .outside := by
  have hcnt : elem_cnt n = 0 := by
    simp only [elem_cnt, ELEM_BITS]
    omega
  obtain ⟨m, rfl⟩ := Nat.exists_eq_succ_of_ne_zero (show n ≠ 0 by omega)
  have hrange : (0 : Nat) ≤ m + 1 ∧ (0 + (m + 1)) % 2 ^ 64 ≤ m + 1 := by
    rw [Nat.zero_add]
    exact ⟨Nat.zero_le _, Nat.mod_le _ _⟩
  rw [bitmap_create, hcnt, bitmap_set_multiple, if_pos hrange, set_loop, bitmap_set, if_pos (Nat.succ_pos m)]
  rfl

theorem on_elem_bit_cnt {idx : Nat} {f : Elem → Elem} (h : on_elem b idx f = .ok b') :
    b'.bit_cnt = b.bit_cnt := by
  rw [on_elem] at h
  split at h
  · cases h
    rfl
  · contradiction

theorem bitmap_set_bit_cnt {i : Nat} {value : Bool} (h : bitmap_set b i value = .ok b') :
    b'.bit_cnt = b.bit_cnt := by
  rw [bitmap_set] at h
  split_ifs at h
  · exact on_elem_bit_cnt h
  · exact on_elem_bit_cnt h

theorem set_loop_bit_cnt {value : Bool} (n : Nat) : ∀ {i : Nat} {b : bitmap}, set_loop value n i b = .ok b' →
    b'.bit_cnt = b.bit_cnt := by
  induction n with
  | zero =>
    rintro i b ⟨⟩
    rfl
  | succ n ih =>
    intro i b h
    cases hset : bitmap_set b i value with
    | error e => simp [set_loop, hset, bind, Except.bind] at h
    | ok b₁ =>
      simp only [set_loop, hset, bind, Except.bind] at h
      exact (ih h).trans (bitmap_set_bit_cnt hset)

theorem bitmap_create_bit_cnt {m : Nat} {block : Nat → Elem} (h : bitmap_create m block = .ok b') :
    b'.bit_cnt = m := by
  rw [bitmap_create, bitmap_set_multiple] at h
  split_ifs at h
  exact set_loop_bit_cnt _ h

theorem expand_loop_bit_cnt (n : Nat) : ∀ {i : Nat} {c c' : bitmap}, expand_loop b n i c = .ok c' →
    c'.bit_cnt = c.bit_cnt := by
  induction n with
  | zero =>
    rintro i c c' ⟨⟩
    rfl
  | succ n ih =>
    intro i c c' h
    cases htest : bitmap_test b i with
    | error e => simp [expand_loop, htest, bind, Except.bind] at h
    | ok v =>
      cases hset : bitmap_set c i v with
      | error e => simp [expand_loop, htest, hset, bind, Except.bind] at h
      | ok c₁ =>
        simp only [expand_loop, htest, hset, bind, Except.bind] at h
        exact (ih h).trans (bitmap_set_bit_cnt hset)

/-- Where the bitmap shows the truth values all along, its element count has not
wrapped around. -/
theorem Shows.no_wrap (hn : n < 2 ^ 64) (h : ∀ pre, pre <+: ops → Shows n block pre) : NoWrap n ops := by
  intro pre hpre
  induction pre using List.reverseRecOn with
  | nil =>
    obtain ⟨b, hrun, -, -⟩ := h [] hpre
    simp only [model, List.foldl_nil, List.length_replicate]
    by_contra hwrap
    simp [run, bitmap_create_wraps (by omega) hn block, bind, Except.bind] at hrun
  | append_singleton pre op ih =>
    have hprev := ih ((List.prefix_append pre [op]).trans hpre)
    obtain ⟨b, hrun, hcount, -⟩ := h pre ((List.prefix_append pre [op]).trans hpre)
    obtain ⟨b', hrun', hcount', -⟩ := h (pre ++ [op]) hpre
    rw [model_append] at hcount' ⊢
    cases op with
    | expand size block' =>
      rw [run_append, hrun] at hrun'
      simp only [Op.apply, List.length_append, List.length_replicate] at hcount' ⊢
      change bitmap_expand b size block' = .ok b' at hrun'
      rw [bitmap_expand] at hrun'
      cases hcreate : bitmap_create ((b.bit_cnt + size) % 2 ^ 64) block' with
      | error e =>
        rw [hcreate] at hrun'
        exact nomatch hrun'
      | ok c =>
        simp only [hcreate, bind, Except.bind] at hrun'
        have hsize := (expand_loop_bit_cnt _ hrun').trans (bitmap_create_bit_cnt hcreate)
        rw [hcount] at hsize hcreate
        by_contra hwrap
        rw [bitmap_create_wraps (by omega) (Nat.mod_lt _ (by decide))] at hcreate
        contradiction
    | flip k => simpa [Op.apply] using hprev
    | mark k => simpa [Op.apply] using hprev
    | reset k => simpa [Op.apply] using hprev
    | set k value => simpa [Op.apply] using hprev
    | set_multiple start cnt value => simpa [Op.apply] using hprev

/-- Where the bitmap shows the truth values all along, those in the high halves are
false: they stay what the block holds there. -/
theorem Shows.high_clear (hin : InRange n ops) (hfits : NoWrap n ops)
    (h : ∀ pre, pre <+: ops → Shows n block pre) : ∀ pre, pre <+: ops → HighClear n block pre := by
  -- The block's bit is the truth value.
  have hsame : ∀ pre, pre <+: ops → ∀ (i : Nat) (v : Bool), (model n pre)[i]? = some v → ¬ Low i →
      block_bit (current_block block pre) i = v := by
    intro pre hpre i v hv hlow
    obtain ⟨b, hrun, hb⟩ := run_agrees block (fun p op hp => hin p op (hp.trans hpre))
      (fun p hp => hfits p (hp.trans hpre))
    obtain ⟨b', hrun', -, htest⟩ := h pre hpre
    obtain rfl := Except.ok.inj (hrun.symm.trans hrun')
    have hbit := htest i v hv
    rw [hb.test hv, if_neg hlow] at hbit
    exact Except.ok.inj hbit
  intro pre hpre
  induction pre using List.reverseRecOn with
  | nil =>
    intro i hi hlow
    simp only [model, List.foldl_nil, List.length_replicate] at hi
    have hfalse : (model n [])[i]? = some false := by simp [model, hi]
    exact ⟨hfalse, hsame [] hpre i false hfalse hlow⟩
  | append_singleton pre op ih =>
    have hprev := ih ((List.prefix_append pre [op]).trans hpre)
    intro i hi hlow
    suffices hfalse : (model n (pre ++ [op]))[i]? = some false from ⟨hfalse, hsame _ hpre i false hfalse hlow⟩
    -- A call that keeps the block keeps the truth value there.
    have hkeep : op.block = (fun blk => blk) → i < (model n pre).length →
        (model n (pre ++ [op]))[i]? = some false := by
      intro hblock hlt
      have hv := List.getElem?_eq_getElem hi
      have hbit := hsame _ hpre i _ hv hlow
      rw [current_block_append, hblock, (hprev i hlt hlow).2] at hbit
      rw [hv, ← hbit]
    rw [model_append] at hi
    cases op with
    | expand size block' =>
      rw [model_append, Op.apply]
      by_cases hlt : i < (model n pre).length
      · rw [List.getElem?_append_left hlt]
        exact (hprev i hlt hlow).1
      · simp only [Op.apply, List.length_append, List.length_replicate] at hi
        rw [List.getElem?_append_right (by omega), List.getElem?_replicate, if_pos (by omega)]
    | flip k => exact hkeep rfl (by simpa [Op.apply] using hi)
    | mark k => exact hkeep rfl (by simpa [Op.apply] using hi)
    | reset k => exact hkeep rfl (by simpa [Op.apply] using hi)
    | set k value => exact hkeep rfl (by simpa [Op.apply] using hi)
    | set_multiple start cnt value => exact hkeep rfl (by simpa [Op.apply] using hi)

end Runs

/-- The bitmap holds the truth values after every call exactly if its block is large
enough and, in the high halves of its elements, all truth values and all bits that
`malloc` left are false throughout. -/
theorem bitmap_holds_iff {n : Nat} (hn : n < 2 ^ 64) (block : Nat → Elem) {ops : List Op}
    (hin : InRange n ops) :
    (∀ pre, pre <+: ops → Shows n block pre) ↔ NoWrap n ops ∧ ∀ pre, pre <+: ops → HighClear n block pre := by
  constructor
  · intro h
    have hfits := Shows.no_wrap hn h
    exact ⟨hfits, Shows.high_clear hin hfits h⟩
  · rintro ⟨hfits, hclear⟩ pre hpre
    obtain ⟨b, hrun, hb⟩ := run_agrees block (fun p op hp => hin p op (hp.trans hpre))
      (fun p hp => hfits p (hp.trans hpre))
    refine ⟨b, hrun, hb.bit_cnt, ?_⟩
    intro i v hv
    rw [hb.test hv]
    split_ifs with hlow
    · rfl
    · obtain ⟨hfalse, hbit⟩ := hclear pre hpre i (List.getElem?_eq_some_iff.mp hv).1 hlow
      rw [hbit, Option.some.inj (hv.symm.trans hfalse)]

/-- One call is in range if its arguments are for the new bitmap. -/
theorem InRange.single {n : Nat} {op : Op} (h : op.InRange (List.replicate n false)) : InRange n [op] := by
  rintro pre op' ⟨rest, hrest⟩
  cases pre with
  | nil =>
    obtain ⟨rfl, -⟩ := List.cons.inj hrest
    exact h
  | cons _ _ => simp at hrest

theorem bitmap_holds_iff_two_bits : (∀ pre, pre <+: [Op.mark 1] → Shows 2 (fun _ => 0) pre) ↔
    NoWrap 2 [Op.mark 1] ∧ ∀ pre, pre <+: [Op.mark 1] → HighClear 2 (fun _ => 0) pre :=
  bitmap_holds_iff (by decide) (fun _ => 0) (InRange.single (by decide : 1 < 2))

/-- Bit 32 of a bitmap of 33 bits stays false when it is marked. -/
theorem bitmap_mark_misses : InRange 33 [Op.mark 32] ∧ ¬ Shows 33 (fun _ => 0) [Op.mark 32] := by
  have hin : InRange 33 [Op.mark 32] := InRange.single (by decide : 32 < 33)
  have hfits : NoWrap 33 [Op.mark 32] := by
    intro pre hpre
    obtain rfl | ⟨t, rfl, ht⟩ := List.prefix_cons_iff.mp hpre
    · decide
    · rw [List.prefix_nil.mp ht]
      decide
  refine ⟨hin, ?_⟩
  rintro ⟨b', hrun', -, htest⟩
  obtain ⟨b, hrun, hb⟩ := run_agrees (fun _ => 0) hin hfits
  obtain rfl := Except.ok.inj (hrun.symm.trans hrun')
  have htrue : (model 33 [Op.mark 32])[32]? = some true := rfl
  have hbit := htest 32 true htrue
  rw [hb.test htrue, if_neg (by decide)] at hbit
  exact absurd (Except.ok.inj hbit) (by decide)

end pintos.prj0_2
