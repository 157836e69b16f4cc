import Pintos.Kernel.BitmapSearch

/-!
# Bitmaps in buffers (`lib/kernel/bitmap.c`)

A bitmap whose elements follow the struct, where `bitmap_create_in_buf` has put them.
-/

open bytes

namespace pintos.kernel

/-- The memory holds a bitmap at `b`, in a buffer, with bits `f`. -/
structure Holds (m : Ram) (b n : Nat) (f : Nat → Bool) : Prop where
  cnt : bit_cnt m b = n
  elems : bits m b = b + sizeof_bitmap
  small : n < 2 ^ 31
  bit : ∀ i < n, (word m (b + sizeof_bitmap + 4 * (i / 32))).testBit (i % 32) = f i

section Lemmas

variable {m m' : Ram} {b n : Nat} {f g : Nat → Bool}

theorem byte_cnt_of_small {n : Nat} (hn : n < 2 ^ 31) : byte_cnt n = 4 * ((n + 31) / 32) := by
  rw [byte_cnt, elem_cnt, ELEM_BITS]
  omega

/-- A bitmap does not depend on memory outside its buffer. -/
theorem Holds.congr (h : Holds m b n f) (hm : ∀ a, b ≤ a → a < b + bitmap_buf_size n → m' a = m a) :
    Holds m' b n f := by
  have hsize : bitmap_buf_size n = 8 + 4 * ((n + 31) / 32) := by
    rw [bitmap_buf_size, byte_cnt_of_small h.small, sizeof_bitmap]
  have hword : ∀ a, b ≤ a → a + 4 ≤ b + bitmap_buf_size n → word m' a = word m a := by
    intro a hlow hhigh
    apply word_congr
    intro i hi
    exact hm _ (by omega) (by omega)
  refine ⟨?_, ?_, h.small, ?_⟩
  · rw [← h.cnt]
    exact hword b (by omega) (by omega)
  · rw [← h.elems]
    exact hword (b + 4) (by omega) (by omega)
  · intro i hi
    rw [hword _ (by rw [sizeof_bitmap]; omega) (by rw [sizeof_bitmap]; omega), h.bit i hi]

theorem Holds.ext (h : Holds m b n f) (hfg : ∀ i < n, f i = g i) : Holds m b n g :=
  ⟨h.cnt, h.elems, h.small, fun i hi => (h.bit i hi).trans (hfg i hi)⟩

/-- The bitmap has an element for each bit. -/
theorem Holds.stored (h : Holds m b n f) :
    ∃ g, Stored m b n g ∧ bits m b = b + sizeof_bitmap ∧ ∀ i < n, g i = f i := by
  have hsmall := h.small
  refine ⟨_, ⟨h.cnt, ?_, .inr h.elems.ge, fun _ _ => rfl⟩, h.elems, ?_⟩
  · intro i hi
    rw [elem_idx, elem_cnt, ELEM_BITS]
    omega
  · intro i hi
    rw [← h.bit i hi, h.elems]
    rfl

theorem Stored.holds {g : Nat → Bool} (h : Stored m b n g) (helems : bits m b = b + sizeof_bitmap)
    (hn : n < 2 ^ 31) (hfg : ∀ i < n, g i = f i) : Holds m b n f := by
  refine ⟨h.cnt, helems, hn, ?_⟩
  intro i hi
  have hbit := h.bit i (by rw [elem_cnt, ELEM_BITS]; omega)
  rw [helems] at hbit
  rw [← hfg i hi, ← hbit]
  rfl

/-- What a call changes is in the buffer, behind the struct. -/
theorem Holds.changed {g g' : Nat → Bool} (h : Holds m b n f) (hm : ElementsOnly m m' b n)
    (h' : Stored m' b n g) (hg : ∀ i < n, g i = g' i) :
    Holds m' b n g' ∧ ∀ a, a < b + sizeof_bitmap ∨ b + bitmap_buf_size n ≤ a → m' a = m a := by
  obtain ⟨_, hstored, helems, -⟩ := h.stored
  refine ⟨h'.holds ?_ h.small hg, ?_⟩
  · rw [hstored.bits_eq hm, helems]
  · intro a ha
    apply hm
    rw [helems]
    rw [bitmap_buf_size] at ha
    omega

theorem bitmap_set_run (h : Holds m b n f) {idx : Nat} (hidx : idx < n) (value : Bool) :
    ∃ m', bitmap_set m b idx value = some m' ∧ Holds m' b n (fun i => if i = idx then value else f i) ∧
      ∀ a, a < b + sizeof_bitmap ∨ b + bitmap_buf_size n ≤ a → m' a = m a := by
  obtain ⟨g, hstored, -, hg⟩ := h.stored
  obtain ⟨m', hset, h', hframe⟩ := hstored.set_run hidx value
  refine ⟨m', hset, h.changed hframe h' ?_⟩
  intro i hi
  rw [hg i hi]

theorem bitmap_test_run (h : Holds m b n f) {idx : Nat} (hidx : idx < n) :
    bitmap_test m b idx = some (f idx) := by
  obtain ⟨g, hstored, -, hg⟩ := h.stored
  rw [hstored.test_run hidx, hg idx hidx]

theorem bitmap_set_multiple_run (h : Holds m b n f) {start cnt : Nat} (hrange : start + cnt ≤ n)
    (value : Bool) :
    ∃ m', bitmap_set_multiple m b start cnt value = some m' ∧
      Holds m' b n (fun i => if start ≤ i ∧ i < start + cnt then value else f i) ∧
      ∀ a, a < b + sizeof_bitmap ∨ b + bitmap_buf_size n ≤ a → m' a = m a := by
  obtain ⟨g, hstored, -, hg⟩ := h.stored
  obtain ⟨m', hset, h', hframe⟩ := hstored.set_multiple_run hrange value
  refine ⟨m', hset, h.changed hframe h' ?_⟩
  intro i hi
  rw [hg i hi]

/-- A new bitmap in a buffer. -/
theorem bitmap_create_in_buf_run (m : Ram) {cnt block block_size : Nat} (hcnt : cnt < 2 ^ 31)
    (hblock : block + 8 < 2 ^ 32) (hsize : bitmap_buf_size cnt ≤ block_size) :
    ∃ m', bitmap_create_in_buf m cnt block block_size = some m' ∧ Holds m' block cnt (fun _ => false) ∧
      ∀ a, a < block ∨ block + bitmap_buf_size cnt ≤ a → m' a = m a := by
  have hbuf : 8 ≤ bitmap_buf_size cnt := Nat.le_add_right _ _
  -- The words that are left from before are the bits at first.
  have h : Holds (store_word (store_word m block cnt) (block + 4) (block + sizeof_bitmap)) block cnt (fun i =>
      (word (store_word (store_word m block cnt) (block + 4) (block + sizeof_bitmap))
        (block + sizeof_bitmap + 4 * (i / 32))).testBit (i % 32)) := by
    refine ⟨?_, ?_, hcnt, fun _ _ => rfl⟩
    · rw [bit_cnt, word_store_word_ne _ (Or.inl (Nat.le_refl _)), word_store_word _ _ (by omega)]
    · exact word_store_word _ _ hblock
  obtain ⟨m', hrun, h', hframe⟩ := bitmap_set_multiple_run h (by omega : 0 + cnt ≤ cnt) false
  refine ⟨m', ?_, h'.ext ?_, ?_⟩
  · simp only [bitmap_create_in_buf, hsize, guard_true, Option.bind_eq_bind, Option.bind_some,
      bitmap_set_all, h.cnt,
      Option.pure_def]
    exact hrun
  · intro i hi
    simp [hi]
  · intro a ha
    rw [hframe a (by rw [sizeof_bitmap]; omega), store_word_outside (by omega), store_word_outside (by omega)]

theorem Group.congr {g : Nat → Bool} {value : Bool} {start cnt : Nat} (hfg : ∀ i < n, g i = f i)
    (hrange : start + cnt ≤ n) : Group g value start cnt ↔ Group f value start cnt := by
  constructor
  · intro h i hlow hhigh
    rw [← hfg i (by omega), h i hlow hhigh]
  · intro h i hlow hhigh
    rw [hfg i (by omega), h i hlow hhigh]

theorem bitmap_all_run (h : Holds m b n f) {start cnt : Nat} (hrange : start + cnt ≤ n) :
    ∃ r, bitmap_all m b start cnt = some r ∧ (r = true ↔ Group f true start cnt) := by
  obtain ⟨g, hstored, -, hg⟩ := h.stored
  obtain ⟨r, hrun, hr⟩ := hstored.contains_not_run hrange true
  refine ⟨!r, ?_, ?_⟩
  · simp only [Bool.not_true] at hrun
    simp [bitmap_all, hrun]
  · rw [Bool.not_eq_true', hr, Group.congr hg hrange]

/-- `bitmap_scan` from the first bit on: a group, exactly if there is one. -/
theorem bitmap_scan_run (h : Holds m b n f) (cnt : Nat) (value : Bool) :
    ∃ r, bitmap_scan m b 0 cnt value = some r ∧
      (∀ idx, r = some idx → idx + cnt ≤ n ∧ Group f value idx cnt) ∧
      (r = none → ∀ idx, idx + cnt ≤ n → ¬ Group f value idx cnt) := by
  obtain ⟨g, hstored, -, hg⟩ := h.stored
  obtain ⟨r, hscan, hsome, hnone⟩ := hstored.scan_run (Nat.zero_le n) cnt value
  refine ⟨r, hscan, ?_, ?_⟩
  · intro idx hidx
    have hfirst := hsome idx hidx
    exact ⟨hfirst.fits, (Group.congr hg hfirst.fits).mp hfirst.group⟩
  · intro hr idx hfits hgroup
    exact hnone hr idx (Nat.zero_le idx) hfits ((Group.congr hg hfits).mpr hgroup)

theorem bitmap_scan_and_flip_run (h : Holds m b n f) (cnt : Nat) :
    (∃ m' idx, bitmap_scan_and_flip m b 0 cnt false = some (m', some idx) ∧ idx + cnt ≤ n ∧
    Group f false idx cnt ∧
      Holds m' b n (fun i => if idx ≤ i ∧ i < idx + cnt then true else f i) ∧
      ∀ a, a < b + sizeof_bitmap ∨ b + bitmap_buf_size n ≤ a → m' a = m a) ∨
    (bitmap_scan_and_flip m b 0 cnt false = some (m, none) ∧ ∀ idx, idx + cnt ≤ n →
    ¬ Group f false idx cnt) := by
  obtain ⟨r, hscan, hsome, hnone⟩ := bitmap_scan_run h cnt false
  cases r with
  | none =>
    right
    exact ⟨by simp [bitmap_scan_and_flip, hscan], hnone rfl⟩
  | some idx =>
    left
    obtain ⟨hidx, hgroup⟩ := hsome idx rfl
    obtain ⟨m', hset, h', hframe⟩ := bitmap_set_multiple_run h hidx true
    exact ⟨m', idx, by simp [bitmap_scan_and_flip, hscan, hset], hidx, hgroup, h', hframe⟩

end Lemmas

end pintos.kernel
