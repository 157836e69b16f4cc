import Pintos.Lib.HeapOrder
import Pintos.Libc.Elements

/-!
# Array sort (`lib/stdlib.c`)

A heap sort with 1-based indexes. The functions work on the bytes of memory; what they do to the
sequence of the elements is said by `Holds`.
-/

open heap_order

namespace pintos.lib

section Code

variable {Aux : Type} (a : array) (compare : Item → Item → Aux → Int) (aux : Aux)

/-- The 1-based index is that of an element. -/
def array.Has (idx : Nat) : Prop := 1 ≤ idx ∧ idx ≤ a.cnt

instance (idx : Nat) : Decidable (a.Has idx) := by
  unfold array.Has
  infer_instance

/-- The loop of `do_swap`: `n` bytes are left, from byte `i` on. -/
def swap_bytes (p q : Nat) : Nat → Nat → Memory → Memory
  | 0, _, m => m
  | n + 1, i, m => swap_bytes p q n (i + 1) (store_at (store_at m (p + i) (m (q + i))) (q + i) (m (p + i)))

/-- `do_swap`, on elements of the array. -/
def do_swap (m : Memory) (a_idx b_idx : Nat) : Option Memory := do
  guard (a.Has a_idx ∧ a.Has b_idx)
  return swap_bytes (a.address (a_idx - 1)) (a.address (b_idx - 1)) a.size 0 m

/-- `do_compare`, on elements of the array. -/
def do_compare (m : Memory) (a_idx b_idx : Nat) : Option Int := do
  guard (a.Has a_idx ∧ a.Has b_idx)
  return compare (a.element m (a_idx - 1)) (a.element m (b_idx - 1)) aux

/-- `max`, or `child` if there is one and it is greater. -/
def greater_child (cnt : Nat) (m : Memory) (child max : Nat) : Option Nat := do
  if child ≤ cnt then
    let cmp ← do_compare a compare aux m child max
    return if cmp > 0 then child else max
  else return max

/-- The loop of `heapify`. There is no result where `fuel` turns do not do. -/
def heapify_loop (cnt : Nat) : Nat → Nat → Memory → Option Memory
  | 0, _, _ => none
  | fuel + 1, i, m => do
    let left := 2 * i % 2 ^ 32
    let right := (2 * i + 1) % 2 ^ 32
    let max ← greater_child a compare aux cnt m left i
    let max ← greater_child a compare aux cnt m right max
    if max = i then return m
    else heapify_loop cnt fuel max (← do_swap a m i max)

/-- `heapify`. -/
def heapify (i cnt : Nat) (m : Memory) : Option Memory := heapify_loop a compare aux cnt (a.cnt + 1) i m

/-- Build a heap: the loop down from `i`. -/
def build_heap : Nat → Memory → Option Memory
  | 0, m => return m
  | i + 1, m => do build_heap i (← heapify a compare aux (i + 1) a.cnt m)

/-- Sort the heap: the loop down from `i`. -/
def sort_heap : Nat → Memory → Option Memory
  | 0, m => return m
  | i + 1, m =>
    if i + 1 > 1 then do
      let m ← do_swap a m 1 (i + 1)
      sort_heap i (← heapify a compare aux 1 i m)
    else return m

/-- `sort`: memory afterwards. -/
def sort (m : Memory) : Option Memory := do
  guard (a.base ≠ 0 ∨ a.cnt = 0)
  guard (a.size > 0)
  let m ← build_heap a compare aux (a.cnt / 2) m
  sort_heap a compare aux a.cnt m

end Code

/-- `qsort`. -/
def qsort (a : array) (m : Memory) (compare : Item → Item → Int) :
    Option Memory := sort a compare_thunk compare m

section Elements

variable {a : array} {m m' : Memory} {f : Nat → Item} {i j p q n : Nat}

/-- The elements of the array are those of the sequence, from its position 1 on. -/
def Holds (a : array) (m : Memory) (f : Nat → Item) : Prop :=
  ∀ k, 1 ≤ k → k ≤ a.cnt → a.element m (k - 1) = f k

/-- The memory outside of the array is the same. -/
def SameOutside (a : array) (m m' : Memory) : Prop :=
  ∀ p, p < a.base ∨ a.base + a.size * a.cnt ≤ p → m' p = m p

theorem swap_bytes_eq (n : Nat) : ∀ {i : Nat} {m : Memory}, p + (i + n) ≤ q ∨ q + (i + n) ≤ p →
    swap_bytes p q n i m = fun x => if p + i ≤ x ∧ x < p + i + n then m (q + (x - p))
      else if q + i ≤ x ∧ x < q + i + n then m (p + (x - q)) else m x := by
  induction n with
  | zero =>
    intro i m _
    funext x
    rw [if_neg (by omega), if_neg (by omega)]
    rfl
  | succ n ih =>
    intro i m hapart
    rw [swap_bytes, ih (by omega)]
    funext x
    simp only [store_at]
    split_ifs <;> first | rfl | omega | (congr 1; omega)

theorem item_congr {m m' : Memory} {p p' size : Nat} (h : ∀ i < size, m (p + i) = m' (p' + i)) :
    item m p size = item m' p' size :=
  List.map_congr_left fun i hi => h i (List.mem_range.mp hi)

/-- Elements lie one after the other. -/
theorem address_le (hij : i < j) : a.address i + a.size ≤ a.address j := by
  have hmul := Nat.mul_le_mul_right a.size (Nat.succ_le_of_lt hij)
  rw [Nat.succ_mul] at hmul
  simp only [array.address]
  omega

theorem address_end (hi : i < a.cnt) : a.base ≤ a.address i ∧ a.address i + a.size ≤
    a.base + a.size * a.cnt := by
  have hend := @address_le a i a.cnt hi
  refine ⟨Nat.le_add_right .., ?_⟩
  rw [Nat.mul_comm]
  exact hend

theorem do_swap_run (h : Holds a m f) (hi : a.Has i) (hj : a.Has j) (hij : i ≠ j) :
    ∃ m', do_swap a m i j = some m' ∧ Holds a m' (f ∘ Equiv.swap i j) ∧ SameOutside a m m' := by
  obtain ⟨hi1, hicnt⟩ := hi
  obtain ⟨hj1, hjcnt⟩ := hj
  have hiend := @address_end a (i - 1) (by omega)
  have hjend := @address_end a (j - 1) (by omega)
  have hapart : a.address (i - 1) + (0 + a.size) ≤ a.address (j - 1) ∨
      a.address (j - 1) + (0 + a.size) ≤ a.address (i - 1) := by
    rw [Nat.zero_add]
    obtain hlt | hlt := Nat.lt_or_gt_of_ne hij
    · exact .inl (address_le (by omega))
    · exact .inr (address_le (by omega))
  refine ⟨swap_bytes (a.address (i - 1)) (a.address (j - 1)) a.size 0 m, ?_, ?_, ?_⟩
  · rw [do_swap, guard, if_pos (show a.Has i ∧ a.Has j from ⟨⟨hi1, hicnt⟩, hj1, hjcnt⟩)]
    rfl
  · rw [swap_bytes_eq _ hapart]
    intro k hk hkcnt
    simp only [Nat.zero_add] at hapart
    rw [Function.comp_apply]
    by_cases hki : k = i
    · subst hki
      rw [Equiv.swap_apply_left, ← h j hj1 hjcnt]
      apply item_congr
      intro x hx
      rw [if_pos (by omega)]
      congr 1
      omega
    · by_cases hkj : k = j
      · subst hkj
        rw [Equiv.swap_apply_right, ← h i hi1 hicnt]
        apply item_congr
        intro x hx
        rw [if_neg (by omega), if_pos (by omega)]
        congr 1
        omega
      · rw [Equiv.swap_apply_of_ne_of_ne hki hkj, ← h k hk hkcnt]
        have hfar : ∀ l, 1 ≤ l → k ≠ l → a.address (k - 1) + a.size ≤ a.address (l - 1) ∨
            a.address (l - 1) + a.size ≤ a.address (k - 1) := by
          intro l hl hkl
          obtain hlt | hlt := Nat.lt_or_gt_of_ne hkl
          · exact .inl (address_le (by omega))
          · exact .inr (address_le (by omega))
        have hfari := hfar i hi1 hki
        have hfarj := hfar j hj1 hkj
        apply item_congr
        intro x hx
        rw [if_neg (by omega), if_neg (by omega)]
  · rw [swap_bytes_eq _ hapart]
    intro x hx
    simp only [Nat.zero_add] at hapart
    simp only [Nat.add_zero]
    rw [if_neg (by omega), if_neg (by omega)]

end Elements

section Sorting

variable {Aux : Type} {a : array} {compare : Item → Item → Aux → Int} {aux : Aux} {m m' : Memory}
  {f : Nat → Item}
  {lo cnt i : Nat}

variable (compare aux) in
/-- "Not greater", of two elements. -/
abbrev NotGreater (x y : Item) : Prop := compare x y aux ≤ 0

theorem TotalPreorder.refl (hc : TotalPreorder fun x y => compare x y aux) :
    Std.Refl (NotGreater compare aux) := by
  constructor
  intro x
  by_contra hpos
  have hneg := (hc.flip x x).mp (not_le.mp hpos)
  exact hpos (le_of_lt hneg)

theorem TotalPreorder.isTrans (hc : TotalPreorder fun x y => compare x y aux) :
    IsTrans Item (NotGreater compare aux) := ⟨hc.trans⟩

theorem greater_child_run (hc : TotalPreorder fun x y => compare x y aux) (h : Holds a m f) (hcnt : cnt ≤ a.cnt)
    {child max : Nat} (hmax : a.Has max) (hchild : 1 ≤ child) :
    ∃ r, greater_child a compare aux cnt m child max = some r ∧
      (r = max ∧ (child ≤ cnt → NotGreater compare aux (f child) (f max)) ∨
        r = child ∧ child ≤ cnt ∧ NotGreater compare aux (f max) (f child)) := by
  by_cases hle : child ≤ cnt
  · have hcompare : do_compare a compare aux m child max = some (compare (f child) (f max) aux) := by
      rw [do_compare, guard, if_pos (show a.Has child ∧ a.Has max from ⟨⟨hchild, hle.trans hcnt⟩, hmax⟩),
        h child hchild (hle.trans hcnt), h max hmax.1 hmax.2]
      rfl
    simp only [greater_child, if_pos hle, hcompare, Option.bind_eq_bind, Option.bind_some, Option.pure_def]
    split_ifs with hpos
    · exact ⟨child, rfl, .inr ⟨rfl, hle, le_of_lt ((hc.flip _ _).mp hpos)⟩⟩
    · exact ⟨max, rfl, .inl ⟨rfl, fun _ => not_lt.mp hpos⟩⟩
  · exact ⟨max, by rw [greater_child, if_neg hle]; rfl, .inl ⟨rfl, fun h => absurd h hle⟩⟩

/-- One turn of `heapify` finds the greatest child, if it is greater. -/
theorem heapify_loop_turn (hc : TotalPreorder fun x y => compare x y aux) (h : Holds a m f) (hcnt : cnt ≤ a.cnt)
    (hi : 1 ≤ i) (hicnt : i ≤ cnt) :
    (∀ fuel, heapify_loop a compare aux cnt (fuel + 1) i m = some m) ∧
        (∀ c, Child i c → c ≤ cnt → NotGreater compare aux (f c) (f i)) ∨
      ∃ max, Child i max ∧ max ≤ cnt ∧ (∀ c, Child i c → c ≤ cnt → NotGreater compare aux (f c) (f max)) ∧
        NotGreater compare aux (f i) (f max) ∧ ∀ fuel, heapify_loop a compare aux cnt (fuel + 1) i m =
          (do_swap a m i max).bind (heapify_loop a compare aux cnt fuel max) := by
  have hrefl := hc.refl
  have htrans := hc.isTrans
  have hfits : cnt < 2 ^ 31 := by
    have hmul := Nat.mul_le_mul_right a.cnt (Nat.succ_le_of_lt a.size_pos)
    have hfits := a.fits
    omega
  have hleft : 2 * i % 2 ^ 32 = 2 * i := Nat.mod_eq_of_lt (by omega)
  have hright : (2 * i + 1) % 2 ^ 32 = 2 * i + 1 := Nat.mod_eq_of_lt (by omega)
  obtain ⟨l, hl, hlcase⟩ := greater_child_run hc h hcnt (show a.Has i from ⟨hi, hicnt.trans hcnt⟩)
    (show 1 ≤ 2 * i by omega)
  have hlhas : a.Has l := by
    obtain ⟨rfl, -⟩ | ⟨rfl, hle, -⟩ := hlcase
    · exact ⟨hi, hicnt.trans hcnt⟩
    · exact ⟨by omega, hle.trans hcnt⟩
  obtain ⟨r, hr, hrcase⟩ := greater_child_run hc h hcnt hlhas (show 1 ≤ 2 * i + 1 by omega)
  have hstep : ∀ fuel, heapify_loop a compare aux cnt (fuel + 1) i m =
      if r = i then some m else (do_swap a m i r).bind (heapify_loop a compare aux cnt fuel r) := by
    intro fuel
    simp only [heapify_loop, hleft, hright, hl, hr, Option.bind_eq_bind, Option.bind_some, Option.pure_def]
  -- The children up to the right one are not greater than what has been found.
  have hgreatest : ∀ c, Child i c → c ≤ cnt → NotGreater compare aux (f c) (f r) := by
    rintro c (rfl | rfl) hccnt
    · have hlr : NotGreater compare aux (f l) (f r) := by
        obtain ⟨rfl, -⟩ | ⟨rfl, -, hle⟩ := hrcase
        · exact Std.Refl.refl _
        · exact hle
      obtain ⟨rfl, hle⟩ | ⟨rfl, -, -⟩ := hlcase
      · exact IsTrans.trans _ _ _ (hle hccnt) hlr
      · exact hlr
    · obtain ⟨rfl, hle⟩ | ⟨rfl, -, -⟩ := hrcase
      · exact hle hccnt
      · exact Std.Refl.refl _
  by_cases hri : r = i
  · left
    refine ⟨fun fuel => ?_, fun c hchild hccnt => hri ▸ hgreatest c hchild hccnt⟩
    rw [hstep, if_pos hri]
  · right
    have hchild : Child i r ∧ r ≤ cnt ∧ NotGreater compare aux (f i) (f r) := by
      obtain ⟨rfl, hle⟩ | ⟨rfl, hle, hge⟩ := hrcase
      · obtain ⟨rfl, -⟩ | ⟨rfl, hle', hge⟩ := hlcase
        · exact absurd rfl hri
        · exact ⟨.inl rfl, hle', hge⟩
      · refine ⟨.inr rfl, hle, ?_⟩
        obtain ⟨rfl, -⟩ | ⟨rfl, -, hge'⟩ := hlcase
        · exact hge
        · exact IsTrans.trans _ _ _ hge' hge
    refine ⟨r, hchild.1, hchild.2.1, hgreatest, hchild.2.2, fun fuel => ?_⟩
    rw [hstep, if_neg hri]

theorem SameOutside.trans {m'' : Memory} (h : SameOutside a m m') (h' : SameOutside a m' m'') :
    SameOutside a m m'' :=
  fun p hp => (h' p hp).trans (h p hp)

/-- `heapify` lets the element at `i` go down until it is in order. -/
theorem heapify_loop_run (hc : TotalPreorder fun x y => compare x y aux) (hcnt : cnt ≤ a.cnt) (hlo : 0 < lo)
    (fuel : Nat) : ∀ {i : Nat} {m : Memory} {f : Nat → Item}, Holds a m f →
      Sifting (NotGreater compare aux) f lo cnt i → lo ≤ i → i ≤ cnt → cnt - i < fuel →
      ∃ m' f', heapify_loop a compare aux cnt fuel i m = some m' ∧ Holds a m' f' ∧
        HeapFrom (NotGreater compare aux) f' lo cnt ∧ Rearranged lo cnt f f' ∧ SameOutside a m m' := by
  induction fuel with
  | zero => omega
  | succ fuel ih =>
    intro i m f h hsift hloi hicnt hfuel
    obtain ⟨hstop, hle⟩ | ⟨max, hchild, hmax, hgreatest, hge, hgo⟩ :=
      heapify_loop_turn hc h hcnt (by omega) hicnt
    · exact ⟨m, f, hstop fuel, h, hsift.stop hle, .refl f, fun _ _ => rfl⟩
    · have hlt : i < max := hchild.lt (by omega)
      obtain ⟨m₁, hswap, h₁, hsame₁⟩ := do_swap_run h (show a.Has i from ⟨by omega, by omega⟩)
        (show a.Has max from ⟨by omega, by omega⟩) (Nat.ne_of_lt hlt)
      have hsift₁ := hsift.swap hlo hloi hchild hmax hgreatest hge
      obtain ⟨m₂, f₂, hrun, h₂, hheap, hrearranged, hsame₂⟩ := ih h₁ hsift₁ (by omega) hmax (by omega)
      refine ⟨m₂, f₂, ?_, h₂, hheap, .trans (.swap f ⟨hloi, hicnt⟩ ⟨by omega, hmax⟩) hrearranged,
        hsame₁.trans hsame₂⟩
      rw [hgo, hswap]
      exact hrun

theorem heapify_run (hc : TotalPreorder fun x y => compare x y aux) (h : Holds a m f) (hcnt : cnt ≤ a.cnt)
    (hi : 0 < i) (hicnt : i ≤ cnt) (hheap : HeapFrom (NotGreater compare aux) f (i + 1) cnt) :
    ∃ m' f', heapify a compare aux i cnt m = some m' ∧ Holds a m' f' ∧
      HeapFrom (NotGreater compare aux) f' i cnt ∧ Rearranged i cnt f f' ∧ SameOutside a m m' :=
  heapify_loop_run hc hcnt hi _ h (hheap.sifting hi) (Nat.le_refl i) hicnt (by omega)

/-- The first loop of `sort` leaves a heap. -/
theorem build_heap_run (hc : TotalPreorder fun x y => compare x y aux) (i : Nat) :
    ∀ {m : Memory} {f : Nat → Item},
    Holds a m f → i ≤ a.cnt → HeapFrom (NotGreater compare aux) f (i + 1) a.cnt →
      ∃ m' f', build_heap a compare aux i m = some m' ∧ Holds a m' f' ∧
        HeapFrom (NotGreater compare aux) f' 1 a.cnt ∧ Rearranged 1 a.cnt f f' ∧ SameOutside a m m' := by
  induction i with
  | zero =>
    intro m f h _ hheap
    exact ⟨m, f, rfl, h, hheap, .refl f, fun _ _ => rfl⟩
  | succ i ih =>
    intro m f h hi hheap
    obtain ⟨m₁, f₁, hrun₁, h₁, hheap₁, hrearranged₁, hsame₁⟩ :=
      heapify_run hc h (Nat.le_refl _) (Nat.succ_pos i) hi hheap
    obtain ⟨m₂, f₂, hrun₂, h₂, hheap₂, hrearranged₂, hsame₂⟩ := ih h₁ (by omega) hheap₁
    refine ⟨m₂, f₂, ?_, h₂, hheap₂, .trans (hrearranged₁.mono (by omega) (Nat.le_refl _)) hrearranged₂,
      hsame₁.trans hsame₂⟩
    rw [build_heap, hrun₁]
    exact hrun₂

/-- The first `i` elements are a heap, and none of them comes after one of the others, which are in
order. -/
structure Sorting (le : Item → Item → Prop) (f : Nat → Item) (i cnt : Nat) : Prop where
  heap : HeapFrom le f 1 i
  rest : ∀ k l, i < k → k ≤ l → l ≤ cnt → le (f k) (f l)
  before : ∀ k l, 1 ≤ k → k ≤ i → i < l → l ≤ cnt → le (f k) (f l)

/-- The greatest element of the heap is put before the others. -/
theorem Sorting.step {le : Item → Item → Prop} [Std.Refl le] [IsTrans Item le] {f' : Nat → Item}
    (h : Sorting le f (i + 1) cnt) (hi : 0 < i) (hheap : HeapFrom le f' 1 i)
    (hrearranged : Rearranged 1 i (f ∘ Equiv.swap 1 (i + 1)) f') : Sorting le f' i cnt := by
  have hlast : f' (i + 1) = f 1 := by
    rw [hrearranged.outside (by omega)]
    exact congrArg f (Equiv.swap_apply_right 1 (i + 1))
  have hothers : ∀ l, i + 1 < l → f' l = f l := by
    intro l hl
    rw [hrearranged.outside (by omega)]
    exact congrArg f (Equiv.swap_apply_of_ne_of_ne (by omega) (by omega))
  -- What stays in the heap was in the heap.
  have hstays : ∀ P : Item → Prop, (∀ k, 1 ≤ k → k ≤ i + 1 → P (f k)) → ∀ k, 1 ≤ k → k ≤ i → P (f' k) := by
    intro P hp
    refine @Rearranged.inside _ _ _ _ _ P hrearranged ?_
    intro k hk hki
    rw [Function.comp_apply]
    by_cases hk1 : k = 1
    · rw [hk1, Equiv.swap_apply_left]
      exact hp (i + 1) (by omega) (Nat.le_refl _)
    · rw [Equiv.swap_apply_of_ne_of_ne hk1 (by omega)]
      exact hp k hk (by omega)
  refine ⟨hheap, ?_, ?_⟩
  · intro k l hik hkl hl
    by_cases hk : k = i + 1
    · subst hk
      rw [hlast]
      by_cases hl' : l = i + 1
      · rw [hl', hlast]
        exact Std.Refl.refl _
      · rw [hothers l (by omega)]
        exact h.before 1 l (Nat.le_refl _) (by omega) (by omega) hl
    · rw [hothers k (by omega), hothers l (by omega)]
      exact h.rest k l (by omega) hkl hl
  · intro k l hk hki hil hl
    by_cases hl' : l = i + 1
    · rw [hl', hlast]
      exact hstays (fun x => le x (f 1)) (fun k hk hki => h.heap.le_root hk hki) k hk hki
    · rw [hothers l (by omega)]
      exact hstays (fun x => le x (f l)) (fun k hk hki => h.before k l hk hki (by omega) hl) k hk hki

/-- The second loop of `sort` leaves the elements in order. -/
theorem sort_heap_run (hc : TotalPreorder fun x y => compare x y aux) (i : Nat) :
    ∀ {m : Memory} {f : Nat → Item},
    Holds a m f → i ≤ a.cnt → Sorting (NotGreater compare aux) f i a.cnt →
      ∃ m' f', sort_heap a compare aux i m = some m' ∧ Holds a m' f' ∧
        (∀ k l, 1 ≤ k → k ≤ l → l ≤ a.cnt → NotGreater compare aux (f' k) (f' l)) ∧
        Rearranged 1 a.cnt f f' ∧ SameOutside a m m' := by
  have hrefl := hc.refl
  have htrans := hc.isTrans
  induction i with
  | zero =>
    intro m f h _ hsorting
    exact ⟨m, f, rfl, h, fun k l hk => hsorting.rest k l hk, .refl f, fun _ _ => rfl⟩
  | succ i ih =>
    intro m f h hi hsorting
    by_cases hone : i + 1 > 1
    · obtain ⟨m₁, hswap, h₁, hsame₁⟩ := do_swap_run h (show a.Has 1 from ⟨by omega, by omega⟩)
        (show a.Has (i + 1) from ⟨by omega, hi⟩) (by omega)
      have hheap₁ : HeapFrom (NotGreater compare aux) (f ∘ Equiv.swap 1 (i + 1)) (1 + 1) i := by
        intro p hp c hchild hci
        have hpc := hchild.lt (by omega)
        rw [Function.comp_apply, Function.comp_apply, Equiv.swap_apply_of_ne_of_ne (by omega) (by omega),
          Equiv.swap_apply_of_ne_of_ne (by omega) (by omega)]
        exact hsorting.heap p (by omega) c hchild (by omega)
      obtain ⟨m₂, f₂, hrun₂, h₂, hheap₂, hrearranged₂, hsame₂⟩ :=
        heapify_run hc h₁ (show i ≤ a.cnt by omega) Nat.one_pos (show 1 ≤ i by omega) hheap₁
      obtain ⟨m₃, f₃, hrun₃, h₃, hsorted, hrearranged₃, hsame₃⟩ :=
        ih h₂ (by omega) (hsorting.step (by omega) hheap₂ hrearranged₂)
      refine ⟨m₃, f₃, ?_, h₃, hsorted, ?_, (hsame₁.trans hsame₂).trans hsame₃⟩
      · rw [sort_heap, if_pos hone, hswap]
        change (heapify a compare aux 1 i m₁ >>= _) = _
        rw [hrun₂]
        exact hrun₃
      · have hswapped := Rearranged.swap f (show 1 ≤ 1 ∧ 1 ≤ a.cnt by omega)
          (show 1 ≤ i + 1 ∧ i + 1 ≤ a.cnt by omega)
        exact (hswapped.trans (hrearranged₂.mono (Nat.le_refl 1) (by omega))).trans hrearranged₃
    · refine ⟨m, f, by rw [sort_heap, if_neg hone]; rfl, h, ?_, .refl f, fun _ _ => rfl⟩
      intro k l hk hkl hl
      obtain hki | hki := Nat.lt_or_ge (i + 1) k
      · exact hsorting.rest k l hki hkl hl
      · obtain hli | hli := Nat.lt_or_ge (i + 1) l
        · exact hsorting.before k l hk hki hli hl
        · rw [show k = l by omega]
          exact Std.Refl.refl _

/-- The elements of the array in their order. -/
def elements (a : array) (m : Memory) : List Item := (List.range a.cnt).map (a.element m)

theorem Holds.elements (h : Holds a m f) : elements a m = (List.range' 1 a.cnt).map f := by
  rw [pintos.lib.elements, List.range_eq_range', List.range'_eq_map_range, List.range'_eq_map_range,
    List.map_map, List.map_map]
  apply List.map_congr_left
  intro k hk
  have hlt := List.mem_range.mp hk
  rw [Function.comp_apply, Function.comp_apply, ← h (1 + k) (by omega) (by omega), Nat.zero_add,
    Nat.add_sub_cancel_left]

/-- `sort` leaves the elements in order, and no others, whatever the order of the array was. -/
theorem sort_run (hc : TotalPreorder fun x y => compare x y aux) (a : array) (m : Memory) :
    ∃ m', sort a compare aux m = some m' ∧ (elements a m').Perm (elements a m) ∧
      Sorted a m' (fun x y => compare x y aux) ∧ SameOutside a m m' := by
  have h : Holds a m fun k => a.element m (k - 1) := fun _ _ _ => rfl
  have hleaves : HeapFrom (NotGreater compare aux) (fun k => a.element m (k - 1)) (a.cnt / 2 + 1) a.cnt := by
    intro p hp c hchild hc
    rw [Child] at hchild
    omega
  obtain ⟨m₁, f₁, hrun₁, h₁, hheap, hrearranged₁, hsame₁⟩ :=
    build_heap_run hc (a.cnt / 2) h (Nat.div_le_self ..) hleaves
  have hsorting : Sorting (NotGreater compare aux) f₁ a.cnt a.cnt :=
    ⟨hheap, fun k l hk hkl hl => by omega, fun k l _ _ hl hl' => by omega⟩
  obtain ⟨m₂, f₂, hrun₂, h₂, hsorted, hrearranged₂, hsame₂⟩ :=
    sort_heap_run hc a.cnt h₁ (Nat.le_refl _) hsorting
  refine ⟨m₂, ?_, ?_, ?_, hsame₁.trans hsame₂⟩
  · rw [sort, guard, guard, if_pos a.not_null, if_pos a.size_pos]
    change (build_heap a compare aux (a.cnt / 2) m >>= _) = _
    rw [hrun₁]
    exact hrun₂
  · rw [h.elements, h₂.elements]
    exact (hrearranged₁.trans hrearranged₂).perm
  · intro i j hij hj
    have hi := h₂ (i + 1) (by omega) (by omega)
    have hj' := h₂ (j + 1) (by omega) (by omega)
    rw [Nat.add_sub_cancel] at hi hj'
    simp only [hi, hj']
    exact hsorted (i + 1) (j + 1) (by omega) (by omega) (by omega)

/-- `sort` and `qsort` end, on the elements of the array only, and leave them in order. -/
theorem sort_sorts (hc : TotalPreorder fun x y => compare x y aux) {order : Item → Item → Int}
    (horder : TotalPreorder order) (a : array) (m : Memory) :
    (∃ m', sort a compare aux m = some m' ∧ (elements a m').Perm (elements a m) ∧
        Sorted a m' (fun x y => compare x y aux) ∧ SameOutside a m m') ∧
      ∃ m', qsort a m order = some m' ∧ (elements a m').Perm (elements a m) ∧ Sorted a m' order ∧
        SameOutside a m m' :=
  ⟨sort_run hc a m, @sort_run _ compare_thunk order horder a m⟩

end Sorting

/-- The bytes 3, 2 and 1. -/
def descending : Memory := fun p => if p = 1 then 3 else if p = 2 then 2 else 1

example : (sort three_bytes compare_bytes () descending).map (elements three_bytes) =
    some [[1], [2], [3]] := by decide

/-- They are sorted. -/
theorem sort_sorts_three :
    (∃ m', sort three_bytes compare_bytes () (descending) = some m' ∧
        (elements three_bytes m').Perm (elements three_bytes descending) ∧
        Sorted three_bytes m' (fun x y => compare_bytes x y ()) ∧ SameOutside three_bytes (descending) m') ∧
      ∃ m', qsort three_bytes (descending) (fun x y => compare_bytes x y ()) = some m' ∧
        (elements three_bytes m').Perm (elements three_bytes descending) ∧
        Sorted three_bytes m' (fun x y => compare_bytes x y ()) ∧ SameOutside three_bytes (descending) m' :=
  sort_sorts compare_bytes_preorder compare_bytes_preorder three_bytes descending

end pintos.lib
