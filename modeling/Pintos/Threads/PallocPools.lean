import Pintos.Threads.Palloc
import Mathlib.Data.List.Pairwise

/-!
# The pools of the page allocator

Where the pools are, which pages are in use, and what each call does to that.
-/

open bytes pintos.kernel

namespace pintos.threads

/-- The kernel pool or the user pool. -/
def State.pool (s : State) (user : Bool) : pool := if user then s.user_pool else s.kernel_pool

/-- An allocation: the address of its first page, and the number of pages. -/
structure Block where
  pages : Nat
  cnt : Nat
  deriving DecidableEq, Repr

/-- The address is in the allocation. -/
def Block.covers (a : Block) (x : Nat) : Prop := a.pages ≤ x ∧ x < a.pages + PGSIZE * a.cnt

instance (a : Block) (x : Nat) : Decidable (a.covers x) := inferInstanceAs (Decidable (_ ∧ _))

/-- No address is in both allocations. -/
def Block.Apart (a b : Block) : Prop := a.pages + PGSIZE * a.cnt ≤ b.pages ∨ b.pages + PGSIZE * b.cnt ≤ a.pages

theorem Block.Apart.symm {a b : Block} (h : a.Apart b) : b.Apart a := Or.symm h

/-- The allocation is a group of pages of the pool at `base` with `n` pages. -/
def Block.Inside (a : Block) (base n : Nat) : Prop :=
  ∃ i, a.pages = base + PGSIZE * i ∧ i + a.cnt ≤ n ∧ 0 < a.cnt

/-- The page with the given number is in a live allocation. -/
def used (live : List Block) (base i : Nat) : Bool := live.any fun a => a.covers (base + PGSIZE * i)

theorem used_iff {live : List Block} {base i : Nat} :
    used live base i = true ↔ ∃ a ∈ live, a.covers (base + PGSIZE * i) := by
  simp [used]

theorem used_cons (a : Block) (live : List Block) (base i : Nat) :
    used (a :: live) base i = (decide (a.covers (base + PGSIZE * i)) || used live base i) := rfl

/-- The invariant of the allocator, with `n u` pages in pool `u` and the live allocations. -/
structure Inv (ram_pages : Nat) (n : Bool → Nat) (s : State) (live : List Block) : Prop where
  holds : ∀ u, Holds s.mem (s.pool u).used_map (n u) (used live (s.pool u).base)
  aligned : ∀ u, (s.pool u).base % PGSIZE = 0
  room : ∀ u, (s.pool u).used_map + bitmap_buf_size (n u) ≤ (s.pool u).base
  first : free_start ≤ (s.pool false).used_map
  between : (s.pool false).base + PGSIZE * n false ≤ (s.pool true).used_map
  last : (s.pool true).base + PGSIZE * n true ≤ free_end ram_pages
  placed : ∀ a ∈ live, ∃ u, a.Inside (s.pool u).base (n u)
  apart : live.Pairwise Block.Apart

section Places

variable {a b : Block} {base n i : Nat}

theorem Block.Inside.range (h : a.Inside base n) : base ≤ a.pages ∧ a.pages + PGSIZE * a.cnt ≤
    base + PGSIZE * n := by
  obtain ⟨i, hpages, hcnt, -⟩ := h
  have hmul : PGSIZE * (i + a.cnt) ≤ PGSIZE * n := Nat.mul_le_mul_left _ hcnt
  rw [Nat.mul_add] at hmul
  omega

/-- Which pages of its pool an allocation covers. -/
theorem covers_page (hpages : a.pages = base + PGSIZE * i) {k : Nat} :
    a.covers (base + PGSIZE * k) ↔ i ≤ k ∧ k < i + a.cnt := by
  rw [Block.covers, hpages, PGSIZE]
  omega

theorem not_apart_of_covers {x : Nat} (ha : a.covers x) (hb : b.covers x) : ¬ a.Apart b := by
  obtain ⟨ha₁, ha₂⟩ := ha
  obtain ⟨hb₁, hb₂⟩ := hb
  rintro (h | h) <;> omega

end Places

section Layout

variable {ram_pages : Nat} {n : Bool → Nat} {s : State} {live : List Block} {a : Block} {u v : Bool}

/-- The ranges of the pools follow each other: the maps, and the pages after them. -/
theorem Inv.order (h : Inv ram_pages n s live) :
    (s.pool false).used_map + bitmap_buf_size (n false) ≤ (s.pool false).base ∧
      (s.pool false).base + PGSIZE * n false ≤ (s.pool true).used_map ∧
      (s.pool true).used_map + bitmap_buf_size (n true) ≤ (s.pool true).base :=
  ⟨h.room false, h.between, h.room true⟩

/-- No map is in the pages of a pool. -/
theorem Inv.map_apart (h : Inv ram_pages n s live) (hin : a.Inside (s.pool v).base (n v)) {x : Nat}
    (hlow : (s.pool u).used_map ≤ x) (hhigh : x < (s.pool u).used_map + bitmap_buf_size (n u)) :
    ¬ a.covers x := by
  rintro ⟨hax, hxa⟩
  obtain ⟨hfalse, hbetween, htrue⟩ := h.order
  obtain ⟨hrange₁, hrange₂⟩ := hin.range
  cases u <;> cases v <;> omega

/-- No page is in both pools. -/
theorem Inv.pools_apart (h : Inv ram_pages n s live) (hin : a.Inside (s.pool v).base (n v))
    (hne : u ≠ v) {k : Nat} (hk : k < n u) : ¬ a.covers ((s.pool u).base + PGSIZE * k) := by
  rintro ⟨hax, hxa⟩
  obtain ⟨hfalse, hbetween, htrue⟩ := h.order
  obtain ⟨hrange₁, hrange₂⟩ := hin.range
  have hmul : PGSIZE * (k + 1) ≤ PGSIZE * n u := Nat.mul_le_mul_left _ hk
  rw [Nat.mul_add] at hmul
  have hpage : 0 < PGSIZE := by decide
  cases u <;> cases v <;> first | contradiction | omega

/-- Memory may change in allocations. -/
theorem Inv.write (h : Inv ram_pages n s live) {m' : Ram}
    (hm : ∀ x, (∀ a ∈ live, ¬ a.covers x) → m' x = s.mem x) : Inv ram_pages n { s with mem := m' } live := by
  refine ⟨?_, h.aligned, h.room, h.first, h.between, h.last, h.placed, h.apart⟩
  intro u
  apply (h.holds u).congr
  intro x hlow hhigh
  apply hm
  intro a ha
  obtain ⟨v, hin⟩ := h.placed a ha
  exact h.map_apart hin hlow hhigh

theorem memset_outside {m : Ram} {dst size x : Nat} {value : BitVec 8} (h : x < dst ∨ dst + size ≤ x) :
    memset m dst value size x = m x :=
  copy_outside h

/-- A byte in front of the pools, or in an allocation. -/
def Kept (live : List Block) (x : Nat) : Prop := x < free_start ∨ ∃ b ∈ live, b.covers x

/-- The maps are elsewhere. -/
theorem Inv.kept_outside (h : Inv ram_pages n s live) {x : Nat} (hx : Kept live x) :
    x < (s.pool u).used_map ∨ (s.pool u).used_map + bitmap_buf_size (n u) ≤ x := by
  obtain hx | ⟨b, hb, hcovers⟩ := hx
  · obtain ⟨hfalse, hbetween, htrue⟩ := h.order
    have hfirst := h.first
    cases u <;> omega
  · obtain ⟨v, hin⟩ := h.placed b hb
    by_contra hnot
    exact h.map_apart hin (u := u) (by omega) (by omega) hcovers

/-- Memory may change in front of the pools and in allocations. -/
theorem Inv.write_kept (h : Inv ram_pages n s live) {m' : Ram} (hm : ∀ x, ¬ Kept live x → m' x = s.mem x) :
    Inv ram_pages n { s with mem := m' } live := by
  refine ⟨?_, h.aligned, h.room, h.first, h.between, h.last, h.placed, h.apart⟩
  intro u
  apply (h.holds u).congr
  intro x hlow hhigh
  apply hm
  intro hx
  have houtside := h.kept_outside (u := u) hx
  omega

/-- So is every other allocation. -/
theorem Inv.kept_not_covers (h : Inv ram_pages n s (a :: live)) {x : Nat} (hx : Kept live x) :
    ¬ a.covers x := by
  intro hcovers
  obtain hx | ⟨b, hb, hb'⟩ := hx
  · obtain ⟨v, hin⟩ := h.placed a List.mem_cons_self
    obtain ⟨hfalse, hbetween, htrue⟩ := h.order
    have hfirst := h.first
    have hrange := hin.range.1
    have hlow := hcovers.1
    cases v <;> omega
  · exact not_apart_of_covers hcovers hb' (List.rel_of_pairwise_cons h.apart hb)

/-- The order of the allocations does not matter. -/
theorem Inv.perm (h : Inv ram_pages n s live) {live' : List Block} (hperm : live.Perm live') :
    Inv ram_pages n s live' := by
  refine ⟨?_, h.aligned, h.room, h.first, h.between, h.last, ?_, ?_⟩
  · intro u
    refine (h.holds u).ext fun i _ => ?_
    rw [Bool.eq_iff_iff, used_iff, used_iff]
    simp only [hperm.mem_iff]
  · intro a ha
    exact h.placed a (hperm.mem_iff.mpr ha)
  · exact (hperm.pairwise_iff fun h => Block.Apart.symm h).mp h.apart

end Layout

section Get

variable {ram_pages : Nat} {n : Bool → Nat} {s : State} {live : List Block}

/-- A group of pages that nobody has. -/
def FreeGroup (live : List Block) (base n cnt idx : Nat) : Prop :=
  idx + cnt ≤ n ∧ ∀ k, idx ≤ k → k < idx + cnt → used live base k = false

/-- An allocation is entered in the map of its pool. -/
theorem Inv.take (h : Inv ram_pages n s live) {u : Bool} {cnt idx : Nat} {m' : Ram} (hcnt : 0 < cnt)
    (hfree : FreeGroup live (s.pool u).base (n u) cnt idx)
    (hmap : Holds m' (s.pool u).used_map (n u)
      (fun i => if idx ≤ i ∧ i < idx + cnt then true else used live (s.pool u).base i))
    (hframe : ∀ x, x < (s.pool u).used_map ∨ (s.pool u).used_map + bitmap_buf_size (n u) ≤ x → m' x = s.mem x) :
    Inv ram_pages n { s with mem := m' } (⟨(s.pool u).base + PGSIZE * idx, cnt⟩ :: live) := by
  have hin : Block.Inside ⟨(s.pool u).base + PGSIZE * idx, cnt⟩ (s.pool u).base (n u) :=
      ⟨idx, rfl, hfree.1, hcnt⟩
  have hpool : ∀ v, State.pool { s with mem := m' } v = s.pool v := fun v => by cases v <;> rfl
  refine ⟨?_, ?_, ?_, h.first, h.between, h.last, ?_, ?_⟩
  · intro v
    rw [hpool]
    obtain rfl | hne := eq_or_ne v u
    · refine hmap.ext ?_
      intro i hi
      rw [used_cons]
      have hcover := covers_page (a := ⟨(s.pool v).base + PGSIZE * idx, cnt⟩) rfl (k := i)
      split_ifs with hidx
      · simp [hcover.mpr hidx]
      · simp [mt hcover.mp hidx]
    · -- The map of the other pool stays, and so do its bits.
      have hsame : Holds m' (s.pool v).used_map (n v) (used live (s.pool v).base) := by
        apply (h.holds v).congr
        intro x hlow hhigh
        apply hframe
        obtain ⟨hfalse, hbetween, htrue⟩ := h.order
        cases u <;> cases v <;> first | contradiction | omega
      refine hsame.ext ?_
      intro i hi
      rw [used_cons, decide_eq_false (h.pools_apart hin hne hi), Bool.false_or]
  · intro v
    rw [hpool]
    exact h.aligned v
  · intro v
    rw [hpool]
    exact h.room v
  · intro a ha
    obtain rfl | ha := List.mem_cons.mp ha
    · exact ⟨u, (hpool u).symm ▸ hin⟩
    · obtain ⟨v, hv⟩ := h.placed a ha
      exact ⟨v, (hpool v).symm ▸ hv⟩
  · refine List.pairwise_cons.mpr ⟨?_, h.apart⟩
    intro b hb
    obtain ⟨v, hv⟩ := h.placed b hb
    obtain rfl | hne := eq_or_ne v u
    · obtain ⟨j, hpages, hj, hbcnt⟩ := hv
      -- A common page would be in use.
      by_cases hoverlap : idx < j + b.cnt ∧ j < idx + cnt
      · have hused : used live (s.pool v).base (max idx j) = true :=
          used_iff.mpr ⟨b, hb, (covers_page hpages).mpr ⟨by omega, by omega⟩⟩
        rw [hfree.2 _ (by omega) (by omega)] at hused
        contradiction
      · rw [Block.Apart, hpages, PGSIZE]
        dsimp only
        omega
    · obtain ⟨hfalse, hbetween, htrue⟩ := h.order
      obtain ⟨hr₁, hr₂⟩ := hin.range
      obtain ⟨hr₃, hr₄⟩ := hv.range
      rw [Block.Apart]
      cases u <;> cases v <;> first | contradiction | omega

/-- What a call of `palloc_get_multiple` does. -/
theorem palloc_get_multiple_run (h : Inv ram_pages n s live) (flags : palloc_flags) {cnt : Nat}
    (hcnt : 0 < cnt) : (∃ s' idx, palloc_get_multiple flags cnt s =
        .ok (s', some ((s.pool flags.PAL_USER).base + PGSIZE * idx)) ∧
      FreeGroup live (s.pool flags.PAL_USER).base (n flags.PAL_USER) cnt idx ∧
      Inv ram_pages n s' (⟨(s.pool flags.PAL_USER).base + PGSIZE * idx, cnt⟩ :: live) ∧
      (∀ u, s'.pool u = s.pool u) ∧ ∀ x, Kept live x → s'.mem x = s.mem x) ∨
    (palloc_get_multiple flags cnt s = (if flags.PAL_ASSERT then .error .out_of_pages else .ok (s, none)) ∧
      ∀ idx, ¬ FreeGroup live (s.pool flags.PAL_USER).base (n flags.PAL_USER) cnt idx) := by
  have hpool : s.pool_of flags = s.pool flags.PAL_USER := rfl
  obtain ⟨m', idx, hrun, hidx, hgroup, hmap, hframe⟩ | ⟨hrun, hnone⟩ :=
    bitmap_scan_and_flip_run (h.holds flags.PAL_USER) cnt
  · left
    have hfree : FreeGroup live (s.pool flags.PAL_USER).base (n flags.PAL_USER) cnt idx := ⟨hidx, hgroup⟩
    have htaken := h.take hcnt hfree hmap (by
      intro x hx
      refine hframe x ?_
      rw [sizeof_bitmap]
      omega)
    have hkept : ∀ x, Kept live x → m' x = s.mem x := by
      intro x hx
      refine hframe x ?_
      have houtside := h.kept_outside (u := flags.PAL_USER) hx
      rw [sizeof_bitmap]
      omega
    cases hzero : flags.PAL_ZERO with
    | false =>
      refine ⟨{ s with mem := m' }, idx, ?_, hfree, htaken, fun u => by cases u <;> rfl, hkept⟩
      simp [palloc_get_multiple, hcnt.ne', hpool, hrun, asserted, hzero]
      rfl
    | true =>
      -- Zeros are written to the new allocation only.
      refine ⟨{ s with mem := memset m' ((s.pool flags.PAL_USER).base + PGSIZE * idx) 0 (PGSIZE * cnt) }, idx, ?_, hfree,
        ?_, fun u => by cases u <;> rfl, ?_⟩
      · simp [palloc_get_multiple, hcnt.ne', hpool, hrun, asserted, hzero]
        rfl
      · apply htaken.write
        intro x hx
        apply copy_outside
        have hnot := hx _ List.mem_cons_self
        rw [Block.covers] at hnot
        dsimp only at hnot
        omega
      · intro x hx
        rw [← hkept x hx]
        have hnot := htaken.kept_not_covers hx
        rw [Block.covers] at hnot
        exact memset_outside (by dsimp only at hnot; omega)
  · right
    refine ⟨?_, fun idx hfree => hnone idx hfree.1 hfree.2⟩
    cases hassert : flags.PAL_ASSERT <;>
      · simp [palloc_get_multiple, hcnt.ne', hpool, hrun, asserted, hassert]
        rfl

end Get

section Free

variable {ram_pages : Nat} {n : Bool → Nat} {s : State} {live : List Block} {a : Block}

theorem ok_bind {α β : Type} (x : α) (f : α → Except Panic β) : (Except.ok x >>= f) = f x := rfl

theorem bind_eq_ok {α β : Type} {x : Except Panic α} {f : α → Except Panic β} {b : β} (h : (x >>= f) = .ok b) :
    ∃ a, x = .ok a ∧ f a = .ok b := by
  cases x with
  | error e => contradiction
  | ok a => exact ⟨a, rfl, h⟩

/-- Pages of other allocations stay in use. -/
theorem used_erase (hapart : live.Pairwise Block.Apart) (hcnt : ∀ b ∈ live, 0 < b.cnt) (ha : a ∈ live)
    {base k : Nat} :
    used (live.erase a) base k = (used live base k && !decide (a.covers (base + PGSIZE * k))) := by
  have hnodup : live.Nodup := by
    apply List.Pairwise.imp_of_mem _ hapart
    rintro b c hb - hbc rfl
    have hpos := hcnt b hb
    rw [Block.Apart, PGSIZE] at hbc
    omega
  rw [Bool.eq_iff_iff, Bool.and_eq_true, used_iff, used_iff]
  simp only [Bool.not_eq_true', decide_eq_false_iff_not]
  constructor
  · rintro ⟨b, hb, hcover⟩
    obtain ⟨hne, hmem⟩ := hnodup.mem_erase_iff.mp hb
    refine ⟨⟨b, hmem, hcover⟩, fun hcover' => ?_⟩
    have : Std.Symm Block.Apart := ⟨fun _ _ h => h.symm⟩
    exact not_apart_of_covers hcover hcover' (hapart.forall hmem ha hne)
  · rintro ⟨⟨b, hb, hcover⟩, hnot⟩
    have hne : b ≠ a := fun heq => hnot (heq ▸ hcover)
    exact ⟨b, (List.mem_erase_of_ne hne).mpr hb, hcover⟩

theorem Inv.cnt_pos (h : Inv ram_pages n s live) : ∀ b ∈ live, 0 < b.cnt := by
  intro b hb
  obtain ⟨u, i, -, -, hcnt⟩ := h.placed b hb
  exact hcnt

/-- An allocation is taken out of the map of its pool. -/
theorem Inv.give_back (h : Inv ram_pages n s live) (ha : a ∈ live) {u : Bool} {idx : Nat} {m' : Ram}
    (hpages : a.pages = (s.pool u).base + PGSIZE * idx) (hidx : idx + a.cnt ≤ n u) (hcnt : 0 < a.cnt)
    (hmap : Holds m' (s.pool u).used_map (n u)
      (fun i => if idx ≤ i ∧ i < idx + a.cnt then false else used live (s.pool u).base i))
    (hframe : ∀ x, x < (s.pool u).used_map ∨ (s.pool u).used_map + bitmap_buf_size (n u) ≤ x → m' x = s.mem x) :
    Inv ram_pages n { s with mem := m' } (live.erase a) := by
  have hin : a.Inside (s.pool u).base (n u) := ⟨idx, hpages, hidx, hcnt⟩
  have hpool : ∀ v, State.pool { s with mem := m' } v = s.pool v := fun v => by cases v <;> rfl
  refine ⟨?_, ?_, ?_, h.first, h.between, h.last, ?_, h.apart.sublist List.erase_sublist⟩
  · intro v
    rw [hpool]
    obtain rfl | hne := eq_or_ne v u
    · refine hmap.ext ?_
      intro i _
      rw [used_erase h.apart h.cnt_pos ha]
      split_ifs with hi
      · simp [(covers_page hpages).mpr hi]
      · simp [mt (covers_page hpages).mp hi]
    · have hsame : Holds m' (s.pool v).used_map (n v) (used live (s.pool v).base) := by
        apply (h.holds v).congr
        intro x hlow hhigh
        apply hframe
        obtain ⟨hfalse, hbetween, htrue⟩ := h.order
        cases u <;> cases v <;> first | contradiction | omega
      refine hsame.ext ?_
      intro i hi
      rw [used_erase h.apart h.cnt_pos ha, decide_eq_false (h.pools_apart hin hne hi), Bool.not_false,
        Bool.and_true]
  · intro v
    rw [hpool]
    exact h.aligned v
  · intro v
    rw [hpool]
    exact h.room v
  · intro b hb
    obtain ⟨v, hv⟩ := h.placed b (List.mem_of_mem_erase hb)
    exact ⟨v, (hpool v).symm ▸ hv⟩

theorem page_from_pool_iff {m : Ram} {p : pool} {n x : Nat} (hbase : p.base % PGSIZE = 0) (hx : x % PGSIZE = 0)
    (hn : bit_cnt m p.used_map = n) : page_from_pool m p x = true ↔ p.base ≤ x ∧ x < p.base + PGSIZE * n := by
  rw [page_from_pool, decide_eq_true_iff, hn, pg_no, pg_no]
  rw [PGSIZE] at hbase hx ⊢
  omega

/-- The pool of an allocation is found again. -/
theorem Inv.pool_from (h : Inv ram_pages n s live) {u : Bool} (hin : a.Inside (s.pool u).base (n u)) :
    s.pool_from a.pages = .ok (s.pool u) := by
  obtain ⟨hr₁, hr₂⟩ := hin.range
  obtain ⟨idx, hpages, hidx, hcnt⟩ := hin
  have halign : a.pages % PGSIZE = 0 := by
    have hbase := h.aligned u
    rw [hpages]
    rw [PGSIZE] at hbase ⊢
    omega
  have hinside : a.pages < (s.pool u).base + PGSIZE * n u := by
    rw [PGSIZE] at hr₂ ⊢
    omega
  have hkernel := page_from_pool_iff (h.aligned false) halign (h.holds false).cnt
  have huser := page_from_pool_iff (h.aligned true) halign (h.holds true).cnt
  obtain ⟨hfalse, hbetween, htrue⟩ := h.order
  rw [State.pool_from]
  cases u with
  | false => exact if_pos (hkernel.mpr ⟨hr₁, hinside⟩)
  | true =>
    have hnot : ¬ page_from_pool s.mem s.kernel_pool a.pages = true := by
      intro hpage
      have hpast := (hkernel.mp hpage).2
      omega
    rw [if_neg hnot]
    exact if_pos (huser.mpr ⟨hr₁, hinside⟩)

/-- A live allocation is freed. -/
theorem palloc_free_multiple_run (h : Inv ram_pages n s live) (ha : a ∈ live) :
    ∃ s', palloc_free_multiple a.pages a.cnt s = .ok s' ∧ Inv ram_pages n s' (live.erase a) ∧
      (∀ u, s'.pool u = s.pool u) ∧ ∀ x, Kept (live.erase a) x → s'.mem x = s.mem x := by
  obtain ⟨u, hin⟩ := h.placed a ha
  have hfrom := h.pool_from hin
  obtain ⟨idx, hpages, hidx, hcnt⟩ := hin
  have halign := h.aligned u
  have hroom := h.room u
  have hsize : 8 ≤ bitmap_buf_size (n u) := Nat.le_add_right _ _
  have hofs : pg_ofs a.pages = 0 := by
    rw [pg_ofs, hpages]
    rw [PGSIZE] at halign ⊢
    omega
  have hno : pg_no a.pages - pg_no (s.pool u).base = idx := by
    rw [pg_no, pg_no, hpages]
    rw [PGSIZE] at halign ⊢
    omega
  have hnull : ¬ (a.pages = 0 ∨ a.cnt = 0) := by omega
  -- The freed pages are filled.
  have hfill : Inv ram_pages n { s with mem := memset s.mem a.pages 0xcc (PGSIZE * a.cnt) } live := by
    apply h.write
    intro x hx
    apply copy_outside
    have hnot := hx a ha
    rw [Block.covers] at hnot
    omega
  have hpool : State.pool { s with mem := memset s.mem a.pages 0xcc (PGSIZE * a.cnt) } u = s.pool u := by
    cases u <;> rfl
  have hmap := hfill.holds u
  rw [hpool] at hmap
  obtain ⟨r, hall, hr⟩ := bitmap_all_run hmap hidx
  have htrue : r = true := by
    apply hr.mpr
    intro i hlow hhigh
    exact used_iff.mpr ⟨a, ha, (covers_page hpages).mpr ⟨hlow, hhigh⟩⟩
  obtain ⟨m', hset, hmap', hframe⟩ := bitmap_set_multiple_run hmap hidx false
  refine ⟨{ s with mem := m' }, ?_, ?_, fun u => by cases u <;> rfl, ?_⟩
  · rw [palloc_free_multiple]
    simp only [hofs, hnull, hfrom, ok_bind, hno, ne_eq, not_true_eq_false, if_false]
    rw [hall, htrue, hset]
    rfl
  · rw [← hpool] at hpages hmap' hframe
    refine hfill.give_back ha hpages hidx hcnt hmap' ?_
    intro x hx
    refine hframe x ?_
    rw [sizeof_bitmap]
    omega
  · intro x hx
    have hfront := h.perm (List.perm_cons_erase ha)
    have hbefore : Kept (a :: live.erase a) x := by
      refine hx.imp_right ?_
      rintro ⟨b, hb, hcovers⟩
      exact ⟨b, List.mem_cons_of_mem a hb, hcovers⟩
    have houtside := hfront.kept_outside (u := u) hbefore
    have hnot := hfront.kept_not_covers hx
    have hfilled := hframe x (by rw [sizeof_bitmap]; omega)
    rw [Block.covers] at hnot
    exact hfilled.trans (memset_outside (by omega))

end Free

end pintos.threads
