import Pintos.Threads.Malloc
import Mathlib.Tactic.IntervalCases

/-!
# Where arenas and blocks are

An arena is a page with blocks of one of seven sizes, or a group of pages with one block.
Blocks are behind the header of their arena, and apart.
-/

open bytes pintos.kernel

namespace pintos.threads

/-- The block size of a descriptor. -/
def size_of (k : Fin 7) : Nat := 16 * 2 ^ k.val

/-- The number of blocks of an arena. -/
def count_of (k : Fin 7) : Nat := (PGSIZE - sizeof_arena) / size_of k

theorem size_of_range (k : Fin 7) : 16 ≤ size_of k ∧ size_of k ≤ 1024 := by
  revert k
  decide

theorem count_of_pos (k : Fin 7) : 0 < count_of k := by
  revert k
  decide

theorem count_of_le (k : Fin 7) : count_of k ≤ 255 := by
  revert k
  decide

theorem blocks_fit {k : Fin 7} {i : Nat} (hi : i < count_of k) :
    sizeof_arena + i * size_of k + size_of k ≤ PGSIZE := by
  have hmul : (i + 1) * size_of k ≤ count_of k * size_of k := Nat.mul_le_mul_right _ hi
  have hle : count_of k * size_of k ≤ PGSIZE - sizeof_arena := Nat.div_mul_le_self _ _
  rw [Nat.add_mul] at hmul
  rw [PGSIZE, sizeof_arena] at *
  omega

/-- An arena: its pages, and the descriptor that owns it unless it is one big block. -/
structure Arena where
  page : Nat
  cnt : Nat
  kind : Option (Fin 7)
  deriving DecidableEq

namespace Arena

def pages (a : Arena) : Block := ⟨a.page, a.cnt⟩

/-- The block with an index, in an arena of a descriptor. -/
def block (a : Arena) (k : Fin 7) (i : Nat) : Nat := a.page + sizeof_arena + i * size_of k

/-- The addresses of the blocks. -/
def blocks (a : Arena) : List Nat :=
  match a.kind with
  | some k => (List.range' 0 (count_of k)).map (a.block k)
  | none => [a.page + sizeof_arena]

/-- The size of every block. -/
def block_size (a : Arena) : Nat :=
  match a.kind with
  | some k => size_of k
  | none => PGSIZE * a.cnt - sizeof_arena

/-- The address of the owner. -/
def desc (descs : Nat) (a : Arena) : Nat :=
  match a.kind with
  | some k => desc_at descs k
  | none => 0

end Arena

/-- The bytes of two blocks do not overlap. -/
def Clear (b n c k : Nat) : Prop := b + n ≤ c ∨ c + k ≤ b

/-- Pages in the pools; an arena of a descriptor is one page. -/
structure Arena.Valid (a : Arena) : Prop where
  first : free_start ≤ a.page
  last : a.page + PGSIZE * a.cnt ≤ 2 ^ 32
  aligned : a.page % PGSIZE = 0
  cnt : 0 < a.cnt
  small : ∀ k, a.kind = some k → a.cnt = 1

section Blocks

variable {a : Arena} {b c : Nat} {k : Fin 7}

theorem Arena.mem_blocks (hk : a.kind = some k) :
    b ∈ a.blocks ↔ ∃ i < count_of k, b = a.page + sizeof_arena + i * size_of k := by
  simp only [Arena.blocks, hk, Arena.block, ← List.range_eq_range', List.mem_map, List.mem_range, eq_comm]

theorem Arena.blocks_eq (hk : a.kind = some k) : a.blocks = (List.range' 0 (count_of k)).map (a.block k) := by
  simp only [Arena.blocks, hk]

theorem Arena.mem_blocks_big (hk : a.kind = none) : b ∈ a.blocks ↔ b = a.page + sizeof_arena := by
  simp only [Arena.blocks, hk, List.mem_singleton]

theorem Arena.block_mem (hk : a.kind = some k) {i : Nat} (hi : i < count_of k) : a.block k i ∈ a.blocks :=
  (Arena.mem_blocks hk).mpr ⟨i, hi, rfl⟩

theorem Arena.block_inj {i j : Nat} (h : a.block k i = a.block k j) : i = j := by
  have hpos := (size_of_range k).1
  exact Nat.eq_of_mul_eq_mul_right (by omega) (Nat.add_left_cancel h)

theorem Arena.blocks_nodup (a : Arena) : a.blocks.Nodup := by
  obtain ⟨page, cnt, hk | k⟩ := a
  · exact List.nodup_singleton _
  · refine List.Nodup.map_on ?_ List.nodup_range'
    intro i _ j _ heq
    exact Arena.block_inj heq

theorem Arena.blocks_length (hk : a.kind = some k) : a.blocks.length = count_of k := by
  simp only [Arena.blocks, hk, List.length_map, List.length_range']

theorem Arena.blocks_ne_nil (a : Arena) : a.blocks ≠ [] := by
  intro hnil
  obtain ⟨page, cnt, hk | k⟩ := a
  · contradiction
  · have hlength := Arena.blocks_length (a := ⟨page, cnt, some k⟩) rfl
    have hpos := count_of_pos k
    rw [hnil, List.length_nil] at hlength
    omega

theorem Arena.block_size_pos (a : Arena) (hcnt : 0 < a.cnt) : 16 ≤ a.block_size := by
  obtain ⟨page, cnt, hk | k⟩ := a
  · simp only [Arena.block_size, PGSIZE, sizeof_arena]
    simp only at hcnt
    omega
  · exact (size_of_range k).1

/-- A block is in the pages of its arena, behind the header. -/
theorem Arena.Valid.block_inside (h : a.Valid) (hb : b ∈ a.blocks) :
    a.page + sizeof_arena ≤ b ∧ b + a.block_size ≤ a.page + PGSIZE * a.cnt := by
  cases hk : a.kind with
  | none =>
    obtain rfl := (Arena.mem_blocks_big hk).mp hb
    have hcnt := h.cnt
    simp only [Arena.block_size, hk, PGSIZE, sizeof_arena]
    omega
  | some k =>
    obtain ⟨i, hi, rfl⟩ := (Arena.mem_blocks hk).mp hb
    have hfit := blocks_fit hi
    have hcnt := h.small k hk
    simp only [Arena.block_size, hk, hcnt]
    omega

/-- The header is at the start of the page of the block. -/
theorem Arena.Valid.block_page (h : a.Valid) (hb : b ∈ a.blocks) :
    pg_round_down b = a.page ∧ pg_ofs b = b - a.page := by
  have halign := h.aligned
  obtain ⟨hlow, hhigh⟩ := h.block_inside hb
  have hnear : b < a.page + PGSIZE := by
    cases hk : a.kind with
    | none =>
      obtain rfl := (Arena.mem_blocks_big hk).mp hb
      rw [PGSIZE, sizeof_arena]
      omega
    | some k =>
      have hcnt := h.small k hk
      have hpos := a.block_size_pos h.cnt
      rw [hcnt] at hhigh
      omega
  rw [pg_round_down, pg_ofs]
  rw [PGSIZE] at *
  omega

/-- Blocks of one arena are apart. -/
theorem Arena.blocks_apart (hb : b ∈ a.blocks) (hc : c ∈ a.blocks) (hne : b ≠ c) :
    Clear b a.block_size c a.block_size := by
  cases hk : a.kind with
  | none =>
    obtain rfl := (Arena.mem_blocks_big hk).mp hb
    obtain rfl := (Arena.mem_blocks_big hk).mp hc
    contradiction
  | some k =>
    obtain ⟨i, -, rfl⟩ := (Arena.mem_blocks hk).mp hb
    obtain ⟨j, -, rfl⟩ := (Arena.mem_blocks hk).mp hc
    simp only [Clear, Arena.block_size, hk]
    obtain hlt | rfl | hlt := lt_trichotomy i j
    · have hmul : (i + 1) * size_of k ≤ j * size_of k := Nat.mul_le_mul_right _ hlt
      rw [Nat.add_mul] at hmul
      omega
    · contradiction
    · have hmul : (j + 1) * size_of k ≤ i * size_of k := Nat.mul_le_mul_right _ hlt
      rw [Nat.add_mul] at hmul
      omega

end Blocks

/-- The array is in front of the pools, and the arenas are apart. -/
structure Arranged (descs : Nat) (as : List Arena) : Prop where
  pos : 0 < descs
  front : descs + sizeof_desc * 10 ≤ free_start
  valid : ∀ a ∈ as, a.Valid
  apart : as.Pairwise fun a a' => a.pages.Apart a'.pages

section Arranged

variable {descs : Nat} {as : List Arena} {a a' : Arena} {b c : Nat}

theorem Arranged.pages_apart (h : Arranged descs as) (ha : a ∈ as) (ha' : a' ∈ as) (hne : a ≠ a') :
    a.pages.Apart a'.pages := by
  have : Std.Symm fun a a' : Arena => a.pages.Apart a'.pages := ⟨fun _ _ => Block.Apart.symm⟩
  exact h.apart.forall ha ha' hne

/-- Arenas with a common byte are the same. -/
theorem Arranged.eq_of_overlap (h : Arranged descs as) (ha : a ∈ as) (ha' : a' ∈ as) {x : Nat}
    (hx : a.pages.covers x) (hx' : a'.pages.covers x) : a = a' := by
  by_contra hne
  exact not_apart_of_covers hx hx' (h.pages_apart ha ha' hne)

theorem Arranged.page_inj (h : Arranged descs as) (ha : a ∈ as) (ha' : a' ∈ as)
    (heq : a.page = a'.page) : a = a' := by
  have hcnt := (h.valid a ha).cnt
  have hcnt' := (h.valid a' ha').cnt
  have hpage : 0 < PGSIZE := by decide
  have hmul := Nat.mul_pos hpage hcnt
  have hmul' := Nat.mul_pos hpage hcnt'
  refine h.eq_of_overlap ha ha' (x := a.page) ⟨Nat.le_refl _, ?_⟩ ⟨heq.symm.le, ?_⟩
  · simp only [Arena.pages]
    omega
  · simp only [Arena.pages]
    omega

theorem Arranged.page_ne (h : Arranged descs (a :: as)) (ha' : a' ∈ as) : a'.page ≠ a.page := by
  have happart := List.rel_of_pairwise_cons h.apart ha'
  have hcnt := (h.valid a List.mem_cons_self).cnt
  have hcnt' := (h.valid a' (List.mem_cons_of_mem a ha')).cnt
  simp only [Block.Apart, Arena.pages] at happart
  rw [PGSIZE] at happart
  omega

/-- The arena that has a block. -/
theorem Arranged.arena_unique (h : Arranged descs as) (ha : a ∈ as) (ha' : a' ∈ as) (hb : b ∈ a.blocks)
    (hb' : b ∈ a'.blocks) : a = a' := by
  apply h.page_inj ha ha'
  rw [← ((h.valid a ha).block_page hb).1, ← ((h.valid a' ha').block_page hb').1]

/-- Blocks do not overlap. -/
theorem Arranged.blocks_clear (h : Arranged descs as) (ha : a ∈ as) (ha' : a' ∈ as) (hb : b ∈ a.blocks)
    (hc : c ∈ a'.blocks) (hne : b ≠ c) : Clear b a.block_size c a'.block_size := by
  obtain rfl | haa := eq_or_ne a a'
  · exact Arena.blocks_apart hb hc hne
  · have happart := h.pages_apart ha ha' haa
    obtain ⟨hlow, hhigh⟩ := (h.valid a ha).block_inside hb
    obtain ⟨hlow', hhigh'⟩ := (h.valid a' ha').block_inside hc
    simp only [Block.Apart, Arena.pages] at happart
    rw [Clear]
    omega

/-- No block overlaps a header. -/
theorem Arranged.header_clear (h : Arranged descs as) (ha : a ∈ as) (ha' : a' ∈ as) (hb : b ∈ a.blocks) :
    Clear b a.block_size a'.page sizeof_arena := by
  obtain ⟨hlow, hhigh⟩ := (h.valid a ha).block_inside hb
  obtain rfl | haa := eq_or_ne a a'
  · exact Or.inr hlow
  · have happart := h.pages_apart ha ha' haa
    have hcnt := (h.valid a' ha').cnt
    simp only [Block.Apart, Arena.pages] at happart
    rw [Clear]
    rw [PGSIZE, sizeof_arena] at *
    omega

/-- The bytes of the descriptors and the headers that are not links. -/
def Fixed (descs : Nat) (as : List Arena) (x : Nat) : Prop :=
  (∃ k : Fin 7, desc_at descs k ≤ x ∧ x < desc_at descs k + 8) ∨ ∃ a ∈ as, a.page ≤ x ∧ x <
    a.page + sizeof_arena

/-- The nodes that free lists can have: the ends, and the blocks of the descriptors. -/
def Node (descs : Nat) (as : List Arena) (x : Nat) : Prop :=
  (∃ k : Fin 7, x = desc_at descs k + 8 ∨ x = desc_at descs k + 16) ∨ ∃ a ∈ as, a.kind ≠ none ∧ x ∈ a.blocks

/-- A block is behind the array, in an address of four bytes. -/
theorem Arranged.block_range (h : Arranged descs as) (ha : a ∈ as) (hb : b ∈ a.blocks) :
    descs + sizeof_desc * 10 + sizeof_arena ≤ b ∧ b + 16 ≤ 2 ^ 32 := by
  have hvalid := h.valid a ha
  have hfront := h.front
  have hfirst := hvalid.first
  have hlast := hvalid.last
  have hsize := a.block_size_pos hvalid.cnt
  obtain ⟨hlow, hhigh⟩ := hvalid.block_inside hb
  omega

theorem Arranged.placed (h : Arranged descs as) : ram.Placed (Node descs as) := by
  have hpos := h.pos
  have hfront := h.front
  have hstart : free_start = 0xc0100000 := rfl
  refine ⟨?_, ?_, ?_⟩
  · rintro x (⟨k, rfl | rfl⟩ | ⟨a, ha, -, hx⟩)
    · omega
    · omega
    · have hrange := (h.block_range ha hx).1
      omega
  · rintro x (⟨k, hx⟩ | ⟨a, ha, -, hx⟩)
    · have hk := k.isLt
      simp only [desc_at, sizeof_desc] at *
      omega
    · have hrange := (h.block_range ha hx).2
      omega
  · rintro x y (⟨k, hx⟩ | ⟨a, ha, -, hx⟩) (⟨j, hy⟩ | ⟨a', ha', -, hy⟩) hne
    · have hk := k.isLt
      have hj := j.isLt
      simp only [desc_at, sizeof_desc, ram.sizeof_list_elem] at *
      omega
    · have hk := k.isLt
      have hrange := (h.block_range ha' hy).1
      simp only [desc_at, sizeof_desc, ram.sizeof_list_elem] at *
      omega
    · have hj := j.isLt
      have hrange := (h.block_range ha hx).1
      simp only [desc_at, sizeof_desc, ram.sizeof_list_elem] at *
      omega
    · have hclear := h.blocks_clear ha ha' hx hy hne
      have hsize := a.block_size_pos (h.valid a ha).cnt
      have hsize' := a'.block_size_pos (h.valid a' ha').cnt
      rw [Clear] at hclear
      rw [ram.sizeof_list_elem]
      omega

theorem Arranged.fixed_outside (h : Arranged descs as) {x : Nat} (hx : Fixed descs as x) :
    ram.Outside (Node descs as) x := by
  have hfront := h.front
  rintro y (⟨j, hy⟩ | ⟨a', ha', -, hy⟩)
  · have hj := j.isLt
    obtain ⟨k, hlow, hhigh⟩ | ⟨a, ha, hlow, hhigh⟩ := hx
    · have hk := k.isLt
      simp only [desc_at, sizeof_desc, ram.sizeof_list_elem] at *
      omega
    · have hfirst := (h.valid a ha).first
      simp only [desc_at, sizeof_desc, ram.sizeof_list_elem] at *
      omega
  · obtain ⟨k, hlow, hhigh⟩ | ⟨a, ha, hlow, hhigh⟩ := hx
    · have hk := k.isLt
      have hrange := (h.block_range ha' hy).1
      simp only [desc_at, sizeof_desc, ram.sizeof_list_elem] at *
      omega
    · have hclear := h.header_clear ha' ha hy
      have hsize := a'.block_size_pos (h.valid a' ha').cnt
      rw [Clear] at hclear
      rw [ram.sizeof_list_elem]
      omega

end Arranged

end pintos.threads
