import Pintos.Threads.MallocFree
import Pintos.Threads.PallocRuns

/-!
# Runs of the memory allocator

What holds after `malloc_init` and any sequence of calls, of writing to live blocks, and
of what others do with their own pages.
-/

open bytes state_error pintos.kernel

namespace pintos.threads

variable {ram_pages : Nat} {n : Bool → Nat} {others : List Block} {s t : Heap} {as : List Arena} {a : Arena}
  {seq : Fin 7 → List Nat} {cnt : Nat → Nat} {live : List Nat} {b : Nat} {k : Fin 7}

/-- What others and the program do between calls: others have pages of their own. -/
inductive HeapRun (s₀ : Heap) : Heap → List Nat → List Block → Prop where
  | start : HeapRun s₀ s₀ [] []
  | malloc {s t : Heap} {live : List Nat} {others : List Block} {size : Nat} {r : Option Nat} :
      HeapRun s₀ s live others → size + sizeof_arena + PGSIZE < 2 ^ 32 → malloc size s = .ok (r, t) →
      HeapRun s₀ t (r.toList ++ live) others
  | free_null {s t : Heap} {live : List Nat} {others : List Block} :
      HeapRun s₀ s live others → free none s = .ok ((), t) → HeapRun s₀ t live others
  | free {s t : Heap} {live : List Nat} {others : List Block} {b : Nat} :
      HeapRun s₀ s live others → b ∈ live → free (some b) s = .ok ((), t) → HeapRun s₀ t (live.erase b) others
  | realloc_null {s t : Heap} {live : List Nat} {others : List Block} {size : Nat} {r : Option Nat} :
      HeapRun s₀ s live others → size + sizeof_arena + PGSIZE < 2 ^ 32 → realloc none size s = .ok (r, t) →
      HeapRun s₀ t (r.toList ++ live) others
  | realloc_zero {s t : Heap} {live : List Nat} {others : List Block} {b : Nat} {r : Option Nat} :
      HeapRun s₀ s live others → b ∈ live → realloc (some b) 0 s = .ok (r, t) →
      HeapRun s₀ t (live.erase b) others
  | realloc {s t : Heap} {live : List Nat} {others : List Block} {b b' size : Nat} :
      HeapRun s₀ s live others → b ∈ live → size ≠ 0 → size + sizeof_arena + PGSIZE < 2 ^ 32 →
      realloc (some b) size s = .ok (some b', t) → HeapRun s₀ t ((b' :: live).erase b) others
  | realloc_none {s t : Heap} {live : List Nat} {others : List Block} {b size : Nat} :
      HeapRun s₀ s live others → b ∈ live → size ≠ 0 → size + sizeof_arena + PGSIZE < 2 ^ 32 →
      realloc (some b) size s = .ok (none, t) → HeapRun s₀ t live others
  | write {s : Heap} {live : List Nat} {others : List Block} {m : Ram} : HeapRun s₀ s live others →
      (∀ x, (∀ b ∈ live, ∀ k, block_size b s = .ok (k, s) → x < b ∨ b + k ≤ x) →
        (∀ o ∈ others, ¬ o.covers x) → m x = s.palloc.mem x) → HeapRun s₀ (s.set_mem m) live others
  | get {s : Heap} {p : State} {live : List Nat} {others : List Block} {flags : palloc_flags}
      {pages page_cnt : Nat} :
      HeapRun s₀ s live others → palloc_get_multiple flags page_cnt s.palloc = .ok (p, some pages) →
      HeapRun s₀ { s with palloc := p } live (⟨pages, page_cnt⟩ :: others)
  | get_none {s : Heap} {p : State} {live : List Nat} {others : List Block} {flags : palloc_flags}
      {page_cnt : Nat} :
      HeapRun s₀ s live others → palloc_get_multiple flags page_cnt s.palloc = .ok (p, none) →
      HeapRun s₀ { s with palloc := p } live others
  | give_back {s : Heap} {p : State} {live : List Nat} {others : List Block} {o : Block} :
      HeapRun s₀ s live others → o ∈ others → palloc_free_multiple o.pages o.cnt s.palloc = .ok p →
      HeapRun s₀ { s with palloc := p } live (others.erase o)

/-- The blocks that an arena in memory is divided into. -/
def blocks_in (m : Ram) (a : Nat) : List Nat :=
  if arena.desc m a = 0 then [a + sizeof_arena]
  else (List.range' 0 (desc.blocks_per_arena m (arena.desc m a))).map fun i =>
    a + sizeof_arena + i * desc.block_size m (arena.desc m a)

/-- What the allocator is for. The free lists of the descriptors are `free_list`. -/
structure HeapCorrect (ram_pages : Nat) (s : Heap) (live : List Nat) (others : List Block)
    (free_list : Nat → List Nat) : Prop where
  pages : Correct ram_pages s.palloc (s.arenas ++ others)
  live_placed : ∀ b ∈ live, ∃ k, block_size b s = .ok (k, s) ∧
    ∃ a ∈ s.arenas, b ∈ blocks_in s.palloc.mem a.pages ∧ b + k ≤ a.pages + PGSIZE * a.cnt
  live_apart : live.Pairwise fun b c => ∀ k j, block_size b s = .ok (k, s) → block_size c s = .ok (j, s) →
    Clear b k c j
  live_header : ∀ b ∈ live, ∀ k, block_size b s = .ok (k, s) → ∀ a ∈ s.arenas, Clear b k a.pages sizeof_arena
  live_free : ∀ b ∈ live, ∀ k, block_size b s = .ok (k, s) → ∀ i < s.desc_cnt, ∀ c ∈ free_list i,
    Clear b k c (desc.block_size s.palloc.mem (desc_at s.descs i))
  lists : ∀ i < s.desc_cnt, ∀ n, (free_list i).length < n →
    forward (ram.links_of s.palloc.mem) n (desc.free_list (desc_at s.descs i)) = some (free_list i)
  lists_nodup : ∀ i < s.desc_cnt, (free_list i).Nodup
  free : ∀ i < s.desc_cnt, ∀ c, c ∈ free_list i ↔ c ∉ live ∧
    ∃ a ∈ s.arenas, arena.desc s.palloc.mem a.pages = desc_at s.descs i ∧ c ∈ blocks_in s.palloc.mem a.pages
  free_cnt : ∀ i < s.desc_cnt, ∀ a ∈ s.arenas, arena.desc s.palloc.mem a.pages = desc_at s.descs i →
    arena.free_cnt s.palloc.mem a.pages = (free_list i).countP (· ∈ blocks_in s.palloc.mem a.pages)
  arena_used : ∀ a ∈ s.arenas, ∃ b ∈ live, b ∈ blocks_in s.palloc.mem a.pages
  malloc : ∀ size, size + sizeof_arena + PGSIZE < 2 ^ 32 → malloc size s = .ok (none, s) ∨
    ∃ b t k, malloc size s = .ok (some b, t) ∧ b ∉ live ∧ block_size b t = .ok (k, t) ∧ size ≤ k
  free_arena : ∀ b ∈ live, ∃ t, threads.free (some b) s = .ok ((), t) ∧
    ∀ a, a ∈ t.arenas ↔ a ∈ s.arenas ∧ ∃ c ∈ live.erase b, c ∈ blocks_in s.palloc.mem a.pages
  realloc : ∀ b ∈ live, ∀ size, size ≠ 0 → size + sizeof_arena + PGSIZE < 2 ^ 32 →
    realloc (some b) size s = .ok (none, s) ∨ ∃ b' t, realloc (some b) size s = .ok (some b', t)

section Correct

/-- The blocks of an arena, read from memory. -/
theorem Whole.blocks_in (h : Whole ram_pages n others s as seq cnt live) (ha : a ∈ as) :
    blocks_in s.palloc.mem a.page = a.blocks := by
  have hdesc := h.books.core.headers.desc a ha
  have hpos := h.books.core.pos
  rw [threads.blocks_in, hdesc]
  cases hk : a.kind with
  | none => simp only [Arena.desc, Arena.blocks, hk, if_true]
  | some k =>
    have hne : desc_at s.descs k ≠ 0 := by
      rw [desc_at]
      omega
    have hd : a.desc s.descs = desc_at s.descs k := by simp only [Arena.desc, hk]
    rw [hd, if_neg hne, h.books.core.headers.blocks_per_arena k, h.books.core.headers.block_size k,
      Arena.blocks_eq hk]
    rfl

/-- The arenas, with their descriptors. -/
theorem Whole.mem_arenas (h : Whole ram_pages n others s as seq cnt live) {p : Block} :
    p ∈ s.arenas ↔ ∃ a ∈ as, a.pages = p := by
  rw [h.books.core.arenas.mem_iff, List.mem_map]

theorem desc_at_inj {descs : Nat} {j k : Fin 7} (h : desc_at descs j = desc_at descs k) : j = k := by
  rw [desc_at, desc_at, sizeof_desc] at h
  exact Fin.ext (by omega)

theorem Whole.kind_eq (h : Whole ram_pages n others s as seq cnt live) (ha : a ∈ as) :
    arena.desc s.palloc.mem a.page = desc_at s.descs k ↔ a.kind = some k := by
  have hpos := h.books.core.pos
  rw [h.books.core.headers.desc a ha]
  cases hk : a.kind with
  | none =>
    simp only [Arena.desc, hk, desc_at]
    constructor
    · intro heq
      omega
    · intro heq
      contradiction
  | some j =>
    simp only [Arena.desc, hk]
    constructor
    · intro heq
      rw [desc_at_inj heq]
    · intro heq
      rw [Option.some.inj heq]

/-- The invariant says what the allocator is for. -/
theorem Whole.correct (h : Whole ram_pages n others s as seq cnt live) :
    ∃ free_list, HeapCorrect ram_pages s live others free_list := by
  have harranged := h.books.core.arranged
  have hcnt := h.books.core.desc_cnt
  have hlist : ∀ i, i < s.desc_cnt → ∃ k : Fin 7, k.val = i := fun i hi => ⟨⟨i, by omega⟩, rfl⟩
  have hsize : ∀ b ∈ live, ∀ j, threads.block_size b s = .ok (j, s) → ∃ a ∈ as, b ∈ a.blocks ∧
      j = a.block_size := by
    intro b hb j hj
    obtain ⟨a, ha, hba⟩ := h.books.placed b hb
    exact ⟨a, ha, hba, (Exec.ok_inj hj (h.block_size ha hba)).1⟩
  have hseq : ∀ k : Fin 7, (if hi : k.val < 7 then seq ⟨k.val, hi⟩ else []) = seq k := fun k => dif_pos k.isLt
  refine ⟨fun i => if hi : i < 7 then seq ⟨i, hi⟩ else [], ?_, ?_, ?_, ?_, ?_, ?_, ?_, ?_, ?_, ?_, ?_, ?_, ?_⟩
  · exact h.books.core.palloc.correct
  · intro b hb
    obtain ⟨a, ha, hba⟩ := h.books.placed b hb
    refine ⟨_, h.block_size ha hba, a.pages, h.books.core.mem_arenas ha, ?_,
      ((harranged.valid a ha).block_inside hba).2⟩
    rwa [show a.pages.pages = a.page from rfl, h.blocks_in ha]
  · apply h.books.nodup.pairwise_of_forall_ne
    intro b hb c hc hne j l hj hl
    obtain ⟨a, ha, hba, rfl⟩ := hsize b hb j hj
    obtain ⟨a', ha', hca, rfl⟩ := hsize c hc l hl
    exact harranged.blocks_clear ha ha' hba hca hne
  · intro b hb j hj p hp
    obtain ⟨a, ha, hba, rfl⟩ := hsize b hb j hj
    obtain ⟨a', ha', rfl⟩ := h.mem_arenas.mp hp
    exact harranged.header_clear ha ha' hba
  · intro b hb j hj i hi c hc
    obtain ⟨k, rfl⟩ := hlist i hi
    obtain ⟨a, ha, hba, rfl⟩ := hsize b hb j hj
    rw [hseq] at hc
    obtain ⟨a', ha', hk, hca⟩ := h.books.core.elems k c hc
    have hne : b ≠ c := by
      rintro rfl
      exact (h.books.free a' ha' k hk b hca).mp hc hb
    have hclear := harranged.blocks_clear ha ha' hba hca hne
    rw [h.books.core.headers.block_size k]
    simpa only [Arena.block_size, hk] using hclear
  · intro i hi m hm
    obtain ⟨k, rfl⟩ := hlist i hi
    rw [hseq] at hm ⊢
    exact (h.books.core.lists.traversals hm).1
  · intro i hi
    obtain ⟨k, rfl⟩ := hlist i hi
    rw [hseq]
    exact h.books.core.lists.seq_nodup k
  · intro i hi c
    obtain ⟨k, rfl⟩ := hlist i hi
    rw [hseq]
    constructor
    · intro hc
      obtain ⟨a, ha, hk, hca⟩ := h.books.core.elems k c hc
      refine ⟨(h.books.free a ha k hk c hca).mp hc, a.pages, h.books.core.mem_arenas ha,
        (h.kind_eq ha).mpr hk, ?_⟩
      rwa [show a.pages.pages = a.page from rfl, h.blocks_in ha]
    · rintro ⟨hlive, p, hp, hdesc, hc⟩
      obtain ⟨a, ha, rfl⟩ := h.mem_arenas.mp hp
      rw [show a.pages.pages = a.page from rfl] at hdesc hc
      rw [h.blocks_in ha] at hc
      exact (h.books.free a ha k ((h.kind_eq ha).mp hdesc) c hc).mpr hlive
  · intro i hi p hp hdesc
    obtain ⟨k, rfl⟩ := hlist i hi
    obtain ⟨a, ha, rfl⟩ := h.mem_arenas.mp hp
    rw [show a.pages.pages = a.page from rfl] at hdesc ⊢
    rw [hseq, h.books.core.headers.free_cnt a ha, h.books.free_cnt a ha k ((h.kind_eq ha).mp hdesc),
      h.blocks_in ha]
  · intro p hp
    obtain ⟨a, ha, rfl⟩ := h.mem_arenas.mp hp
    obtain ⟨b, hb, hlive⟩ := h.used a ha
    refine ⟨b, hlive, ?_⟩
    rwa [show a.pages.pages = a.page from rfl, h.blocks_in ha]
  · intro size hbound
    obtain hnone | ⟨b, t, as', seq', cnt', hrun, hwhole, -, a, ha, hfit, hb⟩ := h.malloc hbound
    · exact Or.inl hnone
    · exact Or.inr ⟨b, t, a.block_size, hrun, (List.nodup_cons.mp hwhole.books.nodup).1,
        hwhole.block_size ha hb, hfit⟩
  · intro b hb
    obtain ⟨t, as', seq', cnt', hrun, hwhole, -, hsub⟩ := h.free hb
    refine ⟨t, hrun, fun p => ?_⟩
    rw [hwhole.mem_arenas, h.mem_arenas]
    constructor
    · rintro ⟨a, ha, rfl⟩
      obtain ⟨c, hc, hclive⟩ := hwhole.used a ha
      refine ⟨⟨a, hsub a ha, rfl⟩, c, hclive, ?_⟩
      rwa [show a.pages.pages = a.page from rfl, h.blocks_in (hsub a ha)]
    · rintro ⟨⟨a, ha, rfl⟩, c, hclive, hc⟩
      rw [show a.pages.pages = a.page from rfl, h.blocks_in ha] at hc
      obtain ⟨a', ha', hc'⟩ := hwhole.books.placed c hclive
      obtain rfl := harranged.arena_unique ha (hsub a' ha') hc hc'
      exact ⟨a, ha', rfl⟩
  · intro b hb size hpos hbound
    obtain hnone | ⟨b', t, as', seq', cnt', hrun, -⟩ := h.realloc hb hpos hbound
    · exact Or.inl hnone
    · exact Or.inr ⟨b', t, hrun⟩

end Correct

section Runs

/-- A whole heap, with some arenas and free lists. -/
def IsWhole (ram_pages : Nat) (n : Bool → Nat) (s : Heap) (live : List Nat) (others : List Block) : Prop :=
  ∃ as seq cnt, Whole ram_pages n others s as seq cnt live

theorem IsWhole.malloc (h : IsWhole ram_pages n s live others) {size : Nat} {r : Option Nat}
    (hsize : size + sizeof_arena + PGSIZE < 2 ^ 32) (hrun : malloc size s = .ok (r, t)) :
    IsWhole ram_pages n t (r.toList ++ live) others := by
  obtain ⟨as, seq, cnt, h⟩ := h
  obtain hnone | ⟨b, u, as', seq', cnt', hsome, hwhole, -⟩ := h.malloc hsize
  · obtain ⟨rfl, rfl⟩ := Exec.ok_inj hrun hnone
    exact ⟨as, seq, cnt, h⟩
  · obtain ⟨rfl, rfl⟩ := Exec.ok_inj hrun hsome
    exact ⟨as', seq', cnt', hwhole⟩

theorem IsWhole.free (h : IsWhole ram_pages n s live others) (hb : b ∈ live)
    (hrun : free (some b) s = .ok ((), t)) :
    IsWhole ram_pages n t (live.erase b) others := by
  obtain ⟨as, seq, cnt, h⟩ := h
  obtain ⟨u, as', seq', cnt', hfree, hwhole, -⟩ := h.free hb
  obtain ⟨-, rfl⟩ := Exec.ok_inj hrun hfree
  exact ⟨as', seq', cnt', hwhole⟩

/-- Others take pages and give them back. -/
theorem IsWhole.other_pages (h : IsWhole ram_pages n s live others) {p : State} {others' : List Block}
    (hinv : Inv ram_pages n p (s.arenas ++ others')) (hkept : ∀ x, Kept s.arenas x → p.mem x = s.palloc.mem x) :
    IsWhole ram_pages n { s with palloc := p } live others' := by
  obtain ⟨as, seq, cnt, h⟩ := h
  exact ⟨as, seq, cnt, ⟨h.books.core.other_pages hinv hkept, h.books.free_cnt, h.books.big, h.books.free,
    h.books.placed, h.books.nodup⟩, h.used⟩

/-- Every step keeps the heap whole. -/
theorem HeapRun.whole {s₀ : Heap} (hstart : IsWhole ram_pages n s₀ [] []) (hrun : HeapRun s₀ s live others) :
    IsWhole ram_pages n s live others := by
  induction hrun with
  | start => exact hstart
  | malloc _ hsize hmalloc ih => exact ih.malloc hsize hmalloc
  | free_null _ hfree ih =>
    obtain ⟨-, rfl⟩ := Exec.ok_inj hfree (Exec.pure_run ())
    exact ih
  | free _ hb hfree ih => exact ih.free hb hfree
  | realloc_null _ hsize hrealloc ih =>
    rw [realloc_null_eq] at hrealloc
    exact ih.malloc hsize hrealloc
  | realloc_zero _ hb hrealloc ih =>
    rw [threads.realloc, if_pos rfl] at hrealloc
    obtain ⟨⟨⟩, u, hfree, hret⟩ := Exec.bind_eq_ok.mp hrealloc
    obtain ⟨-, rfl⟩ := Exec.ok_inj hret (Exec.pure_run none)
    exact ih.free hb hfree
  | realloc _ hb hpos hsize hrealloc ih =>
    obtain ⟨as, seq, cnt, h⟩ := ih
    obtain hnone | ⟨b', u, as', seq', cnt', hsome, hwhole, -⟩ := h.realloc hb hpos hsize
    · have hne := (Exec.ok_inj hrealloc hnone).1
      contradiction
    · obtain ⟨hsame, rfl⟩ := Exec.ok_inj hrealloc hsome
      obtain rfl := Option.some.inj hsame
      exact ⟨as', seq', cnt', hwhole⟩
  | realloc_none _ hb hpos hsize hrealloc ih =>
    obtain ⟨as, seq, cnt, h⟩ := ih
    obtain hnone | ⟨b', u, as', seq', cnt', hsome, hwhole, -⟩ := h.realloc hb hpos hsize
    · obtain ⟨-, rfl⟩ := Exec.ok_inj hrealloc hnone
      exact ⟨as, seq, cnt, h⟩
    · have hne := (Exec.ok_inj hrealloc hsome).1
      contradiction
  | write _ hm ih =>
    obtain ⟨as, seq, cnt, h⟩ := ih
    refine ⟨as, seq, cnt, h.books.write _ ?_, h.used⟩
    intro x hx hothers
    refine hm x ?_ hothers
    intro b hb k hk
    obtain ⟨a, ha, hba⟩ := h.books.placed b hb
    obtain ⟨rfl, -⟩ := Exec.ok_inj hk (h.block_size ha hba)
    exact hx b hb a ha hba
  | @get s p live others flags pages page_cnt _ hget ih =>
    obtain ⟨as, seq, cnt, h⟩ := id ih
    obtain rfl | hpos := Nat.eq_zero_or_pos page_cnt
    · rw [palloc_get_multiple_zero] at hget
      simp at hget
    obtain ⟨p', idx, hget', -, hinv, -, hkept⟩ | ⟨hnone, -⟩ :=
      palloc_get_multiple_run h.books.core.palloc flags hpos
    · rw [hget] at hget'
      obtain ⟨rfl, hpages⟩ := Prod.mk.inj (Except.ok.inj hget')
      obtain rfl := Option.some.inj hpages
      exact ih.other_pages (hinv.perm List.perm_middle.symm) fun x hx => hkept x (hx.append _)
    · rw [hget] at hnone
      split_ifs at hnone
      simp at hnone
  | @get_none s p live others flags page_cnt _ hget ih =>
    obtain ⟨as, seq, cnt, h⟩ := id ih
    have hsame : p = s.palloc := by
      obtain rfl | hpos := Nat.eq_zero_or_pos page_cnt
      · rw [palloc_get_multiple_zero] at hget
        exact (Prod.mk.inj (Except.ok.inj hget)).1.symm
      obtain ⟨p', idx, hget', -⟩ | ⟨hnone, -⟩ := palloc_get_multiple_run h.books.core.palloc flags hpos
      · rw [hget] at hget'
        simp at hget'
      · rw [hget] at hnone
        split_ifs at hnone
        exact (Prod.mk.inj (Except.ok.inj hnone)).1
    rw [hsame]
    exact ih
  | @give_back s p live others o _ ho hfree ih =>
    obtain ⟨as, seq, cnt, h⟩ := id ih
    obtain ⟨p', hfree', hinv, -, hkept⟩ :=
      palloc_free_multiple_run h.books.core.palloc (List.mem_append_right s.arenas ho)
    obtain rfl := Except.ok.inj (hfree.symm.trans hfree')
    have hnot : o ∉ s.arenas := by
      intro hin
      have happart := (List.pairwise_append.mp h.books.core.palloc.apart).2.2 o hin o ho
      obtain ⟨u, i, -, -, hcnt⟩ := h.books.core.palloc.placed o (List.mem_append_right _ ho)
      rw [Block.Apart, PGSIZE] at happart
      omega
    rw [List.erase_append_right _ hnot] at hinv hkept
    exact ih.other_pages hinv fun x hx => hkept x (hx.append _)

end Runs

section Init

/-- The first `j` descriptors are initialized, and nothing is allocated. -/
structure Initialized (ram_pages : Nat) (n : Bool → Nat) (descs : Nat) (s : Heap) (j : Nat) : Prop where
  palloc : Inv ram_pages n s.palloc []
  arenas : s.arenas = []
  array : s.descs = descs
  desc_cnt : s.desc_cnt = j
  block_size : ∀ k : Fin 7, k.val < j → desc.block_size s.palloc.mem (desc_at descs k) = size_of k
  blocks_per_arena : ∀ k : Fin 7, k.val < j → desc.blocks_per_arena s.palloc.mem (desc_at descs k) = count_of k
  head : ∀ k : Fin 7, k.val < j → ram.links_of s.palloc.mem (free_lists descs k).head =
    ⟨none, some (free_lists descs k).tail⟩
  tail : ∀ k : Fin 7, k.val < j → ram.links_of s.palloc.mem (free_lists descs k).tail =
    ⟨some (free_lists descs k).head, none⟩

variable {descs j : Nat}

/-- The memory after one turn of the loop. -/
def init_desc (m : Ram) (d block_size : Nat) : Ram :=
  ram.list_init (store_word (store_word m d block_size) (d + 4) ((PGSIZE - sizeof_arena) / block_size))
    (desc.free_list d)

/-- A turn of the loop initializes one descriptor. -/
theorem init_desc_run (m : Ram) (d block_size : Nat) (hpos : 0 < d) (hlt : d + sizeof_desc < 2 ^ 32)
    (hsize : block_size < 2 ^ 32) :
    desc.block_size (init_desc m d block_size) d = block_size ∧
      desc.blocks_per_arena (init_desc m d block_size) d = (PGSIZE - sizeof_arena) / block_size ∧
      ram.links_of (init_desc m d block_size) (d + 8) = ⟨none, some (d + 16)⟩ ∧
      ram.links_of (init_desc m d block_size) (d + 16) = ⟨some (d + 8), none⟩ ∧
      ∀ x, x < d ∨ d + sizeof_desc ≤ x → init_desc m d block_size x = m x := by
  rw [sizeof_desc] at hlt
  have hplaced : ram.Placed fun x => x = d + 8 ∨ x = d + 16 := by
    refine ⟨?_, ?_, ?_⟩
    · rintro x (rfl | rfl) <;> omega
    · rintro x (rfl | rfl) <;> omega
    · rintro x y (rfl | rfl) (rfl | rfl) hne <;> rw [ram.sizeof_list_elem] <;> omega
  obtain ⟨m', hm'⟩ :
      ∃ m', m' = store_word (store_word m d block_size) (d + 4)
        ((PGSIZE - sizeof_arena) / block_size) := ⟨_, rfl⟩
  have hmirrors := ram.list_init_mirrors (m := m') hplaced (desc.free_list d) (Or.inl rfl) (Or.inr rfl)
  have hinit : init_desc m d block_size = ram.list_init m' (desc.free_list d) := by rw [hm']; rfl
  have houtside : ∀ x, x < d + 8 ∨ d + 24 ≤ x → init_desc m d block_size x = m' x := by
    intro x hx
    rw [hinit]
    apply hmirrors.outside
    rintro y (rfl | rfl) <;> rw [ram.sizeof_list_elem] <;> omega
  have hdiv : (PGSIZE - sizeof_arena) / block_size < 2 ^ 32 :=
    Nat.lt_of_le_of_lt (Nat.div_le_self _ _) (by decide)
  have hne : d + 8 ≠ d + 16 := by omega
  refine ⟨?_, ?_, ?_, ?_, ?_⟩
  · rw [desc.block_size, word_congr fun i hi => houtside (d + i) (by omega), hm',
      word_store_word_ne _ (by omega),
      word_store_word _ _ hsize]
  · rw [desc.blocks_per_arena, word_congr fun i hi => houtside (d + 4 + i) (by omega), hm',
      word_store_word _ _ hdiv]
  · rw [hinit, hmirrors.links _ (Or.inl rfl)]
    simp [kernel.list_init, desc.free_list, ram.list_at, ram.sizeof_list_elem, links.set_prev, links.set_next]
  · rw [hinit, hmirrors.links _ (Or.inr rfl)]
    simp [kernel.list_init, desc.free_list, ram.list_at, ram.sizeof_list_elem, links.set_prev, links.set_next]
  · intro x hx
    rw [sizeof_desc] at hx
    rw [houtside x (by omega), hm', store_word_outside (by omega), store_word_outside (by omega)]

/-- The descriptors that are initialized stay. -/
theorem Initialized.next (h : Initialized ram_pages n descs s j) (hpos : 0 < descs)
    (hfront : descs + sizeof_desc * 10 ≤ free_start) (hj : j < 7) :
    Initialized ram_pages n descs
      ({ s with desc_cnt := j + 1 }.set_mem (init_desc s.palloc.mem (desc_at descs j)
      (16 * 2 ^ j))) (j + 1) := by
  have hstart : free_start = 0xc0100000 := rfl
  obtain ⟨hsize, hper, hhead, htail, houtside⟩ := init_desc_run s.palloc.mem (desc_at descs j)
    (16 * 2 ^ j) (by rw [desc_at]; omega) (by rw [desc_at]; rw [sizeof_desc] at *; omega)
    (show 16 * 2 ^ j < 2 ^ 32 by
      have hpow : 2 ^ j ≤ 2 ^ 6 := Nat.pow_le_pow_right (by decide) (by omega)
      omega)
  have hold : ∀ k : Fin 7, k.val < j → ∀ x, desc_at descs k ≤ x → x < desc_at descs k + 24 →
      init_desc s.palloc.mem (desc_at descs j) (16 * 2 ^ j) x = s.palloc.mem x := by
    intro k hk x hlow hhigh
    apply houtside
    simp only [desc_at, sizeof_desc] at *
    omega
  have hlinks : ∀ k : Fin 7, k.val < j → ∀ a, a = desc_at descs k + 8 ∨ a = desc_at descs k + 16 →
      ram.links_of (init_desc s.palloc.mem (desc_at descs j) (16 * 2 ^ j)) a = ram.links_of s.palloc.mem a := by
    intro k hk a ha
    apply ram.links_of_congr
    intro x hlow hhigh
    rw [ram.sizeof_list_elem] at hhigh
    exact hold k hk x (by omega) (by omega)
  have hcases : ∀ k : Fin 7, k.val < j + 1 → k.val < j ∨ k.val = j := fun k hk => by omega
  refine ⟨h.palloc.write_kept ?_, h.arenas, h.array, rfl, ?_, ?_, ?_, ?_⟩
  · intro x hx
    apply houtside
    by_contra hin
    apply hx
    left
    simp only [desc_at, sizeof_desc] at *
    omega
  · intro k hk
    obtain hk | rfl := hcases k hk
    · rw [← h.block_size k hk]
      apply word_congr
      intro i hi
      exact hold k hk _ (by omega) (by omega)
    · exact hsize
  · intro k hk
    obtain hk | rfl := hcases k hk
    · rw [← h.blocks_per_arena k hk]
      apply word_congr
      intro i hi
      exact hold k hk _ (by omega) (by omega)
    · exact hper
  · intro k hk
    obtain hk | rfl := hcases k hk
    · rw [← h.head k hk]
      exact hlinks k hk _ (Or.inl rfl)
    · exact hhead
  · intro k hk
    obtain hk | rfl := hcases k hk
    · rw [← h.tail k hk]
      exact hlinks k hk _ (Or.inr rfl)
    · exact htail

/-- The loop ends after the seventh descriptor. -/
theorem malloc_init_loop_run (hpos : 0 < descs) (hfront : descs + sizeof_desc * 10 ≤ free_start) :
    ∀ left j {s : Heap}, j + left = 7 → Initialized ram_pages n descs s j →
      ∃ t, malloc_init_loop (left + 4) (16 * 2 ^ j) s = .ok ((), t) ∧ Initialized ram_pages n descs t 7 := by
  intro left
  induction left with
  | zero =>
    intro j s hj h
    obtain rfl : j = 7 := by omega
    exact ⟨s, rfl, h⟩
  | succ left ih =>
    intro j s hj h
    have hpow : 2 ^ j ≤ 2 ^ 6 := Nat.pow_le_pow_right (by decide) (by omega)
    have hsmall : 16 * 2 ^ j < PGSIZE / 2 := by
      rw [PGSIZE]
      omega
    have hroom : s.desc_cnt + 1 ≤ 10 := by
      rw [h.desc_cnt]
      omega
    obtain ⟨t, hrun, ht⟩ := ih (j + 1) (by omega) (h.next hpos hfront (by omega))
    refine ⟨t, ?_, ht⟩
    rw [show 16 * 2 ^ (j + 1) = 16 * 2 ^ j * 2 by rw [Nat.pow_succ, Nat.mul_assoc]] at hrun
    rw [show left + 1 + 4 = (left + 4) + 1 by omega, malloc_init_loop, if_pos hsmall, Exec.bind_run Exec.get_run,
      Exec.bind_run (Exec.modify_run _), Exec.bind_run (Exec.ASSERT_run hroom _),
        Exec.bind_run (assign_run _ _)]
    rw [← hrun, h.desc_cnt, h.array]
    rfl

/-- What `malloc_init` leaves. -/
theorem malloc_init_run {p : State} (hp : Inv ram_pages n p []) (hram : ram_pages ≤ 16384) (hpos : 0 < descs)
    (hfront : descs + sizeof_desc * 10 ≤ free_start) :
    ∃ s, malloc_init ⟨p, descs, 0, []⟩ = .ok ((), s) ∧ IsWhole ram_pages n s [] [] := by
  have hstart : Initialized ram_pages n descs ⟨p, descs, 0, []⟩ 0 :=
    ⟨hp, rfl, rfl, rfl, fun k hk => absurd hk (Nat.not_lt_zero _), fun k hk => absurd hk (Nat.not_lt_zero _),
      fun k hk => absurd hk (Nat.not_lt_zero _), fun k hk => absurd hk (Nat.not_lt_zero _)⟩
  obtain ⟨s, hrun, h⟩ := malloc_init_loop_run hpos hfront 7 0 (Nat.zero_add 7) hstart
  have hne : ∀ k : Fin 7, (free_lists descs k).head ≠ (free_lists descs k).tail := by
    intro k heq
    simp only [free_lists, desc.free_list, ram.list_at, ram.sizeof_list_elem] at heq
    omega
  have hlists : WellFormed (ram.links_of s.palloc.mem) (free_lists descs) fun _ => [] := by
    refine ⟨?_, ?_, ?_, ?_, ?_⟩
    · intro k
      refine List.isChain_pair.mpr ⟨?_, ?_⟩
      · rw [h.head k k.isLt]
      · rw [h.tail k k.isLt]
    · intro k
      rw [h.head k k.isLt]
    · intro k
      rw [h.tail k k.isLt]
    · intro k
      simpa [nodes] using hne k
    · intro k l x hk hl
      have hklt := k.isLt
      have hllt := l.isLt
      simp only [nodes, List.cons_append, List.nil_append, List.mem_cons, List.not_mem_nil,
        or_false, free_lists,
        desc.free_list, ram.list_at, ram.sizeof_list_elem, desc_at, sizeof_desc] at hk hl
      exact Fin.ext (by omega)
  refine ⟨s, hrun, [], fun _ => [], fun _ => 0, ⟨⟨?_, hram, ?_,
    by simp, h.array ▸ hpos, h.array ▸ hfront, h.desc_cnt,
    ⟨?_, ?_, by simp, by simp, by simp⟩, h.array ▸ hlists,
    by simp⟩, by simp, by simp, by simp, by simp, List.nodup_nil⟩, by simp⟩
  · rw [h.arenas]
    exact h.palloc
  · rw [h.arenas]
    exact .nil
  · intro k
    rw [h.array]
    exact h.block_size k k.isLt
  · intro k
    rw [h.array]
    exact h.blocks_per_arena k k.isLt

/-- The heap does what it is for in every run, wherever the descriptors are in front of the
pools. -/
theorem heap_correct {m : Ram} {ax user_page_limit : Nat} {p : State}
    (hinit : palloc_init m (init_ram_pages ax) user_page_limit = .ok p) (hpos : 0 < descs)
    (hfront : descs + sizeof_desc * 10 ≤ free_start) :
    ∃ s₀, malloc_init ⟨p, descs, 0, []⟩ = .ok ((), s₀) ∧ ∀ s live others, HeapRun s₀ s live others →
      ∃ free_list, HeapCorrect (init_ram_pages ax) s live others free_list := by
  obtain ⟨n, hp⟩ := palloc_init_run hinit
  obtain ⟨s₀, hrun, hwhole⟩ := malloc_init_run hp (init_ram_pages_range ax).2 hpos hfront
  refine ⟨s₀, hrun, ?_⟩
  intro s live others hheap
  obtain ⟨as, seq, cnt, h⟩ := hheap.whole hwhole
  exact h.correct

/-- The smallest machine, with the descriptors in the first page of the kernel. -/
theorem heap_correct_smallest : ∃ p, palloc_init (fun _ => 0) (init_ram_pages 8) 1 = .ok p ∧
    ∃ s₀, malloc_init ⟨p, 0xc0020000, 0, []⟩ = .ok ((), s₀) ∧ ∀ s live others, HeapRun s₀ s live others →
      ∃ free_list, HeapCorrect (init_ram_pages 8) s live others free_list := by
  obtain ⟨p, hinit⟩ : ∃ p, palloc_init (fun _ => 0) (init_ram_pages 8) 1 = .ok p := ⟨_, rfl⟩
  exact ⟨p, hinit, heap_correct hinit (by decide) (by decide)⟩

end Init

end pintos.threads
