import Pintos.Threads.Arenas

/-!
# Steps of the memory allocator

Memory has the headers of the arenas, and free lists with blocks of the arenas. The steps
that the functions consist of keep this: taking pages and giving them back, storing a
count, and moving blocks into a list and out of it.
-/

open bytes state_error pintos.kernel

namespace pintos.threads

/-- The free lists. -/
def free_lists (descs : Nat) (k : Fin 7) : list Nat := desc.free_list (desc_at descs k)

/-- The values of the descriptors and the headers. -/
structure Headers (m : Ram) (descs : Nat) (as : List Arena) (cnt : Nat → Nat) : Prop where
  block_size : ∀ k : Fin 7, desc.block_size m (desc_at descs k) = size_of k
  blocks_per_arena : ∀ k : Fin 7, desc.blocks_per_arena m (desc_at descs k) = count_of k
  magic : ∀ a ∈ as, arena.magic m a.page = ARENA_MAGIC
  desc : ∀ a ∈ as, arena.desc m a.page = a.desc descs
  free_cnt : ∀ a ∈ as, arena.free_cnt m a.page = cnt a.page

/-- What holds at every step: the arenas `as` have the counts `cnt` in their headers, and
the free lists have the elements `seq`. -/
structure Core (ram_pages : Nat) (n : Bool → Nat) (others : List Block) (s : Heap) (as : List Arena)
    (seq : Fin 7 → List Nat) (cnt : Nat → Nat) : Prop where
  palloc : Inv ram_pages n s.palloc (s.arenas ++ others)
  ram_pages : ram_pages ≤ 16384
  arenas : s.arenas.Perm (as.map Arena.pages)
  small : ∀ a ∈ as, ∀ k, a.kind = some k → a.cnt = 1
  pos : 0 < s.descs
  front : s.descs + sizeof_desc * 10 ≤ free_start
  desc_cnt : s.desc_cnt = 7
  headers : Headers s.palloc.mem s.descs as cnt
  lists : WellFormed (ram.links_of s.palloc.mem) (free_lists s.descs) seq
  elems : ∀ k c, c ∈ seq k → ∃ a ∈ as, a.kind = some k ∧ c ∈ a.blocks

section Words

variable {m m' : Ram} {descs : Nat} {as : List Arena} {cnt : Nat → Nat}

theorem Headers.congr (h : Headers m descs as cnt) (hm : ∀ x, Fixed descs as x → m' x = m x) :
    Headers m' descs as cnt := by
  have hdesc : ∀ (k : Fin 7) ofs, ofs + 4 ≤ 8 → word m' (desc_at descs k + ofs) =
      word m (desc_at descs k + ofs) := by
    intro k ofs hofs
    apply word_congr
    intro i hi
    exact hm _ (Or.inl ⟨k, by omega, by omega⟩)
  have harena : ∀ a ∈ as, ∀ ofs, ofs + 4 ≤ sizeof_arena → word m' (a.page + ofs) = word m (a.page + ofs) := by
    intro a ha ofs hofs
    apply word_congr
    intro i hi
    exact hm _ (Or.inr ⟨a, ha, by omega, by omega⟩)
  refine ⟨?_, ?_, ?_, ?_, ?_⟩
  · intro k
    exact (hdesc k 0 (by omega)).trans (h.block_size k)
  · intro k
    exact (hdesc k 4 (by omega)).trans (h.blocks_per_arena k)
  · intro a ha
    exact (harena a ha 0 (by decide)).trans (h.magic a ha)
  · intro a ha
    exact (harena a ha 4 (by decide)).trans (h.desc a ha)
  · intro a ha
    exact (harena a ha 8 (by decide)).trans (h.free_cnt a ha)

end Words

variable {ram_pages : Nat} {n : Bool → Nat} {others : List Block} {s t : Heap} {as : List Arena} {a : Arena}
  {seq seq' : Fin 7 → List Nat} {cnt : Nat → Nat} {b x : Nat} {k : Fin 7} {m' : Ram}

section Layout

theorem Core.mem_arenas (h : Core ram_pages n others s as seq cnt) (ha : a ∈ as) : a.pages ∈ s.arenas :=
  h.arenas.mem_iff.mpr (List.mem_map_of_mem ha)

theorem Core.arranged (h : Core ram_pages n others s as seq cnt) : Arranged s.descs as := by
  refine ⟨h.pos, h.front, ?_, ?_⟩
  · intro a ha
    obtain ⟨u, hin⟩ := h.palloc.placed a.pages (List.mem_append_left _ (h.mem_arenas ha))
    obtain ⟨hlow, hhigh⟩ := hin.range
    obtain ⟨i, hpages, hi, hcnt⟩ := hin
    obtain ⟨hfalse, hbetween, htrue⟩ := h.palloc.order
    have hfirst := h.palloc.first
    have hlast := h.palloc.last
    have halign := h.palloc.aligned u
    have hram := h.ram_pages
    have hend : free_end ram_pages = ram_pages * 4096 + 0xc0000000 := rfl
    simp only [Arena.pages] at hlow hhigh hpages hcnt
    refine ⟨?_, ?_, ?_, hcnt, h.small a ha⟩
    · cases u <;> omega
    · cases u <;> omega
    · rw [hpages]
      rw [PGSIZE] at *
      omega
  · have happart := (List.pairwise_append.mp h.palloc.apart).1
    exact List.pairwise_map.mp ((h.arenas.pairwise_iff fun h => Block.Apart.symm h).mp happart)

/-- The nodes of the free lists. -/
theorem Core.member_node (h : Core ram_pages n others s as seq cnt) (hx : Member (free_lists s.descs) seq x) :
    Node s.descs as x := by
  obtain ⟨k, hk⟩ := hx
  obtain rfl | hk | rfl := mem_nodes.mp hk
  · exact Or.inl ⟨k, Or.inl rfl⟩
  · obtain ⟨a, ha, hkind, hblock⟩ := h.elems k x hk
    exact Or.inr ⟨a, ha, by simp [hkind], hblock⟩
  · exact Or.inl ⟨k, Or.inr rfl⟩

theorem Kept.append {live : List Block} (h : Kept live x) (others : List Block) : Kept (live ++ others) x :=
  h.imp_right fun ⟨a, ha, hx⟩ => ⟨a, List.mem_append_left _ ha, hx⟩

/-- The pages of an arena belong to it. -/
theorem Core.kept_of_block (h : Core ram_pages n others s as seq cnt) (ha : a ∈ as) (hb : b ∈ a.blocks)
    (hlow : b ≤ x) (hhigh : x < b + a.block_size) : Kept s.arenas x := by
  obtain ⟨hstart, hend⟩ := (h.arranged.valid a ha).block_inside hb
  refine Or.inr ⟨a.pages, h.mem_arenas ha, ?_, ?_⟩
  · simp only [Arena.pages]
    omega
  · simp only [Arena.pages]
    omega

theorem Core.kept_of_header (h : Core ram_pages n others s as seq cnt) (ha : a ∈ as) (hlow : a.page ≤ x)
    (hhigh : x < a.page + sizeof_arena) : Kept s.arenas x := by
  have hcnt := (h.arranged.valid a ha).cnt
  refine Or.inr ⟨a.pages, h.mem_arenas ha, hlow, ?_⟩
  simp only [Arena.pages]
  rw [PGSIZE]
  rw [sizeof_arena] at hhigh
  omega

theorem Core.kept_of_fixed (h : Core ram_pages n others s as seq cnt) (hx : Fixed s.descs as x) :
    Kept s.arenas x := by
  obtain ⟨k, hlow, hhigh⟩ | ⟨a, ha, hlow, hhigh⟩ := hx
  · have hk := k.isLt
    have hfront := h.front
    left
    simp only [desc_at, sizeof_desc] at *
    omega
  · exact h.kept_of_header ha hlow hhigh

theorem Core.kept_of_node (h : Core ram_pages n others s as seq cnt) (hx : ¬ ram.Outside (Node s.descs as) x) :
    Kept s.arenas x := by
  simp only [ram.Outside, not_forall, not_or, Nat.not_lt, Nat.not_le] at hx
  obtain ⟨y, ⟨k, hy⟩ | ⟨a, ha, -, hy⟩, hlow, hhigh⟩ := hx
  · have hk := k.isLt
    have hfront := h.front
    left
    simp only [desc_at, sizeof_desc, ram.sizeof_list_elem] at *
    omega
  · have hsize := a.block_size_pos (h.arranged.valid a ha).cnt
    rw [ram.sizeof_list_elem] at hhigh
    exact h.kept_of_block ha hy hlow (by omega)

end Layout

section Memory

/-- Memory may change where the allocator has nothing. -/
theorem Core.write (h : Core ram_pages n others s as seq cnt)
    (hkept : ∀ x, ¬ Kept (s.arenas ++ others) x → m' x = s.palloc.mem x)
    (hfixed : ∀ x, Fixed s.descs as x → m' x = s.palloc.mem x)
    (hnodes : ∀ x, ¬ ram.Outside (Member (free_lists s.descs) seq) x → m' x = s.palloc.mem x) :
    Core ram_pages n others (s.set_mem m') as seq cnt := by
  refine ⟨h.palloc.write_kept hkept, h.ram_pages, h.arenas, h.small, h.pos, h.front, h.desc_cnt,
    h.headers.congr hfixed, h.lists.congr ?_, h.elems⟩
  intro a ha
  apply ram.links_of_congr
  intro x hlow hhigh
  apply hnodes
  intro houtside
  have hxa := houtside a ha
  omega

/-- The other allocations are elsewhere. -/
theorem Core.kept_not_other (h : Core ram_pages n others s as seq cnt) (hx : Kept s.arenas x) {o : Block}
    (ho : o ∈ others) : ¬ o.covers x := by
  have hperm : (s.arenas ++ others).Perm (o :: (s.arenas ++ others.erase o)) :=
    ((List.perm_cons_erase ho).append_left s.arenas).trans List.perm_middle
  exact (h.palloc.perm hperm).kept_not_covers (hx.append _)

theorem Core.nodup (h : Core ram_pages n others s as seq cnt) : as.Nodup := by
  refine h.arranged.apart.imp_of_mem ?_
  rintro x y hx - happart rfl
  have hcnt := (h.arranged.valid x hx).cnt
  simp only [Block.Apart, Arena.pages] at happart
  rw [PGSIZE] at happart
  omega

/-- The page allocator may do what it wants elsewhere. -/
theorem Core.other_pages (h : Core ram_pages n others s as seq cnt) {p : State} {others' : List Block}
    (hinv : Inv ram_pages n p (s.arenas ++ others')) (hkept : ∀ x, Kept s.arenas x → p.mem x = s.palloc.mem x) :
    Core ram_pages n others' { s with palloc := p } as seq cnt := by
  refine ⟨hinv, h.ram_pages, h.arenas, h.small, h.pos, h.front, h.desc_cnt, h.headers.congr ?_,
    h.lists.congr ?_,
    h.elems⟩
  · intro x hx
    exact hkept x (h.kept_of_fixed hx)
  · intro a ha
    apply ram.links_of_congr
    intro x hlow hhigh
    apply hkept
    apply h.kept_of_node
    intro houtside
    have hxa := houtside a (h.member_node ha)
    omega

/-- The free lists are linked anew. -/
theorem Core.relink (h : Core ram_pages n others s as seq cnt)
    (hlists : WellFormed (ram.links_of m') (free_lists s.descs) seq')
    (hframe : ∀ x, ram.Outside (Node s.descs as) x → m' x = s.palloc.mem x)
    (helems : ∀ k c, c ∈ seq' k → ∃ a ∈ as, a.kind = some k ∧ c ∈ a.blocks) :
    Core ram_pages n others (s.set_mem m') as seq' cnt := by
  refine ⟨h.palloc.write_kept ?_, h.ram_pages, h.arenas, h.small, h.pos, h.front, h.desc_cnt,
    h.headers.congr ?_, hlists, helems⟩
  · intro x hx
    apply hframe
    by_contra hnode
    exact hx ((h.kept_of_node hnode).append others)
  · intro x hx
    exact hframe x (h.arranged.fixed_outside hx)

/-- A count is stored. -/
theorem Core.store_free_cnt (h : Core ram_pages n others s as seq cnt) (ha : a ∈ as) {v : Nat}
    (hv : v < 2 ^ 32) :
    Core ram_pages n others (s.set_mem (store_word s.palloc.mem (a.page + 8) v)) as seq
      (Function.update cnt a.page v) := by
  have hheader : ∀ x, a.page + 8 ≤ x → x < a.page + 12 → Fixed s.descs as x := fun x hlow hhigh =>
    Or.inr ⟨a, ha, by omega, by rw [sizeof_arena]; omega⟩
  have hother : ∀ x, ¬ Fixed s.descs as x → store_word s.palloc.mem (a.page + 8) v x = s.palloc.mem x := by
    intro x hx
    apply store_word_outside
    by_contra hin
    exact hx (hheader x (by omega) (by omega))
  have hdesc : ∀ (k : Fin 7) ofs, ofs + 4 ≤ 8 →
      word (store_word s.palloc.mem (a.page + 8) v) (desc_at s.descs k + ofs) =
        word s.palloc.mem (desc_at s.descs k + ofs) := by
    intro k ofs hofs
    have hk := k.isLt
    have hfront := h.front
    have hfirst := (h.arranged.valid a ha).first
    apply word_store_word_ne
    simp only [desc_at, sizeof_desc] at *
    omega
  have harena : ∀ a' ∈ as, ∀ ofs, ofs + 4 ≤ 8 → word (store_word s.palloc.mem (a.page + 8) v) (a'.page + ofs) =
      word s.palloc.mem (a'.page + ofs) := by
    intro a' ha' ofs hofs
    apply word_store_word_ne
    have halign := (h.arranged.valid a ha).aligned
    have halign' := (h.arranged.valid a' ha').aligned
    rw [PGSIZE] at halign halign'
    omega
  refine ⟨h.palloc.write_kept ?_, h.ram_pages, h.arenas, h.small, h.pos, h.front, h.desc_cnt,
    ⟨?_, ?_, ?_, ?_, ?_⟩,
    h.lists.congr ?_, h.elems⟩
  · intro x hx
    exact hother x fun hfixed => hx ((h.kept_of_fixed hfixed).append others)
  · intro k
    exact (hdesc k 0 (by omega)).trans (h.headers.block_size k)
  · intro k
    exact (hdesc k 4 (by omega)).trans (h.headers.blocks_per_arena k)
  · intro a' ha'
    exact (harena a' ha' 0 (by omega)).trans (h.headers.magic a' ha')
  · intro a' ha'
    exact (harena a' ha' 4 (by omega)).trans (h.headers.desc a' ha')
  · intro a' ha'
    obtain heq | hne := eq_or_ne a'.page a.page
    · rw [heq, Function.update_self]
      exact word_store_word _ _ hv
    · rw [Function.update_of_ne hne, ← h.headers.free_cnt a' ha']
      apply word_store_word_ne
      have halign := (h.arranged.valid a ha).aligned
      have halign' := (h.arranged.valid a' ha').aligned
      rw [PGSIZE] at halign halign'
      omega
  · intro y hy
    apply ram.links_of_congr
    intro x hlow hhigh
    apply hother
    intro hfixed
    have hout := h.arranged.fixed_outside hfixed y (h.member_node hy)
    omega

end Memory

section Lists

theorem Core.placed (h : Core ram_pages n others s as seq cnt) : ram.Placed (Member (free_lists s.descs) seq) :=
  h.arranged.placed.mono fun _ hx => h.member_node hx

theorem Core.placed_with (h : Core ram_pages n others s as seq cnt) (ha : a ∈ as) (hk : a.kind = some k)
    (hb : b ∈ a.blocks) : ram.Placed (ram.WithNode (free_lists s.descs) seq b) := by
  apply h.arranged.placed.mono
  rintro x (rfl | hx)
  · exact Or.inr ⟨a, ha, by simp [hk], hb⟩
  · exact h.member_node hx

/-- The bytes outside all nodes. -/
theorem Core.outside (h : Core ram_pages n others s as seq cnt) (hx : ram.Outside (Node s.descs as) x) :
    ram.Outside (Member (free_lists s.descs) seq) x :=
  fun y hy => hx y (h.member_node hy)

theorem Core.outside_with (h : Core ram_pages n others s as seq cnt) (ha : a ∈ as) (hk : a.kind = some k)
    (hb : b ∈ a.blocks) (hx : ram.Outside (Node s.descs as) x) :
    ram.Outside (ram.WithNode (free_lists s.descs) seq b) x := by
  rintro y (rfl | hy)
  · exact hx y (Or.inr ⟨a, ha, by simp [hk], hb⟩)
  · exact hx y (h.member_node hy)

/-- A block that is in no list. -/
theorem Core.fresh (h : Core ram_pages n others s as seq cnt) (ha : a ∈ as) (hk : a.kind = some k)
    (hb : b ∈ a.blocks) (hnew : b ∉ seq k) : Fresh (free_lists s.descs) seq b := by
  intro j hj
  have hrange := (h.arranged.block_range ha hb).1
  have hjlt := j.isLt
  obtain hj | hj | hj := mem_nodes.mp hj
  · simp only [free_lists, desc.free_list, ram.list_at, desc_at, sizeof_desc, sizeof_arena] at *
    omega
  · obtain ⟨a', ha', hk', hb'⟩ := h.elems j b hj
    obtain rfl := h.arranged.arena_unique ha ha' hb hb'
    obtain rfl := Option.some.inj (hk.symm.trans hk')
    exact hnew hj
  · simp only [free_lists, desc.free_list, ram.list_at, ram.sizeof_list_elem, desc_at, sizeof_desc,
      sizeof_arena] at *
    omega

theorem elems_update {elems : List Nat} (h : ∀ k c, c ∈ seq k → ∃ a ∈ as, a.kind = some k ∧ c ∈ a.blocks)
    (hnew : ∀ c ∈ elems, c ∈ seq k ∨ ∃ a ∈ as, a.kind = some k ∧ c ∈ a.blocks) (j : Fin 7) (c : Nat)
    (hc : c ∈ Function.update seq k elems j) : ∃ a ∈ as, a.kind = some j ∧ c ∈ a.blocks := by
  obtain rfl | hne := eq_or_ne j k
  · rw [Function.update_self] at hc
    exact (hnew c hc).elim (h j c) id
  · rw [Function.update_of_ne hne] at hc
    exact h j c hc

theorem Core.push_front (h : Core ram_pages n others s as seq cnt) (ha : a ∈ as) (hk : a.kind = some k)
    (hb : b ∈ a.blocks) (hnew : b ∉ seq k) :
    ∃ m', ram.list_push_front s.palloc.mem (free_lists s.descs k) b = some m' ∧
      Core ram_pages n others (s.set_mem m') as (Function.update seq k (b :: seq k)) cnt := by
  obtain ⟨m', hrun, hlists, hframe⟩ := ram.list_push_front_run (i := k) h.lists (h.placed_with ha hk hb)
    (h.fresh ha hk hb hnew)
  refine ⟨m', hrun, h.relink hlists (fun x hx => hframe x (h.outside_with ha hk hb hx))
    (elems_update h.elems ?_)⟩
  intro c hc
  obtain rfl | hc := List.mem_cons.mp hc
  · exact Or.inr ⟨a, ha, hk, hb⟩
  · exact Or.inl hc

theorem Core.push_back (h : Core ram_pages n others s as seq cnt) (ha : a ∈ as) (hk : a.kind = some k)
    (hb : b ∈ a.blocks) (hnew : b ∉ seq k) :
    ∃ m', ram.list_push_back s.palloc.mem (free_lists s.descs k) b = some m' ∧
      Core ram_pages n others (s.set_mem m') as (Function.update seq k (seq k ++ [b])) cnt := by
  obtain ⟨m', hrun, hlists, hframe⟩ := ram.list_push_back_run (i := k) h.lists (h.placed_with ha hk hb)
    (h.fresh ha hk hb hnew)
  refine ⟨m', hrun, h.relink hlists (fun x hx => hframe x (h.outside_with ha hk hb hx))
    (elems_update h.elems ?_)⟩
  intro c hc
  obtain hc | hc := List.mem_append.mp hc
  · exact Or.inl hc
  · obtain rfl := List.mem_singleton.mp hc
    exact Or.inr ⟨a, ha, hk, hb⟩

theorem Core.remove (h : Core ram_pages n others s as seq cnt) {pre after : List Nat}
    (hseq : seq k = pre ++ b :: after) :
    ∃ m' next, ram.list_remove s.palloc.mem b = some (m', next) ∧
      Core ram_pages n others (s.set_mem m') as (Function.update seq k (pre ++ after)) cnt := by
  obtain ⟨m', hrun, hlists, hframe⟩ := ram.list_remove_run h.lists h.placed hseq
  refine ⟨m', _, hrun, h.relink hlists (fun x hx => hframe x (h.outside hx)) (elems_update h.elems ?_)⟩
  intro c hc
  left
  rw [hseq]
  simp only [List.mem_append, List.mem_cons] at hc ⊢
  tauto

theorem Core.pop_front (h : Core ram_pages n others s as seq cnt) {after : List Nat}
    (hseq : seq k = b :: after) :
    ∃ m', ram.list_pop_front s.palloc.mem (free_lists s.descs k) = some (m', b) ∧
      Core ram_pages n others (s.set_mem m') as (Function.update seq k after) cnt := by
  obtain ⟨m', hrun, hlists, hframe⟩ := ram.list_pop_front_run h.lists h.placed hseq
  refine ⟨m', hrun, h.relink hlists (fun x hx => hframe x (h.outside hx)) (elems_update h.elems ?_)⟩
  intro c hc
  exact Or.inl (hseq ▸ List.mem_cons_of_mem b hc)

end Lists

section Blocks

/-- The arena of a block. -/
theorem Core.block_to_arena (h : Core ram_pages n others s as seq cnt) (ha : a ∈ as) (hb : b ∈ a.blocks) :
    block_to_arena b s = .ok (a.page, s) := by
  have hvalid := h.arranged.valid a ha
  have hfirst := hvalid.first
  have hstart : free_start = 0xc0100000 := rfl
  obtain ⟨hround, hofs⟩ := hvalid.block_page hb
  have hmagic := h.headers.magic a ha
  have hdesc := h.headers.desc a ha
  have hnull : pg_round_down b ≠ 0 := by omega
  rw [threads.block_to_arena, Exec.bind_run (Exec.ASSERT_run hnull _)]
  rw [hround] at *
  have hmem : memory s = .ok (s.palloc.mem, s) := rfl
  rw [Exec.bind_run hmem, Exec.bind_run (Exec.ASSERT_run hmagic _)]
  rw [hdesc]
  cases hk : a.kind with
  | none =>
    obtain rfl := (Arena.mem_blocks_big hk).mp hb
    have hzero : a.desc s.descs = 0 := by simp only [Arena.desc, hk]
    rw [hzero, Exec.bind_run (Exec.ASSERT_run (Or.inl rfl) _),
      Exec.bind_run (Exec.ASSERT_run (Or.inr (by omega)) _)]
    rfl
  | some k =>
    have hd : a.desc s.descs = desc_at s.descs k := by simp only [Arena.desc, hk]
    have hpos := h.pos
    have hmod : (pg_ofs b + 2 ^ 32 - sizeof_arena) % 2 ^ 32 % desc.block_size s.palloc.mem
        (desc_at s.descs k) = 0 := by
      obtain ⟨i, hi, rfl⟩ := (Arena.mem_blocks hk).mp hb
      have hfit := blocks_fit hi
      rw [h.headers.block_size k, hofs]
      have heq : (a.page + sizeof_arena + i * size_of k - a.page + 2 ^ 32 - sizeof_arena) % 2 ^ 32 =
          i * size_of k := by
        rw [PGSIZE, sizeof_arena] at *
        omega
      rw [heq]
      exact Nat.mul_mod_left _ _
    have hne : desc_at s.descs k ≠ 0 := by
      rw [desc_at]
      omega
    rw [hd, Exec.bind_run (Exec.ASSERT_run (Or.inr hmod) _), Exec.bind_run (Exec.ASSERT_run (Or.inl hne) _)]
    rfl

/-- The blocks of an arena, by their index. -/
theorem Core.arena_to_block (h : Core ram_pages n others s as seq cnt) (ha : a ∈ as)
    (hk : a.kind = some k) {i : Nat} (hi : i < count_of k) :
    arena_to_block a.page i s = .ok (a.block k i, s) := by
  have hfirst := (h.arranged.valid a ha).first
  have hstart : free_start = 0xc0100000 := rfl
  have hnull : a.page ≠ 0 := by omega
  have hd : arena.desc s.palloc.mem a.page = desc_at s.descs k := by
    rw [h.headers.desc a ha]
    simp only [Arena.desc, hk]
  have hidx : i < desc.blocks_per_arena s.palloc.mem (arena.desc s.palloc.mem a.page) := by
    rwa [hd, h.headers.blocks_per_arena k]
  have hmem : memory s = .ok (s.palloc.mem, s) := rfl
  rw [threads.arena_to_block, Exec.bind_run (Exec.ASSERT_run hnull _), Exec.bind_run hmem,
    Exec.bind_run (Exec.ASSERT_run (h.headers.magic a ha) _), Exec.bind_run (Exec.ASSERT_run hidx _), hd,
    h.headers.block_size k]
  rfl

end Blocks

section Pages

/-- Pages were taken. -/
structure Taken (ram_pages : Nat) (n : Bool → Nat) (others : List Block) (s t : Heap)
    (page page_cnt : Nat) : Prop where
  palloc : Inv ram_pages n t.palloc (⟨page, page_cnt⟩ :: (s.arenas ++ others))
  arenas : t.arenas = ⟨page, page_cnt⟩ :: s.arenas
  descs : t.descs = s.descs
  desc_cnt : t.desc_cnt = s.desc_cnt
  cnt : 0 < page_cnt
  kept : ∀ x, Kept (s.arenas ++ others) x → t.palloc.mem x = s.palloc.mem x

/-- What was there before is not in the new pages. -/
theorem Taken.outside {page page_cnt : Nat} (ht : Taken ram_pages n others s t page page_cnt)
    (hx : Kept (s.arenas ++ others) x) : x < page ∨ page + sizeof_arena ≤ x := by
  have hnot := ht.palloc.kept_not_covers hx
  have hcnt := ht.cnt
  by_contra hin
  apply hnot
  simp only [Block.covers]
  rw [PGSIZE]
  rw [sizeof_arena] at hin
  omega

theorem Core.get_pages (h : Core ram_pages n others s as seq cnt) {page_cnt : Nat} (hcnt : 0 < page_cnt) :
    (∃ page t, get_pages page_cnt s = .ok (some page, t) ∧ Taken ram_pages n others s t page page_cnt) ∨
      get_pages page_cnt s = .ok (none, s) := by
  obtain ⟨p, idx, hrun, -, hinv, -, hkept⟩ | ⟨hrun, -⟩ :=
    palloc_get_multiple_run h.palloc ⟨false, false, false⟩ hcnt
  · left
    obtain ⟨page, hpage⟩ : ∃ page, page = (s.palloc.pool false).base + PGSIZE * idx := ⟨_, rfl⟩
    simp only [← hpage] at hrun hinv
    refine ⟨page, { s with palloc := p, arenas := ⟨page, page_cnt⟩ :: s.arenas }, ?_, hinv, rfl, rfl,
      rfl, hcnt, hkept⟩
    rw [threads.get_pages, hrun]
    rfl
  · right
    rw [threads.get_pages, hrun]
    rfl

/-- The header of a new arena. -/
def new_header (m : Ram) (page d v : Nat) : Ram :=
  store_word (store_word (store_word m page ARENA_MAGIC) (page + 4) d) (page + 8) v

theorem new_header_outside {m : Ram} {page d v : Nat} (h : x < page ∨ page + sizeof_arena ≤ x) :
    new_header m page d v x = m x := by
  rw [sizeof_arena] at h
  rw [new_header, store_word_outside (by omega), store_word_outside (by omega), store_word_outside (by omega)]

theorem new_header_words (m : Ram) (page : Nat) {d v : Nat} (hd : d < 2 ^ 32) (hv : v < 2 ^ 32) :
    arena.magic (new_header m page d v) page = ARENA_MAGIC ∧ arena.desc (new_header m page d v) page = d ∧
      arena.free_cnt (new_header m page d v) page = v := by
  refine ⟨?_, ?_, ?_⟩
  · rw [arena.magic, new_header, word_store_word_ne _ (by omega), word_store_word_ne _ (by omega)]
    exact word_store_word _ _ (by decide)
  · rw [arena.desc, new_header, word_store_word_ne _ (by omega)]
    exact word_store_word _ _ hd
  · exact word_store_word _ _ hv

/-- The pages become an arena. -/
theorem Core.add_arena (h : Core ram_pages n others s as seq cnt) {page page_cnt v : Nat}
    (ht : Taken ram_pages n others s t page page_cnt) (kind : Option (Fin 7))
    (hsmall : ∀ k, kind = some k → page_cnt = 1) (hv : v < 2 ^ 32) :
    Core ram_pages n others
      (t.set_mem (new_header t.palloc.mem page (Arena.desc s.descs ⟨page, page_cnt, kind⟩) v))
      (⟨page, page_cnt, kind⟩ :: as) seq (Function.update cnt page v) := by
  have hsame : ∀ x, Kept (s.arenas ++ others) x →
      new_header t.palloc.mem page (Arena.desc s.descs ⟨page, page_cnt, kind⟩) v x = s.palloc.mem x := by
    intro x hx
    rw [new_header_outside (ht.outside hx), ht.kept x hx]
  have hdesc : Arena.desc s.descs ⟨page, page_cnt, kind⟩ < 2 ^ 32 := by
    have hfront := h.front
    have hstart : free_start = 0xc0100000 := rfl
    cases kind with
    | none => exact Nat.two_pow_pos 32
    | some k =>
      have hk := k.isLt
      simp only [Arena.desc, desc_at, sizeof_desc] at *
      omega
  have hold : ∀ a ∈ as, a.page ≠ page := by
    intro a ha heq
    have houtside := ht.outside ((h.kept_of_header ha (Nat.le_refl _)
        (by rw [sizeof_arena]; omega)).append others)
    rw [sizeof_arena] at houtside
    omega
  have hheaders := h.headers.congr fun x hx => hsame x ((h.kept_of_fixed hx).append others)
  obtain ⟨hmagic, hnewdesc, hcnt⟩ := new_header_words t.palloc.mem page hdesc hv
  refine ⟨?_, h.ram_pages, ?_, ?_, ht.descs ▸ h.pos, ht.descs ▸ h.front, ht.desc_cnt.trans h.desc_cnt,
    ⟨?_, ?_, ?_, ?_, ?_⟩, ?_, ?_⟩
  · have hinv := ht.palloc
    rw [← List.cons_append, ← ht.arenas] at hinv
    refine hinv.write_kept ?_
    intro x hx
    apply new_header_outside
    by_contra hin
    apply hx
    rw [ht.arenas]
    have hpages := ht.cnt
    refine Or.inr ⟨_, List.mem_cons_self, ?_⟩
    simp only [Block.covers]
    rw [PGSIZE]
    rw [sizeof_arena] at hin
    omega
  · rw [Heap.set_mem, ht.arenas]
    exact h.arenas.cons _
  · intro a ha k hk
    obtain rfl | ha := List.mem_cons.mp ha
    · exact hsmall k hk
    · exact h.small a ha k hk
  · exact fun k => (congrArg (fun d => desc.block_size _ (desc_at d k)) ht.descs).trans (hheaders.block_size k)
  · exact fun k =>
      (congrArg (fun d => desc.blocks_per_arena _ (desc_at d k)) ht.descs).trans (hheaders.blocks_per_arena k)
  · intro a ha
    obtain rfl | ha := List.mem_cons.mp ha
    · exact hmagic
    · exact hheaders.magic a ha
  · intro a ha
    rw [Heap.set_mem, ht.descs]
    obtain rfl | ha := List.mem_cons.mp ha
    · exact hnewdesc
    · exact hheaders.desc a ha
  · intro a ha
    obtain rfl | ha := List.mem_cons.mp ha
    · rw [Function.update_self]
      exact hcnt
    · rw [Function.update_of_ne (hold a ha)]
      exact hheaders.free_cnt a ha
  · rw [Heap.set_mem, ht.descs]
    refine h.lists.congr fun y hy => ram.links_of_congr fun x hlow hhigh =>
      hsame x ((h.kept_of_node fun hout => ?_).append others)
    have hxy := hout y (h.member_node hy)
    omega
  · intro k c hc
    obtain ⟨a, ha, hk, hb⟩ := h.elems k c hc
    exact ⟨a, List.mem_cons_of_mem _ ha, hk, hb⟩

/-- An arena without nodes is given back. -/
theorem Core.free_pages (h : Core ram_pages n others s as seq cnt) (ha : a ∈ as)
    (hnone : ∀ k, ∀ b ∈ a.blocks, b ∉ seq k) :
    ∃ t, free_pages a.page a.cnt s = .ok ((), t) ∧ Core ram_pages n others t (as.erase a) seq cnt ∧
      t.descs = s.descs := by
  have hmem := h.mem_arenas ha
  obtain ⟨p, hrun, hinv, -, hkept⟩ := palloc_free_multiple_run h.palloc (List.mem_append_left others hmem)
  rw [List.erase_append_left _ hmem] at hinv hkept
  have hperm := List.perm_cons_erase ha
  have harenas : (s.arenas.erase a.pages).Perm ((as.erase a).map Arena.pages) := by
    have hall := (h.arenas.trans (hperm.map Arena.pages)).erase a.pages
    rwa [List.map_cons, List.erase_cons_head] at hall
  have hnodup := h.nodup
  -- The other arenas have other pages.
  have hsub : ∀ y, y ∈ as.erase a → y ∈ as ∧ y ≠ a := fun y hy =>
      ⟨List.mem_of_mem_erase hy, (hnodup.mem_erase_iff.mp hy).1⟩
  have hpages : ∀ y ∈ as.erase a, y.pages ∈ s.arenas.erase a.pages := fun y hy =>
    harenas.mem_iff.mpr (List.mem_map_of_mem hy)
  have hcovered : ∀ y ∈ as.erase a, ∀ x, y.page ≤ x → x < y.page + PGSIZE * y.cnt →
      Kept (s.arenas.erase a.pages ++ others) x := fun y hy x hlow hhigh =>
    Or.inr ⟨y.pages, List.mem_append_left _ (hpages y hy), hlow, hhigh⟩
  have helems : ∀ k c, c ∈ seq k → ∃ y ∈ as.erase a, y.kind = some k ∧ c ∈ y.blocks := by
    intro k c hc
    obtain ⟨y, hy, hk, hb⟩ := h.elems k c hc
    have hne : y ≠ a := by
      rintro rfl
      exact hnone k c hb hc
    exact ⟨y, hnodup.mem_erase_iff.mpr ⟨hne, hy⟩, hk, hb⟩
  have hfixed : ∀ x, Fixed s.descs (as.erase a) x → p.mem x = s.palloc.mem x := by
    rintro x (⟨k, hlow, hhigh⟩ | ⟨y, hy, hlow, hhigh⟩)
    · have hk := k.isLt
      have hfront := h.front
      apply hkept
      left
      simp only [desc_at, sizeof_desc] at *
      omega
    · have hcnt := (h.arranged.valid y (hsub y hy).1).cnt
      apply hkept
      apply hcovered y hy x hlow
      rw [PGSIZE]
      rw [sizeof_arena] at hhigh
      omega
  have hlinks : ∀ y, Member (free_lists s.descs) seq y → ram.links_of p.mem y =
      ram.links_of s.palloc.mem y := by
    rintro y ⟨k, hy⟩
    apply ram.links_of_congr
    intro x hlow hhigh
    apply hkept
    have hk := k.isLt
    have hfront := h.front
    obtain hy | hy | hy := mem_nodes.mp hy
    · left
      simp only [free_lists, desc.free_list, ram.list_at, desc_at, sizeof_desc, ram.sizeof_list_elem] at *
      omega
    · obtain ⟨z, hz, -, hb⟩ := helems k y hy
      have hvalid := h.arranged.valid z (hsub z hz).1
      have hsize := z.block_size_pos hvalid.cnt
      obtain ⟨hstart, hend⟩ := hvalid.block_inside hb
      rw [ram.sizeof_list_elem] at hhigh
      exact hcovered z hz x (by omega) (by omega)
    · left
      simp only [free_lists, desc.free_list, ram.list_at, desc_at, sizeof_desc, ram.sizeof_list_elem] at *
      omega
  have hheaders : Headers s.palloc.mem s.descs (as.erase a) cnt :=
    ⟨h.headers.block_size, h.headers.blocks_per_arena, fun y hy => h.headers.magic y (hsub y hy).1,
      fun y hy => h.headers.desc y (hsub y hy).1, fun y hy => h.headers.free_cnt y (hsub y hy).1⟩
  refine ⟨{ s with palloc := p, arenas := s.arenas.erase a.pages }, ?_, ?_, rfl⟩
  · change palloc_free_multiple a.page a.cnt s.palloc = .ok p at hrun
    rw [threads.free_pages, hrun]
    rfl
  · exact ⟨hinv, h.ram_pages, harenas, fun y hy => h.small y (hsub y hy).1, h.pos, h.front, h.desc_cnt,
      hheaders.congr hfixed, h.lists.congr hlinks, helems⟩

end Pages

end pintos.threads
