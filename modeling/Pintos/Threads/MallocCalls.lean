import Pintos.Threads.MallocSteps
import Mathlib.Data.List.Count

/-!
# Calls of the memory allocator

The free lists have exactly the blocks that are not live, the headers count them, and
every arena has a live block. Each function keeps this.
-/

open bytes state_error pintos.kernel

namespace pintos.threads

section Counting

variable {α : Type} [DecidableEq α] {l bs : List α}

/-- Common items are counted in either list. -/
theorem countP_mem_comm (hl : l.Nodup) (hbs : bs.Nodup) : l.countP (· ∈ bs) = bs.countP (· ∈ l) := by
  rw [List.countP_eq_length_filter, List.countP_eq_length_filter]
  apply List.Perm.length_eq
  rw [List.perm_ext_iff_of_nodup (hl.filter _) (hbs.filter _)]
  intro a
  simp only [List.mem_filter, decide_eq_true_eq, and_comm]

theorem countP_mem_le (hl : l.Nodup) (hbs : bs.Nodup) : l.countP (· ∈ bs) ≤ bs.length := by
  rw [countP_mem_comm hl hbs]
  exact List.countP_le_length

/-- All of `bs` is in `l` if as many items of `l` are in `bs`. -/
theorem countP_mem_eq_length (hl : l.Nodup) (hbs : bs.Nodup) : l.countP (· ∈ bs) = bs.length ↔
    ∀ b ∈ bs, b ∈ l := by
  rw [countP_mem_comm hl hbs, List.countP_eq_length]
  simp only [decide_eq_true_eq]

theorem countP_mem_eq_zero (h : ∀ b ∈ bs, b ∉ l) : l.countP (· ∈ bs) = 0 := by
  rw [List.countP_eq_zero]
  intro a ha
  simpa using fun hb => h a hb ha

end Counting

/-- The books are right: the lists have the blocks that are not live, and the headers
count them. -/
structure Books (ram_pages : Nat) (n : Bool → Nat) (others : List Block) (s : Heap) (as : List Arena)
    (seq : Fin 7 → List Nat) (cnt : Nat → Nat) (live : List Nat) : Prop where
  core : Core ram_pages n others s as seq cnt
  free_cnt : ∀ a ∈ as, ∀ k, a.kind = some k → cnt a.page = (seq k).countP (· ∈ a.blocks)
  big : ∀ a ∈ as, a.kind = none → cnt a.page = a.cnt
  free : ∀ a ∈ as, ∀ k, a.kind = some k → ∀ c ∈ a.blocks, (c ∈ seq k ↔ c ∉ live)
  placed : ∀ b ∈ live, ∃ a ∈ as, b ∈ a.blocks
  nodup : live.Nodup

/-- The invariant between calls. -/
structure Whole (ram_pages : Nat) (n : Bool → Nat) (others : List Block) (s : Heap) (as : List Arena)
    (seq : Fin 7 → List Nat) (cnt : Nat → Nat) (live : List Nat) : Prop where
  books : Books ram_pages n others s as seq cnt live
  used : ∀ a ∈ as, ∃ b ∈ a.blocks, b ∈ live

variable {ram_pages : Nat} {n : Bool → Nat} {others : List Block} {s t : Heap} {as : List Arena} {a : Arena}
  {seq : Fin 7 → List Nat} {cnt : Nat → Nat} {live : List Nat} {b : Nat} {k : Fin 7}

@[simp] theorem memory_run (s : Heap) : memory s = .ok (s.palloc.mem, s) := rfl

theorem assign_run (f : Ram → Ram) (s : Heap) : assign f s = .ok ((), s.set_mem (f s.palloc.mem)) := rfl

theorem on_lists_run {α : Type} {f : Ram → Option (Ram × α)} {m : Ram} {r : α}
    (h : f s.palloc.mem = some (m, r)) : on_lists f s = .ok (r, s.set_mem m) := by
  rw [on_lists, h]
  rfl

section Search

/-- The search finds a descriptor with blocks that are big enough, unless there is none. -/
theorem find_desc_run {m : Ram} {descs : Nat} (hsizes : ∀ k : Fin 7,
    desc.block_size m (desc_at descs k) = size_of k)
    (size : Nat) : ∀ left j, j + left = 7 →
      (∃ k : Fin 7, size ≤ size_of k ∧ find_desc m size left (desc_at descs j) = desc_at descs k) ∨
        ((∀ k : Fin 7, j ≤ k.val → size_of k < size) ∧ find_desc m size left (desc_at descs j) =
        desc_at descs 7) := by
  intro left
  induction left with
  | zero =>
    intro j hj
    right
    refine ⟨fun k hk => ?_, by rw [← hj]; rfl⟩
    have hlt := k.isLt
    omega
  | succ left ih =>
    intro j hj
    have hsize := hsizes ⟨j, by omega⟩
    rw [find_desc, hsize]
    by_cases hfit : size ≤ size_of ⟨j, by omega⟩
    · rw [if_pos hfit]
      exact Or.inl ⟨⟨j, by omega⟩, hfit, rfl⟩
    · rw [if_neg hfit, show desc_at descs j + sizeof_desc = desc_at descs (j + 1) from Nat.add_assoc _ _ _]
      obtain hfound | ⟨hsmall, hlast⟩ := ih (j + 1) (by omega)
      · exact Or.inl hfound
      · refine Or.inr ⟨fun k hk => ?_, hlast⟩
        obtain heq | hlt := Nat.eq_or_lt_of_le hk
        · have hkj : k = ⟨j, by omega⟩ := Fin.ext heq.symm
          rw [hkj]
          exact Nat.not_le.mp hfit
        · exact hsmall k hlt

end Search

section Blocks

/-- The loop that adds the blocks of a new arena. -/
theorem Core.add_blocks (ha : a ∈ as) (hk : a.kind = some k) : ∀ left i {s : Heap} {seq : Fin 7 → List Nat},
    Core ram_pages n others s as seq cnt → i + left = count_of k →
    (∀ j, i ≤ j → j < count_of k → a.block k j ∉ seq k) →
    ∃ t, add_blocks (desc_at s.descs k) a.page left i s = .ok ((), t) ∧ t.descs = s.descs ∧
      Core ram_pages n others t as (Function.update seq k (seq k ++
        (List.range' i left).map (a.block k))) cnt := by
  intro left
  induction left with
  | zero =>
    intro i s seq h _ _
    refine ⟨s, rfl, rfl, ?_⟩
    rwa [List.range'_zero, List.map_nil, List.append_nil, Function.update_eq_self]
  | succ left ih =>
    intro i s seq h hi hnew
    have hlt : i < count_of k := by omega
    obtain ⟨m', hpush, h'⟩ := h.push_back ha hk (Arena.block_mem hk hlt) (hnew i (Nat.le_refl i) hlt)
    obtain ⟨t, hrun, hdescs, h''⟩ := ih (i + 1) h' (by omega) (by
      intro j hij hj hmem
      rw [Function.update_self] at hmem
      obtain hmem | hmem := List.mem_append.mp hmem
      · exact hnew j (by omega) hj hmem
      · have heq := Arena.block_inj (List.mem_singleton.mp hmem)
        omega)
    refine ⟨t, ?_, hdescs, ?_⟩
    · have hop : on_lists (fun m => do
          return (← ram.list_push_back m (desc.free_list (desc_at s.descs k)) (a.block k i), ())) s =
          .ok ((), s.set_mem m') := on_lists_run (by rw [show ram.list_push_back s.palloc.mem
            (desc.free_list (desc_at s.descs k)) (a.block k i) = some m' from hpush]; rfl)
      rw [threads.add_blocks, Exec.bind_run (h.arena_to_block ha hk hlt), Exec.bind_run hop]
      exact hrun
    · rw [Function.update_self, Function.update_idem, List.append_assoc] at h''
      rw [List.range'_succ, List.map_cons]
      exact h''

/-- The loop that removes the blocks of an unused arena. -/
theorem Core.remove_blocks (ha : a ∈ as) (hk : a.kind = some k) : ∀ left i {s : Heap} {seq : Fin 7 → List Nat},
    Core ram_pages n others s as seq cnt → i + left = count_of k →
    (∀ j, i ≤ j → j < count_of k → a.block k j ∈ seq k) →
    ∃ t, remove_blocks a.page left i s = .ok ((), t) ∧ t.descs = s.descs ∧
      Core ram_pages n others t as
        (Function.update seq k ((seq k).filter (· ∉ (List.range' i left).map (a.block k)))) cnt := by
  intro left
  induction left with
  | zero =>
    intro i s seq h _ _
    refine ⟨s, rfl, rfl, ?_⟩
    have hall : (seq k).filter (· ∉ (List.range' i 0).map (a.block k)) = seq k := by simp
    rwa [hall, Function.update_eq_self]
  | succ left ih =>
    intro i s seq h hi hin
    have hlt : i < count_of k := by omega
    have hnodup := h.lists.seq_nodup k
    obtain ⟨pre, after, -, hseq, herase⟩ := List.exists_erase_eq (hin i (Nat.le_refl i) hlt)
    obtain ⟨m', next, hremove, h'⟩ := h.remove hseq
    rw [← herase, hnodup.erase_eq_filter] at h'
    obtain ⟨t, hrun, hdescs, h''⟩ := ih (i + 1) h' (by omega) (by
      intro j hij hj
      rw [Function.update_self, List.mem_filter]
      refine ⟨hin j (by omega) hj, ?_⟩
      have hne : a.block k j ≠ a.block k i := fun heq => by
        have heq' := Arena.block_inj heq
        omega
      simpa using hne)
    refine ⟨t, ?_, hdescs, ?_⟩
    · have hop : on_lists (fun m => ram.list_remove m (a.block k i)) s = .ok (next, s.set_mem m') :=
        on_lists_run hremove
      rw [threads.remove_blocks, Exec.bind_run (h.arena_to_block ha hk hlt)]
      change (on_lists (fun m => ram.list_remove m (a.block k i)) >>= _) s = _
      rw [Exec.bind_run hop]
      exact hrun
    · rw [Function.update_self, Function.update_idem, List.filter_filter] at h''
      rw [List.range'_succ, List.map_cons]
      refine (congrArg (fun l => Core ram_pages n others t as (Function.update seq k l) cnt) ?_).mp h''
      apply List.filter_congr
      intro c _
      rw [Bool.eq_iff_iff]
      simp only [List.mem_cons, not_or, Bool.and_eq_true, bne_iff_ne, decide_eq_true_eq, and_comm, ne_eq]

end Blocks

section Malloc

theorem mem_update {elems : List Nat} (j : Fin 7) (c : Nat) :
    c ∈ Function.update seq k elems j ↔ if j = k then c ∈ elems else c ∈ seq j := by
  obtain rfl | hne := eq_or_ne j k
  · rw [Function.update_self, if_pos rfl]
  · rw [Function.update_of_ne hne, if_neg hne]

/-- A block of the free list becomes live. -/
theorem Books.take_block (h : Books ram_pages n others s as seq cnt live) {after : List Nat}
    (hseq : seq k = b :: after) :
    ∃ t cnt', take_block (desc_at s.descs k) s = .ok (b, t) ∧ t.descs = s.descs ∧
      Books ram_pages n others t as (Function.update seq k after) cnt' (b :: live) ∧
      ∃ a ∈ as, a.kind = some k ∧ b ∈ a.blocks := by
  have hmem : b ∈ seq k := hseq ▸ List.mem_cons_self
  obtain ⟨a, ha, hk, hb⟩ := h.core.elems k b hmem
  have harranged := h.core.arranged
  have hnodup : (b :: after).Nodup := hseq ▸ h.core.lists.seq_nodup k
  obtain ⟨m', hpop, hpopped⟩ := h.core.pop_front hseq
  have hcnt := h.free_cnt a ha k hk
  rw [hseq, List.countP_cons_of_pos (by simpa using hb)] at hcnt
  have hword : arena.free_cnt m' a.page = cnt a.page := hpopped.headers.free_cnt a ha
  have hlt : arena.free_cnt m' a.page < 2 ^ 32 := word_lt m' _
  have hless : (arena.free_cnt m' a.page + 2 ^ 32 - 1) % 2 ^ 32 = cnt a.page - 1 := by omega
  have hstored := hpopped.store_free_cnt ha (show cnt a.page - 1 < 2 ^ 32 by omega)
  have hpage : ∀ y ∈ as, y ≠ a → y.page ≠ a.page := fun y hy hne heq => hne (harranged.page_inj hy ha heq)
  refine ⟨_, _, ?_, ?_, ⟨hstored, ?_, ?_, ?_, ?_, ?_⟩, a, ha, hk, hb⟩
  · have hop : on_lists (fun m => ram.list_pop_front m (desc.free_list (desc_at s.descs k))) s =
        .ok (b, s.set_mem m') := on_lists_run hpop
    rw [threads.take_block, Exec.bind_run hop, Exec.bind_run (hpopped.block_to_arena ha hb),
      Exec.bind_run (assign_run _ _)]
    simp only [Heap.set_mem, hless]
    rfl
  · rfl
  · intro y hy j hj
    obtain rfl | hne := eq_or_ne y a
    · obtain rfl := Option.some.inj (hj.symm.trans hk)
      rw [Function.update_self, Function.update_self]
      omega
    · rw [Function.update_of_ne (hpage y hy hne), h.free_cnt y hy j hj]
      obtain rfl | hjk := eq_or_ne j k
      · have hnot : b ∉ y.blocks := fun hyb => hne (harranged.arena_unique hy ha hyb hb)
        rw [Function.update_self, hseq, List.countP_cons_of_neg (by simpa using hnot)]
      · rw [Function.update_of_ne hjk]
  · intro y hy hbig
    have hne : y ≠ a := by
      rintro rfl
      rw [hk] at hbig
      contradiction
    rw [Function.update_of_ne (hpage y hy hne)]
    exact h.big y hy hbig
  · intro y hy j hj c hc
    have hfree := h.free y hy j hj c hc
    rw [mem_update, List.mem_cons, not_or]
    split_ifs with hjk
    · subst hjk
      rw [hseq, List.mem_cons] at hfree
      have hnot := (List.nodup_cons.mp hnodup).1
      constructor
      · intro hafter
        exact ⟨fun heq => hnot (heq ▸ hafter), hfree.mp (Or.inr hafter)⟩
      · rintro ⟨hcb, hlive⟩
        exact (hfree.mpr hlive).resolve_left hcb
    · rw [hfree]
      refine ⟨fun hlive => ⟨?_, hlive⟩, fun h => h.2⟩
      rintro rfl
      obtain rfl := harranged.arena_unique hy ha hc hb
      exact hjk (Option.some.inj (hj.symm.trans hk))
  · intro c hc
    obtain rfl | hc := List.mem_cons.mp hc
    · exact ⟨a, ha, hb⟩
    · exact h.placed c hc
  · exact List.nodup_cons.mpr ⟨(h.free a ha k hk b hb).mp hmem, h.nodup⟩

/-- A new arena, with all its blocks in the free list. -/
theorem Books.new_arena (h : Books ram_pages n others s as seq cnt live) (hempty : seq k = []) :
    new_arena (desc_at s.descs k) s = .ok (false, s) ∨
      ∃ a t cnt', new_arena (desc_at s.descs k) s = .ok (true, t) ∧ t.descs = s.descs ∧ a.kind = some k ∧
        Books ram_pages n others t (a :: as) (Function.update seq k a.blocks) cnt' live := by
  obtain ⟨page, t, hget, ht⟩ | hget := h.core.get_pages (show 0 < 1 by decide)
  · right
    have hnew := h.core.add_arena ht (some k) (fun _ _ => rfl)
      (show count_of k < 2 ^ 32 from Nat.lt_of_le_of_lt (count_of_le k) (by decide))
    obtain ⟨a, ha⟩ : ∃ a : Arena, a = ⟨page, 1, some k⟩ := ⟨_, rfl⟩
    have hk : a.kind = some k := by rw [ha]
    have hapage : a.page = page := by rw [ha]
    rw [← ha] at hnew
    -- The header does not change the descriptor.
    have hper : desc.blocks_per_arena
        (store_word (store_word t.palloc.mem page ARENA_MAGIC) (page + 4) (desc_at s.descs k))
        (desc_at s.descs k) =
        count_of k := by
      rw [← h.core.headers.blocks_per_arena k]
      apply word_congr
      intro i hi
      have hkept := (h.core.kept_of_fixed (Or.inl ⟨k, by omega, by omega⟩ :
        Fixed s.descs as (desc_at s.descs k + 4 + i))).append others
      have houtside := ht.outside hkept
      rw [sizeof_arena] at houtside
      rw [store_word_outside (by omega), store_word_outside (by omega), ht.kept _ hkept]
    have hdesc : a.desc s.descs = desc_at s.descs k := by simp only [Arena.desc, hk]
    rw [hdesc] at hnew
    obtain ⟨u, hadd, hdescs, hcore⟩ := hnew.add_blocks List.mem_cons_self hk (count_of k) 0 (Nat.zero_add _) (by
      intro j _ _
      rw [hempty]
      exact List.not_mem_nil)
    rw [hempty, List.nil_append, ← Arena.blocks_eq hk] at hcore
    have harranged := hcore.arranged
    have hpage : ∀ y ∈ as, y.page ≠ page := fun y hy => hapage ▸ harranged.page_ne hy
    have hother : ∀ y ∈ as, ∀ c ∈ y.blocks, c ∉ a.blocks := by
      intro y hy c hc hca
      have heq := harranged.arena_unique (List.mem_cons_of_mem a hy) List.mem_cons_self hc hca
      exact harranged.page_ne hy (congrArg Arena.page heq)
    refine ⟨a, u, _, ?_, hdescs.trans ht.descs, hk, hcore, ?_, ?_, ?_, ?_, h.nodup⟩
    · have hassign : assign (fun m =>
          let m := store_word m page ARENA_MAGIC
          let m := store_word m (page + 4) (desc_at s.descs k)
          store_word m (page + 8) (desc.blocks_per_arena m (desc_at s.descs k))) t =
          .ok ((), t.set_mem (new_header t.palloc.mem page (desc_at s.descs k) (count_of k))) := by
        rw [assign_run]
        simp only [hper]
        rfl
      have hcnt := hnew.headers.blocks_per_arena k
      have hsame : (t.set_mem (new_header t.palloc.mem page (desc_at s.descs k) (count_of k))).descs =
          s.descs := ht.descs
      rw [hsame] at hcnt hadd
      rw [hapage] at hadd
      rw [threads.new_arena, Exec.bind_run hget]
      change (assign _ >>= _) t = _
      rw [Exec.bind_run hassign, Exec.bind_run (memory_run _), hcnt, Exec.bind_run hadd]
      rfl
    · intro y hy j hj
      obtain rfl | hy := List.mem_cons.mp hy
      · obtain rfl := Option.some.inj (hj.symm.trans hk)
        rw [hapage, Function.update_self, Function.update_self, ← Arena.blocks_length hk, eq_comm,
          List.countP_eq_length]
        simp
      · rw [Function.update_of_ne (hpage y hy), h.free_cnt y hy j hj]
        obtain rfl | hjk := eq_or_ne j k
        · rw [Function.update_self, hempty, List.countP_nil, countP_mem_eq_zero (hother y hy)]
        · rw [Function.update_of_ne hjk]
    · intro y hy hbig
      obtain rfl | hy := List.mem_cons.mp hy
      · rw [hk] at hbig
        contradiction
      · rw [Function.update_of_ne (hpage y hy)]
        exact h.big y hy hbig
    · intro y hy j hj c hc
      rw [mem_update]
      obtain rfl | hy := List.mem_cons.mp hy
      · obtain rfl := Option.some.inj (hj.symm.trans hk)
        rw [if_pos rfl]
        refine iff_of_true hc fun hlive => ?_
        obtain ⟨z, hz, hcz⟩ := h.placed c hlive
        exact hother z hz c hcz hc
      · have hfree := h.free y hy j hj c hc
        split_ifs with hjk
        · subst hjk
          rw [hempty] at hfree
          exact iff_of_false (hother y hy c hc) fun hlive => List.not_mem_nil (hfree.mpr hlive)
        · exact hfree
    · intro c hc
      obtain ⟨y, hy, hcy⟩ := h.placed c hc
      exact ⟨y, List.mem_cons_of_mem a hy, hcy⟩
  · left
    rw [threads.new_arena, Exec.bind_run hget]
    rfl

theorem Whole.malloc_small (h : Whole ram_pages n others s as seq cnt live) (k : Fin 7) :
    malloc_small (desc_at s.descs k) s = .ok (none, s) ∨
      ∃ b t as' seq' cnt', malloc_small (desc_at s.descs k) s = .ok (some b, t) ∧
        Whole ram_pages n others t as' seq' cnt' (b :: live) ∧ t.descs = s.descs ∧
        ∃ a ∈ as', a.kind = some k ∧ b ∈ a.blocks := by
  have hempty : ram.list_empty s.palloc.mem (desc.free_list (desc_at s.descs k)) = (seq k).isEmpty :=
    list_empty_eq h.books.core.lists k
  cases hseq : seq k with
  | nil =>
    rw [hseq] at hempty
    obtain hnone | ⟨a, t, cnt', hnew, hdescs, hk, hbooks⟩ := h.books.new_arena hseq
    · left
      rw [threads.malloc_small, Exec.bind_run (memory_run s), hempty]
      change (threads.new_arena (desc_at s.descs k) >>= _) s = _
      rw [Exec.bind_run hnone]
      rfl
    · right
      obtain ⟨b, after, hblocks⟩ := List.exists_cons_of_ne_nil a.blocks_ne_nil
      obtain ⟨u, cnt'', htake, hdescs', hbooks', a', ha', hk', hb⟩ :=
        hbooks.take_block (show Function.update seq k a.blocks k =
          b :: after by rw [Function.update_self, hblocks])
      have hba : b ∈ a.blocks := hblocks ▸ List.mem_cons_self
      refine ⟨b, u, _, _, _, ?_, ⟨hbooks', ?_⟩, hdescs'.trans hdescs, a', ha', hk', hb⟩
      · rw [hdescs] at htake
        rw [threads.malloc_small, Exec.bind_run (memory_run s), hempty]
        change (threads.new_arena (desc_at s.descs k) >>= _) s = _
        rw [Exec.bind_run hnew]
        change (threads.take_block (desc_at s.descs k) >>= _) t = _
        rw [Exec.bind_run htake]
        rfl
      · intro y hy
        obtain rfl | hy := List.mem_cons.mp hy
        · exact ⟨b, hba, List.mem_cons_self⟩
        · obtain ⟨c, hc, hlive⟩ := h.used y hy
          exact ⟨c, hc, List.mem_cons_of_mem b hlive⟩
  | cons b after =>
    rw [hseq] at hempty
    right
    obtain ⟨t, cnt', htake, hdescs, hbooks, hplace⟩ := h.books.take_block hseq
    refine ⟨b, t, _, _, _, ?_, ⟨hbooks, ?_⟩, hdescs, hplace⟩
    · rw [threads.malloc_small, Exec.bind_run (memory_run s), hempty]
      change (threads.take_block (desc_at s.descs k) >>= _) s = _
      rw [Exec.bind_run htake]
      rfl
    · intro y hy
      obtain ⟨c, hc, hlive⟩ := h.used y hy
      exact ⟨c, hc, List.mem_cons_of_mem b hlive⟩

/-- A group of pages for one block. -/
theorem Whole.malloc_pages (h : Whole ram_pages n others s as seq cnt live) {size page_cnt : Nat}
    (hpages : ((size + sizeof_arena) % 2 ^ 32 + PGSIZE - 1) % 2 ^ 32 / PGSIZE = page_cnt)
    (hcnt : 0 < page_cnt) :
    malloc_big size s = .ok (none, s) ∨
      ∃ b t as' seq' cnt', malloc_big size s = .ok (some b, t) ∧
        Whole ram_pages n others t as' seq' cnt' (b :: live) ∧ t.descs = s.descs ∧
        ∃ a ∈ as', a.kind = none ∧ a.cnt = page_cnt ∧ b ∈ a.blocks := by
  obtain ⟨page, t, hget, ht⟩ | hget := h.books.core.get_pages hcnt
  · right
    have hlt : page_cnt < 2 ^ 32 := by
      rw [← hpages]
      exact Nat.lt_of_le_of_lt (Nat.div_le_self ..) (Nat.mod_lt _ (by decide))
    have hcore := h.books.core.add_arena ht none (by simp) hlt
    obtain ⟨a, ha⟩ : ∃ a : Arena, a = ⟨page, page_cnt, none⟩ := ⟨_, rfl⟩
    have hk : a.kind = none := by rw [ha]
    have hapage : a.page = page := by rw [ha]
    have hacnt : a.cnt = page_cnt := by rw [ha]
    have hdesc : a.desc s.descs = 0 := by simp only [Arena.desc, hk]
    rw [← ha, hdesc] at hcore
    have harranged := hcore.arranged
    have hb : page + sizeof_arena ∈ a.blocks := by rw [Arena.mem_blocks_big hk, hapage]
    have hpage : ∀ y ∈ as, y.page ≠ page := fun y hy => hapage ▸ harranged.page_ne hy
    have hother : ∀ y ∈ as, page + sizeof_arena ∉ y.blocks := by
      intro y hy hin
      have heq := harranged.arena_unique (List.mem_cons_of_mem a hy) List.mem_cons_self hin hb
      exact harranged.page_ne hy (congrArg Arena.page heq)
    refine ⟨page + sizeof_arena, _, a :: as, seq, _, ?_, ⟨⟨hcore, ?_, ?_, ?_, ?_, ?_⟩, ?_⟩, ht.descs, a,
      List.mem_cons_self, hk, hacnt, hb⟩
    · rw [threads.malloc_big]
      simp only [hpages]
      rw [Exec.bind_run hget]
      rfl
    · intro y hy j hj
      obtain rfl | hy := List.mem_cons.mp hy
      · rw [hk] at hj
        contradiction
      · rw [Function.update_of_ne (hpage y hy)]
        exact h.books.free_cnt y hy j hj
    · intro y hy hbig
      obtain rfl | hy := List.mem_cons.mp hy
      · rw [hapage, Function.update_self, hacnt]
      · rw [Function.update_of_ne (hpage y hy)]
        exact h.books.big y hy hbig
    · intro y hy j hj c hc
      obtain rfl | hy := List.mem_cons.mp hy
      · rw [hk] at hj
        contradiction
      · rw [h.books.free y hy j hj c hc, List.mem_cons, not_or]
        refine ⟨fun hlive => ⟨?_, hlive⟩, fun h => h.2⟩
        rintro rfl
        exact hother y hy hc
    · intro c hc
      obtain rfl | hc := List.mem_cons.mp hc
      · exact ⟨a, List.mem_cons_self, hb⟩
      · obtain ⟨y, hy, hcy⟩ := h.books.placed c hc
        exact ⟨y, List.mem_cons_of_mem a hy, hcy⟩
    · refine List.nodup_cons.mpr ⟨fun hlive => ?_, h.books.nodup⟩
      obtain ⟨y, hy, hcy⟩ := h.books.placed _ hlive
      exact hother y hy hcy
    · intro y hy
      obtain rfl | hy := List.mem_cons.mp hy
      · exact ⟨_, hb, List.mem_cons_self⟩
      · obtain ⟨c, hc, hlive⟩ := h.used y hy
        exact ⟨c, hc, List.mem_cons_of_mem _ hlive⟩
  · left
    rw [threads.malloc_big]
    simp only [hpages]
    rw [Exec.bind_run hget]
    rfl

/-- A block that is too big for the descriptors. -/
theorem Whole.malloc_big (h : Whole ram_pages n others s as seq cnt live) {size : Nat} (hpos : 0 < size)
    (hsize : size + sizeof_arena + PGSIZE < 2 ^ 32) :
    malloc_big size s = .ok (none, s) ∨
      ∃ b t as' seq' cnt', malloc_big size s = .ok (some b, t) ∧
        Whole ram_pages n others t as' seq' cnt' (b :: live) ∧ t.descs = s.descs ∧
        ∃ a ∈ as', size ≤ a.block_size ∧ b ∈ a.blocks := by
  obtain ⟨page_cnt, hpages⟩ :
      ∃ p, ((size + sizeof_arena) % 2 ^ 32 + PGSIZE - 1) % 2 ^ 32 / PGSIZE = p := ⟨_, rfl⟩
  have hround : page_cnt = (size + 12 + 4095) / 4096 := by
    rw [← hpages, sizeof_arena, PGSIZE]
    rw [sizeof_arena, PGSIZE] at hsize
    omega
  obtain hnone | ⟨b, t, as', seq', cnt', hrun, hwhole, hdescs, a, ha, hk, hacnt, hb⟩ :=
    h.malloc_pages hpages (show 0 < page_cnt by omega)
  · exact Or.inl hnone
  · refine Or.inr ⟨b, t, as', seq', cnt', hrun, hwhole, hdescs, a, ha, ?_, hb⟩
    simp only [Arena.block_size, hk, hacnt, PGSIZE, sizeof_arena]
    omega

/-- What a call of `malloc` does. -/
theorem Whole.malloc (h : Whole ram_pages n others s as seq cnt live) {size : Nat}
    (hsize : size + sizeof_arena + PGSIZE < 2 ^ 32) :
    malloc size s = .ok (none, s) ∨
      ∃ b t as' seq' cnt', malloc size s = .ok (some b, t) ∧
        Whole ram_pages n others t as' seq' cnt' (b :: live) ∧ t.descs = s.descs ∧
        ∃ a ∈ as', size ≤ a.block_size ∧ b ∈ a.blocks := by
  obtain rfl | hpos := Nat.eq_zero_or_pos size
  · exact Or.inl rfl
  have hcall : ∀ d, find_desc s.palloc.mem size s.desc_cnt s.descs = d → threads.malloc size s =
      (if d = desc_at s.descs s.desc_cnt then threads.malloc_big size else threads.malloc_small d) s := by
    rintro d rfl
    rw [threads.malloc, if_neg (Nat.ne_of_gt hpos), Exec.bind_run Exec.get_run]
  rw [h.books.core.desc_cnt] at hcall
  have hzero : desc_at s.descs 0 = s.descs := by rw [desc_at, Nat.mul_zero, Nat.add_zero]
  obtain ⟨k, hfit, hfind⟩ | ⟨-, hfind⟩ :=
    find_desc_run h.books.core.headers.block_size size 7 0 (Nat.zero_add 7)
  · rw [hzero] at hfind
    have hne : desc_at s.descs k ≠ desc_at s.descs 7 := by
      have hk := k.isLt
      rw [desc_at, desc_at, sizeof_desc]
      omega
    rw [hcall _ hfind, if_neg hne]
    obtain hnone | ⟨b, t, as', seq', cnt', hrun, hwhole, hdescs, a, ha, hk, hb⟩ := h.malloc_small k
    · exact Or.inl hnone
    · refine Or.inr ⟨b, t, as', seq', cnt', hrun, hwhole, hdescs, a, ha, ?_, hb⟩
      simpa only [Arena.block_size, hk] using hfit
  · rw [hzero] at hfind
    rw [hcall _ hfind, if_pos rfl]
    exact h.malloc_big hpos hsize

end Malloc

section Free

/-- Live blocks, and the pages of others, can be written to. -/
theorem Books.write (h : Books ram_pages n others s as seq cnt live) (m' : Ram)
    (hm : ∀ x, (∀ b ∈ live, ∀ a ∈ as, b ∈ a.blocks → x < b ∨ b + a.block_size ≤ x) →
      (∀ o ∈ others, ¬ o.covers x) → m' x = s.palloc.mem x) :
    Books ram_pages n others (s.set_mem m') as seq cnt live := by
  have harranged := h.core.arranged
  have hfront := h.core.front
  have hstatic : ∀ x, x < s.descs + sizeof_desc * 10 → ∀ b ∈ live, ∀ a ∈ as, b ∈ a.blocks →
      x < b ∨ b + a.block_size ≤ x := by
    intro x hx b _ a ha hb
    have hrange := (harranged.block_range ha hb).1
    omega
  refine ⟨h.core.write ?_ ?_ ?_, h.free_cnt, h.big, h.free, h.placed, h.nodup⟩
  · intro x hx
    apply hm
    · intro b _ a ha hb
      by_contra hin
      exact hx ((h.core.kept_of_block ha hb (by omega) (by omega)).append others)
    · intro o ho hcovers
      exact hx (Or.inr ⟨o, List.mem_append_right _ ho, hcovers⟩)
  · intro x hx
    refine hm x ?_ fun o ho => h.core.kept_not_other (h.core.kept_of_fixed hx) ho
    obtain ⟨k, hlow, hhigh⟩ | ⟨y, hy, hlow, hhigh⟩ := hx
    · have hk := k.isLt
      apply hstatic
      simp only [desc_at, sizeof_desc] at *
      omega
    · intro b _ a ha hb
      have hclear := harranged.header_clear ha hy hb
      rw [Clear] at hclear
      omega
  · intro x hx
    have hkept := h.core.kept_of_node fun houtside => hx (h.core.outside houtside)
    refine hm x ?_ fun o ho => h.core.kept_not_other hkept ho
    simp only [ram.Outside, not_forall, not_or, Nat.not_lt, Nat.not_le] at hx
    obtain ⟨y, hy, hlow, hhigh⟩ := hx
    obtain ⟨k, hk⟩ := hy
    have hklt := k.isLt
    obtain rfl | hk | rfl := mem_nodes.mp hk
    · apply hstatic
      simp only [free_lists, desc.free_list, ram.list_at, desc_at, sizeof_desc, ram.sizeof_list_elem] at *
      omega
    · intro b hb a ha hba
      obtain ⟨z, hz, hzk, hyz⟩ := h.core.elems k y hk
      have hne : b ≠ y := by
        rintro rfl
        exact (h.free z hz k hzk b hyz).mp hk hb
      have hclear := harranged.blocks_clear ha hz hba hyz hne
      have hsize := z.block_size_pos (harranged.valid z hz).cnt
      rw [ram.sizeof_list_elem] at hhigh
      rw [Clear] at hclear
      omega
    · apply hstatic
      simp only [free_lists, desc.free_list, ram.list_at, desc_at, sizeof_desc, ram.sizeof_list_elem] at *
      omega

/-- A live block is put into the free list, and counted. -/
theorem Books.put_block (h : Books ram_pages n others s as seq cnt live) (hlive : b ∈ live) (ha : a ∈ as)
    (hk : a.kind = some k) (hb : b ∈ a.blocks) :
    ∃ m', ram.list_push_front s.palloc.mem (free_lists s.descs k) b = some m' ∧
      arena.free_cnt m' a.page = cnt a.page ∧ cnt a.page + 1 < 2 ^ 32 ∧
      Books ram_pages n others (s.set_mem (store_word m' (a.page + 8) (cnt a.page + 1))) as
        (Function.update seq k (b :: seq k)) (Function.update cnt a.page (cnt a.page + 1)) (live.erase b) := by
  have harranged := h.core.arranged
  have hnew : b ∉ seq k := fun hin => (h.free a ha k hk b hb).mp hin hlive
  obtain ⟨m', hpush, hpushed⟩ := h.core.push_front ha hk hb hnew
  have hcnt := h.free_cnt a ha k hk
  have hle := countP_mem_le (h.core.lists.seq_nodup k) a.blocks_nodup
  rw [Arena.blocks_length hk, ← hcnt] at hle
  have hcount := count_of_le k
  have hstored := hpushed.store_free_cnt ha (show cnt a.page + 1 < 2 ^ 32 by omega)
  have hpage : ∀ y ∈ as, y ≠ a → y.page ≠ a.page := fun y hy hne heq => hne (harranged.page_inj hy ha heq)
  refine ⟨m', hpush, hpushed.headers.free_cnt a ha, by omega, hstored, ?_, ?_, ?_, ?_, h.nodup.erase b⟩
  · intro y hy j hj
    obtain rfl | hne := eq_or_ne y a
    · obtain rfl := Option.some.inj (hj.symm.trans hk)
      rw [Function.update_self, Function.update_self, List.countP_cons_of_pos (by simpa using hb), hcnt]
    · rw [Function.update_of_ne (hpage y hy hne), h.free_cnt y hy j hj]
      obtain rfl | hjk := eq_or_ne j k
      · have hnot : b ∉ y.blocks := fun hyb => hne (harranged.arena_unique hy ha hyb hb)
        rw [Function.update_self, List.countP_cons_of_neg (by simpa using hnot)]
      · rw [Function.update_of_ne hjk]
  · intro y hy hbig
    have hne : y ≠ a := by
      rintro rfl
      rw [hk] at hbig
      contradiction
    rw [Function.update_of_ne (hpage y hy hne)]
    exact h.big y hy hbig
  · intro y hy j hj c hc
    have hfree := h.free y hy j hj c hc
    rw [mem_update, h.nodup.mem_erase_iff, not_and]
    split_ifs with hjk
    · subst hjk
      rw [List.mem_cons, hfree]
      constructor
      · rintro (rfl | hnot) hcb
        · contradiction
        · exact hnot
      · intro himp
        by_cases hcb : c = b
        · exact Or.inl hcb
        · exact Or.inr (himp hcb)
    · rw [hfree]
      refine ⟨fun hnot _ => hnot, fun himp => himp ?_⟩
      rintro rfl
      obtain rfl := harranged.arena_unique hy ha hc hb
      exact hjk (Option.some.inj (hj.symm.trans hk))
  · intro c hc
    exact h.placed c (List.mem_of_mem_erase hc)

/-- An arena without live blocks leaves the books. -/
theorem Books.without (h : Books ram_pages n others s as seq cnt live) {seq' : Fin 7 → List Nat}
    (hcore : Core ram_pages n others t (as.erase a) seq' cnt)
    (hseq : ∀ j, seq' j = (seq j).filter (· ∉ a.blocks)) (ha : a ∈ as) (hnone : ∀ b ∈ a.blocks, b ∉ live) :
    Books ram_pages n others t (as.erase a) seq' cnt live := by
  have harranged := h.core.arranged
  have hsub : ∀ y ∈ as.erase a, y ∈ as ∧ y ≠ a := fun y hy =>
    ⟨List.mem_of_mem_erase hy, (h.core.nodup.mem_erase_iff.mp hy).1⟩
  have hother : ∀ y ∈ as.erase a, ∀ c ∈ y.blocks, c ∉ a.blocks := by
    intro y hy c hc hca
    exact (hsub y hy).2 (harranged.arena_unique (hsub y hy).1 ha hc hca)
  refine ⟨hcore, ?_, fun y hy => h.big y (hsub y hy).1, ?_, ?_, h.nodup⟩
  · intro y hy j hj
    rw [h.free_cnt y (hsub y hy).1 j hj, hseq, List.countP_filter]
    apply List.countP_congr
    intro c _
    simp only [Bool.and_eq_true, decide_eq_true_eq]
    exact ⟨fun hc => ⟨hc, hother y hy c hc⟩, fun hc => hc.1⟩
  · intro y hy j hj c hc
    rw [hseq, List.mem_filter, ← h.free y (hsub y hy).1 j hj c hc]
    exact and_iff_left (by simpa using hother y hy c hc)
  · intro b hb
    obtain ⟨y, hy, hby⟩ := h.placed b hb
    refine ⟨y, h.core.nodup.mem_erase_iff.mpr ⟨?_, hy⟩, hby⟩
    rintro rfl
    exact hnone b hby hb

/-- The blocks of an unused arena leave the free list, and its page is given back. -/
theorem Books.drop_arena (h : Books ram_pages n others s as seq cnt live) (ha : a ∈ as) (hk : a.kind = some k)
    (hall : ∀ c ∈ a.blocks, c ∈ seq k) :
    ∃ t u seq', remove_blocks a.page (count_of k) 0 s = .ok ((), t) ∧ free_pages a.page 1 t = .ok ((), u) ∧
      Books ram_pages n others u (as.erase a) seq' cnt live ∧ u.descs = s.descs := by
  obtain ⟨t, hremove, hdescs, hremoved⟩ := h.core.remove_blocks ha hk (count_of k) 0 (Nat.zero_add _)
    fun j _ hj => hall _ (Arena.block_mem hk hj)
  rw [← Arena.blocks_eq hk] at hremoved
  have hseq : ∀ j, Function.update seq k ((seq k).filter (· ∉ a.blocks)) j = (seq j).filter (· ∉ a.blocks) := by
    intro j
    obtain rfl | hjk := eq_or_ne j k
    · rw [Function.update_self]
    · rw [Function.update_of_ne hjk, eq_comm, List.filter_eq_self]
      intro c hc
      obtain ⟨y, hy, hyj, hcy⟩ := h.core.elems j c hc
      simp only [decide_eq_true_eq]
      intro hca
      obtain rfl := h.core.arranged.arena_unique hy ha hcy hca
      exact hjk (Option.some.inj (hyj.symm.trans hk))
  obtain ⟨u, hfree, hfreed, hdescs'⟩ := hremoved.free_pages ha (by
    intro j c hc
    rw [hseq, List.mem_filter]
    simp [hc])
  rw [h.core.small a ha k hk] at hfree
  exact ⟨t, u, _, hremove, hfree, h.without hfreed hseq ha fun c hc => (h.free a ha k hk c hc).mp (hall c hc),
    hdescs'.trans hdescs⟩

end Free

end pintos.threads
