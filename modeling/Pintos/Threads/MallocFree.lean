import Pintos.Threads.MallocCalls

/-!
# Freeing and moving blocks

What calls of `free` and `realloc` do to the books.
-/

open bytes state_error pintos.kernel

namespace pintos.threads

variable {ram_pages : Nat} {n : Bool → Nat} {others : List Block} {s t : Heap} {as : List Arena} {a : Arena}
  {seq : Fin 7 → List Nat} {cnt : Nat → Nat} {live : List Nat} {b : Nat} {k : Fin 7}

section Free

/-- A block of a descriptor is freed. -/
theorem Whole.free_small (h : Whole ram_pages n others s as seq cnt live) (hlive : b ∈ live) (ha : a ∈ as)
    (hk : a.kind = some k) (hb : b ∈ a.blocks) :
    ∃ t as' seq' cnt', free_small b a.page (desc_at s.descs k) s = .ok ((), t) ∧
      Whole ram_pages n others t as' seq' cnt' (live.erase b) ∧ t.descs = s.descs ∧ ∀ y ∈ as', y ∈ as := by
  have harranged := h.books.core.arranged
  have hsize : a.block_size = size_of k := by simp only [Arena.block_size, hk]
  have hcleared : Books ram_pages n others (s.set_mem (memset s.palloc.mem b 0xcc
      (size_of k))) as seq cnt live := by
    apply h.books.write
    intro x hx _
    apply memset_outside
    rw [← hsize]
    exact hx b hlive a ha hb
  obtain ⟨m', hpush, hword, hlt, hbooks⟩ := hcleared.put_block hlive ha hk hb
  obtain ⟨u, hu⟩ : ∃ u, u = s.set_mem (store_word m' (a.page + 8) (cnt a.page + 1)) := ⟨_, rfl⟩
  change Books ram_pages n others (s.set_mem (store_word m' (a.page + 8) (cnt a.page + 1))) as _ _ _ at hbooks
  rw [← hu] at hbooks
  have hdescs : u.descs = s.descs := by rw [hu]; rfl
  have hper := hbooks.core.headers.blocks_per_arena k
  have hcnt := hbooks.core.headers.free_cnt a ha
  rw [hdescs] at hper
  rw [Function.update_self] at hcnt
  -- What is on the list is counted.
  have hcount := hbooks.free_cnt a ha k hk
  have hseq : (Function.update seq k (b :: seq k) k).Nodup := hbooks.core.lists.seq_nodup k
  have hle := countP_mem_le hseq a.blocks_nodup
  have hall := countP_mem_eq_length hseq a.blocks_nodup
  rw [Arena.blocks_length hk] at hle hall
  rw [← hcount, Function.update_self] at hle hall
  have hstart : threads.free_small b a.page (desc_at s.descs k) s =
      (if count_of k ≤ cnt a.page + 1 then do
        Exec.ASSERT (cnt a.page + 1 = count_of k) .assert
        remove_blocks a.page (count_of k) 0
        free_pages a.page 1
      else pure () : Exec Unit) u := by
    have hfill : assign (fun m => memset m b 0xcc (desc.block_size m (desc_at s.descs k))) s =
        .ok ((), s.set_mem (memset s.palloc.mem b 0xcc (size_of k))) := by
      simp only [assign_run, h.books.core.headers.block_size k]
    have hop : on_lists (fun m => do return (← ram.list_push_front m
        (desc.free_list (desc_at s.descs k)) b, ()))
        (s.set_mem (memset s.palloc.mem b 0xcc (size_of k))) = .ok ((), s.set_mem m') := by
      refine on_lists_run ?_
      change ram.list_push_front _ (desc.free_list (desc_at s.descs k)) b = some m' at hpush
      rw [hpush]
      rfl
    have hstore : assign (fun m => store_word m (a.page + 8) ((arena.free_cnt m a.page + 1) % 2 ^ 32))
        (s.set_mem m') =
        .ok ((), u) := by
      rw [assign_run, hu]
      change Except.ok ((), s.set_mem (store_word m' (a.page + 8)
        ((arena.free_cnt m' a.page + 1) % 2 ^ 32))) = _
      rw [hword, Nat.mod_eq_of_lt hlt]
    rw [threads.free_small, Exec.bind_run hfill, Exec.bind_run hop, Exec.bind_run hstore,
      Exec.bind_run (memory_run u), hper, hcnt]
  by_cases hfull : count_of k ≤ cnt a.page + 1
  · have heq : cnt a.page + 1 = count_of k := by omega
    obtain ⟨v, w, seq', hremove, hfree, hdropped, hdescs'⟩ := hbooks.drop_arena ha hk (hall.mp heq)
    refine ⟨w, as.erase a, seq', _, ?_, ⟨hdropped, ?_⟩, hdescs'.trans hdescs,
      fun y hy => List.mem_of_mem_erase hy⟩
    · rw [hstart, if_pos hfull, Exec.bind_run (Exec.ASSERT_run heq _), Exec.bind_run hremove]
      exact hfree
    · intro y hy
      obtain ⟨hne, hy⟩ := h.books.core.nodup.mem_erase_iff.mp hy
      obtain ⟨c, hc, hclive⟩ := h.used y hy
      refine ⟨c, hc, h.books.nodup.mem_erase_iff.mpr ⟨?_, hclive⟩⟩
      rintro rfl
      exact hne (harranged.arena_unique hy ha hc hb)
  · refine ⟨u, as, _, _, ?_, ⟨hbooks, ?_⟩, hdescs, fun y hy => hy⟩
    · rw [hstart, if_neg hfull]
      rfl
    · intro y hy
      obtain rfl | hne := eq_or_ne y a
      · -- Some block is not on the list.
        by_contra hnone
        push Not at hnone
        have heq := hall.mpr fun c hc => (hbooks.free y hy k hk c hc).mpr (hnone c hc)
        omega
      · obtain ⟨c, hc, hclive⟩ := h.used y hy
        refine ⟨c, hc, h.books.nodup.mem_erase_iff.mpr ⟨?_, hclive⟩⟩
        rintro rfl
        exact hne (harranged.arena_unique hy ha hc hb)

/-- A big block is freed. -/
theorem Whole.free_big (h : Whole ram_pages n others s as seq cnt live) (hlive : b ∈ live) (ha : a ∈ as)
    (hk : a.kind = none) (hb : b ∈ a.blocks) :
    ∃ t, free_pages a.page a.cnt s = .ok ((), t) ∧
      Whole ram_pages n others t (as.erase a) seq cnt (live.erase b) ∧ t.descs = s.descs := by
  have harranged := h.books.core.arranged
  have hnone : ∀ j, ∀ c ∈ a.blocks, c ∉ seq j := by
    intro j c hc hcj
    obtain ⟨y, hy, hyj, hcy⟩ := h.books.core.elems j c hcj
    obtain rfl := harranged.arena_unique hy ha hcy hc
    rw [hk] at hyj
    contradiction
  obtain ⟨t, hfree, hcore, hdescs⟩ := h.books.core.free_pages ha hnone
  have honly : ∀ c ∈ a.blocks, c = b := by
    intro c hc
    rw [(Arena.mem_blocks_big hk).mp hc, (Arena.mem_blocks_big hk).mp hb]
  -- First the block stops being live, then its arena goes.
  have herased : Books ram_pages n others s as seq cnt (live.erase b) := by
    refine ⟨h.books.core, h.books.free_cnt, h.books.big, ?_,
      fun c hc => h.books.placed c (List.mem_of_mem_erase hc),
      h.books.nodup.erase b⟩
    intro y hy j hj c hc
    have hne : c ≠ b := by
      rintro rfl
      obtain rfl := harranged.arena_unique hy ha hc hb
      rw [hk] at hj
      contradiction
    rw [h.books.free y hy j hj c hc, h.books.nodup.mem_erase_iff]
    exact not_congr (and_iff_right hne).symm
  refine ⟨t, hfree, ⟨herased.without hcore ?_ ha ?_, ?_⟩, hdescs⟩
  · intro j
    rw [eq_comm, List.filter_eq_self]
    intro c hc
    simpa using fun hca => hnone j c hca hc
  · intro c hc hclive
    exact (h.books.nodup.mem_erase_iff.mp hclive).1 (honly c hc)
  · intro y hy
    obtain ⟨hne, hy⟩ := h.books.core.nodup.mem_erase_iff.mp hy
    obtain ⟨c, hc, hclive⟩ := h.used y hy
    refine ⟨c, hc, h.books.nodup.mem_erase_iff.mpr ⟨?_, hclive⟩⟩
    rintro rfl
    exact hne (harranged.arena_unique hy ha hc hb)

/-- What a call of `free` does. -/
theorem Whole.free (h : Whole ram_pages n others s as seq cnt live) (hlive : b ∈ live) :
    ∃ t as' seq' cnt', free (some b) s = .ok ((), t) ∧
      Whole ram_pages n others t as' seq' cnt' (live.erase b) ∧ t.descs = s.descs ∧ ∀ y ∈ as', y ∈ as := by
  obtain ⟨a, ha, hb⟩ := h.books.placed b hlive
  have hdesc := h.books.core.headers.desc a ha
  have hpos := h.books.core.pos
  have hstart : threads.free (some b) s = (if a.desc s.descs ≠ 0 then threads.free_small b a.page
      (a.desc s.descs)
      else free_pages a.page (arena.free_cnt s.palloc.mem a.page)) s := by
    rw [threads.free, Exec.bind_run (h.books.core.block_to_arena ha hb), Exec.bind_run (memory_run s), hdesc]
  cases hk : a.kind with
  | none =>
    have hzero : ¬ a.desc s.descs ≠ 0 :=
        by simp only [Arena.desc, hk, ne_eq, not_true_eq_false, not_false_eq_true]
    obtain ⟨t, hfree, hwhole, hdescs⟩ := h.free_big hlive ha hk hb
    refine ⟨t, _, _, _, ?_, hwhole, hdescs, fun y hy => List.mem_of_mem_erase hy⟩
    rw [hstart, if_neg hzero, h.books.core.headers.free_cnt a ha, h.books.big a ha hk]
    exact hfree
  | some k =>
    have hd : a.desc s.descs = desc_at s.descs k := by simp only [Arena.desc, hk]
    have hne : desc_at s.descs k ≠ 0 := by
      rw [desc_at]
      omega
    obtain ⟨t, as', seq', cnt', hfree, hrest⟩ := h.free_small hlive ha hk hb
    refine ⟨t, as', seq', cnt', ?_, hrest⟩
    rw [hstart, hd, if_pos hne]
    exact hfree

end Free

section Realloc

/-- The size of a block. -/
theorem Whole.block_size (h : Whole ram_pages n others s as seq cnt live) (ha : a ∈ as) (hb : b ∈ a.blocks) :
    block_size b s = .ok (a.block_size, s) := by
  have hdesc := h.books.core.headers.desc a ha
  have hpos := h.books.core.pos
  have hrun : threads.block_size b s = .ok (if a.desc s.descs ≠ 0 then desc.block_size s.palloc.mem
      (a.desc s.descs)
      else PGSIZE * arena.free_cnt s.palloc.mem a.page - pg_ofs b, s) := by
    rw [threads.block_size, Exec.bind_run (h.books.core.block_to_arena ha hb),
      Exec.bind_run (memory_run s), hdesc]
    rfl
  rw [hrun]
  cases hk : a.kind with
  | none =>
    have hofs := ((h.books.core.arranged.valid a ha).block_page hb).2
    have hzero : ¬ a.desc s.descs ≠ 0 :=
        by simp only [Arena.desc, hk, ne_eq, not_true_eq_false, not_false_eq_true]
    have hsize : a.block_size = PGSIZE * a.cnt - sizeof_arena := by simp only [Arena.block_size, hk]
    rw [if_neg hzero, h.books.core.headers.free_cnt a ha, h.books.big a ha hk, hsize, hofs,
      (Arena.mem_blocks_big hk).mp hb, Nat.add_sub_cancel_left]
  | some k =>
    have hd : a.desc s.descs = desc_at s.descs k := by simp only [Arena.desc, hk]
    have hsize : a.block_size = size_of k := by simp only [Arena.block_size, hk]
    have hne : desc_at s.descs k ≠ 0 := by
      rw [desc_at]
      omega
    rw [hd, if_pos hne, h.books.core.headers.block_size k, hsize]

/-- The contents are copied, and the old block is freed. -/
theorem Whole.move_block (h : Whole ram_pages n others s as seq cnt live) {old new new_size : Nat}
    (hold : old ∈ live)
    (hnew : new ∈ live) (hfits : ∃ a ∈ as, new_size ≤ a.block_size ∧ new ∈ a.blocks) :
    ∃ t as' seq' cnt', move_block old new new_size s = .ok ((), t) ∧
      Whole ram_pages n others t as' seq' cnt' (live.erase old) ∧ t.descs = s.descs := by
  obtain ⟨a, ha, hfit, hb⟩ := hfits
  obtain ⟨a', ha', hb'⟩ := h.books.placed old hold
  have hcopied : Whole ram_pages n others (s.set_mem (copy s.palloc.mem new s.palloc.mem old
      (if new_size < a'.block_size then new_size else a'.block_size))) as seq cnt live := by
    refine ⟨h.books.write _ ?_, h.used⟩
    intro x hx _
    apply copy_outside
    have hin := hx new hnew a ha hb
    split_ifs <;> omega
  obtain ⟨t, as', seq', cnt', hfree, hwhole, hdescs, -⟩ := hcopied.free hold
  refine ⟨t, as', seq', cnt', ?_, hwhole, hdescs⟩
  rw [threads.move_block, Exec.bind_run (h.block_size ha' hb')]
  simp only [Exec.bind_run (assign_run _ s)]
  exact hfree

/-- What a call of `realloc` for a live block does. -/
theorem Whole.realloc (h : Whole ram_pages n others s as seq cnt live) (hlive : b ∈ live) {size : Nat}
    (hpos : size ≠ 0) (hsize : size + sizeof_arena + PGSIZE < 2 ^ 32) :
    realloc (some b) size s = .ok (none, s) ∨
      ∃ b' t as' seq' cnt', realloc (some b) size s = .ok (some b', t) ∧
        Whole ram_pages n others t as' seq' cnt' ((b' :: live).erase b) ∧ t.descs = s.descs := by
  obtain hnone | ⟨b', t, as', seq', cnt', hmalloc, hwhole, hdescs, hfits⟩ := h.malloc hsize
  · left
    rw [threads.realloc, if_neg hpos, Exec.bind_run hnone]
    rfl
  · right
    obtain ⟨u, as'', seq'', cnt'', hmove, hwhole', hdescs'⟩ :=
      hwhole.move_block (List.mem_cons_of_mem b' hlive) List.mem_cons_self hfits
    refine ⟨b', u, as'', seq'', cnt'', ?_, hwhole', hdescs'.trans hdescs⟩
    rw [threads.realloc, if_neg hpos, Exec.bind_run hmalloc]
    exact Exec.bind_run hmove

/-- `realloc` without a block is `malloc`. -/
theorem realloc_null_eq (size : Nat) (s : Heap) : realloc none size s = malloc size s := by
  obtain rfl | hpos := eq_or_ne size 0
  · rfl
  · rw [threads.realloc, if_neg hpos]
    cases hmalloc : malloc size s with
    | error e => rw [Exec.bind_error hmalloc]
    | ok r =>
      rw [Exec.bind_run hmalloc]
      rfl

end Realloc

end pintos.threads
