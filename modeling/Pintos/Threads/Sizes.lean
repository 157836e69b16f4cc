import Pintos.Threads.MallocRuns

/-!
# The sizes of blocks

`malloc` and `calloc` compute the size of what they ask for modulo 2^32. Where that wraps
around, the block can be smaller than the size that was asked for.
-/

open bytes state_error pintos.kernel

namespace pintos.threads

/-- `malloc` gives no block, or one that is big enough. -/
def HonoursMalloc (s : Heap) (size : Nat) : Prop :=
  (∃ t, malloc size s = .ok (none, t)) ∨ ∃ b t k, malloc size s = .ok (some b, t) ∧
    block_size b t = .ok (k, t) ∧ size ≤ k

/-- `calloc` gives no block, or one that is big enough, with zeros. -/
def HonoursCalloc (s : Heap) (a b : Nat) : Prop :=
  (∃ t, calloc a b s = .ok (none, t)) ∨ ∃ p t k, calloc a b s = .ok (some p, t) ∧ block_size p t = .ok (k, t) ∧
    a * b ≤ k ∧ ∀ i < a * b, t.palloc.mem (p + i) = 0

/-- The number of pages that `malloc` computes for a size that is too big for its
descriptors. -/
def pages_for (size : Nat) : Nat := ((size + sizeof_arena) % 2 ^ 32 + PGSIZE - 1) % 2 ^ 32 / PGSIZE

/-- There is that number of pages, but not none, in a row in the kernel pool. -/
def PagesFree (s : Heap) (page_cnt : Nat) : Prop :=
  0 < page_cnt ∧ ∃ idx, bitmap_scan s.palloc.mem s.palloc.kernel_pool.used_map 0 page_cnt false =
    some (some idx)

/-- The size of the arena of a block wraps around. -/
def Wraps (size : Nat) : Prop := 2 ^ 32 - sizeof_arena < size

/-- The check of `calloc` does not see that the product is too big. -/
def Escapes (a b : Nat) : Prop := a ≤ a * b % 2 ^ 32 ∧ b ≤ a * b % 2 ^ 32 ∧ Wraps (a * b)

variable {ram_pages : Nat} {n : Bool → Nat} {others : List Block} {s t : Heap} {as : List Arena}
  {seq : Fin 7 → List Nat} {cnt : Nat → Nat} {live : List Nat} {b size : Nat}

section Pages

/-- Pages are found exactly where the pool has them. -/
theorem Core.get_pages_iff (h : Core ram_pages n others s as seq cnt) {page_cnt : Nat} (hcnt : 0 < page_cnt) :
    PagesFree s page_cnt ↔ ∃ a t, threads.get_pages page_cnt s = .ok (some a, t) := by
  obtain ⟨r, hscan, hsome, hnone⟩ := bitmap_scan_run (h.palloc.holds false) page_cnt false
  have hpool : s.palloc.pool false = s.palloc.kernel_pool := rfl
  rw [PagesFree, and_iff_right hcnt]
  obtain ⟨p, idx, hrun, hfree, -⟩ | ⟨hrun, hfull⟩ := palloc_get_multiple_run h.palloc ⟨false, false, false⟩ hcnt
  · have hget : ∃ a t, threads.get_pages page_cnt s = .ok (some a, t) := by
      rw [threads.get_pages, hrun]
      exact ⟨_, _, rfl⟩
    refine iff_of_true ?_ hget
    cases r with
    | none => exact absurd hfree.2 (hnone rfl idx hfree.1)
    | some idx => exact ⟨idx, hscan⟩
  · have hget : threads.get_pages page_cnt s = .ok (none, s) := by
      rw [threads.get_pages, hrun]
      rfl
    constructor
    · rintro ⟨idx, hidx⟩
      have hr := Option.some.inj (hscan.symm.trans hidx)
      exact absurd ⟨(hsome idx hr).1, (hsome idx hr).2⟩ (hfull idx)
    · rintro ⟨a, t, hrun'⟩
      cases (Exec.ok_inj hget hrun').1

theorem malloc_big_none (hget : get_pages (pages_for size) s = .ok (none, t)) :
    malloc_big size s = .ok (none, t) := by
  change (get_pages (pages_for size) >>= _) s = _
  rw [Exec.bind_run hget]
  rfl

theorem malloc_big_some {a : Nat} (hget : get_pages (pages_for size) s = .ok (some a, t)) :
    ∃ u, malloc_big size s = .ok (some (a + sizeof_arena), u) := by
  change ∃ u, (get_pages (pages_for size) >>= _) s = _
  rw [Exec.bind_run hget]
  exact ⟨_, rfl⟩

theorem Whole.malloc_eq_big (h : Whole ram_pages n others s as seq cnt live) (hsize : 1024 < size) :
    threads.malloc size s = threads.malloc_big size s := by
  have hpos : size ≠ 0 := by omega
  obtain ⟨k, hfit, -⟩ | ⟨-, hfind⟩ := find_desc_run h.books.core.headers.block_size size 7 0 (Nat.zero_add 7)
  · have hrange := (size_of_range k).2
    omega
  · have hzero : desc_at s.descs 0 = s.descs := by rw [desc_at, Nat.mul_zero, Nat.add_zero]
    rw [hzero] at hfind
    rw [threads.malloc, if_neg hpos, Exec.bind_run Exec.get_run]
    simp only [h.books.core.desc_cnt, hfind, if_true]

/-- A size that is too big for the descriptors gets the pages that are computed for it,
where there are that many. -/
theorem Whole.malloc_pages_iff (h : Whole ram_pages n others s as seq cnt live) (hsize : 1024 < size) :
    (¬ PagesFree s (pages_for size) ∧ threads.malloc size s = .ok (none, s)) ∨
      (PagesFree s (pages_for size) ∧ ∃ b t as' seq' cnt', threads.malloc size s = .ok (some b, t) ∧
        Whole ram_pages n others t as' seq' cnt' (b :: live) ∧
        ∃ a ∈ as', a.kind = none ∧ a.cnt = pages_for size ∧ b ∈ a.blocks) := by
  rw [h.malloc_eq_big hsize]
  obtain hzero | hcnt := Nat.eq_zero_or_pos (pages_for size)
  · refine .inl ⟨fun hfree => absurd hfree.1 (by omega), malloc_big_none ?_⟩
    rw [hzero, threads.get_pages, palloc_get_multiple_zero]
    rfl
  · have hiff := h.books.core.get_pages_iff hcnt
    obtain hnone | ⟨b, t, as', seq', cnt', hrun, hwhole, -, harena⟩ :=
      h.malloc_pages (rfl : pages_for size = _) hcnt
    · refine .inl ⟨fun hfree => ?_, hnone⟩
      obtain ⟨a, t, hget⟩ := hiff.mp hfree
      obtain ⟨u, hsome⟩ := malloc_big_some hget
      cases (Exec.ok_inj hnone hsome).1
    · refine .inr ⟨?_, b, t, as', seq', cnt', hrun, hwhole, harena⟩
      by_contra hfull
      obtain ⟨page, u, hget, -⟩ | hget := h.books.core.get_pages hcnt
      · exact hfull (hiff.mpr ⟨page, u, hget⟩)
      · cases (Exec.ok_inj hrun (malloc_big_none hget)).1

end Pages

/-- What `malloc` returns: a block that is big enough, or one of a page if the size wraps
around. -/
theorem Whole.malloc_result (h : Whole ram_pages n others s as seq cnt live) (hsize : size < 2 ^ 32) :
    threads.malloc size s = .ok (none, s) ∨ ∃ b t as' seq' cnt', threads.malloc size s = .ok (some b, t) ∧
      Whole ram_pages n others t as' seq' cnt' (b :: live) ∧ ∃ a ∈ as', b ∈ a.blocks ∧
        (¬ Wraps size → size ≤ a.block_size) ∧ (Wraps size → a.block_size = PGSIZE - sizeof_arena) := by
  by_cases hsmall : size ≤ 1024
  · obtain hnone | ⟨b, t, as', seq', cnt', hrun, hwhole, -, a, ha, hfit, hb⟩ := h.malloc
        (show size + sizeof_arena + PGSIZE < 2 ^ 32 by
          rw [sizeof_arena, PGSIZE]
          omega)
    · exact .inl hnone
    · refine .inr ⟨b, t, as', seq', cnt', hrun, hwhole, a, ha, hb, fun _ => hfit, fun hwraps => ?_⟩
      rw [Wraps, sizeof_arena] at hwraps
      omega
  · obtain ⟨-, hnone⟩ | ⟨hfree, b, t, as', seq', cnt', hrun, hwhole, a, ha, hk, hacnt, hb⟩ :=
      h.malloc_pages_iff (Nat.lt_of_not_le hsmall)
    · exact .inl hnone
    · have hcnt : pages_for size = ((size + 12) % 2 ^ 32 + 4096 - 1) % 2 ^ 32 / 4096 := rfl
      have hk' : a.block_size = 4096 * pages_for size - 12 := by
        simp only [Arena.block_size, hk, hacnt, PGSIZE, sizeof_arena]
      have hpos := hfree.1
      refine .inr ⟨b, t, as', seq', cnt', hrun, hwhole, a, ha, hb, fun hfits => ?_, fun hwraps => ?_⟩
      · rw [Wraps, sizeof_arena] at hfits
        omega
      · rw [Wraps, sizeof_arena] at hwraps
        rw [hk', PGSIZE, sizeof_arena]
        omega

/-- `malloc` honours a size exactly if it does not wrap around, or no page is left. -/
theorem Whole.honoursMalloc_iff (h : Whole ram_pages n others s as seq cnt live) (hsize : size < 2 ^ 32) :
    HonoursMalloc s size ↔ ¬ (Wraps size ∧ PagesFree s 1) := by
  by_cases hsmall : size ≤ 1024
  · refine iff_of_true ?_ fun hwraps => ?_
    · obtain hnone | ⟨b, t, as', seq', cnt', hrun, hwhole, -, a, ha, hfit, hb⟩ := h.malloc
          (show size + sizeof_arena + PGSIZE < 2 ^ 32 by
            rw [sizeof_arena, PGSIZE]
            omega)
      · exact .inl ⟨s, hnone⟩
      · exact .inr ⟨b, t, _, hrun, hwhole.block_size ha hb, hfit⟩
    · have hlarge := hwraps.1
      rw [Wraps, sizeof_arena] at hlarge
      omega
  · have hcnt : pages_for size = ((size + 12) % 2 ^ 32 + 4096 - 1) % 2 ^ 32 / 4096 := rfl
    have hone : Wraps size → pages_for size = 1 := by
      intro hwraps
      rw [Wraps, sizeof_arena] at hwraps
      omega
    obtain ⟨hfull, hnone⟩ | ⟨hfree, b, t, as', seq', cnt', hrun, hwhole, a, ha, hk, hacnt, hb⟩ :=
      h.malloc_pages_iff (Nat.lt_of_not_le hsmall)
    · refine iff_of_true (.inl ⟨s, hnone⟩) fun hwraps => hfull ?_
      rw [hone hwraps.1]
      exact hwraps.2
    · have hblock := hwhole.block_size ha hb
      have hk' : a.block_size = 4096 * pages_for size - 12 := by
        simp only [Arena.block_size, hk, hacnt, PGSIZE, sizeof_arena]
      have hpos := hfree.1
      constructor
      · rintro (⟨u, hnone⟩ | ⟨b', u, k, hrun', hsize', hfit⟩) ⟨hwraps, -⟩
        · cases (Exec.ok_inj hrun hnone).1
        · obtain ⟨hb', rfl⟩ := Exec.ok_inj hrun hrun'
          obtain rfl := Option.some.inj hb'
          obtain ⟨rfl, -⟩ := Exec.ok_inj hblock hsize'
          rw [hk', hone hwraps] at hfit
          rw [Wraps, sizeof_arena] at hwraps
          omega
      · intro hnot
        refine .inr ⟨b, t, _, hrun, hblock, ?_⟩
        have hfits : ¬ Wraps size := by
          intro hwraps
          rw [hone hwraps] at hfree
          exact hnot ⟨hwraps, hfree⟩
        rw [Wraps, sizeof_arena] at hfits
        rw [hk']
        omega

section Room

/-- There is a block for the size: one in the free list of a descriptor, or the pages for
one. -/
def HasBlock (s : Heap) (size : Nat) : Prop :=
  size ≠ 0 ∧
    let d := find_desc s.palloc.mem size s.desc_cnt s.descs
    if d = desc_at s.descs s.desc_cnt then PagesFree s (pages_for size)
    else ram.list_empty s.palloc.mem (desc.free_list d) = false ∨ PagesFree s 1

theorem new_arena_none {d : Nat} (hget : get_pages 1 s = .ok (none, t)) : new_arena d s = .ok (false, t) := by
  rw [new_arena, Exec.bind_run hget]
  rfl

theorem new_arena_some {d a : Nat} {r : Bool} {u : Heap} (hget : get_pages 1 s = .ok (some a, t))
    (hrun : new_arena d s = .ok (r, u)) : r = true := by
  rw [new_arena, Exec.bind_run hget] at hrun
  obtain ⟨_, _, -, hrun⟩ := Exec.bind_eq_ok.mp hrun
  obtain ⟨_, _, -, hrun⟩ := Exec.bind_eq_ok.mp hrun
  obtain ⟨_, _, -, hrun⟩ := Exec.bind_eq_ok.mp hrun
  cases hrun
  rfl

theorem malloc_small_eq (d : Nat) (s : Heap) : malloc_small d s =
    ((if ram.list_empty s.palloc.mem (desc.free_list d) then new_arena d else pure true) >>= fun ready =>
      if ready then take_block d >>= fun b => pure (some b) else pure none) s := by
  rw [malloc_small, Exec.bind_run (memory_run s)]
  cases ram.list_empty s.palloc.mem (desc.free_list d) with
  | true => rfl
  | false => rfl

/-- A descriptor has a block exactly where its free list has one, or a page is left. -/
theorem Whole.malloc_small_iff (h : Whole ram_pages n others s as seq cnt live) (k : Fin 7) :
    (∃ b t, threads.malloc_small (desc_at s.descs k) s = .ok (some b, t)) ↔
      ram.list_empty s.palloc.mem (desc.free_list (desc_at s.descs k)) = false ∨ PagesFree s 1 := by
  have hpages := h.books.core.get_pages_iff (show 0 < 1 by decide)
  cases hempty : ram.list_empty s.palloc.mem (desc.free_list (desc_at s.descs k)) with
  | false =>
    refine iff_of_true ?_ (.inl rfl)
    obtain hnone | ⟨b, t, as', seq', cnt', hrun, -⟩ := h.malloc_small k
    · rw [malloc_small_eq, hempty] at hnone
      obtain ⟨_, _, htrue, hnone⟩ := Exec.bind_eq_ok.mp hnone
      cases htrue
      obtain ⟨_, _, -, hnone⟩ := Exec.bind_eq_ok.mp hnone
      cases hnone
    · exact ⟨b, t, hrun⟩
  | true =>
    have hlist : seq k = [] := by
      have heq : ram.list_empty s.palloc.mem (desc.free_list (desc_at s.descs k)) = (seq k).isEmpty :=
        list_empty_eq h.books.core.lists k
      rw [hempty] at heq
      exact List.isEmpty_iff.mp heq.symm
    rw [or_iff_right (by decide), hpages]
    constructor
    · rintro ⟨b, t, hrun⟩
      obtain ⟨page, u, hget, -⟩ | hget := h.books.core.get_pages (show 0 < 1 by decide)
      · exact ⟨page, u, hget⟩
      · rw [malloc_small_eq, hempty, if_pos rfl, Exec.bind_run (new_arena_none hget)] at hrun
        cases hrun
    · rintro ⟨page, u, hget⟩
      obtain hnone | ⟨b, t, as', seq', cnt', hrun, -⟩ := h.malloc_small k
      · rw [malloc_small_eq, hempty, if_pos rfl] at hnone
        obtain ⟨r, v, hnew, hnone⟩ := Exec.bind_eq_ok.mp hnone
        obtain rfl := new_arena_some hget hnew
        obtain ⟨_, _, -, hnone⟩ := Exec.bind_eq_ok.mp hnone
        cases hnone
      · exact ⟨b, t, hrun⟩

/-- `malloc` finds a block exactly where there is one. -/
theorem Whole.hasBlock_iff (h : Whole ram_pages n others s as seq cnt live) (size : Nat) :
    HasBlock s size ↔ ∃ b t, threads.malloc size s = .ok (some b, t) := by
  rw [HasBlock]
  by_cases hzero : size = 0
  · refine iff_of_false (fun h => h.1 hzero) ?_
    rintro ⟨b, t, hrun⟩
    rw [threads.malloc, if_pos hzero] at hrun
    cases hrun
  have hcall : ∀ d, find_desc s.palloc.mem size s.desc_cnt s.descs = d → threads.malloc size s =
      (if d = desc_at s.descs s.desc_cnt then threads.malloc_big size else threads.malloc_small d) s := by
    rintro d rfl
    rw [threads.malloc, if_neg hzero, Exec.bind_run Exec.get_run]
  have hstart : desc_at s.descs 0 = s.descs := by rw [desc_at, Nat.mul_zero, Nat.add_zero]
  rw [and_iff_right hzero]
  dsimp only
  rw [h.books.core.desc_cnt] at hcall ⊢
  obtain ⟨k, hfit, hfind⟩ | ⟨hlarge, hfind⟩ :=
    find_desc_run h.books.core.headers.block_size size 7 0 (Nat.zero_add 7)
  · rw [hstart] at hfind
    have hne : desc_at s.descs k ≠ desc_at s.descs 7 := by
      have hk := k.isLt
      rw [desc_at, desc_at, sizeof_desc]
      omega
    rw [hcall _ hfind, hfind, if_neg hne, if_neg hne, h.malloc_small_iff k]
  · rw [hstart] at hfind
    have hbig : 1024 < size := hlarge ⟨6, by decide⟩ (Nat.zero_le _)
    rw [hfind, if_pos rfl]
    obtain ⟨hfull, hnone⟩ | ⟨hfree, b, t, as', seq', cnt', hrun, -⟩ := h.malloc_pages_iff hbig
    · refine iff_of_false hfull ?_
      rintro ⟨b, t, hrun⟩
      cases (Exec.ok_inj hnone hrun).1
    · exact iff_of_true hfree ⟨b, t, hrun⟩

end Room

section Calloc

variable {a c p : Nat}

theorem memset_inside {m : Ram} {dst size i : Nat} {value : BitVec 8} (hi : i < size) :
    memset m dst value size (dst + i) = value :=
  copy_inside (by omega) (by omega)

/-- The size of a big block is read from the header in front of it. -/
theorem block_size_big {page page_cnt : Nat} (haligned : page % PGSIZE = 0) (hpos : page ≠ 0)
    (hmagic : arena.magic s.palloc.mem page = ARENA_MAGIC) (hdesc : arena.desc s.palloc.mem page = 0)
    (hcnt : arena.free_cnt s.palloc.mem page = page_cnt) :
    block_size (page + sizeof_arena) s = .ok (PGSIZE * page_cnt - sizeof_arena, s) := by
  rw [PGSIZE] at haligned
  have hofs : pg_ofs (page + sizeof_arena) = sizeof_arena := by
    rw [pg_ofs, sizeof_arena, PGSIZE]
    omega
  have hround : pg_round_down (page + sizeof_arena) = page := by
    rw [pg_round_down, sizeof_arena, PGSIZE]
    omega
  have harena : block_to_arena (page + sizeof_arena) s = .ok (page, s) := by
    rw [block_to_arena, hround, Exec.bind_run (Exec.ASSERT_run hpos _), Exec.bind_run (memory_run s),
      Exec.bind_run (Exec.ASSERT_run hmagic _), Exec.bind_run (Exec.ASSERT_run (Or.inl hdesc) _),
      Exec.bind_run (Exec.ASSERT_run (Or.inr hofs) _)]
    rfl
  rw [block_size, Exec.bind_run harena, Exec.bind_run (memory_run s)]
  simp only [hdesc, hcnt, hofs, ne_eq, not_true_eq_false, if_false]
  rfl

/-- Zeros behind the header of a big block do not change its size. -/
theorem Whole.block_size_memset (h : Whole ram_pages n others s as seq cnt live) {a : Arena} (ha : a ∈ as)
    (hk : a.kind = none) (size : Nat) :
    threads.block_size (a.page + sizeof_arena) (s.set_mem (memset s.palloc.mem
      (a.page + sizeof_arena) 0 size)) =
      .ok (PGSIZE * a.cnt - sizeof_arena, s.set_mem (memset s.palloc.mem (a.page + sizeof_arena) 0 size)) := by
  have hvalid := h.books.core.arranged.valid a ha
  have hfirst := hvalid.first
  have hstart : free_start = 0xc0100000 := rfl
  have hsame : ∀ ofs ≤ 8, word (memset s.palloc.mem (a.page + sizeof_arena) 0 size) (a.page + ofs) =
      word s.palloc.mem (a.page + ofs) := by
    intro ofs hofs
    refine word_congr fun i hi => memset_outside (Or.inl ?_)
    rw [sizeof_arena]
    omega
  have hdesc : a.desc s.descs = 0 := by simp only [Arena.desc, hk]
  apply block_size_big hvalid.aligned (by omega)
  · exact (hsame 0 (by decide)).trans (h.books.core.headers.magic a ha)
  · exact (hsame 4 (by decide)).trans ((h.books.core.headers.desc a ha).trans hdesc)
  · exact (hsame 8 (by decide)).trans ((h.books.core.headers.free_cnt a ha).trans (h.books.big a ha hk))

theorem calloc_checked (h : a * c % 2 ^ 32 < a ∨ a * c % 2 ^ 32 < c) (s : Heap) :
    calloc a c s = .ok (none, s) := by
  rw [calloc]
  simp only [if_pos h]
  rfl

theorem calloc_none (hle : a ≤ a * c % 2 ^ 32) (hle' : c ≤ a * c % 2 ^ 32)
    (hrun : malloc (a * c % 2 ^ 32) s = .ok (none, t)) : calloc a c s = .ok (none, t) := by
  rw [calloc]
  simp only [if_neg (show ¬ (a * c % 2 ^ 32 < a ∨ a * c % 2 ^ 32 < c) by omega)]
  rw [Exec.bind_run hrun]
  rfl

theorem calloc_some (hle : a ≤ a * c % 2 ^ 32) (hle' : c ≤ a * c % 2 ^ 32)
    (hrun : malloc (a * c % 2 ^ 32) s = .ok (some p, t)) :
    calloc a c s = .ok (some p, t.set_mem (memset t.palloc.mem p 0 (a * c % 2 ^ 32))) := by
  rw [calloc]
  simp only [if_neg (show ¬ (a * c % 2 ^ 32 < a ∨ a * c % 2 ^ 32 < c) by omega)]
  rw [Exec.bind_run hrun]
  rfl

/-- Zeros in a live block change no size. -/
theorem Whole.block_size_zeros (h : Whole ram_pages n others s as seq cnt live) (hlive : p ∈ live) {a : Arena}
    (ha : a ∈ as) (hp : p ∈ a.blocks) (hsize : size ≤ a.block_size) :
    threads.block_size p (s.set_mem (memset s.palloc.mem p 0 size)) =
      .ok (a.block_size, s.set_mem (memset s.palloc.mem p 0 size)) := by
  have hbooks := h.books.write (memset s.palloc.mem p 0 size) fun x hx _ => by
    have hout := hx p hlive a ha hp
    exact memset_outside (by omega)
  exact Whole.block_size ⟨hbooks, h.used⟩ ha hp

/-- `calloc` honours a product exactly if it does not escape the check, or there are not
as many pages as it takes it for. -/
theorem Whole.honoursCalloc_iff (h : Whole ram_pages n others s as seq cnt live) :
    HonoursCalloc s a c ↔ ¬ (Escapes a c ∧ PagesFree s (pages_for (a * c % 2 ^ 32))) := by
  by_cases hchecked : a * c % 2 ^ 32 < a ∨ a * c % 2 ^ 32 < c
  · refine iff_of_true (.inl ⟨s, calloc_checked hchecked s⟩) fun hescapes => ?_
    have hle := hescapes.1.1
    have hle' := hescapes.1.2.1
    omega
  obtain ⟨hle, hle'⟩ : a ≤ a * c % 2 ^ 32 ∧ c ≤ a * c % 2 ^ 32 := by omega
  by_cases hsmall : a * c % 2 ^ 32 ≤ 1024
  · -- two small factors: the product is exact
    have hexact : a * c % 2 ^ 32 = a * c := by
      apply Nat.mod_eq_of_lt
      exact Nat.lt_of_le_of_lt (Nat.mul_le_mul (hle.trans hsmall) (hle'.trans hsmall)) (by decide)
    refine iff_of_true ?_ fun hescapes => ?_
    · obtain hnone | ⟨p, t, as', seq', cnt', hrun, hwhole, -, x, hx, hfit, hp⟩ := h.malloc
          (show a * c % 2 ^ 32 + sizeof_arena + PGSIZE < 2 ^ 32 by
            rw [sizeof_arena, PGSIZE]
            omega)
      · exact .inl ⟨s, calloc_none hle hle' hnone⟩
      · refine .inr ⟨p, _, _, calloc_some hle hle' hrun,
          hwhole.block_size_zeros List.mem_cons_self hx hp hfit, ?_, ?_⟩
        · omega
        · intro i hi
          exact memset_inside (by omega)
    · have hwraps := hescapes.1.2.2
      rw [Wraps, sizeof_arena] at hwraps
      omega
  have hcnt : pages_for (a * c % 2 ^ 32) = ((a * c % 2 ^ 32 + 12) % 2 ^ 32 + 4096 - 1) % 2 ^ 32 / 4096 := rfl
  obtain ⟨hfull, hnone⟩ | ⟨hfree, p, t, as', seq', cnt', hrun, hwhole, x, hx, hk, hxcnt, hp⟩ :=
    h.malloc_pages_iff (Nat.lt_of_not_le hsmall)
  · exact iff_of_true (.inl ⟨s, calloc_none hle hle' hnone⟩) fun hescapes => hfull hescapes.2
  · obtain rfl := (Arena.mem_blocks_big hk).mp hp
    have hblock := hwhole.block_size_memset hx hk (a * c % 2 ^ 32)
    have hcalloc := calloc_some hle hle' hrun
    have hlast := (hwhole.books.core.arranged.valid x hx).last
    have hpos := hfree.1
    rw [hxcnt] at hblock hlast
    simp only [PGSIZE, sizeof_arena] at hblock hlast
    constructor
    · rintro (⟨u, hnone⟩ | ⟨p', u, k, hrun', hsize', hfit, -⟩) ⟨hescapes, -⟩
      · cases (Exec.ok_inj hcalloc hnone).1
      · obtain ⟨hp', rfl⟩ := Exec.ok_inj hcalloc hrun'
        obtain rfl := Option.some.inj hp'
        obtain ⟨rfl, -⟩ := Exec.ok_inj hblock hsize'
        have hwraps := hescapes.2.2
        rw [Wraps, sizeof_arena] at hwraps
        omega
    · intro hnot
      have hfits : ¬ Wraps (a * c) := fun hwraps => hnot ⟨⟨hle, hle', hwraps⟩, hfree⟩
      rw [Wraps, sizeof_arena] at hfits
      refine .inr ⟨_, _, _, hcalloc, hblock, ?_, fun i hi => memset_inside ?_⟩
      · omega
      · omega

end Calloc

section Runs

/-- In every run of the heap, `malloc` and `calloc` honour the sizes that do not wrap
around, and others only where there are not the pages that they take them for. -/
theorem sizes_are_honoured_iff {m : Ram} {ax user_page_limit descs : Nat} {p : State}
    (hinit : palloc_init m (init_ram_pages ax) user_page_limit = .ok p) (hpos : 0 < descs)
    (hfront : descs + sizeof_desc * 10 ≤ free_start) :
    ∃ s₀, malloc_init ⟨p, descs, 0, []⟩ = .ok ((), s₀) ∧ ∀ s live others, HeapRun s₀ s live others →
      ∀ size a b, size < 2 ^ 32 → a < 2 ^ 32 → b < 2 ^ 32 →
        (HonoursMalloc s size ↔ ¬ (Wraps size ∧ PagesFree s 1)) ∧
        (HonoursCalloc s a b ↔ ¬ (Escapes a b ∧ PagesFree s (pages_for (a * b % 2 ^ 32)))) := by
  obtain ⟨n, hp⟩ := palloc_init_run hinit
  obtain ⟨s₀, hrun, hwhole⟩ := malloc_init_run hp (init_ram_pages_range ax).2 hpos hfront
  refine ⟨s₀, hrun, ?_⟩
  intro s live others hheap size a b hsize _ _
  obtain ⟨as, seq, cnt, h⟩ := hheap.whole hwhole
  exact ⟨h.honoursMalloc_iff hsize, h.honoursCalloc_iff⟩

/-- A machine with three pages in the kernel pool. -/
theorem sizes_are_honoured_small : ∃ p, palloc_init (fun _ => 0) (init_ram_pages 20) 1 = .ok p ∧
    ∃ s₀, malloc_init ⟨p, 0xc0020000, 0, []⟩ = .ok ((), s₀) ∧ ∀ s live others, HeapRun s₀ s live others →
      ∀ size a b, size < 2 ^ 32 → a < 2 ^ 32 → b < 2 ^ 32 →
        (HonoursMalloc s size ↔ ¬ (Wraps size ∧ PagesFree s 1)) ∧
        (HonoursCalloc s a b ↔ ¬ (Escapes a b ∧ PagesFree s (pages_for (a * b % 2 ^ 32)))) := by
  obtain ⟨p, hinit⟩ : ∃ p, palloc_init (fun _ => 0) (init_ram_pages 20) 1 = .ok p := ⟨_, rfl⟩
  exact ⟨p, hinit, sizes_are_honoured_iff hinit (by decide) (by decide)⟩

/-- Right after the start, `malloc (0xffffffff)` returns a block of less than a page. -/
theorem malloc_ignores_size : ∃ p s₀, palloc_init (fun _ => 0) (init_ram_pages 20) 1 = .ok p ∧
    malloc_init ⟨p, 0xc0020000, 0, []⟩ = .ok ((), s₀) ∧ ¬ HonoursMalloc s₀ 0xffffffff := by
  obtain ⟨p, hinit, hcnt⟩ : ∃ p, palloc_init (fun _ => 0) (init_ram_pages 20) 1 = .ok p ∧
      bit_cnt p.mem (p.pool false).used_map = 3 := ⟨_, rfl, by decide⟩
  obtain ⟨n, hp⟩ := palloc_init_run hinit
  obtain ⟨s₀, hrun, as, seq, cnt, h⟩ := malloc_init_run hp (init_ram_pages_range 20).2
    (show 0 < 0xc0020000 by decide) (by decide)
  refine ⟨p, s₀, hinit, hrun, ?_⟩
  have hn : n false = 3 := (hp.holds false).cnt.symm.trans hcnt
  rw [h.honoursMalloc_iff (by decide), not_not]
  refine ⟨show 2 ^ 32 - 12 < 0xffffffff by decide, by decide, ?_⟩
  obtain ⟨r, hscan, -, hnone⟩ := bitmap_scan_run (h.books.core.palloc.holds false) 1 false
  cases r with
  | some idx => exact ⟨idx, hscan⟩
  | none =>
    have hempty : s₀.arenas = [] := by
      refine List.eq_nil_iff_forall_not_mem.mpr fun x hx => ?_
      obtain ⟨y, hy, -⟩ := h.mem_arenas.mp hx
      obtain ⟨b, -, hb⟩ := h.used y hy
      cases hb
    refine absurd ?_ (hnone rfl 0 (by omega))
    intro i _ _
    rw [hempty]
    rfl

end Runs

end pintos.threads
