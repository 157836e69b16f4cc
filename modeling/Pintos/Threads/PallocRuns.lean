import Pintos.Threads.PallocPools

/-!
# Runs of the page allocator

What holds after `palloc_init` and any sequence of allocations, of freeing what was
allocated, and of writing to it.
-/

open bytes pintos.kernel

namespace pintos.threads

section Init

variable {m m' : Ram} {base page_cnt : Nat} {p : pool}

theorem init_pool_run (hcnt : page_cnt < 2 ^ 20) (hbase : base % PGSIZE = 0)
    (hlast : base + PGSIZE * page_cnt < 2 ^ 32) (hrun : init_pool m base page_cnt = .ok (m', p)) :
    ∃ n, Holds m' p.used_map n (fun _ => false) ∧ p.used_map = base ∧ p.base % PGSIZE = 0 ∧
      p.used_map + bitmap_buf_size n ≤ p.base ∧ p.base + PGSIZE * n = base + PGSIZE * page_cnt ∧
      ∀ a, a < base ∨ p.base ≤ a → m' a = m a := by
  rw [init_pool] at hrun
  dsimp only at hrun
  obtain ⟨bm_pages, hbm⟩ : ∃ k, k = (bitmap_buf_size page_cnt + PGSIZE - 1) / PGSIZE := ⟨_, rfl⟩
  rw [← hbm] at hrun
  by_cases hfit : bm_pages > page_cnt
  · rw [if_pos hfit] at hrun
    contradiction
  rw [if_neg hfit] at hrun
  have hbuf : bitmap_buf_size page_cnt = 8 + 4 * ((page_cnt + 31) / 32) := by
    rw [bitmap_buf_size, byte_cnt_of_small (by omega), sizeof_bitmap]
  have hbuf' : bitmap_buf_size (page_cnt - bm_pages) = 8 + 4 * ((page_cnt - bm_pages + 31) / 32) := by
    rw [bitmap_buf_size, byte_cnt_of_small (by omega), sizeof_bitmap]
  have hroom : bitmap_buf_size (page_cnt - bm_pages) ≤ bm_pages * PGSIZE := by
    rw [PGSIZE] at hbm ⊢
    omega
  have hpos : 0 < bm_pages := by
    rw [PGSIZE] at hbm
    omega
  have hsmall : page_cnt - bm_pages < 2 ^ 31 := by omega
  have hblock : base + 8 < 2 ^ 32 := by
    rw [PGSIZE] at hlast hbm
    omega
  obtain ⟨m₁, hcreate, hholds, hframe⟩ := bitmap_create_in_buf_run m hsmall hblock hroom
  rw [hcreate] at hrun
  obtain ⟨rfl, rfl⟩ := Prod.mk.inj (Except.ok.inj hrun)
  refine ⟨page_cnt - bm_pages, hholds, rfl, ?_, ?_, ?_, ?_⟩
  · dsimp only
    rw [PGSIZE] at hbase ⊢
    omega
  · dsimp only
    omega
  · dsimp only
    rw [PGSIZE]
    omega
  · intro a ha
    dsimp only at ha
    exact hframe a (by omega)

theorem init_ram_pages_range (ax : Nat) : 256 ≤ init_ram_pages ax ∧ init_ram_pages ax ≤ 16384 := by
  rw [init_ram_pages]
  omega

/-- After `palloc_init` nothing is allocated. -/
theorem palloc_init_run {ax user_page_limit : Nat} {s : State}
    (hinit : palloc_init m (init_ram_pages ax) user_page_limit = .ok s) :
    ∃ n, Inv (init_ram_pages ax) n s [] := by
  obtain ⟨hlow, hhigh⟩ := init_ram_pages_range ax
  obtain ⟨ram_pages, hram⟩ : ∃ k, k = init_ram_pages ax := ⟨_, rfl⟩
  rw [← hram] at hinit hlow hhigh ⊢
  have hstart : free_start = 0xc0100000 := rfl
  have hend : free_end ram_pages = ram_pages * 4096 + 0xc0000000 := rfl
  rw [palloc_init] at hinit
  dsimp only at hinit
  obtain ⟨free_pages, hfree⟩ : ∃ k, k = (free_end ram_pages - free_start) / PGSIZE := ⟨_, rfl⟩
  obtain ⟨user_pages, huser⟩ :
      ∃ k, k = if free_pages / 2 > user_page_limit then user_page_limit else free_pages / 2 := ⟨_, rfl⟩
  rw [← hfree, ← huser] at hinit
  have hpages : free_pages = ram_pages - 256 := by
    rw [hfree, hstart, hend, PGSIZE]
    omega
  have hle : user_pages ≤ free_pages / 2 := by
    rw [huser]
    split_ifs <;> omega
  obtain ⟨⟨m₁, kernel⟩, hkernel, hinit⟩ := bind_eq_ok hinit
  obtain ⟨⟨m₂, user⟩, huser', hinit⟩ := bind_eq_ok hinit
  obtain rfl := Except.ok.inj hinit
  obtain ⟨kn, hk, hkmap, hkalign, hkroom, hkend, -⟩ := init_pool_run (by omega)
    (by rw [hstart, PGSIZE]) (by rw [hstart, PGSIZE]; omega) hkernel
  obtain ⟨un, hu, humap, hualign, huroom, huend, huframe⟩ := init_pool_run (by omega)
    (by rw [hstart, PGSIZE]; omega) (by rw [hstart, PGSIZE]; omega) huser'
  have hbetween : kernel.base + PGSIZE * kn ≤ user.used_map := by
    rw [humap, hkend]
    rw [PGSIZE]
    omega
  refine ⟨fun u => if u then un else kn, ?_, ?_, ?_, hkmap.symm.le, hbetween, ?_, ?_, List.Pairwise.nil⟩
  · intro u
    cases u with
    | false =>
      -- The user pool is behind the map of the kernel pool.
      refine (hk.congr ?_).ext fun _ _ => rfl
      intro a _ hhigh
      exact huframe a (by omega)
    | true => exact hu.ext fun _ _ => rfl
  · intro u
    cases u <;> assumption
  · intro u
    cases u <;> assumption
  · change user.base + PGSIZE * un ≤ free_end ram_pages
    rw [huend, hend, hstart, PGSIZE]
    omega
  · intro a ha
    contradiction

end Init

/-- Calls of the allocator, with the live allocations. What is freed is an allocation,
and memory is written in allocations. -/
inductive Run (s₀ : State) : State → List Block → Prop where
  | start : Run s₀ s₀ []
  | get {s s' : State} {live : List Block} {flags : palloc_flags} {cnt pages : Nat} : Run s₀ s live →
      palloc_get_multiple flags cnt s = .ok (s', some pages) → Run s₀ s' (⟨pages, cnt⟩ :: live)
  | get_none {s s' : State} {live : List Block} {flags : palloc_flags} {cnt : Nat} : Run s₀ s live →
      palloc_get_multiple flags cnt s = .ok (s', none) → Run s₀ s' live
  | free {s s' : State} {live : List Block} {a : Block} : Run s₀ s live → a ∈ live →
      palloc_free_multiple a.pages a.cnt s = .ok s' → Run s₀ s' (live.erase a)
  | write {s : State} {live : List Block} {m : Ram} : Run s₀ s live →
      (∀ x, (∀ a ∈ live, ¬ a.covers x) → m x = s.mem x) → Run s₀ { s with mem := m } live

/-- The number of pages in a pool. -/
def State.page_cnt (s : State) (user : Bool) : Nat := bit_cnt s.mem (s.pool user).used_map

/-- The maps and the pages of the pools. -/
def State.regions (s : State) : List (Nat × Nat) :=
  [false, true].flatMap fun u =>
    [((s.pool u).used_map, (s.pool u).used_map + bitmap_buf_size (s.page_cnt u)),
      ((s.pool u).base, (s.pool u).base + PGSIZE * s.page_cnt u)]

/-- What the allocator is for. -/
structure Correct (ram_pages : Nat) (s : State) (live : List Block) : Prop where
  regions_apart : s.regions.Pairwise fun r r' => r.2 ≤ r'.1
  regions_inside : ∀ r ∈ s.regions, free_start ≤ r.1 ∧ r.2 ≤ free_end ram_pages
  used_map : ∀ u i, i < s.page_cnt u → ∃ r, bitmap_test s.mem (s.pool u).used_map i = some r ∧
    (r = true ↔ ∃ a ∈ live, a.covers ((s.pool u).base + PGSIZE * i))
  placed : ∀ a ∈ live, ∃ u, a.Inside (s.pool u).base (s.page_cnt u)
  live_apart : live.Pairwise Block.Apart
  get : ∀ (flags : palloc_flags) (cnt : Nat), 0 < cnt →
    (∃ idx, FreeGroup live (s.pool flags.PAL_USER).base (s.page_cnt flags.PAL_USER) cnt idx) →
    ∃ s' idx, palloc_get_multiple flags cnt s = .ok (s', some ((s.pool flags.PAL_USER).base + PGSIZE * idx)) ∧
      FreeGroup live (s.pool flags.PAL_USER).base (s.page_cnt flags.PAL_USER) cnt idx
  get_none : ∀ (flags : palloc_flags) (cnt : Nat), 0 < cnt →
    (¬ ∃ idx, FreeGroup live (s.pool flags.PAL_USER).base (s.page_cnt flags.PAL_USER) cnt idx) →
    palloc_get_multiple flags cnt s = if flags.PAL_ASSERT then .error .out_of_pages else .ok (s, none)
  free : ∀ a ∈ live, ∃ s', palloc_free_multiple a.pages a.cnt s = .ok s'

section Runs

variable {ram_pages : Nat} {n : Bool → Nat} {s s' : State} {live : List Block}

theorem Inv.correct (h : Inv ram_pages n s live) : Correct ram_pages s live := by
  have hcnt : ∀ u, s.page_cnt u = n u := fun u => (h.holds u).cnt
  obtain ⟨hfalse, hbetween, htrue⟩ := h.order
  have hfirst := h.first
  have hlast := h.last
  refine ⟨?_, ?_, ?_, ?_, h.apart, ?_, ?_, ?_⟩
  · simp only [State.regions, hcnt, List.flatMap_cons, List.flatMap_nil, List.append_nil, List.cons_append,
      List.nil_append, List.pairwise_cons, List.mem_cons, List.not_mem_nil, or_false,
        forall_eq_or_imp, forall_eq,
      List.Pairwise.nil, and_true, IsEmpty.forall_iff, implies_true]
    refine ⟨⟨hfalse, ?_, ?_⟩, ⟨?_, ?_⟩, ?_⟩ <;> omega
  · intro r hr
    simp only [State.regions, hcnt, List.flatMap_cons, List.flatMap_nil, List.append_nil, List.cons_append,
      List.nil_append, List.mem_cons, List.not_mem_nil, or_false] at hr
    obtain rfl | rfl | rfl | rfl := hr <;> constructor <;> dsimp only <;> omega
  · intro u i hi
    rw [hcnt] at hi
    exact ⟨_, bitmap_test_run (h.holds u) hi, used_iff⟩
  · intro a ha
    obtain ⟨u, hin⟩ := h.placed a ha
    exact ⟨u, (hcnt u).symm ▸ hin⟩
  · intro flags cnt hpos hfree
    rw [hcnt] at hfree ⊢
    obtain ⟨s', idx, hrun, hgroup, -, -⟩ | ⟨-, hnone⟩ := palloc_get_multiple_run h flags hpos
    · exact ⟨s', idx, hrun, hgroup⟩
    · obtain ⟨idx, hgroup⟩ := hfree
      exact absurd hgroup (hnone idx)
  · intro flags cnt hpos hfree
    rw [hcnt] at hfree
    obtain ⟨s', idx, -, hgroup, -, -⟩ | ⟨hrun, -⟩ := palloc_get_multiple_run h flags hpos
    · exact absurd ⟨idx, hgroup⟩ hfree
    · exact hrun
  · intro a ha
    obtain ⟨s', hrun, -, -⟩ := palloc_free_multiple_run h ha
    exact ⟨s', hrun⟩

theorem palloc_get_multiple_zero (flags : palloc_flags) (s : State) :
    palloc_get_multiple flags 0 s = .ok (s, none) :=
  rfl

end Runs

end pintos.threads
