import Pintos.Threads.Sizes
import Mathlib.Data.Nat.Fib.Basic

/-!
# The array of `fibonacci` (`userprog/syscall.c`)

The system call fills an array from `malloc`. Each of its accesses is checked here against
the block that `malloc` has returned.
-/

open bytes state_error twos_complement pintos.kernel pintos.threads

namespace pintos.prj2.fibo

/-- Why `fibonacci` does not return: a kernel panic, or an access outside of the block. -/
inductive Stray where
  | panic (p : Panic)
  | outside
  deriving DecidableEq, Repr

/-- Code with checked accesses. -/
abbrev Checked (α : Type) := state_error.Exec Heap Stray α

/-- A call of the memory allocator. -/
def call {α : Type} (f : threads.Exec α) : Checked α := fun s =>
  match f s with
  | .ok r => .ok r
  | .error p => .error (.panic p)

/-- The address of `fib[i]`, computed with 32 bits. -/
def element (fib : Nat) (i : Int) : Nat := ((fib + 4 * i) % 2 ^ 32).toNat

/-- `fib[i]` is in the block of `room` bytes at `fib`. -/
def check (fib room : Nat) (i : Int) : Checked Unit :=
  Exec.ASSERT (fib ≤ element fib i ∧ element fib i + 4 ≤ fib + room) .outside

/-- The value of `fib[i]`. -/
def load (fib room : Nat) (i : Int) : Checked Nat := do
  check fib room i
  let s ← Exec.get
  return word s.palloc.mem (element fib i)

/-- `fib[i] = w`. -/
def store (fib room : Nat) (i : Int) (w : Nat) : Checked Unit := do
  check fib room i
  Exec.modify fun s => s.set_mem (store_word s.palloc.mem (element fib i) w)

/-- The loop of `fibonacci`; `n` elements are left, from `i` on. -/
def fib_loop (fib room : Nat) : Nat → Nat → Checked Unit
  | 0, _ => pure ()
  | n + 1, i => do
    let a ← load fib room (i - 1)
    let b ← load fib room (i - 2)
    store fib room i ((a + b) % 2 ^ 32)
    fib_loop fib room n (i + 1)

/-- The bytes of a block; a null pointer has none. -/
def room_of : Option Nat → Checked Nat
  | some b => call (block_size b)
  | none => pure 0

/-- `sizeof(int) * (n + 1)`. -/
def size_for (n : Int) : Nat := (4 * int32 (n + 1) % 2 ^ 32).toNat

/-- `fibonacci`. -/
def fibonacci (n : Int) : Checked Nat := do
  let block ← call (malloc (size_for n))
  let room ← room_of block
  let fib := block.getD 0
  store fib room 0 0
  store fib room 1 1
  fib_loop fib room (n - 1).toNat 2
  let res ← load fib room n
  call (free block)
  return res

section Accesses

variable {fib room : Nat} {i n : Nat} {s t : Heap} {m : Ram}

theorem call_run {α : Type} {f : threads.Exec α} {r : α} (h : f s = .ok (r, t)) : call f s = .ok (r, t) := by
  rw [call, h]

/-- An element of the block. -/
theorem element_inside (hend : fib + room ≤ 2 ^ 32) (hi : 4 * i + 4 ≤ room) : element fib i = fib + 4 * i := by
  rw [element]
  omega

theorem load_run {j : Int} (hlow : fib ≤ element fib j) (hhigh : element fib j + 4 ≤ fib + room) :
    load fib room j s = .ok (word s.palloc.mem (element fib j), s) := by
  rw [load, check, Exec.bind_run (Exec.ASSERT_run ⟨hlow, hhigh⟩ _), Exec.bind_run Exec.get_run]
  rfl

theorem load_inside (hend : fib + room ≤ 2 ^ 32) (hi : 4 * i + 4 ≤ room) :
    load fib room i s = .ok (word s.palloc.mem (fib + 4 * i), s) := by
  have hat := element_inside hend hi
  rw [load_run (by omega) (by omega), hat]

theorem store_inside (hend : fib + room ≤ 2 ^ 32) (hi : 4 * i + 4 ≤ room) (w : Nat) :
    store fib room i w s = .ok ((), s.set_mem (store_word s.palloc.mem (fib + 4 * i) w)) := by
  have hat := element_inside hend hi
  rw [store, check, Exec.bind_run (Exec.ASSERT_run (by omega) _), hat]
  rfl

/-- The first element behind the block. -/
theorem store_behind (hpos : 0 < fib) (hend : fib + room ≤ 2 ^ 32) (hi : 4 * i ≤ room)
    (hbehind : room < 4 * i + 4) (w : Nat) :
    store fib room i w s = .error .outside := by
  rw [store, check]
  refine Exec.bind_error (Exec.ASSERT_error ?_ _)
  rw [element]
  omega

/-- The elements before `i` are filled, and only the block has changed. -/
structure Filled (t : Heap) (m : Ram) (fib room i : Nat) : Prop where
  words : ∀ j < i, word m (fib + 4 * j) = Nat.fib j % 2 ^ 32
  frame : ∀ x, x < fib ∨ fib + room ≤ x → m x = t.palloc.mem x

theorem Filled.store (h : Filled t m fib room i) (hi : 4 * i + 4 ≤ room) :
    Filled t (store_word m (fib + 4 * i) (Nat.fib i % 2 ^ 32)) fib room (i + 1) := by
  refine ⟨fun j hj => ?_, fun x hx => ?_⟩
  · obtain hlt | rfl := Nat.lt_succ_iff_lt_or_eq.mp hj
    · rw [word_store_word_ne _ (by omega), h.words j hlt]
    · exact word_store_word _ _ (Nat.mod_lt _ (by decide))
  · rw [store_word_outside (by omega), h.frame x hx]

/-- The loop fills the array, where there is room for all of it. -/
theorem fib_loop_run (hend : fib + room ≤ 2 ^ 32) (n : Nat) : ∀ {i : Nat} {m : Ram}, 2 ≤ i →
    4 * (i + n) ≤ room →
    Filled t m fib room i →
      ∃ m', fib_loop fib room n i (t.set_mem m) = .ok ((), t.set_mem m') ∧ Filled t m' fib room (i + n) := by
  induction n with
  | zero => exact fun {i m} _ _ h => ⟨m, rfl, h⟩
  | succ n ih =>
    intro i m hi hroom h
    obtain ⟨j, rfl⟩ := Nat.exists_eq_add_of_le' hi
    have hone := load_inside (s := t.set_mem m) hend (show 4 * (j + 1) + 4 ≤ room by omega)
    have htwo := load_inside (s := t.set_mem m) hend (show 4 * j + 4 ≤ room by omega)
    have hnext := store_inside (s := t.set_mem m) (i := j + 2) hend (by omega) (Nat.fib (j + 2) % 2 ^ 32)
    obtain ⟨m', hrun, h'⟩ := ih (by omega) (by omega) (h.store (by omega))
    have hsum : (word m (fib + 4 * (j + 1)) + word m (fib + 4 * j)) % 2 ^ 32 = Nat.fib (j + 2) % 2 ^ 32 := by
      rw [h.words _ (by omega), h.words _ (by omega), ← Nat.add_mod, Nat.fib_add_two, Nat.add_comm]
    refine ⟨m', ?_, by rwa [Nat.add_right_comm, Nat.add_assoc] at h'⟩
    rw [fib_loop, show ((j + 2 : Nat) : Int) - 1 = (j + 1 : Nat) by omega, Exec.bind_run hone,
      show ((j + 2 : Nat) : Int) - 2 = (j : Nat) by omega, Exec.bind_run htwo]
    simp only [Heap.set_mem] at hsum ⊢
    rw [hsum]
    simp only [Heap.set_mem] at hnext hrun
    rw [Exec.bind_run hnext]
    exact hrun

/-- The loop leaves the block, where there is not. -/
theorem fib_loop_error (hpos : 0 < fib) (hend : fib + room ≤ 2 ^ 32) (n : Nat) : ∀ {i : Nat} {s : Heap},
    2 ≤ i → 4 * i ≤ room →
    room < 4 * (i + n) → fib_loop fib room n i s = .error .outside := by
  induction n with
  | zero => exact fun _ hi hlt => absurd hlt (Nat.not_lt.mpr hi)
  | succ n ih =>
    intro i s htwo hi hlt
    obtain ⟨j, rfl⟩ := Nat.exists_eq_add_of_le' htwo
    rw [fib_loop, show ((j + 2 : Nat) : Int) - 1 = (j + 1 : Nat) by omega,
      Exec.bind_run (load_inside hend (show 4 * (j + 1) + 4 ≤ room by omega)),
      show ((j + 2 : Nat) : Int) - 2 = (j : Nat) by omega, Exec.bind_run (load_inside hend (show 4 * j + 4 ≤ room by omega))]
    by_cases hfits : 4 * (j + 2) + 4 ≤ room
    · rw [Exec.bind_run (store_inside hend hfits _)]
      exact ih (by omega) (by omega) (by omega)
    · exact Exec.bind_error (store_behind hpos hend hi (by omega) _)

end Accesses

section Calls

variable {ram_pages : Nat} {pages : Bool → Nat} {others : List Block} {s t : Heap} {as : List Arena} {a : Arena}
  {seq : Fin 7 → List Nat} {cnt : Nat → Nat} {live : List Nat} {b : Nat} {n : Int}

theorem fibonacci_null (hrun : malloc (size_for n) s = .ok (none, t)) : fibonacci n s = .error .outside := by
  have hroom : room_of none t = .ok (0, t) := rfl
  rw [fibonacci, Exec.bind_run (call_run hrun), Exec.bind_run hroom]
  exact Exec.bind_error (Exec.bind_error (Exec.ASSERT_error (by decide) _))

/-- The block of the array. -/
structure Holding (ram_pages : Nat) (pages : Bool → Nat) (others : List Block) (t : Heap) (as : List Arena)
    (seq : Fin 7 → List Nat) (cnt : Nat → Nat) (live : List Nat) (a : Arena) (b : Nat) : Prop where
  whole : Whole ram_pages pages others t as seq cnt (b :: live)
  arena : a ∈ as
  block : b ∈ a.blocks

theorem Holding.range (h : Holding ram_pages pages others t as seq cnt live a b) :
    free_start < b ∧ b + a.block_size ≤ 2 ^ 32 ∧ 16 ≤ a.block_size := by
  have hvalid := h.whole.books.core.arranged.valid a h.arena
  have hinside := hvalid.block_inside h.block
  have hfirst := hvalid.first
  have hlast := hvalid.last
  refine ⟨?_, by omega, a.block_size_pos hvalid.cnt⟩
  rw [sizeof_arena] at hinside
  omega

/-- The code of `fibonacci` after the first two elements. -/
theorem fibonacci_start (hrun : malloc (size_for n) s = .ok (some b, t))
    (h : Holding ram_pages pages others t as seq cnt live a b) :
    ∃ m, Filled t m b a.block_size 2 ∧ fibonacci n s =
      (fib_loop b a.block_size (n - 1).toNat 2 >>= fun _ => load b a.block_size n >>= fun res =>
        call (free (some b)) >>= fun _ => pure res) (t.set_mem m) := by
  obtain ⟨-, hend, hroom⟩ := h.range
  have hempty : Filled t t.palloc.mem b a.block_size 0 := ⟨fun _ hj => absurd hj (Nat.not_lt_zero _),
      fun _ _ => rfl⟩
  have hfilled := (hempty.store (by omega)).store (by omega)
  refine ⟨_, hfilled, ?_⟩
  have hsize : room_of (some b) t = .ok (a.block_size, t) := call_run (h.whole.block_size h.arena h.block)
  have hzero := store_inside (s := t) (i := 0) hend (by omega) 0
  rw [fibonacci, Exec.bind_run (call_run hrun), Exec.bind_run hsize]
  change (store b a.block_size (0 : Nat) 0 >>= _) t = _
  rw [Exec.bind_run hzero]
  change (store b a.block_size (1 : Nat) 1 >>= _) _ = _
  rw [Exec.bind_run (store_inside hend (by omega) 1)]
  rfl

/-- The block is freed, whatever is in it. -/
theorem Holding.free (h : Holding ram_pages pages others t as seq cnt live a b) {m : Ram} {i : Nat}
    (hm : Filled t m b a.block_size i) : ∃ u, threads.free (some b) (t.set_mem m) = .ok ((), u) := by
  have hbooks := h.whole.books.write m fun x hx _ =>
    hm.frame x (hx b List.mem_cons_self a h.arena h.block)
  obtain ⟨u, -, -, -, hfree, -⟩ := Whole.free ⟨hbooks, h.whole.used⟩ List.mem_cons_self
  exact ⟨u, hfree⟩

/-- `fibonacci` with a block that has room for the loop returns where `fib[n]` is in the
block. -/
theorem fibonacci_load (hrun : malloc (size_for n) s = .ok (some b, t))
    (h : Holding ram_pages pages others t as seq cnt live a b)
    (hloop : 4 * (2 + (n - 1).toNat) ≤ a.block_size) :
    if b ≤ element b n ∧ element b n + 4 ≤ b + a.block_size then
      ∃ r u, fibonacci n s = .ok (r, u) ∧ (0 ≤ n → r = Nat.fib n.toNat % 2 ^ 32)
    else fibonacci n s = .error .outside := by
  obtain ⟨-, hend, hroom⟩ := h.range
  obtain ⟨m, hm, hstart⟩ := fibonacci_start hrun h
  obtain ⟨m', hfib, hm'⟩ := fib_loop_run hend _ (Nat.le_refl 2) hloop hm
  rw [hstart, Exec.bind_run hfib]
  split
  · next hin =>
    obtain ⟨u, hfree⟩ := h.free hm'
    refine ⟨word m' (element b n), u, ?_, fun hn => ?_⟩
    · rw [Exec.bind_run (load_run hin.1 hin.2), Exec.bind_run (call_run hfree)]
      rfl
    · obtain ⟨k, rfl⟩ := Int.eq_ofNat_of_zero_le hn
      rw [element_inside hend (by omega)]
      exact hm'.words k (by omega)
  · next hout =>
    rw [load, check]
    exact Exec.bind_error (Exec.bind_error (Exec.ASSERT_error hout _))

theorem fibonacci_loop (hrun : malloc (size_for n) s = .ok (some b, t))
    (h : Holding ram_pages pages others t as seq cnt live a b)
    (hloop : a.block_size < 4 * (2 + (n - 1).toNat)) :
    fibonacci n s = .error .outside := by
  obtain ⟨hpos, hend, hroom⟩ := h.range
  obtain ⟨m, -, hstart⟩ := fibonacci_start hrun h
  rw [hstart]
  exact Exec.bind_error (fib_loop_error (Nat.zero_lt_of_lt hpos) hend _ (Nat.le_refl 2) (by omega) hloop)

/-- The array of `fibonacci n` is as big as it is taken for, and there is a block for it:
its size does not wrap around, and the index `n`, modulo 2^30, is in it. -/
def Safe (s : Heap) (n : Int) : Prop :=
  n < 2 ^ 30 ∧ n % 2 ^ 30 + 3 < 2 ^ 30 ∧ HasBlock s (4 * (n % 2 ^ 30 + 1)).toNat

theorem size_for_eq (hlow : -2 ^ 31 ≤ n) (hhigh : n < 2 ^ 31) :
    size_for n = (4 * ((n + 1) % 2 ^ 30)).toNat := by
  rw [size_for]
  by_cases hlast : n = 2 ^ 31 - 1
  · subst hlast
    decide
  · rw [int32_of_range (by omega) (by omega)]
    omega

/-- `fibonacci` stays in its block, and returns the number for a natural `n`, exactly where
that is safe. -/
theorem fibonacci_iff (h : Whole ram_pages pages others s as seq cnt live) (hlow : -2 ^ 31 ≤ n)
    (hhigh : n < 2 ^ 31) :
    (∃ r t, fibonacci n s = .ok (r, t) ∧ (0 ≤ n → r = Nat.fib n.toNat % 2 ^ 32)) ↔ Safe s n := by
  have hsize := size_for_eq hlow hhigh
  have herror : fibonacci n s = .error .outside → ¬ Safe s n →
      ((∃ r t, fibonacci n s = .ok (r, t) ∧ (0 ≤ n → r = Nat.fib n.toNat % 2 ^ 32)) ↔ Safe s n) := by
    intro hrun hnot
    refine iff_of_false ?_ hnot
    rintro ⟨r, t, hok, -⟩
    rw [hrun] at hok
    cases hok
  have hfit : n % 2 ^ 30 + 3 < 2 ^ 30 → size_for n = (4 * (n % 2 ^ 30 + 1)).toNat := by
    intro hn
    rw [hsize]
    omega
  obtain hnone | ⟨b, t, as', seq', cnt', hrun, hwhole, a, ha, hb, hbig, hwraps⟩ :=
    h.malloc_result (show size_for n < 2 ^ 32 by omega)
  · refine herror (fibonacci_null hnone) fun hsafe => ?_
    obtain ⟨b, t, hsome⟩ := (h.hasBlock_iff _).mp hsafe.2.2
    rw [← hfit hsafe.2.1] at hsome
    cases (Exec.ok_inj hnone hsome).1
  have hholding : Holding ram_pages pages others t as' seq' cnt' live a b := ⟨hwhole, ha, hb⟩
  obtain ⟨hfirst, hend, hroom⟩ := hholding.range
  have hstart : free_start = 0xc0100000 := rfl
  have hsome : size_for n ≠ 0 := by
    intro hzero
    rw [hzero] at hrun
    cases hrun
  simp only [Wraps, sizeof_arena, threads.PGSIZE] at hbig hwraps
  have hload := fibonacci_load hrun hholding
  by_cases hsafe : n < 2 ^ 30 ∧ n % 2 ^ 30 + 3 < 2 ^ 30
  · -- the block has the room that the array needs
    have hfits := hfit hsafe.2
    have hroom' := hbig (by omega)
    have hin : b ≤ element b n ∧ element b n + 4 ≤ b + a.block_size := by
      rw [element]
      omega
    have hok := hload (by omega)
    rw [if_pos hin] at hok
    refine iff_of_true hok ⟨hsafe.1, hsafe.2, ?_⟩
    rw [← hfits]
    exact (h.hasBlock_iff _).mpr ⟨b, t, hrun⟩
  · refine herror ?_ fun h => hsafe ⟨h.1, h.2.1⟩
    by_cases hloop : a.block_size < 4 * (2 + (n - 1).toNat)
    · exact fibonacci_loop hrun hholding hloop
    · -- a negative index, in front of the block
      have hbad := hload (by omega)
      rwa [if_neg ?_] at hbad
      rw [element]
      omega

end Calls

section Runs

/-- In every run of the heap, `fibonacci` stays in its block, and returns the number for a
natural `n`, exactly where that is safe. -/
theorem fibonacci_stays_inside_iff {m : Ram} {ax user_page_limit descs : Nat} {p : State}
    (hinit : palloc_init m (init_ram_pages ax) user_page_limit = .ok p) (hpos : 0 < descs)
    (hfront : descs + sizeof_desc * 10 ≤ free_start) :
    ∃ s₀, malloc_init ⟨p, descs, 0, []⟩ = .ok ((), s₀) ∧ ∀ s live others, HeapRun s₀ s live others →
      ∀ n : Int, -2 ^ 31 ≤ n → n < 2 ^ 31 →
        ((∃ r t, fibonacci n s = .ok (r, t) ∧ (0 ≤ n → r = Nat.fib n.toNat % 2 ^ 32)) ↔ Safe s n) := by
  obtain ⟨pages, hp⟩ := palloc_init_run hinit
  obtain ⟨s₀, hrun, hwhole⟩ := malloc_init_run hp (init_ram_pages_range ax).2 hpos hfront
  refine ⟨s₀, hrun, ?_⟩
  intro s live others hheap n hlow hhigh
  obtain ⟨as, seq, cnt, h⟩ := hheap.whole hwhole
  exact fibonacci_iff h hlow hhigh

theorem fibonacci_stays_inside_small : ∃ p, palloc_init (fun _ => 0) (init_ram_pages 20) 1 = .ok p ∧
    ∃ s₀, malloc_init ⟨p, 0xc0020000, 0, []⟩ = .ok ((), s₀) ∧ ∀ s live others, HeapRun s₀ s live others →
      ∀ n : Int, -2 ^ 31 ≤ n → n < 2 ^ 31 →
        ((∃ r t, fibonacci n s = .ok (r, t) ∧ (0 ≤ n → r = Nat.fib n.toNat % 2 ^ 32)) ↔ Safe s n) := by
  obtain ⟨p, hinit⟩ : ∃ p, palloc_init (fun _ => 0) (init_ram_pages 20) 1 = .ok p := ⟨_, rfl⟩
  exact ⟨p, hinit, fibonacci_stays_inside_iff hinit (by decide) (by decide)⟩

/-- `fibonacci (-1)` asks for no bytes, and stores through the null pointer. -/
theorem fibonacci_minus_one : ∃ p s₀, palloc_init (fun _ => 0) (init_ram_pages 20) 1 = .ok p ∧
    malloc_init ⟨p, 0xc0020000, 0, []⟩ = .ok ((), s₀) ∧
    ¬ ∃ r t, fibonacci (-1) s₀ = .ok (r, t) ∧ (0 ≤ (-1 : Int) → r = Nat.fib (-1 : Int).toNat % 2 ^ 32) := by
  obtain ⟨p, hinit⟩ : ∃ p, palloc_init (fun _ => 0) (init_ram_pages 20) 1 = .ok p := ⟨_, rfl⟩
  obtain ⟨pages, hp⟩ := palloc_init_run hinit
  obtain ⟨s₀, hrun, -⟩ := malloc_init_run hp (init_ram_pages_range 20).2
    (show 0 < 0xc0020000 by decide) (by decide)
  refine ⟨p, s₀, hinit, hrun, ?_⟩
  rintro ⟨r, t, h, -⟩
  rw [fibonacci_null (s := s₀) (t := s₀) (show malloc (size_for (-1)) s₀ = .ok (none, s₀) from rfl)] at h
  cases h

end Runs

end pintos.prj2.fibo
