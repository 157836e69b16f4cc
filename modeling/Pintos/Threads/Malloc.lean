import Pintos.Threads.PallocPools
import Pintos.Kernel.ListBytes
import Pintos.Lib.StateError

/-!
# Memory allocation (`threads/malloc.c`)

The descriptors are an array in static memory, and every arena has its header in front of
its blocks. One call runs at a time, so the locks of the descriptors are left out.
-/

open bytes state_error pintos.kernel

namespace pintos.threads

/-- `sizeof (struct desc)`. -/
def sizeof_desc : Nat := 48

/-- `sizeof (struct arena)`. -/
def sizeof_arena : Nat := 12

def ARENA_MAGIC : Nat := 0x9a548eed

/-- `pg_round_down`. -/
def pg_round_down (va : Nat) : Nat := va - va % PGSIZE

namespace desc

/-- The member `block_size` of the descriptor at `d`. -/
def block_size (m : Ram) (d : Nat) : Nat := word m d

/-- The member `blocks_per_arena`. -/
def blocks_per_arena (m : Ram) (d : Nat) : Nat := word m (d + 4)

/-- The member `free_list`. -/
def free_list (d : Nat) : list Nat := ram.list_at (d + 8)

end desc

namespace arena

/-- The member `magic` of the arena at `a`. -/
def magic (m : Ram) (a : Nat) : Nat := word m a

/-- The member `desc`. -/
def desc (m : Ram) (a : Nat) : Nat := word m (a + 4)

/-- The member `free_cnt`. -/
def free_cnt (m : Ram) (a : Nat) : Nat := word m (a + 8)

end arena

/-- The static variables and the page allocator. -/
structure Heap where
  palloc : State
  /-- The address of the array. -/
  descs : Nat
  desc_cnt : Nat
  /-- History: the pages that are arenas. -/
  arenas : List Block

abbrev Exec := state_error.Exec Heap Panic

/-- Memory. -/
def memory : Exec Ram := do return (← Exec.get).palloc.mem

/-- The heap, with other memory. -/
def Heap.set_mem (s : Heap) (m : Ram) : Heap := { s with palloc := { s.palloc with mem := m } }

/-- Assignments to memory. -/
def assign (f : Ram → Ram) : Exec Unit := Exec.modify fun s => s.set_mem (f s.palloc.mem)

/-- A list operation; it can fail at an `ASSERT`. -/
def on_lists {α : Type} (f : Ram → Option (Ram × α)) : Exec α := fun s => do
  let (m, a) ← asserted (f s.palloc.mem)
  return (a, s.set_mem m)

/-- `palloc_get_multiple`, without flags. -/
def get_pages (page_cnt : Nat) : Exec (Option Nat) := fun s => do
  let (palloc, pages) ← palloc_get_multiple ⟨false, false, false⟩ page_cnt s.palloc
  match pages with
  | some a => return (some a, { s with palloc, arenas := ⟨a, page_cnt⟩ :: s.arenas })
  | none => return (none, { s with palloc })

/-- `palloc_free_multiple`. -/
def free_pages (pages page_cnt : Nat) : Exec Unit := fun s => do
  let palloc ← palloc_free_multiple pages page_cnt s.palloc
  return ((), { s with palloc, arenas := s.arenas.erase ⟨pages, page_cnt⟩ })

/-- The address of a descriptor. -/
def desc_at (descs k : Nat) : Nat := descs + sizeof_desc * k

/-- The loop of `malloc_init`. It has at most eleven turns, as the array has ten
descriptors. -/
def malloc_init_loop : Nat → Nat → Exec Unit
  | 0, _ => Exec.throw .assert
  | n + 1, block_size =>
    if block_size < PGSIZE / 2 then do
      let s ← Exec.get
      let d := desc_at s.descs s.desc_cnt
      Exec.modify fun s => { s with desc_cnt := s.desc_cnt + 1 }
      Exec.ASSERT (s.desc_cnt + 1 ≤ 10) .assert
      assign fun m =>
        let m := store_word m d block_size
        let m := store_word m (d + 4) ((PGSIZE - sizeof_arena) / block_size)
        ram.list_init m (desc.free_list d)
      malloc_init_loop n (block_size * 2)
    else pure ()

/-- `malloc_init`. -/
def malloc_init : Exec Unit := malloc_init_loop 11 16

/-- `block_to_arena`; the offset is unsigned. -/
def block_to_arena (b : Nat) : Exec Nat := do
  let a := pg_round_down b
  Exec.ASSERT (a ≠ 0) .assert
  let m ← memory
  Exec.ASSERT (arena.magic m a = ARENA_MAGIC) .assert
  let d := arena.desc m a
  Exec.ASSERT (d = 0 ∨ (pg_ofs b + 2 ^ 32 - sizeof_arena) % 2 ^ 32 % desc.block_size m d = 0) .assert
  Exec.ASSERT (d ≠ 0 ∨ pg_ofs b = sizeof_arena) .assert
  return a

/-- `arena_to_block`. -/
def arena_to_block (a idx : Nat) : Exec Nat := do
  Exec.ASSERT (a ≠ 0) .assert
  let m ← memory
  Exec.ASSERT (arena.magic m a = ARENA_MAGIC) .assert
  Exec.ASSERT (idx < desc.blocks_per_arena m (arena.desc m a)) .assert
  return a + sizeof_arena + idx * desc.block_size m (arena.desc m a)

/-- The search in `malloc`: `n` descriptors are left, from `d` on. -/
def find_desc (m : Ram) (size : Nat) : Nat → Nat → Nat
  | 0, d => d
  | n + 1, d => if size ≤ desc.block_size m d then d else find_desc m size n (d + sizeof_desc)

/-- `malloc` for a size that is too big for any descriptor. -/
def malloc_big (size : Nat) : Exec (Option Nat) := do
  let page_cnt := ((size + sizeof_arena) % 2 ^ 32 + PGSIZE - 1) % 2 ^ 32 / PGSIZE
  match ← get_pages page_cnt with
  | none => return none
  | some a =>
    assign fun m =>
      let m := store_word m a ARENA_MAGIC
      let m := store_word m (a + 4) 0
      store_word m (a + 8) page_cnt
    return some (a + sizeof_arena)

/-- The loop that adds the blocks of a new arena: `n` blocks are left, from `i` on. -/
def add_blocks (d a : Nat) : Nat → Nat → Exec Unit
  | 0, _ => pure ()
  | n + 1, i => do
    let b ← arena_to_block a i
    on_lists fun m => do return (← ram.list_push_back m (desc.free_list d) b, ())
    add_blocks d a n (i + 1)

/-- A new arena for a descriptor; false where no page is left. -/
def new_arena (d : Nat) : Exec Bool := do
  match ← get_pages 1 with
  | none => return false
  | some a =>
    assign fun m =>
      let m := store_word m a ARENA_MAGIC
      let m := store_word m (a + 4) d
      store_word m (a + 8) (desc.blocks_per_arena m d)
    add_blocks d a (desc.blocks_per_arena (← memory) d) 0
    return true

/-- The end of `malloc`: a block from the free list. -/
def take_block (d : Nat) : Exec Nat := do
  let b ← on_lists fun m => ram.list_pop_front m (desc.free_list d)
  let a ← block_to_arena b
  assign fun m => store_word m (a + 8) ((arena.free_cnt m a + 2 ^ 32 - 1) % 2 ^ 32)
  return b

/-- `malloc` from the blocks of a descriptor. -/
def malloc_small (d : Nat) : Exec (Option Nat) := do
  let m ← memory
  let ready ← if ram.list_empty m (desc.free_list d) then new_arena d else pure true
  if ready then
    let b ← take_block d
    return some b
  else return none

/-- `malloc`. -/
def malloc (size : Nat) : Exec (Option Nat) := do
  if size = 0 then return none
  else
    let s ← Exec.get
    let d := find_desc s.palloc.mem size s.desc_cnt s.descs
    if d = desc_at s.descs s.desc_cnt then malloc_big size
    else malloc_small d

/-- `calloc`. -/
def calloc (a b : Nat) : Exec (Option Nat) := do
  let size := a * b % 2 ^ 32
  if size < a ∨ size < b then return none
  else
    match ← malloc size with
    | some p => do
      assign fun m => memset m p 0 size
      return some p
    | none => return none

/-- `block_size`. -/
def block_size (block : Nat) : Exec Nat := do
  let a ← block_to_arena block
  let m ← memory
  let d := arena.desc m a
  return if d ≠ 0 then desc.block_size m d else PGSIZE * arena.free_cnt m a - pg_ofs block

/-- The loop that removes the blocks of an unused arena: `n` blocks are left, from `i` on. -/
def remove_blocks (a : Nat) : Nat → Nat → Exec Unit
  | 0, _ => pure ()
  | n + 1, i => do
    let b ← arena_to_block a i
    let _ ← on_lists fun m => ram.list_remove m b
    remove_blocks a n (i + 1)

/-- `free` for a block of a descriptor. -/
def free_small (b a d : Nat) : Exec Unit := do
  assign fun m => memset m b 0xcc (desc.block_size m d)
  on_lists fun m => do return (← ram.list_push_front m (desc.free_list d) b, ())
  assign fun m => store_word m (a + 8) ((arena.free_cnt m a + 1) % 2 ^ 32)
  let m ← memory
  if desc.blocks_per_arena m d ≤ arena.free_cnt m a then
    Exec.ASSERT (arena.free_cnt m a = desc.blocks_per_arena m d) .assert
    remove_blocks a (desc.blocks_per_arena m d) 0
    free_pages a 1
  else pure ()

/-- `free`. -/
def free : Option Nat → Exec Unit
  | none => pure ()
  | some b => do
    let a ← block_to_arena b
    let m ← memory
    let d := arena.desc m a
    if d ≠ 0 then free_small b a d
    else free_pages a (arena.free_cnt m a)

/-- The end of `realloc`, when it has both blocks. -/
def move_block (old_block new_block new_size : Nat) : Exec Unit := do
  let old_size ← block_size old_block
  let min_size := if new_size < old_size then new_size else old_size
  assign fun m => copy m new_block m old_block min_size
  free (some old_block)

/-- `realloc`. -/
def realloc (old_block : Option Nat) (new_size : Nat) : Exec (Option Nat) := do
  if new_size = 0 then
    free old_block
    return none
  else
    let new_block ← malloc new_size
    match old_block, new_block with
    | some old_block, some new_block => do
      move_block old_block new_block new_size
      return some new_block
    | _, _ => return new_block

end pintos.threads
