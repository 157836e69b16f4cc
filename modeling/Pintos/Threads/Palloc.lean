import Pintos.Kernel.BitmapBuf

/-!
# Page allocator (`threads/palloc.c`)

Two pools of pages, each with its bitmap in front of its pages. One call runs at a time,
so the locks of the pools are left out.
-/

open bytes pintos.kernel

namespace pintos.threads

def PGSIZE : Nat := 4096

def PHYS_BASE : Nat := 0xc0000000

/-- `ptov`, for addresses below `PHYS_BASE`. -/
def ptov (paddr : Nat) : Nat := paddr + PHYS_BASE

/-- `pg_ofs`. -/
def pg_ofs (va : Nat) : Nat := va % PGSIZE

/-- `pg_no`. -/
def pg_no (va : Nat) : Nat := va / PGSIZE

/-- `start.S`: the number of 4 kB pages, when the BIOS finds `ax` kB above 1 MB. -/
def init_ram_pages (ax : Nat) : Nat := min (ax + 1024) 0x10000 / 4

/-- A memory pool. -/
structure pool where
  used_map : Nat
  base : Nat
  deriving DecidableEq, Repr

/-- The static variables, and memory. -/
structure State where
  kernel_pool : pool
  user_pool : pool
  mem : Ram

/-- `enum palloc_flags`. -/
structure palloc_flags where
  PAL_ASSERT : Bool
  PAL_ZERO : Bool
  PAL_USER : Bool
  deriving DecidableEq, Repr

/-- The kernel panics of the page allocator. -/
inductive Panic where
  | not_enough_memory
  | out_of_pages
  | assert
  | not_reached
  deriving DecidableEq, Repr

/-- A false `ASSERT` in the bitmap functions. -/
def asserted {α : Type} : Option α → Except Panic α
  | some a => .ok a
  | none => .error .assert

/-- `memset`. -/
def memset (m : Ram) (dst : Nat) (value : BitVec 8) (size : Nat) : Ram := copy m dst (fun _ => value) 0 size

/-- `init_pool`. -/
def init_pool (m : Ram) (base page_cnt : Nat) : Except Panic (Ram × pool) := do
  let bm_pages := (bitmap_buf_size page_cnt + PGSIZE - 1) / PGSIZE
  if bm_pages > page_cnt then throw .not_enough_memory
  let m ← asserted (bitmap_create_in_buf m (page_cnt - bm_pages) base (bm_pages * PGSIZE))
  return (m, { used_map := base, base := base + bm_pages * PGSIZE })

/-- `free_start` in `palloc_init`. -/
def free_start : Nat := ptov (1024 * 1024)

/-- `free_end` in `palloc_init`. -/
def free_end (ram_pages : Nat) : Nat := ptov (ram_pages * PGSIZE)

/-- `palloc_init`. -/
def palloc_init (m : Ram) (ram_pages user_page_limit : Nat) : Except Panic State := do
  let free_pages := (free_end ram_pages - free_start) / PGSIZE
  let user_pages := if free_pages / 2 > user_page_limit then user_page_limit else free_pages / 2
  let kernel_pages := free_pages - user_pages
  let (m, kernel_pool) ← init_pool m free_start kernel_pages
  let (m, user_pool) ← init_pool m (free_start + kernel_pages * PGSIZE) user_pages
  return ⟨kernel_pool, user_pool, m⟩

/-- The pool that the flags ask for. -/
def State.pool_of (s : State) (flags : palloc_flags) : pool :=
    if flags.PAL_USER then s.user_pool else s.kernel_pool

/-- `palloc_get_multiple`. -/
def palloc_get_multiple (flags : palloc_flags) (page_cnt : Nat) (s : State) :
    Except Panic (State × Option Nat) := do
  let pool := s.pool_of flags
  if page_cnt = 0 then return (s, none)
  let (m, page_idx) ← asserted (bitmap_scan_and_flip s.mem pool.used_map 0 page_cnt false)
  match page_idx with
  | some page_idx =>
    let pages := pool.base + PGSIZE * page_idx
    if flags.PAL_ZERO then return ({ s with mem := memset m pages 0 (PGSIZE * page_cnt) }, some pages)
    else return ({ s with mem := m }, some pages)
  | none =>
    if flags.PAL_ASSERT then throw .out_of_pages
    else return ({ s with mem := m }, none)

/-- `palloc_get_page`. -/
def palloc_get_page (flags : palloc_flags) (s : State) : Except Panic (State × Option Nat) :=
  palloc_get_multiple flags 1 s

/-- `page_from_pool`. -/
def page_from_pool (m : Ram) (pool : pool) (page : Nat) : Bool :=
  pg_no pool.base ≤ pg_no page ∧ pg_no page < pg_no pool.base + bit_cnt m pool.used_map

/-- The pool in which `palloc_free_multiple` finds a page. -/
def State.pool_from (s : State) (pages : Nat) : Except Panic pool :=
  if page_from_pool s.mem s.kernel_pool pages then .ok s.kernel_pool
  else if page_from_pool s.mem s.user_pool pages then .ok s.user_pool
  else .error .not_reached

/-- `palloc_free_multiple`. -/
def palloc_free_multiple (pages page_cnt : Nat) (s : State) : Except Panic State := do
  if pg_ofs pages ≠ 0 then throw .assert
  if pages = 0 ∨ page_cnt = 0 then return s
  let pool ← s.pool_from pages
  let page_idx := pg_no pages - pg_no pool.base
  let m := memset s.mem pages 0xcc (PGSIZE * page_cnt)
  if (← asserted (bitmap_all m pool.used_map page_idx page_cnt)) = false then throw .assert
  let m ← asserted (bitmap_set_multiple m pool.used_map page_idx page_cnt false)
  return { s with mem := m }

/-- `palloc_free_page`. -/
def palloc_free_page (page : Nat) (s : State) : Except Panic State := palloc_free_multiple page 1 s

end pintos.threads
