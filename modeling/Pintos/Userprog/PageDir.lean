import Pintos.Userprog.Pte

/-!
# Page directories (`userprog/pagedir.c`)

A page directory is a page of entries for page tables, each a page of entries for
pages. Both are read and written as words of memory, page by page.
-/

open state_error

namespace pintos.userprog

/-- Memory, by page and number of the word in the page, and the page allocator:
the pages that are in use, and for each question in turn the frame that the
allocator finds, if any. -/
structure Vm where
  word : Word → Nat → Word
  used : Word → Bool
  frame : Nat → Option Nat
  asked : Nat
  freed : List Word
  init_page_dir : Word
  init_ram_pages : Nat

/-- Code that works on memory. -/
abbrev Mem (α : Type) := Exec Vm Panic α

/-- The page of a frame, by its kernel address. -/
def page_of_frame (frame : Nat) : Word := BitVec.ofNat 32 (frame * PGSIZE) + PHYS_BASE

/-- `memset` on a page, a word at a time. -/
def Vm.fill (s : Vm) (page value : Word) : Vm :=
  { s with word := fun p i => if p = page then value else s.word p i }

/-- `*p = value`, where `p` points to a word of a page. -/
def Vm.store (s : Vm) (page : Word) (i : Nat) (value : Word) : Vm :=
  { s with word := fun p j => if p = page ∧ j = i then value else s.word p j }

/-- `palloc_get_page`: a page of memory that is not in use. -/
def palloc_get_page (zero : Bool) : Mem (Option Word) := do
  let s ← Exec.get
  Exec.modify fun s => { s with asked := s.asked + 1 }
  match s.frame s.asked with
  | none => return none
  | some frame =>
    let page := page_of_frame frame
    if frame < s.init_ram_pages ∧ s.used page = false then
      Exec.modify fun s => { s with used := fun p => if p = page then true else s.used p }
      if zero then Exec.modify fun s => s.fill page 0
      return some page
    else return none

/-- `palloc_free_page`. The page is cleared to 0xcc bytes. -/
def palloc_free_page (page : Word) : Mem Unit := do
  Exec.ASSERT (pg_ofs page = 0) .pg_ofs
  Exec.modify fun s => s.fill page 0xcccccccc#32
  let s ← Exec.get
  Exec.ASSERT (s.used page = true) .free_page
  Exec.modify fun s => { s with
    used := fun p => if p = page then false else s.used p
    freed := s.freed ++ [page] }

/-- `*p`. -/
def load (page : Word) (i : Nat) : Mem Word := do
  let s ← Exec.get
  return s.word page i

/-- `*p = value`. -/
def store (page : Word) (i : Nat) (value : Word) : Mem Unit := Exec.modify fun s => s.store page i value

/-- The loop of `paging_init`, from page `page` on. -/
def paging_loop (in_kernel_text : Word → Bool) (pd : Word) : Nat → Nat → Word → Mem Unit
  | 0, _, _ => return ()
  | n + 1, page, pt => do
    let paddr := BitVec.ofNat 32 (page * PGSIZE)
    let vaddr ← ptov paddr
    let pde ← load pd (pd_no vaddr)
    let pt ← if pde = 0 then do
        match ← palloc_get_page true with
        | none => Exec.throw .out_of_pages
        | some pt => do
          store pd (pd_no vaddr) (← pde_create pt)
          pure pt
      else pure pt
    store pt (pt_no vaddr) (← pte_create_kernel vaddr (!in_kernel_text vaddr))
    paging_loop in_kernel_text pd n (page + 1) pt

/-- `paging_init`. -/
def paging_init (in_kernel_text : Word → Bool) : Mem Unit := do
  match ← palloc_get_page true with
  | none => Exec.throw .out_of_pages
  | some pd =>
    Exec.modify fun s => { s with init_page_dir := pd }
    let s ← Exec.get
    paging_loop in_kernel_text pd s.init_ram_pages 0 0

/-- `pagedir_create`. -/
def pagedir_create : Mem (Option Word) := do
  match ← palloc_get_page false with
  | none => return none
  | some pd =>
    Exec.modify fun s => { s with
      word := fun p i => if p = pd then s.word s.init_page_dir i else s.word p i }
    return some pd

/-- `lookup_page`: the page table and the number of the entry in it. -/
def lookup_page (pd vaddr : Word) (create : Bool) : Mem (Option (Word × Nat)) := do
  Exec.ASSERT (pd ≠ 0) .null_directory
  Exec.ASSERT (create = false ∨ is_user_vaddr vaddr = true) .is_user_vaddr
  let pde ← load pd (pd_no vaddr)
  if pde = 0 then
    if create then
      match ← palloc_get_page true with
      | none => return none
      | some pt => do
        store pd (pd_no vaddr) (← pde_create pt)
        let pt ← pde_get_pt (← load pd (pd_no vaddr))
        return some (pt, pt_no vaddr)
    else return none
  else
    let pt ← pde_get_pt pde
    return some (pt, pt_no vaddr)

/-- `pagedir_set_page`. -/
def pagedir_set_page (pd upage kpage : Word) (writable : Bool) : Mem Bool := do
  Exec.ASSERT (pg_ofs upage = 0) .pg_ofs
  Exec.ASSERT (pg_ofs kpage = 0) .pg_ofs
  Exec.ASSERT (is_user_vaddr upage = true) .is_user_vaddr
  let s ← Exec.get
  Exec.ASSERT (((← vtop kpage) >>> 12).toNat < s.init_ram_pages) .init_ram_pages
  Exec.ASSERT (pd ≠ s.init_page_dir) .init_page_dir
  match ← lookup_page pd upage true with
  | some (pt, i) => do
    Exec.ASSERT ((← load pt i) &&& PTE_P = 0) .already_present
    store pt i (← pte_create_user kpage writable)
    return true
  | none => return false

/-- `pagedir_get_page`. -/
def pagedir_get_page (pd uaddr : Word) : Mem (Option Word) := do
  Exec.ASSERT (is_user_vaddr uaddr = true) .is_user_vaddr
  match ← lookup_page pd uaddr false with
  | some (pt, i) => do
    let pte ← load pt i
    if pte &&& PTE_P ≠ 0 then return some ((← pte_get_page pte) + pg_ofs uaddr)
    else return none
  | none => return none

/-- `pagedir_clear_page`. -/
def pagedir_clear_page (pd upage : Word) : Mem Unit := do
  Exec.ASSERT (pg_ofs upage = 0) .pg_ofs
  Exec.ASSERT (is_user_vaddr upage = true) .is_user_vaddr
  match ← lookup_page pd upage false with
  | some (pt, i) => do
    let pte ← load pt i
    if pte &&& PTE_P ≠ 0 then store pt i (pte &&& ~~~PTE_P)
  | none => return ()

/-- Set or clear a flag of the entry for a page. -/
def pagedir_set_flag (flag pd vpage : Word) (value : Bool) : Mem Unit := do
  match ← lookup_page pd vpage false with
  | some (pt, i) => do
    let pte ← load pt i
    store pt i (if value then pte ||| flag else pte &&& ~~~flag)
  | none => return ()

/-- `pagedir_set_dirty`. -/
def pagedir_set_dirty (pd vpage : Word) (dirty : Bool) : Mem Unit := pagedir_set_flag PTE_D pd vpage dirty

/-- `pagedir_set_accessed`. -/
def pagedir_set_accessed (pd vpage : Word) (accessed : Bool) : Mem Unit :=
  pagedir_set_flag PTE_A pd vpage accessed

/-- The inner loop of `pagedir_destroy`: `n` entries of a page table from entry `i` on. -/
def destroy_ptes (pt : Word) : Nat → Nat → Mem Unit
  | 0, _ => return ()
  | n + 1, i => do
    let pte ← load pt i
    if pte &&& PTE_P ≠ 0 then palloc_free_page (← pte_get_page pte)
    destroy_ptes pt n (i + 1)

/-- The outer loop of `pagedir_destroy`: `n` entries of the directory from entry `i` on. -/
def destroy_pdes (pd : Word) : Nat → Nat → Mem Unit
  | 0, _ => return ()
  | n + 1, i => do
    let pde ← load pd i
    if pde &&& PTE_P ≠ 0 then
      let pt ← pde_get_pt pde
      destroy_ptes pt 1024 0
      palloc_free_page pt
    destroy_pdes pd n (i + 1)

/-- `pagedir_destroy`, of a directory that is there. -/
def pagedir_destroy (pd : Word) : Mem Unit := do
  let s ← Exec.get
  Exec.ASSERT (pd ≠ s.init_page_dir) .init_page_dir
  destroy_pdes pd (pd_no PHYS_BASE) 0
  palloc_free_page pd

end pintos.userprog
