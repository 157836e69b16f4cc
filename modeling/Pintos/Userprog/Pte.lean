import Pintos.Lib.StateError

/-!
# Page table entries (`threads/vaddr.h`, `threads/pte.h`)

An entry packs the physical address of a page with flags in the bits below it.
Kernel addresses are physical ones moved up by `PHYS_BASE`.
-/

open state_error

namespace pintos.userprog

/-- A 32-bit address, page table entry or machine word. -/
abbrev Word := BitVec 32

def PHYS_BASE : Word := 0xc0000000#32

def PGSIZE : Nat := 4096

/-- Page offset bits. -/
def PGMASK : Word := 0xfff#32

/-- Page table index bits. -/
def PTMASK : Word := 0x3ff000#32

/-- `pg_ofs`. -/
def pg_ofs (va : Word) : Word := va &&& PGMASK

/-- `pt_no`. -/
def pt_no (va : Word) : Nat := ((va &&& PTMASK) >>> 12).toNat

/-- `pd_no`. -/
def pd_no (va : Word) : Nat := (va >>> 22).toNat

def is_user_vaddr (vaddr : Word) : Bool := vaddr < PHYS_BASE

def is_kernel_vaddr (vaddr : Word) : Bool := vaddr ≥ PHYS_BASE

/-- Address bits. -/
def PTE_ADDR : Word := 0xfffff000#32

/-- Present. -/
def PTE_P : Word := 0x1#32

/-- Writable. -/
def PTE_W : Word := 0x2#32

/-- Usable by user code. -/
def PTE_U : Word := 0x4#32

/-- Accessed. -/
def PTE_A : Word := 0x20#32

/-- Dirty. -/
def PTE_D : Word := 0x40#32

/-- The kernel panics of the functions on page tables. -/
inductive Panic where
  | pg_ofs
  | is_user_vaddr
  | is_kernel_vaddr
  | paddr
  | not_present
  | already_present
  | init_ram_pages
  | init_page_dir
  | out_of_pages
  | free_page
  | null_directory
  deriving DecidableEq, Repr

/-- `ptov`. -/
def ptov {σ : Type} (paddr : Word) : Exec σ Panic Word := do
  Exec.ASSERT (paddr < PHYS_BASE) .paddr
  return paddr + PHYS_BASE

/-- `vtop`. -/
def vtop {σ : Type} (vaddr : Word) : Exec σ Panic Word := do
  Exec.ASSERT (is_kernel_vaddr vaddr = true) .is_kernel_vaddr
  return vaddr - PHYS_BASE

/-- `pde_create`. -/
def pde_create {σ : Type} (pt : Word) : Exec σ Panic Word := do
  Exec.ASSERT (pg_ofs pt = 0) .pg_ofs
  return (← vtop pt) ||| PTE_U ||| PTE_P ||| PTE_W

/-- `pde_get_pt`. -/
def pde_get_pt {σ : Type} (pde : Word) : Exec σ Panic Word := do
  Exec.ASSERT (pde &&& PTE_P ≠ 0) .not_present
  ptov (pde &&& PTE_ADDR)

/-- `pte_create_kernel`. -/
def pte_create_kernel {σ : Type} (page : Word) (writable : Bool) : Exec σ Panic Word := do
  Exec.ASSERT (pg_ofs page = 0) .pg_ofs
  return (← vtop page) ||| PTE_P ||| (if writable then PTE_W else 0)

/-- `pte_create_user`. -/
def pte_create_user {σ : Type} (page : Word) (writable : Bool) : Exec σ Panic Word := do
  return (← pte_create_kernel page writable) ||| PTE_U

/-- `pte_get_page`. -/
def pte_get_page {σ : Type} (pte : Word) : Exec σ Panic Word := ptov (pte &&& PTE_ADDR)

/-- A page of memory, by its kernel address. -/
structure KernelPage (page : Word) : Prop where
  aligned : pg_ofs page = 0
  kernel : is_kernel_vaddr page = true

/-- The entry that maps a page: its address bits are those of the page. -/
structure Maps (pte page : Word) (writable : Bool) : Prop where
  page : pte &&& PTE_ADDR = page - PHYS_BASE
  present : pte &&& PTE_P ≠ 0
  writable : (pte &&& PTE_W ≠ 0) ↔ writable = true

section Bits

variable {σ : Type} {s : σ} {page va : Word}

theorem pg_ofs_toNat (va : Word) : (pg_ofs va).toNat = va.toNat % 4096 := by
  rw [pg_ofs, BitVec.toNat_and]
  exact Nat.and_two_pow_sub_one_eq_mod va.toNat 12

theorem pd_no_eq (va : Word) : pd_no va = va.toNat / 4194304 := by
  rw [pd_no, BitVec.toNat_ushiftRight, Nat.shiftRight_eq_div_pow]

theorem pt_no_eq (va : Word) : pt_no va = va.toNat / 4096 % 1024 := by
  rw [pt_no, BitVec.ushiftRight_and_distrib, BitVec.toNat_and, BitVec.toNat_ushiftRight,
    Nat.shiftRight_eq_div_pow]
  exact Nat.and_two_pow_sub_one_eq_mod _ 10

theorem is_user_vaddr_iff : is_user_vaddr va = true ↔ va.toNat < 3221225472 := by
  simp [is_user_vaddr, PHYS_BASE, BitVec.lt_def]

theorem is_kernel_vaddr_iff : is_kernel_vaddr va = true ↔ 3221225472 ≤ va.toNat := by
  simp [is_kernel_vaddr, PHYS_BASE, BitVec.le_def]

theorem pg_ofs_eq_zero : pg_ofs va = 0 ↔ va.toNat % 4096 = 0 := by
  rw [← pg_ofs_toNat]
  exact (BitVec.toNat_inj (x := pg_ofs va) (y := 0)).symm

namespace KernelPage

variable (hpage : KernelPage page)

include hpage

theorem toNat_sub : (page - PHYS_BASE).toNat = page.toNat - 3221225472 := by
  have hle := is_kernel_vaddr_iff.mp hpage.kernel
  have hlt := page.isLt
  rw [BitVec.toNat_sub]
  simp only [PHYS_BASE, BitVec.toNat_ofNat]
  omega

/-- The physical address has no bit set where the flags are. -/
theorem and_mask : (page - PHYS_BASE) &&& PGMASK = 0 := by
  have hle := is_kernel_vaddr_iff.mp hpage.kernel
  have haligned := pg_ofs_eq_zero.mp hpage.aligned
  apply pg_ofs_eq_zero.mpr
  rw [hpage.toNat_sub]
  omega

theorem and_flag (flag : Word) (hflag : PGMASK &&& flag = flag) : (page - PHYS_BASE) &&& flag = 0 := by
  rw [← hflag, ← BitVec.and_assoc, hpage.and_mask]
  exact BitVec.zero_and

theorem and_addr : (page - PHYS_BASE) &&& PTE_ADDR = page - PHYS_BASE := by
  have hsplit : ∀ v : Word, v = (v &&& PTE_ADDR) ||| (v &&& PGMASK) := by
    intro v
    rw [← BitVec.and_or_distrib_left]
    exact BitVec.and_allOnes.symm
  have h := hsplit (page - PHYS_BASE)
  rw [hpage.and_mask] at h
  exact (h.trans BitVec.or_zero).symm

theorem vtop_run : vtop page s = .ok (page - PHYS_BASE, s) := by
  rw [vtop, Exec.bind_run (Exec.ASSERT_run hpage.kernel _)]
  rfl

end KernelPage

/-- The page behind an entry whose address bits are those of the page. -/
theorem pte_get_page_run {pte : Word} (hpage : KernelPage page) (haddr : pte &&& PTE_ADDR = page - PHYS_BASE) :
    pte_get_page pte s = .ok (page, s) := by
  have hlt : page - PHYS_BASE < PHYS_BASE := by
    have hnat := hpage.toNat_sub
    have hmax := page.isLt
    rw [BitVec.lt_def, hnat]
    simp only [PHYS_BASE, BitVec.toNat_ofNat]
    omega
  rw [pte_get_page, haddr, ptov, Exec.bind_run (Exec.ASSERT_run hlt _), BitVec.sub_add_cancel]
  rfl

theorem pde_get_pt_run {pde : Word} {writable : Bool} (hpage : KernelPage page) (h : Maps pde page writable) :
    pde_get_pt pde s = .ok (page, s) := by
  rw [pde_get_pt, Exec.bind_run (Exec.ASSERT_run h.present _)]
  exact pte_get_page_run hpage h.page

/-- `pde_create` makes an entry for the page table. -/
theorem pde_create_run (hpage : KernelPage page) :
    ∃ pde, pde_create page s = .ok (pde, s) ∧ Maps pde page true := by
  refine ⟨(page - PHYS_BASE) ||| PTE_U ||| PTE_P ||| PTE_W, ?_, ?_⟩
  · rw [pde_create, Exec.bind_run (Exec.ASSERT_run hpage.aligned _), Exec.bind_run hpage.vtop_run]
    rfl
  · refine ⟨?_, ?_, ?_⟩
    · simp only [BitVec.and_or_distrib_right, hpage.and_addr]
      simp [PTE_U, PTE_P, PTE_W, PTE_ADDR]
    · simp only [BitVec.and_or_distrib_right, hpage.and_flag PTE_P rfl]
      decide
    · simp only [BitVec.and_or_distrib_right, hpage.and_flag PTE_W rfl]
      decide

/-- `pte_create_user` makes an entry for the page, writable as it is told. -/
theorem pte_create_user_run (hpage : KernelPage page) (writable : Bool) :
    ∃ pte, pte_create_user page writable s = .ok (pte, s) ∧ Maps pte page writable := by
  refine ⟨(page - PHYS_BASE) ||| PTE_P ||| (if writable then PTE_W else 0) ||| PTE_U, ?_, ?_⟩
  · have hkernel : pte_create_kernel page writable s =
        .ok ((page - PHYS_BASE) ||| PTE_P ||| (if writable then PTE_W else 0), s) := by
      rw [pte_create_kernel, Exec.bind_run (Exec.ASSERT_run hpage.aligned _), Exec.bind_run hpage.vtop_run]
      rfl
    rw [pte_create_user, Exec.bind_run hkernel]
    rfl
  · refine ⟨?_, ?_, ?_⟩
    · simp only [BitVec.and_or_distrib_right, hpage.and_addr]
      cases writable <;> simp [PTE_U, PTE_P, PTE_W, PTE_ADDR]
    · simp only [BitVec.and_or_distrib_right, hpage.and_flag PTE_P rfl]
      cases writable <;> decide
    · simp only [BitVec.and_or_distrib_right, hpage.and_flag PTE_W rfl]
      cases writable <;> decide

end Bits

section Flags

variable {pte page flag : Word} {writable : Bool}

/-- Setting another flag keeps the mapping. -/
theorem Maps.or (h : Maps pte page writable) (hflag : flag = PTE_A ∨ flag = PTE_D) :
    Maps (pte ||| flag) page writable := by
  have hbits : flag &&& PTE_ADDR = 0 ∧ flag &&& PTE_P = 0 ∧ flag &&& PTE_W = 0 := by
    obtain rfl | rfl := hflag <;> decide
  refine ⟨?_, ?_, ?_⟩
  · rw [BitVec.and_or_distrib_right, hbits.1, h.page]
    exact BitVec.or_zero
  · rw [BitVec.and_or_distrib_right, hbits.2.1]
    exact BitVec.or_zero ▸ h.present
  · rw [BitVec.and_or_distrib_right, hbits.2.2]
    exact BitVec.or_zero ▸ h.writable

/-- Clearing another flag keeps the mapping. -/
theorem Maps.and_not (h : Maps pte page writable) (hflag : flag = PTE_A ∨ flag = PTE_D) :
    Maps (pte &&& ~~~flag) page writable := by
  have hbits : ~~~flag &&& PTE_ADDR = PTE_ADDR ∧ ~~~flag &&& PTE_P = PTE_P ∧ ~~~flag &&& PTE_W = PTE_W := by
    obtain rfl | rfl := hflag <;> decide
  refine ⟨?_, ?_, ?_⟩
  · rw [BitVec.and_assoc, hbits.1, h.page]
  · rw [BitVec.and_assoc, hbits.2.1]
    exact h.present
  · rw [BitVec.and_assoc, hbits.2.2]
    exact h.writable

end Flags

end pintos.userprog
