import Pintos.Userprog.Tables

/-!
# Page directories are finite maps

What each function on page directories does to a well-formed directory, and that
any sequence of calls leaves one whose map is what the calls say.
-/

open state_error

namespace pintos.userprog

/-- The number of the page of an address. -/
def page_no (va : Word) : Nat := va.toNat / 4096

section Palloc

variable {s : Vm}

theorem page_of_frame_kernel {frame : Nat} (h : frame < 16384) : KernelPage (page_of_frame frame) := by
  have hnat : (page_of_frame frame).toNat = frame * 4096 + 3221225472 := by
    rw [page_of_frame, BitVec.toNat_add, BitVec.toNat_ofNat]
    simp only [PGSIZE, PHYS_BASE, BitVec.toNat_ofNat]
    omega
  constructor
  · rw [pg_ofs_eq_zero, hnat]
    omega
  · rw [is_kernel_vaddr_iff, hnat]
    omega

/-- The allocator hands out pages that are not in use, or none. -/
theorem palloc_get_page_run (hram : s.init_ram_pages ≤ 16384) (zero : Bool) :
    palloc_get_page zero s = .ok (none, { s with asked := s.asked + 1 }) ∨
      ∃ page, KernelPage page ∧ s.used page = false ∧
        palloc_get_page zero s = .ok (some page, if zero then (s.take page).fill page 0 else s.take page) := by
  rw [palloc_get_page, Exec.bind_run Exec.get_run, Exec.bind_run (Exec.modify_run _)]
  cases hframe : s.frame s.asked with
  | none => exact Or.inl rfl
  | some frame =>
    by_cases hfree : frame < s.init_ram_pages ∧ s.used (page_of_frame frame) = false
    · refine Or.inr ⟨page_of_frame frame, page_of_frame_kernel (by omega), hfree.2, ?_⟩
      simp only [if_pos hfree]
      cases zero <;> rfl
    · left
      simp only [if_neg hfree]
      rfl

end Palloc

section Lookup

variable {s : Vm} {pd va : Word} {m : PageMap}

theorem pd_no_lt (va : Word) : pd_no va < 1024 := by
  have hlt := va.isLt
  rw [pd_no_eq]
  omega

theorem pt_no_lt (va : Word) : pt_no va < 1024 := by
  rw [pt_no_eq]
  omega

theorem page_no_eq (va : Word) : 1024 * pd_no va + pt_no va = page_no va := by
  rw [pd_no_eq, pt_no_eq, page_no]
  omega

theorem pd_no_user (huser : is_user_vaddr va = true) : pd_no va < 768 := by
  have hlt := is_user_vaddr_iff.mp huser
  rw [pd_no_eq]
  omega

theorem load_run (page : Word) (i : Nat) : load page i s = .ok (s.word page i, s) := rfl

theorem store_run (page : Word) (i : Nat) (value : Word) :
    store page i value s = .ok ((), s.store page i value) := rfl

theorem Dir.ne_null (h : Dir s pd m) : pd ≠ 0 := by
  rintro rfl
  have hkernel := is_kernel_vaddr_iff.mp h.page.kernel
  simp at hkernel

/-- Looking up a page whose page table is there. -/
theorem lookup_page_table (h : Dir s pd m) {pt : Word} (ht : Table s pd (pd_no va) pt) (create : Bool)
    (huser : create = false ∨ is_user_vaddr va = true) :
    lookup_page pd va create s = .ok (some (pt, pt_no va), s) := by
  rw [lookup_page, Exec.bind_run (Exec.ASSERT_run h.ne_null _), Exec.bind_run (Exec.ASSERT_run huser _),
    Exec.bind_run (load_run _ _), if_neg ht.ne_zero, Exec.bind_run (pde_get_pt_run ht.page ht.entry)]
  rfl

/-- Looking up a page whose page table is not there. -/
theorem lookup_page_none (h : Dir s pd m) (hzero : s.word pd (pd_no va) = 0) :
    lookup_page pd va false s = .ok (none, s) := by
  rw [lookup_page, Exec.bind_run (Exec.ASSERT_run h.ne_null _), Exec.bind_run (Exec.ASSERT_run (Or.inl rfl) _),
    Exec.bind_run (load_run _ _), if_pos hzero]
  rfl

/-- Looking up a user page, with a page table made for it if there is none. -/
theorem lookup_page_create (h : Dir s pd m) (huser : is_user_vaddr va = true) :
    lookup_page pd va true s = .ok (none, { s with asked := s.asked + 1 }) ∨
      ∃ pt s', lookup_page pd va true s = .ok (some (pt, pt_no va), s') ∧ Dir s' pd m ∧
        s'.init_ram_pages = s.init_ram_pages ∧ Table s' pd (pd_no va) pt := by
  obtain hzero | ⟨pt, ht⟩ := h.entry (pd_no va) (pd_no_lt va)
  · rw [lookup_page, Exec.bind_run (Exec.ASSERT_run h.ne_null _),
      Exec.bind_run (Exec.ASSERT_run (Or.inr huser) _),
      Exec.bind_run (load_run _ _), if_pos hzero, if_pos rfl]
    obtain hnone | ⟨pt, hpage, hfree, hsome⟩ := palloc_get_page_run (s := s) h.ram true
    · left
      rw [Exec.bind_run hnone]
      rfl
    · right
      obtain ⟨pde, hpde, hmaps⟩ := pde_create_run (s := (s.take pt).fill pt 0) hpage
      obtain ⟨hdir, ht⟩ := h.add_table (pd_no_user huser) hzero hpage hfree hmaps
      refine ⟨pt, _, ?_, hdir, rfl, ht⟩
      rw [if_pos rfl] at hsome
      rw [Exec.bind_run hsome]
      simp only
      rw [Exec.bind_run hpde, Exec.bind_run (store_run _ _ _), Exec.bind_run (load_run _ _)]
      exact Exec.bind_run (pde_get_pt_run ht.page ht.entry)
  · exact Or.inr ⟨pt, s, lookup_page_table h ht true (Or.inr huser), h, rfl, ht⟩

end Lookup

section Calls

variable {s : Vm} {pd : Word} {m : PageMap}

/-- What `pagedir_set_page` asks of its arguments. -/
structure CanSet (s : Vm) (m : PageMap) (upage kpage : Word) : Prop where
  aligned : pg_ofs upage = 0
  user : is_user_vaddr upage = true
  page : KernelPage kpage
  ram : ((kpage - PHYS_BASE) >>> 12).toNat < s.init_ram_pages
  unmapped : m (page_no upage) = none

/-- A page is mapped as it is told or, where no page table can be had, nothing
changes. -/
theorem pagedir_set_page_run (h : Dir s pd m) {upage kpage : Word} (hset : CanSet s m upage kpage)
    (writable : Bool) :
    pagedir_set_page pd upage kpage writable s = .ok (false, { s with asked := s.asked + 1 }) ∨
      ∃ s', pagedir_set_page pd upage kpage writable s = .ok (true, s') ∧
        Dir s' pd (Function.update m (page_no upage) (some (kpage, writable))) := by
  have hvtop := hset.page.vtop_run (s := s)
  rw [pagedir_set_page, Exec.bind_run (Exec.ASSERT_run hset.aligned _),
    Exec.bind_run (Exec.ASSERT_run hset.page.aligned _), Exec.bind_run (Exec.ASSERT_run hset.user _),
    Exec.bind_run Exec.get_run, Exec.bind_run hvtop, Exec.bind_run (Exec.ASSERT_run hset.ram _),
    Exec.bind_run (Exec.ASSERT_run h.ne_init _)]
  obtain hnone | ⟨pt, t, hlookup, hdir, -, ht⟩ := lookup_page_create h hset.user
  · left
    rw [Exec.bind_run hnone]
    rfl
  · right
    have hpd := pd_no_user hset.user
    have hpt := pt_no_lt upage
    have hclear : t.word pt (pt_no upage) &&& PTE_P = 0 := by
      have hentry := hdir.mapped _ hpd pt ht _ hpt
      rw [page_no_eq, hset.unmapped] at hentry
      exact hentry
    obtain ⟨pte, hpte, hmaps⟩ := pte_create_user_run (s := t) hset.page writable
    have hstore := hdir.store_user hpd ht hpt (v := some (kpage, writable))
        (show EntryFor pte _ from ⟨hset.page, hmaps⟩)
    rw [page_no_eq] at hstore
    refine ⟨_, ?_, hstore⟩
    rw [Exec.bind_run hlookup]
    simp only
    rw [Exec.bind_run (load_run _ _), Exec.bind_run (Exec.ASSERT_run hclear _), Exec.bind_run hpte]
    rfl

/-- A page is unmapped. -/
theorem pagedir_clear_page_run (h : Dir s pd m) {upage : Word} (hupage : pg_ofs upage = 0)
    (huser : is_user_vaddr upage = true) :
    ∃ s', pagedir_clear_page pd upage s = .ok ((), s') ∧ Dir s' pd
      (Function.update m (page_no upage) none) := by
  have hpd := pd_no_user huser
  have hpt := pt_no_lt upage
  rw [pagedir_clear_page, Exec.bind_run (Exec.ASSERT_run hupage _), Exec.bind_run (Exec.ASSERT_run huser _)]
  obtain hzero | ⟨pt, ht⟩ := h.entry (pd_no upage) (pd_no_lt upage)
  · refine ⟨s, ?_, ?_⟩
    · rw [Exec.bind_run (lookup_page_none h hzero)]
      rfl
    · have habsent := h.absent _ hpd hzero _ hpt
      rw [page_no_eq] at habsent
      rwa [← habsent, Function.update_eq_self]
  · rw [Exec.bind_run (lookup_page_table h ht false (Or.inl rfl))]
    simp only
    rw [Exec.bind_run (load_run _ _)]
    by_cases hpresent : s.word pt (pt_no upage) &&& PTE_P ≠ 0
    · have hclear : EntryFor (s.word pt (pt_no upage) &&& ~~~PTE_P) none := by
        refine (BitVec.and_assoc _ _ _).trans ?_
        rw [show ~~~PTE_P &&& PTE_P = 0 from rfl]
        exact BitVec.and_zero
      have hstore := h.store_user hpd ht hpt hclear
      rw [page_no_eq] at hstore
      exact ⟨_, by rw [if_pos hpresent]; rfl, hstore⟩
    · refine ⟨s, by rw [if_neg hpresent]; rfl, ?_⟩
      have hentry := h.mapped _ hpd pt ht _ hpt
      rw [page_no_eq] at hentry
      have hnone : m (page_no upage) = none := by
        cases hm : m (page_no upage) with
        | none => rfl
        | some v =>
          rw [hm] at hentry
          exact absurd hentry.2.present hpresent
      rwa [← hnone, Function.update_eq_self]

/-- The accessed and dirty flags do not belong to the map. The address can also be
one of the kernel's. -/
theorem pagedir_set_flag_run (h : Dir s pd m) {flag : Word} (hflag : flag = PTE_A ∨ flag = PTE_D)
    (vpage : Word) (value : Bool) :
    ∃ s', pagedir_set_flag flag pd vpage value s = .ok ((), s') ∧ Dir s' pd m := by
  have hpd := pd_no_lt vpage
  have hpt := pt_no_lt vpage
  rw [pagedir_set_flag]
  obtain hzero | ⟨pt, ht⟩ := h.entry (pd_no vpage) hpd
  · refine ⟨s, ?_, h⟩
    rw [Exec.bind_run (lookup_page_none h hzero)]
    rfl
  · rw [Exec.bind_run (lookup_page_table h ht false (Or.inl rfl))]
    refine ⟨_, rfl, ?_⟩
    by_cases huser : pd_no vpage < 768
    · have hentry := (h.mapped _ huser pt ht _ hpt).flag hflag value
      have hstore := h.store_user huser ht hpt hentry
      rwa [Function.update_eq_self] at hstore
    · obtain ⟨hne, hinit⟩ := h.apart _ hpd pt ht
      apply h.store_other hne hinit
      intro i hi hti
      have heq := h.distinct i hi _ hpd pt hti ht
      omega

/-- What an address is mapped to. -/
def PageMap.get (m : PageMap) (va : Word) : Option Word := (m (page_no va)).map fun v => v.1 + pg_ofs va

theorem pagedir_get_page_run (h : Dir s pd m) {va : Word} (huser : is_user_vaddr va = true) :
    pagedir_get_page pd va s = .ok (m.get va, s) := by
  have hpd := pd_no_user huser
  have hpt := pt_no_lt va
  rw [pagedir_get_page, Exec.bind_run (Exec.ASSERT_run huser _), PageMap.get]
  obtain hzero | ⟨pt, ht⟩ := h.entry (pd_no va) (pd_no_lt va)
  · have habsent := h.absent _ hpd hzero _ hpt
    rw [page_no_eq] at habsent
    rw [Exec.bind_run (lookup_page_none h hzero), habsent]
    rfl
  · rw [Exec.bind_run (lookup_page_table h ht false (Or.inl rfl))]
    simp only
    rw [Exec.bind_run (load_run _ _)]
    have hentry := h.mapped _ hpd pt ht _ hpt
    rw [page_no_eq] at hentry
    cases hm : m (page_no va) with
    | none =>
      rw [hm] at hentry
      have hclear : s.word pt (pt_no va) &&& PTE_P = 0 := hentry
      rw [if_neg (not_not.mpr hclear)]
      rfl
    | some v =>
      rw [hm] at hentry
      obtain ⟨hkpage, hmaps⟩ := hentry
      rw [if_pos hmaps.present, Exec.bind_run (pte_get_page_run hkpage hmaps.page)]
      rfl

end Calls

end pintos.userprog
