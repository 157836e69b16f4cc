import Pintos.Userprog.Mappings

/-!
# The kernel's page directory (`threads/init.c`)

`paging_init` maps all of RAM for the kernel and nothing for users. A new page
directory is a copy of the kernel's.
-/

open state_error

namespace pintos.userprog

/-- A page directory with mappings for the kernel only, whose page tables are in use. -/
structure KernelOnly (s : Vm) (pd : Word) : Prop where
  ram : s.init_ram_pages ≤ 16384
  init : s.init_page_dir = pd
  page : KernelPage pd
  used : s.used pd = true
  user : ∀ i < 768, s.word pd i = 0
  entry : ∀ i < 1024, s.word pd i = 0 ∨ ∃ pt, Table s pd i pt ∧ s.used pt = true ∧ pt ≠ pd

section PagingInit

variable {s s' : Vm} {pd pt : Word}

theorem page_of_frame_toNat {frame : Nat} (h : frame < 16384) :
    (page_of_frame frame).toNat = frame * 4096 + 3221225472 := by
  rw [page_of_frame, BitVec.toNat_add, BitVec.toNat_ofNat]
  simp only [PGSIZE, PHYS_BASE, BitVec.toNat_ofNat]
  omega

theorem pd_no_frame {frame : Nat} (h : frame < 16384) : 768 ≤ pd_no (page_of_frame frame) := by
  rw [pd_no_eq, page_of_frame_toNat h]
  omega

theorem ptov_frame_run {frame : Nat} (h : frame < 16384) :
    ptov (BitVec.ofNat 32 (frame * PGSIZE)) s = .ok (page_of_frame frame, s) := by
  have hpaddr : BitVec.ofNat 32 (frame * PGSIZE) < PHYS_BASE := by
    rw [BitVec.lt_def, BitVec.toNat_ofNat]
    simp only [PGSIZE, PHYS_BASE, BitVec.toNat_ofNat]
    omega
  rw [ptov, Exec.bind_run (Exec.ASSERT_run hpaddr _)]
  rfl

theorem pte_create_kernel_run {page : Word} (hpage : KernelPage page) (writable : Bool) :
    ∃ pte, pte_create_kernel page writable s = .ok (pte, s) := by
  rw [pte_create_kernel, Exec.bind_run (Exec.ASSERT_run hpage.aligned _), Exec.bind_run hpage.vtop_run]
  exact ⟨_, rfl⟩

/-- A store outside the directory. -/
theorem KernelOnly.store (h : KernelOnly s pd) (hpt : pt ≠ pd) (i : Nat) (value : Word) :
    KernelOnly (s.store pt i value) pd := by
  have hdir : ∀ k, (s.store pt i value).word pd k = s.word pd k := fun k => if_neg fun hk => hpt hk.1.symm
  refine ⟨h.ram, h.init, h.page, h.used, ?_, ?_⟩
  · intro k hk
    exact (hdir k).trans (h.user k hk)
  · intro k hk
    obtain hzero | ⟨q, hq, hrest⟩ := h.entry k hk
    · exact Or.inl ((hdir k).trans hzero)
    · exact Or.inr ⟨q, hq.congr (hdir k), hrest⟩

/-- A new page table for the kernel. -/
theorem KernelOnly.add_table (h : KernelOnly s pd) {i : Nat} (hi : 768 ≤ i) (hpt : KernelPage pt)
    (hfree : s.used pt = false) {pde : Word} (hpde : Maps pde pt true) :
    KernelOnly (s.add_table pd i pt pde) pd ∧ pt ≠ pd := by
  have hne : ∀ p, s.used p = true → p ≠ pt := by
    rintro p hp rfl
    rw [hp] at hfree
    contradiction
  have hpd := hne pd h.used
  have hdir : ∀ k, k ≠ i → (s.add_table pd i pt pde).word pd k = s.word pd k :=
    fun k hk => (if_neg fun hki => hk hki.2).trans (if_neg hpd)
  have hnew : (s.add_table pd i pt pde).word pd i = pde := if_pos ⟨rfl, rfl⟩
  have hmark : ∀ p, s.used p = true → (s.add_table pd i pt pde).used p = true :=
    fun p hp => (if_neg (hne p hp)).trans hp
  refine ⟨⟨h.ram, h.init, h.page, hmark pd h.used, ?_, ?_⟩, hpd.symm⟩
  · intro k hk
    exact (hdir k (by omega)).trans (h.user k hk)
  · intro k hk
    by_cases hki : k = i
    · subst hki
      refine Or.inr ⟨pt, ⟨hpt, ?_⟩, if_pos rfl, hpd.symm⟩
      rw [hnew]
      exact hpde
    · obtain hzero | ⟨q, hq, hused, hrest⟩ := h.entry k hk
      · exact Or.inl ((hdir k hki).trans hzero)
      · exact Or.inr ⟨q, hq.congr (hdir k hki), hmark q hused, hrest⟩

/-- The loop maps kernel addresses only. `pt` is the page table made last. -/
theorem KernelOnly.paging_loop (in_kernel_text : Word → Bool) (n : Nat) :
    ∀ {page : Nat} {pt : Word} {s : Vm}, KernelOnly s pd → pt ≠ pd → page + n ≤ 16384 →
      paging_loop in_kernel_text pd n page pt s = .ok ((), s') → KernelOnly s' pd := by
  induction n with
  | zero =>
    intro page pt s h _ _ hrun
    obtain ⟨-, rfl⟩ := Prod.mk.inj (Except.ok.inj hrun)
    exact h
  | succ n ih =>
    intro page pt s h hpt hfit hrun
    have hframe : page < 16384 := by omega
    have hrest : ∀ {t : Vm} {q : Word}, KernelOnly t pd → q ≠ pd →
        (pte_create_kernel (page_of_frame page) (!in_kernel_text (page_of_frame page)) >>= fun pte =>
          userprog.store q (pt_no (page_of_frame page)) pte >>= fun _ =>
            userprog.paging_loop in_kernel_text pd n (page + 1) q) t = .ok ((), s') → KernelOnly s' pd := by
      intro t q ht hq hrun
      obtain ⟨pte, hpte⟩ := pte_create_kernel_run (s := t) (page_of_frame_kernel hframe)
        (!in_kernel_text (page_of_frame page))
      rw [Exec.bind_run hpte, Exec.bind_run (store_run _ _ _)] at hrun
      exact ih (ht.store hq _ _) hq (by omega) hrun
    rw [userprog.paging_loop, Exec.bind_run (ptov_frame_run hframe), Exec.bind_run (load_run _ _)] at hrun
    by_cases hzero : s.word pd (pd_no (page_of_frame page)) = 0
    · rw [if_pos hzero] at hrun
      obtain hnone | ⟨q, hq, hfree, hsome⟩ := palloc_get_page_run (s := s) h.ram true
      · rw [Exec.bind_run hnone] at hrun
        contradiction
      · obtain ⟨pde, hcreate, hmaps⟩ := pde_create_run (s := (s.take q).fill q 0) hq
        obtain ⟨hadd, hne⟩ := h.add_table (pd_no_frame hframe) hq hfree hmaps
        rw [if_pos rfl] at hsome
        rw [Exec.bind_run hsome] at hrun
        simp only at hrun
        have hstate : ((s.take q).fill q 0).store pd (pd_no (page_of_frame page)) pde =
          s.add_table pd (pd_no (page_of_frame page)) q pde := rfl
        rw [Exec.bind_run hcreate, Exec.bind_run (store_run _ _ _), hstate,
          Exec.bind_run (Exec.pure_run _)] at hrun
        exact hrest hadd hne hrun
    · rw [if_neg hzero, Exec.bind_run (Exec.pure_run _)] at hrun
      exact hrest h hpt hrun

/-- `paging_init` makes a directory for the kernel only. -/
theorem paging_init_ok {in_kernel_text : Word → Bool} (hram : s.init_ram_pages ≤ 16384)
    (hrun : paging_init in_kernel_text s = .ok ((), s')) : KernelOnly s' s'.init_page_dir := by
  rw [paging_init] at hrun
  obtain hnone | ⟨pd, hpd, -, hsome⟩ := palloc_get_page_run (s := s) hram true
  · rw [Exec.bind_run hnone] at hrun
    contradiction
  · rw [if_pos rfl] at hsome
    rw [Exec.bind_run hsome] at hrun
    have hempty : KernelOnly { (s.take pd).fill pd 0 with init_page_dir := pd } pd :=
      ⟨hram, rfl, hpd, if_pos rfl, fun i _ => if_pos rfl, fun i _ => Or.inl (if_pos rfl)⟩
    have hnull : (0 : Word) ≠ pd := by
      rintro rfl
      have hkernel := is_kernel_vaddr_iff.mp hpd.kernel
      simp at hkernel
    have hkernel : KernelOnly s' pd := hempty.paging_loop in_kernel_text _ hnull
      (by rw [Nat.zero_add]; exact hram) hrun
    rw [hkernel.init]
    exact hkernel

end PagingInit

/-- The states after `paging_init`. Other code may change all memory but the entries
of the kernel's directory, and does not free its page tables. -/
inductive KernelRuns : Vm → Prop where
  | boot {s s' : Vm} (in_kernel_text : Word → Bool) (hram : s.init_ram_pages ≤ 16384)
      (hrun : paging_init in_kernel_text s = .ok ((), s')) : KernelRuns s'
  | others {s s' : Vm} (h : KernelRuns s) (hram : s'.init_ram_pages = s.init_ram_pages)
      (hinit : s'.init_page_dir = s.init_page_dir)
      (hword : ∀ i < 1024, s'.word s.init_page_dir i = s.word s.init_page_dir i)
      (hused : s'.used s.init_page_dir = true)
      (htables : ∀ i < 1024, ∀ pt, Table s s.init_page_dir i pt → s'.used pt = true) : KernelRuns s'

theorem KernelRuns.kernel_only {s : Vm} (h : KernelRuns s) : KernelOnly s s.init_page_dir := by
  induction h with
  | boot _ hram hrun => exact paging_init_ok hram hrun
  | @others s s' _ hram hinit hword hused htables ih =>
    rw [hinit]
    refine ⟨hram ▸ ih.ram, hinit, ih.page, hused, ?_, ?_⟩
    · intro i hi
      exact (hword i (by omega)).trans (ih.user i hi)
    · intro i hi
      obtain hzero | ⟨pt, ht, -, hne⟩ := ih.entry i hi
      · exact Or.inl ((hword i hi).trans hzero)
      · exact Or.inr ⟨pt, ht.congr (hword i hi), htables i hi pt ht, hne⟩

/-- A new page directory maps no user page. -/
theorem pagedir_create_run {s : Vm} (h : KernelOnly s s.init_page_dir) :
    pagedir_create s = .ok (none, { s with asked := s.asked + 1 }) ∨
      ∃ pd s', pagedir_create s = .ok (some pd, s') ∧ Dir s' pd fun _ => none := by
  rw [pagedir_create]
  obtain hnone | ⟨pd, hpd, hfree, hsome⟩ := palloc_get_page_run (s := s) h.ram false
  · left
    rw [Exec.bind_run hnone]
    rfl
  · right
    have hne : ∀ p, s.used p = true → p ≠ pd := by
      rintro p hp rfl
      rw [hp] at hfree
      contradiction
    have hinit := hne _ h.used
    rw [if_neg Bool.false_ne_true] at hsome
    refine ⟨pd, { s.take pd with
      word := fun p i => if p = pd then (s.take pd).word (s.take pd).init_page_dir i else
        (s.take pd).word p i },
      ?_, ?_⟩
    · rw [Exec.bind_run hsome]
      rfl
    · set t : Vm := { s.take pd with
        word := fun p i => if p = pd then (s.take pd).word (s.take pd).init_page_dir i
          else (s.take pd).word p i } with ht
      have hpdword : ∀ i, t.word pd i = s.word s.init_page_dir i := fun i => if_pos rfl
      have hinitword : ∀ i, t.word s.init_page_dir i = s.word s.init_page_dir i := fun i => if_neg hinit
      have hmark : ∀ p, s.used p = true → t.used p = true := fun p hp => (if_neg (hne p hp)).trans hp
      -- The page tables of the new directory are the kernel's.
      have htable : ∀ i < 1024, ∀ pt, Table t pd i pt → s.used pt = true ∧ pt ≠ s.init_page_dir := by
        intro i hi pt hpt
        have hpt' : Table s s.init_page_dir i pt := ⟨hpt.page, hpdword i ▸ hpt.entry⟩
        obtain hzero | ⟨q, hq, hused, hqne⟩ := h.entry i hi
        · exact absurd hzero hpt'.ne_zero
        · rw [hpt'.unique hq]
          exact ⟨hused, hqne⟩
      have huser : ∀ i < 768, ∀ pt, ¬ Table t pd i pt := by
        intro i hi pt hpt
        exact hpt.ne_zero ((hpdword i).trans (h.user i hi))
      refine ⟨h.ram, hpd, hinit.symm, if_pos rfl, hmark _ h.used, ?_, ?_, ?_, ?_, ?_, ?_, ?_⟩
      · intro i hi
        obtain hzero | ⟨q, hq, -⟩ := h.entry i hi
        · exact Or.inl ((hpdword i).trans hzero)
        · exact Or.inr ⟨q, hq.page, (hpdword i).symm ▸ hq.entry⟩
      · exact fun i hi pt hpt => hmark pt (htable i hi pt hpt).1
      · exact fun i hi pt hpt => ⟨hne pt (htable i hi pt hpt).1, (htable i hi pt hpt).2⟩
      · exact fun i hi _ _ pt hpt => absurd hpt (huser i hi pt)
      · exact fun i _ _ => (hpdword i).trans (hinitword i).symm
      · exact fun _ _ _ _ _ => rfl
      · exact fun i hi pt hpt => absurd hpt (huser i hi pt)

end pintos.userprog
