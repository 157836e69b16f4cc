import Pintos.Userprog.PageDir
import Mathlib.Logic.Function.Basic

/-!
# Well-formed page directories

A directory is well formed for a map from user page numbers to pages when its
entries lead to page tables of its own, which hold the entries that the map says.
Nothing outside these tables matters.
-/

open state_error

namespace pintos.userprog

/-- A map from the numbers of user pages to the pages that they are mapped to, with
whether they can be written. -/
abbrev PageMap := Nat → Option (Word × Bool)

/-- Entry `i` of the directory leads to the page table `pt`. -/
structure Table (s : Vm) (pd : Word) (i : Nat) (pt : Word) : Prop where
  page : KernelPage pt
  entry : Maps (s.word pd i) pt true

/-- The entry of a page table is what the map says. -/
def EntryFor (pte : Word) : Option (Word × Bool) → Prop
  | none => pte &&& PTE_P = 0
  | some (kpage, writable) => KernelPage kpage ∧ Maps pte kpage writable

/-- The entry after a flag other than those that the mapping uses is set or cleared. -/
theorem EntryFor.flag {pte flag : Word} {v : Option (Word × Bool)} (h : EntryFor pte v)
    (hflag : flag = PTE_A ∨ flag = PTE_D) (value : Bool) :
    EntryFor (if value then pte ||| flag else pte &&& ~~~flag) v := by
  have hbits : flag &&& PTE_P = 0 ∧ ~~~flag &&& PTE_P = PTE_P := by
    obtain rfl | rfl := hflag <;> decide
  cases v with
  | none =>
    cases value with
    | true =>
      refine BitVec.and_or_distrib_right.trans ?_
      rw [hbits.1, show pte &&& PTE_P = 0 from h]
      rfl
    | false =>
      refine (BitVec.and_assoc _ _ _).trans ?_
      rw [hbits.2]
      exact h
  | some p =>
    cases value with
    | true => exact ⟨h.1, h.2.or hflag⟩
    | false => exact ⟨h.1, h.2.and_not hflag⟩

/-- A directory whose user pages are mapped as `m` says. -/
structure Dir (s : Vm) (pd : Word) (m : PageMap) : Prop where
  ram : s.init_ram_pages ≤ 16384
  page : KernelPage pd
  ne_init : pd ≠ s.init_page_dir
  used : s.used pd = true
  init_used : s.used s.init_page_dir = true
  entry : ∀ i < 1024, s.word pd i = 0 ∨ ∃ pt, Table s pd i pt
  table_used : ∀ i < 1024, ∀ pt, Table s pd i pt → s.used pt = true
  apart : ∀ i < 1024, ∀ pt, Table s pd i pt → pt ≠ pd ∧ pt ≠ s.init_page_dir
  distinct : ∀ i < 768, ∀ j < 1024, ∀ pt, Table s pd i pt → Table s pd j pt → i = j
  shared : ∀ i, 768 ≤ i → i < 1024 → s.word pd i = s.word s.init_page_dir i
  absent : ∀ i < 768, s.word pd i = 0 → ∀ j < 1024, m (1024 * i + j) = none
  mapped : ∀ i < 768, ∀ pt, Table s pd i pt → ∀ j < 1024, EntryFor (s.word pt j) (m (1024 * i + j))

/-- The state keeps what a directory rests on: its entries, those of the kernel's
directory and of its own page tables, and that all of these are in use. -/
structure Keeps (pd : Word) (s s' : Vm) : Prop where
  ram : s'.init_ram_pages = s.init_ram_pages
  init : s'.init_page_dir = s.init_page_dir
  dir : ∀ i < 1024, s'.word pd i = s.word pd i
  init_dir : ∀ i < 1024, s'.word s.init_page_dir i = s.word s.init_page_dir i
  tables : ∀ i < 768, ∀ pt, Table s pd i pt → ∀ j < 1024, s'.word pt j = s.word pt j
  used : s'.used pd = true ∧ s'.used s.init_page_dir = true
  table_used : ∀ i < 1024, ∀ pt, Table s pd i pt → s'.used pt = true

section Table

variable {s s' : Vm} {pd pt pt' : Word} {i : Nat}

theorem Maps.unique {pte page page' : Word} {w w' : Bool} (h : Maps pte page w) (h' : Maps pte page' w') :
    page = page' := by
  have heq : page - PHYS_BASE = page' - PHYS_BASE := h.page.symm.trans h'.page
  rw [← BitVec.sub_add_cancel page PHYS_BASE, heq, BitVec.sub_add_cancel]

theorem Table.unique (h : Table s pd i pt) (h' : Table s pd i pt') : pt = pt' := h.entry.unique h'.entry

theorem Table.ne_zero (h : Table s pd i pt) : s.word pd i ≠ 0 := by
  intro hzero
  apply h.entry.present
  rw [hzero]
  exact BitVec.zero_and

theorem Table.congr (h : Table s pd i pt) (hword : s'.word pd i = s.word pd i) : Table s' pd i pt :=
  ⟨h.page, hword ▸ h.entry⟩

end Table

/-- What is kept is all that matters. -/
theorem Dir.keeps {s s' : Vm} {pd : Word} {m : PageMap} (h : Dir s pd m) (hk : Keeps pd s s') :
    Dir s' pd m := by
  have hback : ∀ i < 1024, ∀ pt, Table s' pd i pt → Table s pd i pt :=
    fun i hi pt ht => ht.congr (hk.dir i hi).symm
  refine ⟨?_, h.page, ?_, hk.used.1, ?_, ?_, ?_, ?_, ?_, ?_, ?_, ?_⟩
  · rw [hk.ram]
    exact h.ram
  · rw [hk.init]
    exact h.ne_init
  · rw [hk.init]
    exact hk.used.2
  · intro i hi
    obtain hzero | ⟨pt, ht⟩ := h.entry i hi
    · exact Or.inl ((hk.dir i hi).trans hzero)
    · exact Or.inr ⟨pt, ht.congr (hk.dir i hi)⟩
  · intro i hi pt ht
    exact hk.table_used i hi pt (hback i hi pt ht)
  · intro i hi pt ht
    rw [hk.init]
    exact h.apart i hi pt (hback i hi pt ht)
  · intro i hi j hj pt ht ht'
    exact h.distinct i hi j hj pt (hback i (by omega) pt ht) (hback j hj pt ht')
  · intro i hlow hi
    rw [hk.init, hk.dir i hi, hk.init_dir i hi]
    exact h.shared i hlow hi
  · intro i hi hzero
    exact h.absent i hi ((hk.dir i (by omega)).symm.trans hzero)
  · intro i hi pt ht j hj
    have ht' := hback i (by omega) pt ht
    rw [hk.tables i hi pt ht' j hj]
    exact h.mapped i hi pt ht' j hj

section Store

variable {s : Vm} {pd pt value : Word} {m : PageMap} {i j : Nat}

@[simp] theorem Vm.store_word (s : Vm) (page : Word) (i : Nat) (value : Word) (p : Word) (j : Nat) :
    (s.store page i value).word p j = if p = page ∧ j = i then value else s.word p j := rfl

@[simp] theorem Vm.store_init (s : Vm) (page : Word) (i : Nat) (value : Word) :
    (s.store page i value).init_page_dir = s.init_page_dir := rfl

/-- A store to a table that none of the directory's user entries leads to. -/
theorem Dir.store_other (h : Dir s pd m) (hpd : pt ≠ pd) (hinit : pt ≠ s.init_page_dir)
    (hother : ∀ i < 768, ¬ Table s pd i pt) : Dir (s.store pt j value) pd m := by
  apply h.keeps
  refine ⟨rfl, rfl, ?_, ?_, ?_, ⟨h.used, h.init_used⟩, h.table_used⟩
  · intro k _
    exact if_neg fun hk => hpd hk.1.symm
  · intro k _
    exact if_neg fun hk => hinit hk.1.symm
  · intro k hk q hq l _
    refine if_neg fun hl => ?_
    exact hother k hk (hl.1 ▸ hq)

/-- A store to an entry for a user page changes what the page is mapped to. -/
theorem Dir.store_user (h : Dir s pd m) (hi : i < 768) (ht : Table s pd i pt) (hj : j < 1024)
    {v : Option (Word × Bool)} (hv : EntryFor value v) :
    Dir (s.store pt j value) pd (Function.update m (1024 * i + j) v) := by
  obtain ⟨hpd, hinit⟩ := h.apart i (by omega) pt ht
  have hdir : ∀ k, (s.store pt j value).word pd k = s.word pd k := fun k => if_neg fun hk => hpd hk.1.symm
  have hback : ∀ k q, Table (s.store pt j value) pd k q → Table s pd k q := fun k q hq => hq.congr (hdir k).symm
  refine ⟨h.ram, h.page, h.ne_init, h.used, h.init_used, ?_, ?_, ?_, ?_, ?_, ?_, ?_⟩
  · intro k hk
    obtain hzero | ⟨q, hq⟩ := h.entry k hk
    · exact Or.inl ((hdir k).trans hzero)
    · exact Or.inr ⟨q, hq.congr (hdir k)⟩
  · exact fun k hk q hq => h.table_used k hk q (hback k q hq)
  · exact fun k hk q hq => h.apart k hk q (hback k q hq)
  · exact fun k hk l hl q hq hq' => h.distinct k hk l hl q (hback k q hq) (hback l q hq')
  · intro k hlow hk
    rw [hdir]
    exact (h.shared k hlow hk).trans (if_neg fun hk => hinit hk.1.symm).symm
  · intro k hk hzero l hl
    have hne : k ≠ i := by
      rintro rfl
      exact ht.ne_zero ((hdir k).symm.trans hzero)
    rw [Function.update_of_ne (by omega)]
    exact h.absent k hk ((hdir k).symm.trans hzero) l hl
  · intro k hk q hq l hl
    have hq' := hback k q hq
    by_cases hsame : q = pt ∧ l = j
    · obtain ⟨rfl, rfl⟩ := hsame
      have hki : k = i := h.distinct k hk i (by omega) q hq' ht
      rw [hki, Function.update_self, Vm.store_word, if_pos ⟨rfl, rfl⟩]
      exact hv
    · have hne : 1024 * k + l ≠ 1024 * i + j := by
        intro heq
        obtain rfl : k = i := by omega
        exact hsame ⟨hq'.unique ht, by omega⟩
      rw [Function.update_of_ne hne, Vm.store_word, if_neg hsame]
      exact h.mapped k hk q hq' l hl

/-- The memory after `palloc_get_page` has found a page. -/
def Vm.take (s : Vm) (page : Word) : Vm :=
  { s with asked := s.asked + 1, used := fun p => if p = page then true else s.used p }

/-- The memory after a new page table has been put in entry `i`. -/
def Vm.add_table (s : Vm) (pd : Word) (i : Nat) (pt pde : Word) : Vm :=
  ((s.take pt).fill pt 0).store pd i pde

/-- A new page table maps nothing. -/
theorem Dir.add_table (h : Dir s pd m) (hi : i < 768) (hzero : s.word pd i = 0) (hpt : KernelPage pt)
    (hfree : s.used pt = false) {pde : Word} (hpde : Maps pde pt true) :
    Dir (s.add_table pd i pt pde) pd m ∧ Table (s.add_table pd i pt pde) pd i pt := by
  have hne : ∀ p, s.used p = true → p ≠ pt := by
    rintro p hp rfl
    rw [hp] at hfree
    contradiction
  have hpd := hne pd h.used
  have hinit := hne _ h.init_used
  have hword : ∀ p k, p ≠ pt → ¬ (p = pd ∧ k = i) → (s.add_table pd i pt pde).word p k = s.word p k :=
    fun p k hp hk => (if_neg hk).trans (if_neg hp)
  have hnew : (s.add_table pd i pt pde).word pd i = pde := if_pos ⟨rfl, rfl⟩
  have hempty : ∀ k, (s.add_table pd i pt pde).word pt k = 0 :=
    fun k => (if_neg fun hk => hpd hk.1.symm).trans (if_pos rfl)
  have hdir : ∀ k, k ≠ i → (s.add_table pd i pt pde).word pd k = s.word pd k :=
    fun k hk => hword pd k hpd fun hki => hk hki.2
  have htable : Table (s.add_table pd i pt pde) pd i pt := by
    refine ⟨hpt, ?_⟩
    rw [hnew]
    exact hpde
  have hback : ∀ k q, k ≠ i → Table (s.add_table pd i pt pde) pd k q → Table s pd k q :=
    fun k q hk hq => hq.congr (hdir k hk).symm
  have hmark : ∀ p, s.used p = true → (s.add_table pd i pt pde).used p = true := by
    intro p hp
    exact (if_neg (hne p hp)).trans hp
  -- A table of the directory other than the new one was in use before.
  have hold : ∀ k < 1024, ∀ q, Table (s.add_table pd i pt pde) pd k q →
      k = i ∧ q = pt ∨ k ≠ i ∧ Table s pd k q ∧ q ≠ pt := by
    intro k hk q hq
    by_cases hki : k = i
    · subst hki
      exact Or.inl ⟨rfl, hq.unique htable⟩
    · have hq' := hback k q hki hq
      exact Or.inr ⟨hki, hq', hne q (h.table_used k hk q hq')⟩
  refine ⟨⟨h.ram, h.page, h.ne_init, hmark _ h.used, hmark _ h.init_used, ?_, ?_, ?_, ?_, ?_, ?_, ?_⟩, htable⟩
  · intro k hk
    by_cases hki : k = i
    · subst hki
      exact Or.inr ⟨pt, htable⟩
    · obtain hzero | ⟨q, hq⟩ := h.entry k hk
      · exact Or.inl ((hdir k hki).trans hzero)
      · exact Or.inr ⟨q, hq.congr (hdir k hki)⟩
  · intro k hk q hq
    obtain ⟨-, rfl⟩ | ⟨-, hq', -⟩ := hold k hk q hq
    · exact if_pos rfl
    · exact hmark q (h.table_used k hk q hq')
  · intro k hk q hq
    obtain ⟨-, rfl⟩ | ⟨-, hq', -⟩ := hold k hk q hq
    · exact ⟨hpd.symm, hinit.symm⟩
    · exact h.apart k hk q hq'
  · intro k hk l hl q hq hq'
    obtain ⟨hki, hqt⟩ | ⟨hki, hk', hqt⟩ := hold k (by omega) q hq <;>
      obtain ⟨hli, hqt'⟩ | ⟨hli, hl', hqt'⟩ := hold l hl q hq'
    · omega
    · exact absurd hqt hqt'
    · exact absurd hqt' hqt
    · exact h.distinct k hk l hl q hk' hl'
  · intro k hlow hk
    rw [hdir k (by omega)]
    exact (h.shared k hlow hk).trans (hword _ k hinit fun hk => h.ne_init hk.1.symm).symm
  · intro k hk hz l hl
    have hki : k ≠ i := by
      rintro rfl
      exact htable.ne_zero hz
    exact h.absent k hk ((hdir k hki).symm.trans hz) l hl
  · intro k hk q hq l hl
    obtain ⟨rfl, rfl⟩ | ⟨hki, hq', hqt⟩ := hold k (by omega) q hq
    · rw [hempty, h.absent k hk hzero l hl]
      exact BitVec.zero_and
    · have hqd := (h.apart k (by omega) q hq').1
      rw [hword q l hqt fun hk => hqd hk.1]
      exact h.mapped k hk q hq' l hl

end Store

end pintos.userprog
