import Pintos.Userprog.Destroy

/-!
# Runs of calls on a page directory

Whatever calls are made on a directory, its user pages are mapped as the calls say,
and its destruction hands back every page once.
-/

open state_error

namespace pintos.userprog

/-- The states that a sequence of calls on the directory `pd` can lead to, with the
map that the calls describe. Between the calls other code may change memory that the
directory does not rest on. -/
inductive Reaches (pd : Word) : Vm → PageMap → Prop where
  | create {s s' : Vm} (h : KernelRuns s) (hrun : pagedir_create s = .ok (some pd, s')) :
      Reaches pd s' fun _ => none
  | set_page {s s' : Vm} {m : PageMap} {ok : Bool} (upage kpage : Word) (writable : Bool) (h : Reaches pd s m)
      (hunmapped : m (page_no upage) = none)
      (hrun : pagedir_set_page pd upage kpage writable s = .ok (ok, s')) :
      Reaches pd s' (if ok then Function.update m (page_no upage) (some (kpage, writable)) else m)
  | clear_page {s s' : Vm} {m : PageMap} (upage : Word) (h : Reaches pd s m)
      (hrun : pagedir_clear_page pd upage s = .ok ((), s')) :
      Reaches pd s' (Function.update m (page_no upage) none)
  | set_dirty {s s' : Vm} {m : PageMap} (vpage : Word) (dirty : Bool) (h : Reaches pd s m)
      (hrun : pagedir_set_dirty pd vpage dirty s = .ok ((), s')) : Reaches pd s' m
  | set_accessed {s s' : Vm} {m : PageMap} (vpage : Word) (accessed : Bool) (h : Reaches pd s m)
      (hrun : pagedir_set_accessed pd vpage accessed s = .ok ((), s')) : Reaches pd s' m
  | others {s s' : Vm} {m : PageMap} (h : Reaches pd s m) (hkeeps : Keeps pd s s') : Reaches pd s' m

section Step

variable {s s' : Vm} {pd : Word} {m : PageMap}

/-- A call that does not end in a panic has met the checks on its arguments. -/
theorem pagedir_set_page_ok {upage kpage : Word} {writable ok : Bool}
    (hunmapped : m (page_no upage) = none)
    (hrun : pagedir_set_page pd upage kpage writable s = .ok (ok, s')) : CanSet s m upage kpage := by
  rw [pagedir_set_page, Exec.ASSERT_bind_eq_ok, Exec.ASSERT_bind_eq_ok, Exec.ASSERT_bind_eq_ok] at hrun
  obtain ⟨hupage, hkpage, huser, hrun⟩ := hrun
  rw [Exec.bind_run Exec.get_run, Exec.bind_eq_ok] at hrun
  obtain ⟨paddr, t, hvtop, hrun⟩ := hrun
  rw [vtop, Exec.ASSERT_bind_eq_ok] at hvtop
  obtain ⟨hkernel, hpaddr⟩ := hvtop
  obtain ⟨rfl, rfl⟩ := Prod.mk.inj (Except.ok.inj hpaddr)
  rw [Exec.ASSERT_bind_eq_ok] at hrun
  exact ⟨hupage, huser, ⟨hkpage, hkernel⟩, hrun.1, hunmapped⟩

theorem pagedir_clear_page_ok {upage : Word} (hrun : pagedir_clear_page pd upage s = .ok ((), s')) :
    pg_ofs upage = 0 ∧ is_user_vaddr upage = true := by
  rw [pagedir_clear_page, Exec.ASSERT_bind_eq_ok, Exec.ASSERT_bind_eq_ok] at hrun
  exact ⟨hrun.1, hrun.2.1⟩

/-- Every call leaves a well-formed directory. -/
theorem Reaches.dir (h : Reaches pd s m) : Dir s pd m := by
  induction h with
  | create h hrun =>
    obtain hnone | ⟨pd', s', hsome, hdir⟩ := pagedir_create_run h.kernel_only
    · obtain ⟨hpd, -⟩ := Exec.ok_inj hrun hnone
      contradiction
    · obtain ⟨hpd, rfl⟩ := Exec.ok_inj hrun hsome
      obtain rfl := Option.some.inj hpd
      exact hdir
  | @set_page s s' m ok upage kpage writable _ hunmapped hrun ih =>
    obtain hfalse | ⟨t, htrue, hdir⟩ := pagedir_set_page_run ih (pagedir_set_page_ok hunmapped hrun) writable
    · obtain ⟨rfl, rfl⟩ := Exec.ok_inj hrun hfalse
      exact ih.keeps ⟨rfl, rfl, fun _ _ => rfl, fun _ _ => rfl, fun _ _ _ _ _ _ => rfl, ⟨ih.used, ih.init_used⟩,
        ih.table_used⟩
    · obtain ⟨rfl, rfl⟩ := Exec.ok_inj hrun htrue
      exact hdir
  | clear_page upage _ hrun ih =>
    obtain ⟨hupage, huser⟩ := pagedir_clear_page_ok hrun
    obtain ⟨t, hrun', hdir⟩ := pagedir_clear_page_run ih hupage huser
    obtain ⟨-, rfl⟩ := Exec.ok_inj hrun hrun'
    exact hdir
  | set_dirty vpage dirty _ hrun ih =>
    obtain ⟨t, hrun', hdir⟩ := pagedir_set_flag_run ih (Or.inr rfl) vpage dirty
    obtain ⟨-, rfl⟩ := Exec.ok_inj hrun hrun'
    exact hdir
  | set_accessed vpage accessed _ hrun ih =>
    obtain ⟨t, hrun', hdir⟩ := pagedir_set_flag_run ih (Or.inl rfl) vpage accessed
    obtain ⟨-, rfl⟩ := Exec.ok_inj hrun hrun'
    exact hdir
  | others _ hkeeps ih => exact ih.keeps hkeeps

end Step

/-- The callers' side of mapping pages: a page that is mapped is in use, is mapped
only once, and is none that the page tables are made of. -/
structure Owned (s : Vm) (pd : Word) (m : PageMap) : Prop where
  used : ∀ i kpage w, m i = some (kpage, w) → s.used kpage = true
  once : ∀ i j kpage w w', m i = some (kpage, w) → m j = some (kpage, w') → i = j
  apart : ∀ i kpage w, m i = some (kpage, w) → kpage ≠ pd ∧ kpage ≠ s.init_page_dir ∧
    ∀ k < 1024, ¬ Table s pd k kpage

section Pages

variable {s : Vm} {pd p : Word} {m : PageMap}

theorem mem_mapped_pages {i : Nat} :
    p ∈ mapped_pages m i 0 1024 ↔ ∃ j < 1024, ∃ w, m (1024 * i + j) = some (p, w) := by
  simp [mapped_pages, List.mem_filterMap, List.mem_range'_1]

theorem mem_entry_pages (h : Dir s pd m) {i : Nat} (hi : i < 768) :
    p ∈ entry_pages s pd m i ↔ Table s pd i p ∨ ∃ j < 1024, ∃ w, m (1024 * i + j) = some (p, w) := by
  obtain hzero | ⟨pt, ht⟩ := h.entry i (by omega)
  · rw [entry_pages, table, if_pos hzero]
    constructor
    · simp
    · rintro (ht | ⟨j, hj, w, hm⟩)
      · exact absurd hzero ht.ne_zero
      · rw [h.absent i hi hzero j hj] at hm
        contradiction
  · rw [entry_pages, ht.table_eq]
    simp only [List.mem_append, List.mem_singleton, mem_mapped_pages]
    constructor
    · rintro (hmapped | rfl)
      · exact Or.inr hmapped
      · exact Or.inl ht
    · rintro (hp | hmapped)
      · exact Or.inr (hp.unique ht)
      · exact Or.inl hmapped

theorem mem_dir_pages (h : Dir s pd m) : p ∈ dir_pages s pd m 0 768 ↔
    (∃ i < 768, Table s pd i p) ∨ ∃ i < 786432, ∃ w, m i = some (p, w) := by
  simp only [dir_pages, List.mem_flatMap, List.mem_range'_1]
  constructor
  · rintro ⟨i, hi, hp⟩
    obtain ht | ⟨j, hj, w, hm⟩ := (mem_entry_pages h (by omega)).mp hp
    · exact Or.inl ⟨i, by omega, ht⟩
    · exact Or.inr ⟨1024 * i + j, by omega, w, hm⟩
  · rintro (⟨i, hi, ht⟩ | ⟨i, hi, w, hm⟩)
    · exact ⟨i, by omega, (mem_entry_pages h hi).mpr (Or.inl ht)⟩
    · have hsplit : 1024 * (i / 1024) + i % 1024 = i := by omega
      refine ⟨i / 1024, by omega, (mem_entry_pages h (by omega)).mpr (Or.inr ?_)⟩
      exact ⟨i % 1024, by omega, w, hsplit.symm ▸ hm⟩

/-- No page is handed back twice. -/
theorem dir_pages_nodup (h : Dir s pd m) (howned : Owned s pd m) : (dir_pages s pd m 0 768).Nodup := by
  rw [dir_pages, List.nodup_flatMap]
  constructor
  · intro i hi
    rw [List.mem_range'_1] at hi
    rw [entry_pages]
    cases ht : table s pd i with
    | none => exact List.nodup_nil
    | some pt =>
      have hpages : (mapped_pages m i 0 1024).Nodup := by
        apply List.Nodup.filterMap _ List.nodup_range'
        intro j j' p hj hj'
        simp only [Option.mem_def, Option.map_eq_some_iff] at hj hj'
        obtain ⟨v, hv, rfl⟩ := hj
        obtain ⟨v', hv', heq⟩ := hj'
        have hsame := howned.once (1024 * i + j) (1024 * i + j') v.1 v.2 v'.2 hv (heq ▸ hv')
        omega
      have htable : Table s pd i pt := by
        obtain hzero | ⟨q, hq⟩ := h.entry i (by omega)
        · rw [table, if_pos hzero] at ht
          contradiction
        · rw [hq.table_eq] at ht
          exact Option.some.inj ht ▸ hq
      apply List.nodup_append'.mpr ⟨hpages, List.nodup_singleton _, ?_⟩
      intro p hp hpt
      rw [List.mem_singleton] at hpt
      subst hpt
      obtain ⟨j, _, w, hm⟩ := mem_mapped_pages.mp hp
      exact (howned.apart _ p w hm).2.2 i (by omega) htable
  · apply List.Pairwise.imp_of_mem _ List.nodup_range'
    intro i k hi hk hne p hpi hpk
    rw [List.mem_range'_1] at hi hk
    obtain ht | ⟨j, hj, w, hm⟩ := (mem_entry_pages h (by omega)).mp hpi <;>
      obtain ht' | ⟨j', hj', w', hm'⟩ := (mem_entry_pages h (by omega)).mp hpk
    · exact hne (h.distinct i (by omega) k (by omega) p ht ht')
    · exact (howned.apart _ p w' hm').2.2 i (by omega) ht
    · exact (howned.apart _ p w hm).2.2 k (by omega) ht'
    · have hsame := howned.once _ _ p w w' hm hm'
      omega

/-- The destruction hands back each user page that is mapped, each page table of the
directory and the directory, and nothing else. -/
theorem pagedir_destroy_run (h : Dir s pd m) (howned : Owned s pd m)
    (hmap : ∀ i, 786432 ≤ i → m i = none) :
    ∃ t ps, pagedir_destroy pd s = .ok ((), t) ∧ t.freed = s.freed ++ ps ∧ ps.Nodup ∧
      (∀ p, p ∈ ps ↔ p = pd ∨ (∃ i < 768, Table s pd i p) ∨ ∃ i w, m i = some (p, w)) := by
  have hmem : ∀ p, p ∈ dir_pages s pd m 0 768 ↔ (∃ i < 768, Table s pd i p) ∨ ∃ i w, m i = some (p, w) := by
    intro p
    rw [mem_dir_pages h]
    refine or_congr_right ⟨fun ⟨i, _, w, hm⟩ => ⟨i, w, hm⟩, ?_⟩
    rintro ⟨i, w, hm⟩
    by_cases hi : i < 786432
    · exact ⟨i, hi, w, hm⟩
    · rw [hmap i (by omega)] at hm
      contradiction
  have hpd : pd ∉ dir_pages s pd m 0 768 := by
    intro hin
    obtain ⟨i, hi, ht⟩ | ⟨i, w, hm⟩ := (hmem pd).mp hin
    · exact (h.apart i (by omega) pd ht).1 rfl
    · exact (howned.apart i pd w hm).1 rfl
  have hnodup := dir_pages_nodup h howned
  obtain ⟨t, hpdes, hfreed⟩ := destroy_pdes_run h 768 (i := 0) (t := s) (by omega)
    (by
      rintro p (rfl | hp)
      · exact ⟨fun _ => rfl, h.used⟩
      · refine ⟨fun _ => rfl, ?_⟩
        obtain ⟨i, hi, ht⟩ | ⟨i, w, hm⟩ := (hmem p).mp hp
        · exact h.table_used i (by omega) p ht
        · exact howned.used i p w hm)
    hnodup hpd
  obtain ⟨u, hfree, hfreed'⟩ := palloc_free_page_run (s := t) h.page.aligned ((hfreed.used pd hpd).trans h.used)
  refine ⟨u, dir_pages s pd m 0 768 ++ [pd], ?_, (hfreed.trans hfreed').freed, ?_, ?_⟩
  · rw [pagedir_destroy, Exec.bind_run Exec.get_run, Exec.bind_run (Exec.ASSERT_run h.ne_init _)]
    exact (Exec.bind_run hpdes).trans hfree
  · apply List.nodup_append'.mpr ⟨hnodup, List.nodup_singleton _, ?_⟩
    intro p hp hpd'
    rw [List.mem_singleton] at hpd'
    exact hpd (hpd' ▸ hp)
  · intro p
    rw [List.mem_append, List.mem_singleton, hmem]
    exact or_comm

end Pages

section Runs

variable {s : Vm} {pd : Word} {m : PageMap}

theorem page_no_user {va : Word} (huser : is_user_vaddr va = true) : page_no va < 786432 := by
  have hlt := is_user_vaddr_iff.mp huser
  rw [page_no]
  omega

/-- Only user pages are ever mapped. -/
theorem Reaches.user_only (h : Reaches pd s m) : ∀ i, 786432 ≤ i → m i = none := by
  induction h with
  | create => exact fun _ _ => rfl
  | @set_page s s' m ok upage kpage writable _ hunmapped hrun ih =>
    intro i hi
    have huser := page_no_user (pagedir_set_page_ok hunmapped hrun).user
    cases ok with
    | false => exact ih i hi
    | true => exact (Function.update_of_ne (by omega) _ _).trans (ih i hi)
  | clear_page upage _ hrun ih =>
    intro i hi
    have huser := page_no_user (pagedir_clear_page_ok hrun).2
    exact (Function.update_of_ne (by omega) _ _).trans (ih i hi)
  | set_dirty _ _ _ _ ih => exact ih
  | set_accessed _ _ _ _ ih => exact ih
  | others _ _ ih => exact ih

/-- After any sequence of calls: `pagedir_get_page` looks up the map, the entries hold
the writable flags that were given, and every call returns. `pagedir_set_page` changes
what its own page is mapped to and nothing else, and nothing at all where it fails.
`pagedir_destroy` hands back each user page that is mapped, each page table of the
directory and the directory itself, once each, and no page of the kernel's directory. -/
theorem pagedir_is_map (h : Reaches pd s m) :
    (∀ va, is_user_vaddr va = true → pagedir_get_page pd va s = .ok (m.get va, s)) ∧
    (∀ i kpage writable, m i = some (kpage, writable) → ∃ pt, Table s pd (i / 1024) pt ∧
      ((s.word pt (i % 1024) &&& PTE_W ≠ 0) ↔ writable = true)) ∧
    (∀ upage kpage writable, CanSet s m upage kpage → ∃ ok s',
      pagedir_set_page pd upage kpage writable s = .ok (ok, s') ∧
      (ok = false → s' = { s with asked := s.asked + 1 }) ∧
      ∀ va, is_user_vaddr va = true → pagedir_get_page pd va s' =
        .ok (if ok = true ∧ page_no va = page_no upage then some (kpage + pg_ofs va) else m.get va, s')) ∧
    (∀ upage, pg_ofs upage = 0 → is_user_vaddr upage = true →
      ∃ s', pagedir_clear_page pd upage s = .ok ((), s')) ∧
    (∀ vpage value, (∃ s', pagedir_set_dirty pd vpage value s = .ok ((), s')) ∧
      ∃ s', pagedir_set_accessed pd vpage value s = .ok ((), s')) ∧
    (Owned s pd m → ∃ s' ps, pagedir_destroy pd s = .ok ((), s') ∧ s'.freed = s.freed ++ ps ∧ ps.Nodup ∧
      (∀ p, p ∈ ps ↔ p = pd ∨ (∃ i < 768, Table s pd i p) ∨ ∃ i w, m i = some (p, w)) ∧
      s.init_page_dir ∉ ps ∧ ∀ i, 768 ≤ i → i < 1024 → ∀ pt, Table s pd i pt → pt ∉ ps) := by
  have hdir := h.dir
  refine ⟨fun va huser => pagedir_get_page_run hdir huser, ?_, ?_, ?_, ?_, ?_⟩
  · intro i kpage writable hm
    have hi : i < 786432 := by
      by_contra hge
      rw [h.user_only i (by omega)] at hm
      contradiction
    have hsplit : 1024 * (i / 1024) + i % 1024 = i := by omega
    obtain hzero | ⟨pt, ht⟩ := hdir.entry (i / 1024) (by omega)
    · have habsent := hdir.absent (i / 1024) (by omega) hzero (i % 1024) (by omega)
      rw [hsplit, hm] at habsent
      contradiction
    · have hentry := hdir.mapped (i / 1024) (by omega) pt ht (i % 1024) (by omega)
      rw [hsplit, hm] at hentry
      exact ⟨pt, ht, hentry.2.writable⟩
  · intro upage kpage writable hset
    obtain hfalse | ⟨s', htrue, hdir'⟩ := pagedir_set_page_run hdir hset writable
    · refine ⟨false, _, hfalse, fun _ => rfl, ?_⟩
      intro va huser
      have hreach := Reaches.set_page upage kpage writable h hset.unmapped hfalse
      simpa using pagedir_get_page_run hreach.dir huser
    · refine ⟨true, s', htrue, nofun, ?_⟩
      intro va huser
      rw [pagedir_get_page_run hdir' huser, PageMap.get]
      by_cases hsame : page_no va = page_no upage
      · rw [hsame, Function.update_self, if_pos ⟨rfl, rfl⟩]
        rfl
      · rw [Function.update_of_ne hsame, if_neg fun hc => hsame hc.2]
        rfl
  · intro upage hupage huser
    obtain ⟨s', hrun, -⟩ := pagedir_clear_page_run hdir hupage huser
    exact ⟨s', hrun⟩
  · intro vpage value
    obtain ⟨s', hdirty, -⟩ := pagedir_set_flag_run hdir (Or.inr rfl) vpage value
    obtain ⟨t, haccessed, -⟩ := pagedir_set_flag_run hdir (Or.inl rfl) vpage value
    exact ⟨⟨s', hdirty⟩, t, haccessed⟩
  · intro howned
    obtain ⟨t, ps, hrun, hfreed, hnodup, hmem⟩ := pagedir_destroy_run hdir howned h.user_only
    refine ⟨t, ps, hrun, hfreed, hnodup, hmem, ?_, ?_⟩
    · intro hin
      obtain hpd | ⟨i, hi, ht⟩ | ⟨i, w, hm⟩ := (hmem _).mp hin
      · exact hdir.ne_init hpd.symm
      · exact (hdir.apart i (by omega) _ ht).2 rfl
      · exact (howned.apart i _ w hm).2.1 rfl
    · intro i hlow hi pt ht hin
      obtain hpd | ⟨j, hj, ht'⟩ | ⟨j, w, hm⟩ := (hmem _).mp hin
      · exact (hdir.apart i hi pt ht).1 hpd
      · have hsame := hdir.distinct j hj i hi pt ht' ht
        omega
      · exact (howned.apart j pt w hm).2.2 i hi ht

end Runs

/-- Six pages of RAM, the last one in use. -/
def small_ram : Vm where
  word := fun _ _ => 0
  used := fun p => decide (p = page_of_frame 5)
  frame := some
  asked := 0
  freed := []
  init_page_dir := 0
  init_ram_pages := 6

/-- The page in use is mapped in a new directory, which is then destroyed. -/
theorem pagedir_is_map_small : ∃ pd s t ps,
    pagedir_get_page pd 0x08048123#32 s = .ok (some (page_of_frame 5 + 0x123#32), s) ∧
      pagedir_destroy pd s = .ok ((), t) ∧ t.freed = ps ∧ ps.Nodup ∧ page_of_frame 5 ∈ ps := by
  have hkernel := KernelRuns.boot (fun _ => false) (by decide : small_ram.init_ram_pages ≤ 16384) rfl
  have hcreate := @Reaches.create (page_of_frame 2) _ _ hkernel rfl
  have hset := @Reaches.set_page _ _ _ _ true 0x08048000#32 (page_of_frame 5) true hcreate rfl rfl
  obtain ⟨hget, -, -, -, -, hdestroy⟩ := pagedir_is_map hset
  have hmap : ∀ i kpage w, Function.update (fun _ => none) (page_no 0x08048000#32)
      (some (page_of_frame 5, true)) i = some (kpage, w) → i = page_no 0x08048000#32 ∧
      kpage = page_of_frame 5 := by
    intro i kpage w hm
    by_cases hi : i = page_no 0x08048000#32
    · subst hi
      rw [Function.update_self] at hm
      exact ⟨rfl, (Prod.mk.inj (Option.some.inj hm)).1.symm⟩
    · rw [Function.update_of_ne hi] at hm
      contradiction
  have howned := hdestroy ⟨?_, ?_, ?_⟩
  · obtain ⟨t, ps, hrun, hfreed, hnodup, hmem, -⟩ := howned
    refine ⟨_, _, t, ps, hget _ rfl, hrun, hfreed, hnodup, (hmem _).mpr ?_⟩
    exact Or.inr (Or.inr ⟨page_no 0x08048000#32, true, rfl⟩)
  · intro i kpage w hm
    rw [(hmap i kpage w hm).2]
    rfl
  · intro i j kpage w w' hm hm'
    rw [(hmap i kpage w hm).1, (hmap j kpage w' hm').1]
  · intro i kpage w hm
    rw [(hmap i kpage w hm).2]
    refine ⟨by decide, by decide, ?_⟩
    intro k hk ht
    have haddr := ht.entry.page
    clear ht
    revert k
    decide +kernel

end pintos.userprog
