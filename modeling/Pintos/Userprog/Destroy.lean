import Pintos.Userprog.KernelDir
import Mathlib.Data.List.Nodup

/-!
# Destroying a page directory

`pagedir_destroy` hands back the pages of a directory one by one, reading the
directory and its page tables on the way. A page that is handed back is cleared, so
none may be read, or handed back, again.
-/

open state_error

namespace pintos.userprog

/-- The pages `ps` have been handed back, in this order, and nothing else has changed. -/
structure Freed (s t : Vm) (ps : List Word) : Prop where
  freed : t.freed = s.freed ++ ps
  word : ∀ p ∉ ps, ∀ i, t.word p i = s.word p i
  used : ∀ p ∉ ps, t.used p = s.used p

/-- The page table that entry `i` of the directory leads to. -/
def table (s : Vm) (pd : Word) (i : Nat) : Option Word :=
  if s.word pd i = 0 then none else some ((s.word pd i &&& PTE_ADDR) + PHYS_BASE)

/-- The user pages that a page table maps, from entry `j` on, in order. -/
def mapped_pages (m : PageMap) (i j n : Nat) : List Word :=
  (List.range' j n).filterMap fun j => (m (1024 * i + j)).map Prod.fst

/-- What the outer loop hands back for entry `i`: the user pages of the page table,
and then the table. -/
def entry_pages (s : Vm) (pd : Word) (m : PageMap) (i : Nat) : List Word :=
  match table s pd i with
  | none => []
  | some pt => mapped_pages m i 0 1024 ++ [pt]

section Freed

variable {s t u : Vm} {ps qs : List Word}

theorem Freed.refl (s : Vm) : Freed s s [] := ⟨(List.append_nil _).symm, fun _ _ _ => rfl, fun _ _ => rfl⟩

theorem Freed.trans (h : Freed s t ps) (h' : Freed t u qs) : Freed s u (ps ++ qs) := by
  refine ⟨?_, ?_, ?_⟩
  · rw [h'.freed, h.freed, List.append_assoc]
  · intro p hp i
    rw [List.mem_append, not_or] at hp
    rw [h'.word p hp.2, h.word p hp.1]
  · intro p hp
    rw [List.mem_append, not_or] at hp
    rw [h'.used p hp.2, h.used p hp.1]

/-- A page in use is handed back. -/
theorem palloc_free_page_run {page : Word} (haligned : pg_ofs page = 0) (hused : s.used page = true) :
    ∃ t, palloc_free_page page s = .ok ((), t) ∧ Freed s t [page] := by
  have hfill : (s.fill page 0xcccccccc#32).used page = true := hused
  refine ⟨{ s.fill page 0xcccccccc#32 with
    used := fun p => if p = page then false else s.used p
    freed := s.freed ++ [page] }, ?_, rfl, ?_, ?_⟩
  · rw [palloc_free_page, Exec.bind_run (Exec.ASSERT_run haligned _), Exec.bind_run (Exec.modify_run _),
      Exec.bind_run Exec.get_run, Exec.bind_run (Exec.ASSERT_run hfill _)]
    rfl
  · intro p hp i
    exact if_neg (by simpa using hp)
  · intro p hp
    exact if_neg (by simpa using hp)

theorem Table.table_eq {pd pt : Word} {i : Nat} (h : Table s pd i pt) : table s pd i = some pt := by
  rw [table, if_neg h.ne_zero, h.entry.page, BitVec.sub_add_cancel]

end Freed

/-- The inner loop hands back the pages of the entries that are present. -/
theorem destroy_ptes_run {pt : Word} {m : PageMap} {i : Nat} (n : Nat) :
    ∀ {j : Nat} {s : Vm}, (∀ k, j ≤ k → k < j + n → EntryFor (s.word pt k) (m (1024 * i + k))) →
      (∀ p ∈ mapped_pages m i j n, s.used p = true ∧ p ≠ pt) → (mapped_pages m i j n).Nodup →
      ∃ t, destroy_ptes pt n j s = .ok ((), t) ∧ Freed s t (mapped_pages m i j n) := by
  induction n with
  | zero =>
    intro j s _ _ _
    exact ⟨s, rfl, Freed.refl s⟩
  | succ n ih =>
    intro j s hentry hused hnodup
    have hfirst := hentry j (by omega) (by omega)
    rw [destroy_ptes, Exec.bind_run (load_run _ _)]
    cases hm : m (1024 * i + j) with
    | none =>
      rw [hm] at hfirst
      have hclear : s.word pt j &&& PTE_P = 0 := hfirst
      have hpages : mapped_pages m i j (n + 1) = mapped_pages m i (j + 1) n := by
        simp [mapped_pages, List.range'_succ, hm]
      rw [hpages] at hused hnodup ⊢
      rw [if_neg (not_not.mpr hclear)]
      exact ih (fun k hlow hk => hentry k (by omega) (by omega)) hused hnodup
    | some v =>
      rw [hm] at hfirst
      obtain ⟨hkpage, hmaps⟩ := hfirst
      have hpages : mapped_pages m i j (n + 1) = v.1 :: mapped_pages m i (j + 1) n := by
        simp [mapped_pages, List.range'_succ, hm]
      rw [hpages] at hused hnodup ⊢
      obtain ⟨hpage, hne⟩ := hused v.1 (by simp)
      obtain ⟨hnotin, hnodup⟩ := List.nodup_cons.mp hnodup
      obtain ⟨t, hfree, hfreed⟩ := palloc_free_page_run hkpage.aligned hpage
      have hkeep : ∀ p, p ≠ v.1 → p ∉ [v.1] := fun p hp => by simpa using hp
      obtain ⟨u, hrest, hfreed'⟩ := ih (j := j + 1) (s := t)
        (by
          intro k hlow hk
          rw [hfreed.word pt (hkeep pt hne.symm)]
          exact hentry k (by omega) (by omega))
        (by
          intro p hp
          obtain ⟨hp', hpne⟩ := hused p (by simp [hp])
          refine ⟨?_, hpne⟩
          rw [hfreed.used p (hkeep p (by rintro rfl; exact hnotin hp))]
          exact hp')
        hnodup
      refine ⟨u, ?_, hfreed.trans hfreed'⟩
      rw [if_pos hmaps.present, Exec.bind_run (pte_get_page_run hkpage hmaps.page), Exec.bind_run hfree]
      exact hrest

/-- What is handed back for entries `i` and on, `n` of them. -/
def dir_pages (s : Vm) (pd : Word) (m : PageMap) (i n : Nat) : List Word :=
  (List.range' i n).flatMap (entry_pages s pd m)

/-- The outer loop hands back the pages of the page tables, and the tables. `s` is
the state in which the destruction began. -/
theorem destroy_pdes_run {s : Vm} {pd : Word} {m : PageMap} (h : Dir s pd m) (n : Nat) :
    ∀ {i : Nat} {t : Vm}, i + n ≤ 768 →
      (∀ p, p = pd ∨ p ∈ dir_pages s pd m i n → (∀ k, t.word p k = s.word p k) ∧ t.used p = true) →
      (dir_pages s pd m i n).Nodup → pd ∉ dir_pages s pd m i n →
      ∃ u, destroy_pdes pd n i t = .ok ((), u) ∧ Freed t u (dir_pages s pd m i n) := by
  induction n with
  | zero =>
    intro i t _ _ _ _
    exact ⟨t, rfl, Freed.refl t⟩
  | succ n ih =>
    intro i t hfit hsame hnodup hpd
    have hpages : dir_pages s pd m i (n + 1) = entry_pages s pd m i ++ dir_pages s pd m (i + 1) n := by
      simp [dir_pages, List.range'_succ]
    rw [hpages] at hsame hnodup hpd ⊢
    obtain ⟨hfirst, hrest, hdisjoint⟩ := List.nodup_append'.mp hnodup
    rw [List.mem_append, not_or] at hpd
    -- What remains to be handed back is as it was before this entry's pages went.
    have hnext : ∀ {t' : Vm}, Freed t t' (entry_pages s pd m i) →
        ∃ u, destroy_pdes pd n (i + 1) t' = .ok ((), u) ∧ Freed t' u (dir_pages s pd m (i + 1) n) := by
      intro t' hfreed
      apply ih (by omega) _ hrest hpd.2
      intro p hp
      have hnotin : p ∉ entry_pages s pd m i := by
        obtain rfl | hp := hp
        · exact hpd.1
        · exact fun hin => hdisjoint hin hp
      obtain ⟨hword, hused⟩ := hsame p (by simpa [or_assoc] using hp.imp_right fun hp => Or.inr hp)
      refine ⟨?_, ?_⟩
      · intro k
        rw [hfreed.word p hnotin, hword]
      · rw [hfreed.used p hnotin, hused]
    have hpdword : t.word pd i = s.word pd i := (hsame pd (Or.inl rfl)).1 i
    rw [destroy_pdes, Exec.bind_run (load_run _ _), hpdword]
    obtain hzero | ⟨pt, ht⟩ := h.entry i (by omega)
    · have hnone : entry_pages s pd m i = [] := by
        rw [entry_pages, table, if_pos hzero]
      obtain ⟨u, hrun, hfreed⟩ := hnext (hnone ▸ Freed.refl t)
      rw [hnone]
      refine ⟨u, ?_, hfreed⟩
      rw [hzero, if_neg (by decide)]
      exact hrun
    · have hsome : entry_pages s pd m i = mapped_pages m i 0 1024 ++ [pt] := by
        rw [entry_pages, ht.table_eq]
      rw [hsome] at hsame hfirst hnext ⊢
      obtain ⟨hpagesNodup, -, hpt⟩ := List.nodup_append'.mp hfirst
      have hptsame := hsame pt (by simp)
      obtain ⟨t₁, hptes, hfreed₁⟩ := @destroy_ptes_run pt m i 1024 0 t
        (by
          intro k _ hk
          rw [hptsame.1]
          exact h.mapped i (by omega) pt ht k (by omega))
        (by
          intro p hp
          refine ⟨(hsame p (by simp [hp])).2, ?_⟩
          rintro rfl
          exact hpt hp (by simp))
        hpagesNodup
      have hnotin : pt ∉ mapped_pages m i 0 1024 := fun hp => hpt hp (by simp)
      obtain ⟨t₂, hfree, hfreed₂⟩ := palloc_free_page_run (s := t₁) ht.page.aligned
        ((hfreed₁.used pt hnotin).trans hptsame.2)
      obtain ⟨u, hrun, hfreed⟩ := hnext (hfreed₁.trans hfreed₂)
      refine ⟨u, ?_, (hfreed₁.trans hfreed₂).trans hfreed⟩
      rw [if_pos ht.entry.present, Exec.bind_run (pde_get_pt_run ht.page ht.entry), Exec.bind_run hptes,
        Exec.bind_run hfree]
      exact hrun

end pintos.userprog
