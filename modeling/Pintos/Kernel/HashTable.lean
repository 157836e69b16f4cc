import Pintos.Kernel.Hash
import Pintos.Lib.StrictWeak
import Mathlib.Data.Set.Insert
import Mathlib.Data.List.Pairwise
import Mathlib.Data.List.Perm.Basic

/-!
# Hash tables are sets up to equality of keys

Every call keeps each element in the bucket of its hash and no two elements equal,
whatever the history of growing, shrinking and failed allocations.
-/

open strict_weak

namespace pintos.kernel

section Power

theorem is_power_of_2_iff {n : Nat} : is_power_of_2 n = true ↔ n.isPowerOfTwo := by
  rw [is_power_of_2, decide_eq_true_iff]
  exact Nat.ne_zero_and_sub_one_eq_zero_iff_isPowerOfTwo

/-- The loop of `rehash` ends, with a power of 2 that is at least 4. -/
theorem power_loop_run (fuel : Nat) : ∀ {n : Nat}, 4 ≤ n → n ≤ fuel →
    ∃ k, 2 ≤ k ∧ power_loop fuel n = some (2 ^ k) := by
  induction fuel with
  | zero =>
    intro n hn hfuel
    omega
  | succ fuel ih =>
    intro n hn hfuel
    rw [power_loop]
    split
    · rename_i hpower
      obtain ⟨k, rfl⟩ := is_power_of_2_iff.mp hpower
      refine ⟨k, ?_, rfl⟩
      by_contra hk
      have hle : 2 ^ k ≤ 2 ^ 1 := Nat.pow_le_pow_right (by omega) (by omega)
      omega
    · rename_i hpower
      have hnot : ¬ n.isPowerOfTwo := fun h => hpower (is_power_of_2_iff.mpr h)
      -- The highest bit stays.
      have hlog : 2 ≤ n.log2 := (Nat.le_log2 (by omega)).mpr hn
      have hhigh := Nat.ge_two_pow_of_testBit (Nat.and_sub_one_testBit_log2 (by omega) hnot)
      have hfour : 2 ^ 2 ≤ 2 ^ n.log2 := Nat.pow_le_pow_right (by omega) hlog
      have hless : turn_off_least_1bit n ≤ n - 1 := Nat.and_le_right
      apply ih
      · exact Nat.le_trans hfour hhigh
      · omega

end Power

variable {α : Type} {hash_func : α → Nat} {less : α → α → Bool}

/-- Elements with equal keys. -/
def Same (less : α → α → Bool) (a b : α) : Prop := less a b = false ∧ less b a = false

theorem Same.symm {a b : α} (h : Same less a b) : Same less b a := ⟨h.2, h.1⟩

/-- What the hooks of a table have to satisfy. -/
structure Hooks (hash_func : α → Nat) (less : α → α → Bool) : Prop where
  weak : StrictWeak less
  hash_eq : ∀ a b, Same less a b → hash_func a = hash_func b

theorem Hooks.same_self (h : Hooks hash_func less) (a : α) : Same less a a := by
  have hirrefl : less a a = false := by
    cases hself : less a a with
    | false => rfl
    | true => exact (h.weak.asymm a a hself).symm.trans hself |>.symm ▸ rfl
  exact ⟨hirrefl, hirrefl⟩

theorem Hooks.same_trans (h : Hooks hash_func less) {a b c : α} (hab : Same less a b) (hbc : Same less b c) :
    Same less a c :=
  ⟨h.weak.neg_trans c b a hbc.1 hab.1, h.weak.neg_trans a b c hab.2 hbc.2⟩

/-- The invariant of a table. -/
structure Valid (hash_func : α → Nat) (less : α → α → Bool) (h : hash α) : Prop where
  length : h.buckets.length = h.bucket_cnt
  power : ∃ k, 2 ≤ k ∧ h.bucket_cnt = 2 ^ k
  placed : ∀ (i : Nat) (bucket : List α), h.buckets[i]? = some bucket → ∀ e ∈ bucket,
    find_bucket hash_func h e = i
  elem_cnt : h.elem_cnt = h.elems.length
  distinct : h.elems.Pairwise fun a b => ¬ Same less a b

section Buckets

variable {h : hash α} {e x : α}

theorem find_bucket_lt (hpower : ∃ k, 2 ≤ k ∧ h.bucket_cnt = 2 ^ k) (e : α) :
    find_bucket hash_func h e < h.bucket_cnt := by
  obtain ⟨k, -, hk⟩ := hpower
  rw [find_bucket, hk, Nat.and_two_pow_sub_one_eq_mod]
  exact Nat.mod_lt _ (Nat.two_pow_pos k)

/-- An element is in the bucket of its hash. -/
theorem Valid.mem_bucket (hv : Valid hash_func less h) (hx : x ∈ h.elems) :
    x ∈ h.buckets.getD (find_bucket hash_func h x) [] := by
  obtain ⟨bucket, hbucket, hmem⟩ := List.mem_flatten.mp hx
  obtain ⟨i, hi⟩ := List.mem_iff_getElem?.mp hbucket
  rw [hv.placed i bucket hi x hmem, List.getD_eq_getElem?_getD, hi]
  exact hmem

theorem mem_elems_of_getD {i : Nat} (hx : x ∈ h.buckets.getD i []) : x ∈ h.elems := by
  rw [List.getD_eq_getElem?_getD] at hx
  cases hi : h.buckets[i]? with
  | none =>
    rw [hi] at hx
    contradiction
  | some bucket =>
    rw [hi] at hx
    exact List.mem_flatten.mpr ⟨bucket, List.mem_of_getElem? hi, hx⟩

theorem Valid.nodup (hooks : Hooks hash_func less) (hv : Valid hash_func less h) : h.elems.Nodup := by
  apply hv.distinct.imp
  rintro a b hne rfl
  exact hne (hooks.same_self a)

/-- Pushing an element adds it. -/
theorem push_front_perm {buckets : List (List α)} {idx : Nat} (hidx : idx < buckets.length) (e : α) :
    (push_front buckets idx e).flatten.Perm (e :: buckets.flatten) := by
  induction buckets generalizing idx with
  | nil => exact absurd hidx (Nat.not_lt_zero idx)
  | cons bucket buckets ih =>
    cases idx with
    | zero => exact List.Perm.refl _
    | succ idx =>
      have hrest := ih (Nat.lt_of_succ_lt_succ hidx)
      exact (hrest.append_left bucket).trans List.perm_middle

theorem push_front_getElem? {buckets : List (List α)} {idx i : Nat} {bucket : List α}
    (hi : (push_front buckets idx e)[i]? = some bucket) :
    ∃ old, buckets[i]? = some old ∧ ∀ x ∈ bucket, x ∈ old ∨ x = e ∧ i = idx := by
  rw [push_front, List.getElem?_modify] at hi
  obtain ⟨old, hold, rfl⟩ := Option.map_eq_some_iff.mp hi
  refine ⟨old, hold, ?_⟩
  intro x hx
  split at hx
  · rename_i hidx
    obtain rfl | hx := List.mem_cons.mp hx
    · exact Or.inr ⟨rfl, hidx.symm⟩
    · exact Or.inl hx
  · exact Or.inl hx

end Buckets

/-- What a search for `e` among some elements returns. -/
def Finds (less : α → α → Bool) (elems : Set α) (e : α) : Option α → Prop
  | some x => x ∈ elems ∧ Same less x e
  | none => ∀ x ∈ elems, ¬ Same less x e

/-- The elements of a table, as a set. -/
def hash.contents (h : hash α) : Set α := {e | e ∈ h.elems}

section Table

variable {h : hash α} {e x : α}

/-- `hash_find` returns the equal element, if there is one. -/
theorem hash_find_finds (hooks : Hooks hash_func less) (hv : Valid hash_func less h) (e : α) :
    Finds less h.contents e (hash_find hash_func less h e) := by
  cases hfind : hash_find hash_func less h e with
  | none =>
    intro x hx hsame
    have hbucket := hv.mem_bucket hx
    rw [find_bucket, hooks.hash_eq x e hsame] at hbucket
    have hnot := List.find?_eq_none.mp hfind x hbucket
    simp [hsame.1, hsame.2] at hnot
  | some x =>
    have hmem := List.mem_of_find?_eq_some hfind
    have hsame := List.find?_some hfind
    simp only [Bool.and_eq_true, Bool.not_eq_true'] at hsame
    exact ⟨mem_elems_of_getD hmem, hsame⟩

/-- An element that equals no other is inserted. -/
theorem insert_elem_valid (hv : Valid hash_func less h) (hnew : ∀ x ∈ h.elems, ¬ Same less x e) :
    Valid hash_func less (insert_elem h (find_bucket hash_func h e) e) ∧
      (insert_elem h (find_bucket hash_func h e) e).elems.Perm (e :: h.elems) := by
  have hidx : find_bucket hash_func h e < h.buckets.length := hv.length ▸ find_bucket_lt hv.power e
  have hperm := push_front_perm hidx e
  refine ⟨⟨?_, hv.power, ?_, ?_, ?_⟩, hperm⟩
  · exact (List.length_modify _ _ _).trans hv.length
  · intro i bucket hi y hy
    obtain ⟨old, hold, hmem⟩ := push_front_getElem? hi
    obtain hy | ⟨rfl, rfl⟩ := hmem y hy
    · exact hv.placed i old hold y hy
    · rfl
  · exact (congrArg (· + 1) hv.elem_cnt).trans hperm.length_eq.symm
  · apply (hperm.pairwise_iff fun hne hsame => hne hsame.symm).mpr
    exact List.pairwise_cons.mpr ⟨fun x hx hsame => hnew x hx hsame.symm, hv.distinct⟩

/-- Moving elements into the buckets of their hashes. -/
theorem move_elems (l : List α) : ∀ {t : hash α}, t.buckets.length = t.bucket_cnt →
    (∃ k, 2 ≤ k ∧ t.bucket_cnt = 2 ^ k) →
    (∀ (i : Nat) (bucket : List α), t.buckets[i]? = some bucket → ∀ e ∈ bucket, find_bucket hash_func t e = i) →
    ∃ buckets', l.foldl (fun t e => { t with buckets := push_front t.buckets (find_bucket hash_func t e) e }) t =
        { t with buckets := buckets' } ∧ buckets'.length = t.bucket_cnt ∧
      (∀ (i : Nat) (bucket : List α), buckets'[i]? = some bucket → ∀ e ∈ bucket,
      find_bucket hash_func t e = i) ∧
      buckets'.flatten.Perm (l ++ t.elems) := by
  induction l with
  | nil =>
    intro t hlength _ hplaced
    exact ⟨t.buckets, rfl, hlength, hplaced, List.Perm.refl _⟩
  | cons e l ih =>
    intro t hlength hpower hplaced
    have hidx : find_bucket hash_func t e < t.buckets.length := hlength ▸ find_bucket_lt hpower e
    obtain ⟨buckets', hrun, hlength', hplaced', hperm⟩ := ih
      (t := { t with buckets := push_front t.buckets (find_bucket hash_func t e) e })
      ((List.length_modify _ _ _).trans hlength) hpower (by
        intro i bucket hi y hy
        obtain ⟨old, hold, hmem⟩ := push_front_getElem? hi
        obtain hy | ⟨rfl, rfl⟩ := hmem y hy
        · exact hplaced i old hold y hy
        · rfl)
    refine ⟨buckets', hrun, hlength', hplaced', hperm.trans ?_⟩
    exact ((push_front_perm hidx e).append_left l).trans List.perm_middle

/-- `rehash` ends and keeps the elements, whether there is memory or not. -/
theorem rehash_run (hv : Valid hash_func less h) (memory : Bool) :
    ∃ h', rehash hash_func memory h = some h' ∧ Valid hash_func less h' ∧ h'.elems.Perm h.elems := by
  have hfour : 4 ≤ ideal_bucket_cnt h.elem_cnt := by
    rw [ideal_bucket_cnt]
    split <;> omega
  obtain ⟨k, hk, hpower⟩ := power_loop_run _ hfour (Nat.le_refl _)
  have hsame : ∃ h', some h = some h' ∧ Valid hash_func less h' ∧ h'.elems.Perm h.elems :=
    ⟨h, rfl, hv, List.Perm.refl _⟩
  simp only [rehash, hpower, Option.bind_eq_bind, Option.bind_some]
  split_ifs
  · exact hsame
  · obtain ⟨buckets', hrun, hlength, hplaced, hperm⟩ := @move_elems _ hash_func h.elems
      { h with bucket_cnt := 2 ^ k, buckets := List.replicate (2 ^ k) [] } (by simp) ⟨k, hk, rfl⟩ (by
        intro i bucket hi y hy
        rw [List.getElem?_replicate] at hi
        split_ifs at hi
        rw [← Option.some.inj hi] at hy
        contradiction)
    have hperm' : buckets'.flatten.Perm h.elems := by
      simpa [hash.elems] using hperm
    refine ⟨_, congrArg some hrun, ⟨hlength, ⟨k, hk, rfl⟩, hplaced, ?_, ?_⟩, hperm'⟩
    · exact hv.elem_cnt.trans hperm'.length_eq.symm
    · exact (hperm'.pairwise_iff fun hne hsame => hne hsame.symm).mpr hv.distinct
  · exact hsame

theorem contents_perm {h h' : hash α} (hperm : h'.elems.Perm h.elems) : h'.contents = h.contents := by
  ext x
  exact hperm.mem_iff

theorem hash_init_valid {memory : Bool} {garbage : List α} (hinit : hash_init memory garbage = some h) :
    Valid hash_func less h := by
  rw [hash_init] at hinit
  split_ifs at hinit
  rw [← Option.some.inj hinit]
  refine ⟨by simp [hash_clear], ⟨2, Nat.le_refl 2, rfl⟩, ?_, by simp [hash_clear, hash.elems],
    by simp [hash_clear, hash.elems]⟩
  intro i bucket hi e he
  rw [hash_clear, List.getElem?_map] at hi
  obtain ⟨old, -, rfl⟩ := Option.map_eq_some_iff.mp hi
  contradiction

variable [DecidableEq α]

/-- An element is removed from the bucket that it is in. -/
theorem remove_elem_elems (hooks : Hooks hash_func less) (hv : Valid hash_func less h) (e : α) :
    (remove_elem h e).elems = h.elems.filter (· != e) := by
  have hnodup := hv.nodup hooks
  have hbuckets : h.buckets.map (fun bucket => bucket.erase e) = h.buckets.map (List.filter (· != e)) := by
    apply List.map_congr_left
    intro bucket hbucket
    exact (hnodup.sublist (List.sublist_flatten_of_mem hbucket)).erase_eq_filter e
  rw [hash.elems, remove_elem, hbuckets, hash.elems, List.filter_flatten]

/-- An element of the table is removed. -/
theorem remove_elem_valid (hooks : Hooks hash_func less) (hv : Valid hash_func less h) (he : e ∈ h.elems) :
    Valid hash_func less (remove_elem h e) := by
  have helems := remove_elem_elems hooks hv e
  refine ⟨?_, hv.power, ?_, ?_, ?_⟩
  · exact List.length_map _ |>.trans hv.length
  · intro i bucket hi y hy
    rw [remove_elem, List.getElem?_map] at hi
    obtain ⟨old, hold, rfl⟩ := Option.map_eq_some_iff.mp hi
    exact hv.placed i old hold y (List.mem_of_mem_erase hy)
  · have hlength := List.length_erase_of_mem he
    rw [(hv.nodup hooks).erase_eq_filter] at hlength
    have hcnt : (remove_elem h e).elem_cnt = h.elems.length - 1 := congrArg (· - 1) hv.elem_cnt
    rw [hcnt, helems, hlength]
  · rw [helems]
    exact hv.distinct.filter _

/-- What a call does to a set of elements, and what it returns. -/
def Call.Meets (less : α → α → Bool) (elems elems' : Set α) (result : Option α) : Call α → Prop
  | .insert _ new => Finds less elems new result ∧ elems' = if result = none then {new} ∪ elems else elems
  | .replace _ new => Finds less elems new result ∧ elems' = {new} ∪ {x ∈ elems | result ≠ some x}
  | .delete _ e => Finds less elems e result ∧ elems' = {x ∈ elems | result ≠ some x}
  | .find e => Finds less elems e result ∧ elems' = elems
  | .clear => result = none ∧ elems' = ∅

/-- Every call ends, and does to the table what it does to the set of its elements. -/
theorem exec_meets (hooks : Hooks hash_func less) (hv : Valid hash_func less h) (call : Call α) :
    ∃ h' result, call.exec hash_func less h = some (h', result) ∧ Valid hash_func less h' ∧
      call.Meets less h.contents h'.contents result := by
  -- An insertion, and what `rehash` makes of it.
  have hinsert : ∀ {t : hash α} (memory : Bool) (new : α), Valid hash_func less t →
      t.bucket_cnt = h.bucket_cnt → (∀ x ∈ t.elems, ¬ Same less x new) →
      ∃ h', rehash hash_func memory (insert_elem t (find_bucket hash_func h new) new) = some h' ∧
        Valid hash_func less h' ∧ h'.contents = {new} ∪ t.contents := by
    intro t memory new ht hcnt hnew
    have hbucket : find_bucket hash_func h new = find_bucket hash_func t new :=
        by rw [find_bucket, find_bucket, hcnt]
    obtain ⟨hvalid, hperm⟩ := insert_elem_valid ht hnew
    obtain ⟨h', hrun, hvalid', hperm'⟩ := rehash_run hvalid memory
    refine ⟨h', hbucket ▸ hrun, hvalid', ?_⟩
    ext x
    exact (hperm'.trans hperm).mem_iff.trans List.mem_cons
  have hremoved : ∀ old, (remove_elem h old).contents = {x ∈ h.contents | some old ≠ some x} := by
    intro old
    ext x
    change x ∈ (remove_elem h old).elems ↔ x ∈ h.elems ∧ some old ≠ some x
    rw [remove_elem_elems hooks hv, List.mem_filter, bne_iff_ne, ne_eq, ne_eq, Option.some_inj, eq_comm]
  have hfinds := hash_find_finds hooks hv
  cases call with
  | insert memory new =>
    have hnew := hfinds new
    simp only [hash_find] at hnew
    cases hfind : find_elem less (h.buckets.getD (find_bucket hash_func h new) []) new with
    | none =>
      rw [hfind] at hnew
      obtain ⟨h', hrun, hvalid, hcontents⟩ := hinsert memory new hv rfl hnew
      exact ⟨h', none, by simp only [Call.exec, hash_insert, hfind, hrun, Option.bind_eq_bind, Option.bind_some, Option.pure_def], hvalid, hnew, by simpa using hcontents⟩
    | some old =>
      rw [hfind] at hnew
      obtain ⟨h', hrun, hvalid, hperm⟩ := rehash_run hv memory
      exact ⟨h', some old, by simp only [Call.exec, hash_insert, hfind, hrun, Option.bind_eq_bind, Option.bind_some, Option.pure_def], hvalid, hnew,
        by simpa using contents_perm hperm⟩
  | replace memory new =>
    have hnew := hfinds new
    simp only [hash_find] at hnew
    cases hfind : find_elem less (h.buckets.getD (find_bucket hash_func h new) []) new with
    | none =>
      rw [hfind] at hnew
      obtain ⟨h', hrun, hvalid, hcontents⟩ := hinsert memory new hv rfl hnew
      exact ⟨h', none, by simp only [Call.exec, hash_replace, hfind, hrun, Option.bind_eq_bind, Option.bind_some, Option.pure_def], hvalid, hnew, by simpa using hcontents⟩
    | some old =>
      rw [hfind] at hnew
      obtain ⟨hold, hsame⟩ := hnew
      have hothers : ∀ x ∈ (remove_elem h old).elems, ¬ Same less x new := by
        intro x hx hxnew
        rw [remove_elem_elems hooks hv, List.mem_filter] at hx
        have hne : x ≠ old := by simpa using hx.2
        have : Std.Symm fun a b => ¬ Same less a b := ⟨fun _ _ hne hs => hne hs.symm⟩
        exact hv.distinct.forall hx.1 hold hne
          (hooks.same_trans hxnew hsame.symm)
      obtain ⟨h', hrun, hvalid, hcontents⟩ := hinsert memory new (remove_elem_valid hooks hv hold) rfl hothers
      exact ⟨h', some old, by simp only [Call.exec, hash_replace, hfind, hrun, Option.bind_eq_bind, Option.bind_some, Option.pure_def], hvalid, ⟨hold, hsame⟩,
        hcontents.trans (by rw [hremoved])⟩
  | delete memory e =>
    cases hfind : hash_find hash_func less h e with
    | none =>
      have hnone := hfinds e
      rw [hfind] at hnone
      exact ⟨h, none, by simp [Call.exec, hash_delete, hfind], hv, hnone, by simp⟩
    | some found =>
      have hfound := hfinds e
      rw [hfind] at hfound
      obtain ⟨h', hrun, hvalid, hperm⟩ := rehash_run (remove_elem_valid hooks hv hfound.1) memory
      exact ⟨h', some found, by simp only [Call.exec, hash_delete, hfind, hrun, Option.bind_eq_bind, Option.bind_some, Option.pure_def], hvalid, hfound,
        (contents_perm hperm).trans (hremoved found)⟩
  | find e => exact ⟨h, _, rfl, hv, hfinds e, rfl⟩
  | clear =>
    refine ⟨_, none, rfl, ⟨?_, hv.power, ?_, ?_, ?_⟩, rfl, ?_⟩
    · exact (List.length_map _).trans hv.length
    · intro i bucket hi y hy
      rw [hash_clear, List.getElem?_map] at hi
      obtain ⟨old, -, rfl⟩ := Option.map_eq_some_iff.mp hi
      contradiction
    · simp [hash_clear, hash.elems]
    · simp [hash_clear, hash.elems]
    · ext x
      simp [hash_clear, hash.contents, hash.elems]

/-- The tables that calls make from `hash_init`. -/
inductive hash.Reachable (hash_func : α → Nat) (less : α → α → Bool) : hash α → Prop where
  | init {memory : Bool} {garbage : List α} {h : hash α} :
      hash_init memory garbage = some h → hash.Reachable hash_func less h
  | call {h h' : hash α} {call : Call α} {result : Option α} : hash.Reachable hash_func less h →
      call.exec hash_func less h = some (h', result) → hash.Reachable hash_func less h'

theorem hash.Reachable.valid (hooks : Hooks hash_func less) (hreach : hash.Reachable hash_func less h) :
    Valid hash_func less h := by
  induction hreach with
  | init hinit => exact hash_init_valid hinit
  | @call h h' call result _ hrun ih =>
    obtain ⟨t, result', hrun', hvalid, -⟩ := exec_meets hooks ih call
    rw [hrun] at hrun'
    obtain ⟨rfl, -⟩ := Prod.mk.inj (Option.some.inj hrun')
    exact hvalid

/-- Whatever calls a table has been through, and whatever memory they found, every
call returns and changes what it should of the set of elements. -/
theorem hash_is_set (hooks : Hooks hash_func less) (hreach : hash.Reachable hash_func less h) :
    Valid hash_func less h ∧
      (∀ call : Call α, ∃ h' result, call.exec hash_func less h = some (h', result) ∧
        call.Meets less h.contents h'.contents result) ∧
      ∀ memory, ∃ h', rehash hash_func memory h = some h' ∧ h'.elems.Perm h.elems := by
  have hvalid := hreach.valid hooks
  refine ⟨hvalid, ?_, ?_⟩
  · intro call
    obtain ⟨h', result, hrun, -, hmeets⟩ := exec_meets hooks hvalid call
    exact ⟨h', result, hrun, hmeets⟩
  · intro memory
    obtain ⟨h', hrun, -, hperm⟩ := rehash_run hvalid memory
    exact ⟨h', hrun, hperm⟩

end Table

/-- A table of numbers that are their own hashes. -/
theorem hash_is_set_numbers :
    ∃ h : hash Nat, (hash_insert id (fun a b => decide (a < b)) true ⟨0, 4, [[], [], [], []]⟩ 5) =
      some (h, none) ∧
      Valid id (fun a b => decide (a < b)) h := by
  have hooks : Hooks id (fun a b : Nat => decide (a < b)) := by
    refine ⟨@StrictWeak.of_key _ _ _ _ id (by simp), ?_⟩
    intro a b hsame
    have hab := of_decide_eq_false hsame.1
    have hba := of_decide_eq_false hsame.2
    exact Nat.le_antisymm (Nat.le_of_not_lt hba) (Nat.le_of_not_lt hab)
  have hinit : hash.Reachable id (fun a b : Nat => decide (a < b)) ⟨0, 4, [[], [], [], []]⟩ :=
    @hash.Reachable.init _ _ _ _ true [] _ rfl
  have hrun : (Call.insert true 5).exec id (fun a b : Nat => decide (a < b)) ⟨0, 4, [[], [], [], []]⟩ =
      some (⟨1, 4, [[], [5], [], []]⟩, none) := by decide
  exact ⟨_, hrun, (hash_is_set hooks (.call hinit hrun)).1⟩

end pintos.kernel
