import Pintos.Kernel.HashTable
import Mathlib.Data.List.Induction

/-!
# Hash tables of the list library (`hash.c`, `main.c`)

The table functions are those of the kernel library. Elements hold a number, which
`hash_apply` changes in place. The commands allocate an element each.
-/

open pintos.kernel strict_weak

namespace pintos.prj0_2

/-- `hash_item`: which allocation it is, and its number. -/
structure hash_item where
  allocation : Nat
  data : BitVec 32
  deriving DecidableEq, Repr

def FNV_32_PRIME : BitVec 32 := 16777619#32
def FNV_32_BASIS : BitVec 32 := 2166136261#32

/-- `hash_bytes`. -/
def hash_bytes (buf : List (BitVec 8)) : BitVec 32 :=
  buf.foldl (fun hash byte => hash * FNV_32_PRIME ^^^ byte.setWidth 32) FNV_32_BASIS

/-- `hash_int`. -/
def hash_int (i : BitVec 32) : BitVec 32 :=
  hash_bytes [i.extractLsb' 0 8, i.extractLsb' 8 8, i.extractLsb' 16 8, i.extractLsb' 24 8]

/-- `hash_func`. -/
def hash_func (e : hash_item) : Nat := (hash_int e.data).toNat

/-- `hash_less`. -/
def hash_less (a b : hash_item) : Bool := a.data.slt b.data

/-- `hash_square`. -/
def hash_square (e : hash_item) : hash_item := { e with data := e.data * e.data }

/-- `hash_triple`. -/
def hash_triple (e : hash_item) : hash_item := { e with data := e.data * e.data * e.data }

/-- The options of `hash_apply_command`. -/
inductive Action where
  | square
  | triple
  deriving DecidableEq, Repr

def Action.run : Action → hash_item → hash_item
  | .square => hash_square
  | .triple => hash_triple

/-- A table, and the number of elements allocated so far. -/
structure Session where
  table : hash hash_item
  allocations : Nat
  deriving DecidableEq, Repr

/-- The element that a command allocates. -/
def Session.item (s : Session) (data : BitVec 32) : hash_item := ⟨s.allocations, data⟩

/-- The commands on a table that change it. Where they call `rehash`, `memory` says
whether memory is there. -/
inductive Command where
  | hash_insert (memory : Bool) (data : BitVec 32)
  | hash_delete (memory : Bool) (data : BitVec 32)
  | hash_replace (memory : Bool) (data : BitVec 32)
  | hash_clear
  | hash_apply (option : Action)
  deriving DecidableEq, Repr

/-- The command functions of `main.c`. -/
def Command.exec (s : Session) : Command → Option Session
  | hash_insert memory data => do
    let (table, _) ← kernel.hash_insert hash_func hash_less memory s.table (s.item data)
    return ⟨table, s.allocations + 1⟩
  | hash_delete memory data => do
    let (table, _) ← kernel.hash_delete hash_func hash_less memory s.table (s.item data)
    return ⟨table, s.allocations + 1⟩
  | hash_replace memory data => do
    let (table, _) ← kernel.hash_replace hash_func hash_less memory s.table (s.item data)
    return ⟨table, s.allocations + 1⟩
  | hash_clear => some { s with table := (kernel.hash_clear s.table).1 }
  | hash_apply option => some { s with table := kernel.hash_apply option.run s.table }

/-- `hash_find_command`: the element that is found. -/
def hash_find_command (s : Session) (data : BitVec 32) : Option hash_item :=
  hash_find hash_func hash_less s.table (s.item data)

/-- A sequence of commands. -/
def Session.run (s : Session) (commands : List Command) : Option Session := commands.foldlM Command.exec s

/-- What users of a table rely on. -/
structure Searchable (s : Session) : Prop where
  found : ∀ data item, hash_find_command s data = some item → item ∈ s.table.elems ∧ item.data = data
  missing : ∀ data, hash_find_command s data = none → ∀ item ∈ s.table.elems, item.data ≠ data
  distinct : s.table.elems.Pairwise fun a b => a.data ≠ b.data
  deleted : ∀ memory data, ∃ s', (Command.hash_delete memory data).exec s = some s' ∧
    ∀ item ∈ s'.table.elems, item.data ≠ data

/-- An action on the elements of a table that keeps different numbers different, and
every number in the bucket of its hash. -/
structure Keeps (h : hash hash_item) (action : hash_item → hash_item) : Prop where
  injective : ∀ a ∈ h.elems, ∀ b ∈ h.elems, (action a).data = (action b).data → a.data = b.data
  bucket : ∀ a ∈ h.elems, find_bucket hash_func h (action a) = find_bucket hash_func h a

/-- The command is not an application of an action that moves or merges numbers. -/
def Command.Safe (s : Session) : Command → Prop
  | hash_apply option => Keeps s.table option.run
  | _ => True

theorem same_iff {a b : hash_item} : Same hash_less a b ↔ a.data = b.data := by
  simp only [Same, hash_less, BitVec.slt, decide_eq_false_iff_not, not_lt]
  constructor
  · intro hsame
    exact BitVec.toInt_inj.mp (Int.le_antisymm hsame.2 hsame.1)
  · intro hdata
    rw [hdata]
    exact ⟨Int.le_refl _, Int.le_refl _⟩

theorem find_bucket_data {h : hash hash_item} {a b : hash_item} (hdata : a.data = b.data) :
    find_bucket hash_func h a = find_bucket hash_func h b := by
  rw [find_bucket, find_bucket, hash_func, hash_func, hdata]

theorem hooks : Hooks hash_func hash_less := by
  refine ⟨@StrictWeak.of_key _ _ _ _ (fun e : hash_item => e.data.toInt) ?_, ?_⟩
  · intro a b
    exact decide_eq_true_iff
  · intro a b hsame
    rw [hash_func, hash_func, same_iff.mp hsame]

/-- A valid table is searchable. -/
theorem searchable_of_valid {s : Session} (hv : Valid hash_func hash_less s.table) : Searchable s := by
  have hfinds := fun data => hash_find_finds hooks hv (s.item data)
  refine ⟨?_, ?_, ?_, ?_⟩
  · intro data item hfind
    have hfound := hfinds data
    rw [show hash_find hash_func hash_less s.table (s.item data) = some item from hfind] at hfound
    exact ⟨hfound.1, same_iff.mp hfound.2⟩
  · intro data hfind item hitem
    have hnone := hfinds data
    rw [show hash_find hash_func hash_less s.table (s.item data) = none from hfind] at hnone
    exact fun hdata => hnone item hitem (same_iff.mpr hdata)
  · exact hv.distinct.imp fun hne hdata => hne (same_iff.mpr hdata)
  · intro memory data
    obtain ⟨h', result, hrun, -, hfound, hcontents⟩ := exec_meets hooks hv (.delete memory (s.item data))
    refine ⟨⟨h', s.allocations + 1⟩, ?_, ?_⟩
    · rw [Command.exec, show kernel.hash_delete hash_func hash_less memory s.table (s.item data) = _ from hrun]
      rfl
    · intro item hitem hdata
      have hmem : item ∈ h'.contents := hitem
      rw [hcontents] at hmem
      cases result with
      | none => exact hfound item hmem.1 (same_iff.mpr hdata)
      | some found =>
        have hne : found ≠ item := fun heq => hmem.2 (congrArg some heq)
        have : Std.Symm fun a b => ¬ Same hash_less a b := ⟨fun _ _ hne hs => hne hs.symm⟩
        exact hv.distinct.forall hfound.1 hmem.1 hne (same_iff.mpr ((same_iff.mp hfound.2).trans hdata.symm))

section Apply

variable {h : hash hash_item} {action : hash_item → hash_item}

theorem hash_apply_elems : (hash_apply action h).elems = h.elems.map action := by
  rw [hash.elems, hash_apply, hash.elems, List.map_flatten]

/-- A safe action keeps a table valid. -/
theorem hash_apply_valid (hv : Valid hash_func hash_less h) (hkeeps : Keeps h action) :
    Valid hash_func hash_less (hash_apply action h) := by
  refine ⟨?_, hv.power, ?_, ?_, ?_⟩
  · exact (List.length_map _).trans hv.length
  · intro i bucket hi e he
    rw [hash_apply, List.getElem?_map] at hi
    obtain ⟨old, hold, rfl⟩ := Option.map_eq_some_iff.mp hi
    obtain ⟨a, ha, rfl⟩ := List.mem_map.mp he
    have hmem : a ∈ h.elems := List.mem_flatten.mpr ⟨old, List.mem_of_getElem? hold, ha⟩
    exact (hkeeps.bucket a hmem).trans (hv.placed i old hold a ha)
  · rw [hash_apply_elems, List.length_map]
    exact hv.elem_cnt
  · rw [hash_apply_elems, List.pairwise_map]
    apply List.Pairwise.imp_of_mem _ hv.distinct
    intro a b ha hb hne hsame
    exact hne (same_iff.mpr (hkeeps.injective a ha b hb (same_iff.mp hsame)))

/-- Only a safe action leaves a valid table searchable. -/
theorem keeps_of_searchable {s : Session} (hv : Valid hash_func hash_less s.table)
    (hsearch : Searchable { s with table := hash_apply action s.table }) : Keeps s.table action := by
  have hinjective : ∀ a ∈ s.table.elems, ∀ b ∈ s.table.elems, (action a).data = (action b).data →
      a.data = b.data := by
    intro a ha b hb hdata
    by_contra hne
    have hdistinct := hsearch.distinct
    rw [hash_apply_elems, List.pairwise_map] at hdistinct
    have : Std.Symm fun a b => (action a).data ≠ (action b).data := ⟨fun _ _ hne => hne.symm⟩
    exact hdistinct.forall ha hb (fun heq => hne (congrArg _ heq)) hdata
  refine ⟨hinjective, ?_⟩
  intro a ha
  have hmem : action a ∈ (hash_apply action s.table).elems := hash_apply_elems ▸ List.mem_map_of_mem ha
  -- The element found for the new number of `a` has not left its bucket, and it is `a`.
  cases hfind : hash_find_command { s with table := hash_apply action s.table } (action a).data with
  | none => exact absurd rfl (hsearch.missing _ hfind _ hmem)
  | some item =>
    obtain ⟨-, hdata⟩ := hsearch.found _ _ hfind
    have hbucket := List.mem_of_find?_eq_some hfind
    rw [List.getD_eq_getElem?_getD] at hbucket
    cases hi : (hash_apply action s.table).buckets[find_bucket hash_func s.table (action a)]? with
    | none =>
      change item ∈ ((hash_apply action s.table).buckets[find_bucket hash_func s.table
        (action a)]?).getD [] at hbucket
      rw [hi] at hbucket
      contradiction
    | some bucket =>
      change item ∈ ((hash_apply action s.table).buckets[find_bucket hash_func s.table
        (action a)]?).getD [] at hbucket
      rw [hi] at hbucket
      rw [hash_apply, List.getElem?_map] at hi
      obtain ⟨old, hold, rfl⟩ := Option.map_eq_some_iff.mp hi
      obtain ⟨b, hb, rfl⟩ := List.mem_map.mp hbucket
      have hmemb : b ∈ s.table.elems := List.mem_flatten.mpr ⟨old, List.mem_of_getElem? hold, hb⟩
      rw [← hv.placed _ old hold b hb]
      exact find_bucket_data (hinjective b hmemb a ha hdata)

end Apply

/-- A safe command on a valid table returns, and the table stays valid. -/
theorem exec_valid {s : Session} {command : Command} (hv : Valid hash_func hash_less s.table)
    (hsafe : command.Safe s) : ∃ s', command.exec s = some s' ∧ Valid hash_func hash_less s'.table := by
  have hcall := exec_meets hooks hv
  cases command with
  | hash_insert memory data =>
    obtain ⟨h', result, hrun, hvalid, -⟩ := hcall (.insert memory (s.item data))
    refine ⟨⟨h', s.allocations + 1⟩, ?_, hvalid⟩
    rw [Command.exec, show kernel.hash_insert hash_func hash_less memory s.table (s.item data) = _ from hrun]
    rfl
  | hash_delete memory data =>
    obtain ⟨h', result, hrun, hvalid, -⟩ := hcall (.delete memory (s.item data))
    refine ⟨⟨h', s.allocations + 1⟩, ?_, hvalid⟩
    rw [Command.exec, show kernel.hash_delete hash_func hash_less memory s.table (s.item data) = _ from hrun]
    rfl
  | hash_replace memory data =>
    obtain ⟨h', result, hrun, hvalid, -⟩ := hcall (.replace memory (s.item data))
    refine ⟨⟨h', s.allocations + 1⟩, ?_, hvalid⟩
    rw [Command.exec, show kernel.hash_replace hash_func hash_less memory s.table (s.item data) = _ from hrun]
    rfl
  | hash_clear =>
    obtain ⟨h', result, hrun, hvalid, -⟩ := hcall .clear
    obtain ⟨rfl, -⟩ := Prod.mk.inj (Option.some.inj hrun)
    exact ⟨_, rfl, hvalid⟩
  | hash_apply option => exact ⟨_, rfl, hash_apply_valid hv hsafe⟩

section Runs

variable {s : Session} {commands : List Command}

theorem run_command_concat (s : Session) (commands : List Command) (command : Command) :
    s.run (commands ++ [command]) = (s.run commands).bind command.exec := by
  rw [Session.run, List.foldlM_append, Session.run]
  cases List.foldlM Command.exec s commands <;> simp

/-- A run of safe commands returns, with a valid table. -/
theorem run_commands_valid (hv : Valid hash_func hash_less s.table)
    (hsafe : ∀ before command t, before ++ [command] <+: commands → s.run before = some t → command.Safe t) :
    ∃ t, s.run commands = some t ∧ Valid hash_func hash_less t.table := by
  induction commands using List.reverseRecOn with
  | nil => exact ⟨s, rfl, hv⟩
  | append_singleton commands command ih =>
    obtain ⟨t, hrun, hvalid⟩ := ih fun before c u hpre =>
      hsafe before c u (hpre.trans (List.prefix_append _ _))
    obtain ⟨t', hstep, hvalid'⟩ := exec_valid hvalid (hsafe commands command t (List.prefix_refl _) hrun)
    exact ⟨t', by rw [run_command_concat, hrun, Option.bind_some, hstep], hvalid'⟩

/-- The table is searchable all along a run exactly when no command of the run applies
an action that gives two elements one number or a number the hash of another bucket. -/
theorem searchable_iff {memory : Bool} {garbage : List hash_item} {h : hash hash_item}
    (hinit : hash_init memory garbage = some h) (commands : List Command) :
    (∀ before, before <+: commands → ∃ t, Session.run ⟨h, 0⟩ before = some t ∧ Searchable t) ↔
      ∀ before command t, before ++ [command] <+: commands → Session.run ⟨h, 0⟩ before = some t →
        command.Safe t := by
  have hv : Valid hash_func hash_less (Session.mk h 0).table := hash_init_valid hinit
  constructor
  · intro hsearch
    induction commands using List.reverseRecOn with
    | nil =>
      intro before command t hpre
      exact absurd (List.prefix_nil.mp hpre) (by simp)
    | append_singleton commands command ih =>
      have hsafe := ih fun before hpre => hsearch before (hpre.trans (List.prefix_append _ _))
      intro before c t hpre hrun
      obtain hlast | hpre := List.prefix_concat_iff.mp hpre
      · obtain ⟨rfl, hc⟩ := List.append_inj' hlast rfl
        obtain rfl := List.singleton_inj.mp hc
        obtain ⟨t', hrun', hvalid⟩ := run_commands_valid hv hsafe
        obtain rfl : t = t' := Option.some.inj (hrun.symm.trans hrun')
        obtain ⟨u, hstep, hu⟩ := hsearch _ (List.prefix_refl _)
        rw [run_command_concat, hrun, Option.bind_some] at hstep
        cases c with
        | hash_apply option =>
          obtain rfl := Option.some.inj hstep
          exact keeps_of_searchable hvalid hu
        | _ => trivial
      · exact hsafe before c t hpre hrun
  · intro hsafe before hpre
    obtain ⟨t, hrun, hvalid⟩ := @run_commands_valid _ before hv fun b c u hb =>
      hsafe b c u (hb.trans hpre)
    exact ⟨t, hrun, searchable_of_valid hvalid⟩

/-- An empty table. -/
def empty_table : hash hash_item := ⟨0, 4, [[], [], [], []]⟩

/-- Inserting elements, and taking one out. -/
theorem searchable_iff_no_apply : ∃ t, Session.run ⟨empty_table, 0⟩
    [.hash_insert true 2#32, .hash_delete true 2#32] = some t ∧
    Searchable t := by
  refine (@searchable_iff true [] empty_table rfl [.hash_insert true 2#32, .hash_delete true 2#32]).mpr ?_ _
    (List.prefix_refl _)
  intro before command t hpre _
  have hmem : command ∈ [Command.hash_insert true 2#32, .hash_delete true 2#32] :=
    hpre.subset (List.mem_append_right _ (List.mem_singleton_self _))
  simp only [List.mem_cons, List.not_mem_nil, or_false] at hmem
  obtain rfl | rfl := hmem <;> trivial

/-- The square of 2 is not found where 2 was. -/
theorem square_not_found : ¬ ∀ (h : hash hash_item), hash_init true [] = some h → ∀ commands : List Command,
    ∃ t, Session.run ⟨h, 0⟩ commands = some t ∧ Searchable t := by
  intro hall
  obtain ⟨t, hrun, ht⟩ := hall empty_table rfl [.hash_insert true 2#32, .hash_apply .square]
  have hrun' : Session.run ⟨empty_table, 0⟩ [.hash_insert true 2#32, .hash_apply .square] =
      some ⟨⟨1, 4, [[], [], [], [⟨0, 4#32⟩]]⟩, 1⟩ := by decide +kernel
  obtain rfl := Option.some.inj (hrun'.symm.trans hrun)
  exact ht.missing 4#32 (by decide +kernel) ⟨0, 4#32⟩ (by decide) rfl

end Runs

end pintos.prj0_2
