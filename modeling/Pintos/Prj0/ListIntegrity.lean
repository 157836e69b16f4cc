import Pintos.Prj0.SpliceIntact
import Pintos.Kernel.ListRuns

/-!
# Runs of list commands

The program makes lists and runs commands on them, one after the other. In every state
that safe commands lead to, the lists are well-formed, and the commands that keep them
intact are the safe ones.
-/

open links pintos.kernel state_error transition

namespace pintos.prj0_2

variable {Node ι : Type} [DecidableEq Node]

/-- The links, the data of the items and the lists. A list that is not made yet is an
empty one elsewhere. -/
structure Program (Node ι : Type) where
  memory : Memory Node
  data : Node → BitVec 32
  lists : ι → kernel.list Node

/-- A list command that goes to positions, or another command. -/
inductive ListAction (Node ι : Type) where
  | command (c : ListCommand Node ι)
  | other

/-- The lists are well-formed and disjoint. -/
def Program.Formed (s : Program Node ι) : Prop := ∃ seq, WellFormed s.memory s.lists seq

/-- What an action does. Of the other commands, only that they leave formed lists formed
is known. -/
def ListAction.Step (s : Program Node ι) : ListAction Node ι → Program Node ι → Prop
  | .command c, s' =>
    (∃ least, ∀ n, least ≤ n → c.exec s.lists s.data n s.memory = .ok ((), s'.memory)) ∧
      s'.data = c.store s.data ∧ s'.lists = s.lists
  | .other, s' => s.Formed → s'.Formed

/-- The program, which starts with empty lists. -/
def list_program (Node ι : Type) [DecidableEq Node] : System (Program Node ι) (ListAction Node ι) where
  Init s := WellFormed s.memory s.lists fun _ => []
  Step := fun s a s' => a.Step s s'

/-- Elements come from `malloc`, and commands are safe. -/
def ListAction.Proper (s : Program Node ι) : ListAction Node ι → Prop
  | .command c => ∀ seq, WellFormed s.memory s.lists seq → c.Allocates s.lists seq ∧ c.Safe s.data seq
  | .other => True

variable [DecidableEq ι] {s s' : Program Node ι} {a : ListAction Node ι}

/-- A step of a safe command leaves the lists formed. -/
theorem formed_step (hformed : s.Formed) (hproper : a.Proper s) (hstep : a.Step s s') : s'.Formed := by
  cases a with
  | other => exact hstep hformed
  | command c =>
    obtain ⟨seq, hwf⟩ := hformed
    obtain ⟨halloc, hsafe⟩ := hproper seq hwf
    obtain ⟨⟨least, hrun⟩, -, hlists⟩ := hstep
    obtain ⟨least', hassert | ⟨m', seq', hok, hwf', -⟩⟩ := (intact_iff_safe hwf halloc).mpr hsafe
    · cases (hrun _ (Nat.le_max_left _ _)).symm.trans (hassert _ (Nat.le_max_right _ _))
    · obtain ⟨-, hmemory⟩ := Exec.ok_inj (hrun _ (Nat.le_max_left _ _)) (hok _ (Nat.le_max_right _ _))
      refine ⟨seq', ?_⟩
      rw [hmemory, hlists]
      exact hwf'

/-- A call of the library with operands as they should be is such another command. -/
theorem other_of_effect {op : kernel.Op Node} {r : Option Node} {least : Nat}
    (heffect : ∀ seq, WellFormed s.memory s.lists seq → ∃ concerned seq' r',
    Effect s.lists seq op concerned seq' r')
    (hrun : ∀ n, least ≤ n → op.exec n s.memory = some (s'.memory, r)) (hlists : s'.lists = s.lists) :
    ListAction.other.Step s s' := by
  rintro ⟨seq, hwf⟩
  obtain ⟨concerned, seq', r', heffect⟩ := heffect seq hwf
  obtain ⟨m', least', hrun', hwf', -⟩ := exec_effect hwf heffect
  have heq := (hrun _ (Nat.le_max_left _ _)).symm.trans (hrun' _ (Nat.le_max_right _ _))
  rw [Option.some.injEq, Prod.mk.injEq] at heq
  refine ⟨seq', ?_⟩
  rw [heq.1, hlists]
  exact hwf'

/-- In every state that safe commands lead to, the lists are well-formed, and a command
ends and keeps all lists intact if and only if it is safe. -/
theorem list_commands_keep_lists
    (h : ((list_program Node ι).restrict fun s a => a.Proper s).Reachable s) :
    s.Formed ∧ ∀ seq, WellFormed s.memory s.lists seq → ∀ c : ListCommand Node ι, c.Allocates s.lists seq →
      (Intact s.lists s.data s.memory seq c ↔ c.Safe s.data seq) := by
  refine ⟨h.invariant ?_ ?_, fun seq hwf c hc => intact_iff_safe hwf hc⟩
  · intro s hinit
    exact ⟨_, hinit⟩
  · intro s a s' _ hformed hstep
    exact formed_step hformed hstep.1 hstep.2

section Examples

/-- The program with one list. -/
def one_list : Program Nat Unit :=
  ⟨list_init (fun _ => ⟨none, none⟩) ⟨0, 1⟩, fun _ => 0, fun _ => ⟨0, 1⟩⟩

/-- An item is inserted into the list. -/
theorem one_item_reached : ∃ s : Program Nat Unit,
    ((list_program Nat Unit).restrict fun s a => a.Proper s).Reachable s ∧
      WellFormed s.memory s.lists fun _ => [2] := by
  have hwf : WellFormed one_list.memory one_list.lists fun _ => [] := by
    refine ⟨?_, ?_, ?_, ?_, fun _ _ _ _ _ => rfl⟩
    · exact fun _ => List.isChain_pair.mpr ⟨rfl, rfl⟩
    · exact fun _ => rfl
    · exact fun _ => rfl
    · exact fun _ => show [0, 1].Nodup by decide
  have hfresh : Fresh one_list.lists (fun _ => []) 2 := fun _ => show 2 ∉ [0, 1] by decide
  obtain ⟨m', hrun, hwf', -⟩ := list_insert_run (i := ()) hwf (List.nil_append []).symm hfresh
  have hseq : Function.update (fun _ : Unit => ([] : List Nat)) () [2] = fun _ => [2] := by
    funext i
    rfl
  rw [List.nil_append, hseq] at hwf'
  let s : Program Nat Unit := ⟨m', Function.update one_list.data 2 5, one_list.lists⟩
  refine ⟨s, .step (l := .command (.list_insert () 0 2 5)) (.init hwf) ⟨?_, ⟨0, fun n _ => ?_⟩, rfl, rfl⟩, hwf'⟩
  · intro seq hwf₂
    obtain rfl := hwf.unique hwf₂
    exact ⟨hfresh, trivial⟩
  · rw [ListCommand.exec, begin_bind hwf, walk_bind hwf, if_pos (Nat.zero_le _)]
    exact list_insert_of_kernel hrun

/-- The one item can be given twice to a swap. -/
theorem list_commands_keep_lists_swap : ∃ s : Program Nat Unit,
    Intact s.lists s.data s.memory (fun _ => [2]) (.list_swap () 0 0) := by
  obtain ⟨s, hreached, hwf⟩ := one_item_reached
  refine ⟨s, ((list_commands_keep_lists hreached).2 _ hwf (.list_swap () 0 0) trivial).mpr ?_⟩
  exact fun _ _ => by decide

/-- A swap of the item and the tail follows a null pointer. -/
theorem list_swap_damages : ∃ s : Program Nat Unit, (list_program Nat Unit).Reachable s ∧
    WellFormed s.memory s.lists (fun _ => [2]) ∧
      ¬ Intact s.lists s.data s.memory (fun _ => [2]) (.list_swap () 0 1) := by
  obtain ⟨s, hreached, hwf⟩ := one_item_reached
  refine ⟨s, hreached.of_restrict, hwf, fun h => ?_⟩
  have hsafe := (intact_iff_safe hwf (c := .list_swap () 0 1) trivial).mp h
  exact absurd (hsafe (by decide) (by decide)) (by decide)

end Examples

end pintos.prj0_2
