import Pintos.Userprog.Startup
import Mathlib.Data.List.TakeWhile

/-!
# The two names of a program

`get_command` reads the name of the executable from the front of the command line, and
`set_argv` takes the first word for `argv[0]`.
-/

open bytes state_error text

namespace pintos.userprog.process

section Names

variable {b : Nat → Byte} {l l' w rest : List Byte} {pos n : Nat}

theorem c_string_unique (h : CString b pos l) (h' : CString b pos l') (hl : ∀ c ∈ l, c ≠ 0)
    (hl' : ∀ c ∈ l', c ≠ 0) :
    l = l' := by
  have hread := c_string_run (n := l.length + l'.length + 1) h hl (by omega)
  rw [← hread]
  exact c_string_run h' hl' (by omega)

/-- The command line starts with a word of one line. -/
def StartsWithName (l : List Byte) : Prop :=
  l.head? ≠ some SPACE ∧ NEWLINE ∉ l.takeWhile fun c => c ≠ SPACE

theorem takeWhile_word {p : Byte → Bool} (hw : ∀ c ∈ w, p c = true) (hrest : ∀ c ∈ rest.head?, p c = false) :
    (w ++ rest).takeWhile p = w := by
  rw [List.takeWhile_append_of_pos hw, List.append_right_eq_self]
  cases rest with
  | nil => rfl
  | cons c rest => exact List.takeWhile_cons_of_neg (by simp [hrest c rfl])

/-- A line that starts with spaces has an empty name; elsewhere the name is the first
word up to its first newline. -/
theorem command_name_eq_word_iff (hne : w ≠ []) (hw : ∀ c ∈ w, c ≠ SPACE)
    (hrest : ∀ c ∈ rest.head?, c = SPACE) :
    command_name (List.replicate n SPACE ++ (w ++ rest)) = w ↔
      StartsWithName (List.replicate n SPACE ++ (w ++ rest)) := by
  cases n with
  | succ n =>
    rw [List.replicate_succ, List.cons_append, command_name_cons, if_neg (by simp)]
    exact ⟨fun h => absurd h.symm hne, fun h => absurd rfl h.1⟩
  | zero =>
    obtain ⟨c, v, rfl⟩ := List.exists_cons_of_ne_nil hne
    have hhead : ((c :: v) ++ rest).head? ≠ some SPACE := fun h => hw c List.mem_cons_self (Option.some.inj h)
    rw [List.replicate_zero, List.nil_append, StartsWithName, and_iff_right hhead,
      takeWhile_word (by simpa using hw) (by simpa using hrest)]
    constructor
    · intro hname hmem
      rw [← hname] at hmem
      have hnot := List.mem_takeWhile_imp hmem
      simp at hnot
    · intro hline
      refine takeWhile_word (fun d hd => ?_) fun d hd => ?_
      · rw [decide_eq_true_eq]
        exact ⟨fun h => hline (h ▸ hd), hw d hd⟩
      · rw [decide_eq_false_iff_not, hrest d hd]
        exact fun h => h.2 rfl

end Names

variable {file_name garbage : Nat → Byte} {l : List Byte} {t : Args} {block : Bool}

/-- For a command line of some word, the name that `get_command` computes is `argv[0]`
exactly if the line starts with a word of one line, and the name and the words have room. -/
theorem get_command_eq_argv_iff (block : Bool) (garbage : Nat → Byte) (hline : CString t.line 0 l)
    (hnonzero : ∀ c ∈ l, c ≠ 0) (hword : ∃ c ∈ l, c ≠ SPACE) :
    (∃ command argc t' name, get_command l.length block garbage t.line = .ok command ∧ CString command 0 name ∧
        set_argv l.length t = .ok (argc, t') ∧ 0 < argc ∧ CString t'.line (t'.argv 0) name ∧
          ∀ c ∈ name, c ≠ 0) ↔
      StartsWithName l ∧ NameFits block l ∧ (words SPACE l).length ≤ ARGV_CNT := by
  obtain ⟨n, w, rest, hl, hne, hw, hrest⟩ := (words_cases SPACE l).resolve_left (by
    obtain ⟨c, hc, hspace⟩ := hword
    exact fun h => hspace (h c hc))
  have hwords : (words SPACE l)[0]? = some w := by
    obtain rfl | ⟨tail, rfl⟩ := hrest
    · rw [hl, List.append_nil, words_last n hne hw]
      rfl
    · rw [hl, words_first n hne hw]
      rfl
  have hname := command_name_eq_word_iff (n := n) hne hw (show ∀ c ∈ rest.head?, c = SPACE by
    obtain rfl | ⟨tail, rfl⟩ := hrest <;> simp)
  rw [← hl] at hname
  have hnamezero : ∀ c ∈ command_name l, c ≠ 0 := fun c hc => hnonzero c ((List.takeWhile_prefix _).subset hc)
  have hwzero : ∀ c ∈ w, c ≠ 0 := fun c hc => hnonzero c (by simp [hl, hc])
  by_cases hfits : NameFits block l
  · obtain ⟨command, hcommand, hstring⟩ := get_command_run garbage hline hnonzero (Nat.le_refl _) hfits
    by_cases hcount : (words SPACE l).length ≤ ARGV_CNT
    · obtain ⟨line', argv', pos', hrun, hfound⟩ := set_argv_run hline hnonzero (Nat.le_refl _) hcount
      have hargv := (hfound 0 w hwords).1
      rw [← hname, and_iff_left ⟨hfits, hcount⟩]
      constructor
      · rintro ⟨_, argc, t', name, hcommand', hstring', hrun', -, hargv', hzero⟩
        obtain rfl := Except.ok.inj (hcommand.symm.trans hcommand')
        obtain ⟨-, rfl⟩ := Exec.ok_inj hrun hrun'
        exact (c_string_unique hstring hstring' hnamezero hzero).trans
          (c_string_unique hargv' hargv hzero hwzero)
      · intro heq
        refine ⟨command, _, _, _, hcommand, hstring, hrun, ?_, heq ▸ hargv, hnamezero⟩
        exact List.length_pos_iff.mpr fun hnil => by simp [hnil] at hwords
    · constructor
      · rintro ⟨-, argc, t', -, -, -, hrun, -⟩
        have hoverflow := @set_argv_loop_overflow l.length l _ 0 (l.length + 1) 0 hline hnonzero (Nat.le_refl _)
          (Nat.zero_le _) (by omega) (Nat.le_succ_of_le (words_length_le SPACE l))
        rw [set_argv, hoverflow] at hrun
        cases hrun
      · exact fun h => absurd h.2.2 hcount
  · constructor
    · rintro ⟨_, -, -, -, hcommand, -⟩
      rw [get_command_error _ hline hnonzero (Nat.le_refl _) hfits] at hcommand
      cases hcommand
    · exact fun h => absurd h.2.1 hfits

theorem get_command_eq_argv_one_letter :
    (∃ command argc t' name, get_command 1 true (fun _ => 0) one_letter.line = .ok command ∧
    CString command 0 name ∧
        set_argv 1 one_letter = .ok (argc, t') ∧ 0 < argc ∧ CString t'.line (t'.argv 0) name ∧
          ∀ c ∈ name, c ≠ 0) ↔
      StartsWithName [97] ∧ NameFits true [97] ∧ (words SPACE [97]).length ≤ ARGV_CNT :=
  get_command_eq_argv_iff (l := [97]) true _ one_letter_line (by decide) ⟨97, by decide, by decide⟩

/-- A space and a letter. -/
def space_and_letter : Args where
  line i := if i = 0 then SPACE else if i = 1 then 97 else 0
  argv _ := 0
  mem _ := 0
  mapped _ := true
  esp := PHYS_BASE.toNat

/-- The name of a line that starts with a space is empty, and `argv[0]` is not. -/
theorem get_command_ne_argv_space :
    ¬ ∃ command argc t' name, get_command 2 true (fun _ => 0) space_and_letter.line = .ok command ∧
      CString command 0 name ∧ set_argv 2 space_and_letter = .ok (argc, t') ∧ 0 < argc ∧
      CString t'.line (t'.argv 0) name ∧ ∀ c ∈ name, c ≠ 0 := by
  rintro ⟨command, argc, t', name, hcommand, hstring, hargv, -, hname, hzero⟩
  obtain rfl := Except.ok.inj (show _ = Except.ok command from hcommand)
  cases hargv
  cases name with
  | nil => exact absurd (show (97 : Byte) = 0 from hname) (by decide)
  | cons c name => exact hzero c List.mem_cons_self (show c = 0 from hstring.1.symm)

end pintos.userprog.process
