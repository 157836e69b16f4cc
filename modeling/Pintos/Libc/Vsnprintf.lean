import Pintos.Libc.FormatInteger
import Mathlib.Data.List.GetD

/-!
# Output to a buffer (`lib/stdio.c`)

What is output does not depend on the function that outputs it: a run is the fold of that function
over the full output. `vsnprintf_helper` stores the beginning of what it gets, and counts all of it.
-/

open bytes twos_complement pintos.filesys

namespace pintos.lib.stdio

section Emits

variable {σ : Type} {output : Byte → σ → σ} {aux : σ}

/-- The characters of a string, with padding. -/
def string_text (string : Bytes) (length : Nat) (c : printf_conversion) : List Byte :=
  let pad := if c.width > length then List.replicate (c.width - length).toNat (chr ' ') else []
  (if c.flags.MINUS then [] else pad) ++ (List.range' 0 length).map string ++ if c.flags.MINUS then pad else []

theorem format_string_eq (string : Bytes) (length : Nat) (c : printf_conversion) :
    format_string output string length c aux = emit output (string_text string length c) aux := by
  simp only [format_string, string_text, output_dup_eq, output_string_eq, emit_append]
  by_cases hwidth : c.width > length <;> cases c.flags.MINUS <;> simp [hwidth, emit]

theorem format_string_emits (string : Bytes) (length : Nat) (c : printf_conversion) :
    Emits (fun _ output aux => some (format_string output string length c aux))
      (some (string_text string length c)) :=
  fun _ _ _ => congrArg some (format_string_eq string length c)

theorem Emits.bind {run run' : ∀ σ : Type, (Byte → σ → σ) → σ → Option σ} {text text' : Option (List Byte)}
    (h : Emits run text) (h' : Emits run' text') :
    Emits (fun σ output aux => (run σ output aux).bind (run' σ output))
      (text.bind fun text => text'.map fun text' => text ++ text') := by
  intro σ output aux
  simp only [h σ output aux]
  cases text with
  | none => rfl
  | some text =>
    rw [Option.map_some, Option.bind_some, h' σ output, Option.bind_some, Option.map_map]
    congr 1
    funext text'
    exact (emit_append text text').symm

theorem emits_char (ch : Byte) : Emits (fun _ output aux => some (output ch aux)) (some [ch]) :=
    fun _ _ _ => rfl

theorem convert_emits (strings : Bytes) (c : printf_conversion) (conversion : Char) (arg : Int) :
    ∃ text, Emits (fun _ output aux => convert output strings c conversion arg aux) text := by
  simp only [convert]
  split_ifs
  · exact ⟨_, format_integer_emits _ _ _ _ _⟩
  · exact ⟨_, format_string_emits _ _ _⟩
  · exact ⟨_, format_string_emits _ _ _⟩
  · exact ⟨_, format_string_emits _ _ _⟩
  · exact ⟨_, format_integer_emits _ _ _ _ _⟩
  · cases unsigned_base conversion with
    | none => exact ⟨none, fun _ _ _ => rfl⟩
    | some b => exact ⟨_, format_integer_emits _ _ _ _ _⟩

/-- `__vprintf` outputs the same, whatever the function does with it. -/
theorem vprintf_emits (strings : Bytes) (fuel : Nat) : ∀ format args,
    ∃ text, Emits (fun _ output aux => vprintf output strings fuel format args aux) text := by
  induction fuel with
  | zero =>
    intro format args
    cases format with
    | nil => exact ⟨some [], fun _ _ _ => rfl⟩
    | cons ch format => exact ⟨none, fun _ _ _ => rfl⟩
  | succ fuel ih =>
    intro format args
    cases format with
    | nil => exact ⟨some [], fun _ _ _ => rfl⟩
    | cons ch format =>
      simp only [vprintf]
      split_ifs
      · obtain ⟨text, htext⟩ := ih format args
        exact ⟨_, (emits_char (chr ch)).bind htext⟩
      · obtain ⟨text, htext⟩ := ih format.tail args
        exact ⟨_, (emits_char (chr '%')).bind htext⟩
      · obtain ⟨c, rest, args'⟩ := parse_conversion format args
        cases rest with
        | nil => exact ⟨none, fun _ _ _ => rfl⟩
        | cons conversion format' =>
          simp only
          cases unsupported conversion with
          | some message =>
            obtain ⟨text, htext⟩ := ih message [(conversion.toNat : Int)]
            obtain ⟨text', htext'⟩ := ih format' args'
            exact ⟨_, htext.bind htext'⟩
          | none =>
            cases hargs : args'.head? with
            | none => exact ⟨none, fun _ _ _ => rfl⟩
            | some arg =>
              obtain ⟨text, htext⟩ := convert_emits strings c conversion arg
              obtain ⟨text', htext'⟩ := ih format' args'.tail
              exact ⟨_, htext.bind htext'⟩

/-- A run of `__vprintf` is the fold over the full output. -/
theorem vprintf_eq (strings : Bytes) (format : List Char) (args : List Int) :
    vprintf output strings (turns format) format args aux =
      (full_output strings format args).map fun text => emit output text aux := by
  obtain ⟨text, htext⟩ := vprintf_emits strings (turns format) format args
  have hrun : vprintf output strings (turns format) format args aux = text.map fun text =>
      emit output text aux :=
    htext σ output aux
  have hfull : full_output strings format args = text.map fun text =>
      emit (fun ch text => text ++ [ch]) text [] :=
    htext (List Byte) (fun ch text => text ++ [ch]) []
  rw [hrun, hfull, Option.map_map]
  congr 1
  funext text
  exact congrArg (fun text => emit output text aux) ((@emit_concat text []).trans (List.nil_append text)).symm

end Emits

section Buffer

variable {buffer : Bytes}

/-- The state after some of the output: what there is room for has been stored. -/
structure Stored (buffer : Bytes) (max_length : Nat) (text : List Byte) (aux : vsnprintf_aux) : Prop where
  length : aux.length = text.length
  max : aux.max_length = max_length
  p : aux.p = min max_length text.length
  stored : ∀ i, aux.buffer i = if i < min max_length text.length then text.getD i 0 else buffer i

theorem Stored.step {max_length : Nat} {text : List Byte} {aux : vsnprintf_aux}
    (h : Stored buffer max_length text aux) (ch : Byte) (hfit : text.length + 1 < 2 ^ 31) :
    Stored buffer max_length (text ++ [ch]) (vsnprintf_helper ch aux) := by
  have hlength : int32 (aux.length + 1) = (text ++ [ch]).length := by
    rw [h.length, List.length_append, List.length_singleton, int32_of_range (by omega) (by omega)]
    rfl
  have hgetD : ∀ i, i < text.length → (text ++ [ch]).getD i 0 = text.getD i 0 :=
    fun i hi => List.getD_append _ _ _ _ hi
  rw [vsnprintf_helper]
  by_cases hroom : aux.length < aux.max_length
  · rw [if_pos hroom]
    rw [h.length, h.max] at hroom
    have hp : aux.p = text.length := by
      rw [h.p]
      omega
    refine ⟨hlength, h.max, ?_, ?_⟩
    · simp only [hp, List.length_append, List.length_singleton]
      omega
    · intro i
      simp only [List.length_append, List.length_singleton]
      by_cases hi : i = aux.p
      · rw [hi, Function.update_self, hp, if_pos (by omega)]
        simp
      · rw [Function.update_of_ne hi, h.stored i]
        rw [hp] at hi
        split_ifs
        · rw [hgetD i (by omega)]
        · omega
        · omega
        · rfl
  · rw [if_neg hroom]
    rw [h.length, h.max] at hroom
    refine ⟨hlength, h.max, ?_, ?_⟩
    · rw [h.p, List.length_append, List.length_singleton]
      omega
    · intro i
      rw [h.stored i, List.length_append, List.length_singleton]
      split_ifs
      · rw [hgetD i (by omega)]
      · omega
      · omega
      · rfl

theorem Stored.run {max_length : Nat} (text' : List Byte) : ∀ {text : List Byte} {aux : vsnprintf_aux},
    Stored buffer max_length text aux → text.length + text'.length < 2 ^ 31 →
    Stored buffer max_length (text ++ text') (emit vsnprintf_helper text' aux) := by
  induction text' with
  | nil =>
    intro text aux h _
    rwa [List.append_nil]
  | cons ch text' ih =>
    intro text aux h hfit
    rw [List.length_cons] at hfit
    have hstep := ih (h.step ch (by omega)) (by rw [List.length_append, List.length_singleton]; omega)
    rwa [List.append_assoc] at hstep

/-- The buffer after the run, and the result. -/
theorem vsnprintf_run (strings buffer : Bytes) {buf_size : Nat} {format : List Char} {args : List Int}
    {text : List Byte} (htext : full_output strings format args = some text) (hfit : text.length < 2 ^ 31)
    (hsize : buf_size ≤ 2 ^ 31 - 1) :
    ∃ buffer' : Bytes, vsnprintf strings buffer buf_size format args = some (buffer', (text.length : Int)) ∧
      ∀ i, buffer' i = if buf_size ≤ i then buffer i else if i < text.length ∧ i <
        buf_size - 1 then text.getD i 0
        else if i = min (buf_size - 1) text.length then 0 else buffer i := by
  have hmax : int32 (if buf_size > 0 then (buf_size : Int) - 1 else 0) = (buf_size - 1 : Nat) := by
    rw [int32_of_range (by split_ifs <;> omega) (by split_ifs <;> omega)]
    split_ifs <;> omega
  have h : Stored buffer (buf_size - 1) [] ⟨buffer, 0, 0, int32
      (if buf_size > 0 then (buf_size : Int) - 1 else 0)⟩ :=
    ⟨rfl, hmax, (Nat.min_zero _).symm, fun i => (if_neg (by simp)).symm⟩
  have hend := h.run text (by simpa using hfit)
  rw [List.nil_append] at hend
  rw [vsnprintf, vprintf_eq, htext]
  refine ⟨_, by simp only [Option.map_some, Option.bind_eq_bind, Option.bind_some, hend.length]; rfl, ?_⟩
  intro i
  by_cases hpos : buf_size > 0
  · rw [if_pos hpos, hend.p]
    by_cases hi : i = min (buf_size - 1) text.length
    · rw [hi, Function.update_self, if_neg (by omega), if_neg (by omega), if_pos rfl]
    · rw [Function.update_of_ne hi, hend.stored i]
      split_ifs <;> first | rfl | omega
  · rw [if_neg hpos, hend.stored i, if_neg (by omega), if_pos (by omega)]

end Buffer

section Formats

variable {σ : Type} {output : Byte → σ → σ} {aux : σ}

/-- The format is well formed, and there is an argument for each conversion that takes one. -/
inductive Matches : List Char → List Int → Prop where
  | nil (args : List Int) : Matches [] args
  | char {ch : Char} {format : List Char} {args : List Int} (hch : ch ≠ '%') (hrest : Matches format args) :
      Matches (ch :: format) args
  | percent {format : List Char} {args : List Int} (hrest : Matches format args) :
      Matches ('%' :: '%' :: format) args
  | message {format rest message : List Char} {args args' : List Int} {c : printf_conversion}
      {conversion : Char}
      (hhead : format.head? ≠ some '%') (hparse : parse_conversion format args = (c, conversion :: rest, args'))
      (hmessage : unsupported conversion = some message) (hrest : Matches rest args') :
      Matches ('%' :: format) args
  | conversion {format rest : List Char} {args args' : List Int} {c : printf_conversion}
      {conversion : Char} {arg : Int}
      (hhead : format.head? ≠ some '%') (hparse : parse_conversion format args =
      (c, conversion :: rest, arg :: args'))
      (hsupported : unsupported conversion = none) (hrest : Matches rest args') : Matches ('%' :: format) args

theorem parse_flags_length (format : List Char) (flags : printf_flags) :
    (parse_flags format flags).2.length ≤ format.length := by
  fun_induction parse_flags format flags with
  | case7 => exact Nat.le_refl _
  | _ => exact Nat.le_succ_of_le ‹_›

theorem parse_number_length (format : List Char) (n : Int) : (parse_number format n).2.length ≤
    format.length := by
  fun_induction parse_number format n with
  | case1 => exact Nat.le_refl _
  | case2 _ _ _ _ ih => exact Nat.le_succ_of_le ih
  | case3 => exact Nat.le_refl _

theorem parse_amount_length (format : List Char) (args : List Int) :
    (parse_amount format args).2.1.length ≤ format.length := by
  unfold parse_amount
  split
  · exact Nat.le_succ _
  · exact parse_number_length format 0

theorem parse_type_length (format : List Char) : (parse_type format).2.length ≤ format.length := by
  unfold parse_type
  split <;> simp
  all_goals omega

/-- What is left of the format is not longer. -/
theorem parse_conversion_length (format : List Char) (args : List Int) :
    (parse_conversion format args).2.1.length ≤ format.length := by
  have hflags := parse_flags_length format {}
  have hwidth := parse_amount_length (parse_flags format {}).2 args
  simp only [parse_conversion]
  generalize parse_amount (parse_flags format {}).2 args = amount at hwidth ⊢
  obtain ⟨width, rest, args'⟩ := amount
  refine (parse_type_length _).trans ?_
  split
  case h_1 format hdot =>
    simp only at hdot
    rw [hdot] at hwidth
    have hprecision := parse_amount_length format args'
    exact hprecision.trans ((Nat.le_succ _).trans (hwidth.trans hflags))
  case h_2 => exact hwidth.trans hflags

theorem message_run (strings : Bytes) {conversion : Char} {message : List Char}
    (hmessage : unsupported conversion = some message) (arg : Int) (fuel : Nat) :
    ∃ aux', vprintf output strings (fuel + 22) message [arg] aux = some aux' := by
  rw [unsupported] at hmessage
  split_ifs at hmessage
  · obtain rfl := Option.some.inj hmessage
    exact ⟨_, rfl⟩
  · obtain rfl := Option.some.inj hmessage
    exact ⟨_, rfl⟩

theorem signed_argument_lt (type : argument_type) (arg : Int) : (signed_argument type arg).natAbs < 2 ^ 64 := by
  have hwrap : ∀ bits ≤ 64, (wrap bits arg).natAbs < 2 ^ 64 := by
    intro bits hbits
    have hpos : 0 < 2 ^ bits := Nat.two_pow_pos bits
    have hle : 2 ^ bits ≤ 2 ^ 64 := Nat.pow_le_pow_right (by decide) hbits
    have hlow := Int.le_bmod (x := arg) hpos
    have hhigh := Int.bmod_lt (x := arg) hpos
    rw [wrap]
    generalize 2 ^ bits = m at hpos hle hlow hhigh ⊢
    omega
  cases type <;> exact hwrap _ (by decide)

theorem unsigned_argument_lt (type : argument_type) (arg : Int) : unsigned_argument type arg < 2 ^ 64 := by
  cases type <;> simp only [unsigned_argument] <;> omega

theorem unsigned_base_mem {conversion : Char} (hsupported : unsupported conversion = none)
    (hunsigned : conversion ∉ ['d', 'i', 'c', 's', 'p']) : ∃ b ∈ bases, unsigned_base conversion = some b := by
  rw [unsupported] at hsupported
  split_ifs at hsupported with hmem
  simp only [List.mem_cons, List.not_mem_nil, or_false, not_or] at hmem hunsigned
  obtain rfl | rfl | rfl | rfl : conversion = 'o' ∨ conversion = 'u' ∨ conversion = 'x' ∨
    conversion = 'X' := by tauto
  · exact ⟨base_o, by simp [bases], rfl⟩
  · exact ⟨base_d, by simp [bases], rfl⟩
  · exact ⟨base_x, by simp [bases], rfl⟩
  · exact ⟨base_X, by simp [bases], rfl⟩

/-- A conversion that there is finds room in the buffer. -/
theorem convert_run (strings : Bytes) (c : printf_conversion) {conversion : Char} (arg : Int)
    (hsupported : unsupported conversion = none) : ∃ aux',
    convert output strings c conversion arg aux = some aux' := by
  have hinteger : ∀ {b : integer_base} {value : Nat} {is_signed negative : Bool}
      {c : printf_conversion}, b ∈ bases →
      value < 2 ^ 64 → ∃ aux', format_integer output value is_signed negative b c aux = some aux' :=
    fun hb hvalue => ⟨_, format_integer_run hb hvalue _ _ _ _ _ _⟩
  rw [convert]
  split_ifs with hd hc hs hnull hp
  · exact hinteger List.mem_cons_self (signed_argument_lt _ _)
  · exact ⟨_, rfl⟩
  · exact ⟨_, rfl⟩
  · exact ⟨_, rfl⟩
  · exact hinteger (by simp [bases]) (by omega)
  · obtain ⟨b, hb, hbase⟩ := unsigned_base_mem hsupported (by simp; tauto)
    rw [hbase]
    exact hinteger hb (unsigned_argument_lt _ _)

/-- A well-formed format is output. -/
theorem vprintf_exists (strings : Bytes) {format : List Char} {args : List Int} (hm : Matches format args) :
    ∀ {fuel : Nat} {aux : σ}, turns format ≤ fuel → ∃ aux',
      vprintf output strings fuel format args aux = some aux' := by
  induction hm with
  | nil args =>
    intro fuel aux _
    cases fuel <;> exact ⟨aux, rfl⟩
  | char hch _ ih =>
    intro fuel aux hfuel
    rw [turns, List.length_cons] at hfuel
    obtain ⟨fuel, rfl⟩ := Nat.exists_eq_add_one_of_ne_zero (show fuel ≠ 0 by omega)
    rw [vprintf, if_pos hch]
    exact ih (by rw [turns]; omega)
  | percent _ ih =>
    intro fuel aux hfuel
    rw [turns, List.length_cons, List.length_cons] at hfuel
    obtain ⟨fuel, rfl⟩ := Nat.exists_eq_add_one_of_ne_zero (show fuel ≠ 0 by omega)
    rw [vprintf, if_neg (by decide), if_pos List.head?_cons]
    exact ih (by rw [turns]; omega)
  | @message format rest message args args' c conversion hhead hparse hmessage _ ih =>
    intro fuel aux hfuel
    have hlength := parse_conversion_length format args
    rw [hparse, List.length_cons] at hlength
    rw [turns, List.length_cons] at hfuel
    obtain ⟨fuel, rfl⟩ := Nat.exists_eq_add_of_le (show 23 ≤ fuel by omega)
    rw [Nat.add_comm, vprintf, if_neg (by decide), if_neg hhead, hparse]
    simp only [hmessage, Option.bind_eq_bind]
    obtain ⟨aux', hrun⟩ := @message_run σ output aux strings conversion message hmessage conversion.toNat fuel
    rw [hrun, Option.bind_some]
    exact ih (by rw [turns]; omega)
  | @conversion format rest args args' c conversion arg hhead hparse hsupported _ ih =>
    intro fuel aux hfuel
    have hlength := parse_conversion_length format args
    rw [hparse, List.length_cons] at hlength
    rw [turns, List.length_cons] at hfuel
    obtain ⟨fuel, rfl⟩ := Nat.exists_eq_add_one_of_ne_zero (show fuel ≠ 0 by omega)
    rw [vprintf, if_neg (by decide), if_neg hhead, hparse]
    obtain ⟨aux', hrun⟩ := @convert_run σ output aux strings c conversion arg hsupported
    simp only [hsupported, List.head?_cons, Option.bind_eq_bind, Option.bind_some, hrun]
    exact ih (by rw [turns]; omega)

end Formats

/-- `vsnprintf` returns the length of the full output and writes as much of it as there is room for,
with the terminator at its end, and nothing where there is no room at all. -/
theorem vsnprintf_truncates (strings buffer : Bytes) {format : List Char} {args : List Int}
    (hm : Matches format args) : ∃ text, full_output strings format args = some text ∧
      (text.length < 2 ^ 31 → ∀ buf_size ≤ 2 ^ 31 - 1,
        ∃ buffer' : Bytes, vsnprintf strings buffer buf_size format args = some (buffer', (text.length : Int)) ∧
          ∀ i, buffer' i = if buf_size ≤ i then buffer i else if i < text.length ∧ i <
            buf_size - 1 then text.getD i 0
            else if i = min (buf_size - 1) text.length then 0 else buffer i) := by
  obtain ⟨text, htext⟩ := @vprintf_exists (List Byte) (fun ch text => text ++
    [ch]) strings format args hm (turns format) [] (Nat.le_refl _)
  exact ⟨text, htext, fun hfit buf_size hsize => vsnprintf_run strings buffer htext hfit hsize⟩

theorem vsnprintf_truncates_number : ∃ text, full_output (fun _ => 0) ['n', '=', '%', '3', 'd']
    [-42] = some text ∧ (text.length < 2 ^ 31 → ∀ buf_size ≤ 2 ^ 31 - 1,
      ∃ buffer' : Bytes, vsnprintf (fun _ => 0) (fun _ => 1) buf_size ['n', '=', '%', '3', 'd'] [-42] =
          some (buffer', (text.length : Int)) ∧
        ∀ i, buffer' i = if buf_size ≤ i then 1 else if i < text.length ∧ i < buf_size - 1 then text.getD i 0
          else if i = min (buf_size - 1) text.length then 0 else 1) := by
  have hconversion : Matches ['%', '3', 'd'] [-42] := .conversion (by decide) (by rfl) (by decide) (.nil [])
  exact vsnprintf_truncates (fun _ => 0) (fun _ => 1) (.char (by decide) (.char (by decide) hconversion))

end pintos.lib.stdio
