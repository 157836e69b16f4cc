import Pintos.Libc.Printf
import Mathlib.Data.List.GetD

/-!
# Integers are formatted within the buffer (`lib/stdio.c`)

The buffer of `format_integer` is large enough; what it outputs are the sign, the prefix and the
digits, and the padding.
-/

open bytes twos_complement pintos.filesys

namespace pintos.lib.stdio

section Emits

variable {σ : Type} {output : Byte → σ → σ} {aux : σ}

/-- Output a text, character by character. -/
def emit (output : Byte → σ → σ) (text : List Byte) (aux : σ) :
    σ := text.foldl (fun aux ch => output ch aux) aux

theorem emit_append (text text' : List Byte) :
    emit output (text ++ text') aux = emit output text' (emit output text aux) :=
  List.foldl_append

theorem emit_concat (text : List Byte) : ∀ {text' : List Byte},
    emit (fun ch text => text ++ [ch]) text text' = text' ++ text := by
  induction text with
  | nil => exact (List.append_nil _).symm
  | cons ch text ih =>
    intro text'
    rw [emit, List.foldl_cons]
    exact ih.trans (List.append_assoc text' [ch] text)

/-- A run with any function outputs the text. -/
def Emits (run : ∀ σ : Type, (Byte → σ → σ) → σ → Option σ) (text : Option (List Byte)) : Prop :=
  ∀ σ output aux, run σ output aux = text.map fun text => emit output text aux

theorem output_dup_eq (ch : Char) (cnt : Nat) : ∀ {aux : σ},
    output_dup output ch cnt aux = emit output (List.replicate cnt (chr ch)) aux := by
  induction cnt with
  | zero => exact rfl
  | succ cnt ih => exact ih

theorem output_back_eq (buf : List Char) : output_back output buf aux =
    emit output (buf.reverse.map chr) aux := by
  rw [output_back, emit, List.foldl_map, List.foldl_reverse]

theorem output_string_eq (string : Bytes) (cnt : Nat) : ∀ {i : Nat} {aux : σ},
    output_string output string cnt i aux = emit output ((List.range' i cnt).map string) aux := by
  induction cnt with
  | zero => exact rfl
  | succ cnt ih =>
    intro i aux
    rw [output_string, ih, List.range'_succ]
    rfl

/-- The characters of a number, where the buffer has been filled. -/
def number_text (is_signed negative : Bool) (value : Nat) (b : integer_base) (c : printf_conversion)
    (buf : List Char) : List Char :=
  let sign := sign_char is_signed negative c
  let x := if c.flags.POUND && value ≠ 0 then b.x else none
  let pad_cnt := (c.width - buf.length - (if x.isSome then 2 else 0) - if sign.isSome then 1 else 0).toNat
  (if c.flags.MINUS || c.flags.ZERO then [] else List.replicate pad_cnt ' ') ++ sign.toList ++
    ((x.map fun x => ['0', x]).getD [] ++ ((if c.flags.ZERO then List.replicate pad_cnt '0' else []) ++
    buf.reverse)) ++
    if c.flags.MINUS then List.replicate pad_cnt ' ' else []

theorem format_integer_emits (value : Nat) (is_signed negative : Bool) (b : integer_base)
    (c : printf_conversion) :
    Emits (fun _ output aux => format_integer output value is_signed negative b c aux)
      ((fill_buf value b c).map fun buf => (number_text is_signed negative value b c buf).map chr) := by
  intro σ output aux
  simp only [format_integer]
  cases fill_buf value b c with
  | none => rfl
  | some buf =>
    generalize hx : (if c.flags.POUND && value ≠ 0 then b.x else none) = x
    generalize hsign : sign_char is_signed negative c = sign
    have hpad : ∀ n : Int, (if n < 0 then 0 else n.toNat) = n.toNat := by
      intro n
      split_ifs <;> omega
    simp only [number_text, hx, hsign, hpad, output_dup_eq, output_back_eq, Option.bind_eq_bind,
      Option.bind_some,
      Option.map_some, List.map_append, emit_append, Option.pure_def, Option.some.injEq]
    cases c.flags.MINUS <;> cases c.flags.ZERO <;> cases sign <;> cases x <;> simp [emit]

end Emits

/-- The bases there are. -/
def bases : List integer_base := [base_d, base_o, base_x, base_X]

section Buffer

variable {b : integer_base} {c : printf_conversion} {value : Nat}

theorem base_digits (hb : b ∈ bases) : b.digits.length = b.base := by
  revert b
  decide

theorem base_group (hb : b ∈ bases) : b.group = 3 ∨ b.group = 4 := by
  revert b
  decide

theorem eight_le_base (hb : b ∈ bases) : 8 ≤ b.base := by
  revert b
  decide

/-- The character of a digit. -/
def digit_char (b : integer_base) (d : Nat) : Char := b.digits.getD d '0'

/-- A separator before every group but the last one. -/
theorem digit_buffer_length (hb : b ∈ bases) (group : Bool) (value : Nat) : ∀ digit_cnt,
    (digit_buffer b group value digit_cnt).length = (Nat.digits b.base value).length +
      if group then (digit_cnt + (Nat.digits b.base value).length - 1) / b.group -
        (digit_cnt - 1) / b.group else 0 := by
  induction value using Nat.strongRecOn with
  | ind value ih =>
    intro digit_cnt
    rw [digit_buffer]
    by_cases hzero : value = 0
    · simp [hzero]
    have hpos : 0 < value := Nat.pos_of_ne_zero hzero
    rw [if_neg hzero, Nat.digits_def' b.one_lt hpos, List.length_append, List.length_cons, List.length_cons,
      ih _ (Nat.div_lt_self hpos b.one_lt)]
    generalize (Nat.digits b.base (value / b.base)).length = d
    cases group with
    | false => simp
    | true =>
      have hsep : (if (true && decide (0 < digit_cnt) && decide (digit_cnt % b.group = 0)) =
          true then [','] else []).length =
          if 0 < digit_cnt ∧ digit_cnt % b.group = 0 then 1 else 0 := by
        rw [apply_ite List.length]
        simp
      rw [hsep, if_pos rfl, if_pos rfl]
      obtain hgroup | hgroup := base_group hb
      all_goals
        rw [hgroup]
        split_ifs <;> omega

theorem digit_buffer_length_lt (hb : b ∈ bases) (hvalue : value < 2 ^ 64) (group : Bool) :
    (digit_buffer b group value 0).length ≤ 29 := by
  have hdigits : (Nat.digits b.base value).length ≤ 22 := by
    apply (Nat.digits_length_le_iff b.one_lt value).mpr
    exact Nat.lt_of_lt_of_le (Nat.lt_trans hvalue (by decide)) (Nat.pow_le_pow_left (eight_le_base hb) 22)
  rw [digit_buffer_length hb]
  split_ifs
  · obtain hgroup | hgroup := base_group hb
    all_goals
      rw [hgroup]
      omega
  · omega

theorem put_eq {buf : List Char} (ch : Char) (hbuf : buf.length < 64) : put buf ch = some (buf ++ [ch]) := by
  rw [put, guard, if_pos (show buf.length < sizeof_buf from hbuf)]
  rfl

theorem put_digits_eq (hb : b ∈ bases) (group : Bool) (value : Nat) : ∀ digit_cnt buf,
    buf.length + (digit_buffer b group value digit_cnt).length ≤ 64 →
    put_digits b group value digit_cnt buf = some (buf ++ digit_buffer b group value digit_cnt) := by
  induction value using Nat.strongRecOn with
  | ind value ih =>
    intro digit_cnt buf hfit
    rw [put_digits]
    rw [digit_buffer] at hfit ⊢
    by_cases hzero : value = 0
    · rw [if_pos hzero, if_pos hzero, List.append_nil]
    rw [if_neg hzero] at hfit ⊢
    rw [if_neg hzero]
    have hlt : value % b.base < b.digits.length := by
      rw [base_digits hb]
      exact Nat.mod_lt _ (Nat.lt_trans Nat.zero_lt_one b.one_lt)
    have hdigit : b.digits[value % b.base]? = some (b.digits.getD (value % b.base) '0') := by
      rw [List.getElem?_eq_getElem hlt, List.getD_eq_getElem _ _ hlt]
    simp only [List.length_append, List.length_cons] at hfit
    have hrest := ih _ (Nat.div_lt_self (Nat.pos_of_ne_zero hzero) b.one_lt) (digit_cnt + 1)
    simp only [hdigit, Option.bind_eq_bind, Option.bind_some]
    split_ifs at hfit ⊢
    · rw [List.length_singleton] at hfit
      rw [put_eq ',' (by omega), Option.bind_some, put_eq _
        (by rw [List.length_append, List.length_singleton]; omega),
        Option.bind_some, hrest _ (by simp only [List.length_append, List.length_singleton]; omega)]
      simp
    · rw [List.length_nil] at hfit
      rw [put_eq _ (by omega), Option.bind_some, hrest _
        (by rw [List.length_append, List.length_singleton]; omega)]
      simp

theorem put_zeros_eq {precision : Int} (fuel : Nat) : ∀ {buf : List Char}, buf.length ≤ 63 →
    64 - buf.length ≤ fuel →
    put_zeros precision fuel buf = some (buf ++ List.replicate (min precision.toNat 63 - buf.length) '0') := by
  induction fuel with
  | zero =>
    intro buf hbuf hfuel
    omega
  | succ fuel ih =>
    intro buf hbuf hfuel
    rw [put_zeros, sizeof_buf]
    split_ifs with hmore
    · rw [put_eq '0' (by omega)]
      simp only [Option.bind_eq_bind, Option.bind_some]
      rw [ih (by simp; omega) (by simp; omega), List.append_assoc]
      have hcnt : min precision.toNat 63 - buf.length = min precision.toNat 63 - (buf ++ ['0']).length + 1 := by
        rw [List.length_append, List.length_singleton]
        omega
      rw [hcnt, List.replicate_succ]
      rfl
    · rw [show min precision.toNat 63 - buf.length = 0 by omega, List.replicate_zero, List.append_nil]

theorem digit_char_ne_zero (hb : b ∈ bases) {d : Nat} (hd : d < b.base) (hne : d ≠ 0) :
    digit_char b d ≠ '0' := by
  have hall : ∀ b ∈ bases, ∀ d < b.base, d ≠ 0 → digit_char b d ≠ '0' := by decide
  exact hall b hb d hd hne

/-- The most significant digit is not zero. -/
theorem digit_buffer_getLast? (hb : b ∈ bases) (group : Bool) (value : Nat) : ∀ digit_cnt,
    (digit_buffer b group value digit_cnt).getLast? ≠ some '0' := by
  induction value using Nat.strongRecOn with
  | ind value ih =>
    intro digit_cnt
    rw [digit_buffer]
    by_cases hzero : value = 0
    · simp [hzero]
    have hrest := ih _ (Nat.div_lt_self (Nat.pos_of_ne_zero hzero) b.one_lt) (digit_cnt + 1)
    rw [if_neg hzero, List.getLast?_append, List.getLast?_cons, Option.some_or]
    by_cases hlast : value / b.base = 0
    · have hlt := (Nat.div_eq_zero_iff_lt (Nat.lt_trans Nat.zero_lt_one b.one_lt)).mp hlast
      rw [hlast, digit_buffer, if_pos rfl, Nat.mod_eq_of_lt hlt]
      exact fun heq => digit_char_ne_zero hb hlt hzero (Option.some.inj heq)
    · cases hchar : (digit_buffer b group (value / b.base) (digit_cnt + 1)).getLast? with
      | none =>
        have hnil := List.getLast?_eq_none_iff.mp hchar
        rw [digit_buffer, if_neg hlast] at hnil
        exact absurd hnil (by simp)
      | some ch =>
        rw [hchar] at hrest
        exact hrest

theorem getLast?_zeros (hb : b ∈ bases) (group : Bool) (value cnt : Nat) :
    (digit_buffer b group value 0 ++ List.replicate cnt '0').getLast? ≠ some '0' ↔ cnt = 0 := by
  cases cnt with
  | zero =>
    rw [List.replicate_zero, List.append_nil]
    exact iff_of_true (digit_buffer_getLast? hb group value 0) rfl
  | succ cnt => simp [List.replicate_succ']

/-- The number of digits that the precision asks for; there is no room for more than 63. -/
def precision_length (c : printf_conversion) : Nat := if c.precision < 0 then 1 else min c.precision.toNat 63

/-- The length of the digits, with the separators. -/
def digits_length (value : Nat) (b : integer_base) (c : printf_conversion) : Nat :=
  (Nat.digits b.base value).length +
    if c.flags.GROUP then ((Nat.digits b.base value).length - 1) / b.group else 0

/-- The number of zeros that are put before the digits. -/
def extra_zeros (value : Nat) (b : integer_base) (c : printf_conversion) : Nat :=
  (precision_length c - digits_length value b c) +
    if c.flags.POUND && b.base = 8 && precision_length c ≤ digits_length value b c then 1 else 0

/-- The characters in the buffer, the last one first. -/
def filled (value : Nat) (b : integer_base) (c : printf_conversion) : List Char :=
  digit_buffer b c.flags.GROUP value 0 ++ List.replicate (extra_zeros value b c) '0'

theorem digits_length_eq (hb : b ∈ bases) : (digit_buffer b c.flags.GROUP value 0).length =
    digits_length value b c := by
  rw [digit_buffer_length hb, digits_length, Nat.zero_add, Nat.zero_sub, Nat.zero_div, Nat.sub_zero]

theorem filled_length (hb : b ∈ bases) :
    (filled value b c).length = digits_length value b c + extra_zeros value b c := by
  rw [filled, List.length_append, List.length_replicate, digits_length_eq hb]

/-- The zero of the `#` flag is put where there is no other. -/
theorem pound_zero (hb : b ∈ bases) {precision : Nat} (hprecision : min precision 63 = precision_length c) :
    (if c.flags.POUND && b.base = 8 && (digit_buffer b c.flags.GROUP value 0 ++
        List.replicate (min precision 63 -
          (digit_buffer b c.flags.GROUP value 0).length) '0').getLast? ≠ some '0' then
      digit_buffer b c.flags.GROUP value 0 ++
        List.replicate (min precision 63 - (digit_buffer b c.flags.GROUP value 0).length) '0' ++ ['0']
    else digit_buffer b c.flags.GROUP value 0 ++
      List.replicate (min precision 63 - (digit_buffer b c.flags.GROUP value 0).length) '0') =
        filled value b c := by
  rw [hprecision, digits_length_eq hb, filled, extra_zeros]
  have hlast := getLast?_zeros hb c.flags.GROUP value (precision_length c - digits_length value b c)
  rw [Nat.sub_eq_zero_iff_le] at hlast
  by_cases hpound : (c.flags.POUND && decide (b.base = 8)) = true
  · simp only [hpound, Bool.true_and, decide_eq_true_eq, hlast]
    split_ifs
    · rw [List.append_assoc, ← List.replicate_succ']
    · rfl
  · simp only [Bool.eq_false_of_not_eq_true hpound, Bool.false_and]
    rfl

theorem precision_length_eq (c : printf_conversion) :
    min (if c.precision < 0 then 1 else c.precision.toNat) 63 = precision_length c := by
  rw [precision_length]
  split_ifs <;> rfl

/-- The buffer is large enough for every number. -/
theorem fill_buf_eq (hb : b ∈ bases) (hvalue : value < 2 ^ 64) (c : printf_conversion) :
    fill_buf value b c = some (filled value b c) := by
  have hlen := digit_buffer_length_lt hb hvalue c.flags.GROUP
  have hprecision : (if c.precision < 0 then 1 else c.precision).toNat =
      if c.precision < 0 then 1 else c.precision.toNat := by
    split_ifs <;> rfl
  rw [fill_buf, put_digits_eq hb _ _ _ _ (by rw [List.length_nil]; omega), List.nil_append]
  simp only [Option.bind_eq_bind, Option.bind_some]
  rw [put_zeros_eq _ (by omega) (by rw [sizeof_buf]; omega), Option.bind_some, hprecision,
    ← pound_zero hb (precision_length_eq c)]
  have hroom : (digit_buffer b c.flags.GROUP value 0 ++ List.replicate (min (if c.precision < 0 then 1 else
      c.precision.toNat) 63 - (digit_buffer b c.flags.GROUP value 0).length) '0').length < 64 := by
    rw [List.length_append, List.length_replicate]
    omega
  generalize digit_buffer b c.flags.GROUP value 0 ++ List.replicate _ '0' = buf at hroom ⊢
  have hempty : (decide (buf = []) || decide (buf.getLast? ≠ some '0')) = decide (buf.getLast? ≠ some '0') := by
    cases buf with
    | nil => decide
    | cons ch buf => simp
  rw [hempty, put_eq '0' hroom]
  split_ifs <;> rfl

/-- `format_integer` outputs the characters of the number. -/
theorem format_integer_run (hb : b ∈ bases) (hvalue : value < 2 ^ 64) (is_signed negative : Bool)
    (c : printf_conversion) : Emits (fun _ output aux => format_integer output value is_signed negative b c aux)
      (some ((number_text is_signed negative value b c (filled value b c)).map chr)) := by
  have hemits := format_integer_emits value is_signed negative b c
  rwa [fill_buf_eq hb hvalue] at hemits

/-- They are those of `format_integer` without the buffer. -/
theorem format_integer_eq (hb : b ∈ bases) (is_signed negative : Bool) (c : printf_conversion) :
    lib.format_integer value is_signed negative b c = number_text is_signed negative value b c
      (filled value b c) := by
  have hsign : (if is_signed = true then if c.flags.PLUS = true then if negative = true then ['-'] else ['+']
      else if c.flags.SPACE = true then if negative = true then ['-'] else
        [' '] else if negative = true then ['-'] else []
      else []) = (sign_char is_signed negative c).toList := by
    rw [sign_char]
    split_ifs <;> rfl
  have hx : (if (c.flags.POUND && decide (value ≠ 0)) = true then (b.x.map fun x => ['0', x]).getD [] else []) =
      ((if c.flags.POUND && value ≠ 0 then b.x else none).map fun x => ['0', x]).getD [] := by
    split_ifs <;> rfl
  simp only [lib.format_integer]
  rw [pound_zero hb (precision_length_eq c), hsign, hx, number_text]
  generalize (if c.flags.POUND && value ≠ 0 then b.x else none) = x
  cases sign_char is_signed negative c <;> cases x <;> simp

end Buffer

section Length

variable {b : integer_base} {c : printf_conversion} {value : Nat} {is_signed negative : Bool}

def sign_length (is_signed negative : Bool) (c : printf_conversion) : Nat :=
  if is_signed && (negative || c.flags.PLUS || c.flags.SPACE) then 1 else 0

def prefix_length (value : Nat) (b : integer_base) (c : printf_conversion) : Nat :=
  if c.flags.POUND && value ≠ 0 && b.x.isSome then 2 else 0

/-- The length of the sign, the prefix and the digits. -/
def body_length (value : Nat) (is_signed negative : Bool) (b : integer_base) (c : printf_conversion) : Nat :=
  sign_length is_signed negative c + prefix_length value b c + digits_length value b c + extra_zeros value b c

/-- The number of characters, with the padding in one place or in two. -/
theorem number_text_length (hb : b ∈ bases) :
    (number_text is_signed negative value b c (filled value b c)).length =
      body_length value is_signed negative b c +
        (c.width - body_length value is_signed negative b c).toNat * if c.flags.MINUS && c.flags.ZERO then 2 else 1 := by
  have hsign : (if (sign_char is_signed negative c).isSome = true then (1 : Int) else 0) =
      sign_length is_signed negative c ∧
      (sign_char is_signed negative c).toList.length = sign_length is_signed negative c := by
    rw [sign_char, sign_length]
    cases is_signed <;> cases negative <;> cases c.flags.PLUS <;> cases c.flags.SPACE <;> decide
  have hprefix : (if (if c.flags.POUND && value ≠ 0 then b.x else none).isSome = true then (2 : Int) else 0) =
      prefix_length value b c ∧
      (((if c.flags.POUND && value ≠ 0 then b.x else none).map fun x => ['0', x]).getD []).length =
        prefix_length value b c := by
    rw [prefix_length]
    cases (c.flags.POUND && decide (value ≠ 0)) <;> cases b.x <;> simp
  have hfilled := @filled_length b c value hb
  have hpad : (c.width - (filled value b c).length - (prefix_length value b c : Int) -
      (sign_length is_signed negative c : Int)).toNat =
      (c.width - body_length value is_signed negative b c).toNat := by
    rw [hfilled, body_length]
    omega
  rw [number_text]
  simp only [hsign.1, hprefix.1]
  simp only [hpad]
  simp only [List.length_append, hsign.2, hprefix.2, List.length_reverse, hfilled]
  generalize (c.width - body_length value is_signed negative b c).toNat = pad_cnt
  rw [body_length]
  cases c.flags.MINUS <;> cases c.flags.ZERO <;> simp <;> omega

end Length

end pintos.lib.stdio
