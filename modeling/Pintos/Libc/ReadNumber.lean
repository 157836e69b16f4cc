import Pintos.Libc.FormatInteger
import Mathlib.Data.List.DropRight

/-!
# Formatted integers are read back (`lib/stdio.c`, `lib/stdlib.c`)

Without padding, separators and prefix the output of `format_integer` says the number, and `atoi`
reads the output of `%d`.
-/

open bytes twos_complement pintos.filesys

namespace pintos.lib.stdio

section Reading

/-- Without the blanks around it. -/
def trim (text : List Char) : List Char := (text.dropWhile (· = ' ')).rdropWhile (· = ' ')

/-- The sign, which is negative or not, and the rest. -/
def read_sign : List Char → Bool × List Char
  | '-' :: text => (true, text)
  | '+' :: text => (false, text)
  | text => (false, text)

/-- Without the prefix of the base. -/
def skip_mark (b : integer_base) : List Char → List Char
  | '0' :: ch :: text => if b.x = some ch then text else '0' :: ch :: text
  | text => text

/-- The number that the digits say after `value`. -/
def read_digits (b : integer_base) : Nat → List Char → Option Nat
  | value, [] => some value
  | value, ch :: text => do read_digits b ((← b.digits.idxOf? ch) + value * b.base) text

/-- The number that a text says, without padding, separators and prefix. -/
def read_number (b : integer_base) (text : List Char) : Option Int := do
  let (negative, text) := read_sign (trim text)
  let value ← read_digits b 0 ((skip_mark b text).filter (· ≠ ','))
  return if negative then -value else value

variable {b : integer_base} {c : printf_conversion} {value : Nat} {is_signed negative : Bool} {text : List Char}

theorem dropWhile_blanks (cnt : Nat) (hhead : ∀ ch ∈ text.head?, ch ≠ ' ') :
    (List.replicate cnt ' ' ++ text).dropWhile (· = ' ') = text := by
  induction cnt with
  | zero =>
    cases text with
    | nil => rfl
    | cons ch text => exact List.dropWhile_cons_of_neg (by simpa using hhead ch rfl)
  | succ cnt ih => rwa [List.replicate_succ, List.cons_append, List.dropWhile_cons_of_pos (by decide)]

theorem trim_blanks (before after : Nat) (htext : ∀ ch ∈ text, ch ≠ ' ') :
    trim (List.replicate before ' ' ++ text ++ List.replicate after ' ') = text := by
  have hhead : ∀ ch ∈ text.reverse.head?, ch ≠ ' ' :=
    fun ch hch => htext ch (List.mem_reverse.mp (List.mem_of_head? hch))
  cases text with
  | nil =>
    have hdrop := @dropWhile_blanks [] (before + after) (fun _ h => by cases h)
    rw [List.append_nil] at hdrop
    rw [trim, List.append_nil, List.replicate_append_replicate, hdrop]
    rfl
  | cons ch text =>
    have hfirst : ∀ ch' ∈ (ch :: text ++ List.replicate after ' ').head?, ch' ≠ ' ' := by
      rintro _ ⟨⟩
      exact htext ch List.mem_cons_self
    rw [trim, List.append_assoc, dropWhile_blanks before hfirst, List.rdropWhile, List.reverse_append,
      List.reverse_replicate, dropWhile_blanks after hhead, List.reverse_reverse]

/-- A character that is no blank, no sign and no prefix. -/
structure Plain (b : integer_base) (ch : Char) : Prop where
  blank : ch ≠ ' '
  minus : ch ≠ '-'
  plus : ch ≠ '+'
  x : b.x ≠ some ch

instance (b : integer_base) (ch : Char) : Decidable (Plain b ch) :=
  decidable_of_iff (ch ≠ ' ' ∧ ch ≠ '-' ∧ ch ≠ '+' ∧ b.x ≠ some ch)
    ⟨fun h => ⟨h.1, h.2.1, h.2.2.1, h.2.2.2⟩, fun h => ⟨h.blank, h.minus, h.plus, h.x⟩⟩

theorem plain_digits (hb : b ∈ bases) : Plain b ',' ∧ ∀ d < b.base, Plain b (digit_char b d) := by
  revert b
  decide

theorem idxOf?_digit_char (hb : b ∈ bases) : ∀ d < b.base, b.digits.idxOf? (digit_char b d) = some d := by
  revert b
  decide

theorem digit_char_ne_comma (hb : b ∈ bases) : digit_char b 0 = '0' ∧ ∀ d < b.base, digit_char b d ≠ ',' := by
  revert b
  decide

theorem read_sign_plain (htext : ∀ ch ∈ text, Plain b ch) : read_sign text = (false, text) := by
  cases text with
  | nil => rfl
  | cons ch text =>
    have hch := htext ch List.mem_cons_self
    unfold read_sign
    split
    · next heq => exact absurd (List.cons.inj heq).1 hch.minus
    · next heq => exact absurd (List.cons.inj heq).1 hch.plus
    · rfl

theorem skip_mark_plain (htext : ∀ ch ∈ text, Plain b ch) : skip_mark b text = text := by
  unfold skip_mark
  split
  · next ch rest =>
    have hch := htext ch (List.mem_cons_of_mem _ List.mem_cons_self)
    rw [if_neg hch.x]
  · rfl

/-- The digits in the buffer without the separators. -/
theorem digit_buffer_filter (hb : b ∈ bases) (group : Bool) (value : Nat) : ∀ digit_cnt,
    (digit_buffer b group value digit_cnt).filter (· ≠ ',') = (Nat.digits b.base value).map (digit_char b) ∧
      ∀ ch ∈ digit_buffer b group value digit_cnt, Plain b ch := by
  induction value using Nat.strongRecOn with
  | ind value ih =>
    intro digit_cnt
    rw [digit_buffer]
    by_cases hzero : value = 0
    · simp [hzero]
    have hpos : 0 < value := Nat.pos_of_ne_zero hzero
    have hmod : value % b.base < b.base := Nat.mod_lt _ (Nat.lt_trans Nat.zero_lt_one b.one_lt)
    obtain ⟨hfilter, hplain⟩ := ih _ (Nat.div_lt_self hpos b.one_lt) (digit_cnt + 1)
    have hdigit : b.digits.getD (value % b.base) '0' = digit_char b (value % b.base) := rfl
    rw [if_neg hzero, hdigit, Nat.digits_def' b.one_lt hpos]
    have hne := (digit_char_ne_comma hb).2 _ hmod
    constructor
    · rw [List.filter_append, List.filter_cons_of_pos (by simpa using hne), hfilter]
      split_ifs <;> rfl
    · intro ch hch
      rw [List.mem_append, List.mem_cons] at hch
      obtain hch | rfl | hch := hch
      · split_ifs at hch
        · rw [List.mem_singleton.mp hch]
          exact (plain_digits hb).1
        · cases hch
      · exact (plain_digits hb).2 _ hmod
      · exact hplain ch hch

theorem read_digits_map (hb : b ∈ bases) (ds : List Nat) : ∀ {value : Nat}, (∀ d ∈ ds, d < b.base) →
    read_digits b value (ds.map (digit_char b)) = some (digits.read b.base value ds) := by
  induction ds with
  | nil => exact fun _ => rfl
  | cons d ds ih =>
    intro value hds
    rw [List.map_cons, read_digits, idxOf?_digit_char hb d (hds d List.mem_cons_self)]
    exact ih fun d hd => hds d (List.mem_cons_of_mem _ hd)

/-- The digits with zeros before them say the value. -/
theorem read_filled (hb : b ∈ bases) (cnt : Nat) :
    (∀ ch ∈ List.replicate cnt '0' ++ (filled value b c).reverse, Plain b ch) ∧
      read_digits b 0 ((List.replicate cnt '0' ++ (filled value b c).reverse).filter (· ≠ ',')) =
        some value := by
  obtain ⟨hfilter, hplain⟩ := digit_buffer_filter hb c.flags.GROUP value 0
  have hpos : 0 < b.base := Nat.lt_trans Nat.zero_lt_one b.one_lt
  have hzero := (digit_char_ne_comma hb).1
  have hplain0 : Plain b '0' := hzero ▸ (plain_digits hb).2 0 hpos
  constructor
  · intro ch hch
    rw [filled, List.mem_append, List.mem_reverse, List.mem_append] at hch
    obtain hch | hch | hch := hch
    · exact List.eq_of_mem_replicate hch ▸ hplain0
    · exact hplain ch hch
    · exact List.eq_of_mem_replicate hch ▸ hplain0
  · have hzeros : ∀ cnt, (List.replicate cnt '0').filter (· ≠ ',') =
      (List.replicate cnt 0).map (digit_char b) := by
      intro cnt
      rw [List.filter_replicate_of_pos (by decide), List.map_replicate, hzero]
    have hdigits : (List.replicate cnt '0' ++ (filled value b c).reverse).filter (· ≠ ',') =
        (List.replicate cnt 0 ++ (List.replicate (extra_zeros value b c) 0 ++
        (Nat.digits b.base value).reverse)).map
          (digit_char b) := by
      rw [List.filter_append, List.filter_reverse, filled, List.filter_append, hfilter, hzeros, hzeros,
        List.reverse_append,
        List.map_append, List.map_append, List.map_reverse, ← List.map_reverse, List.reverse_replicate]
    rw [hdigits, read_digits_map hb]
    · rw [digits.read_zeros, digits.read_zeros, digits.read_digits]
    · intro d hd
      simp only [List.mem_append, List.mem_reverse] at hd
      obtain hd | hd | hd := hd
      · exact List.eq_of_mem_replicate hd ▸ hpos
      · exact List.eq_of_mem_replicate hd ▸ hpos
      · exact Nat.digits_lt_base b.one_lt hd

/-- The sign, the prefix and the digits are read, whatever blanks are around them. -/
theorem read_number_run (hb : b ∈ bases) {x : Option Char} (hx : x = none ∨ x = b.x) {sign : List Char}
    (hsign : sign = [] ∨ sign = ['-'] ∨ sign = ['+']) (before after cnt : Nat) :
    read_number b (List.replicate before ' ' ++ (sign ++ ((x.map fun x => ['0', x]).getD [] ++
      (List.replicate cnt '0' ++ (filled value b c).reverse))) ++ List.replicate after ' ') =
        some (if sign = ['-'] then -(value : Int) else value) := by
  obtain ⟨hplain, hread⟩ := @read_filled b c value hb cnt
  generalize List.replicate cnt '0' ++ (filled value b c).reverse = digits at hplain hread ⊢
  have hxblank : ∀ b ∈ bases, b.x ≠ some ' ' := by decide
  -- The prefix is no sign, and it is dropped.
  have hbody : (∀ ch ∈ (x.map fun x => ['0', x]).getD [] ++ digits, ch ≠ ' ') ∧
      read_sign ((x.map fun x => ['0', x]).getD [] ++ digits) =
        (false, (x.map fun x => ['0', x]).getD [] ++ digits) ∧
      skip_mark b ((x.map fun x => ['0', x]).getD [] ++ digits) = digits := by
    cases x with
    | none => exact ⟨fun ch hch => (hplain ch hch).blank, read_sign_plain hplain, skip_mark_plain hplain⟩
    | some xc =>
      have hxc : b.x = some xc := (hx.resolve_left (by simp)).symm
      refine ⟨?_, rfl, if_pos hxc⟩
      intro ch hch
      simp only [Option.map_some, Option.getD_some, List.cons_append, List.nil_append, List.mem_cons] at hch
      obtain rfl | rfl | hch := hch
      · decide
      · rintro rfl
        exact hxblank b hb hxc
      · exact (hplain ch hch).blank
  generalize (x.map fun x => ['0', x]).getD [] ++ digits = body at hbody ⊢
  obtain ⟨hblank, hnosign, hdrop⟩ := hbody
  have htrim : trim (List.replicate before ' ' ++ (sign ++ body) ++ List.replicate after ' ') =
      sign ++ body := by
    apply trim_blanks
    intro ch hch
    obtain hch | hch := List.mem_append.mp hch
    · obtain rfl | rfl | rfl := hsign
      · cases hch
      · rw [List.mem_singleton.mp hch]
        decide
      · rw [List.mem_singleton.mp hch]
        decide
    · exact hblank ch hch
  have hsigned : read_sign (sign ++ body) = (decide (sign = ['-']), body) := by
    obtain rfl | rfl | rfl := hsign
    · exact hnosign
    · rfl
    · rfl
  rw [read_number, htrim, hsigned]
  simp only [hdrop, hread, Option.bind_eq_bind, Option.bind_some, decide_eq_true_eq]
  rfl

theorem read_number_text (hb : b ∈ bases) :
    read_number b (number_text is_signed negative value b c (filled value b c)) =
      some (if is_signed && negative then -(value : Int) else value) := by
  have hx : (if c.flags.POUND && value ≠ 0 then b.x else none) = none ∨
      (if c.flags.POUND && value ≠ 0 then b.x else none) = b.x := by
    split_ifs
    · exact .inr rfl
    · exact .inl rfl
  rw [number_text]
  generalize (if c.flags.POUND && value ≠ 0 then b.x else none) = x at hx ⊢
  generalize (c.width - (filled value b c).length - (if x.isSome = true then (2 : Int) else 0) -
    if (sign_char is_signed negative c).isSome = true then (1 : Int) else 0).toNat = pad_cnt
  have hbefore : (if (c.flags.MINUS || c.flags.ZERO) = true then [] else List.replicate pad_cnt ' ') =
      List.replicate (if (c.flags.MINUS || c.flags.ZERO) = true then 0 else pad_cnt) ' ' := by
    split_ifs <;> rfl
  have hzero : (if c.flags.ZERO = true then List.replicate pad_cnt '0' else []) =
      List.replicate (if c.flags.ZERO = true then pad_cnt else 0) '0' := by
    split_ifs <;> rfl
  have hafter : (if c.flags.MINUS = true then List.replicate pad_cnt ' ' else []) =
      List.replicate (if c.flags.MINUS = true then pad_cnt else 0) ' ' := by
    split_ifs <;> rfl
  rw [hbefore, hzero, hafter]
  generalize (if (c.flags.MINUS || c.flags.ZERO) = true then 0 else pad_cnt) = before
  generalize (if c.flags.ZERO = true then pad_cnt else 0) = cnt
  generalize (if c.flags.MINUS = true then pad_cnt else 0) = after
  -- A blank for the sign is one more blank before the number.
  have hsign : (sign_char is_signed negative c = some ' ' ∧ (is_signed && negative) = false) ∨
      (sign_char is_signed negative c).toList = [] ∧ (is_signed && negative) = false ∨
      (sign_char is_signed negative c).toList = ['-'] ∧ (is_signed && negative) = true ∨
      (sign_char is_signed negative c).toList = ['+'] ∧ (is_signed && negative) = false := by
    rw [sign_char]
    cases is_signed <;> cases negative <;> cases c.flags.PLUS <;> cases c.flags.SPACE <;> decide
  obtain ⟨hsign, hneg⟩ | ⟨hsign, hneg⟩ | ⟨hsign, hneg⟩ | ⟨hsign, hneg⟩ := hsign
  · rw [hsign, hneg, Option.toList_some, ← List.replicate_succ']
    exact @read_number_run b c value hb x hx [] (.inl rfl) (before + 1) after cnt
  · rw [hneg, List.append_assoc (List.replicate before ' '), hsign]
    exact @read_number_run b c value hb x hx [] (.inl rfl) before after cnt
  · rw [hneg, List.append_assoc (List.replicate before ' '), hsign]
    exact @read_number_run b c value hb x hx ['-'] (.inr (.inl rfl)) before after cnt
  · rw [hneg, List.append_assoc (List.replicate before ' '), hsign]
    exact @read_number_run b c value hb x hx ['+'] (.inr (.inr rfl)) before after cnt

end Reading

section Formatted

variable {b : integer_base} {c : printf_conversion} {value : Nat} {is_signed negative : Bool}

/-- `format_integer` stays in its buffer and outputs a text of the right length that says the number. -/
structure Formatted (value : Nat) (is_signed negative : Bool) (b : integer_base) (c : printf_conversion)
    (text : List Char) : Prop where
  run : Emits (fun _ output aux => format_integer output value is_signed negative b c aux) (some (text.map chr))
  length : text.length = max c.width (body_length value is_signed negative b c)
  reads : read_number b text = some (if is_signed && negative then -(value : Int) else value)

theorem emit_count (text : List Byte) : ∀ {cnt : Nat}, emit (fun _ cnt => cnt + 1) text cnt =
    cnt + text.length := by
  induction text with
  | nil => exact rfl
  | cons ch text ih =>
    intro cnt
    rw [List.length_cons, emit, List.foldl_cons]
    exact ih.trans (by omega)

/-- The padding comes once, unless the flags ask for both blanks after the number and zeros before it. -/
theorem formatted_iff (hb : b ∈ bases) (hvalue : value < 2 ^ 64) :
    (∃ text, Formatted value is_signed negative b c text) ↔
      ¬ (c.flags.MINUS = true ∧ c.flags.ZERO = true ∧ body_length value is_signed negative b c < c.width) := by
  have hrun := format_integer_run hb hvalue is_signed negative c
  have hlength := @number_text_length b c value is_signed negative hb
  constructor
  · rintro ⟨text, hemits, htext, -⟩ ⟨hminus, hzero, hshort⟩
    have hsame : text.length = (number_text is_signed negative value b c (filled value b c)).length := by
      have heq := Option.some.inj ((hemits Nat (fun _ cnt => cnt + 1) 0).symm.trans
          (hrun Nat (fun _ cnt => cnt + 1) 0))
      simp only [emit_count, List.length_map] at heq
      exact Nat.add_left_cancel heq
    rw [hminus, hzero] at hlength
    simp only [Bool.and_self, if_true] at hlength
    omega
  · intro hnot
    refine ⟨_, hrun, ?_, read_number_text hb⟩
    rw [hlength]
    by_cases hboth : (c.flags.MINUS && c.flags.ZERO) = true
    · rw [Bool.and_eq_true] at hboth
      have hle : ¬ (body_length value is_signed negative b c : Int) <
          c.width := fun hlt => hnot ⟨hboth.1, hboth.2, hlt⟩
      rw [show (c.width - body_length value is_signed negative b c).toNat = 0 by omega, Nat.zero_mul]
      omega
    · rw [if_neg hboth]
      omega

end Formatted

section Atoi

/-- `isspace`. -/
def isspace (c : Nat) : Bool := c = 32 || c = 12 || c = 10 || c = 13 || c = 9 || c = 11

/-- An `int`, if it is one. -/
def as_int (x : Int) : Option Int := do
  guard (-2 ^ 31 ≤ x ∧ x < 2 ^ 31)
  return x

/-- The loop of `atoi` over the digits. -/
def atoi_loop : Int → List Byte → Option Int
  | value, [] => some value
  | value, ch :: s =>
    if '0'.toNat ≤ ch.toNat ∧ ch.toNat ≤ '9'.toNat then do
      let value ← as_int (value * 10)
      atoi_loop (← as_int (value - (ch.toNat - '0'.toNat))) s
    else some value

/-- `atoi`, with no result where an `int` overflows. -/
def atoi (s : List Byte) : Option Int := do
  let s := s.dropWhile fun ch => isspace ch.toNat
  let negative : Bool := s.head? = some (chr '-')
  let s := if s.head? = some (chr '+') ∨ s.head? = some (chr '-') then s.tail else s
  let value ← atoi_loop 0 s
  if negative then return value else as_int (-value)

theorem as_int_eq {x : Int} (hlow : -2 ^ 31 ≤ x) (hhigh : x < 2 ^ 31) : as_int x = some x := by
  rw [as_int, guard, if_pos ⟨hlow, hhigh⟩]
  rfl

theorem digit_bytes : ∀ d < 10, (chr (digit_char base_d d)).toNat = 48 + d := by decide

/-- The loop reads decimal digits, on the negative side. -/
theorem atoi_loop_run (ds : List Nat) : ∀ {v : Nat}, (∀ d ∈ ds, d < 10) → digits.read 10 v ds ≤ 2 ^ 31 →
    atoi_loop (-(v : Int)) (ds.map fun d => chr (digit_char base_d d)) =
      some (-((digits.read 10 v ds : Nat) : Int)) := by
  induction ds with
  | nil => exact fun _ _ => rfl
  | cons d ds ih =>
    intro v hds hle
    have hd := hds d List.mem_cons_self
    have hbyte := digit_bytes d hd
    have hread : d + v * 10 ≤ digits.read 10 v (d :: ds) := digits.le_read (by decide) _ ds
    have hzero : '0'.toNat = 48 ∧ '9'.toNat = 57 := by decide
    rw [List.map_cons, atoi_loop, if_pos (by omega), as_int_eq (by omega) (by omega)]
    simp only [Option.bind_eq_bind, Option.bind_some]
    rw [as_int_eq (by omega) (by omega), Option.bind_some]
    have hvalue : -(v : Int) * 10 - (((chr (digit_char base_d d)).toNat : Int) - '0'.toNat) =
        -((d + v * 10 : Nat) : Int) := by
      omega
    rw [hvalue]
    exact ih (fun d hd => hds d (List.mem_cons_of_mem _ hd)) hle

/-- The conversion of `%d`. -/
def decimal : printf_conversion := ⟨{}, 0, -1, .INT⟩

/-- The output of `%d`: the sign, and the digits. -/
theorem decimal_text (n : Int) : ∃ ds : List Nat, ds ≠ [] ∧ (∀ d ∈ ds, d < 10) ∧
    digits.read 10 0 ds = n.natAbs ∧
    number_text true (n < 0) n.natAbs base_d decimal (filled n.natAbs base_d decimal) =
      (if n < 0 then ['-'] else []) ++ ds.map (digit_char base_d) := by
  refine ⟨List.replicate (extra_zeros n.natAbs base_d decimal) 0 ++ (Nat.digits 10 n.natAbs).reverse,
    ?_, ?_, ?_, ?_⟩
  · intro hnil
    have hlen := congrArg List.length hnil
    rw [List.length_append, List.length_replicate, List.length_reverse, List.length_nil] at hlen
    have hextra : 1 - (Nat.digits 10 n.natAbs).length ≤ extra_zeros n.natAbs base_d decimal :=
        Nat.le_add_right _ _
    omega
  · intro d hd
    rw [List.mem_append, List.mem_reverse] at hd
    obtain hd | hd := hd
    · rw [List.eq_of_mem_replicate hd]
      decide
    · exact Nat.digits_lt_base (by decide) hd
  · rw [digits.read_zeros, digits.read_digits]
  · have hfilled : (filled n.natAbs base_d decimal).reverse =
        (List.replicate (extra_zeros n.natAbs base_d decimal) 0 ++ (Nat.digits 10 n.natAbs).reverse).map
          (digit_char base_d) := by
      rw [filled]
      have hbuffer := digit_buffer_eq base_d n.natAbs 0
      rw [show decimal.flags.GROUP = false from rfl, hbuffer, List.reverse_append, List.reverse_replicate,
        List.map_append, List.map_replicate, List.map_reverse]
      rfl
    rw [← hfilled, number_text]
    generalize filled n.natAbs base_d decimal = buf
    by_cases hneg : n < 0
    · simp [decimal, sign_char, hneg]
    · simp [decimal, sign_char, hneg]

/-- The output of `%d` is a number for `atoi`. -/
theorem atoi_decimal {n : Int} (hlow : -2 ^ 31 ≤ n) (hhigh : n < 2 ^ 31) :
    atoi ((number_text true (n < 0) n.natAbs base_d decimal
      (filled n.natAbs base_d decimal)).map chr) = some n := by
  obtain ⟨ds, hnil, hds, hread, htext⟩ := decimal_text n
  have hloop := @atoi_loop_run ds 0 hds (by omega)
  rw [hread] at hloop
  have hchars : (ds.map (digit_char base_d)).map chr = ds.map fun d => chr (digit_char base_d d) := List.map_map
  obtain ⟨d, ds, rfl⟩ := List.exists_cons_of_ne_nil hnil
  -- A digit is no white space and no sign.
  have hdigit : ∀ d < 10, isspace (chr (digit_char base_d d)).toNat = false ∧
      chr (digit_char base_d d) ≠ chr '+' ∧
      chr (digit_char base_d d) ≠ chr '-' := by decide
  obtain ⟨hspace, hplus, hminus⟩ := hdigit d (hds d List.mem_cons_self)
  rw [htext, List.map_append, hchars, atoi]
  by_cases hneg : n < 0
  · rw [if_pos hneg, List.map_singleton, List.singleton_append, List.dropWhile_cons_of_neg (by decide)]
    simp only [List.head?_cons, List.tail_cons, or_true, if_true, decide_true, Option.bind_eq_bind]
    rw [show (0 : Int) = -((0 : Nat) : Int) from rfl, hloop, Option.bind_some]
    exact congrArg some (by omega)
  · rw [if_neg hneg, List.map_nil, List.nil_append, List.map_cons,
      List.dropWhile_cons_of_neg (by simp [hspace])]
    simp only [List.head?_cons, Option.some.injEq, hplus, hminus, or_self, if_false, decide_false,
      Option.bind_eq_bind]
    rw [List.map_cons] at hloop
    rw [show (0 : Int) = -((0 : Nat) : Int) from rfl, hloop, Option.bind_some, if_neg (by decide),
      as_int_eq (by omega) (by omega)]
    exact congrArg some (by omega)

/-- `%d` outputs the digits. -/
theorem full_output_decimal (strings : Bytes) {n : Int} (hlow : -2 ^ 31 ≤ n) (hhigh : n < 2 ^ 31) :
    full_output strings ['%', 'd'] [n] =
      some ((number_text true (n < 0) n.natAbs base_d decimal (filled n.natAbs base_d decimal)).map chr) := by
  have hparse : parse_conversion ['d'] [n] = (decimal, ['d'], [n]) := rfl
  have hrun := @format_integer_run base_d n.natAbs List.mem_cons_self (by omega) true (n < 0) decimal
  have hvalue : signed_argument decimal.type n = n := int32_of_range (by omega) (by omega)
  have hconvert : convert (fun ch text => text ++ [ch]) strings decimal 'd' n [] =
      some ((number_text true (n < 0) n.natAbs base_d decimal (filled n.natAbs base_d decimal)).map chr) := by
    rw [convert, if_pos (.inl rfl), hvalue]
    refine (hrun (List Byte) (fun ch text => text ++ [ch]) []).trans ?_
    rw [Option.map_some, emit_concat, List.nil_append]
  rw [full_output, show turns ['%', 'd'] = 23 + 1 from rfl, vprintf, if_neg (by decide),
    if_neg (by decide), hparse]
  simp only [show unsupported 'd' = none from rfl, List.head?_cons, Option.bind_eq_bind,
    Option.bind_some, hconvert]
  rfl

end Atoi

section Conversions

theorem parse_conversion_range (format : List Char) (args : List Int) :
    0 ≤ (parse_conversion format args).1.width ∧ -1 ≤ (parse_conversion format args).1.precision := by
  simp only [parse_conversion]
  constructor
  · split_ifs <;> omega
  · split
    · simp only
      split_ifs <;> omega
    · exact Int.le_refl _

/-- The flag of blanks after the number and that of zeros before it come together from a `*` whose
argument is negative: the zeros have been kept when there was no `-` yet. -/
theorem parse_conversion_both (format : List Char) (args : List Int) :
    ((parse_conversion format args).1.flags.MINUS = true ∧ (parse_conversion format args).1.flags.ZERO = true) ↔
      (parse_flags format {}).1.MINUS = false ∧ (parse_flags format {}).1.ZERO = true ∧
        (parse_amount (parse_flags format {}).2 args).1 < 0 ∧
        (parse_conversion format args).1.precision < 0 := by
  simp only [parse_conversion]
  generalize parse_flags format {} = parsed
  obtain ⟨flags, rest⟩ := parsed
  generalize parse_amount rest args = amount
  obtain ⟨width, rest', args'⟩ := amount
  simp only
  obtain ⟨minus, plus, space, pound, zero, group⟩ := flags
  cases minus <;> cases zero <;> cases plus <;> by_cases hwidth : width < 0 <;> simp [hwidth]
  all_goals
    generalize (Prod.fst _ : Int) = precision
    split_ifs <;> simp <;> omega

end Conversions

/-- `format_integer` stays in its buffer, outputs as many characters as it should and says the number,
exactly where not both paddings are asked for; `atoi` reads what `%d` outputs. -/
theorem format_integer_reads_back {b : integer_base} (hb : b ∈ bases) {value : Nat} (hvalue : value < 2 ^ 64)
    (is_signed negative : Bool) (c : printf_conversion) :
    ((∃ text, Formatted value is_signed negative b c text) ↔
      ¬ (c.flags.MINUS = true ∧ c.flags.ZERO = true ∧ body_length value is_signed negative b c < c.width)) ∧
    ∀ (strings : Bytes) (n : Int), -2 ^ 31 ≤ n → n < 2 ^ 31 →
      ∃ text, full_output strings ['%', 'd'] [n] = some text ∧ atoi text = some n :=
  ⟨formatted_iff hb hvalue, fun strings _ hlow hhigh =>
    ⟨_, full_output_decimal strings hlow hhigh, atoi_decimal hlow hhigh⟩⟩

theorem format_integer_reads_back_one :
    ((∃ text, Formatted 1 true false base_d ⟨{}, 5, -1, .INT⟩ text) ↔
      ¬ ((⟨{}, 5, -1, .INT⟩ : printf_conversion).flags.MINUS = true ∧
        (⟨{}, 5, -1, .INT⟩ : printf_conversion).flags.ZERO = true ∧
        body_length 1 true false base_d ⟨{}, 5, -1, .INT⟩ < (⟨{}, 5, -1, .INT⟩ : printf_conversion).width)) ∧
    ∀ (strings : Bytes) (n : Int), -2 ^ 31 ≤ n → n < 2 ^ 31 →
      ∃ text, full_output strings ['%', 'd'] [n] = some text ∧ atoi text = some n :=
  format_integer_reads_back List.mem_cons_self (by decide) true false ⟨{}, 5, -1, .INT⟩

/-- "%0*d" with the width -5 and the number 1 outputs four zeros, and four blanks too. -/
theorem format_integer_pads_twice :
    ¬ ∃ text, Formatted 1 true false base_d (parse_conversion ['0', '*', 'd'] [-5, 1]).1 text := by
  rw [formatted_iff List.mem_cons_self (by decide), not_not]
  have hdigits : Nat.digits 10 1 = [1] := by decide
  refine ⟨by decide, by decide, ?_⟩
  simp only [body_length, sign_length, prefix_length, digits_length, extra_zeros, precision_length,
    base_d, hdigits]
  decide

end pintos.lib.stdio
