import Pintos.Lib.Digits
import Pintos.Filesys.Device

/-!
# Formatted output (`lib/stdio.c`)

The conversions of integers: the parsing of a conversion, `format_integer` and
`snprintf`, with what is output as the list of its characters.
-/

open bytes pintos.filesys

namespace pintos.lib

/-- The flags of a conversion. -/
structure printf_flags where
  MINUS : Bool := false
  PLUS : Bool := false
  SPACE : Bool := false
  POUND : Bool := false
  ZERO : Bool := false
  GROUP : Bool := false
  deriving DecidableEq

/-- Type of argument to format. -/
inductive argument_type where
  | CHAR
  | SHORT
  | INT
  | INTMAX
  | LONG
  | LONGLONG
  | PTRDIFFT
  | SIZET
  deriving DecidableEq

/-- A printf() conversion. -/
structure printf_conversion where
  flags : printf_flags
  width : Int
  precision : Int
  type : argument_type
  deriving DecidableEq

structure integer_base where
  base : Nat
  digits : List Char
  x : Option Char
  group : Nat
  one_lt : 1 < base

def base_d : integer_base :=
  ⟨10, ['0', '1', '2', '3', '4', '5', '6', '7', '8', '9'], none, 3, by decide⟩

def base_o : integer_base := ⟨8, ['0', '1', '2', '3', '4', '5', '6', '7'], none, 3, by decide⟩

def base_x : integer_base :=
  ⟨16, ['0', '1', '2', '3', '4', '5', '6', '7', '8', '9', 'a', 'b', 'c', 'd', 'e', 'f'], some 'x', 4,
    by decide⟩

def base_X : integer_base :=
  ⟨16, ['0', '1', '2', '3', '4', '5', '6', '7', '8', '9', 'A', 'B', 'C', 'D', 'E', 'F'], some 'X', 4,
    by decide⟩

/-- The flag characters at the start of `format`. -/
def parse_flags : List Char → printf_flags → printf_flags × List Char
  | '-' :: format, flags => parse_flags format { flags with MINUS := true }
  | '+' :: format, flags => parse_flags format { flags with PLUS := true }
  | ' ' :: format, flags => parse_flags format { flags with SPACE := true }
  | '#' :: format, flags => parse_flags format { flags with POUND := true }
  | '0' :: format, flags => parse_flags format { flags with ZERO := true }
  | '\'' :: format, flags => parse_flags format { flags with GROUP := true }
  | format, flags => (flags, format)

/-- The decimal number at the start of `format`, after `n`. -/
def parse_number : List Char → Int → Int × List Char
  | [], n => (n, [])
  | c :: format, n =>
    if c.isDigit then parse_number format (n * 10 + c.toNat - '0'.toNat) else (n, c :: format)

/-- A number, or the next argument for a `*`. -/
def parse_amount (format : List Char) (args : List Int) : Int × List Char × List Int :=
  match format, args with
  | '*' :: format, arg :: args => (arg, format, args)
  | format, args =>
    let (n, format) := parse_number format 0
    (n, format, args)

def parse_type : List Char → argument_type × List Char
  | 'h' :: 'h' :: format => (.CHAR, format)
  | 'h' :: format => (.SHORT, format)
  | 'j' :: format => (.INTMAX, format)
  | 'l' :: 'l' :: format => (.LONGLONG, format)
  | 'l' :: format => (.LONG, format)
  | 't' :: format => (.PTRDIFFT, format)
  | 'z' :: format => (.SIZET, format)
  | format => (.INT, format)

/-- `parse_conversion`: the conversion at the start of `format`, with the character
that says which and the arguments left. -/
def parse_conversion (format : List Char) (args : List Int) :
    printf_conversion × List Char × List Int :=
  let (flags, format) := parse_flags format {}
  let flags := if flags.MINUS then { flags with ZERO := false } else flags
  let flags := if flags.PLUS then { flags with SPACE := false } else flags
  let (width, format, args) := parse_amount format args
  let flags := if width < 0 then { flags with MINUS := true } else flags
  let width := if width < 0 then -width else width
  let (precision, format, args) : Int × List Char × List Int :=
    match format with
    | '.' :: format =>
      let (precision, format, args) := parse_amount format args
      (if precision < 0 then -1 else precision, format, args)
    | format => (-1, format, args)
  let flags := if precision ≥ 0 then { flags with ZERO := false } else flags
  let (type, format) := parse_type format
  (⟨flags, width, precision, type⟩, format, args)

/-- The digits of `value` in the buffer, the least significant first. -/
def digit_buffer (b : integer_base) (group : Bool) (value digit_cnt : Nat) : List Char :=
  if value = 0 then []
  else
    (if group && 0 < digit_cnt && digit_cnt % b.group = 0 then [','] else []) ++
      b.digits.getD (value % b.base) '0' :: digit_buffer b group (value / b.base) (digit_cnt + 1)
termination_by value
decreasing_by exact Nat.div_lt_self (Nat.pos_of_ne_zero ‹_›) b.one_lt

/-- `format_integer`. -/
def format_integer (value : Nat) (is_signed negative : Bool) (b : integer_base) (c : printf_conversion) :
    List Char :=
  let sign : List Char :=
    if is_signed then
      if c.flags.PLUS then if negative then ['-'] else ['+']
      else if c.flags.SPACE then if negative then ['-'] else [' ']
      else if negative then ['-'] else []
    else []
  let x : List Char :=
    if c.flags.POUND && value ≠ 0 then (b.x.map fun x => ['0', x]).getD [] else []
  let buf := digit_buffer b c.flags.GROUP value 0
  let precision := if c.precision < 0 then 1 else c.precision.toNat
  let buf := buf ++ List.replicate (min precision 63 - buf.length) '0'
  let buf := if c.flags.POUND && b.base = 8 && buf.getLast? ≠ some '0' then buf ++ ['0'] else buf
  let pad_cnt := (c.width - buf.length - x.length - sign.length).toNat
  (if c.flags.MINUS || c.flags.ZERO then [] else List.replicate pad_cnt ' ') ++ sign ++ x ++
    (if c.flags.ZERO then List.replicate pad_cnt '0' else []) ++ buf.reverse ++
    if c.flags.MINUS then List.replicate pad_cnt ' ' else []

/-- The value of an unsigned argument of the given type. -/
def unsigned_argument (type : argument_type) (arg : Int) : Nat :=
  match type with
  | .CHAR => (arg % 2 ^ 8).toNat
  | .SHORT => (arg % 2 ^ 16).toNat
  | .INT | .LONG | .PTRDIFFT | .SIZET => (arg % 2 ^ 32).toNat
  | .INTMAX | .LONGLONG => (arg % 2 ^ 64).toNat

/-- The base of an unsigned conversion. -/
def unsigned_base : Char → Option integer_base
  | 'o' => some base_o
  | 'u' => some base_d
  | 'x' => some base_x
  | 'X' => some base_X
  | _ => none

/-- `__vprintf` for formats whose conversions are unsigned ones, with no result for
another format. A format has no more conversions than characters: `fuel` is its length. -/
def vprintf (fuel : Nat) (format : List Char) (args : List Int) : Option (List Char) :=
  match fuel, format with
  | _, [] => some []
  | 0, _ => none
  | fuel + 1, '%' :: '%' :: format => do return '%' :: (← vprintf fuel format args)
  | fuel + 1, '%' :: format =>
    match parse_conversion format args with
    | (c, conversion :: format, arg :: args) => do
      let b ← unsigned_base conversion
      return format_integer (unsigned_argument c.type arg) false false b c ++ (← vprintf fuel format args)
    | _ => none
  | fuel + 1, ch :: format => do return ch :: (← vprintf fuel format args)

/-- The byte of a character. -/
def chr (c : Char) : Byte := BitVec.ofNat 8 c.toNat

/-- The bytes `s`, written at `ofs` of `buffer`. -/
def store (buffer : Bytes) (ofs : Nat) (s : List Byte) : Bytes := fun i =>
  if ofs ≤ i ∧ i < ofs + s.length then s.getD (i - ofs) 0 else buffer i

/-- `snprintf` into the `buf_size` bytes at `ofs` of `buffer`. -/
def snprintf (buffer : Bytes) (ofs buf_size : Nat) (format : List Char) (args : List Int) : Option Bytes := do
  let out ← vprintf format.length format args
  return if 0 < buf_size then store buffer ofs ((out.map chr).take (buf_size - 1) ++ [0]) else buffer

/-- `strlcpy` of the string `src` to the `size` bytes at `ofs` of `dst`. -/
def strlcpy (dst : Bytes) (ofs : Nat) (src : List Byte) (size : Nat) : Bytes :=
  if 0 < size then store dst ofs (src.take (size - 1) ++ [0]) else dst

/-! ## Octal numbers -/

/-- The digits in the buffer are the digits of the number. -/
theorem digit_buffer_eq (b : integer_base) (value digit_cnt : Nat) :
    digit_buffer b false value digit_cnt =
      (Nat.digits b.base value).map fun d => b.digits.getD d '0' := by
  induction value using Nat.strongRecOn generalizing digit_cnt with
  | ind value ih =>
    rw [digit_buffer]
    split
    · next hzero => simp [hzero]
    · next hne =>
      have hpos : 0 < value := Nat.pos_of_ne_zero hne
      rw [ih _ (Nat.div_lt_self hpos b.one_lt), Nat.digits_def' b.one_lt hpos]
      simp

/-- The conversion of `%0<n>o`. -/
def octal (n : Int) : printf_conversion := ⟨{ ZERO := true }, n, -1, .INT⟩

/-- The characters of `value` in octal. -/
def octal_digits (value : Nat) : List Char :=
  ((Nat.digits 8 value).reverse).map fun d => base_o.digits.getD d '0'

/-- `%0<n>o` fills the number up with zeros, when it has no more than `n` digits. -/
theorem format_integer_octal {value n : Nat} (hn : 0 < n) (hvalue : value < 8 ^ n) :
    (format_integer value false false base_o (octal n)).length = n ∧
      ∃ k, format_integer value false false base_o (octal n) = List.replicate k '0' ++ octal_digits value := by
  have hlen : (Nat.digits 8 value).length ≤ n := (Nat.digits_length_le_iff (by decide) value).mpr hvalue
  -- The precision makes the number at least one digit long, and the width fills it up.
  have hformat : format_integer value false false base_o (octal n) =
      List.replicate (n - ((Nat.digits 8 value).length + (1 - (Nat.digits 8 value).length))) '0' ++
        (List.replicate (1 - (Nat.digits 8 value).length) '0' ++ octal_digits value) := by
    have hcnt : ((n : Int) - ((Nat.digits 8 value).length + (1 - (Nat.digits 8 value).length : Nat))).toNat =
        n - ((Nat.digits 8 value).length + (1 - (Nat.digits 8 value).length)) := by omega
    simp [format_integer, octal, digit_buffer_eq, octal_digits, base_o, hcnt]
  rw [hformat, ← List.append_assoc, List.replicate_append_replicate]
  refine ⟨?_, _, rfl⟩
  simp only [octal_digits, List.length_append, List.length_replicate, List.length_map, List.length_reverse]
  omega

end pintos.lib
