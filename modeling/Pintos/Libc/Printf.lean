import Pintos.Archive.Format
import Pintos.Lib.TwosComplement

/-!
# Formatted output with a callback (`lib/stdio.c`)

`__vprintf` and what it calls, with the buffer of `format_integer` and the function `output` that
gets each character together with its auxiliary data.
-/

open bytes twos_complement pintos.filesys

namespace pintos.lib.stdio

section Code

variable {σ : Type} (output : Byte → σ → σ)

/-- `output_dup`. -/
def output_dup (ch : Char) : Nat → σ → σ
  | 0, aux => aux
  | cnt + 1, aux => output_dup ch cnt (output (chr ch) aux)

/-- `sizeof buf`. -/
def sizeof_buf : Nat := 64

/-- `*cp++ = ch`, where the characters before `cp` are `buf`. -/
def put (buf : List Char) (ch : Char) : Option (List Char) := do
  guard (buf.length < sizeof_buf)
  return buf ++ [ch]

/-- Accumulate digits into the buffer. -/
def put_digits (b : integer_base) (group : Bool) (value digit_cnt : Nat) (buf : List Char) :
    Option (List Char) :=
  if value = 0 then some buf
  else do
    let buf ← if group && 0 < digit_cnt && digit_cnt % b.group = 0 then put buf ',' else some buf
    let buf ← put buf (← b.digits[value % b.base]?)
    put_digits b group (value / b.base) (digit_cnt + 1) buf
termination_by value
decreasing_by exact Nat.div_lt_self (Nat.pos_of_ne_zero ‹_›) b.one_lt

/-- Append enough zeros to match precision. There is no result where `fuel` turns do not do. -/
def put_zeros (precision : Int) : (fuel : Nat) → List Char → Option (List Char)
  | 0, _ => none
  | fuel + 1, buf =>
    if buf.length < precision ∧ buf.length < sizeof_buf - 1 then do put_zeros precision fuel (← put buf '0')
    else some buf

/-- The characters in the buffer before the output. -/
def fill_buf (value : Nat) (b : integer_base) (c : printf_conversion) : Option (List Char) := do
  let buf ← put_digits b c.flags.GROUP value 0 []
  let precision := if c.precision < 0 then 1 else c.precision
  let buf ← put_zeros precision (sizeof_buf + 1) buf
  if c.flags.POUND && b.base = 8 && (buf = [] || buf.getLast? ≠ some '0') then put buf '0' else return buf

/-- The sign character, if any. -/
def sign_char (is_signed negative : Bool) (c : printf_conversion) : Option Char :=
  if is_signed then
    if c.flags.PLUS then some (if negative then '-' else '+')
    else if c.flags.SPACE then some (if negative then '-' else ' ')
    else if negative then some '-' else none
  else none

/-- `while (cp > buf) output (*--cp, aux)`. -/
def output_back (buf : List Char) (aux : σ) : σ := buf.foldr (fun ch aux => output (chr ch) aux) aux

/-- `format_integer`. -/
def format_integer (value : Nat) (is_signed negative : Bool) (b : integer_base)
    (c : printf_conversion) (aux : σ) :
    Option σ := do
  let sign := sign_char is_signed negative c
  let x := if c.flags.POUND && value ≠ 0 then b.x else none
  let buf ← fill_buf value b c
  let pad_cnt := c.width - buf.length - (if x.isSome then 2 else 0) - if sign.isSome then 1 else 0
  let pad_cnt := if pad_cnt < 0 then 0 else pad_cnt.toNat
  let aux := if !(c.flags.MINUS || c.flags.ZERO) then output_dup output ' ' pad_cnt aux else aux
  let aux := match sign with
    | some sign => output (chr sign) aux
    | none => aux
  let aux := match x with
    | some x => output (chr x) (output (chr '0') aux)
    | none => aux
  let aux := if c.flags.ZERO then output_dup output '0' pad_cnt aux else aux
  let aux := output_back output buf aux
  return if c.flags.MINUS then output_dup output ' ' pad_cnt aux else aux

/-- The loop of `format_string`: `cnt` characters are left, from `i` on. -/
def output_string (string : Bytes) : (cnt i : Nat) → σ → σ
  | 0, _, aux => aux
  | cnt + 1, i, aux => output_string string cnt (i + 1) (output (string i) aux)

/-- `format_string`. -/
def format_string (string : Bytes) (length : Nat) (c : printf_conversion) (aux : σ) : σ :=
  let aux := if c.width > length && !c.flags.MINUS then output_dup output ' '
    (c.width - length).toNat aux else aux
  let aux := output_string output string length 0 aux
  if c.width > length && c.flags.MINUS then output_dup output ' ' (c.width - length).toNat aux else aux

/-- The loop of `strnlen`. -/
def strnlen_loop (string : Bytes) : (left length : Nat) → Nat
  | 0, length => length
  | left + 1, length => if string length = 0 then length else strnlen_loop string left (length + 1)

/-- `strnlen`. -/
def strnlen (string : Bytes) (maxlen : Nat) : Nat := strnlen_loop string maxlen 0

/-- The value of a signed argument of the given type. -/
def signed_argument (type : argument_type) (arg : Int) : Int :=
  match type with
  | .CHAR => wrap 8 arg
  | .SHORT => wrap 16 arg
  | .INT | .LONG | .PTRDIFFT | .SIZET => int32 arg
  | .INTMAX | .LONGLONG => int64 arg

/-- "(null)". -/
def null_string : Bytes := fun i => (['(', 'n', 'u', 'l', 'l', ')'].map chr).getD i 0

/-- What is printed instead of a conversion that there is not, as a format. -/
def unsupported (conversion : Char) : Option (List Char) :=
  if conversion ∈ ['d', 'i', 'o', 'u', 'x', 'X', 'c', 's', 'p'] then none
  else if conversion ∈ ['f', 'e', 'E', 'g', 'G', 'n'] then some "<<no %%%c in kernel>>".toList
  else some "<<no %%%c conversion>>".toList

/-- Do a conversion. The strings that arguments point to are in `strings`. -/
def convert (strings : Bytes) (c : printf_conversion) (conversion : Char) (arg : Int) (aux : σ) : Option σ :=
  if conversion = 'd' ∨ conversion = 'i' then
    let value := signed_argument c.type arg
    format_integer output value.natAbs true (value < 0) base_d c aux
  else if conversion = 'c' then return format_string output (fun _ => BitVec.ofInt 8 arg) 1 c aux
  else if conversion = 's' then
    let s := if arg % 2 ^ 32 = 0 then null_string else drop strings (arg % 2 ^ 32).toNat
    return format_string output s (strnlen s (c.precision % 2 ^ 32).toNat) c aux
  else if conversion = 'p' then
    format_integer output (arg % 2 ^ 32).toNat false false base_x { c with flags := { POUND := true } } aux
  else do
    let b ← unsigned_base conversion
    format_integer output (unsigned_argument c.type arg) false false b c aux

/-- `__vprintf`, for at most `fuel` turns in the format and in the format of a message. -/
def vprintf (strings : Bytes) : (fuel : Nat) → List Char → List Int → σ → Option σ
  | _, [], _, aux => some aux
  | 0, _ :: _, _, _ => none
  | fuel + 1, ch :: format, args, aux =>
    if ch ≠ '%' then vprintf strings fuel format args (output (chr ch) aux)
    else if format.head? = some '%' then vprintf strings fuel format.tail args (output (chr '%') aux)
    else
      match parse_conversion format args with
      | (_, [], _) => none
      | (c, conversion :: format, args) =>
        match unsupported conversion with
        | some message => do
          let aux ← vprintf strings fuel message [(conversion.toNat : Int)] aux
          vprintf strings fuel format args aux
        | none => do
          let aux ← convert output strings c conversion (← args.head?) aux
          vprintf strings fuel format args.tail aux

end Code

/-- The number of turns that do for a format. -/
def turns (format : List Char) : Nat := format.length + 22

/-- Auxiliary data for `vsnprintf_helper`; `p` is an offset in the buffer. -/
structure vsnprintf_aux where
  buffer : Bytes
  p : Nat
  length : Int
  max_length : Int

/-- `vsnprintf_helper`. -/
def vsnprintf_helper (ch : Byte) (aux : vsnprintf_aux) : vsnprintf_aux :=
  if aux.length < aux.max_length then
    { aux with length := int32 (aux.length + 1), buffer := Function.update aux.buffer aux.p ch, p := aux.p + 1 }
  else { aux with length := int32 (aux.length + 1) }

/-- `vsnprintf`: the memory from the buffer on, and the result. -/
def vsnprintf (strings buffer : Bytes) (buf_size : Nat) (format : List Char) (args : List Int) :
    Option (Bytes × Int) := do
  let max_length := int32 (if buf_size > 0 then buf_size - 1 else 0)
  let aux ← vprintf vsnprintf_helper strings (turns format) format args
    { buffer, p := 0, length := 0, max_length }
  return (if buf_size > 0 then Function.update aux.buffer aux.p 0 else aux.buffer, aux.length)

/-- The full output. -/
def full_output (strings : Bytes) (format : List Char) (args : List Int) : Option (List Byte) :=
  vprintf (fun ch text => text ++ [ch]) strings (turns format) format args []

end pintos.lib.stdio
