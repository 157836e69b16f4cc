import Pintos.Lib.Bytes
import Pintos.Lib.StateError
import Pintos.Lib.Words

/-!
# Argument passing (`userprog/process.c`, `lib/string.c`)

`set_argv` cuts the command line into tokens in place, and `set_stack` lays them out
on the stack of the new process. A pointer into the command line is the position in
it; an address of user memory is a number below 2^32.
-/

open bytes state_error

namespace pintos.userprog

/-- A `char`. -/
abbrev Byte := BitVec 8

/-- The command line, the array of pointers into it, and the memory of the new
process, the addresses that it can be written at, and the stack pointer. -/
structure Args where
  line : Nat → Byte
  argv : Nat → Nat
  mem : Nat → Byte
  mapped : Nat → Bool
  esp : Nat

/-- What can go wrong: a fault of the kernel, a store past the end of `argv`, or a loop
over a string without an end. -/
inductive Fault where
  | page_fault
  | argv_overflow
  | endless
  deriving DecidableEq, Repr

/-- Code that passes arguments. -/
abbrev Passing (α : Type) := Exec Args Fault α

/-- The number of pointers in `argv`. -/
def ARGV_CNT : Nat := 128

/-- `strchr (delimiters, c) != NULL`: the null byte at the end counts. -/
def strchr (delimiters : List Byte) (c : Byte) : Bool := c ∈ delimiters || c == 0

/-- `*s`. -/
def char_at (s : Nat) : Passing Byte := do
  let t ← Exec.get
  return t.line s

/-- The loop of `strtok_r` over delimiters: whether a token follows, and where. -/
def skip_delimiters (delimiters : List Byte) : Nat → Nat → Passing (Bool × Nat)
  | 0, _ => Exec.throw .endless
  | n + 1, s => do
    let c ← char_at s
    if strchr delimiters c then
      if c = 0 then return (false, s) else skip_delimiters delimiters n (s + 1)
    else return (true, s)

/-- The loop of `strtok_r` over a token: where it ends. -/
def skip_token (delimiters : List Byte) : Nat → Nat → Passing Nat
  | 0, _ => Exec.throw .endless
  | n + 1, s => do
    let c ← char_at s
    if strchr delimiters c then return s else skip_token delimiters n (s + 1)

/-- `strtok_r` from position `s` on: the token, and the position that is saved. The
loops run over at most `len` characters. -/
def strtok_r (len : Nat) (delimiters : List Byte) (s : Nat) : Passing (Option Nat × Nat) := do
  let (found, s) ← skip_delimiters delimiters (len + 1) s
  if found then
    let token := s
    let s ← skip_token delimiters (len + 1) s
    let c ← char_at s
    if c ≠ 0 then
      Exec.modify fun t => { t with line := fun i => if i = s then 0 else t.line i }
      return (some token, s + 1)
    else return (some token, s)
  else return (none, s)

/-- `" "`. -/
def SPACE : Byte := 32

/-- The loop of `set_argv`, after `strtok_r` has returned `token`. -/
def set_argv_loop (len : Nat) : Nat → Option Nat × Nat → Nat → Passing Nat
  | _, (none, _), argc => return argc
  | 0, (some _, _), _ => Exec.throw .endless
  | n + 1, (some token, temp_ptr), argc => do
    Exec.ASSERT (argc < ARGV_CNT) .argv_overflow
    Exec.modify fun t => { t with argv := fun i => if i = argc then token else t.argv i }
    let next ← strtok_r len [SPACE] temp_ptr
    set_argv_loop len n next (argc + 1)

/-- `set_argv`, on a command line of `len` characters: the number of tokens. -/
def set_argv (len : Nat) : Passing Nat := do
  let next ← strtok_r len [SPACE] 0
  set_argv_loop len (len + 1) next 0

/-- The loop of `strlen`. -/
def strlen_loop (s : Nat) : Nat → Nat → Passing Nat
  | 0, _ => Exec.throw .endless
  | n + 1, i => do
    let c ← char_at (s + i)
    if c = 0 then return i else strlen_loop s n (i + 1)

/-- `strlen`. -/
def strlen (len s : Nat) : Passing Nat := strlen_loop s (len + 1) 0

/-- `*esp -= n`, on a 32-bit pointer. -/
def lower_esp (n : Nat) : Passing Unit :=
  Exec.modify fun t => { t with esp := (t.esp + (2 ^ 32 - n)) % 2 ^ 32 }

/-- The `n` bytes that the stack pointer points to can be written. -/
def check_esp (n : Nat) : Passing Unit := do
  let t ← Exec.get
  Exec.ASSERT (∀ i < n, t.mapped (t.esp + i) = true) .page_fault

/-- Store a word where the stack pointer points. -/
def store_esp (w : Nat) : Passing Unit := do
  check_esp 4
  Exec.modify fun t => { t with mem := store_word t.mem t.esp w }

/-- The first loop of `set_stack`, for `argv[i - 1]` down to `argv[0]`: the copies are
put on the stack and their addresses into `address`. `block` says whether `malloc` has
returned a block for these; without one, `address` is a null pointer. -/
def copy_args (len : Nat) (block : Bool) : Nat → Nat → (Nat → Nat) → Passing (Nat × (Nat → Nat))
  | 0, mem_use, address => return (mem_use, address)
  | i + 1, mem_use, address => do
    let t ← Exec.get
    let arg_len := (← strlen len (t.argv i)) + 1
    lower_esp arg_len
    check_esp arg_len
    Exec.modify fun u => { u with mem := copy u.mem u.esp u.line (t.argv i) arg_len }
    Exec.ASSERT (block = true) .page_fault
    let u ← Exec.get
    copy_args len block i (mem_use + arg_len) fun j => if j = i then u.esp else address j

/-- The second loop of `set_stack`, for `address[i - 1]` down to `address[0]`. -/
def push_addresses (address : Nat → Nat) : Nat → Passing Unit
  | 0 => return ()
  | i + 1 => do
    lower_esp 4
    store_esp (address i)
    push_addresses address i

/-- `set_stack`. -/
def set_stack (len : Nat) (block : Bool) (argc : Nat) : Passing Unit := do
  let (mem_use, address) ← copy_args len block argc 0 fun _ => 0
  let word_align := if mem_use % 4 ≠ 0 then 4 - mem_use % 4 else 0
  lower_esp word_align
  lower_esp 4
  store_esp 0
  push_addresses address argc
  let temp := (← Exec.get).esp
  lower_esp 4
  store_esp temp
  lower_esp 4
  store_esp argc
  lower_esp 4
  store_esp 0

end pintos.userprog
