import Mathlib.Algebra.Order.Ring.Int
import Mathlib.Tactic.Common

/-!
# Bitmaps of the list library (`bitmap.c`)

Elements have 64 bits. Single bits are changed by assembly instructions on 32-bit
operands, which work on the low half of an element; `bitmap_test` works on elements.
-/

namespace pintos.prj0_2

/-- `elem_type`. -/
abbrev Elem := BitVec 64

/-- `ELEM_BITS`. -/
def ELEM_BITS : Nat := 64

/-- A bitmap: the number of bits, and the elements in its block of memory. -/
structure bitmap where
  bit_cnt : Nat
  bits : List Elem
  deriving DecidableEq, Repr

/-- A failed `ASSERT`, or an access outside the block. -/
inductive Fault where
  | assert
  | outside
  deriving DecidableEq, Repr

/-- `elem_idx`. -/
def elem_idx (bit_idx : Nat) : Nat := bit_idx / ELEM_BITS

/-- `bit_mask`. -/
def bit_mask (bit_idx : Nat) : Elem := 1#64 <<< (bit_idx % ELEM_BITS)

/-- `elem_cnt`, where the sum is of type `size_t`. -/
def elem_cnt (bit_cnt : Nat) : Nat := (bit_cnt + ELEM_BITS - 1) % 2 ^ 64 / ELEM_BITS

/-- An instruction on 32-bit operands: it replaces the low half of the element. -/
def low_half (op : BitVec 32 → BitVec 32 → BitVec 32) (elem mask : Elem) : Elem :=
  elem.extractLsb' 32 32 ++ op (elem.setWidth 32) (mask.setWidth 32)

/-- An instruction on `b->bits[idx]`. -/
def on_elem (b : bitmap) (idx : Nat) (f : Elem → Elem) : Except Fault bitmap :=
  match b.bits[idx]? with
  | some elem => .ok { b with bits := b.bits.set idx (f elem) }
  | none => .error .outside

/-- `bitmap_mark`: `orl`. -/
def bitmap_mark (b : bitmap) (bit_idx : Nat) : Except Fault bitmap :=
  on_elem b (elem_idx bit_idx) fun elem => low_half (· ||| ·) elem (bit_mask bit_idx)

/-- `bitmap_reset`: `andl`. -/
def bitmap_reset (b : bitmap) (bit_idx : Nat) : Except Fault bitmap :=
  on_elem b (elem_idx bit_idx) fun elem => low_half (· &&& ·) elem (~~~bit_mask bit_idx)

/-- `bitmap_flip`: `xorl`. -/
def bitmap_flip (b : bitmap) (bit_idx : Nat) : Except Fault bitmap :=
  on_elem b (elem_idx bit_idx) fun elem => low_half (· ^^^ ·) elem (bit_mask bit_idx)

/-- `bitmap_set`. -/
def bitmap_set (b : bitmap) (idx : Nat) (value : Bool) : Except Fault bitmap :=
  if idx < b.bit_cnt then
    if value then bitmap_mark b idx else bitmap_reset b idx
  else .error .assert

/-- `bitmap_test`. -/
def bitmap_test (b : bitmap) (idx : Nat) : Except Fault Bool :=
  if idx < b.bit_cnt then
    match b.bits[elem_idx idx]? with
    | some elem => .ok (elem &&& bit_mask idx ≠ 0)
    | none => .error .outside
  else .error .assert

/-- The loop of `bitmap_set_multiple`, from bit `i` on. -/
def set_loop (value : Bool) : Nat → Nat → bitmap → Except Fault bitmap
  | 0, _, b => .ok b
  | n + 1, i, b => do set_loop value n (i + 1) (← bitmap_set b i value)

/-- `bitmap_set_multiple`. -/
def bitmap_set_multiple (b : bitmap) (start cnt : Nat) (value : Bool) : Except Fault bitmap :=
  if start ≤ b.bit_cnt ∧ (start + cnt) % 2 ^ 64 ≤ b.bit_cnt then set_loop value cnt start b
  else .error .assert

/-- `bitmap_create`, in a block that `malloc` returns with these elements in it. -/
def bitmap_create (bit_cnt : Nat) (block : Nat → Elem) : Except Fault bitmap :=
  bitmap_set_multiple { bit_cnt, bits := (List.range (elem_cnt bit_cnt)).map block } 0 bit_cnt false

/-- The loop of `bitmap_expand`. -/
def expand_loop (b : bitmap) : Nat → Nat → bitmap → Except Fault bitmap
  | 0, _, new_b => .ok new_b
  | n + 1, i, new_b => do expand_loop b n (i + 1) (← bitmap_set new_b i (← bitmap_test b i))

/-- `bitmap_expand`, with the block for the new bitmap. -/
def bitmap_expand (b : bitmap) (size : Nat) (block : Nat → Elem) : Except Fault bitmap := do
  let new_b ← bitmap_create ((b.bit_cnt + size) % 2 ^ 64) block
  expand_loop b b.bit_cnt 0 new_b

/-- A call that changes a bitmap. -/
inductive Op where
  | mark (bit_idx : Nat)
  | reset (bit_idx : Nat)
  | flip (bit_idx : Nat)
  | set (idx : Nat) (value : Bool)
  | set_multiple (start cnt : Nat) (value : Bool)
  | expand (size : Nat) (block : Nat → Elem)

/-- What the call does to the bitmap. -/
def Op.exec : Op → bitmap → Except Fault bitmap
  | .mark i, b => bitmap_mark b i
  | .reset i, b => bitmap_reset b i
  | .flip i, b => bitmap_flip b i
  | .set i value, b => bitmap_set b i value
  | .set_multiple start cnt value, b => bitmap_set_multiple b start cnt value
  | .expand size block, b => bitmap_expand b size block

/-- What the call does to a list of truth values. -/
def Op.apply : Op → List Bool → List Bool
  | .mark i, l => l.set i true
  | .reset i, l => l.set i false
  | .flip i, l => l.modify i not
  | .set i value, l => l.set i value
  | .set_multiple start cnt value, l => l.mapIdx fun i v => if start ≤ i ∧ i < start + cnt then value else v
  | .expand size _, l => l ++ List.replicate size false

/-- The arguments are in range. -/
def Op.InRange (l : List Bool) : Op → Prop
  | .mark i | .reset i | .flip i | .set i _ => i < l.length
  | .set_multiple start cnt _ => start + cnt ≤ l.length
  | .expand size _ => size < 2 ^ 31

/-- The block that the bits are in after the call. -/
def Op.block : Op → (Nat → Elem) → Nat → Elem
  | .expand _ block, _ => block
  | _, block => block

/-- A new bitmap after some calls. -/
def run (n : Nat) (block : Nat → Elem) (ops : List Op) : Except Fault bitmap := do
  ops.foldlM (fun b op => op.exec b) (← bitmap_create n block)

/-- The truth values after some calls. -/
def model (n : Nat) (ops : List Op) : List Bool := ops.foldl (fun l op => op.apply l) (List.replicate n false)

/-- The block that the bits are in after some calls. -/
def current_block (block : Nat → Elem) (ops : List Op) : Nat →
    Elem := ops.foldl (fun block op => op.block block) block

end pintos.prj0_2
