import Pintos.Prj0.Bitmap
import Pintos.Prj0.HashCommands
import Mathlib.Data.Fin.Tuple.Basic

/-!
# The name table of the list library's program (`main.c`)

Lists, hash tables and bitmaps each have an array of slots, which point to cores that
`malloc` returned. Commands take names from their input and work on the cores of the
slots that the names lead to.
-/

open pintos.kernel

namespace pintos.prj0_2

abbrev ARRAY_SIZE : Nat := 10

/-- `struct list_name`, `hash_name` or `bitmap_name`; the last has no `allocated`. -/
structure slot where
  core : Option Nat
  name : List Char
  allocated : Bool
  used : Bool
  deriving DecidableEq, Repr

/-- An array, the cores of its kind that are there, and how many were allocated and how
often each was freed. -/
structure Table (α : Type) where
  slots : Fin ARRAY_SIZE → slot
  heap : Nat → Option α
  mallocs : Nat
  frees : Nat → Nat

/-- What ends the program: a core that is `NULL` or was freed, a name too long for its
block of 50 characters, or a fault in an operation on the contents of cores. -/
inductive Crash where
  | null
  | freed
  | overflow
  | contents (fault : Fault)
  deriving DecidableEq, Repr

section Table

variable {α : Type}

/-- The array before `main`. -/
def Table.zero : Table α where
  slots _ := ⟨none, [], false, false⟩
  heap _ := none
  mallocs := 0
  frees _ := 0

def Table.set_slot (t : Table α) (i : Fin ARRAY_SIZE) (s : slot) : Table α :=
  { t with slots := Function.update t.slots i s }

/-- A store to a core. -/
def Table.put (t : Table α) (c : Nat) (a : α) : Table α := { t with heap := Function.update t.heap c (some a) }

/-- `malloc` of a core for slot `i`. -/
def Table.malloc (t : Table α) (i : Fin ARRAY_SIZE) (a : α) : Table α :=
  { t with
    slots := Function.update t.slots i { t.slots i with core := some t.mallocs }
    heap := Function.update t.heap t.mallocs (some a)
    mallocs := t.mallocs + 1 }

/-- `free` of a core that is there. -/
def Table.free (t : Table α) (c : Nat) : Table α :=
  { t with heap := Function.update t.heap c none, frees := Function.update t.frees c (t.frees c + 1) }

/-- The core that slot `i` points to, and its contents. -/
def Table.core (t : Table α) (i : Fin ARRAY_SIZE) : Except Crash (Nat × α) :=
  match (t.slots i).core with
  | none => .error .null
  | some c =>
    match t.heap c with
    | none => .error .freed
    | some a => .ok (c, a)

/-- `findEmptyIndex`; `none` is -1. -/
def findEmptyIndex (t : Table α) : Option (Fin ARRAY_SIZE) :=
  Fin.find? fun i => (t.slots i).used = false

/-- `findTargetIndex`. -/
def findTargetIndex (t : Table α) (targetName : List Char) : Option (Fin ARRAY_SIZE) :=
  Fin.find? fun i => (t.slots i).name = targetName

/-- `getName`, on a name without separators. -/
def getName (name : List Char) : Except Crash (List Char) :=
  if name.length < 50 then .ok name else .error .overflow

/-- An operation on the contents of cores. -/
def on_contents {β : Type} : Except Fault β → Except Crash β
  | .ok b => .ok b
  | .error fault => .error (.contents fault)

/-- The new name of a slot, which is used from now on. -/
def Table.enter (t : Table α) (i : Fin ARRAY_SIZE) (name : List Char) : Table α :=
  t.set_slot i { t.slots i with name, used := true }

/-- The core of slot `i` is allocated, unless it was before; `init` makes its contents. -/
def Table.allocate (t : Table α) (i : Fin ARRAY_SIZE) (init : Except Crash α) : Except Crash (Table α) :=
  if (t.slots i).allocated then .ok t
  else do
    let t := t.malloc i (← init)
    .ok (t.set_slot i { t.slots i with allocated := true })

/-- `createList` and `createHashtable`. -/
def Table.create (t : Table α) (init : Except Crash α) (name : List Char) : Except Crash (Table α) :=
  match findEmptyIndex t with
  | none => .ok t
  | some i => do
    let t ← t.allocate i init
    .ok (t.enter i (← getName name))

/-- `deleteList` and `deleteHashtable`, where `clear` empties the core. -/
def Table.delete (t : Table α) (clear : α → α) (i : Fin ARRAY_SIZE) : Except Crash (Table α) := do
  let (c, a) ← t.core i
  let t := t.put c (clear a)
  .ok (t.set_slot i { t.slots i with name := [], used := false })

/-- What `quit` does with a list or a hash table. -/
def Table.quit (t : Table α) (clear : α → α) (i : Fin ARRAY_SIZE) : Except Crash (Table α) :=
  if (t.slots i).allocated then do
    let t ← t.delete clear i
    let (c, _) ← t.core i
    let t := t.free c
    .ok (t.set_slot i { t.slots i with allocated := false })
  else .ok t

/-- A data command that takes one name and works on the contents of the core. -/
def Table.command (t : Table α) (name : List Char) (work : α → Except Fault α) : Except Crash (Table α) := do
  match findTargetIndex t (← getName name) with
  | none => .ok t
  | some i => do
    let (c, a) ← t.core i
    .ok (t.put c (← on_contents (work a)))

/-- The work of a command on the contents of two cores, or of one that is given twice. -/
def Table.work_on (t : Table α) (c₁ c₂ : Nat × α) (work : α → α → Except Fault (α × α))
    (twice : α → Except Fault α) : Except Crash (Table α) :=
  if c₁.1 = c₂.1 then do .ok (t.put c₁.1 (← on_contents (twice c₁.2)))
  else do
    let (a₁, a₂) ← on_contents (work c₁.2 c₂.2)
    .ok ((t.put c₁.1 a₁).put c₂.1 a₂)

end Table

/-- The contents of a list: the numbers of its items. -/
abbrev Items := List (BitVec 32)

/-- `createList`; `list_init` fails when there is no memory. -/
def createList (t : Table Items) (memory : Bool) (name : List Char) : Except Crash (Table Items) :=
  t.create (if memory then .ok [] else .error (.contents .assert)) name

/-- `deleteList`: the items are popped and freed. -/
def deleteList (t : Table Items) (deleteIndex : Fin ARRAY_SIZE) : Except Crash (Table Items) :=
  t.delete (fun _ => []) deleteIndex

/-- `createHashtable`; without memory, `hash_init` stores to a core that is `NULL`. -/
def createHashtable (t : Table (hash hash_item)) (memory : Bool) (garbage : List hash_item) (name : List Char) :
    Except Crash (Table (hash hash_item)) :=
  t.create ((kernel.hash_init memory garbage).elim (.error .null) .ok) name

/-- `deleteHashtable`. -/
def deleteHashtable (t : Table (hash hash_item)) (deleteIndex : Fin ARRAY_SIZE) :
    Except Crash (Table (hash hash_item)) :=
  t.delete (fun h => (kernel.hash_clear h).1) deleteIndex

/-- `bitmap_create` for slot `i`; it gets the `block`, or returns `NULL`. -/
def Table.bitmap_create (t : Table bitmap) (i : Fin ARRAY_SIZE) (block : Option (Nat → Elem))
    (bit_cnt : BitVec 32) :
    Except Crash (Table bitmap) :=
  match block with
  | none => .ok (t.set_slot i { t.slots i with core := none })
  | some block => do .ok (t.malloc i (← on_contents (prj0_2.bitmap_create (bit_cnt.signExtend 64).toNat block)))

/-- `bitmap_destroy`, of the core of slot `i`. -/
def Table.bitmap_destroy (t : Table bitmap) (i : Fin ARRAY_SIZE) : Except Crash (Table bitmap) :=
  match (t.slots i).core with
  | none => .ok t
  | some _ => do
    let (c, _) ← t.core i
    .ok (t.free c)

/-- `createBitmap`. -/
def createBitmap (t : Table bitmap) (block : Option (Nat → Elem)) (name : List Char) (bit_cnt : BitVec 32) :
    Except Crash (Table bitmap) :=
  match findEmptyIndex t with
  | none => .ok t
  | some i => do
    let t := t.set_slot i { t.slots i with name := ← getName name }
    let t ← t.bitmap_create i block bit_cnt
    .ok (t.set_slot i { t.slots i with used := true })

/-- `deleteBitmap`. -/
def deleteBitmap (t : Table bitmap) (deleteIndex : Fin ARRAY_SIZE) : Except Crash (Table bitmap) := do
  let t ← t.bitmap_destroy deleteIndex
  .ok (t.set_slot deleteIndex { t.slots deleteIndex with used := false })

/-- `list_splice_command`, which gets to its position in the first list before it looks
up the second. -/
def list_splice_command (t : Table Items) (to_ from_ : List Char) (walk : Items → Except Fault Unit)
    (work : Items → Items → Except Fault (Items × Items)) (twice : Items → Except Fault Items) :
    Except Crash (Table Items) := do
  match findTargetIndex t (← getName to_) with
  | none => .ok t
  | some toIndex => do
    let dest ← t.core toIndex
    on_contents (walk dest.2)
    match findTargetIndex t (← getName from_) with
    | none => .ok t
    | some fromIndex => do t.work_on dest (← t.core fromIndex) work twice

/-- `list_unique_command` with two names. -/
def list_unique_command (t : Table Items) (first second : List Char)
    (work : Items → Items → Except Fault (Items × Items)) (twice : Items → Except Fault Items) :
    Except Crash (Table Items) := do
  match findTargetIndex t (← getName first) with
  | none => .ok t
  | some firstIndex =>
    match findTargetIndex t (← getName second) with
    | none => .ok t
    | some secondIndex => do t.work_on (← t.core firstIndex) (← t.core secondIndex) work twice

/-- `bitmap_expand_command`: the new bitmap takes the place of the old one. -/
def bitmap_expand_command (t : Table bitmap) (block : Option (Nat → Elem)) (name : List Char)
    (size : BitVec 32) :
    Except Crash (Table bitmap) := do
  match findTargetIndex t (← getName name) with
  | none => .ok t
  | some i => do
    let (c, b) ← t.core i
    match block with
    | none =>
      -- The loop copies the first bit to `NULL`, unless there is none.
      if b.bit_cnt = 0 then .ok ((t.free c).set_slot i { t.slots i with core := none })
      else .error (.contents .assert)
    | some block => do .ok ((t.malloc i (← on_contents (bitmap_expand b
        (size.signExtend 64).toNat block))).free c)

/-- The three arrays. -/
structure Arrays where
  listArray : Table Items
  hashArray : Table (hash hash_item)
  bitmapArray : Table bitmap

/-- The commands, with what they take from their input. The data commands on one name
differ in how they work on the contents. -/
inductive Request where
  | create_list (memory : Bool) (name : List Char)
  | create_hashtable (memory : Bool) (garbage : List hash_item) (name : List Char)
  | create_bitmap (block : Option (Nat → Elem)) (name : List Char) (bit_cnt : BitVec 32)
  | delete (name : List Char)
  | dumpdata (name : List Char)
  | list_command (name : List Char) (work : Items → Except Fault Items)
  | list_splice (to_ from_ : List Char) (walk : Items → Except Fault Unit)
      (work : Items → Items → Except Fault (Items × Items)) (twice : Items → Except Fault Items)
  | list_unique (first second : List Char) (work : Items → Items → Except Fault (Items × Items))
      (twice : Items → Except Fault Items)
  | hash_command (name : List Char) (work : hash hash_item → Except Fault (hash hash_item))
  | bitmap_command (name : List Char) (work : bitmap → Except Fault bitmap)
  | bitmap_expand (block : Option (Nat → Elem)) (name : List Char) (size : BitVec 32)

/-- `delete`. -/
def Arrays.delete (s : Arrays) (name : List Char) : Except Crash Arrays := do
  let deleteName ← getName name
  match findTargetIndex s.listArray deleteName with
  | some deleteIndex => .ok { s with listArray := ← deleteList s.listArray deleteIndex }
  | none =>
    match findTargetIndex s.hashArray deleteName with
    | some deleteIndex => .ok { s with hashArray := ← deleteHashtable s.hashArray deleteIndex }
    | none =>
      match findTargetIndex s.bitmapArray deleteName with
      | some deleteIndex => .ok { s with bitmapArray := ← deleteBitmap s.bitmapArray deleteIndex }
      | none => .ok s

/-- `dumpdata`, which only reads the core. -/
def Arrays.dumpdata (s : Arrays) (name : List Char) : Except Crash Arrays := do
  let targetName ← getName name
  match findTargetIndex s.listArray targetName with
  | some targetIndex => do
    let _ ← s.listArray.core targetIndex
    .ok s
  | none =>
    match findTargetIndex s.hashArray targetName with
    | some targetIndex => do
      let _ ← s.hashArray.core targetIndex
      .ok s
    | none =>
      match findTargetIndex s.bitmapArray targetName with
      | some targetIndex => do
        let _ ← s.bitmapArray.core targetIndex
        .ok s
      | none => .ok s

/-- The command functions. -/
def Request.exec (s : Arrays) : Request → Except Crash Arrays
  | .create_list memory name => do .ok { s with listArray := ← createList s.listArray memory name }
  | .create_hashtable memory garbage name => do
    .ok { s with hashArray := ← createHashtable s.hashArray memory garbage name }
  | .create_bitmap block name bit_cnt => do
    .ok { s with bitmapArray := ← createBitmap s.bitmapArray block name bit_cnt }
  | .delete name => s.delete name
  | .dumpdata name => s.dumpdata name
  | .list_command name work => do .ok { s with listArray := ← s.listArray.command name work }
  | .list_splice to_ from_ walk work twice => do
    .ok { s with listArray := ← list_splice_command s.listArray to_ from_ walk work twice }
  | .list_unique first second work twice => do
    .ok { s with listArray := ← list_unique_command s.listArray first second work twice }
  | .hash_command name work => do .ok { s with hashArray := ← s.hashArray.command name work }
  | .bitmap_command name work => do .ok { s with bitmapArray := ← s.bitmapArray.command name work }
  | .bitmap_expand block name size => do
    .ok { s with bitmapArray := ← bitmap_expand_command s.bitmapArray block name size }

/-- What `quit` does with a bitmap. -/
def quit_bitmap (t : Table bitmap) (i : Fin ARRAY_SIZE) : Except Crash (Table bitmap) :=
  if (t.slots i).used then deleteBitmap t i else .ok t

/-- A turn of the loop of `quit`. -/
def Arrays.quit_slot (s : Arrays) (i : Fin ARRAY_SIZE) : Except Crash Arrays := do
  let listArray ← s.listArray.quit (fun _ => []) i
  let hashArray ← s.hashArray.quit (fun h => (kernel.hash_clear h).1) i
  let bitmapArray ← quit_bitmap s.bitmapArray i
  .ok ⟨listArray, hashArray, bitmapArray⟩

/-- `quit`. -/
def Arrays.quit (s : Arrays) : Except Crash Arrays := (List.finRange ARRAY_SIZE).foldlM Arrays.quit_slot s

/-- The arrays after `init`. -/
def init : Arrays := ⟨.zero, .zero, .zero⟩

end pintos.prj0_2
