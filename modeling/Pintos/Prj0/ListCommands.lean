import Pintos.Kernel.ListLinks
import Pintos.Lib.StateError

/-!
# List commands of the list library's program (`list.c`, `main.c`)

The commands walk to positions that the user gives, and change links there. A program
that stops leaves the links as they are at that point.
-/

open links pintos.kernel state_error

namespace pintos.prj0_2

/-- Why the program stops: a failed `ASSERT`, or a null pointer that is followed. A loop
whose fuel is used up is still running. -/
inductive Stop where
  | assert
  | null
  | running
  deriving DecidableEq, Repr

/-- Computations on links that may stop. -/
abbrev Links (Node : Type) := Exec (Memory Node) (Stop × Memory Node)

variable {Node : Type} [DecidableEq Node]

/-- `ASSERT`. -/
def ASSERT (p : Memory Node → Bool) : Links Node Unit :=
  fun m => if p m then .ok ((), m) else .error (.assert, m)

/-- A pointer that is followed. -/
def follow (p : Memory Node → Option Node) : Links Node Node := fun m =>
  match p m with
  | some e => .ok (e, m)
  | none => .error (.null, m)

/-- `e->prev = v`, with the links that `v` is read from. -/
def store_prev (e : Node) (v : Memory Node → Option Node) :
    Links Node Unit := Exec.modify fun m => set_prev m e (v m)

/-- `e->next = v`. -/
def store_next (e : Node) (v : Memory Node → Option Node) :
    Links Node Unit := Exec.modify fun m => set_next m e (v m)

/-- `list_begin`. -/
def list_begin (list : kernel.list Node) : Links Node Node := follow fun m => (m list.head).next

/-- `list_next`. -/
def list_next (elem : Node) : Links Node Node := do
  ASSERT fun m => is_head m elem || is_interior m elem
  follow fun m => (m elem).next

/-- `list_insert`. -/
def list_insert (before elem : Node) : Links Node Unit := do
  ASSERT fun m => is_interior m before || is_tail m before
  store_prev elem fun m => (m before).prev
  store_next elem fun _ => some before
  let prev ← follow fun m => (m before).prev
  store_next prev fun _ => some elem
  store_prev before fun _ => some elem

/-- `list_push_back`. -/
def list_push_back (list : kernel.list Node) (elem : Node) : Links Node Unit := list_insert list.tail elem

/-- `list_remove`. -/
def list_remove (elem : Node) : Links Node Unit := do
  ASSERT fun m => is_interior m elem
  let prev ← follow fun m => (m elem).prev
  store_next prev fun m => (m elem).next
  let next ← follow fun m => (m elem).next
  store_prev next fun m => (m elem).prev

/-- `list_splice`. -/
def list_splice (before first last : Node) : Links Node Unit := do
  ASSERT fun m => is_interior m before || is_tail m before
  if first = last then pure ()
  else do
    -- `last = list_prev (last)`
    ASSERT fun m => is_interior m last || is_tail m last
    let last ← follow fun m => (m last).prev
    ASSERT fun m => is_interior m first
    ASSERT fun m => is_interior m last
    let prev ← follow fun m => (m first).prev
    store_next prev fun m => (m last).next
    let next ← follow fun m => (m last).next
    store_prev next fun m => (m first).prev
    store_prev first fun m => (m before).prev
    store_next last fun _ => some before
    let prev ← follow fun m => (m before).prev
    store_next prev fun _ => some first
    store_prev before fun _ => some last

/-- `list_swap` where `b` comes right after `a`. -/
def list_swap_next (a b : Node) : Links Node Unit := do
  let m ← Exec.get
  let prev ← follow fun m => (m a).prev
  store_next prev fun _ => some b
  let next ← follow fun m => (m b).next
  store_prev next fun _ => some a
  store_prev a fun _ => some b
  store_next a fun m => (m b).next
  store_prev b fun _ => (m a).prev
  store_next b fun _ => some a

/-- `list_swap`. -/
def list_swap (a b : Node) : Links Node Unit := do
  let m ← Exec.get
  if a = b then pure ()
  else if (m a).next = some b then list_swap_next a b
  else if (m b).next = some a then list_swap_next b a
  else do
    let prev ← follow fun m => (m a).prev
    store_next prev fun _ => some b
    let next ← follow fun m => (m a).next
    store_prev next fun _ => some b
    let prev ← follow fun m => (m b).prev
    store_next prev fun _ => some a
    let next ← follow fun m => (m b).next
    store_prev next fun _ => some a
    store_prev a fun m => (m b).prev
    store_next a fun m => (m b).next
    store_prev b fun _ => (m a).prev
    store_next b fun _ => (m a).next

/-- What `list_unique` does with a repeated element. -/
def push_duplicate (duplicates : Option (kernel.list Node)) (next : Node) : Links Node Unit :=
  match duplicates with
  | some duplicates => list_push_back duplicates next
  | none => pure ()

/-- The loop of `list_unique`. -/
def list_unique_loop (less : Node → Node → Bool) (list : kernel.list Node)
    (duplicates : Option (kernel.list Node)) :
    Nat → Node → Links Node Unit
  | 0, _ => fun m => .error (.running, m)
  | n + 1, elem => do
    let next ← list_next elem
    if next = list.tail then pure ()
    else if !less elem next && !less next elem then do
      list_remove next
      push_duplicate duplicates next
      list_unique_loop less list duplicates n elem
    else list_unique_loop less list duplicates n next

/-- `list_unique`; `n` bounds the turns of the loop. -/
def list_unique (n : Nat) (less : Node → Node → Bool) (list : kernel.list Node)
    (duplicates : Option (kernel.list Node)) : Links Node Unit := do
  let elem ← list_begin list
  if elem = list.tail then pure ()
  else list_unique_loop less list duplicates n elem

/-- The loop that goes to a position. -/
def walk : Nat → Node → Links Node Node
  | 0, it => pure it
  | position + 1, it => do walk position (← list_next it)

variable {ι : Type}

/-- The commands on lists that are given by their names; a new element comes from `malloc`. -/
inductive ListCommand (Node ι : Type) where
  | list_insert (target : ι) (position : Nat) (elem : Node) (data : BitVec 32)
  | list_remove (target : ι) (position : Nat)
  | list_splice (to_ : ι) (insertPosition : Nat) (from_ : ι) (start end_ : Nat)
  | list_swap (target : ι) (idx1 idx2 : Nat)
  | list_unique (first : ι) (second : Option ι)

/-- `list_less`, on items that hold the `data`. -/
def list_less (data : Node → BitVec 32) (a b : Node) : Bool := (data a).slt (data b)

/-- The data of the items after a command. -/
def ListCommand.store (data : Node → BitVec 32) : ListCommand Node ι → Node → BitVec 32
  | .list_insert _ _ elem item_data => Function.update data elem item_data
  | _ => data

/-- The command functions; `n` bounds the turns of the loop of `list_unique`. -/
def ListCommand.exec (lists : ι → kernel.list Node) (data : Node → BitVec 32) (n : Nat) :
    ListCommand Node ι → Links Node Unit
  | .list_insert target position elem _ => do
    let it ← walk position (← list_begin (lists target))
    prj0_2.list_insert it elem
  | .list_remove target position => do
    let it ← walk position (← list_begin (lists target))
    prj0_2.list_remove it
  | .list_splice to_ insertPosition from_ start end_ => do
    let dest ← walk insertPosition (← list_begin (lists to_))
    let src_start ← list_begin (lists from_)
    let src_end ← list_begin (lists from_)
    let src_start ← walk start src_start
    let src_end ← walk end_ src_end
    prj0_2.list_splice dest src_start src_end
  | .list_swap target idx1 idx2 => do
    let elem1 ← list_begin (lists target)
    let elem2 ← list_begin (lists target)
    let elem1 ← walk idx1 elem1
    let elem2 ← walk idx2 elem2
    prj0_2.list_swap elem1 elem2
  | .list_unique first second =>
    prj0_2.list_unique n (list_less data) (lists first) (second.map lists)

end pintos.prj0_2
