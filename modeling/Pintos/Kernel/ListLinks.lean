import Pintos.Lib.Links
import Pintos.Kernel.List
import Mathlib.Tactic.Common

/-!
# Kernel lists in memory (`lib/kernel/list.c`)

Every operation reads and writes links. It fails at a false `ASSERT` and at a null
pointer that is followed.
-/

open links

namespace pintos.kernel

/-- A list: its two header elements. -/
structure list (Node : Type) where
  head : Node
  tail : Node
  deriving DecidableEq, Repr

variable {Node : Type} [DecidableEq Node]

section Elements

omit [DecidableEq Node]

variable (m : Memory Node) (elem : Node)

/-- `is_head`. -/
def is_head : Bool := (m elem).prev.isNone && (m elem).next.isSome

/-- `is_interior`. -/
def is_interior : Bool := (m elem).prev.isSome && (m elem).next.isSome

/-- `is_tail`. -/
def is_tail : Bool := (m elem).prev.isSome && (m elem).next.isNone

/-- `list_begin`. -/
def list_begin (l : list Node) : Option Node := (m l.head).next

/-- `list_rbegin`. -/
def list_rbegin (l : list Node) : Option Node := (m l.tail).prev

/-- `list_next`. -/
def list_next : Option Node := do
  guard (is_head m elem || is_interior m elem)
  (m elem).next

/-- `list_prev`. -/
def list_prev : Option Node := do
  guard (is_interior m elem || is_tail m elem)
  (m elem).prev

end Elements

section Operations

variable (m : Memory Node)

/-- `list_init`. -/
def list_init (l : list Node) : Memory Node :=
  let m := set_prev m l.head none
  let m := set_next m l.head (some l.tail)
  let m := set_prev m l.tail (some l.head)
  set_next m l.tail none

/-- `list_insert`. -/
def list_insert (before elem : Node) : Option (Memory Node) := do
  guard (is_interior m before || is_tail m before)
  let m := set_prev m elem (m before).prev
  let m := set_next m elem (some before)
  let prev ← (m before).prev
  let m := set_next m prev (some elem)
  return set_prev m before (some elem)

/-- `list_splice`. -/
def list_splice (before first last : Node) : Option (Memory Node) := do
  guard (is_interior m before || is_tail m before)
  if first = last then return m
  let last ← list_prev m last
  guard (is_interior m first)
  guard (is_interior m last)
  let prev ← (m first).prev
  let m := set_next m prev (m last).next
  let next ← (m last).next
  let m := set_prev m next (m first).prev
  let m := set_prev m first (m before).prev
  let m := set_next m last (some before)
  let prev ← (m before).prev
  let m := set_next m prev (some first)
  return set_prev m before (some last)

/-- `list_push_front`. -/
def list_push_front (l : list Node) (elem : Node) : Option (Memory Node) := do
  list_insert m (← list_begin m l) elem

/-- `list_push_back`. -/
def list_push_back (l : list Node) (elem : Node) : Option (Memory Node) := list_insert m l.tail elem

/-- `list_remove`: the memory, and the element that followed. -/
def list_remove (elem : Node) : Option (Memory Node × Node) := do
  guard (is_interior m elem)
  let prev ← (m elem).prev
  let m := set_next m prev (m elem).next
  let next ← (m elem).next
  let m := set_prev m next (m elem).prev
  return (m, ← (m elem).next)

/-- `list_empty`. -/
def list_empty (l : list Node) : Bool := list_begin m l = some l.tail

/-- `list_front`. -/
def list_front (l : list Node) : Option Node := do
  guard (!list_empty m l)
  (m l.head).next

/-- `list_back`. -/
def list_back (l : list Node) : Option Node := do
  guard (!list_empty m l)
  (m l.tail).prev

/-- `list_pop_front`. -/
def list_pop_front (l : list Node) : Option (Memory Node × Node) := do
  let front ← list_front m l
  let (m, _) ← list_remove m front
  return (m, front)

/-- `list_pop_back`. -/
def list_pop_back (l : list Node) : Option (Memory Node × Node) := do
  let back ← list_back m l
  let (m, _) ← list_remove m back
  return (m, back)

/-- The loop of `list_reverse`; `e` may be null. -/
def list_reverse_loop (tail : Node) : Nat → Memory Node → Option Node → Option (Memory Node)
  | 0, _, _ => none
  | n + 1, m, e =>
    if e = some tail then some m
    else do
      let e ← e
      let t := (m e).prev
      let m := set_prev m e (m e).next
      let m := set_next m e t
      list_reverse_loop tail n m (m e).prev

/-- `list_reverse`; `n` bounds the turns of the loop. -/
def list_reverse (n : Nat) (l : list Node) : Option (Memory Node) := do
  if list_empty m l then return m
  let m ← list_reverse_loop l.tail n m (list_begin m l)
  -- `swap (&list->head.next, &list->tail.prev)`
  let t := (m l.head).next
  let m := set_next m l.head (m l.tail).prev
  let m := set_prev m l.tail t
  -- `swap (&list->head.next->prev, &list->tail.prev->next)`
  let front ← (m l.head).next
  let back ← (m l.tail).prev
  let t := (m front).prev
  let m := set_prev m front (m back).next
  return set_next m back t

/-- The loop of `list_insert_ordered`: the element that it stops at. -/
def list_insert_ordered_loop (less : Node → Node → Bool) (elem tail : Node) : Nat → Option Node → Option Node
  | 0, _ => none
  | n + 1, e =>
    if e = some tail then e
    else do
      let e ← e
      if less elem e then return e
      list_insert_ordered_loop less elem tail n (← list_next m e)

/-- `list_insert_ordered` in memory; `n` bounds the turns of the loop. -/
def list_insert_ordered_links (n : Nat) (less : Node → Node → Bool) (l : list Node) (elem : Node) :
    Option (Memory Node) := do
  list_insert m (← list_insert_ordered_loop m less elem l.tail n (list_begin m l)) elem

/-- Traversing a list from `e`, by `next`, until `last`. -/
def traverse (next : Node → Option Node) (last : Node) : Nat → Option Node → Option (List Node)
  | 0, _ => none
  | n + 1, e =>
    if e = some last then some []
    else do
      let e ← e
      return e :: (← traverse next last n (← next e))

/-- The elements from front to back. -/
def forward (n : Nat) (l : list Node) : Option (List Node) := traverse (list_next m) l.tail n (list_begin m l)

/-- The elements from back to front. -/
def backward (n : Nat) (l : list Node) : Option (List Node) := traverse (list_prev m) l.head n (list_rbegin m l)

end Operations

/-- An operation on lists. -/
inductive Op (Node : Type) where
  | init (l : list Node)
  | insert (before elem : Node)
  | remove (elem : Node)
  | splice (before first last : Node)
  | push_front (l : list Node) (elem : Node)
  | push_back (l : list Node) (elem : Node)
  | pop_front (l : list Node)
  | pop_back (l : list Node)
  | reverse (l : list Node)
  | insert_ordered (less : Node → Node → Bool) (l : list Node) (elem : Node)

/-- The memory after an operation, and the element that it returns, if it returns one. -/
def Op.exec (n : Nat) (m : Memory Node) : Op Node → Option (Memory Node × Option Node)
  | init l => some (list_init m l, none)
  | insert before elem => (list_insert m before elem).map fun m => (m, none)
  | remove elem => (list_remove m elem).map fun (m, next) => (m, some next)
  | splice before first last => (list_splice m before first last).map fun m => (m, none)
  | push_front l elem => (list_push_front m l elem).map fun m => (m, none)
  | push_back l elem => (list_push_back m l elem).map fun m => (m, none)
  | pop_front l => (list_pop_front m l).map fun (m, front) => (m, some front)
  | pop_back l => (list_pop_back m l).map fun (m, back) => (m, some back)
  | reverse l => (list_reverse m n l).map fun m => (m, none)
  | insert_ordered less l elem => (list_insert_ordered_links m n less l elem).map fun m => (m, none)

end pintos.kernel
