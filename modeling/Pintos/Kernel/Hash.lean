import Mathlib.Algebra.Order.Ring.Int
import Mathlib.Tactic.Common

/-!
# Hash tables (`lib/kernel/hash.c`)

A table is an array of lists of elements. The functions that hash elements and
compare them are parameters, as the hooks in `struct hash` are, and so is whether
`malloc` has memory for new buckets.
-/

namespace pintos.kernel

variable {α : Type}

/-- A hash table. -/
structure hash (α : Type) where
  elem_cnt : Nat
  bucket_cnt : Nat
  buckets : List (List α)
  deriving DecidableEq, Repr

/-- The elements, bucket by bucket. -/
def hash.elems (h : hash α) : List α := h.buckets.flatten

/-- `hash_clear`: the table, and the elements that the destructor is called for. -/
def hash_clear (h : hash α) : hash α × List α :=
  ({ h with elem_cnt := 0, buckets := h.buckets.map fun _ => [] }, h.elems)

/-- `hash_init`; `memory` says whether `malloc` returns the buckets, which hold
`garbage`. -/
def hash_init (memory : Bool) (garbage : List α) : Option (hash α) :=
  if memory then some (hash_clear { elem_cnt := 0, bucket_cnt := 4, buckets := List.replicate 4 garbage }).1 else none

/-- `turn_off_least_1bit`. -/
def turn_off_least_1bit (x : Nat) : Nat := x &&& (x - 1)

/-- `is_power_of_2`. -/
def is_power_of_2 (x : Nat) : Bool := x ≠ 0 ∧ turn_off_least_1bit x = 0

/-- The loop of `rehash` that makes the bucket count a power of 2. -/
def power_loop : Nat → Nat → Option Nat
  | 0, _ => none
  | n + 1, new_bucket_cnt =>
    if is_power_of_2 new_bucket_cnt then some new_bucket_cnt
    else power_loop n (turn_off_least_1bit new_bucket_cnt)

def BEST_ELEMS_PER_BUCKET : Nat := 2

/-- The number of buckets that `rehash` calculates, before the loop. -/
def ideal_bucket_cnt (elem_cnt : Nat) : Nat :=
  if elem_cnt / BEST_ELEMS_PER_BUCKET < 4 then 4 else elem_cnt / BEST_ELEMS_PER_BUCKET

section Table

variable [DecidableEq α] (hash_func : α → Nat) (less : α → α → Bool)

/-- `find_bucket`: the number of the bucket. -/
def find_bucket (h : hash α) (e : α) : Nat := hash_func e &&& (h.bucket_cnt - 1)

/-- `find_elem`. -/
def find_elem (bucket : List α) (e : α) : Option α := bucket.find? fun hi => !less hi e && !less e hi

/-- `list_push_front` on a bucket. -/
def push_front (buckets : List (List α)) (idx : Nat) (e : α) : List (List α) := buckets.modify idx (e :: ·)

/-- `insert_elem`. -/
def insert_elem (h : hash α) (idx : Nat) (e : α) : hash α :=
  { h with elem_cnt := h.elem_cnt + 1, buckets := push_front h.buckets idx e }

/-- `remove_elem`: the element leaves the list that it is in. -/
def remove_elem (h : hash α) (e : α) : hash α :=
  { h with elem_cnt := h.elem_cnt - 1, buckets := h.buckets.map fun bucket => bucket.erase e }

/-- `rehash`: the elements of the old buckets move to new ones. -/
def rehash (memory : Bool) (h : hash α) : Option (hash α) := do
  let new_bucket_cnt ← power_loop (ideal_bucket_cnt h.elem_cnt) (ideal_bucket_cnt h.elem_cnt)
  if new_bucket_cnt = h.bucket_cnt then return h
  else if memory then
    let new_h : hash α := { h with bucket_cnt := new_bucket_cnt, buckets := List.replicate new_bucket_cnt [] }
    return h.elems.foldl (fun new_h e =>
      { new_h with buckets := push_front new_h.buckets (find_bucket hash_func new_h e) e }) new_h
  else return h

/-- `hash_insert`. -/
def hash_insert (memory : Bool) (h : hash α) (new : α) : Option (hash α × Option α) := do
  let bucket := find_bucket hash_func h new
  match find_elem less (h.buckets.getD bucket []) new with
  | none => return (← rehash hash_func memory (insert_elem h bucket new), none)
  | some old => return (← rehash hash_func memory h, some old)

/-- `hash_replace`. -/
def hash_replace (memory : Bool) (h : hash α) (new : α) : Option (hash α × Option α) := do
  let bucket := find_bucket hash_func h new
  match find_elem less (h.buckets.getD bucket []) new with
  | none => return (← rehash hash_func memory (insert_elem h bucket new), none)
  | some old => return (← rehash hash_func memory (insert_elem (remove_elem h old) bucket new), some old)

/-- `hash_find`. -/
def hash_find (h : hash α) (e : α) : Option α :=
  find_elem less (h.buckets.getD (find_bucket hash_func h e) []) e

/-- `hash_delete`. -/
def hash_delete (memory : Bool) (h : hash α) (e : α) : Option (hash α × Option α) := do
  match hash_find hash_func less h e with
  | some found => return (← rehash hash_func memory (remove_elem h found), some found)
  | none => return (h, none)

/-- `hash_apply`, with an action that changes elements in place. -/
def hash_apply (action : α → α) (h : hash α) : hash α := { h with buckets := h.buckets.map (List.map action) }

/-- A call on a table. Where it calls `rehash`, `memory` says whether memory is there. -/
inductive Call (α : Type) where
  | insert (memory : Bool) (new : α)
  | replace (memory : Bool) (new : α)
  | delete (memory : Bool) (e : α)
  | find (e : α)
  | clear

/-- The table after a call, and the element that the call returns. -/
def Call.exec : Call α → hash α → Option (hash α × Option α)
  | .insert memory new, h => hash_insert hash_func less memory h new
  | .replace memory new, h => hash_replace hash_func less memory h new
  | .delete memory e, h => hash_delete hash_func less memory h e
  | .find e, h => some (h, hash_find hash_func less h e)
  | .clear, h => some ((hash_clear h).1, none)

end Table

end pintos.kernel
