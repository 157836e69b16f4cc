import Pintos.Kernel.Hash
import Pintos.Kernel.ListBytes
import Mathlib.Data.List.OfFn

/-!
# Hash tables in memory (`lib/kernel/hash.c`)

The buckets are lists of linked nodes. The iterator starts at the header element of the first
bucket, as if it were an element; `hash_clear` works on memory of which some nodes have been freed.
-/

open links

namespace pintos.kernel.hash_memory

variable {Node : Type} [DecidableEq Node]

/-- `struct hash`, with the bucket lists at `buckets`. -/
structure hash_table (Node : Type) where
  elem_cnt : Nat
  bucket_cnt : Nat
  buckets : List (list Node)

/-- `struct hash_iterator`; `bucket` is the number of the bucket. -/
structure hash_iterator (Node : Type) where
  bucket : Nat
  elem : Option Node

section Iteration

variable (m : Memory Node) (h : hash_table Node)

omit [DecidableEq Node] in
variable {m} in
/-- `hash_first`. -/
def hash_first : Option (hash_iterator Node) := do
  let bucket ← h.buckets[0]?
  return { bucket := 0, elem := some bucket.head }

/-- The loop of `hash_next`. There is no result where `fuel` turns do not do. -/
def hash_next_loop : (fuel bucket : Nat) → Node → Option (hash_iterator Node)
  | 0, _, _ => none
  | fuel + 1, bucket, elem => do
    let l ← h.buckets[bucket]?
    if elem = l.tail then
      if bucket + 1 ≥ h.bucket_cnt then return { bucket := bucket + 1, elem := none }
      else
        let l ← h.buckets[bucket + 1]?
        hash_next_loop fuel (bucket + 1) (← list_begin m l)
    else return { bucket, elem := some elem }

/-- `hash_next`; what it returns is the element of the new iterator. -/
def hash_next (i : hash_iterator Node) : Option (hash_iterator Node) := do
  hash_next_loop m h (h.bucket_cnt + 1) i.bucket (← list_next m (← i.elem))

/-- The iteration idiom: the elements from `hash_cur`, for at most `fuel` turns. -/
def iterate : Nat → hash_iterator Node → Option (List Node)
  | 0, _ => none
  | fuel + 1, i => do
    let i ← hash_next m h i
    match i.elem with
    | none => return []
    | some e => return e :: (← iterate fuel i)

end Iteration

section Apply

variable {σ : Type} (action : Node → Memory Node × σ → Memory Node × σ) (h : hash_table Node)

/-- The loop of `hash_apply` over a bucket. -/
def apply_bucket (bucket : list Node) : Nat → Node → Memory Node × σ → Option (Memory Node × σ)
  | 0, _, _ => none
  | fuel + 1, elem, s =>
    if elem = bucket.tail then return s
    else do
      let next ← list_next s.1 elem
      apply_bucket bucket fuel next (action elem s)

/-- The loop of `hash_apply` over the buckets: `left` buckets are left, from `i` on. -/
def apply_loop (fuel : Nat) : (left i : Nat) → Memory Node × σ → Option (Memory Node × σ)
  | 0, _, s => return s
  | left + 1, i, s => do
    let bucket ← h.buckets[i]?
    apply_loop fuel left (i + 1) (← apply_bucket action bucket fuel (← list_begin s.1 bucket) s)

/-- `hash_apply`, for at most `fuel` turns in a bucket. -/
def hash_apply (fuel : Nat) (s : Memory Node × σ) : Option (Memory Node × σ) :=
  apply_loop action h fuel h.bucket_cnt 0 s

end Apply

/-- Memory of which nodes have been freed, the last one first, and the rest of the state. -/
structure heap (Node σ : Type) where
  links : Memory Node
  freed : List Node
  other : σ

section Heap

variable {σ : Type} (s : heap Node σ) (elem : Node) (v : Option Node) (l : list Node)

/-- The links of an element that has not been freed. -/
def load : Option (Link Node) := do
  guard (elem ∉ s.freed)
  return s.links elem

def store_prev : Option (heap Node σ) := do
  guard (elem ∉ s.freed)
  return { s with links := set_prev s.links elem v }

def store_next : Option (heap Node σ) := do
  guard (elem ∉ s.freed)
  return { s with links := set_next s.links elem v }

/-- `list_empty`. -/
def list_empty : Option Bool := do return (← load s l.head).next = some l.tail

/-- `list_front`. -/
def list_front : Option Node := do
  guard !(← list_empty s l)
  (← load s l.head).next

/-- `list_remove`. -/
def list_remove : Option (heap Node σ) := do
  let e ← load s elem
  guard (e.prev.isSome && e.next.isSome)
  let s ← store_next s (← e.prev) e.next
  let e ← load s elem
  let s ← store_prev s (← e.next) e.prev
  let _ ← (← load s elem).next
  return s

/-- `list_pop_front`. -/
def list_pop_front : Option (heap Node σ × Node) := do
  let front ← list_front s l
  return (← list_remove s front, front)

/-- `list_init`. -/
def list_init : Option (heap Node σ) := do
  let s ← store_prev s l.head none
  let s ← store_next s l.head (some l.tail)
  let s ← store_prev s l.tail (some l.head)
  store_next s l.tail none

end Heap

section Clear

variable {σ : Type} (destructor : Option (Node → heap Node σ → heap Node σ))

/-- The element has been freed. -/
def free (s : heap Node σ) (elem : Node) : heap Node σ := { s with freed := elem :: s.freed }

/-- The loop of `hash_clear` over a bucket, with a destructor that frees the element. -/
def clear_bucket (destructor : Node → heap Node σ → heap Node σ) (bucket : list Node) : Nat →
    heap Node σ → Option (heap Node σ)
  | 0, _ => none
  | fuel + 1, s => do
    if ← list_empty s bucket then return s
    else
      let (s, elem) ← list_pop_front s bucket
      clear_bucket destructor bucket fuel (free (destructor elem s) elem)

/-- The loop of `hash_clear` over the buckets. -/
def clear_loop (h : hash_table Node) (fuel : Nat) : (left i : Nat) → heap Node σ → Option (heap Node σ)
  | 0, _, s => return s
  | left + 1, i, s => do
    let bucket ← h.buckets[i]?
    let s ← match destructor with
      | some destructor => clear_bucket destructor bucket fuel s
      | none => pure s
    clear_loop h fuel left (i + 1) (← list_init s bucket)

/-- `hash_clear`, for at most `fuel` turns in a bucket. -/
def hash_clear (h : hash_table Node) (fuel : Nat) (s : heap Node σ) :
    Option (hash_table Node × heap Node σ) := do
  let s ← clear_loop destructor h fuel h.bucket_cnt 0 s
  return ({ h with elem_cnt := 0 }, s)

end Clear

section Tables

/-- The lists of the buckets. -/
def hash_table.lists (h : hash_table Node) (i : Fin h.buckets.length) : list Node := h.buckets[i]

/-- The table whose buckets hold the sequences. -/
def hash_table.abstract (h : hash_table Node) (seq : Fin h.buckets.length → List Node) : hash Node :=
  { elem_cnt := h.elem_cnt, bucket_cnt := h.bucket_cnt, buckets := List.ofFn seq }

/-- The elements of the buckets from number `i` on. -/
def elements_from {n : Nat} (seq : Fin n → List Node) (i : Nat) : List Node := ((List.ofFn seq).drop i).flatten

/-- The memory holds the table, with the elements of each bucket. -/
structure Table (m : Memory Node) (h : hash_table Node) (seq : Fin h.buckets.length → List Node) : Prop where
  bucket_cnt : h.bucket_cnt = h.buckets.length
  pos : 0 < h.bucket_cnt
  elem_cnt : h.elem_cnt = (h.abstract seq).elems.length
  lists : WellFormed m h.lists seq

variable {m : Memory Node} {h : hash_table Node} {seq : Fin h.buckets.length → List Node} {n : Nat}

omit [DecidableEq Node] in
theorem elements_from_cons (seq : Fin n → List Node) (i : Fin n) :
    elements_from seq i = seq i ++ elements_from seq (i + 1) := by
  have hlt : (i : Nat) < (List.ofFn seq).length := by
    rw [List.length_ofFn]
    exact i.isLt
  rw [elements_from, List.drop_eq_getElem_cons hlt, List.flatten_cons, List.getElem_ofFn]
  rfl

omit [DecidableEq Node] in
theorem elements_from_end (seq : Fin n → List Node) {i : Nat} (hi : n ≤ i) : elements_from seq i = [] := by
  rw [elements_from, List.drop_eq_nil_of_le (by rwa [List.length_ofFn])]
  rfl

omit [DecidableEq Node] in
/-- The buckets share no element. -/
theorem Table.nodup (ht : Table m h seq) : (h.abstract seq).elems.Nodup := by
  refine List.nodup_flatten.mpr ⟨?_, ?_⟩
  · intro l hl
    obtain ⟨i, rfl⟩ := List.mem_ofFn.mp hl
    exact ht.lists.seq_nodup i
  · refine List.pairwise_ofFn.mpr ?_
    intro i j hij x hi hj
    have hmem : ∀ k, x ∈ seq k → x ∈ nodes (h.lists k) (seq k) := fun k hk => mem_nodes.mpr (.inr (.inl hk))
    have heq := ht.lists.disjoint i j x (hmem i hi) (hmem j hj)
    exact absurd heq (Fin.ne_of_lt hij)

omit [DecidableEq Node] in
theorem bucket_at (h : hash_table Node) (i : Fin h.buckets.length) : h.buckets[(i : Nat)]? = some (h.lists i) :=
  List.getElem?_eq_getElem i.isLt

/-- The iterator is between two elements of a bucket; `rest` is what is left. -/
def Position (h : hash_table Node) (seq : Fin h.buckets.length → List Node) (it : hash_iterator Node)
    (rest : List Node) : Prop :=
  ∃ (i : Fin h.buckets.length) (before after : List Node), it.bucket = i ∧
    it.elem = some (preceding (h.lists i) before) ∧ seq i = before ++ after ∧ rest = after ++
      elements_from seq (i + 1)

/-- The iterator has gone to the first element that was left, or to the end. -/
def Advanced (h : hash_table Node) (seq : Fin h.buckets.length → List Node) (it : hash_iterator Node) :
    List Node → Prop
  | [] => it.elem = none
  | e :: rest => it.elem = some e ∧ Position h seq it rest

/-- Any number of empty buckets is skipped. -/
theorem hash_next_loop_run (ht : Table m h seq) (fuel : Nat) :
    ∀ {i : Fin h.buckets.length} {before after : List Node},
    seq i = before ++ after → h.buckets.length - i ≤ fuel →
    ∃ it, hash_next_loop m h fuel i (following (h.lists i) after) = some it ∧
      Advanced h seq it (after ++ elements_from seq (i + 1)) := by
  induction fuel with
  | zero =>
    intro i before after _ hfuel
    have hlt := i.isLt
    omega
  | succ fuel ih =>
    intro i before after hseq hfuel
    rw [hash_next_loop, bucket_at h i]
    simp only [Option.bind_eq_bind, Option.bind_some]
    cases after with
    | nil =>
      rw [if_pos (show following (h.lists i) [] = (h.lists i).tail from rfl), ht.bucket_cnt]
      by_cases hlast : (i : Nat) + 1 ≥ h.buckets.length
      · rw [if_pos hlast, elements_from_end seq hlast]
        exact ⟨_, rfl, rfl⟩
      · have hnext : (i : Nat) + 1 < h.buckets.length := by omega
        have hbucket := bucket_at h ⟨i + 1, hnext⟩
        simp only at hbucket
        rw [if_neg hlast, hbucket, List.nil_append, elements_from_cons seq ⟨i + 1, hnext⟩]
        simp only [Option.bind_some, ht.lists.list_begin]
        exact @ih ⟨i + 1, hnext⟩ [] (seq ⟨i + 1, hnext⟩) rfl (by simp only; omega)
    | cons e after =>
      have hne : e ≠ (h.lists i).tail := by
        intro heq
        apply ht.lists.tail_not_mem i
        rw [hseq, ← heq]
        exact List.mem_append_right _ List.mem_cons_self
      rw [following_cons, if_neg hne]
      refine ⟨_, rfl, rfl, i, before ++ [e], after, rfl, ?_, ?_, rfl⟩
      · rw [preceding, List.getLastD_concat]
      · rw [hseq, List.append_assoc, List.singleton_append]

omit [DecidableEq Node] in
theorem hash_first_run (ht : Table m h seq) :
    ∃ it, hash_first h = some it ∧ Position h seq it (h.abstract seq).elems := by
  have hpos : 0 < h.buckets.length := ht.bucket_cnt ▸ ht.pos
  refine ⟨⟨0, some (h.lists ⟨0, hpos⟩).head⟩, ?_, ⟨0, hpos⟩, [], seq ⟨0, hpos⟩, rfl, rfl, rfl, ?_⟩
  · rw [hash_first, bucket_at h ⟨0, hpos⟩]
    rfl
  · exact elements_from_cons seq ⟨0, hpos⟩

/-- The header element of the first bucket is no exception. -/
theorem hash_next_run (ht : Table m h seq) {it : hash_iterator Node} {rest : List Node}
    (hit : Position h seq it rest) :
    ∃ it', hash_next m h it = some it' ∧ Advanced h seq it' rest := by
  obtain ⟨i, before, after, hbucket, helem, hseq, rfl⟩ := hit
  have hnext : list_next m (preceding (h.lists i) before) = some (following (h.lists i) after) := by
    have hlink := (ht.lists.neighbours hseq).1
    have hguard : (is_head m (preceding (h.lists i) before) || is_interior m
        (preceding (h.lists i) before)) = true := by
      rw [is_head, is_interior, hlink]
      cases (m (preceding (h.lists i) before)).prev <;> rfl
    rw [list_next, hguard, hlink]
    rfl
  have hrun := hash_next_loop_run ht (h.bucket_cnt + 1) hseq (by rw [ht.bucket_cnt]; omega)
  rw [hash_next, helem, hbucket]
  simp only [Option.bind_eq_bind, Option.bind_some, hnext]
  exact hrun

theorem iterate_run (ht : Table m h seq) (fuel : Nat) : ∀ {it : hash_iterator Node} {rest : List Node},
    Position h seq it rest → rest.length < fuel → iterate m h fuel it = some rest := by
  induction fuel with
  | zero => exact fun _ hfuel => absurd hfuel (Nat.not_lt_zero _)
  | succ fuel ih =>
    intro it rest hit hfuel
    obtain ⟨it', hnext, hadvanced⟩ := hash_next_run ht hit
    simp only [iterate, hnext, Option.bind_eq_bind, Option.bind_some]
    cases rest with
    | nil =>
      have hend : it'.elem = none := hadvanced
      rw [hend]
      rfl
    | cons e rest =>
      obtain ⟨helem, hit'⟩ := hadvanced
      simp only [helem, ih hit' (Nat.lt_of_succ_lt_succ hfuel), Option.bind_some]
      rfl

section Apply

variable {σ : Type} {action : Node → Memory Node × σ → Memory Node × σ}

/-- The action leaves the links of the table's nodes as they are. -/
def KeepsLinks (h : hash_table Node) (seq : Fin h.buckets.length → List Node)
    (action : Node → Memory Node × σ → Memory Node × σ) : Prop :=
  ∀ e s x, Member h.lists seq x → (action e s).1 x = s.1 x

theorem apply_bucket_run (haction : KeepsLinks h seq action) (fuel : Nat) : ∀ {i : Fin h.buckets.length}
    {before after : List Node} {s : Memory Node × σ}, WellFormed s.1 h.lists seq → seq i = before ++ after →
    after.length < fuel →
    apply_bucket action (h.lists i) fuel (following (h.lists i) after) s =
        some (after.foldl (fun s e => action e s) s) ∧
      WellFormed (after.foldl (fun s e => action e s) s).1 h.lists seq := by
  induction fuel with
  | zero => exact fun _ _ hfuel => absurd hfuel (Nat.not_lt_zero _)
  | succ fuel ih =>
    intro i before after s hwf hseq hfuel
    cases after with
    | nil =>
      rw [apply_bucket, if_pos (show following (h.lists i) [] = (h.lists i).tail from rfl)]
      exact ⟨rfl, hwf⟩
    | cons e after =>
      have hne : e ≠ (h.lists i).tail := by
        intro heq
        apply hwf.tail_not_mem i
        rw [hseq, ← heq]
        exact List.mem_append_right _ List.mem_cons_self
      have hseq' : seq i = (before ++ [e]) ++ after := by
        rw [hseq, List.append_assoc, List.singleton_append]
      have hlink := (hwf.neighbours hseq').1
      rw [preceding, List.getLastD_concat] at hlink
      have hnext : list_next s.1 e = some (following (h.lists i) after) := by
        rw [list_next, hwf.interior hseq, Bool.or_true, hlink]
        rfl
      have hwf' : WellFormed (action e s).1 h.lists seq := hwf.congr (haction e s)
      obtain ⟨hrun, hend⟩ := ih hwf' hseq' (Nat.lt_of_succ_lt_succ hfuel)
      refine ⟨?_, hend⟩
      rw [apply_bucket, following_cons, if_neg hne, hnext]
      exact hrun

theorem apply_loop_run (haction : KeepsLinks h seq action) {fuel : Nat} (hfuel : ∀ i, (seq i).length < fuel)
    (left : Nat) : ∀ {i : Nat} {s : Memory Node × σ}, WellFormed s.1 h.lists seq → i + left = h.buckets.length →
    apply_loop action h fuel left i s = some ((elements_from seq i).foldl (fun s e => action e s) s) := by
  induction left with
  | zero =>
    intro i s _ hi
    rw [elements_from_end seq (by omega)]
    rfl
  | succ left ih =>
    intro i s hwf hi
    have hlt : i < h.buckets.length := by omega
    obtain ⟨hrun, hwf'⟩ := apply_bucket_run haction fuel hwf (List.nil_append (seq ⟨i, hlt⟩)).symm
      (hfuel ⟨i, hlt⟩)
    have hbucket := bucket_at h ⟨i, hlt⟩
    simp only at hbucket
    rw [apply_loop, hbucket, elements_from_cons seq ⟨i, hlt⟩, List.foldl_append]
    simp only [Option.bind_eq_bind, Option.bind_some, hwf.list_begin ⟨i, hlt⟩, hrun]
    exact ih hwf' (by omega)

end Apply

section Clear

variable {σ : Type} {s : heap Node σ} {seq' : Fin h.buckets.length → List Node}
  {i : Fin h.buckets.length} {e : Node}
  {after : List Node}

/-- The lists are in memory that has not been freed. -/
structure Live (s : heap Node σ) (h : hash_table Node) (seq : Fin h.buckets.length → List Node) : Prop where
  lists : WellFormed s.links h.lists seq
  live : ∀ x, Member h.lists seq x → x ∉ s.freed

/-- The destructor changes no links of the table's nodes but those of its element and of elements
that have been freed. -/
structure Destroys (h : hash_table Node) (seq : Fin h.buckets.length → List Node)
    (destructor : Node → heap Node σ → heap Node σ) : Prop where
  freed : ∀ e s, (destructor e s).freed = s.freed
  links : ∀ e s x, Member h.lists seq x → x ≠ e → x ∉ s.freed → (destructor e s).links x = s.links x

theorem load_eq {x : Node} (hx : x ∉ s.freed) : load s x = some (s.links x) := by
  rw [load, guard, if_pos hx]
  rfl

omit [DecidableEq Node] in
theorem Live.head (hs : Live s h seq) (i : Fin h.buckets.length) : (h.lists i).head ∉ s.freed :=
  hs.live _ ⟨i, mem_nodes.mpr (.inl rfl)⟩

omit [DecidableEq Node] in
theorem Live.tail (hs : Live s h seq) (i : Fin h.buckets.length) : (h.lists i).tail ∉ s.freed :=
  hs.live _ ⟨i, mem_nodes.mpr (.inr (.inr rfl))⟩

theorem list_empty_run (hs : Live s h seq) (i : Fin h.buckets.length) :
    list_empty s (h.lists i) = some (seq i).isEmpty := by
  rw [list_empty, load_eq (hs.head i), ← list_empty_eq hs.lists i]
  rfl

theorem list_init_run (hs : Live s h seq) (i : Fin h.buckets.length) :
    list_init s (h.lists i) = some { s with links := kernel.list_init s.links (h.lists i) } ∧
      Live { s with links := kernel.list_init s.links (h.lists i) } h (Function.update seq i []) := by
  refine ⟨?_, (kernel.list_init_run hs.lists i).1, ?_⟩
  · simp [list_init, store_prev, store_next, hs.head i, hs.tail i, kernel.list_init]
  · rintro x ⟨j, hx⟩
    apply hs.live x
    obtain rfl | hj := eq_or_ne j i
    · rw [Function.update_self] at hx
      obtain hx | hx | hx := mem_nodes.mp hx
      · exact ⟨j, mem_nodes.mpr (.inl hx)⟩
      · cases hx
      · exact ⟨j, mem_nodes.mpr (.inr (.inr hx))⟩
    · rw [Function.update_of_ne hj] at hx
      exact ⟨j, hx⟩

/-- The first element leaves its list; neither it nor its neighbours have been freed. -/
theorem list_pop_front_run (hs : Live s h seq) (hseq : seq i = e :: after) :
    ∃ links', list_pop_front s (h.lists i) = some ({ s with links := links' }, e) ∧
      WellFormed links' h.lists (Function.update seq i after) := by
  obtain ⟨links', hrun, hwf, -⟩ := kernel.list_pop_front_run hs.lists hseq
  refine ⟨links', ?_, hwf⟩
  have hhead := hs.head i
  have hmem : e ∈ nodes (h.lists i) (seq i) := mem_nodes.mpr (.inr (.inl (hseq ▸ List.mem_cons_self)))
  have he : e ∉ s.freed := hs.live e ⟨i, hmem⟩
  have hfollowing : following (h.lists i) after ∉ s.freed := by
    apply hs.live _ ⟨i, ?_⟩
    rw [hseq]
    exact following_mem (h.lists i) [e] after
  have hbegin : (s.links (h.lists i).head).next = some e := by
    have hlink := hs.lists.list_begin i
    rwa [hseq] at hlink
  have hprev : (s.links e).prev = some (h.lists i).head := by
    have hlink := (hs.lists.neighbours (show seq i = [] ++ e :: after from hseq)).2
    exact hlink
  have hnext : (s.links e).next = some (following (h.lists i) after) := by
    have hlink := (hs.lists.neighbours (show seq i = [e] ++ after from hseq)).1
    exact hlink
  have hne : e ≠ (h.lists i).head := fun heq => hs.lists.head_not_mem i (heq ▸ hseq ▸ List.mem_cons_self)
  have hempty := list_empty_run hs i
  have hempty' := list_empty_eq hs.lists i
  rw [hseq] at hempty hempty'
  have hinterior := hs.lists.interior (show seq i = [] ++ e :: after from hseq)
  have hlinks : set_prev (set_next s.links (h.lists i).head (some (following (h.lists i) after)))
      (following (h.lists i) after) (some (h.lists i).head) = links' := by
    simpa [kernel.list_pop_front, kernel.list_front, hempty', hbegin, kernel.list_remove, hinterior,
      hprev, hnext, hne]
      using hrun
  have hend : (links' e).next = some (following (h.lists i) after) := by
    rw [← hlinks]
    simp [hne, hnext]
  simp [list_pop_front, list_front, hempty, load, hhead, hbegin, list_remove, he, hprev, hnext, store_next, hne,
    store_prev, hfollowing, hlinks, hend]

/-- The destructor is called for the elements of the bucket, from the first to the last. -/
theorem clear_bucket_run {destructor : Node → heap Node σ → heap Node σ}
    (hd : Destroys h seq destructor) (fuel : Nat) :
    ∀ {after : List Node} {seq' : Fin h.buckets.length → List Node} {s : heap Node σ}, Live s h seq' →
      (∀ x, Member h.lists seq' x → Member h.lists seq x) → seq' i = after → after.length < fuel →
      ∃ s', clear_bucket destructor (h.lists i) fuel s = some s' ∧ s'.freed = after.reverse ++ s.freed ∧
        Live s' h (Function.update seq' i []) := by
  induction fuel with
  | zero => exact fun _ _ _ hfuel => absurd hfuel (Nat.not_lt_zero _)
  | succ fuel ih =>
    intro after seq' s hs hsub hseq hfuel
    rw [clear_bucket, list_empty_run hs i, hseq]
    cases after with
    | nil =>
      refine ⟨s, rfl, rfl, ?_⟩
      rwa [← hseq, Function.update_eq_self]
    | cons e after =>
      obtain ⟨links', hpop, hwf⟩ := list_pop_front_run hs hseq
      have hmem : e ∈ nodes (h.lists i) (seq' i) := mem_nodes.mpr (.inr (.inl (hseq ▸ List.mem_cons_self)))
      -- The nodes that are left were there before, and the element is not one of them.
      have hleft : ∀ x, Member h.lists (Function.update seq' i after) x → Member h.lists seq' x ∧ x ≠ e := by
        rintro x ⟨j, hx⟩
        obtain rfl | hj := eq_or_ne j i
        · rw [Function.update_self] at hx
          have hold : x ∈ nodes (h.lists j) (seq' j) := by
            rw [hseq]
            simp only [mem_nodes, List.mem_cons] at hx ⊢
            tauto
          refine ⟨⟨j, hold⟩, ?_⟩
          rintro rfl
          have hnodup := hs.lists.nodup j
          rw [hseq, nodes, List.cons_append, List.cons_append, List.nodup_cons, List.nodup_cons] at hnodup
          simp only [nodes, List.cons_append, List.mem_cons] at hx hnodup
          obtain hx | hx := hx
          · exact hnodup.1 (.inl hx.symm)
          · exact hnodup.2.1 hx
        · rw [Function.update_of_ne hj] at hx
          refine ⟨⟨j, hx⟩, ?_⟩
          rintro rfl
          exact hj (hs.lists.disjoint j i x hx hmem)
      have hs' : Live (free (destructor e { s with links := links' }) e) h (Function.update seq' i after) := by
        constructor
        · apply hwf.congr
          intro x hx
          obtain ⟨hx', hne⟩ := hleft x hx
          exact hd.links e { s with links := links' } x (hsub x hx') hne (hs.live x hx')
        · intro x hx
          obtain ⟨hx', hne⟩ := hleft x hx
          rw [free, hd.freed]
          exact List.not_mem_cons_of_ne_of_not_mem hne (hs.live x hx')
      obtain ⟨s', hrun, hfreed, hs''⟩ := ih hs' (fun x hx => hsub x (hleft x hx).1) (Function.update_self ..)
        (Nat.lt_of_succ_lt_succ hfuel)
      refine ⟨s', ?_, ?_, ?_⟩
      · simp only [List.isEmpty_cons, Option.bind_eq_bind, Option.bind_some, Bool.false_eq_true, if_false, hpop]
        exact hrun
      · rw [hfreed, free, hd.freed, List.reverse_cons, List.append_assoc]
        rfl
      · rwa [Function.update_idem] at hs''

omit [DecidableEq Node] in
/-- The buckets before number `i` are empty. -/
def cleared {n : Nat} (seq : Fin n → List Node) (i : Nat) (j : Fin n) : List Node := if j < i then [] else seq j

omit [DecidableEq Node] in
theorem cleared_succ {n : Nat} (seq : Fin n → List Node) (i : Fin n) :
    Function.update (cleared seq i) i [] = cleared seq (i + 1) := by
  funext j
  obtain rfl | hj := eq_or_ne j i
  · rw [Function.update_self, cleared, if_pos (Nat.lt_succ_self _)]
  · have hne : (j : Nat) ≠ i := fun heq => hj (Fin.ext heq)
    have hlt : (j : Nat) < i + 1 ↔ (j : Nat) < i := by omega
    rw [Function.update_of_ne hj, cleared, cleared]
    simp only [hlt]

/-- The buckets are cleared one after the other. -/
theorem clear_loop_run {destructor : Node → heap Node σ → heap Node σ}
    (hd : Destroys h seq destructor) {fuel : Nat}
    (hfuel : ∀ i, (seq i).length < fuel) (left : Nat) : ∀ {i : Nat} {s : heap Node σ},
    Live s h (cleared seq i) →
    i + left = h.buckets.length →
    ∃ s', clear_loop (some destructor) h fuel left i s = some s' ∧
      s'.freed = (elements_from seq i).reverse ++ s.freed ∧ Live s' h fun _ => [] := by
  induction left with
  | zero =>
    intro i s hs hi
    refine ⟨s, rfl, ?_, ?_⟩
    · rw [elements_from_end seq (by omega)]
      rfl
    · have hall : cleared seq i = fun _ => [] := by
        funext j
        exact if_pos (by omega)
      rwa [hall] at hs
  | succ left ih =>
    intro i s hs hi
    have hlt : i < h.buckets.length := by omega
    have hseq : cleared seq i ⟨i, hlt⟩ = seq ⟨i, hlt⟩ := if_neg (Nat.lt_irrefl i)
    have hsub : ∀ x, Member h.lists (cleared seq i) x → Member h.lists seq x := by
      rintro x ⟨j, hx⟩
      refine ⟨j, ?_⟩
      rw [cleared] at hx
      split_ifs at hx
      · simp only [mem_nodes, List.not_mem_nil, false_or] at hx ⊢
        tauto
      · exact hx
    obtain ⟨s₁, hrun₁, hfreed₁, hs₁⟩ := clear_bucket_run hd fuel hs hsub hseq (hfuel ⟨i, hlt⟩)
    obtain ⟨hinit, hs₂⟩ := list_init_run hs₁ ⟨i, hlt⟩
    rw [Function.update_idem, cleared_succ seq ⟨i, hlt⟩] at hs₂
    obtain ⟨s₃, hrun₃, hfreed₃, hs₃⟩ := @ih (i + 1) _ hs₂ (by omega)
    refine ⟨s₃, ?_, ?_, hs₃⟩
    · have hbucket := bucket_at h ⟨i, hlt⟩
      simp only at hbucket
      rw [clear_loop, hbucket]
      simp only [Option.bind_eq_bind, Option.bind_some, hrun₁, hinit]
      exact hrun₃
    · rw [hfreed₃, hfreed₁, elements_from_cons seq ⟨i, hlt⟩, List.reverse_append, List.append_assoc]

end Clear

omit [DecidableEq Node] in
theorem length_bucket_le (h : hash_table Node) (seq : Fin h.buckets.length → List Node)
    (i : Fin h.buckets.length) : (seq i).length ≤ (h.abstract seq).elems.length :=
  (List.sublist_flatten_of_mem (List.mem_ofFn.mpr ⟨i, rfl⟩)).length_le

/-- The iteration yields each element; `hash_apply` calls its action, and `hash_clear` its destructor,
for each element; then the table is empty. -/
structure VisitsEachOnce (m : Memory Node) (h : hash_table Node) (seq : Fin h.buckets.length → List Node)
    (fuel : Nat) : Prop where
  once : (h.abstract seq).elems.Nodup
  iterate : (hash_first h).bind (iterate m h fuel) = some (h.abstract seq).elems
  apply : ∀ {σ : Type} (action : Node → Memory Node × σ → Memory Node × σ) (other : σ),
    KeepsLinks h seq action →
    hash_apply action h fuel (m, other) = some ((h.abstract seq).elems.foldl (fun s e => action e s) (m, other))
  clear : ∀ {σ : Type} (destructor : Node → heap Node σ → heap Node σ) (s : heap Node σ),
    Destroys h seq destructor →
    s.links = m → (∀ x, Member h.lists seq x → x ∉ s.freed) →
    ∃ s', hash_clear (some destructor) h fuel s = some ({ h with elem_cnt := 0 }, s') ∧
      s'.freed = (h.abstract seq).elems.reverse ++ s.freed ∧ Table s'.links { h with elem_cnt := 0 } fun _ => []

/-- In any table the loops end, within the buckets and without a freed element, and come to each
element once. -/
theorem hash_visits_each_once (ht : Table m h seq) {fuel : Nat} (hfuel : (h.abstract seq).elems.length < fuel) :
    VisitsEachOnce m h seq fuel := by
  have hbucket : ∀ i, (seq i).length < fuel := fun i => Nat.lt_of_le_of_lt (length_bucket_le h seq i) hfuel
  have hcnt : 0 + h.bucket_cnt = h.buckets.length := (Nat.zero_add _).trans ht.bucket_cnt
  refine ⟨ht.nodup, ?_, ?_, ?_⟩
  · obtain ⟨it, hfirst, hit⟩ := hash_first_run ht
    rw [hfirst]
    exact iterate_run ht fuel hit hfuel
  · intro σ action other haction
    exact apply_loop_run haction hbucket h.bucket_cnt ht.lists hcnt
  · intro σ destructor s hd hlinks hlive
    have hs : Live s h (cleared seq 0) := ⟨hlinks ▸ ht.lists, hlive⟩
    obtain ⟨s', hrun, hfreed, hs'⟩ := clear_loop_run hd hbucket h.bucket_cnt hs hcnt
    refine ⟨s', ?_, hfreed, ht.bucket_cnt, ht.pos, ?_, hs'.lists⟩
    · rw [hash_clear, hrun]
      rfl
    · have hempty : (List.ofFn fun _ : Fin h.buckets.length => ([] : List Node)).flatten = [] := by
        rw [List.flatten_eq_nil_iff]
        intro l hl
        obtain ⟨-, rfl⟩ := List.mem_ofFn.mp hl
        rfl
      exact (congrArg List.length hempty).symm

end Tables

/-- Two buckets, of which the first is empty. -/
def two_buckets : hash_table Nat := ⟨1, 2, [⟨0, 1⟩, ⟨2, 3⟩]⟩

def two_buckets_links : Memory Nat := fun x =>
  if x = 0 then ⟨none, some 1⟩ else if x = 1 then ⟨some 0, none⟩ else if x = 2 then ⟨none, some 4⟩
  else if x = 3 then ⟨some 4, none⟩ else ⟨some 2, some 3⟩

def two_buckets_seq : Fin two_buckets.buckets.length → List Nat := fun i => if (i : Nat) = 0 then [] else [4]

theorem two_buckets_table : Table two_buckets_links two_buckets two_buckets_seq := by
  refine ⟨by decide, by decide, by decide, ?_, by decide, by decide, by decide, ?_⟩
  · unfold Linked
    decide
  · have hnodes : ∀ i j, ∀ x ∈ nodes (two_buckets.lists i) (two_buckets_seq i),
        x ∈ nodes (two_buckets.lists j) (two_buckets_seq j) → i = j := by
      decide
    exact hnodes

/-- The element of the second bucket is come to. -/
theorem hash_visits_second : VisitsEachOnce two_buckets_links two_buckets two_buckets_seq 2 :=
  hash_visits_each_once two_buckets_table (by decide)

end pintos.kernel.hash_memory
