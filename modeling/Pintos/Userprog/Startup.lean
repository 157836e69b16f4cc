import Pintos.Userprog.Stack

/-!
# Starting a process (`userprog/process.c`)

`process_execute` copies the command line and cuts the name of the executable out of it;
`load` does the latter again, and then lays the arguments out on the stack page.
-/

open bytes state_error text

namespace pintos.userprog.process

/-- `'\n'`. -/
def NEWLINE : Byte := 10

/-- What can go wrong when a process starts: a fault while the arguments are passed, a
store outside the block of `get_command`, or a loop over a string without an end. -/
inductive StartFault where
  | passing (fault : Fault)
  | command_store
  | endless
  deriving DecidableEq, Repr

/-- Code that starts a process. -/
abbrev Starting (α : Type) := Except StartFault α

/-- The number of bytes that `get_command` asks `malloc` for. -/
def COMMAND_SIZE : Nat := 128

/-- `command[idx] = ch`; `block` says whether `malloc` has returned a block. -/
def store_command (block : Bool) (command : Nat → Byte) (idx : Nat) (ch : Byte) : Starting (Nat → Byte) :=
  if block = true ∧ idx < COMMAND_SIZE then .ok fun i =>
    if i = idx then ch else command i else .error .command_store

/-- The loop of `get_command`. -/
def get_command_loop (block : Bool) (file_name : Nat → Byte) : Nat → Nat → (Nat → Byte) → Starting (Nat → Byte)
  | 0, _, _ => .error .endless
  | n + 1, idx, command =>
    let ch := file_name idx
    if ch ≠ NEWLINE ∧ ch ≠ SPACE ∧ ch ≠ 0 then do
      get_command_loop block file_name n (idx + 1) (← store_command block command idx ch)
    else store_command block command idx 0

/-- `get_command`, on a string of `len` characters; `garbage` is what the block holds. -/
def get_command (len : Nat) (block : Bool) (garbage file_name : Nat → Byte) : Starting (Nat → Byte) :=
  get_command_loop block file_name (len + 1) 0 garbage

/-- The null-terminated string at a position, of less than `n` characters. -/
def c_string (b : Nat → Byte) : Nat → Nat → List Byte
  | 0, _ => []
  | n + 1, pos => if b pos = 0 then [] else b pos :: c_string b n (pos + 1)

/-- `strlcpy` of a string of at most `len` characters. -/
def strlcpy (len : Nat) (dst src : Nat → Byte) (size : Nat) : Nat → Byte :=
  let src_len := (c_string src (len + 1) 0).length
  let dst_len := if src_len < size - 1 then src_len else size - 1
  fun i => if i = dst_len then 0 else copy dst 0 src 0 dst_len i

/-- The rest of the kernel, as a process starts: whether there is a page for the copy of
the command line, a block for each name, a thread, a page directory and a block for the
addresses of the arguments; whether the executable of a name opens, is valid and finds
its memory; and what memory holds. -/
structure Environment where
  fn_copy : Bool
  command : Bool
  thread : Bool
  pagedir : Bool
  load_command : Bool
  executable : List Byte → Bool
  address : Bool
  garbage : Nat → Byte
  argv : Nat → Nat

/-- The addresses of the stack page. -/
def stack_page (a : Nat) : Bool := decide (PHYS_BASE.toNat - PGSIZE ≤ a ∧ a < PHYS_BASE.toNat)

/-- What `setup_stack` leaves: of user memory, only the stack page is meant to be written
from there on. -/
def Environment.setup_stack (env : Environment) (file_name : Nat → Byte) : Args where
  line := file_name
  argv := env.argv
  mem _ := 0
  mapped := stack_page
  esp := PHYS_BASE.toNat

/-- `load`. -/
def load (env : Environment) (len : Nat) (file_name : Nat → Byte) : Starting Bool := do
  if !env.pagedir then return false
  let command ← get_command len env.load_command env.garbage file_name
  if !env.executable (c_string command COMMAND_SIZE 0) then return false
  match (set_argv len >>= set_stack len env.address) (env.setup_stack file_name) with
  | .ok _ => return true
  | .error fault => throw (.passing fault)

/-- `process_execute`, with the call of `load` in the new thread: what `load` returns,
unless there is none. -/
def process_execute (env : Environment) (len : Nat) (file_name : Nat → Byte) : Starting (Option Bool) := do
  if !env.fn_copy then return none
  let fn_copy := strlcpy len env.garbage file_name PGSIZE
  let _ ← get_command len env.command env.garbage file_name
  if !env.thread then return none
  return some (← load env len fn_copy)

section Command

variable {b file_name command : Nat → Byte} {l : List Byte} {pos n : Nat} {block : Bool}

theorem c_string_run (h : CString b pos l) (hnonzero : ∀ c ∈ l, c ≠ 0) (hn : l.length < n) :
    c_string b n pos = l := by
  induction l generalizing pos n with
  | nil =>
    obtain ⟨n, rfl⟩ := Nat.exists_eq_succ_of_ne_zero (Nat.ne_of_gt hn)
    have hzero : b pos = 0 := h
    rw [c_string, if_pos hzero]
  | cons c l ih =>
    obtain ⟨n, rfl⟩ := Nat.exists_eq_succ_of_ne_zero (Nat.ne_of_gt (Nat.zero_lt_of_lt hn))
    have hc : b pos = c := h.1
    rw [c_string, hc, if_neg (hnonzero c List.mem_cons_self),
      ih h.2 (fun d hd => hnonzero d (List.mem_cons_of_mem c hd)) (Nat.lt_of_succ_lt_succ hn)]

/-- `strlcpy` keeps the front of the string. -/
theorem strlcpy_run {len size : Nat} (dst : Nat → Byte) (h : CString b 0 l) (hnonzero : ∀ c ∈ l, c ≠ 0)
    (hlen : l.length ≤ len) : CString (strlcpy len dst b size) 0 (l.take (size - 1)) := by
  have hcount : (if l.length < size - 1 then l.length else size - 1) = (l.take (size - 1)).length := by
    rw [List.length_take]
    split <;> omega
  rw [strlcpy, c_string_run h hnonzero (Nat.lt_succ_of_le hlen), hcount]
  have hsplit : CString b 0 (l.take (size - 1) ++ l.drop (size - 1)) := by rwa [List.take_append_drop]
  refine hsplit.front (fun i hi => ?_) ?_
  · rw [if_neg (by omega), copy_inside (by omega) (by omega)]
    congr 1
    omega
  · rw [if_pos (by omega)]

/-- The name of the executable in a command line: what comes before the first space or
the end of the first line. -/
def command_name (l : List Byte) : List Byte := l.takeWhile fun c => c ≠ NEWLINE ∧ c ≠ SPACE

@[simp] theorem command_name_nil : command_name [] = [] := rfl

theorem command_name_cons (c : Byte) (l : List Byte) :
    command_name (c :: l) = if c ≠ NEWLINE ∧ c ≠ SPACE then c :: command_name l else [] := by
  rw [command_name, List.takeWhile_cons]
  simp only [decide_eq_true_eq]
  rfl

/-- The loop of `get_command` stores the rest of the name if it fits, and goes past the
block otherwise. -/
theorem get_command_loop_run (l : List Byte) : ∀ {idx n : Nat} {command : Nat → Byte}, CString file_name idx l →
    (∀ c ∈ l, c ≠ 0) → l.length < n →
      if block = true ∧ idx + (command_name l).length < COMMAND_SIZE then
        ∃ command', get_command_loop block file_name n idx command = .ok command' ∧
          (∀ i < idx, command' i = command i) ∧ CString command' idx (command_name l)
      else get_command_loop block file_name n idx command = .error .command_store := by
  have hend : ∀ {idx n : Nat} {command : Nat → Byte}, ¬ (file_name idx ≠ NEWLINE ∧
      file_name idx ≠ SPACE ∧ file_name idx ≠ 0) →
      0 < n → if block = true ∧ idx + 0 < COMMAND_SIZE then
        ∃ command', get_command_loop block file_name n idx command = .ok command' ∧
          (∀ i < idx, command' i = command i) ∧ CString command' idx []
      else get_command_loop block file_name n idx command = .error .command_store := by
    intro idx n command hstop hn
    obtain ⟨n, rfl⟩ := Nat.exists_eq_succ_of_ne_zero (Nat.ne_of_gt hn)
    rw [get_command_loop]
    simp only [if_neg hstop, store_command, Nat.add_zero]
    split
    · exact ⟨_, rfl, fun i hi => if_neg (Nat.ne_of_lt hi), if_pos rfl⟩
    · rfl
  induction l with
  | nil =>
    intro idx n command h _ hn
    have hzero : file_name idx = 0 := h
    exact hend (by simp [hzero]) (Nat.zero_lt_of_lt hn)
  | cons c l ih =>
    intro idx n command h hnonzero hn
    have hc : file_name idx = c := h.1
    rw [command_name_cons]
    by_cases hname : c ≠ NEWLINE ∧ c ≠ SPACE
    · obtain ⟨n, rfl⟩ := Nat.exists_eq_succ_of_ne_zero (Nat.ne_of_gt (Nat.zero_lt_of_lt hn))
      rw [if_pos hname, get_command_loop]
      simp only [hc, if_pos (show c ≠ NEWLINE ∧ c ≠ SPACE ∧
        c ≠ 0 from ⟨hname.1, hname.2, hnonzero c List.mem_cons_self⟩),
        List.length_cons]
      have hrest := @ih (idx + 1) n (fun i => if i = idx then c else command i) h.2
        (fun d hd => hnonzero d (List.mem_cons_of_mem c hd)) (Nat.lt_of_succ_lt_succ hn)
      rw [Nat.add_assoc, Nat.add_comm 1] at hrest
      by_cases hfits : block = true ∧ idx < COMMAND_SIZE
      · rw [store_command, if_pos hfits]
        split at hrest
        · next hall =>
          obtain ⟨command', hrun, hsame, hstring⟩ := hrest
          rw [if_pos hall]
          refine ⟨command', hrun, fun i hi => ?_, ?_, hstring⟩
          · rw [hsame i (Nat.lt_succ_of_lt hi), if_neg (Nat.ne_of_lt hi)]
          · rw [hsame idx (Nat.lt_succ_self idx), if_pos rfl]
        · next hnot =>
          rw [if_neg hnot]
          exact hrest
      · rw [store_command, if_neg hfits, if_neg fun hall => hfits ⟨hall.1, by omega⟩]
        rfl
    · rw [if_neg hname]
      exact hend (fun h => hname (hc ▸ ⟨h.1, h.2.1⟩)) (Nat.zero_lt_of_lt hn)

/-- The name of the executable fits into its block, with the null byte. -/
def NameFits (block : Bool) (l : List Byte) : Prop := block = true ∧ (command_name l).length < COMMAND_SIZE

theorem get_command_run {len : Nat} (garbage : Nat → Byte) (h : CString file_name 0 l)
    (hnonzero : ∀ c ∈ l, c ≠ 0) (hlen : l.length ≤ len) (hfits : NameFits block l) :
    ∃ command, get_command len block garbage file_name = .ok command ∧ CString command 0 (command_name l) := by
  have hrun := @get_command_loop_run file_name block l _ _ garbage h hnonzero (Nat.lt_succ_of_le hlen)
  rw [Nat.zero_add, if_pos (And.intro hfits.1 hfits.2)] at hrun
  obtain ⟨command, hrun, -, hstring⟩ := hrun
  exact ⟨command, hrun, hstring⟩

theorem get_command_error {len : Nat} (garbage : Nat → Byte) (h : CString file_name 0 l)
    (hnonzero : ∀ c ∈ l, c ≠ 0) (hlen : l.length ≤ len) (hnot : ¬ NameFits block l) :
    get_command len block garbage file_name = .error .command_store := by
  have hrun := @get_command_loop_run file_name block l _ _ garbage h hnonzero (Nat.lt_succ_of_le hlen)
  rwa [Nat.zero_add, if_neg (fun h => hnot ⟨h.1, h.2⟩)] at hrun

end Command

section Passing

variable {t t' : Args} {tokens : List (List Byte)}

/-- `set_argv` goes past the end of `argv` where there are too many words. -/
theorem set_argv_loop_overflow {len : Nat} (l : List Byte) : ∀ {t : Args} {pos fuel argc : Nat},
    CString t.line pos l → (∀ c ∈ l, c ≠ 0) → l.length ≤ len → argc ≤ ARGV_CNT →
    ARGV_CNT < argc + (words SPACE l).length → (words SPACE l).length ≤ fuel →
    (strtok_r len [SPACE] pos >>= fun next => set_argv_loop len fuel next argc) t = .error .argv_overflow := by
  induction l using words_induction SPACE with
  | none l hl =>
    intro t pos fuel argc _ _ _ hle hlt _
    rw [words_eq_nil hl] at hlt
    exact absurd hlt (Nat.not_lt_of_le hle)
  | last n w hne hw =>
    intro t pos fuel argc h hnonzero hlen hle hlt hfuel
    rw [words_last n hne hw] at hlt hfuel
    simp only [List.length_append, List.length_replicate, List.length_singleton] at hlen hlt hfuel
    obtain ⟨fuel, rfl⟩ := Nat.exists_eq_succ_of_ne_zero (by omega : fuel ≠ 0)
    obtain ⟨hrun, -⟩ := strtok_r_last h hne (fun c hc => ⟨hw c hc, hnonzero c (by simp [hc])⟩) hlen
    rw [Exec.bind_run hrun, set_argv_loop]
    exact Exec.bind_error (Exec.ASSERT_error (by omega) _)
  | first n w tail hne hw ih =>
    intro t pos fuel argc h hnonzero hlen hle hlt hfuel
    rw [words_first n hne hw] at hlt hfuel
    simp only [List.length_append, List.length_replicate, List.length_cons] at hlen hlt hfuel
    obtain ⟨fuel, rfl⟩ := Nat.exists_eq_succ_of_ne_zero (by omega : fuel ≠ 0)
    obtain ⟨line', hrun, -, hrest, -⟩ :=
      strtok_r_first len h hne (fun c hc => ⟨hw c hc, hnonzero c (by simp [hc])⟩) (by omega)
    rw [Exec.bind_run hrun, set_argv_loop]
    by_cases hroom : argc < ARGV_CNT
    · rw [Exec.bind_run (Exec.ASSERT_run hroom _), Exec.bind_run (Exec.modify_run _)]
      exact ih hrest (fun c hc => hnonzero c (by simp [hc])) (by omega) hroom (by omega) (by omega)
    · exact Exec.bind_error (Exec.ASSERT_error hroom _)

/-- What the loops of `set_stack` do to the stack pointer, whatever can be written. -/
structure Lowered (t t' : Args) (n : Nat) : Prop where
  line : t'.line = t.line
  argv : t'.argv = t.argv
  mapped : t'.mapped = t.mapped
  esp : t'.esp = t.esp - n

theorem lower_esp_lowered {n : Nat} {u : Unit} (hn : n ≤ t.esp) (hesp : t.esp < 2 ^ 32)
    (h : lower_esp n t = .ok (u, t')) : Lowered t t' n := by
  rw [lower_esp_run hn hesp] at h
  cases h
  exact ⟨rfl, rfl, rfl, rfl⟩

theorem check_esp_ok {n : Nat} {u : Unit} (h : check_esp n t = .ok (u, t')) :
    t' = t ∧ ∀ i < n, t.mapped (t.esp + i) = true := by
  obtain ⟨s, s', hget, hcheck⟩ := Exec.bind_eq_ok.mp h
  cases hget
  obtain ⟨hall, rfl⟩ := Exec.ASSERT_eq_ok.mp hcheck
  exact ⟨rfl, hall⟩

theorem store_esp_ok {w : Nat} {u : Unit} (h : store_esp w t = .ok (u, t')) :
    Lowered t t' 0 ∧ t.mapped t.esp = true := by
  obtain ⟨_, s, hcheck, hstore⟩ := Exec.bind_eq_ok.mp h
  obtain ⟨rfl, hall⟩ := check_esp_ok hcheck
  cases hstore
  exact ⟨⟨rfl, rfl, rfl, rfl⟩, hall 0 (by decide)⟩

theorem Lowered.trans {t'' : Args} {m n : Nat} (h : Lowered t t' m) (h' : Lowered t' t'' n) :
    Lowered t t'' (m + n) where
  line := h'.line.trans h.line
  argv := h'.argv.trans h.argv
  mapped := h'.mapped.trans h.mapped
  esp := by rw [h'.esp, h.esp, Nat.sub_sub]

/-- A word is pushed before what follows. -/
theorem push_ok {α : Type} {g : Unit → Passing α} {w : Nat} {r : α × Args} (hroom : 4 ≤ t.esp)
    (hesp : t.esp < 2 ^ 32) (h : (lower_esp 4 >>= fun _ => store_esp w >>= g) t = .ok r) :
    ∃ s, Lowered t s 4 ∧ t.mapped (t.esp - 4) = true ∧ g () s = .ok r := by
  rw [Exec.bind_run (lower_esp_run hroom hesp)] at h
  obtain ⟨_, s, hstore, h⟩ := Exec.bind_eq_ok.mp h
  obtain ⟨hstored, hmapped⟩ := store_esp_ok hstore
  exact ⟨s, ⟨hstored.line, hstored.argv, hstored.mapped, hstored.esp⟩, hmapped, h⟩

theorem copy_args_lowered {len : Nat} {block : Bool} {pos : Nat} (hlen : ∀ w ∈ tokens, w.length ≤ len)
    (hnonzero : ∀ w ∈ tokens, ∀ c ∈ w, c ≠ 0) (i : Nat) : ∀ {t t' : Args} {mem_use : Nat} {address : Nat → Nat}
    {r : Nat × (Nat → Nat)}, Found t pos tokens → i ≤ tokens.length → t.esp < 2 ^ 32 →
    size (tokens.take i) ≤ t.esp → copy_args len block i mem_use address t = .ok (r, t') →
      Lowered t t' (size (tokens.take i)) ∧ r.1 = mem_use + size (tokens.take i) := by
  induction i with
  | zero =>
    intro t t' mem_use address r _ _ _ _ h
    cases h
    exact ⟨⟨rfl, rfl, rfl, rfl⟩, rfl⟩
  | succ i ih =>
    intro t t' mem_use address r hfound hi hesp hroom h
    obtain ⟨w, hw⟩ : ∃ w, tokens[i]? = some w := ⟨_, List.getElem?_eq_getElem hi⟩
    have hmem : w ∈ tokens := List.mem_of_getElem? hw
    rw [size_take_succ hw] at hroom ⊢
    rw [copy_args, Exec.bind_run Exec.get_run,
      Exec.bind_run (strlen_run (hfound i w hw).1 (hnonzero w hmem) (hlen w hmem)),
      Exec.bind_run (lower_esp_run (by omega) hesp)] at h
    obtain ⟨_, s, hcheck, h⟩ := Exec.bind_eq_ok.mp h
    obtain ⟨rfl, -⟩ := check_esp_ok hcheck
    rw [Exec.bind_run (Exec.modify_run _)] at h
    obtain ⟨-, h⟩ := Exec.ASSERT_bind_eq_ok.mp h
    rw [Exec.bind_run Exec.get_run] at h
    let u : Args := { t with
      mem := copy t.mem (t.esp - (w.length + 1)) t.line (t.argv i) (w.length + 1)
      esp := t.esp - (w.length + 1) }
    have hu : u.esp = t.esp - (w.length + 1) := rfl
    obtain ⟨hlowered, huse⟩ := ih (t := u) hfound (by omega) (by omega) (by omega) h
    refine ⟨⟨hlowered.line, hlowered.argv, hlowered.mapped, ?_⟩, ?_⟩
    · rw [hlowered.esp, hu]
      omega
    · rw [huse]
      omega

theorem push_addresses_lowered {address : Nat → Nat} (i : Nat) : ∀ {t t' : Args} {u : Unit}, t.esp < 2 ^ 32 →
    4 * i ≤ t.esp → push_addresses address i t = .ok (u, t') → Lowered t t' (4 * i) := by
  induction i with
  | zero =>
    intro t t' u _ _ h
    cases h
    exact ⟨rfl, rfl, rfl, rfl⟩
  | succ i ih =>
    intro t t' u hesp hroom h
    obtain ⟨s, hpushed, -, h⟩ := push_ok (by omega) hesp h
    have hesp' := hpushed.esp
    rw [Nat.mul_succ, Nat.add_comm]
    exact hpushed.trans (ih (by omega) (by omega) h)

/-- Where `set_stack` ends, the lowest byte of the image could be written. -/
theorem set_stack_ok {len : Nat} {block : Bool} {pos : Nat} {u : Unit} (hlen : ∀ w ∈ tokens, w.length ≤ len)
    (hnonzero : ∀ w ∈ tokens, ∀ c ∈ w, c ≠ 0) (hfound : Found t pos tokens) (hesp : t.esp < 2 ^ 32)
    (hroom : image_size tokens ≤ t.esp) (h : set_stack len block tokens.length t = .ok (u, t')) :
    t.mapped (t.esp - image_size tokens) = true := by
  have hsize : image_size tokens = size tokens + word_align (size tokens) + 4 * (tokens.length + 1) + 12 := rfl
  have htake : tokens.take tokens.length = tokens := List.take_length
  obtain ⟨r, t₁, hcopy, h⟩ := Exec.bind_eq_ok.mp h
  obtain ⟨h₁, huse⟩ := copy_args_lowered hlen hnonzero _ hfound (Nat.le_refl _) hesp
    (by rw [htake]; omega) hcopy
  obtain ⟨mem_use, address⟩ := r
  rw [htake] at h₁ huse
  obtain rfl : mem_use = size tokens := huse.trans (Nat.zero_add _)
  have hesp₁ := h₁.esp
  obtain ⟨_, t₂, halign, h⟩ := Exec.bind_eq_ok.mp h
  simp only [← word_align.eq_1] at halign
  have h₂ := h₁.trans (lower_esp_lowered (by omega) (by omega) halign)
  have hesp₂ := h₂.esp
  obtain ⟨t₃, hnull, -, h⟩ := push_ok (by omega) (by omega) h
  have h₃ := h₂.trans hnull
  have hesp₃ := h₃.esp
  obtain ⟨_, t₄, hpush, h⟩ := Exec.bind_eq_ok.mp h
  have h₄ := h₃.trans (push_addresses_lowered _ (by omega) (by omega) hpush)
  have hesp₄ := h₄.esp
  rw [Exec.bind_run Exec.get_run] at h
  obtain ⟨t₅, hargv, -, h⟩ := push_ok (by omega) (by omega) h
  have h₅ := h₄.trans hargv
  have hesp₅ := h₅.esp
  obtain ⟨t₆, hargc, -, h⟩ := push_ok (by omega) (by omega) h
  have h₆ := h₅.trans hargc
  have hesp₆ := h₆.esp
  rw [Exec.bind_run (lower_esp_run (by omega) (by omega))] at h
  have hbottom := (store_esp_ok h).2
  rw [h₆.mapped] at hbottom
  rw [← hbottom]
  congr 1
  simp only
  omega

theorem size_le {k : Nat} (h : ∀ w ∈ tokens, w.length ≤ k) : size tokens ≤ tokens.length * (k + 1) := by
  induction tokens with
  | nil => simp
  | cons w tokens ih =>
    have hrest := ih fun v hv => h v (List.mem_cons_of_mem w hv)
    have hw := h w List.mem_cons_self
    simp only [size, List.map_cons, List.sum_cons, List.length_cons, Nat.succ_mul] at hrest ⊢
    omega

/-- The arguments that `argv` and the stack page have room for. -/
def ArgumentsFit (block : Bool) (l : List Byte) : Prop :=
  (words SPACE l).length ≤ ARGV_CNT ∧ image_size (words SPACE l) ≤ PGSIZE ∧ (block = true ∨ words SPACE l = [])

/-- `set_argv` and `set_stack` end exactly for the arguments that fit. -/
theorem arguments_pass_iff {len : Nat} {block : Bool} {l : List Byte} (hline : CString t.line 0 l)
    (hnonzero : ∀ c ∈ l, c ≠ 0) (hshort : l.length < PGSIZE) (hlen : l.length ≤ len)
    (hesp : t.esp = PHYS_BASE.toNat) (hmapped : t.mapped = stack_page) :
    (∃ r, (set_argv len >>= set_stack len block) t = .ok r) ↔ ArgumentsFit block l := by
  have hbase : PHYS_BASE.toNat = 3221225472 := by simp [PHYS_BASE]
  have hwords : ∀ w ∈ words SPACE l, w.length ≤ len := fun w hw => (word_part_of hw).length_le.trans hlen
  have hnonzero' : ∀ w ∈ words SPACE l, ∀ c ∈ w, c ≠ 0 := fun w hw c hc => hnonzero c ((word_part_of hw).mem hc)
  by_cases hcount : (words SPACE l).length ≤ ARGV_CNT
  · obtain ⟨line', argv', pos', hrun, hfound⟩ := set_argv_run hline hnonzero hlen hcount
    rw [Exec.bind_run hrun]
    have hsize := @size_le (words SPACE l) _ fun w hw => (word_part_of hw).length_le.trans (Nat.le_of_lt hshort)
    have hbound : size (words SPACE l) ≤ 128 * 4097 := hsize.trans (Nat.mul_le_mul hcount (Nat.le_refl _))
    have himage : image_size (words SPACE l) ≤ PHYS_BASE.toNat := by
      have halign : word_align (size (words SPACE l)) ≤ 4 := by
        rw [word_align]
        split <;> omega
      rw [image_size, hbase]
      simp only [ARGV_CNT] at hcount
      omega
    constructor
    · rintro ⟨r, h⟩
      refine ⟨hcount, ?_, ?_⟩
      · have hlow := set_stack_ok hwords hnonzero' hfound (by simp only [hesp, hbase]; omega)
          (by simpa only [hesp] using himage) h
        simp only [hmapped, hesp, stack_page, decide_eq_true_eq] at hlow
        rw [hbase] at hlow himage
        simp only [PGSIZE] at hlow ⊢
        omega
      · cases block with
        | true => exact .inl rfl
        | false => exact .inr (List.length_eq_zero_iff.mp (set_stack_no_block h))
    · rintro ⟨-, hpage, hblock⟩
      obtain ⟨mem', address, hstack, -⟩ := set_stack_run hwords hnonzero' hfound hblock
        (by simp only [hesp, hbase]; omega) (by simpa only [hesp] using himage) (fun a hlow hhigh => by
          simp only [hesp] at hlow hhigh
          simp only [hmapped, stack_page, decide_eq_true_eq]
          omega)
      exact ⟨_, hstack⟩
  · have hoverflow := @set_argv_loop_overflow len l _ 0 (len + 1) 0 hline hnonzero hlen (Nat.zero_le _)
      (by omega) (Nat.le_succ_of_le ((words_length_le SPACE l).trans hlen))
    constructor
    · rintro ⟨r, h⟩
      obtain ⟨_, _, hargv, -⟩ := Exec.bind_eq_ok.mp h
      rw [set_argv, hoverflow] at hargv
      cases hargv
    · exact fun h => absurd h.1 hcount

end Passing

section Startup

variable {env : Environment} {file_name : Nat → Byte} {l : List Byte} {len : Nat}

/-- A command line that `load` has room for. -/
def Fits (l : List Byte) : Prop :=
  (command_name l).length < COMMAND_SIZE ∧ (words SPACE l).length ≤ ARGV_CNT ∧
    image_size (words SPACE l) ≤ PGSIZE

/-- What `load` needs, as far as it gets: a block that the name fits into, and then, for
a name that is an executable's, room for the arguments. -/
def LoadFits (env : Environment) (l : List Byte) : Prop :=
  env.pagedir = true → NameFits env.load_command l ∧
    (env.executable (command_name l) = true → ArgumentsFit env.address l)

theorem load_run (hpagedir : env.pagedir = true) {command : Nat → Byte}
    (hcommand : get_command len env.load_command env.garbage file_name = .ok command)
    (hread : c_string command COMMAND_SIZE 0 = command_name l) :
    load env len file_name = if env.executable (command_name l) then
      match (set_argv len >>= set_stack len env.address) (env.setup_stack file_name) with
      | .ok _ => .ok true
      | .error fault => .error (.passing fault)
    else .ok false := by
  rw [load, hpagedir, hcommand]
  simp only [Bool.not_true, Bool.false_eq_true, if_false, bind, Except.bind, hread]
  cases env.executable (command_name l) with
  | false => rfl
  | true => rfl

/-- `load` ends where everything fits as far as it gets, and is true for what fits. -/
theorem load_iff (hline : CString file_name 0 l) (hnonzero : ∀ c ∈ l, c ≠ 0) (hshort : l.length < PGSIZE)
    (hlen : l.length ≤ len) :
    ((∃ r, load env len file_name = .ok r) ↔ LoadFits env l) ∧
    (load env len file_name = .ok true → Fits l) := by
  rw [LoadFits]
  cases hpagedir : env.pagedir with
  | false =>
    have hrun : load env len file_name = .ok false := by
      rw [load, hpagedir]
      rfl
    simp [hrun]
  | true =>
    by_cases hname : NameFits env.load_command l
    · obtain ⟨command, hcommand, hstring⟩ := get_command_run env.garbage hline hnonzero hlen hname
      have hread : c_string command COMMAND_SIZE 0 = command_name l :=
        c_string_run hstring (fun c hc => hnonzero c ((List.takeWhile_prefix _).subset hc)) hname.2
      have hpass := @arguments_pass_iff (env.setup_stack file_name) len env.address l hline hnonzero hshort hlen
        (by rw [Environment.setup_stack]) (by rw [Environment.setup_stack])
      rw [load_run hpagedir hcommand hread]
      cases hexecutable : env.executable (command_name l) with
      | false => simp [hname]
      | true =>
        simp only [if_true, true_implies, hname, true_and, ← hpass]
        cases hrun : (set_argv len >>= set_stack len env.address) (env.setup_stack file_name) with
        | error fault => simp
        | ok r =>
          have hfits := hpass.mp ⟨r, hrun⟩
          simp [Fits, hname.2, hfits.1, hfits.2.1]
    · have hrun : load env len file_name = .error .command_store := by
        rw [load, hpagedir, get_command_error env.garbage hline hnonzero hlen hname]
        rfl
      simp [hrun, hname]

/-- What `process_execute` needs, as far as it gets: a block that the name fits into, and
then what `load` needs for the first page of the command line. -/
def StartFits (env : Environment) (l : List Byte) : Prop :=
  env.fn_copy = true → NameFits env.command l ∧ (env.thread = true → LoadFits env (l.take (PGSIZE - 1)))

/-- A name that its block is too short for is stored past the end of the block. -/
theorem process_execute_error (hline : CString file_name 0 l) (hnonzero : ∀ c ∈ l, c ≠ 0)
    (hlen : l.length ≤ len) (hpage : env.fn_copy = true) (hname : ¬ NameFits env.command l) :
    process_execute env len file_name = .error .command_store := by
  rw [process_execute, hpage, get_command_error env.garbage hline hnonzero hlen hname]
  rfl

/-- A process starts without a store outside of the buffers, and without a command line
that does not fit being loaded, exactly where everything fits as far as the start gets. -/
theorem process_execute_stays_inside_iff (env : Environment) (hline : CString file_name 0 l)
    (hnonzero : ∀ c ∈ l, c ≠ 0) :
    (∃ r, process_execute env l.length file_name = .ok r ∧ (¬ Fits (l.take (PGSIZE - 1)) → r ≠ some true)) ↔
      StartFits env l := by
  rw [StartFits]
  have hcopy := @strlcpy_run _ _ _ PGSIZE env.garbage hline hnonzero (Nat.le_refl _)
  have hnonzero' : ∀ c ∈ l.take (PGSIZE - 1), c ≠ 0 := fun c hc => hnonzero c (List.mem_of_mem_take hc)
  have hshort : (l.take (PGSIZE - 1)).length < PGSIZE := by
    rw [List.length_take]
    exact Nat.lt_of_le_of_lt (Nat.min_le_left ..) (by decide)
  have hle : (l.take (PGSIZE - 1)).length ≤ l.length := by
    rw [List.length_take]
    exact Nat.min_le_right ..
  obtain ⟨hload, hfits⟩ := @load_iff env _ _ _ hcopy hnonzero' hshort hle
  cases hpage : env.fn_copy with
  | false =>
    have hrun : process_execute env l.length file_name = .ok none := by
      rw [process_execute, hpage]
      rfl
    simp [hrun]
  | true =>
    by_cases hname : NameFits env.command l
    · obtain ⟨command, hcommand, -⟩ := get_command_run env.garbage hline hnonzero (Nat.le_refl _) hname
      have hrun : process_execute env l.length file_name = if env.thread then
          (load env l.length (strlcpy l.length env.garbage file_name PGSIZE)).map some else .ok none := by
        rw [process_execute, hpage, hcommand]
        cases env.thread with
        | false => rfl
        | true => rfl
      cases hthread : env.thread with
      | false => simp [hrun, hthread, hname]
      | true =>
        simp only [hrun, hthread, if_true, true_implies, hname, true_and, ← hload]
        cases hresult : load env l.length (strlcpy l.length env.garbage file_name PGSIZE) with
        | error fault => simp [Except.map]
        | ok r =>
          simp only [Except.map, Except.ok.injEq, exists_eq_left', exists_eq', iff_true]
          rintro hnot heq
          obtain rfl := Option.some.inj heq
          exact hnot (hfits hresult)
    · simp [process_execute_error hline hnonzero (Nat.le_refl _) hpage hname, hname]

/-- Nothing fails, and every name is an executable's. -/
def all_well : Environment where
  fn_copy := true
  command := true
  thread := true
  pagedir := true
  load_command := true
  executable _ := true
  address := true
  garbage _ := 0
  argv _ := 0

theorem process_execute_stays_inside_one_letter :
    (∃ r, process_execute all_well 1 one_letter.line = .ok r ∧ (¬ Fits [97] → r ≠ some true)) ↔
      StartFits all_well [97] :=
  process_execute_stays_inside_iff (l := [97]) all_well one_letter_line (by decide)

theorem replicate_line (c : Byte) (n : Nat) : ∀ {pos k : Nat}, pos + k = n →
    CString (fun i => if i < n then c else 0) pos (List.replicate k c) := by
  intro pos k
  induction k generalizing pos with
  | zero =>
    rintro rfl
    exact if_neg (Nat.lt_irrefl _)
  | succ k ih =>
    intro hn
    exact ⟨if_pos (by omega), ih (by omega)⟩

/-- The null byte after a name of 128 letters is stored past the end of the block. -/
theorem process_execute_long_name :
    ¬ ∃ r, process_execute all_well 128 (fun i => if i < 128 then 97 else 0) = .ok r ∧
      (¬ Fits ((List.replicate 128 97).take (PGSIZE - 1)) → r ≠ some true) := by
  rintro ⟨r, h, -⟩
  have hlong : ¬ NameFits all_well.command (List.replicate 128 97) := by
    rintro ⟨-, hshort⟩
    rw [command_name, List.takeWhile_replicate, if_pos (by decide), List.length_replicate] at hshort
    exact absurd hshort (by decide)
  rw [process_execute_error (replicate_line 97 128 (Nat.zero_add _)) (fun c hc => by
    rw [List.eq_of_mem_replicate hc]
    decide) (by rw [List.length_replicate]) rfl hlong] at h
  cases h

end Startup

end pintos.userprog.process
