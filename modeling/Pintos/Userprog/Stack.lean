import Pintos.Userprog.Pte
import Pintos.Userprog.Tokens

/-!
# The stack of a new process

Reading the stack that `set_stack` leaves gives the tokens back.
-/

open bytes state_error text

namespace pintos.userprog

section Frame

variable {t : Args} {tokens : List (List Byte)}

theorem strlen_loop_run {s : Nat} (l : List Byte) : ∀ {i fuel : Nat}, CString t.line (s + i) l →
    (∀ c ∈ l, c ≠ 0) →
    l.length < fuel → strlen_loop s fuel i t = .ok (i + l.length, t) := by
  induction l with
  | nil =>
    intro i fuel h _ hfuel
    obtain ⟨fuel, rfl⟩ := Nat.exists_eq_succ_of_ne_zero (by simp at hfuel; omega : fuel ≠ 0)
    have hzero : t.line (s + i) = 0 := h
    rw [strlen_loop, Exec.bind_run (char_at_run _), if_pos hzero]
    rfl
  | cons c l ih =>
    intro i fuel h hl hfuel
    obtain ⟨fuel, rfl⟩ := Nat.exists_eq_succ_of_ne_zero (by simp at hfuel; omega : fuel ≠ 0)
    have hc : t.line (s + i) = c := h.1
    rw [strlen_loop, Exec.bind_run (char_at_run _), if_neg (by rw [hc]; exact hl c (by simp)),
      ih h.2 (fun d hd => hl d (by simp [hd])) (by simp at hfuel; omega), List.length_cons,
      Nat.add_right_comm, Nat.add_assoc]

/-- `strlen` is the length of the string. -/
theorem strlen_run {s len : Nat} {l : List Byte} (h : CString t.line s l) (hl : ∀ c ∈ l, c ≠ 0)
    (hlen : l.length ≤ len) :
    strlen len s t = .ok (l.length, t) := by
  simpa [strlen] using @strlen_loop_run t s l 0 (len + 1) h hl (by omega)

theorem lower_esp_run {n : Nat} (hn : n ≤ t.esp) (hesp : t.esp < 2 ^ 32) :
    lower_esp n t = .ok ((), { t with esp := t.esp - n }) := by
  have hdrop : (t.esp + (2 ^ 32 - n)) % 2 ^ 32 = t.esp - n := by omega
  rw [lower_esp, Exec.modify_run, hdrop]

theorem check_esp_run {n : Nat} (h : ∀ i < n, t.mapped (t.esp + i) = true) : check_esp n t = .ok ((), t) := by
  rw [check_esp, Exec.bind_run Exec.get_run]
  exact Exec.ASSERT_run h _

theorem store_esp_run {w : Nat} (h : ∀ i < 4, t.mapped (t.esp + i) = true) :
    store_esp w t = .ok ((), { t with mem := store_word t.mem t.esp w }) := by
  rw [store_esp, Exec.bind_run (check_esp_run h)]
  rfl

/-- A word is pushed. -/
theorem push_run {line argv mem mapped} {e w : Nat} (hesp : e + 4 < 2 ^ 32)
    (hmapped : ∀ i < 4, mapped (e + i) = true) :
    (lower_esp 4 >>= fun _ => store_esp w) ⟨line, argv, mem, mapped, e + 4⟩ =
      .ok ((), ⟨line, argv, store_word mem e w, mapped, e⟩) := by
  rw [Exec.bind_run (lower_esp_run (Nat.le_add_left 4 e) hesp)]
  exact store_esp_run hmapped

/-- A word is pushed before what follows. -/
theorem push_bind {α : Type} {g : Unit → Passing α} {line argv mem mapped} {e w : Nat} (hesp : e + 4 < 2 ^ 32)
    (hmapped : ∀ i < 4, mapped (e + i) = true) :
    (lower_esp 4 >>= fun _ => store_esp w >>= g) ⟨line, argv, mem, mapped, e + 4⟩ =
      g () ⟨line, argv, store_word mem e w, mapped, e⟩ := by
  rw [Exec.bind_run (lower_esp_run (Nat.le_add_left 4 e) hesp)]
  exact Exec.bind_run (store_esp_run hmapped)

/-- The bytes that the copies of some tokens take. -/
def size (tokens : List (List Byte)) : Nat := (tokens.map fun w => w.length + 1).sum

@[simp] theorem size_nil : size [] = 0 := rfl

theorem size_take_succ {i : Nat} {w : List Byte} (h : tokens[i]? = some w) :
    size (tokens.take (i + 1)) = size (tokens.take i) + (w.length + 1) := by
  rw [List.take_add_one, h]
  simp [size]

theorem size_take_mono (tokens : List (List Byte)) {i j : Nat} (h : i ≤ j) : size (tokens.take i) ≤
    size (tokens.take j) := by
  induction h with
  | refl => exact Nat.le_refl _
  | @step j _ ih =>
    cases hj : tokens[j]? with
    | none => rwa [List.take_add_one, hj, Option.toList_none, List.append_nil]
    | some w =>
      rw [size_take_succ hj]
      omega

/-- The copies of the first `i` tokens, from `base` on, and their addresses. -/
def Copied (mem : Nat → Byte) (address : Nat → Nat) (base i : Nat) (tokens : List (List Byte)) : Prop :=
  ∀ (j : Nat) (w : List Byte), j < i → tokens[j]? = some w →
    address j = base + size (tokens.take j) ∧ CString mem (address j) w

/-- The first loop of `set_stack` puts copies of the tokens below the stack pointer. -/
theorem copy_args_run {len : Nat} {block : Bool} {pos : Nat} (hlen : ∀ w ∈ tokens, w.length ≤ len)
    (hnonzero : ∀ w ∈ tokens, ∀ c ∈ w, c ≠ 0) (i : Nat) : ∀ {t : Args} {mem_use : Nat} {address : Nat → Nat},
    Found t pos tokens → i ≤ tokens.length → (block = true ∨ i = 0) → t.esp < 2 ^ 32 →
    size (tokens.take i) ≤ t.esp →
    (∀ a, t.esp - size (tokens.take i) ≤ a → a < t.esp → t.mapped a = true) →
    ∃ mem' address', copy_args len block i mem_use address t =
        .ok ((mem_use + size (tokens.take i), address'), { t with
          mem := mem'
          esp := t.esp - size (tokens.take i) }) ∧
      Copied mem' address' (t.esp - size (tokens.take i)) i tokens ∧
      (∀ j, i ≤ j → address' j = address j) ∧
      ∀ a, a < t.esp - size (tokens.take i) ∨ t.esp ≤ a → mem' a = t.mem a := by
  induction i with
  | zero =>
    intro t mem_use address _ _ _ _ _ _
    exact ⟨t.mem, address, rfl, fun _ _ hj => absurd hj (Nat.not_lt_zero _), fun _ _ => rfl, fun _ _ => rfl⟩
  | succ i ih =>
    intro t mem_use address hfound hi hblock hesp hroom hmapped
    obtain rfl : block = true := by simpa using hblock
    obtain ⟨w, hw⟩ : ∃ w, tokens[i]? = some w := ⟨_, List.getElem?_eq_getElem hi⟩
    have hmem : w ∈ tokens := List.mem_of_getElem? hw
    have hstring := (hfound i w hw).1
    rw [size_take_succ hw] at hroom hmapped ⊢
    let t' : Args := { t with
      mem := copy t.mem (t.esp - (w.length + 1)) t.line (t.argv i) (w.length + 1)
      esp := t.esp - (w.length + 1) }
    obtain ⟨mem', address', hrun, hcopied, haddress, hmem'⟩ := @ih t'
      (mem_use + (w.length + 1)) (fun j => if j = i then t'.esp else address j) hfound
      (by omega) (Or.inl rfl) (by simp only [t']; omega) (by simp only [t']; omega)
      (fun a hlow hhigh => hmapped a (by simp only [t'] at hlow; omega) (by simp only [t'] at hhigh; omega))
    have hbase : t'.esp - size (tokens.take i) = t.esp - (size (tokens.take i) + (w.length + 1)) := by
      simp only [t']
      omega
    rw [hbase] at hrun hcopied hmem'
    refine ⟨mem', address', ?_, ?_, ?_, ?_⟩
    · rw [copy_args, Exec.bind_run Exec.get_run,
        Exec.bind_run (strlen_run hstring (hnonzero w hmem) (hlen w hmem)),
        Exec.bind_run (lower_esp_run (by omega) hesp), Exec.bind_run (check_esp_run ?_),
        Exec.bind_run (Exec.modify_run _), Exec.bind_run (Exec.ASSERT_run rfl _), Exec.bind_run Exec.get_run]
      · refine hrun.trans ?_
        rw [Nat.add_assoc, Nat.add_comm (w.length + 1)]
      · intro j hj
        apply hmapped <;> simp only <;> omega
    · intro j v hj hv
      obtain hlt | rfl := Nat.lt_succ_iff_lt_or_eq.mp hj
      · exact hcopied j v hlt hv
      · rw [hw] at hv
        cases hv
        have hat : address' j = t.esp - (w.length + 1) := by
          rw [haddress j (Nat.le_refl j), if_pos rfl]
        rw [hat]
        refine ⟨by omega, (hstring.copy t.mem (t.esp - (w.length + 1))).move ?_⟩
        intro k _
        apply hmem'
        right
        simp only [t']
        omega
    · intro j hj
      rw [haddress j (by omega), if_neg (by omega)]
    · intro a ha
      rw [hmem' a (by simp only [t']; omega)]
      exact copy_outside (by omega)

/-- The second loop of `set_stack` pushes the addresses. -/
theorem push_addresses_run {address : Nat → Nat} (i : Nat) : ∀ {t : Args}, t.esp < 2 ^ 32 → 4 * i ≤ t.esp →
    (∀ a, t.esp - 4 * i ≤ a → a < t.esp → t.mapped a = true) → (∀ j < i, address j < 2 ^ 32) →
    ∃ mem', push_addresses address i t = .ok ((), { t with
        mem := mem'
        esp := t.esp - 4 * i }) ∧
      (∀ j < i, word mem' (t.esp - 4 * i + 4 * j) = address j) ∧
      ∀ a, a < t.esp - 4 * i ∨ t.esp ≤ a → mem' a = t.mem a := by
  induction i with
  | zero =>
    intro t _ _ _ _
    exact ⟨t.mem, rfl, fun _ hj => absurd hj (Nat.not_lt_zero _), fun _ _ => rfl⟩
  | succ i ih =>
    intro t hesp hroom hmapped haddress
    let t' : Args := { t with
      mem := store_word t.mem (t.esp - 4) (address i)
      esp := t.esp - 4 }
    obtain ⟨mem', hrun, hwords, hmem'⟩ := ih (t := t') (by simp only [t']; omega) (by simp only [t']; omega)
      (fun a hlow hhigh => hmapped a (by simp only [t'] at hlow; omega) (by simp only [t'] at hhigh; omega))
      (fun j hj => haddress j (by omega))
    have hbase : t'.esp - 4 * i = t.esp - 4 * (i + 1) := by
      simp only [t']
      omega
    rw [hbase] at hrun hwords hmem'
    refine ⟨mem', ?_, ?_, ?_⟩
    · rw [push_addresses, Exec.bind_run (lower_esp_run (by omega) hesp), Exec.bind_run (store_esp_run ?_)]
      · exact hrun
      · intro j hj
        apply hmapped <;> simp only <;> omega
    · intro j hj
      obtain hlt | rfl := Nat.lt_succ_iff_lt_or_eq.mp hj
      · exact hwords j hlt
      · have hat : t.esp - 4 * (j + 1) + 4 * j = t.esp - 4 := by omega
        have hsame : word mem' (t.esp - 4) = word t'.mem (t.esp - 4) := by
          apply word_congr
          intro k _
          apply hmem'
          right
          simp only [t']
          omega
        rw [hat, hsame]
        exact word_store_word _ _ (haddress j hj)
    · intro a ha
      rw [hmem' a (by simp only [t']; omega)]
      exact copy_outside (by omega)

/-- The bytes that make the copies a whole number of words. -/
def word_align (mem_use : Nat) : Nat := if mem_use % 4 ≠ 0 then 4 - mem_use % 4 else 0

theorem word_align_dvd (mem_use : Nat) : (mem_use + word_align mem_use) % 4 = 0 := by
  rw [word_align]
  split <;> omega

/-- The bytes of the image of some tokens: the copies, the array and the frame. -/
def image_size (tokens : List (List Byte)) : Nat :=
  size tokens + word_align (size tokens) + 4 * (tokens.length + 1) + 12

/-- Two ranges of memory have no byte in common. -/
def Apart (a m b n : Nat) : Prop := a + m ≤ b ∨ b + n ≤ a

/-- What a new process finds at its stack pointer, reading its memory back. -/
structure Layout (t : Args) (tokens : List (List Byte)) : Prop where
  return_address : word t.mem t.esp = 0
  argc : word t.mem (t.esp + 4) = tokens.length
  argv : ∀ (i : Nat) (w : List Byte), tokens[i]? = some w →
    CString t.mem (word t.mem (word t.mem (t.esp + 8) + 4 * i)) w
  null : word t.mem (word t.mem (t.esp + 8) + 4 * tokens.length) = 0
  esp_aligned : 4 ∣ t.esp
  argv_aligned : 4 ∣ word t.mem (t.esp + 8)
  array_apart : Apart t.esp 12 (word t.mem (t.esp + 8)) (4 * (tokens.length + 1))
  copy_apart : ∀ (i : Nat) (w : List Byte), tokens[i]? = some w →
    Apart t.esp 12 (word t.mem (word t.mem (t.esp + 8) + 4 * i)) (w.length + 1) ∧
    Apart (word t.mem (t.esp + 8)) (4 * (tokens.length + 1))
      (word t.mem (word t.mem (t.esp + 8) + 4 * i)) (w.length + 1)
  copies_apart : ∀ (i j : Nat) (v w : List Byte), i < j → tokens[i]? = some v → tokens[j]? = some w →
    Apart (word t.mem (word t.mem (t.esp + 8) + 4 * i)) (v.length + 1)
      (word t.mem (word t.mem (t.esp + 8) + 4 * j)) (w.length + 1)

/-- What `set_stack` leaves below the stack pointer `t.esp`. -/
theorem set_stack_run {len : Nat} {block : Bool} {pos : Nat} (hlen : ∀ w ∈ tokens, w.length ≤ len)
    (hnonzero : ∀ w ∈ tokens, ∀ c ∈ w, c ≠ 0) (hfound : Found t pos tokens)
    (hblock : block = true ∨ tokens = []) (hesp : t.esp < 2 ^ 32) (hroom : image_size tokens ≤ t.esp)
    (hmapped : ∀ a, t.esp - image_size tokens ≤ a → a < t.esp → t.mapped a = true) :
    ∃ mem' address, set_stack len block tokens.length t = .ok ((), { t with
        mem := mem'
        esp := t.esp - image_size tokens }) ∧
      Copied mem' address (t.esp - size tokens) tokens.length tokens ∧
      (∀ j < tokens.length, word mem' (t.esp - image_size tokens + 12 + 4 * j) = address j) ∧
      word mem' (t.esp - image_size tokens + 12 + 4 * tokens.length) = 0 ∧
      word mem' (t.esp - image_size tokens + 8) = t.esp - image_size tokens + 12 ∧
      word mem' (t.esp - image_size tokens + 4) = tokens.length ∧
      word mem' (t.esp - image_size tokens) = 0 := by
  have hsize : image_size tokens = size tokens + word_align (size tokens) + 4 * (tokens.length + 1) + 12 := rfl
  generalize hbottom : t.esp - image_size tokens = bottom at hmapped ⊢
  have htake : tokens.take tokens.length = tokens := List.take_length
  -- the copies
  obtain ⟨mem₁, address, hcopy, hcopied, -, -⟩ := @copy_args_run tokens len block pos
    hlen hnonzero tokens.length t 0 (fun _ => 0) hfound (Nat.le_refl _)
    (hblock.imp_right fun h => by simp [h]) hesp (by rw [htake]; omega)
    (fun a hlow hhigh => hmapped a (by rw [htake] at hlow; omega) hhigh)
  rw [htake, Nat.zero_add] at hcopy
  rw [htake] at hcopied
  -- the null pointer, and the array below it
  let u₁ : Args := { t with
    mem := store_word mem₁ (bottom + 12 + 4 * tokens.length) 0
    esp := bottom + 12 + 4 * tokens.length }
  have haddress : ∀ j < tokens.length, address j < 2 ^ 32 := by
    intro j hj
    have hle := size_take_mono tokens (Nat.le_of_lt hj)
    rw [htake] at hle
    rw [(hcopied j _ hj (List.getElem?_eq_getElem hj)).1]
    omega
  obtain ⟨mem₂, hpush, hwords, hmem₂⟩ := @push_addresses_run address tokens.length u₁
    (by simp only [u₁]; omega) (by simp only [u₁]; omega)
    (fun a hlow hhigh => hmapped a (by simp only [u₁] at hlow; omega)
    (by simp only [u₁] at hhigh; omega)) haddress
  have hargv : u₁.esp - 4 * tokens.length = bottom + 12 := by
    simp only [u₁]
    omega
  rw [hargv] at hpush hwords hmem₂
  -- the frame
  let mem₃ := store_word mem₂ (bottom + 8) (bottom + 12)
  let mem₄ := store_word mem₃ (bottom + 4) tokens.length
  let mem₅ := store_word mem₄ bottom 0
  have hmem₅ : ∀ a, bottom + 12 ≤ a → mem₅ a = mem₂ a := by
    intro a ha
    simp only [mem₅, mem₄, mem₃]
    rw [store_word_outside (by omega), store_word_outside (by omega), store_word_outside (by omega)]
  refine ⟨mem₅, address, ?_, ?_, ?_, ?_, ?_, ?_, ?_⟩
  · have hstack : ∀ e, bottom ≤ e → e + 4 ≤ t.esp → ∀ i < 4, t.mapped (e + i) = true :=
      fun e hlow hhigh i hi => hmapped _ (by omega) (by omega)
    have halign : lower_esp (word_align (size tokens)) ⟨t.line, t.argv, mem₁, t.mapped, t.esp - size tokens⟩ =
        .ok ((), ⟨t.line, t.argv, mem₁, t.mapped, bottom + 12 + 4 * tokens.length + 4⟩) := by
      rw [lower_esp_run (by simp only; omega) (by simp only; omega)]
      simp only [Except.ok.injEq, Prod.mk.injEq, Args.mk.injEq, true_and]
      omega
    rw [set_stack, Exec.bind_run hcopy]
    simp only [← word_align.eq_1]
    rw [Exec.bind_run halign, push_bind (by omega) (hstack _ (by omega) (by omega)), Exec.bind_run hpush,
      Exec.bind_run Exec.get_run, push_bind (by omega) (hstack _ (by omega) (by omega)),
      push_bind (by omega) (hstack _ (by omega) (by omega)),
        push_run (by omega) (hstack _ (by omega) (by omega))]
  · intro j w hj hw
    obtain ⟨hat, hstring⟩ := hcopied j w hj hw
    refine ⟨hat, hstring.move ?_⟩
    intro k _
    rw [hmem₅ _ (by omega), hmem₂ _ (by simp only [u₁]; omega)]
    exact store_word_outside (by omega)
  · intro j hj
    rw [word_congr (fun k _ => hmem₅ _ (by omega))]
    exact hwords j hj
  · rw [word_congr (fun k _ => (hmem₅ _ (by omega)).trans (hmem₂ _ (by simp only [u₁]; omega)))]
    exact word_store_word _ _ (by omega)
  · rw [word_store_word_ne _ (by omega), word_store_word_ne _ (by omega)]
    exact word_store_word _ _ (by omega)
  · rw [word_store_word_ne _ (by omega)]
    exact word_store_word _ _ (by omega)
  · exact word_store_word _ _ (by omega)

/-- Without a block for the addresses, the first token is one too many. -/
theorem set_stack_no_block {len argc : Nat} {r : Unit × Args} (h : set_stack len false argc t = .ok r) :
    argc = 0 := by
  cases argc with
  | zero => rfl
  | succ i =>
    obtain ⟨_, _, hcopy, _⟩ := Exec.bind_eq_ok.mp h
    rw [copy_args, Exec.bind_run Exec.get_run] at hcopy
    obtain ⟨_, _, _, hlower⟩ := Exec.bind_eq_ok.mp hcopy
    obtain ⟨_, _, _, hcheck⟩ := Exec.bind_eq_ok.mp hlower
    obtain ⟨_, _, _, hstore⟩ := Exec.bind_eq_ok.mp hcheck
    obtain ⟨_, _, _, hblock⟩ := Exec.bind_eq_ok.mp hstore
    exact absurd (Exec.ASSERT_bind_eq_ok.mp hblock).1 (by decide)

/-- The stack that `set_stack` leaves has the layout that a new process expects. -/
theorem set_stack_layout {len : Nat} {block : Bool} {pos : Nat} (hlen : ∀ w ∈ tokens, w.length ≤ len)
    (hnonzero : ∀ w ∈ tokens, ∀ c ∈ w, c ≠ 0) (hfound : Found t pos tokens)
    (hblock : block = true ∨ tokens = [])
    (hesp : t.esp < 2 ^ 32) (haligned : 4 ∣ t.esp) (hroom : image_size tokens ≤ t.esp)
    (hmapped : ∀ a, t.esp - image_size tokens ≤ a → a < t.esp → t.mapped a = true) :
    ∃ t', set_stack len block tokens.length t = .ok ((), t') ∧ t'.esp = t.esp - image_size tokens ∧
      Layout t' tokens := by
  obtain ⟨mem', address, hrun, hcopied, hwords, hnull, hargv, hargc, hreturn⟩ :=
    set_stack_run hlen hnonzero hfound hblock hesp hroom hmapped
  have hsize : image_size tokens = size tokens + word_align (size tokens) + 4 * (tokens.length + 1) + 12 := rfl
  have halign := word_align_dvd (size tokens)
  obtain ⟨bottom, hbottom⟩ : ∃ bottom, t.esp - image_size tokens = bottom := ⟨_, rfl⟩
  rw [hbottom] at hrun hwords hnull hargv hargc hreturn ⊢
  refine ⟨_, hrun, rfl, ?_⟩
  -- where the copy of a token is
  have hentry : ∀ (i : Nat) (w : List Byte), tokens[i]? = some w →
      word mem' (bottom + 12 + 4 * i) = t.esp - size tokens + size (tokens.take i) ∧
      CString mem' (word mem' (bottom + 12 + 4 * i)) w := by
    intro i w hw
    obtain ⟨hi, -⟩ := List.getElem?_eq_some_iff.mp hw
    rw [hwords i hi]
    exact hcopied i w hi hw
  constructor
  · exact hreturn
  · exact hargc
  · intro i w hw
    simp only [hargv]
    exact (hentry i w hw).2
  · simp only [hargv]
    exact hnull
  · simp only
    omega
  · simp only [hargv]
    omega
  · simp only [hargv]
    exact Or.inl (Nat.le_refl _)
  · intro i w hw
    simp only [hargv, (hentry i w hw).1]
    constructor <;> left <;> omega
  · intro i j v w hij hv hw
    have hmono := size_take_mono tokens (Nat.succ_le_of_lt hij)
    rw [size_take_succ hv] at hmono
    simp only [hargv, (hentry i v hv).1, (hentry j w hw).1]
    left
    omega

end Frame

section Passing

variable {t : Args} {l : List Byte} {block : Bool}

/-- `set_argv` and then `set_stack` lay the words of the command line out for the new
process exactly if there is a block for their addresses, or no word. -/
theorem arguments_are_laid_out (hline : CString t.line 0 l) (hnonzero : ∀ c ∈ l, c ≠ 0)
    (hcount : (words SPACE l).length ≤ 127) (himage : image_size (words SPACE l) ≤ PGSIZE)
    (hesp : t.esp = PHYS_BASE.toNat)
    (hmapped : ∀ a, PHYS_BASE.toNat - PGSIZE ≤ a → a < PHYS_BASE.toNat → t.mapped a = true) :
    (∃ t', (set_argv l.length >>= set_stack l.length block) t = .ok ((), t') ∧
        PHYS_BASE.toNat - PGSIZE ≤ t'.esp ∧ Layout t' (words SPACE l)) ↔
      block = true ∨ words SPACE l = [] := by
  obtain ⟨line', argv', pos', hrun, hfound⟩ := set_argv_run hline hnonzero (Nat.le_refl l.length)
    (Nat.le_succ_of_le hcount)
  have hbase : PHYS_BASE.toNat = 3221225472 := by simp [PHYS_BASE]
  rw [hbase] at hesp hmapped ⊢
  simp only [PGSIZE] at himage hmapped ⊢
  rw [Exec.bind_run hrun]
  constructor
  · rintro ⟨t', hstack, -, -⟩
    cases block with
    | true => exact Or.inl rfl
    | false => exact Or.inr (List.length_eq_zero_iff.mp (set_stack_no_block hstack))
  · intro hblock
    obtain ⟨t', hstack, hbottom, hlayout⟩ := set_stack_layout
      (t := { t with
        line := line'
        argv := argv' })
      (fun w hw => (word_part_of hw).length_le) (fun w hw c hc =>
      hnonzero c ((word_part_of hw).mem hc)) hfound hblock
      (by simp only [hesp]; omega) (by simp only [hesp]; omega) (by simp only [hesp]; omega)
      (fun a hlow hhigh => hmapped a (by simp only [hesp] at hlow; omega) (by simp only [hesp] at hhigh; omega))
    refine ⟨t', hstack, ?_, hlayout⟩
    rw [hbottom]
    simp only [hesp]
    omega

/-- A command line of one character. -/
def one_letter : Args where
  line i := if i = 0 then 97 else 0
  argv _ := 0
  mem _ := 0
  mapped _ := true
  esp := PHYS_BASE.toNat

theorem one_letter_line : CString one_letter.line 0 [97] := ⟨rfl, rfl⟩

theorem words_one_letter : words SPACE [97] = [[97]] := words_run (by decide) (by decide)

theorem arguments_are_laid_out_one_letter :
    (∃ t', (set_argv 1 >>= set_stack 1 true) one_letter = .ok ((), t') ∧
        PHYS_BASE.toNat - PGSIZE ≤ t'.esp ∧ Layout t' (words SPACE [97])) ↔
      true = true ∨ words SPACE [97] = [] :=
  arguments_are_laid_out (l := [97]) one_letter_line (by decide) (by rw [words_one_letter]; decide)
    (by rw [words_one_letter]; decide) rfl fun _ _ _ => rfl

/-- With no block for the address of a single token, `set_stack` faults. -/
theorem arguments_need_a_block : CString one_letter.line 0 [97] ∧ words SPACE [97] = [[97]] ∧
    image_size (words SPACE [97]) ≤ PGSIZE ∧
    ¬∃ t', (set_argv 1 >>= set_stack 1 false) one_letter = .ok ((), t') := by
  refine ⟨one_letter_line, words_one_letter, by rw [words_one_letter]; decide, ?_⟩
  rintro ⟨t', h⟩
  have hfault : (set_argv 1 >>= set_stack 1 false) one_letter = .error .page_fault := rfl
  rw [hfault] at h
  contradiction

end Passing

end pintos.userprog
