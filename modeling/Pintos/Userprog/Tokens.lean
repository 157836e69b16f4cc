import Pintos.Userprog.Arguments

/-!
# The tokens of a command line

The tokens that `set_argv` finds are the words of the command line.
-/

open bytes state_error text

namespace pintos.userprog

/-- The null-terminated string at a position. -/
def CString (b : Nat → Byte) : Nat → List Byte → Prop
  | pos, [] => b pos = 0
  | pos, c :: l => b pos = c ∧ CString b (pos + 1) l

section CString

variable {b src : Nat → Byte} {pos s : Nat} {l l' : List Byte}

/-- A string is where its bytes are, with the null byte. -/
theorem CString.move (h : CString src s l) (heq : ∀ i ≤ l.length, b (pos + i) = src (s + i)) :
    CString b pos l := by
  induction l generalizing s pos with
  | nil => exact (heq 0 (by simp)).trans h
  | cons c l ih =>
    refine ⟨(heq 0 (by simp)).trans h.1, ih h.2 ?_⟩
    intro i hi
    have hnext := heq (i + 1) (by simp; omega)
    rwa [← Nat.add_assoc, Nat.add_right_comm, ← Nat.add_assoc, Nat.add_right_comm s] at hnext

theorem CString.drop (h : CString b pos (l ++ l')) : CString b (pos + l.length) l' := by
  induction l generalizing pos with
  | nil => exact h
  | cons c l ih =>
    have hrest := ih h.2
    rwa [Nat.add_right_comm, Nat.add_assoc] at hrest

theorem CString.get (h : CString b pos (l ++ l')) {i : Nat} (hi : i < l.length) : b (pos + i) = l[i] := by
  induction l generalizing pos i with
  | nil => contradiction
  | cons c l ih =>
    cases i with
    | zero => exact h.1
    | succ i =>
      have hrest := ih (i := i) h.2 (by simpa using hi)
      rwa [Nat.add_right_comm, Nat.add_assoc] at hrest

/-- Text is where its bytes are, whatever follows it, if a null byte does. -/
theorem CString.front {b b' : Nat → Byte} {w rest : List Byte} {pos : Nat} (h : CString b pos (w ++ rest))
    (heq : ∀ i < w.length, b' (pos + i) = b (pos + i)) (hnull : b' (pos + w.length) = 0) :
    CString b' pos w := by
  induction w generalizing pos with
  | nil => exact hnull
  | cons c w ih =>
    refine ⟨(heq 0 (by simp)).trans h.1, ih h.2 ?_ ?_⟩
    · intro i hi
      have hnext := heq (i + 1) (by simpa using hi)
      rwa [← Nat.add_assoc, Nat.add_right_comm] at hnext
    · rwa [List.length_cons, ← Nat.add_assoc, Nat.add_right_comm] at hnull

/-- A string copied with its null byte. -/
theorem CString.copy (h : CString src s l) (dst : Nat → Byte) (d : Nat) :
    CString (bytes.copy dst d src s (l.length + 1)) d l := by
  apply h.move
  intro i hi
  rw [copy_inside (by omega) (by omega)]
  congr 1
  omega

end CString

section Tokens

variable {t : Args} {pos : Nat}

theorem strchr_space {c : Byte} : strchr [SPACE] c = true ↔ c = SPACE ∨ c = 0 := by
  simp [strchr]

theorem char_at_run (s : Nat) : char_at s t = .ok (t.line s, t) := rfl

/-- The loop over delimiters stops after the spaces. -/
theorem skip_delimiters_run {rest : List Byte} (n : Nat) : ∀ {pos fuel : Nat},
    CString t.line pos (List.replicate n SPACE ++ rest) → n < fuel → (∀ c ∈ rest.head?, c ≠ SPACE ∧ c ≠ 0) →
    skip_delimiters [SPACE] fuel pos t = .ok ((decide (rest ≠ []), pos + n), t) := by
  induction n with
  | zero =>
    intro pos fuel h hfuel hrest
    obtain ⟨fuel, rfl⟩ := Nat.exists_eq_succ_of_ne_zero (by omega : fuel ≠ 0)
    rw [skip_delimiters, Exec.bind_run (char_at_run pos)]
    cases rest with
    | nil =>
      have hzero : t.line pos = 0 := h
      rw [hzero, if_pos (by decide), if_pos rfl]
      rfl
    | cons c rest =>
      obtain ⟨hspace, hzero⟩ := hrest c rfl
      have hc : t.line pos = c := h.1
      rw [hc, if_neg (by rw [strchr_space]; tauto)]
      simp
  | succ n ih =>
    intro pos fuel h hfuel hrest
    obtain ⟨fuel, rfl⟩ := Nat.exists_eq_succ_of_ne_zero (by omega : fuel ≠ 0)
    have hc : t.line pos = SPACE := h.1
    rw [skip_delimiters, Exec.bind_run (char_at_run pos), hc, if_pos (by decide), if_neg (by decide),
      ih h.2 (by omega) hrest, Nat.add_right_comm, Nat.add_assoc]

/-- The loop over a token stops at the space or the null byte that ends it. -/
theorem skip_token_run {rest : List Byte} (w : List Byte) : ∀ {pos fuel : Nat},
    CString t.line pos (w ++ rest) → w.length < fuel → (∀ c ∈ w, c ≠ SPACE ∧ c ≠ 0) →
    (∀ c ∈ rest.head?, c = SPACE) → skip_token [SPACE] fuel pos t = .ok (pos + w.length, t) := by
  induction w with
  | nil =>
    intro pos fuel h hfuel _ hrest
    obtain ⟨fuel, rfl⟩ := Nat.exists_eq_succ_of_ne_zero (by simp at hfuel; omega : fuel ≠ 0)
    have hend : strchr [SPACE] (t.line pos) = true := by
      rw [strchr_space]
      cases rest with
      | nil => exact Or.inr h
      | cons c rest => exact Or.inl (h.1.trans (hrest c rfl))
    rw [skip_token, Exec.bind_run (char_at_run pos), if_pos hend]
    rfl
  | cons c w ih =>
    intro pos fuel h hfuel hw hrest
    obtain ⟨fuel, rfl⟩ := Nat.exists_eq_succ_of_ne_zero (by simp at hfuel; omega : fuel ≠ 0)
    obtain ⟨hspace, hzero⟩ := hw c (by simp)
    have hc : t.line pos = c := h.1
    rw [skip_token, Exec.bind_run (char_at_run pos), hc, if_neg (by rw [strchr_space]; tauto),
      ih h.2 (by simp at hfuel; omega) (fun d hd => hw d (by simp [hd])) hrest, List.length_cons,
      Nat.add_right_comm, Nat.add_assoc]

/-- `strtok_r` finds no token in spaces. -/
theorem strtok_r_spaces {l : List Byte} {len : Nat} (h : CString t.line pos l) (hl : ∀ c ∈ l, c = SPACE)
    (hlen : l.length ≤ len) : ∃ s, strtok_r len [SPACE] pos t = .ok ((none, s), t) := by
  have hrep : l = List.replicate l.length SPACE ++ [] := by
    rw [List.append_nil]
    exact List.eq_replicate_of_mem hl
  rw [hrep] at h
  refine ⟨pos + l.length, ?_⟩
  rw [strtok_r, Exec.bind_run (skip_delimiters_run l.length h (by omega) (by simp))]
  rfl

/-- The token that `strtok_r` finds, when the string ends with it. -/
theorem strtok_r_last {w : List Byte} {n len : Nat} (h : CString t.line pos (List.replicate n SPACE ++ w))
    (hne : w ≠ []) (hw : ∀ c ∈ w, c ≠ SPACE ∧ c ≠ 0) (hlen : n + w.length ≤ len) :
    strtok_r len [SPACE] pos t = .ok ((some (pos + n), pos + n + w.length), t) ∧
      CString t.line (pos + n) w ∧ CString t.line (pos + n + w.length) [] := by
  have htoken : CString t.line (pos + n) (w ++ []) := by simpa using h.drop
  have hhead : ∀ c ∈ w.head?, c ≠ SPACE ∧ c ≠ 0 := fun c hc => hw c (List.mem_of_mem_head? hc)
  have hend : CString t.line (pos + n + w.length) [] := htoken.drop
  have hzero : t.line (pos + n + w.length) = 0 := hend
  refine ⟨?_, by simpa using htoken, hend⟩
  rw [strtok_r, Exec.bind_run (skip_delimiters_run n h (by omega) hhead)]
  simp only [hne, ne_eq, not_false_eq_true, decide_true, if_true]
  rw [Exec.bind_run (skip_token_run w htoken (by omega) hw (by simp)), Exec.bind_run (char_at_run _),
    if_neg (by simpa using hzero)]
  rfl

/-- The token that `strtok_r` finds, when a space follows it: the space is replaced. -/
theorem strtok_r_first {w tail : List Byte} {n : Nat} (len : Nat)
    (h : CString t.line pos (List.replicate n SPACE ++ (w ++ SPACE :: tail)))
    (hne : w ≠ []) (hw : ∀ c ∈ w, c ≠ SPACE ∧ c ≠ 0) (hlen : n + w.length ≤ len) :
    ∃ line', strtok_r len [SPACE] pos t =
        .ok ((some (pos + n), pos + n + w.length + 1), { t with line := line' }) ∧
      CString line' (pos + n) w ∧ CString line' (pos + n + w.length + 1) tail ∧
      ∀ i ≤ pos, line' i = t.line i := by
  have htoken : CString t.line (pos + n) (w ++ SPACE :: tail) := by simpa using h.drop
  have hhead : ∀ c ∈ (w ++ SPACE :: tail).head?, c ≠ SPACE ∧ c ≠ 0 := by
    cases w with
    | nil => contradiction
    | cons c w =>
      rintro d ⟨⟩
      exact hw c (by simp)
  have hend : CString t.line (pos + n + w.length) (SPACE :: tail) := htoken.drop
  have hspace : t.line (pos + n + w.length) = SPACE := hend.1
  have hpos : 0 < w.length := List.length_pos_iff.mpr hne
  refine ⟨fun i => if i = pos + n + w.length then 0 else t.line i, ?_, ?_, ?_, ?_⟩
  · rw [strtok_r, Exec.bind_run (skip_delimiters_run n h (by omega) hhead)]
    simp only [ne_eq, List.append_eq_nil_iff, reduceCtorEq, and_false, not_false_eq_true, decide_true, if_true]
    rw [Exec.bind_run (skip_token_run w htoken (by omega) hw (by simp)), Exec.bind_run (char_at_run _),
      if_pos (by rw [hspace]; decide)]
    rfl
  · apply htoken.front
    · intro i hi
      rw [if_neg (by omega)]
    · rw [if_pos rfl]
  · apply hend.2.move
    intro i _
    rw [if_neg (by omega)]
  · intro i hi
    exact if_neg (by omega)

/-- The tokens found before position `pos`. -/
def Found (t : Args) (pos : Nat) (tokens : List (List Byte)) : Prop :=
  ∀ (i : Nat) (w : List Byte), tokens[i]? = some w →
    CString t.line (t.argv i) w ∧ t.argv i + w.length ≤ pos

/-- One more token is found; the line before it is as it was. -/
theorem Found.append {tokens : List (List Byte)} {w : List Byte} {line' : Nat → Byte} {token : Nat}
    (h : Found t pos tokens) (hline : ∀ i ≤ pos, line' i = t.line i) (hw : CString line' token w)
    (pos' : Nat) (hpos : pos ≤ pos') (hend : token + w.length ≤ pos') :
    Found { t with
      line := line'
      argv := fun i => if i = tokens.length then token else t.argv i } pos' (tokens ++ [w]) := by
  intro i v hv
  obtain hi | rfl | hi := Nat.lt_trichotomy i tokens.length
  · rw [List.getElem?_append_left hi] at hv
    obtain ⟨hstring, hbound⟩ := h i v hv
    simp only [if_neg (Nat.ne_of_lt hi)]
    refine ⟨hstring.move ?_, by omega⟩
    intro j hj
    exact hline _ (by omega)
  · rw [List.getElem?_concat_length] at hv
    cases hv
    simp only [if_pos]
    exact ⟨hw, hend⟩
  · rw [List.getElem?_eq_none (by simp; omega)] at hv
    contradiction

/-- The loop of `set_argv` finds the words of the rest of the line. -/
theorem set_argv_loop_run {len : Nat} (l : List Byte) : ∀ {t : Args} {pos fuel : Nat}
    {tokens : List (List Byte)},
    CString t.line pos l → (∀ c ∈ l, c ≠ 0) → l.length ≤ len → Found t pos tokens →
    tokens.length + (words SPACE l).length ≤ ARGV_CNT → (words SPACE l).length ≤ fuel →
    ∃ line' argv' pos', (strtok_r len [SPACE] pos >>= fun next => set_argv_loop len fuel next tokens.length) t =
        .ok (tokens.length + (words SPACE l).length, { t with line := line', argv := argv' }) ∧
      Found { t with line := line', argv := argv' } pos' (tokens ++ words SPACE l) := by
  induction l using words_induction SPACE with
  | none l hl =>
    intro t pos fuel tokens h _ hlen hfound _ _
    obtain ⟨s, hrun⟩ := strtok_r_spaces h hl hlen
    rw [words_eq_nil hl, List.append_nil, List.length_nil, Nat.add_zero]
    refine ⟨t.line, t.argv, pos, ?_, hfound⟩
    rw [Exec.bind_run hrun]
    cases fuel <;> rfl
  | last n w hne hw =>
    intro t pos fuel tokens h hnonzero hlen hfound hcount hfuel
    rw [words_last n hne hw] at hcount hfuel ⊢
    simp only [List.length_append, List.length_replicate, List.length_singleton] at hlen hcount hfuel ⊢
    obtain ⟨fuel, rfl⟩ := Nat.exists_eq_succ_of_ne_zero (by omega : fuel ≠ 0)
    obtain ⟨hrun, htoken, hend⟩ := strtok_r_last h hne (fun c hc => ⟨hw c hc, hnonzero c (by simp [hc])⟩) hlen
    have hnext := hfound.append (fun _ _ => rfl) htoken _ (by omega) (Nat.le_refl (pos + n + w.length))
    obtain ⟨s, hstop⟩ := strtok_r_spaces (t := { t with
      argv := fun i => if i = tokens.length then pos + n else t.argv i }) hend (by simp) (Nat.zero_le len)
    refine ⟨t.line, fun i => if i = tokens.length then pos + n else t.argv i, pos + n + w.length, ?_, hnext⟩
    rw [Exec.bind_run hrun, set_argv_loop, Exec.bind_run (Exec.ASSERT_run (by omega) _),
      Exec.bind_run (Exec.modify_run _), Exec.bind_run hstop]
    cases fuel <;> rfl
  | first n w tail hne hw ih =>
    intro t pos fuel tokens h hnonzero hlen hfound hcount hfuel
    rw [words_first n hne hw] at hcount hfuel ⊢
    simp only [List.length_append, List.length_replicate, List.length_cons] at hlen hcount hfuel ⊢
    obtain ⟨fuel, rfl⟩ := Nat.exists_eq_succ_of_ne_zero (by omega : fuel ≠ 0)
    obtain ⟨line', hrun, htoken, hrest, hline⟩ :=
      strtok_r_first len h hne (fun c hc => ⟨hw c hc, hnonzero c (by simp [hc])⟩) (by omega)
    have hnext := hfound.append hline htoken (pos + n + w.length + 1) (by omega) (by omega)
    obtain ⟨line'', argv', pos', htail, hall⟩ := ih (t := { t with
        line := line'
        argv := fun i => if i = tokens.length then pos + n else t.argv i }) hrest
      (fun c hc => hnonzero c (by simp [hc])) (by omega) hnext (by simp; omega)
      (by omega : (words SPACE tail).length ≤ fuel)
    refine ⟨line'', argv', pos', ?_, by simpa using hall⟩
    rw [Exec.bind_run hrun, set_argv_loop, Exec.bind_run (Exec.ASSERT_run (by omega) _),
      Exec.bind_run (Exec.modify_run _)]
    simp only [List.length_append, List.length_singleton] at htail
    rw [htail]
    simp only [Nat.add_assoc, Nat.add_comm 1]

/-- `set_argv` finds the words of the line. -/
theorem set_argv_run {len : Nat} {l : List Byte} (h : CString t.line 0 l) (hnonzero : ∀ c ∈ l, c ≠ 0)
    (hlen : l.length ≤ len) (hcount : (words SPACE l).length ≤ ARGV_CNT) :
    ∃ line' argv' pos', set_argv len t = .ok ((words SPACE l).length, { t with line := line', argv := argv' }) ∧
      Found { t with line := line', argv := argv' } pos' (words SPACE l) := by
  have hwords := words_length_le SPACE l
  have hrun := @set_argv_loop_run len l t 0 (len + 1) [] h hnonzero hlen (by simp [Found])
    (by simpa using hcount) (by omega)
  simpa [set_argv] using hrun

end Tokens

end pintos.userprog
