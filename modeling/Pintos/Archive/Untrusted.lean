import Pintos.Archive.RoundTrip

/-!
# Headers of untrusted archives (`lib/ustar.c`)

The parser again, with each byte that it reads: a read outside of the header has no result. On
every block it reads what `ustar_parse_header` is a function of, and nothing else.
-/

open bytes pintos.filesys

namespace pintos.lib

namespace reads

/-- A byte of the header. -/
def read (h : Bytes) (ofs : Nat) : Option Byte := do
  guard (ofs < USTAR_HEADER_SIZE)
  return h ofs

/-- `memcmp`, or `strcmp` where `s` has its terminator: whether there is no difference. -/
def memcmp (h : Bytes) : Str → Nat → Option Bool
  | [], _ => return true
  | c :: s, ofs => do
    if (← read h ofs) = c then memcmp h s (ofs + 1)
    else return false

/-- `strchr`, of a character that is in the string. -/
def strchr (h : Bytes) (c : Byte) : (fuel ofs : Nat) → Option Nat
  | 0, _ => none
  | fuel + 1, ofs => do
    let b ← read h ofs
    if b = c then return ofs
    else if b = 0 then none
    else strchr h c fuel (ofs + 1)

/-- The loop of `calculate_chksum`. -/
def chksum_loop (h : Bytes) : (left i chksum : Nat) → Option Nat
  | 0, _, chksum => return chksum
  | left + 1, i, chksum => do
    let chksum_start := ustar_header.chksum.offsetof
    let chksum_end := chksum_start + ustar_header.chksum.sizeof
    let in_chksum_field := i ≥ chksum_start && i < chksum_end
    let c ← if in_chksum_field then pure (chr ' ') else read h i
    chksum_loop h left (i + 1) ((chksum + c.toNat) % 2 ^ 32)

/-- `calculate_chksum`. -/
def calculate_chksum (h : Bytes) : Option Nat := chksum_loop h USTAR_HEADER_SIZE 0 0

/-- The loop's condition in `strip_antisocial_prefixes`. -/
def antisocial (h : Bytes) (file_name : Nat) : Option Bool := do
  if (← read h file_name) = chr '/' then return true
  else if ← memcmp h [chr '.', chr '/'] file_name then return true
  else memcmp h [chr '.', chr '.', chr '/'] file_name

/-- The loop of `strip_antisocial_prefixes`. There is no result where `fuel` turns do not do. -/
def strip_prefixes (h : Bytes) : (fuel file_name : Nat) → Option Nat
  | 0, _ => none
  | fuel + 1, file_name => do
    if ← antisocial h file_name then
      let slash ← strchr h (chr '/') USTAR_HEADER_SIZE file_name
      strip_prefixes h fuel (slash + 1)
    else return file_name

/-- A file name: null, the literal ".", or at an offset in the header. -/
inductive name_pointer where
  | null
  | literal
  | in_header (ofs : Nat)
  deriving DecidableEq

/-- `strip_antisocial_prefixes`. -/
def strip_antisocial_prefixes (h : Bytes) (file_name : Nat) : Option name_pointer := do
  let file_name ← strip_prefixes h USTAR_HEADER_SIZE file_name
  if (← read h file_name) = 0 then return .literal
  else if ← memcmp h [chr '.', chr '.', 0] file_name then return .literal
  else return .in_header file_name

/-- The loop of `parse_octal_field` over the `left` bytes of `s` from `ofs` on. -/
def parse_octal_loop (h : Bytes) (s : Nat) : (left ofs value : Nat) → Option (Option Nat)
  | 0, _, _ => return none
  | left + 1, ofs, value => do
    let c ← read h (s + ofs)
    if (chr '0').toNat ≤ c.toNat ∧ c.toNat ≤ (chr '7').toNat then
      if value > ULONG_MAX / 8 then return none
      else parse_octal_loop h s left (ofs + 1) (c.toNat - (chr '0').toNat + value * 8)
    else if c = chr ' ' ∨ c = 0 then
      return if ofs > 0 then some value else none
    else return none

/-- `parse_octal_field`. -/
def parse_octal_field (h : Bytes) (f : field) : Option (Option Nat) :=
    parse_octal_loop h f.offsetof f.sizeof 0 0

/-- `is_all_zeros`, of `cnt` bytes from `block` on. -/
def is_all_zeros (h : Bytes) : (cnt block : Nat) → Option Bool
  | 0, _ => return true
  | cnt + 1, block => do
    if (← read h block) = 0 then is_all_zeros h cnt (block + 1)
    else return false

/-- The size of the archived file, or the message. -/
def file_size (h : Bytes) : Option (Except String Nat) := do
  match ← parse_octal_field h ustar_header.size with
  | none => return .error "corrupt file size field"
  | some size_ul => return if size_ul > INT_MAX then .error "file too large" else .ok size_ul

/-- `ustar_parse_header`: the file's name, its type and its size, or the message. -/
def ustar_parse_header (h : Bytes) : Option (Except String (name_pointer × ustar_type × Int)) := do
  if ← is_all_zeros h USTAR_HEADER_SIZE 0 then return .ok (.null, .USTAR_EOF, 0)
  else if !(← memcmp h (['u', 's', 't', 'a', 'r'].map chr ++ [0]) ustar_header.magic.offsetof) then
    return .error "not a ustar archive"
  else if !(← memcmp h [chr '0', chr '0'] ustar_header.version.offsetof) then return .error "invalid ustar version"
  else match ← parse_octal_field h ustar_header.chksum with
    | none => return .error "corrupt chksum field"
    | some chksum =>
      if chksum ≠ (← calculate_chksum h) then return .error "checksum mismatch"
      else if (← read h (ustar_header.name.offsetof + ustar_header.name.sizeof - 1)) ≠ 0 then
        return .error "file name too long"
      else if (← read h ustar_header.prefix_field.offsetof) ≠ 0 then return .error "file name too long"
      else
        let typeflag ← read h ustar_header.typeflag.offsetof
        if typeflag = ustar_type.char .USTAR_REGULAR then
          match ← file_size h with
          | .error message => return .error message
          | .ok size_ul => return .ok (← strip_antisocial_prefixes h ustar_header.name.offsetof,
              .USTAR_REGULAR, size_ul)
        else if typeflag = ustar_type.char .USTAR_DIRECTORY then
          return .ok (← strip_antisocial_prefixes h ustar_header.name.offsetof, .USTAR_DIRECTORY, 0)
        else return .error "unimplemented file type"

section Lemmas

variable {h h' : Bytes} {ofs i n : Nat} {s t : Str}

theorem read_eq (hi : i < 512) : read h i = some (h i) := by
  rw [read, guard, if_pos (show i < USTAR_HEADER_SIZE from hi)]
  rfl

theorem is_all_zeros_eq (cnt : Nat) : ∀ {block : Nat}, block + cnt ≤ 512 →
    is_all_zeros h cnt block = some ((List.range' block cnt).all fun i => h i = 0) := by
  induction cnt with
  | zero => exact fun _ => rfl
  | succ cnt ih =>
    intro block hblock
    rw [is_all_zeros, read_eq (by omega), List.range'_succ, List.all_cons]
    by_cases hzero : h block = 0
    · simp [hzero, ih (show block + 1 + cnt ≤ 512 by omega)]
    · simp only [Option.bind_eq_bind, Option.bind_some, if_neg hzero, decide_eq_false hzero, Bool.false_and]
      rfl

theorem memcmp_eq (s : Str) : ∀ {ofs : Nat}, ofs + s.length ≤ 512 →
    memcmp h s ofs = some (decide (bytes_at h ofs s.length = s)) := by
  induction s with
  | nil => exact fun _ => rfl
  | cons c s ih =>
    intro ofs hofs
    rw [List.length_cons] at hofs
    have hcons : bytes_at h ofs (s.length + 1) = h ofs :: bytes_at h (ofs + 1) s.length := by
      rw [Nat.add_comm, bytes_at_append]
      rfl
    rw [memcmp, read_eq (by omega), List.length_cons, hcons]
    by_cases hc : h ofs = c
    · simp [hc, ih (show ofs + 1 + s.length ≤ 512 by omega)]
    · simp [hc]

theorem chksum_loop_eq (left : Nat) : ∀ {i chksum : Nat}, i + left ≤ 512 →
    chksum_loop h left i chksum = some ((List.range' i left).foldl (fun chksum i =>
      (chksum + if i ≥ 148 && i < 148 + 8 then (chr ' ').toNat else (h i).toNat) % 2 ^ 32) chksum) := by
  induction left with
  | zero => exact fun _ => rfl
  | succ left ih =>
    intro i chksum hi
    rw [chksum_loop, read_eq (by omega), List.range'_succ, List.foldl_cons, ← ih (by omega)]
    by_cases hin : (decide (i ≥ 148) && decide (i < 148 + 8)) = true
    · rw [if_pos hin]
      exact if_pos hin
    · rw [if_neg hin]
      exact if_neg hin

theorem calculate_chksum_eq : calculate_chksum h = some (lib.calculate_chksum h) := by
  rw [calculate_chksum, chksum_loop_eq _ (Nat.le_refl _), ← List.range_eq_range']
  rfl

theorem parse_octal_loop_eq (s left : Nat) : ∀ {ofs value : Nat}, s + ofs + left ≤ 512 →
    parse_octal_loop h s left ofs value = some (lib.parse_octal_loop (drop h s) left ofs value) := by
  induction left with
  | zero => exact fun _ => rfl
  | succ left ih =>
    intro ofs value hofs
    have hread : read h (s + ofs) = some (drop h s ofs) := read_eq (by omega)
    rw [parse_octal_loop, hread, lib.parse_octal_loop]
    simp only [Option.bind_eq_bind, Option.bind_some]
    split_ifs
    · rfl
    · exact ih (by omega)
    · rfl
    · rfl
    · rfl

theorem parse_octal_field_eq {f : field} (hf : f.offsetof + f.sizeof ≤ 512) :
    parse_octal_field h f = some (lib.parse_octal_field h f) :=
  parse_octal_loop_eq _ _ (by omega)

/-- The string at an offset ends in the header. -/
def CString (h : Bytes) : Nat → Str → Prop
  | ofs, [] => ofs < 512 ∧ h ofs = 0
  | ofs, c :: s => h ofs = c ∧ c ≠ 0 ∧ CString h (ofs + 1) s

theorem CString.lt : ∀ {s : Str} {ofs : Nat}, CString h ofs s → ofs + s.length < 512
  | [], _, hs => hs.1
  | _ :: s, ofs, hs => by
    have hlt := hs.2.2.lt
    rw [List.length_cons]
    omega

theorem CString.read (hs : CString h ofs s) : reads.read h ofs = some (s.headD 0) := by
  have hlt := hs.lt
  rw [read_eq (by omega)]
  cases s with
  | nil => exact congrArg some hs.2
  | cons c s => exact congrArg some hs.1

theorem string_at_succ (h : Bytes) (ofs cnt : Nat) :
    string_at h ofs (cnt + 1) = if h ofs = 0 then [] else h ofs :: string_at h (ofs + 1) cnt := by
  have hcons : bytes_at h ofs (cnt + 1) = h ofs :: bytes_at h (ofs + 1) cnt := by
    rw [Nat.add_comm, bytes_at_append]
    rfl
  rw [string_at, hcons, List.takeWhile_cons]
  by_cases hzero : h ofs = 0 <;> simp [hzero, string_at]

theorem CString.string_at : ∀ {s : Str} {ofs cnt : Nat}, CString h ofs s → s.length < cnt →
    lib.string_at h ofs cnt = s
  | _, _, 0, _, hlt => absurd hlt (Nat.not_lt_zero _)
  | [], _, _ + 1, hs, _ => by rw [string_at_succ, if_pos hs.2]
  | _ :: s, _, _ + 1, hs, hlt => by
    rw [string_at_succ, hs.1, if_neg hs.2.1, hs.2.2.string_at (Nat.lt_of_succ_lt_succ hlt)]

/-- The string in a field with a null byte. -/
theorem cstring_of_null (n : Nat) : ∀ {ofs cnt : Nat}, ofs + cnt ≤ 512 → n < cnt → h (ofs + n) = 0 →
    CString h ofs (lib.string_at h ofs cnt) ∧ (lib.string_at h ofs cnt).length ≤ n := by
  induction n with
  | zero =>
    intro ofs cnt hofs hn hzero
    obtain ⟨cnt, rfl⟩ := Nat.exists_eq_add_one_of_ne_zero (Nat.ne_of_gt hn)
    rw [Nat.add_zero] at hzero
    rw [string_at_succ, if_pos hzero]
    exact ⟨⟨by omega, hzero⟩, Nat.le_refl 0⟩
  | succ n ih =>
    intro ofs cnt hofs hn hzero
    obtain ⟨cnt, rfl⟩ := Nat.exists_eq_add_one_of_ne_zero (Nat.ne_of_gt (Nat.zero_lt_of_lt hn))
    rw [string_at_succ]
    split_ifs with hc
    · exact ⟨⟨by omega, hc⟩, Nat.zero_le _⟩
    · have hnext : h (ofs + 1 + n) = 0 := by
        rw [← hzero]
        congr 1
        omega
      obtain ⟨hs, hlen⟩ := ih (show ofs + 1 + cnt ≤ 512 by omega) (by omega) hnext
      exact ⟨⟨rfl, hc, hs⟩, Nat.succ_le_succ hlen⟩

theorem CString.memcmp_cons {c : Byte} (hs : CString h ofs s) :
    reads.memcmp h (c :: t) ofs = if s.headD 0 = c then reads.memcmp h t (ofs + 1) else some false := by
  rw [reads.memcmp, hs.read]
  rfl

/-- The comparison with characters other than the terminator does not go behind it. -/
theorem CString.memcmp (t : Str) (ht : (0 : Byte) ∉ t) : ∀ {s : Str} {ofs : Nat}, CString h ofs s →
    reads.memcmp h t ofs = some (t.isPrefixOf s) := by
  induction t with
  | nil => exact fun _ => rfl
  | cons c t ih =>
    intro s ofs hs
    rw [hs.memcmp_cons]
    have hc : 0 ≠ c := fun heq => ht (heq ▸ List.mem_cons_self)
    cases s with
    | nil => exact if_neg hc
    | cons b s =>
      rw [ih (fun hmem => ht (List.mem_cons_of_mem _ hmem)) hs.2.2, List.headD_cons, List.isPrefixOf_cons_cons]
      by_cases hbc : b = c
      · rw [if_pos hbc, hbc, beq_self_eq_true, Bool.true_and]
      · rw [if_neg hbc, beq_false_of_ne (Ne.symm hbc), Bool.false_and]

/-- The comparison with the terminator too. -/
theorem CString.strcmp (t : Str) (ht : (0 : Byte) ∉ t) : ∀ {s : Str} {ofs : Nat}, CString h ofs s →
    reads.memcmp h (t ++ [0]) ofs = some (decide (s = t)) := by
  induction t with
  | nil =>
    intro s ofs hs
    rw [List.nil_append, hs.memcmp_cons]
    cases s with
    | nil => rfl
    | cons b s => exact if_neg hs.2.1
  | cons c t ih =>
    intro s ofs hs
    rw [List.cons_append, hs.memcmp_cons]
    have hc : 0 ≠ c := fun heq => ht (heq ▸ List.mem_cons_self)
    cases s with
    | nil => exact if_neg hc
    | cons b s =>
      rw [ih (fun hmem => ht (List.mem_cons_of_mem _ hmem)) hs.2.2, List.headD_cons]
      by_cases hbc : b = c
      · simp [hbc]
      · simp [hbc]

theorem CString.antisocial (hs : CString h ofs s) : reads.antisocial h ofs = some (lib.antisocial s) := by
  have hslash : [chr '/'].isPrefixOf s = decide (s.headD 0 = chr '/') := by
    cases s with
    | nil => decide
    | cons c s =>
      rw [List.isPrefixOf_cons_cons, List.isPrefixOf_nil_left, Bool.and_true, List.headD_cons]
      exact decide_eq_decide.mpr eq_comm
  rw [reads.antisocial, hs.read, hs.memcmp _ (by decide), hs.memcmp _ (by decide), lib.antisocial, hslash]
  by_cases hhead : s.headD 0 = chr '/'
  · simp only [Option.bind_eq_bind, Option.bind_some, if_pos hhead, decide_eq_true hhead, Bool.true_or]
    rfl
  · simp only [Option.bind_eq_bind, Option.bind_some, if_neg hhead, decide_eq_false hhead, Bool.false_or]
    cases [chr '.', chr '/'].isPrefixOf s <;> rfl

theorem CString.strchr {c : Byte} (fuel : Nat) : ∀ {s : Str} {ofs : Nat}, CString h ofs s → c ∈ s →
    s.length < fuel →
    reads.strchr h c fuel ofs = some (ofs + s.idxOf c) ∧ CString h (ofs + s.idxOf c + 1)
      (s.drop (s.idxOf c + 1)) := by
  induction fuel with
  | zero => exact fun _ _ hfuel => absurd hfuel (Nat.not_lt_zero _)
  | succ fuel ih =>
    intro s ofs hs hmem hfuel
    cases s with
    | nil => cases hmem
    | cons b s =>
      rw [reads.strchr, hs.read, List.idxOf_cons]
      by_cases hbc : b = c
      · simp only [hbc, List.headD_cons, Option.bind_eq_bind, Option.bind_some, beq_self_eq_true, cond_true,
          Nat.add_zero, List.drop_succ_cons, List.drop_zero]
        exact ⟨rfl, hs.2.2⟩
      · have hmem' : c ∈ s := (List.mem_cons.mp hmem).resolve_left (Ne.symm hbc)
        obtain ⟨hrun, hrest⟩ := ih hs.2.2 hmem' (Nat.lt_of_succ_lt_succ hfuel)
        have hne : (b == c) = false := beq_false_of_ne hbc
        simp only [hne, List.headD_cons, Option.bind_eq_bind, Option.bind_some, if_neg hbc, if_neg hs.2.1, hrun,
          cond_false, List.drop_succ_cons]
        refine ⟨congrArg some (by omega), ?_⟩
        rwa [show ofs + (s.idxOf c + 1) + 1 = ofs + 1 + s.idxOf c + 1 by omega]

/-- There is a slash in an antisocial name. -/
theorem mem_of_antisocial (hs : lib.antisocial s = true) : chr '/' ∈ s := by
  rw [lib.antisocial, Bool.or_eq_true, Bool.or_eq_true] at hs
  obtain (hs | hs) | hs := hs
  all_goals
    obtain ⟨t, rfl⟩ := List.isPrefixOf_iff_prefix.mp hs
    simp

/-- The loop strips what `strip_prefixes` does, and the name ends where it did. -/
theorem CString.strip_prefixes (s : Str) : ∀ {ofs fuel : Nat}, CString h ofs s → s.length < fuel →
    ∃ ofs', reads.strip_prefixes h fuel ofs = some ofs' ∧ CString h ofs' (lib.strip_prefixes s) ∧
      ofs' + (lib.strip_prefixes s).length = ofs + s.length := by
  fun_induction lib.strip_prefixes s with
  | case1 s hantisocial ih =>
    intro ofs fuel hs hfuel
    obtain ⟨fuel, rfl⟩ := Nat.exists_eq_add_one_of_ne_zero (Nat.ne_of_gt (Nat.zero_lt_of_lt hfuel))
    have hslash := mem_of_antisocial hantisocial
    have hidx := List.idxOf_lt_length_of_mem hslash
    have hlt := hs.lt
    obtain ⟨hrun, hrest⟩ := hs.strchr USTAR_HEADER_SIZE hslash (by rw [USTAR_HEADER_SIZE]; omega)
    obtain ⟨ofs', hstrip, hs', hend⟩ := ih hrest (show (s.drop _).length < fuel by rw [List.length_drop]; omega)
    refine ⟨ofs', ?_, hs', ?_⟩
    · rw [reads.strip_prefixes, hs.antisocial, hantisocial, hrun]
      exact hstrip
    · rw [hend, List.length_drop]
      omega
  | case2 s hsocial =>
    intro ofs fuel hs hfuel
    obtain ⟨fuel, rfl⟩ := Nat.exists_eq_add_one_of_ne_zero (Nat.ne_of_gt (Nat.zero_lt_of_lt hfuel))
    refine ⟨ofs, ?_, hs, rfl⟩
    rw [reads.strip_prefixes, hs.antisocial, Bool.eq_false_of_not_eq_true hsocial]
    rfl

/-- The name at the pointer, which ends in the header's field if it is not the literal. -/
def name_pointer.Holds (h : Bytes) : name_pointer → Str → Prop
  | .null, _ => False
  | .literal, s => s = [chr '.']
  | .in_header ofs, s => CString h ofs s ∧ ofs + s.length < ustar_header.name.sizeof

theorem CString.strip_antisocial_prefixes (hs : CString h ofs s)
    (hend : ofs + s.length < ustar_header.name.sizeof) :
    ∃ p, reads.strip_antisocial_prefixes h ofs = some p ∧ p.Holds h (lib.strip_antisocial_prefixes s) := by
  have hlt := hs.lt
  obtain ⟨ofs', hrun, hs', hend'⟩ := hs.strip_prefixes s (show s.length <
    USTAR_HEADER_SIZE by rw [USTAR_HEADER_SIZE]; omega)
  rw [reads.strip_antisocial_prefixes, hrun, lib.strip_antisocial_prefixes]
  have hhead : (lib.strip_prefixes s).headD 0 = 0 ↔ lib.strip_prefixes s = [] := by
    cases hstripped : lib.strip_prefixes s with
    | nil => decide
    | cons c t =>
      rw [hstripped] at hs'
      exact iff_of_false hs'.2.1 (List.cons_ne_nil c t)
  have hcmp : reads.memcmp h [chr '.', chr '.', 0] ofs' = some
      (decide (lib.strip_prefixes s = [chr '.', chr '.'])) :=
    hs'.strcmp [chr '.', chr '.'] (by decide)
  simp only [Option.bind_eq_bind, Option.bind_some, hs'.read, hcmp, hhead, decide_eq_true_eq]
  by_cases hnil : lib.strip_prefixes s = []
  · rw [if_pos hnil, if_pos (.inl hnil)]
    exact ⟨.literal, rfl, rfl⟩
  · by_cases hparent : lib.strip_prefixes s = [chr '.', chr '.']
    · rw [if_neg hnil, if_pos hparent, if_pos (.inr hparent)]
      exact ⟨.literal, rfl, rfl⟩
    · rw [if_neg hnil, if_neg hparent, if_neg (not_or.mpr ⟨hnil, hparent⟩)]
      exact ⟨.in_header ofs', rfl, hs', hend' ▸ hend⟩

/-- A name that needs no stripping stays where it is. -/
theorem CString.strip_again (hs : CString h ofs s) (hend : ofs + s.length < ustar_header.name.sizeof)
    (hsocial : lib.antisocial s = false) (hnil : s ≠ []) (hparent : s ≠ [chr '.', chr '.']) :
    reads.strip_antisocial_prefixes h ofs = some (.in_header ofs) := by
  have hlt := hs.lt
  have hrun : reads.strip_prefixes h USTAR_HEADER_SIZE ofs = some ofs := by
    rw [USTAR_HEADER_SIZE, reads.strip_prefixes, hs.antisocial, hsocial]
    rfl
  have hcmp : reads.memcmp h [chr '.', chr '.', 0] ofs = some (decide (s = [chr '.', chr '.'])) :=
    hs.strcmp [chr '.', chr '.'] (by decide)
  have hhead : s.headD 0 ≠ 0 := by
    cases s with
    | nil => contradiction
    | cons c t => exact hs.2.1
  rw [reads.strip_antisocial_prefixes, hrun]
  simp only [Option.bind_eq_bind, Option.bind_some, hs.read, hcmp, if_neg hhead, decide_eq_false hparent]
  rfl

/-- What is returned, and what `ustar_parse_header` says. -/
inductive Agree (h : Bytes) : Except String (name_pointer × ustar_type × Int) →
    Except String (Option Str × ustar_type × Int) → Prop
  | error (message : String) : Agree h (.error message) (.error message)
  | eof : Agree h (.ok (.null, .USTAR_EOF, 0)) (.ok (none, .USTAR_EOF, 0))
  | accepted {p : name_pointer} {name : Str} {type : ustar_type} {size : Int} (hname : p.Holds h name) :
      Agree h (.ok (p, type, size)) (.ok (some name, type, size))

/-- The reads are those of the header, on every block. -/
theorem ustar_parse_header_eq (h : Bytes) :
    ∃ r, reads.ustar_parse_header h = some r ∧ Agree h r (lib.ustar_parse_header h) := by
  have hzeros : is_all_zeros h USTAR_HEADER_SIZE 0 = some (lib.is_all_zeros h USTAR_HEADER_SIZE) := by
    rw [is_all_zeros_eq _ (Nat.le_refl _), ← List.range_eq_range']
    rfl
  have hmagic : memcmp h (['u', 's', 't', 'a', 'r'].map chr ++ [0]) ustar_header.magic.offsetof =
      some (decide (bytes_at h ustar_header.magic.offsetof 6 = ['u', 's', 't', 'a', 'r'].map chr ++ [0])) :=
    memcmp_eq _ (by decide)
  have hversion : memcmp h [chr '0', chr '0'] ustar_header.version.offsetof =
      some (decide (¬ (h ustar_header.version.offsetof ≠ chr '0' ∨
        h (ustar_header.version.offsetof + 1) ≠ chr '0'))) := by
    rw [memcmp_eq _ (by decide)]
    congr 1
    rw [decide_eq_decide, not_or, not_not, not_not]
    simp [bytes_at, List.range_succ]
  have hsum := @parse_octal_field_eq h ustar_header.chksum (by decide)
  have hsize := @parse_octal_field_eq h ustar_header.size (by decide)
  have hlast := @read_eq h (ustar_header.name.offsetof + ustar_header.name.sizeof - 1) (by decide)
  have hprefix := @read_eq h ustar_header.prefix_field.offsetof (by decide)
  have htypeflag := @read_eq h ustar_header.typeflag.offsetof (by decide)
  have hstrip : h (ustar_header.name.offsetof + ustar_header.name.sizeof - 1) = 0 →
      ∃ p, reads.strip_antisocial_prefixes h ustar_header.name.offsetof = some p ∧
        p.Holds h (lib.strip_antisocial_prefixes
          (lib.string_at h ustar_header.name.offsetof ustar_header.name.sizeof)) := by
    intro hnull
    obtain ⟨hs, hlen⟩ := @cstring_of_null h 99 ustar_header.name.offsetof ustar_header.name.sizeof
      (by decide) (by decide) hnull
    exact hs.strip_antisocial_prefixes (Nat.lt_of_le_of_lt (Nat.add_le_add_left hlen _) (by decide))
  simp only [reads.ustar_parse_header, lib.ustar_parse_header, file_size, hzeros, hmagic, hversion,
    hsum, hsize, hlast, hprefix,
    htypeflag, calculate_chksum_eq, Option.bind_eq_bind, Option.bind_some, Bool.not_eq_true',
      decide_eq_false_iff_not,
    not_not]
  by_cases hzero : lib.is_all_zeros h USTAR_HEADER_SIZE = true
  · rw [if_pos hzero, if_pos hzero]
    exact ⟨_, rfl, .eof⟩
  rw [if_neg hzero, if_neg hzero]
  by_cases hustar : bytes_at h ustar_header.magic.offsetof 6 = ['u', 's', 't', 'a', 'r'].map chr ++ [0]
  swap
  · rw [if_pos hustar, if_pos hustar]
    exact ⟨_, rfl, .error _⟩
  rw [if_neg (not_not.mpr hustar), if_neg (not_not.mpr hustar)]
  by_cases hzero2 : h ustar_header.version.offsetof ≠ chr '0' ∨ h (ustar_header.version.offsetof + 1) ≠ chr '0'
  · rw [if_pos hzero2, if_pos hzero2]
    exact ⟨_, rfl, .error _⟩
  rw [if_neg hzero2, if_neg hzero2]
  cases lib.parse_octal_field h ustar_header.chksum with
  | none => exact ⟨_, rfl, .error _⟩
  | some chksum =>
    by_cases hchksum : chksum ≠ lib.calculate_chksum h
    · simp only [if_pos hchksum]
      exact ⟨_, rfl, .error _⟩
    simp only [if_neg hchksum]
    by_cases hnull : h (ustar_header.name.offsetof + ustar_header.name.sizeof - 1) ≠ 0
    · simp only [if_pos hnull, if_pos (Or.inl hnull : _ ∨ h ustar_header.prefix_field.offsetof ≠ 0)]
      exact ⟨_, rfl, .error _⟩
    by_cases hpre : h ustar_header.prefix_field.offsetof ≠ 0
    · simp only [if_neg hnull, if_pos hpre, if_pos (Or.inr hpre)]
      exact ⟨_, rfl, .error _⟩
    obtain ⟨p, hp, hname⟩ := hstrip (not_not.mp hnull)
    simp only [if_neg hnull, if_neg hpre, if_neg (not_or.mpr ⟨hnull, hpre⟩), hp, Option.bind_some]
    by_cases hregular : h ustar_header.typeflag.offsetof = ustar_type.char .USTAR_REGULAR
    · simp only [if_pos hregular]
      cases lib.parse_octal_field h ustar_header.size with
      | none => exact ⟨_, rfl, .error _⟩
      | some size =>
        by_cases hlarge : size > INT_MAX
        · simp only [if_pos hlarge]
          exact ⟨_, rfl, .error _⟩
        · simp only [if_neg hlarge]
          exact ⟨_, rfl, .accepted hname⟩
    · simp only [if_neg hregular]
      by_cases hdir : h ustar_header.typeflag.offsetof = ustar_type.char .USTAR_DIRECTORY
      · simp only [if_pos hdir]
        exact ⟨_, rfl, .accepted hname⟩
      · simp only [if_neg hdir]
        exact ⟨_, rfl, .error _⟩

end Lemmas

end reads

section Accepted

open reads

variable {h h' : Bytes} {name : Option Str} {type : ustar_type} {size : Int} {k : Nat}

/-- What the parser has checked of a header that it accepts. -/
structure Accepted (h : Bytes) (name : Option Str) (type : ustar_type) (size : Int) : Prop where
  magic : bytes_at h ustar_header.magic.offsetof 6 = ['u', 's', 't', 'a', 'r'].map chr ++ [0]
  chksum : parse_octal_field h ustar_header.chksum = some (calculate_chksum h)
  name : ∃ file_name, name = some (strip_antisocial_prefixes file_name)
  type : type ≠ .USTAR_EOF
  size : 0 ≤ size ∧ size ≤ INT_MAX

/-- At the end of the archive all bytes are zero, or else the header has been checked. -/
theorem ustar_parse_header_ok (hok : ustar_parse_header h = .ok (name, type, size)) :
    (∀ i < 512, h i = 0) ∧ type = .USTAR_EOF ∨ (¬ ∀ i < 512, h i = 0) ∧ Accepted h name type size := by
  have hzeros : is_all_zeros h USTAR_HEADER_SIZE = true ↔ ∀ i < 512, h i = 0 := by
    simp only [is_all_zeros, USTAR_HEADER_SIZE, List.all_eq_true, List.mem_range, decide_eq_true_eq]
  rw [ustar_parse_header] at hok
  by_cases hzero : is_all_zeros h USTAR_HEADER_SIZE = true
  · rw [if_pos hzero] at hok
    obtain ⟨-, rfl, -⟩ : none = name ∧ ustar_type.USTAR_EOF = type ∧ 0 = size := by simpa using hok
    exact .inl ⟨hzeros.mp hzero, rfl⟩
  right
  refine ⟨mt hzeros.mpr hzero, ?_⟩
  rw [if_neg hzero] at hok
  by_cases hmagic : bytes_at h ustar_header.magic.offsetof 6 = ['u', 's', 't', 'a', 'r'].map chr ++ [0]
  swap
  · rw [if_pos hmagic] at hok
    cases hok
  rw [if_neg (not_not.mpr hmagic)] at hok
  by_cases hversion : h ustar_header.version.offsetof ≠ chr '0' ∨
    h (ustar_header.version.offsetof + 1) ≠ chr '0'
  · rw [if_pos hversion] at hok
    cases hok
  rw [if_neg hversion] at hok
  cases hsum : parse_octal_field h ustar_header.chksum with
  | none =>
    rw [hsum] at hok
    cases hok
  | some chksum =>
    simp only [hsum] at hok
    by_cases hchksum : chksum = calculate_chksum h
    swap
    · rw [if_pos hchksum] at hok
      cases hok
    rw [if_neg (not_not.mpr hchksum)] at hok
    rw [hchksum] at hsum
    split at hok
    · cases hok
    split at hok
    · split at hok
      · cases hok
      · next size_ul _ =>
        split at hok
        · cases hok
        · next hlarge =>
          obtain ⟨rfl, rfl, rfl⟩ : some _ = name ∧ ustar_type.USTAR_REGULAR = type ∧
            (size_ul : Int) = size := by
            simpa using hok
          exact ⟨hmagic, hsum, ⟨_, rfl⟩, by decide, by omega⟩
    · split at hok
      · obtain ⟨rfl, rfl, rfl⟩ : some _ = name ∧ ustar_type.USTAR_DIRECTORY = type ∧
          0 = size := by simpa using hok
        exact ⟨hmagic, hsum, ⟨_, rfl⟩, by decide, by decide⟩
      · cases hok

theorem chksum_foldl (v : Nat → Nat) (l : List Nat) : ∀ {chksum : Nat}, chksum < 2 ^ 32 →
    l.foldl (fun chksum i => (chksum + v i) % 2 ^ 32) chksum = (chksum + (l.map v).sum) % 2 ^ 32 := by
  induction l with
  | nil =>
    intro chksum hlt
    exact (Nat.mod_eq_of_lt hlt).symm
  | cons i l ih =>
    intro chksum _
    rw [List.foldl_cons, ih (Nat.mod_lt _ (by decide)), List.map_cons, List.sum_cons, Nat.mod_add_mod,
      Nat.add_assoc]

theorem parse_octal_loop_congr {b b' : Bytes} (left : Nat) : ∀ {ofs value : Nat},
    (∀ i, ofs ≤ i → i < ofs + left → b i = b' i) →
      parse_octal_loop b left ofs value = parse_octal_loop b' left ofs value := by
  induction left with
  | zero => exact fun _ => rfl
  | succ left ih =>
    intro ofs value hb
    simp only [parse_octal_loop, hb ofs (Nat.le_refl _) (by omega)]
    split_ifs
    · rfl
    · exact ih fun i hlow hhigh => hb i (by omega) (by omega)
    · rfl
    · rfl
    · rfl

/-- What a byte adds to the checksum. -/
def chksum_byte (h : Bytes) (i : Nat) : Nat := if i ≥ 148 && i < 148 + 8 then (chr ' ').toNat else (h i).toNat

/-- Every byte outside of its own field matters to the checksum. -/
theorem calculate_chksum_ne (hk : k < 512) (hout : k < 148 ∨ 156 ≤ k) (hne : h' k ≠ h k)
    (hsame : ∀ i < 512, i ≠ k → h' i = h i) : calculate_chksum h' ≠ calculate_chksum h := by
  have hsum : ∀ h, calculate_chksum h = (0 + ((List.range 512).map (chksum_byte h)).sum) % 2 ^ 32 :=
    fun h => chksum_foldl (chksum_byte h) (List.range 512) (by decide)
  have hmem : k ∈ List.range 512 := List.mem_range.mpr hk
  have hrest : ((List.range 512).erase k).map (chksum_byte h') =
      ((List.range 512).erase k).map (chksum_byte h) := by
    apply List.map_congr_left
    intro i hi
    obtain ⟨hik, hi⟩ := (List.nodup_range.mem_erase_iff).mp hi
    simp only [chksum_byte, hsame i (List.mem_range.mp hi) hik]
  have hv : ∀ h : Bytes, chksum_byte h k = (h k).toNat := by
    intro h
    have hfalse : ¬ (k ≥ 148 && k < 148 + 8) = true := by
      simp only [Bool.and_eq_true, decide_eq_true_eq]
      omega
    exact if_neg hfalse
  intro heq
  rw [hsum, hsum, ← List.sum_map_erase (chksum_byte h') hmem, ← List.sum_map_erase (chksum_byte h) hmem,
    hrest, hv, hv] at heq
  have hlt := (h k).isLt
  have hlt' := (h' k).isLt
  exact hne (BitVec.eq_of_toNat_eq (by omega))

/-- A header that differs from an accepted one in one byte is not accepted. -/
theorem Accepted.changed (ha : Accepted h name type size) (hk : k < 512) (hout : k < 148 ∨ 156 ≤ k)
    (hne : h' k ≠ h k)
    (hsame : ∀ i < 512, i ≠ k → h' i = h i) : ∃ message, ustar_parse_header h' = .error message := by
  cases hparse : ustar_parse_header h' with
  | error message => exact ⟨message, rfl⟩
  | ok result =>
    obtain ⟨name', type', size'⟩ := result
    obtain ⟨hzero, -⟩ | ⟨-, ha'⟩ := ustar_parse_header_ok hparse
    · -- Two bytes of the magic are not zero, and one of them is not the one that has been changed.
      have hu : h 257 = chr 'u' := congrArg (fun l => l.getD 0 0) ha.magic
      have hs : h 258 = chr 's' := congrArg (fun l => l.getD 1 0) ha.magic
      by_cases hk' : k = 257
      · have hsame' := hsame 258 (by decide) (by omega)
        rw [hzero 258 (by decide), hs] at hsame'
        exact absurd hsame' (by decide)
      · have hsame' := hsame 257 (by decide) (by omega)
        rw [hzero 257 (by decide), hu] at hsame'
        exact absurd hsame' (by decide)
    · have hfield : parse_octal_field h' ustar_header.chksum = parse_octal_field h ustar_header.chksum := by
        apply parse_octal_loop_congr
        intro i _ hi
        change i < 0 + 8 at hi
        exact hsame _ (show 148 + i < 512 by omega) (show 148 + i ≠ k by omega)
      rw [ha.chksum, ha'.chksum] at hfield
      exact absurd (Option.some.inj hfield) (calculate_chksum_ne hk hout hne hsame)

/-- The name that is returned: it ends in the name field, and there is nothing to strip. -/
structure SafeName (h : Bytes) (p : name_pointer) (name : Str) : Prop where
  holds : p.Holds h name
  not_nil : name ≠ []
  not_parent : name ≠ [chr '.', chr '.']
  social : antisocial name = false
  idem : strip_antisocial_prefixes name = name
  again : ∀ ofs, p = .in_header ofs → reads.strip_antisocial_prefixes h ofs = some (.in_header ofs)

theorem safe_name {p : name_pointer} {file_name : Str} (hp : p.Holds h (strip_antisocial_prefixes file_name)) :
    SafeName h p (strip_antisocial_prefixes file_name) := by
  have hname : strip_antisocial_prefixes file_name ≠ [] ∧ strip_antisocial_prefixes file_name ≠
      [chr '.', chr '.'] ∧
      antisocial (strip_antisocial_prefixes file_name) = false := by
    simp only [strip_antisocial_prefixes]
    split_ifs with hdot
    · decide
    · obtain ⟨hnil, hparent⟩ := not_or.mp hdot
      exact ⟨hnil, hparent, strip_prefixes_not_antisocial file_name⟩
  obtain ⟨hnil, hparent, hsocial⟩ := hname
  refine ⟨hp, hnil, hparent, hsocial, strip_antisocial_prefixes_idem file_name, ?_⟩
  rintro ofs rfl
  exact hp.1.strip_again hp.2 hsocial hnil hparent

/-- On every block the parser reads the header only. It reports the end of the archive exactly if all
bytes are zero; what it accepts has a safe name and a size that an `int` can be, and is not accepted
any more when one byte has been changed. -/
theorem ustar_parse_header_untrusted (h : Bytes) :
    ∃ r, reads.ustar_parse_header h = some r ∧
      ((∃ p size, r = .ok (p, .USTAR_EOF, size)) ↔ ∀ i < 512, h i = 0) ∧
      ∀ p type size, r = .ok (p, type, size) → type ≠ .USTAR_EOF →
        (∃ name, SafeName h p name) ∧ 0 ≤ size ∧ size ≤ INT_MAX ∧
        ∀ (h' : Bytes) k, k < 512 → (k < 148 ∨ 156 ≤ k) → h' k ≠ h k → (∀ i < 512, i ≠ k → h' i = h i) →
          ∃ message, reads.ustar_parse_header h' = some (.error message) := by
  obtain ⟨r, hrun, hagree⟩ := ustar_parse_header_eq h
  refine ⟨r, hrun, ?_, ?_⟩
  · constructor
    · rintro ⟨p, size, rfl⟩
      generalize hparse : ustar_parse_header h = result at hagree
      cases hagree with
      | eof => exact (ustar_parse_header_ok hparse).resolve_right (fun ha => ha.2.type rfl) |>.1
      | accepted hname =>
        obtain ⟨hzero, -⟩ | ⟨-, ha⟩ := ustar_parse_header_ok hparse
        · exact hzero
        · exact absurd rfl ha.type
    · intro hzero
      have hparse : ustar_parse_header h = .ok (none, .USTAR_EOF, 0) := by
        rw [ustar_parse_header, if_pos]
        simp only [is_all_zeros, USTAR_HEADER_SIZE, List.all_eq_true, List.mem_range, decide_eq_true_eq]
        exact hzero
      rw [hparse] at hagree
      cases hagree
      exact ⟨.null, 0, rfl⟩
  · rintro p type size rfl htype
    generalize hparse : ustar_parse_header h = result at hagree
    cases hagree with
    | eof => exact absurd rfl htype
    | accepted hname =>
      obtain ⟨-, htype'⟩ | ⟨-, ha⟩ := ustar_parse_header_ok hparse
      · exact absurd htype' htype
      · obtain ⟨file_name, hfile⟩ := ha.name
        obtain rfl := Option.some.inj hfile
        refine ⟨⟨_, safe_name hname⟩, ha.size.1, ha.size.2, ?_⟩
        intro h' k hk hout hne hsame
        obtain ⟨message, hmessage⟩ := ha.changed hk hout hne hsame
        obtain ⟨r', hrun', hagree'⟩ := ustar_parse_header_eq h'
        rw [hmessage] at hagree'
        cases hagree'
        exact ⟨message, hrun'⟩

end Accepted

end pintos.lib
