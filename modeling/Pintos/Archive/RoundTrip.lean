import Pintos.Archive.Ustar
import Mathlib.Data.List.GetD

/-!
# A header that was made is parsed

The numbers that are printed in octal fit their fields and are read back, the
checksum does not depend on its own field, and a stripped name is stripped
already.
-/

open bytes pintos.filesys

namespace pintos.lib

/-! ## Names -/

theorem strip_prefixes_not_antisocial (file_name : Str) : antisocial (strip_prefixes file_name) = false := by
  fun_induction strip_prefixes file_name with
  | case1 _ _ ih => exact ih
  | case2 _ h => simpa using h

theorem strip_prefixes_of_not {file_name : Str} (h : antisocial file_name = false) :
    strip_prefixes file_name = file_name := by
  rw [strip_prefixes, if_neg (by simp [h])]

/-- A stripped name is stripped already. -/
theorem strip_antisocial_prefixes_idem (file_name : Str) :
    strip_antisocial_prefixes (strip_antisocial_prefixes file_name) = strip_antisocial_prefixes file_name := by
  have hdot : strip_prefixes [chr '.'] = [chr '.'] := strip_prefixes_of_not (by decide)
  have hstripped := strip_prefixes_of_not (strip_prefixes_not_antisocial file_name)
  simp only [strip_antisocial_prefixes]
  split
  · rw [hdot]
    decide
  · next h => rw [hstripped, if_neg h]

theorem strip_prefixes_subset (file_name : Str) : strip_prefixes file_name ⊆ file_name := by
  fun_induction strip_prefixes file_name with
  | case1 name _ ih => exact fun c hc => List.drop_subset _ name (ih hc)
  | case2 => exact List.Subset.refl _

theorem strip_antisocial_prefixes_no_nul {file_name : Str} (h : (0 : Byte) ∉ file_name) :
    (0 : Byte) ∉ strip_antisocial_prefixes file_name := by
  simp only [strip_antisocial_prefixes]
  split
  · decide
  · exact fun hmem => h (strip_prefixes_subset file_name hmem)

/-! ## Fields -/

variable {h h' : Bytes} {ofs i : Nat} {s : List Byte}

theorem store_outside (hi : i < ofs ∨ ofs + s.length ≤ i) : store h ofs s i = h i :=
  if_neg (by omega)

theorem store_inside (h : Bytes) (ofs : Nat) (hi : i < s.length) : store h ofs s (ofs + i) = s.getD i 0 := by
  rw [store, if_pos (by omega), Nat.add_sub_cancel_left]

theorem bytes_at_store (h : Bytes) (ofs : Nat) (s : List Byte) : bytes_at (store h ofs s) ofs s.length = s := by
  apply List.ext_getElem
  · simp [bytes_at]
  · intro i hi hi'
    simp only [bytes_at, List.getElem_map, List.getElem_range]
    rw [store_inside _ _ hi', List.getD_eq_getElem?_getD, List.getElem?_eq_getElem hi', Option.getD_some]

theorem bytes_at_congr {cnt : Nat} (hb : ∀ i < cnt, h (ofs + i) = h' (ofs + i)) :
    bytes_at h ofs cnt = bytes_at h' ofs cnt :=
  List.map_congr_left fun i hi => hb i (List.mem_range.mp hi)

theorem bytes_at_append (b : Bytes) (ofs m n : Nat) :
    bytes_at b ofs (m + n) = bytes_at b ofs m ++ bytes_at b (ofs + m) n := by
  simp only [bytes_at, List.range_add, List.map_append, List.map_map, Nat.add_assoc]
  rfl

/-- The string in a field is the string written there. -/
theorem string_at_store (h : Bytes) (ofs : Nat) {cnt : Nat} (hs : (0 : Byte) ∉ s) (hcnt : s.length < cnt) :
    string_at (store h ofs (s ++ [0])) ofs cnt = s := by
  have hbytes : bytes_at (store h ofs (s ++ [0])) ofs cnt = s ++ [0] ++
      bytes_at (store h ofs (s ++ [0])) (ofs + (s ++ [0]).length) (cnt - (s ++ [0]).length) := by
    conv_rhs => enter [1]; rw [← bytes_at_store h ofs (s ++ [0])]
    rw [← bytes_at_append, Nat.add_sub_cancel' (by simpa using hcnt)]
  rw [string_at, hbytes, List.append_assoc, List.takeWhile_append_of_pos]
  · simp
  · intro c hc
    have hne : c ≠ 0 := fun heq => hs (heq ▸ hc)
    simpa using hne

/-! ## Octal fields -/

/-- The character of an octal digit. -/
def octal_char (d : Nat) : Byte := chr (base_o.digits.getD d '0')

theorem octal_char_toNat {d : Nat} (hd : d < 8) : (octal_char d).toNat = 48 + d := by
  interval_cases d <;> rfl

/-- The loop reads the digits up to the terminator, when their number fits. -/
theorem parse_octal_loop_run {b : Bytes} (ds : List Nat) (hds : ∀ d ∈ ds, d < 8) {left ofs value : Nat}
    (hleft : ds.length < left) (hofs : 0 < ofs + ds.length)
    (hb : ∀ i (hi : i < ds.length), b (ofs + i) = octal_char ds[i]) (hend : b (ofs + ds.length) = 0)
    (hfit : digits.read 8 value ds ≤ ULONG_MAX) :
    parse_octal_loop b left ofs value = some (digits.read 8 value ds) := by
  induction ds generalizing left ofs value with
  | nil =>
    obtain ⟨left, rfl⟩ := Nat.exists_eq_add_one_of_ne_zero (Nat.ne_of_gt hleft)
    simp only [List.length_nil, Nat.add_zero] at hend hofs
    rw [parse_octal_loop, hend]
    simp [chr, hofs]
  | cons d ds ih =>
    obtain ⟨left, rfl⟩ := Nat.exists_eq_add_one_of_ne_zero (Nat.ne_of_gt (Nat.zero_lt_of_lt hleft))
    have hd : d < 8 := hds d (by simp)
    have hfirst : (b ofs).toNat = 48 + d := by
      rw [show b ofs = octal_char d from hb 0 (by simp), octal_char_toNat hd]
    have hle := digits.le_read (b := 8) (by decide) (d + value * 8) ds
    have hroom : ¬ value > ULONG_MAX / 8 := by
      rw [digits.read_cons] at hfit
      omega
    have hzero : (chr '0').toNat = 48 := rfl
    have hseven : (chr '7').toNat = 55 := rfl
    rw [parse_octal_loop, hfirst, hzero, hseven]
    simp only [if_neg hroom]
    rw [if_pos (by omega), show 48 + d - 48 + value * 8 = d + value * 8 by omega, digits.read_cons]
    apply ih (fun d' hd' => hds d' (by simp [hd']))
    · simpa using hleft
    · omega
    · intro i hi
      have hnext := hb (i + 1) (by simpa using hi)
      rw [show ofs + 1 + i = ofs + (i + 1) by omega, hnext]
      rfl
    · rw [← hend]
      congr 1
      simp only [List.length_cons]
      omega
    · rwa [digits.read_cons] at hfit

/-- A field with an octal number that was printed there is parsed as the number. -/
theorem parse_octal_field_run {f : field} {value n : Nat} (hn : 0 < n) (hvalue : value < 8 ^ n)
    (hfit : value ≤ ULONG_MAX) (hsize : f.sizeof = n + 1)
    (hb : ∀ i < n + 1, h (f.offsetof + i) =
      ((format_integer value false false base_o (octal n)).map chr ++ [0]).getD i 0) :
    parse_octal_field h f = some value := by
  obtain ⟨hlen, k, hdigits⟩ := format_integer_octal hn hvalue
  have hread : digits.read 8 0 (List.replicate k 0 ++ (Nat.digits 8 value).reverse) = value := by
    rw [digits.read_zeros, digits.read_digits]
  have hchars : (format_integer value false false base_o (octal n)).map chr =
      (List.replicate k 0 ++ (Nat.digits 8 value).reverse).map octal_char := by
    rw [hdigits, List.map_append, List.map_append, List.map_replicate, List.map_replicate, octal_digits,
      List.map_map]
    rfl
  have hcount : (List.replicate k 0 ++ (Nat.digits 8 value).reverse).length = n := by
    rw [← hlen, ← List.length_map (f := chr), hchars, List.length_map]
  have hdigit : ∀ d ∈ List.replicate k 0 ++ (Nat.digits 8 value).reverse, d < 8 := by
    intro d hd
    obtain hzero | hd := List.mem_append.mp hd
    · rw [List.eq_of_mem_replicate hzero]
      decide
    · exact Nat.digits_lt_base (by decide) (List.mem_reverse.mp hd)
  rw [hchars] at hb
  generalize List.replicate k 0 ++ (Nat.digits 8 value).reverse = ds at hread hcount hdigit hb
  rw [← hread] at hfit ⊢
  apply parse_octal_loop_run ds hdigit
  · omega
  · omega
  · intro i hi
    rw [Nat.zero_add, drop, hb i (by omega), List.getD_append _ _ _ _ (by simpa using hi)]
    simp [List.getD_eq_getElem?_getD, hi]
  · rw [Nat.zero_add, hcount, drop, hb n (by omega), List.getD_append_right _ _ _ _ (by simp [hcount])]
    simp [hcount]
  · exact hfit

/-- The bytes of an octal number in a field of `n + 1` bytes. -/
def octal_field (n value : Nat) : List Byte :=
  (format_integer value false false base_o (octal n)).map chr ++ [0]

theorem octal_field_length {n value : Nat} (hn : 0 < n) (hvalue : value < 8 ^ n) :
    (octal_field n value).length = n + 1 := by
  simp [octal_field, (format_integer_octal hn hvalue).1]

theorem snprintf_run {n : Nat} {value : Int} {format : List Char} (hn : 0 < n)
    (hvalue : 0 ≤ value ∧ value < 8 ^ n ∧ value < 2 ^ 32)
    (hformat : vprintf format.length format [value] =
      some (format_integer (unsigned_argument .INT value) false false base_o (octal n))) :
    snprintf h ofs (n + 1) format [value] = some (store h ofs (octal_field n value.toNat)) := by
  have harg : unsigned_argument .INT value = value.toNat := by
    rw [unsigned_argument, Int.emod_eq_of_lt hvalue.1 hvalue.2.2]
  have hlt : value.toNat < 8 ^ n := by
    have hcast : ((value.toNat : Nat) : Int) < ((8 ^ n : Nat) : Int) := by
      rw [Int.toNat_of_nonneg hvalue.1]
      exact_mod_cast hvalue.2.1
    exact_mod_cast hcast
  have hlen := (format_integer_octal hn hlt).1
  rw [snprintf, hformat, harg, Option.bind_eq_bind, Option.bind_some, if_pos (Nat.succ_pos n),
    Nat.add_sub_cancel, List.take_of_length_le (by simp [hlen])]
  rfl

theorem snprintf_07o {value : Int} (hvalue : 0 ≤ value ∧ value < 8 ^ 7) :
    snprintf h ofs 8 ['%', '0', '7', 'o'] [value] = some (store h ofs (octal_field 7 value.toNat)) := by
  have hparse : parse_conversion ['0', '7', 'o'] [value] = (octal 7, ['o'], [value]) := rfl
  refine snprintf_run (n := 7) (by decide) ⟨hvalue.1, hvalue.2, by omega⟩ ?_
  simp [vprintf, hparse, unsigned_base, octal]

theorem snprintf_011o {value : Int} (hvalue : 0 ≤ value ∧ value < 2 ^ 32) :
    snprintf h ofs 12 ['%', '0', '1', '1', 'o'] [value] = some (store h ofs (octal_field 11 value.toNat)) := by
  have hparse : parse_conversion ['0', '1', '1', 'o'] [value] = (octal 11, ['o'], [value]) := rfl
  refine snprintf_run (n := 11) (by decide) ⟨hvalue.1, by omega, hvalue.2⟩ ?_
  simp [vprintf, hparse, unsigned_base, octal]

theorem strlcpy_run {size : Nat} (hs : s.length < size) : strlcpy h ofs s size = store h ofs (s ++ [0]) := by
  have hpos : 0 < size := by omega
  rw [strlcpy, if_pos hpos, List.take_of_length_le (by omega)]

/-! ## The checksum -/

/-- Its own field does not matter to the checksum. -/
theorem calculate_chksum_congr (hsame : ∀ i < 512, i < 148 ∨ 156 ≤ i → h i = h' i) :
    calculate_chksum h = calculate_chksum h' := by
  rw [calculate_chksum, calculate_chksum]
  refine List.foldl_ext _ _ 0 ?_
  intro chksum i hi
  have hlt : i < 512 := List.mem_range.mp hi
  change (chksum + if i ≥ 148 && i < 148 + 8 then 32 else (h i).toNat) % 2 ^ 32 =
    (chksum + if i ≥ 148 && i < 148 + 8 then 32 else (h' i).toNat) % 2 ^ 32
  simp only [Bool.and_eq_true, decide_eq_true_eq]
  split_ifs with hin
  · rfl
  · rw [hsame i hlt (by omega)]

theorem calculate_chksum_lt (h : Bytes) : calculate_chksum h < 8 ^ 7 := by
  have hsum (l : List Nat) (c : Nat) : l.foldl (fun chksum i =>
      (chksum + if i ≥ 148 && i < 148 + 8 then (chr ' ').toNat else (h i).toNat) % 2 ^ 32) c ≤
        c + 255 * l.length := by
    induction l generalizing c with
    | nil => simp
    | cons i l ih =>
      have hbyte : (if i ≥ 148 && i < 148 + 8 then (chr ' ').toNat else (h i).toNat) ≤ 255 := by
        split
        · decide
        · have hlt := (h i).isLt
          omega
      refine (ih _).trans ?_
      have hmod := Nat.mod_le (c + if i ≥ 148 && i < 148 + 8 then (chr ' ').toNat else (h i).toNat) (2 ^ 32)
      simp only [List.length_cons]
      omega
  have hle := hsum (List.range 512) 0
  rw [List.length_range] at hle
  exact Nat.lt_of_le_of_lt hle (by decide)

/-! ## The header -/

/-- The header before the checksum is filled in. -/
def filled (file_name : Str) (type : ustar_type) (size : Int) (header : Bytes) : Bytes :=
  let h := store (memset header 0 512) 0 (file_name ++ [0])
  let h := store h 100 (octal_field 7 (if type = .USTAR_REGULAR then 0o644 else 0o755))
  let h := store h 108 (List.replicate 7 (chr '0') ++ [0])
  let h := store h 116 (List.replicate 7 (chr '0') ++ [0])
  let h := store h 124 (octal_field 11 size.toNat)
  let h := store h 136 (octal_field 11 1136102400)
  let h := store h 156 [type.char]
  let h := store h 257 (['u', 's', 't', 'a', 'r'].map chr ++ [0])
  let h := store h 263 [chr '0', chr '0']
  let h := store h 297 (['r', 'o', 'o', 't'].map chr ++ [0])
  store h 265 (['r', 'o', 'o', 't'].map chr ++ [0])

/-- The header that is made. -/
def made (file_name : Str) (type : ustar_type) (size : Int) (header : Bytes) : Bytes :=
  store (filled file_name type size header) 148
    (octal_field 7 (calculate_chksum (filled file_name type size header)))

theorem ustar_make_header_run {file_name : Str} {type : ustar_type} {size : Int} {header : Bytes}
    (htype : type = .USTAR_REGULAR ∨ type = .USTAR_DIRECTORY) (hsize : 0 ≤ size ∧ size ≤ INT_MAX)
    (hlen : (strip_antisocial_prefixes file_name).length ≤ 99) :
    ustar_make_header file_name type size header =
      some (true, made (strip_antisocial_prefixes file_name) type size header) := by
  have hmax : (INT_MAX : Int) < 2 ^ 32 := by decide
  have hname (h : Bytes) : strlcpy h ustar_header.name.offsetof (strip_antisocial_prefixes file_name)
      ustar_header.name.sizeof = store h 0 (strip_antisocial_prefixes file_name ++ [0]) :=
    strlcpy_run (Nat.lt_succ_of_le hlen)
  have hmode (h : Bytes) : snprintf h ustar_header.mode.offsetof ustar_header.mode.sizeof ['%', '0', '7', 'o']
      [if type = .USTAR_REGULAR then 0o644 else 0o755] =
        some (store h 100 (octal_field 7 (if type = .USTAR_REGULAR then 0o644 else 0o755))) := by
    split <;> exact snprintf_07o (by decide)
  have huid (h : Bytes) : strlcpy h ustar_header.uid.offsetof (List.replicate 7 (chr '0'))
      ustar_header.uid.sizeof = store h 108 (List.replicate 7 (chr '0') ++ [0]) := strlcpy_run (by decide)
  have hgid (h : Bytes) : strlcpy h ustar_header.gid.offsetof (List.replicate 7 (chr '0'))
      ustar_header.gid.sizeof = store h 116 (List.replicate 7 (chr '0') ++ [0]) := strlcpy_run (by decide)
  have hsizefield (h : Bytes) : snprintf h ustar_header.size.offsetof ustar_header.size.sizeof
      ['%', '0', '1', '1', 'o'] [size] = some (store h 124 (octal_field 11 size.toNat)) :=
    snprintf_011o ⟨hsize.1, by omega⟩
  have hmtime (h : Bytes) : snprintf h ustar_header.mtime.offsetof ustar_header.size.sizeof
      ['%', '0', '1', '1', 'o'] [1136102400] = some (store h 136 (octal_field 11 1136102400)) :=
    snprintf_011o (by decide)
  have hmagic (h : Bytes) : strlcpy h ustar_header.magic.offsetof (['u', 's', 't', 'a', 'r'].map chr)
      ustar_header.magic.sizeof = store h 257 (['u', 's', 't', 'a', 'r'].map chr ++ [0]) :=
    strlcpy_run (by decide)
  have hgname (h : Bytes) : strlcpy h ustar_header.gname.offsetof (['r', 'o', 'o', 't'].map chr)
      ustar_header.gname.sizeof = store h 297 (['r', 'o', 'o', 't'].map chr ++ [0]) := strlcpy_run (by decide)
  have huname (h : Bytes) : strlcpy h ustar_header.uname.offsetof (['r', 'o', 'o', 't'].map chr)
      ustar_header.uname.sizeof = store h 265 (['r', 'o', 'o', 't'].map chr ++ [0]) := strlcpy_run (by decide)
  have hchksum : snprintf (filled (strip_antisocial_prefixes file_name) type size header)
      ustar_header.chksum.offsetof ustar_header.chksum.sizeof ['%', '0', '7', 'o']
        [(calculate_chksum (filled (strip_antisocial_prefixes file_name) type size header) : Int)] =
          some (made (strip_antisocial_prefixes file_name) type size header) := by
    have hlt := calculate_chksum_lt (filled (strip_antisocial_prefixes file_name) type size header)
    exact snprintf_07o ⟨by omega, by omega⟩
  unfold ustar_make_header
  rw [guard, if_pos htype]
  simp only [Option.pure_def, Option.bind_eq_bind, Option.bind_some, if_neg (Nat.not_lt.mpr hlen), hname, hmode,
    huid, hgid, hsizefield, hmtime, hmagic, hgname, huname]
  rw [filled] at hchksum
  exact congrArg (fun r => r.bind fun h => some (true, h)) hchksum

/-- The header's fields are apart: each holds what was written there. -/
theorem fields_apart {b : Bytes} {name mode uid gid size mtime type magic version gname uname sum : List Byte}
    {h : Bytes} (hh : h = store (store (store (store (store (store (store (store (store (store (store b 0 name)
      100 mode) 108 uid) 116 gid) 124 size) 136 mtime) 156 type) 257 magic) 263 version) 297 gname) 265 uname)
    (hname : name.length ≤ 100) (hmode : mode.length = 8) (huid : uid.length = 8) (hgid : gid.length = 8)
    (hsize : size.length = 12) (hmtime : mtime.length = 12) (htype : type.length = 1)
    (hmagic : magic.length = 6) (hversion : version.length = 2) (hgname : gname.length ≤ 32)
    (huname : uname.length ≤ 32) (hsum : sum.length = 8) :
    (∀ i < 100, store h 148 sum i = store b 0 name i) ∧
      (∀ i < 12, store h 148 sum (124 + i) = size.getD i 0) ∧
      (∀ i < 8, store h 148 sum (148 + i) = sum.getD i 0) ∧ store h 148 sum 156 = type.getD 0 0 ∧
      (∀ i < 6, store h 148 sum (257 + i) = magic.getD i 0) ∧
      (∀ i < 2, store h 148 sum (263 + i) = version.getD i 0) ∧ store h 148 sum 345 = b 345 ∧
      ∀ i, i < 148 ∨ 156 ≤ i → store h 148 sum i = h i := by
  subst hh
  refine ⟨fun i hi => ?_, fun i hi => ?_, fun i hi => ?_, ?_, fun i hi => ?_, fun i hi => ?_, ?_,
    fun i hi => ?_⟩
  · iterate 11 rw [store_outside (by omega)]
  · iterate 7 rw [store_outside (by omega)]
    exact store_inside _ _ (by omega)
  · exact store_inside _ _ (by omega)
  · iterate 5 rw [store_outside (by omega)]
    exact store_inside _ _ (i := 0) (by omega)
  · iterate 4 rw [store_outside (by omega)]
    exact store_inside _ _ (by omega)
  · iterate 3 rw [store_outside (by omega)]
    exact store_inside _ _ (by omega)
  · iterate 12 rw [store_outside (by omega)]
  · exact store_outside (by omega)

/-- The header that is made is parsed as what it was made for. -/
theorem ustar_parse_header_made {file_name : Str} {type : ustar_type} {size : Int} {header : Bytes}
    (hnul : (0 : Byte) ∉ file_name) (hlen : file_name.length ≤ 99)
    (htype : type = .USTAR_REGULAR ∨ type = .USTAR_DIRECTORY) (hsize : 0 ≤ size ∧ size ≤ INT_MAX) :
    ustar_parse_header (made file_name type size header) =
      .ok (some (strip_antisocial_prefixes file_name), type, if type = .USTAR_DIRECTORY then 0 else size) := by
  have hmax : INT_MAX < 8 ^ 11 := by decide
  have hmode : (octal_field 7 (if type = .USTAR_REGULAR then 0o644 else 0o755)).length = 8 := by
    split <;> exact octal_field_length (by decide) (by decide)
  have hchksum := calculate_chksum_lt (filled file_name type size header)
  obtain ⟨hnames, hnumber, hsum, hkind, hmagic, hversion, hrest, hsame⟩ :=
    fields_apart (h := filled file_name type size header) rfl (by simpa using Nat.lt_succ_of_le hlen) hmode
      (by decide) (by decide) (octal_field_length (by decide) (show size.toNat < 8 ^ 11 by omega))
      (octal_field_length (by decide) (by decide)) rfl rfl rfl (by decide) (by decide)
      (octal_field_length (by decide) hchksum)
  rw [← made] at hnames hnumber hsum hkind hmagic hversion hrest hsame
  generalize hheader : made file_name type size header =
    h at hnames hnumber hsum hkind hmagic hversion hrest hsame
  -- Every check passes in turn.
  have hstring : string_at h 0 100 = file_name := by
    rw [← string_at_store (memset header 0 512) 0 hnul (Nat.lt_succ_of_le hlen), string_at, string_at]
    refine congrArg _ (bytes_at_congr fun i hi => ?_)
    rw [Nat.zero_add]
    exact hnames i hi
  have hnonzero : is_all_zeros h USTAR_HEADER_SIZE = false := by
    rw [is_all_zeros, List.all_eq_false]
    refine ⟨257, List.mem_range.mpr (by decide), ?_⟩
    rw [hmagic 0 (by decide)]
    decide
  have hmagicbytes : bytes_at h ustar_header.magic.offsetof 6 = ['u', 's', 't', 'a', 'r'].map chr ++ [0] := by
    rw [← bytes_at_store h 257 (['u', 's', 't', 'a', 'r'].map chr ++ [0])]
    refine bytes_at_congr fun i hi => ?_
    exact (hmagic i hi).trans (store_inside _ _ hi).symm
  have hsumfield : parse_octal_field h ustar_header.chksum =
      some (calculate_chksum (filled file_name type size header)) := by
    refine parse_octal_field_run (n := 7) (by decide) hchksum (Nat.le_of_lt (hchksum.trans (by decide))) rfl ?_
    exact hsum
  have hsumsame : calculate_chksum h = calculate_chksum (filled file_name type size header) :=
    calculate_chksum_congr fun i _ hout => hsame i hout
  have hlast : h 99 = 0 := by
    rw [hnames 99 (by decide)]
    obtain hlt | heq := Nat.lt_or_eq_of_le hlen
    · rw [store_outside (by simp; omega)]
      rfl
    · have hinside := store_inside (memset header 0 512) 0
        (show 99 < (file_name ++ [0]).length by simp; omega)
      rw [Nat.zero_add] at hinside
      rw [hinside, ← heq, List.getD_append_right _ _ _ _ (le_refl _), Nat.sub_self]
      rfl
  have hnumberfield : parse_octal_field h ustar_header.size = some size.toNat :=
    parse_octal_field_run (n := 11) (by decide) (by omega) (by
      have hulong : INT_MAX ≤ ULONG_MAX := by decide
      omega) rfl hnumber
  have hversion0 : h ustar_header.version.offsetof = chr '0' := hversion 0 (by decide)
  have hversion1 : h (ustar_header.version.offsetof + 1) = chr '0' := hversion 1 (by decide)
  have hname : ¬ (h (ustar_header.name.offsetof + ustar_header.name.sizeof - 1) ≠ 0 ∨
      h ustar_header.prefix_field.offsetof ≠ 0) :=
    not_or.mpr ⟨not_not_intro hlast, not_not_intro hrest⟩
  have hstring' : string_at h ustar_header.name.offsetof ustar_header.name.sizeof = file_name := hstring
  have hkind' : h ustar_header.typeflag.offsetof = type.char := hkind
  rw [ustar_parse_header, if_neg (by simp [hnonzero]), if_neg (not_not_intro hmagicbytes),
    if_neg (not_or.mpr ⟨not_not_intro hversion0, not_not_intro hversion1⟩), hsumfield]
  simp only [hsumsame, ne_eq, not_true_eq_false, if_false, hstring', hkind']
  rw [if_neg hname]
  cases type with
  | USTAR_REGULAR =>
    have hsmall : ¬ size.toNat > INT_MAX := by omega
    simp [hnumberfield, hsmall, hsize.1]
  | USTAR_DIRECTORY =>
    have hne : ustar_type.char .USTAR_DIRECTORY ≠ ustar_type.char .USTAR_REGULAR := by decide
    simp [hne]
  | USTAR_EOF => simp at htype

/-- A name that fits is made into a header from which the name, the type and the size
are parsed; a name that does not is refused. -/
theorem ustar_round_trip {file_name : Str} (hnul : (0 : Byte) ∉ file_name) {type : ustar_type}
    (htype : type = .USTAR_REGULAR ∨ type = .USTAR_DIRECTORY) {size : Int} (hsize : 0 ≤ size ∧ size ≤ INT_MAX)
    (header : Bytes) :
    ((strip_antisocial_prefixes file_name).length ≤ 99 →
      ∃ h, ustar_make_header file_name type size header = some (true, h) ∧
        ustar_parse_header h = .ok (some (strip_antisocial_prefixes file_name), type,
          if type = .USTAR_DIRECTORY then 0 else size)) ∧
      (99 < (strip_antisocial_prefixes file_name).length →
        ustar_make_header file_name type size header = some (false, header)) := by
  refine ⟨fun hlen => ⟨_, ustar_make_header_run htype hsize hlen, ?_⟩, fun hlen => ?_⟩
  · rw [ustar_parse_header_made (strip_antisocial_prefixes_no_nul hnul) hlen htype hsize,
      strip_antisocial_prefixes_idem]
  · rw [ustar_make_header, guard, if_pos htype]
    simp only [Option.pure_def, Option.bind_eq_bind, Option.bind_some, if_pos hlen]

/-- A directory of the parent directory, with the largest size. -/
theorem ustar_round_trip_parent : ∃ h,
    ustar_make_header (['.', '.', '/', 'a'].map chr) .USTAR_DIRECTORY 2147483647 (fun _ => 0) = some (true, h) ∧
      ustar_parse_header h =
        .ok (some (strip_antisocial_prefixes (['.', '.', '/', 'a'].map chr)), .USTAR_DIRECTORY, 0) :=
  (ustar_round_trip (by decide) (.inr rfl) (by decide) fun _ => 0).1 (by
    have hstrip : strip_antisocial_prefixes (['.', '.', '/', 'a'].map chr) = ['a'].map chr := by
      have hrest : strip_prefixes (['a'].map chr) = ['a'].map chr := strip_prefixes_of_not (by decide)
      have hstep : strip_prefixes (['.', '.', '/', 'a'].map chr) = ['a'].map chr := by
        rw [strip_prefixes, if_pos (by decide)]
        exact hrest
      rw [strip_antisocial_prefixes, hstep]
      decide
    rw [hstrip]
    decide)

end pintos.lib
