import Pintos.Archive.Format

/-!
# Headers of ustar archives (`lib/ustar.c`)

A header is 512 bytes; the fields of `struct ustar_header` are ranges of them.
-/

open bytes pintos.filesys

namespace pintos.lib

/-- The bytes of a C string, without its terminator. -/
abbrev Str := List Byte

inductive ustar_type where
  | USTAR_REGULAR
  | USTAR_DIRECTORY
  | USTAR_EOF
  deriving DecidableEq

/-- The value as a `char`. -/
def ustar_type.char : ustar_type → Byte
  | USTAR_REGULAR => chr '0'
  | USTAR_DIRECTORY => chr '5'
  | USTAR_EOF => 255

def USTAR_HEADER_SIZE : Nat := 512

def ULONG_MAX : Nat := 4294967295

def INT_MAX : Nat := 2147483647

/-- A field of the header. -/
structure field where
  offsetof : Nat
  sizeof : Nat

namespace ustar_header

def name : field := ⟨0, 100⟩
def mode : field := ⟨100, 8⟩
def uid : field := ⟨108, 8⟩
def gid : field := ⟨116, 8⟩
def size : field := ⟨124, 12⟩
def mtime : field := ⟨136, 12⟩
def chksum : field := ⟨148, 8⟩
def typeflag : field := ⟨156, 1⟩
def linkname : field := ⟨157, 100⟩
def magic : field := ⟨257, 6⟩
def version : field := ⟨263, 2⟩
def uname : field := ⟨265, 32⟩
def gname : field := ⟨297, 32⟩
def devmajor : field := ⟨329, 8⟩
def devminor : field := ⟨337, 8⟩
def prefix_field : field := ⟨345, 155⟩
def padding : field := ⟨500, 12⟩

end ustar_header

/-- `CNT` bytes at `ofs`. -/
def bytes_at (b : Bytes) (ofs cnt : Nat) : List Byte := (List.range cnt).map fun i => b (ofs + i)

/-- The string in the `cnt` bytes at `ofs`. -/
def string_at (b : Bytes) (ofs cnt : Nat) : Str := (bytes_at b ofs cnt).takeWhile fun c => c ≠ 0

def memset (b : Bytes) (c : Byte) (size : Nat) : Bytes := fun i => if i < size then c else b i

/-- `calculate_chksum`: the checksum field counts as spaces. -/
def calculate_chksum (h : Bytes) : Nat :=
  (List.range USTAR_HEADER_SIZE).foldl (fun chksum i =>
    let chksum_start := ustar_header.chksum.offsetof
    let chksum_end := chksum_start + ustar_header.chksum.sizeof
    let in_chksum_field := i ≥ chksum_start && i < chksum_end
    (chksum + if in_chksum_field then (chr ' ').toNat else (h i).toNat) % 2 ^ 32) 0

/-- The loop's condition: a slash, `./` or `../` comes first. -/
def antisocial (file_name : Str) : Bool :=
  [chr '/'].isPrefixOf file_name || [chr '.', chr '/'].isPrefixOf file_name ||
    [chr '.', chr '.', chr '/'].isPrefixOf file_name

theorem antisocial_ne_nil {file_name : Str} (h : antisocial file_name = true) : file_name ≠ [] := by
  rintro rfl
  simp [antisocial] at h

/-- The loop of `strip_antisocial_prefixes`. -/
def strip_prefixes (file_name : Str) : Str :=
  if antisocial file_name then strip_prefixes (file_name.drop (file_name.idxOf (chr '/') + 1))
  else file_name
termination_by file_name.length
decreasing_by
  have hpos := List.length_pos_of_ne_nil (antisocial_ne_nil ‹_›)
  simp only [List.length_drop]
  omega

/-- `strip_antisocial_prefixes`. -/
def strip_antisocial_prefixes (file_name : Str) : Str :=
  let file_name := strip_prefixes file_name
  if file_name = [] ∨ file_name = [chr '.', chr '.'] then [chr '.'] else file_name

/-- `ustar_make_header`: the result and the header. There is no result where the
assertion about `type` fails. -/
def ustar_make_header (file_name : Str) (type : ustar_type) (size : Int) (header : Bytes) :
    Option (Bool × Bytes) := do
  guard (type = .USTAR_REGULAR ∨ type = .USTAR_DIRECTORY)
  let file_name := strip_antisocial_prefixes file_name
  if file_name.length > 99 then
    return (false, header)
  let h := memset header 0 USTAR_HEADER_SIZE
  let h := strlcpy h ustar_header.name.offsetof file_name ustar_header.name.sizeof
  let h ← snprintf h ustar_header.mode.offsetof ustar_header.mode.sizeof ['%', '0', '7', 'o']
    [if type = .USTAR_REGULAR then 0o644 else 0o755]
  let h := strlcpy h ustar_header.uid.offsetof (List.replicate 7 (chr '0')) ustar_header.uid.sizeof
  let h := strlcpy h ustar_header.gid.offsetof (List.replicate 7 (chr '0')) ustar_header.gid.sizeof
  let h ← snprintf h ustar_header.size.offsetof ustar_header.size.sizeof ['%', '0', '1', '1', 'o'] [size]
  let h ← snprintf h ustar_header.mtime.offsetof ustar_header.size.sizeof ['%', '0', '1', '1', 'o']
    [1136102400]
  let h := store h ustar_header.typeflag.offsetof [type.char]
  let h := strlcpy h ustar_header.magic.offsetof (['u', 's', 't', 'a', 'r'].map chr) ustar_header.magic.sizeof
  let h := store h ustar_header.version.offsetof [chr '0', chr '0']
  let h := strlcpy h ustar_header.gname.offsetof (['r', 'o', 'o', 't'].map chr) ustar_header.gname.sizeof
  let h := strlcpy h ustar_header.uname.offsetof (['r', 'o', 'o', 't'].map chr) ustar_header.uname.sizeof
  let h ← snprintf h ustar_header.chksum.offsetof ustar_header.chksum.sizeof ['%', '0', '7', 'o']
    [calculate_chksum h]
  return (true, h)

/-- The loop of `parse_octal_field` over the `left` bytes from `ofs` on. -/
def parse_octal_loop (s : Bytes) : (left ofs value : Nat) → Option Nat
  | 0, _, _ => none
  | left + 1, ofs, value =>
    let c := s ofs
    if (chr '0').toNat ≤ c.toNat ∧ c.toNat ≤ (chr '7').toNat then
      if value > ULONG_MAX / 8 then none
      else parse_octal_loop s left (ofs + 1) (c.toNat - (chr '0').toNat + value * 8)
    else if c = chr ' ' ∨ c = 0 then
      if ofs > 0 then some value else none
    else none

/-- `parse_octal_field`: the value, where the field can be parsed. -/
def parse_octal_field (h : Bytes) (f : field) : Option Nat :=
  parse_octal_loop (drop h f.offsetof) f.sizeof 0 0

def is_all_zeros (block : Bytes) (cnt : Nat) : Bool := (List.range cnt).all fun i => block i = 0

/-- `ustar_parse_header`: the file's name, its type and its size, or the message.
The null pointer is the name at the end of the archive. -/
def ustar_parse_header (h : Bytes) : Except String (Option Str × ustar_type × Int) :=
  if is_all_zeros h USTAR_HEADER_SIZE then .ok (none, .USTAR_EOF, 0)
  else if bytes_at h ustar_header.magic.offsetof 6 ≠ ['u', 's', 't', 'a', 'r'].map chr ++ [0] then
    .error "not a ustar archive"
  else if h ustar_header.version.offsetof ≠ chr '0' ∨ h (ustar_header.version.offsetof + 1) ≠ chr '0' then
    .error "invalid ustar version"
  else
    match parse_octal_field h ustar_header.chksum with
    | none => .error "corrupt chksum field"
    | some chksum =>
      if chksum ≠ calculate_chksum h then .error "checksum mismatch"
      else if h (ustar_header.name.offsetof + ustar_header.name.sizeof - 1) ≠ 0 ∨
          h ustar_header.prefix_field.offsetof ≠ 0 then
        .error "file name too long"
      else
        let file_name := strip_antisocial_prefixes
          (string_at h ustar_header.name.offsetof ustar_header.name.sizeof)
        if h ustar_header.typeflag.offsetof = ustar_type.char .USTAR_REGULAR then
          match parse_octal_field h ustar_header.size with
          | none => .error "corrupt file size field"
          | some size => if size > INT_MAX then .error "file too large" else .ok
              (some file_name, .USTAR_REGULAR, size)
        else if h ustar_header.typeflag.offsetof = ustar_type.char .USTAR_DIRECTORY then
          .ok (some file_name, .USTAR_DIRECTORY, 0)
        else .error "unimplemented file type"

end pintos.lib
