import Pintos.Archive.Untrusted
import Pintos.Filesys.FsUtil

/-!
# Appending files to an archive

What `fsutil_append` leaves on the scratch device: a header and the sectors of each file, and two sectors of
zeros.
-/

open twos_complement bytes state_error transition file_store

namespace pintos.filesys

open lib

/-- The sectors of so many bytes. -/
def sectors (n : Nat) : Nat := (n + 511) / 512

/-- Where an archive of these files ends. -/
def archive_end (sector : Nat) : List (Str × List Byte) → Nat
  | [] => sector
  | (_, d) :: files => archive_end (sector + 1 + sectors d.length) files

/-- The files are on the device, from the sector on. -/
def Archived (b : block) : Nat → List (Str × List Byte) → Prop
  | _, [] => True
  | sector, (name, d) :: files =>
    ustar_parse_header (b.sector sector) = .ok (some name, .USTAR_REGULAR, d.length) ∧
      (∀ i < d.length, b.content (sector + 1) i = d.getD i 0) ∧ Archived b (sector + 1 + sectors d.length) files

variable {b b' : block} {u v : Util} {s t : State} {f : Ptr} {k : Nat} {name : Str} {d : List Byte}
  {files : List (Str × List Byte)} {sector : Nat}

section Archives

theorem le_archive_end (files : List (Str × List Byte)) : ∀ sector, sector ≤ archive_end sector files := by
  induction files with
  | nil => exact Nat.le_refl
  | cons p files ih =>
    intro sector
    exact (Nat.le_add_right_of_le (Nat.le_add_right sector 1)).trans (ih _)

/-- A byte is in the sector where it should be. -/
theorem content_sectors {i : Nat} (hi : i < d.length) : sector + 1 + i / 512 <
    sector + 1 + sectors d.length := by
  rw [sectors]
  omega

/-- Only its sectors matter for an archive. -/
theorem Archived.congr (h : Archived b sector files)
    (hsame : ∀ x, sector ≤ x → x < archive_end sector files → b'.sector x = b.sector x) :
    Archived b' sector files := by
  induction files generalizing sector with
  | nil => trivial
  | cons p files ih =>
    obtain ⟨hheader, hdata, hrest⟩ := h
    have hend : sector + 1 + sectors p.2.length ≤ archive_end sector (p :: files) := le_archive_end files _
    refine ⟨?_, fun i hi => ?_, ih hrest fun x hx hlt => hsame x (by omega) hlt⟩
    · rw [hsame sector (Nat.le_refl _) (by omega)]
      exact hheader
    · have hin := @content_sectors p.2 sector i hi
      rw [block.content, hsame _ (by omega) (by omega)]
      exact hdata i hi

end Archives

section Scratch

end Scratch

section Append

end Append

end pintos.filesys
