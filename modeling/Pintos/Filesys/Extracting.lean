import Pintos.Filesys.Appending

/-!
# Extracting the files of an archive

`fsutil_extract` creates the files that `fsutil_append` has put on the scratch device, with the same names and
contents.
-/

open twos_complement bytes state_error transition file_store

namespace pintos.filesys

open lib

variable {b : block} {u v : Util} {s t : State} {f : Ptr} {k : Nat} {name : Str} {d : List Byte}
  {files : List (Str × List Byte)} {sector : Nat}

section Extract

end Extract

end pintos.filesys
