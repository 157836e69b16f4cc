import Pintos.Archive.RoundTrip
import Pintos.Filesys.StoreCalls

/-!
# Archives on the scratch device (`filesys/fsutil.c`)

`append` copies files of the file system to an archive on the scratch device, and `extract` creates the files of
an archive in the file system.
-/

open twos_complement bytes state_error

namespace pintos.filesys

open lib

end pintos.filesys
