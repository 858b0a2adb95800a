import Mathlib.Data.Nat.Notation
import Xv6.Lib.Bytes

/-!
# Constants of `param.h` and `fs.h`
-/

namespace Xv6

/-- `MAXOPBLOCKS`: the number of blocks one file-system operation may write. -/
def MAXOPBLOCKS : Nat := 20

/-- `LOGSIZE`: the data blocks of the on-disk log. -/
def LOGSIZE : Nat := MAXOPBLOCKS * 3

/-- `NBUF`: the buffers of the disk block cache. -/
abbrev NBUF : Nat := MAXOPBLOCKS * 3

/-- `BSIZE`: bytes in a block. One block is one disk sector. -/
def BSIZE : Nat := 512

/-- The contents of one disk block. -/
abbrev Block := Bytes.Buf 512

end Xv6
