import Mathlib

/-!
# Parameters

The constants of `kernel/param.h` and `kernel/fs.h` that several parts of the model share.
-/

namespace Xv6

def BSIZE : ℕ := 1024

/-- The number of blocks that one file-system operation may write. -/
def MAXOPBLOCKS : ℕ := 10

/-- The number of data blocks in the on-disk log. -/
def LOGSIZE : ℕ := MAXOPBLOCKS * 3

def NBUF : ℕ := MAXOPBLOCKS * 3

instance : NeZero NBUF := ⟨by decide⟩

abbrev Block := Vector (BitVec 8) BSIZE

end Xv6
