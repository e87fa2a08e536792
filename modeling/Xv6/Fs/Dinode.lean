import Mathlib

/-!
# On-disk inodes

`struct dinode` of `kernel/fs.h`.
-/

namespace Xv6.Fs

def NDIRECT : ℕ := 12

structure Dinode where
  type : BitVec 16
  major : BitVec 16
  minor : BitVec 16
  nlink : BitVec 16
  size : BitVec 32
  addrs : Fin (NDIRECT + 1) → BitVec 32
  deriving DecidableEq

/-- The inode that `ialloc` writes. -/
def Dinode.fresh (type : BitVec 16) : Dinode := ⟨type, 0, 0, 0, 0, fun _ => 0⟩

end Xv6.Fs
