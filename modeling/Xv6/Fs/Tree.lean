import Xv6.Fs.ByteArray

/-!
# The files on the disk

`tree sb m` is what the disk `m` stands for: the allocated inodes with their fields and their bytes, without
the blocks that hold these.  On a disk that is `Sound` every block has one owner and no file has a hole.

Each operation on the disk changes one inode.  `SameBut` says that the other inodes and their bytes are as
before, and gives the tree after the operation.
-/

namespace Xv6.Fs

open Memory

/-- An inode and its bytes. -/
@[ext] structure Node where
  type : BitVec 16
  major : BitVec 16
  minor : BitVec 16
  nlink : BitVec 16
  data : List (BitVec 8)
  deriving DecidableEq

/-- The allocated inodes. -/
abbrev Tree := ℕ → Option Node

def node (m : Mem) (d : Dinode) : Node := ⟨d.type, d.major, d.minor, d.nlink, content m d⟩

def tree (sb : Superblock) (m : Mem) : Tree := fun i =>
  if Live sb (dinode sb m) i then some (node m (dinode sb m i)) else none

structure Sound (sb : Superblock) (m : Mem) : Prop where
  consistent : Consistent sb m (dinode sb m)
  full : ∀ i, Live sb (dinode sb m) i → Full m (dinode sb m i)

variable {U : Type} {sb : Superblock} {m m' : Mem} {ino ino' : ℕ → Dinode} {d d' : Dinode} {i j off : ℕ}
  {W : List (BitVec 8)} {n : Node}

theorem tree_of_live (h : Live sb (dinode sb m) i) : tree sb m i = some (node m (dinode sb m i)) := if_pos h

theorem tree_eq_none_iff : tree sb m i = none ↔ ¬ Live sb (dinode sb m) i := by
  unfold tree
  split_ifs with h
  · exact iff_of_false (by simp) (not_not_intro h)
  · exact iff_of_true rfl h

theorem tree_eq_some (h : tree sb m i = some n) : Live sb (dinode sb m) i ∧ n = node m (dinode sb m i) := by
  unfold tree at h
  split_ifs at h with hl
  · exact ⟨hl, (Option.some.inj h).symm⟩

theorem length_data (m : Mem) (d : Dinode) : (node m d).data.length = d.size.toNat := length_content m d

/-! ## Changes of one inode -/

theorem Consistent.congr (h : Consistent sb m ino) (hino : ∀ j < sb.ninodes, ino' j = ino j) : Consistent sb m ino' := by
  have hptr : ptr sb m ino' = ptr sb m ino :=
    ptr_ino_congr (fun j hj => by rw [hino j hj]; exact ⟨rfl, rfl⟩) m
  refine ⟨?_, h.metadata⟩
  rw [hptr]
  exact h.owners

/-- The inodes other than `i` and their bytes are the same. -/
structure SameBut (sb : Superblock) (i : ℕ) (m m' : Mem) : Prop where
  inodes : ∀ j < sb.ninodes, j ≠ i → dinode sb m' j = dinode sb m j
  bytes : ∀ j, j ≠ i → Live sb (dinode sb m) j → ∀ x, Mapped m (dinode sb m j) x →
    Mapped m' (dinode sb m j) x ∧ byteAt m' (dinode sb m j) x = byteAt m (dinode sb m j) x

theorem SameBut.live_iff (h : SameBut sb i m m') (hj : j ≠ i) : Live sb (dinode sb m') j ↔ Live sb (dinode sb m) j :=
  and_congr_right fun hlt => by rw [h.inodes j hlt hj]

theorem SameBut.tree_of_ne (h : SameBut sb i m m') (hs : Sound sb m) (hj : j ≠ i) : tree sb m' j = tree sb m j := by
  unfold tree
  by_cases hl : Live sb (dinode sb m) j
  · rw [if_pos hl, if_pos ((h.live_iff hj).2 hl), node, node, h.inodes j hl.1 hj]
    rw [content_congr rfl fun x hx => (h.bytes j hj hl x ((hs.full j hl).mapped x hx)).2]
  · rw [if_neg hl, if_neg (mt (h.live_iff hj).1 hl)]

theorem SameBut.tree_eq (h : SameBut sb i m m') (hs : Sound sb m) :
    tree sb m' = Function.update (tree sb m) i (tree sb m' i) := by
  funext j
  by_cases hj : j = i
  · rw [hj, Function.update_self]
  · rw [Function.update_of_ne hj, h.tree_of_ne hs hj]

theorem SameBut.sound (h : SameBut sb i m m') (hs : Sound sb m) (hc : Consistent sb m' (dinode sb m'))
    (hi : Live sb (dinode sb m') i → Full m' (dinode sb m' i)) : Sound sb m' := by
  refine ⟨hc, fun j hl => ?_⟩
  by_cases hj : j = i
  · subst hj
    exact hi hl
  · have hl' := (h.live_iff hj).1 hl
    have hfull := hs.full j hl'
    rw [h.inodes j hl.1 hj]
    exact ⟨hfull.size_le, fun x hx => (h.bytes j hj hl' x (hfull.mapped x hx)).1⟩

theorem SameBut.update_eq (h : SameBut sb i m m') (hi : dinode sb m' i = d) (hj : j < sb.ninodes) :
    dinode sb m' j = Function.update (dinode sb m) i d j := by
  by_cases hne : j = i
  · rw [hne, Function.update_self, hi]
  · rw [Function.update_of_ne hne, h.inodes j hj hne]

/-! ## Writes to a file -/

theorem Wrote.sameBut (h : Wrote sb (dinode sb m) i off W m d m' d')
    (hinodes : ∀ j < sb.ninodes, j ≠ i → dinode sb m' j = dinode sb m j) : SameBut sb i m m' :=
  ⟨hinodes, fun _ hj hl _ hx => h.other hj hl hx⟩

end Xv6.Fs
