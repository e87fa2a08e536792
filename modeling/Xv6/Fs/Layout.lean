import Xv6.Fs.Dinode
import Xv6.Lib.Memory
import Xv6.Param

/-!
# The layout of the disk

The disk is a memory of bytes: block `b` is the `BSIZE` bytes at `b * BSIZE`.  From `kernel/fs.h` and the
parts of `kernel/fs.c` that read and write the layout: the super block, the free bitmap, the inodes in the
inode blocks, and the block addresses of an inode.
-/

namespace Xv6.Fs

open Memory

/-- The number of block addresses in an indirect block. -/
def NINDIRECT : ℕ := BSIZE / 4

def MAXFILE : ℕ := NDIRECT + NINDIRECT

def IPB : ℕ := BSIZE / 64

def BPB : ℕ := BSIZE * 8

/-- The inode number of the root directory. -/
def ROOTINO : ℕ := 1

/-- `struct superblock` without the fields that only the log and the magic number check use.  The inodes
are before the bitmap, which is before the data blocks. -/
structure Superblock where
  size : ℕ
  nblocks : ℕ
  ninodes : ℕ
  nlog : ℕ
  inodestart : ℕ
  bmapstart : ℕ
  size_lt : size < 2 ^ 31
  nblocks_le : nblocks ≤ size
  rootino_lt : ROOTINO < ninodes
  ninodes_le : ninodes ≤ 2 ^ 16
  inodestart_le : inodestart ≤ bmapstart
  inodes_fit : ninodes ≤ (bmapstart - inodestart) * IPB
  bmapstart_le : bmapstart ≤ size - nblocks
  bitmap_fits : size ≤ (size - nblocks - bmapstart) * BPB

namespace Superblock

variable (sb : Superblock)

/-- The number of blocks before the data blocks. -/
def nmeta : ℕ := sb.size - sb.nblocks

/-- `IBLOCK` -/
def iblock (inum : ℕ) : ℕ := inum / IPB + sb.inodestart

/-- `BBLOCK` -/
def bblock (b : ℕ) : ℕ := b / BPB + sb.bmapstart

end Superblock

variable (sb : Superblock)

/-! ## The free bitmap -/

/-- The address of the byte `bp->data[bi/8]`, where `bi` is `b % BPB`. -/
def bitByte (b : ℕ) : ℕ := sb.bblock b * BSIZE + b % BPB / 8

/-- `1 << (bi % 8)` -/
def bitMask (b : ℕ) : BitVec 8 := 1#8 <<< (b % BPB % 8)

/-- The bit of block `b`. -/
def bit (m : Mem) (b : ℕ) : Bool := m (bitByte sb b) &&& bitMask b ≠ 0

def setBit (m : Mem) (b : ℕ) : Mem := Function.update m (bitByte sb b) (m (bitByte sb b) ||| bitMask b)

def clearBit (m : Mem) (b : ℕ) : Mem := Function.update m (bitByte sb b) (m (bitByte sb b) &&& ~~~ bitMask b)

/-! ## Inodes -/

/-- The address of `(struct dinode*)bp->data + inum%IPB`. -/
def inodeAddr (inum : ℕ) : ℕ := sb.iblock inum * BSIZE + inum % IPB * 64

def readDinode (m : Mem) (a : ℕ) : Dinode where
  type := BitVec.ofNat 16 (load 2 m a)
  major := BitVec.ofNat 16 (load 2 m (a + 2))
  minor := BitVec.ofNat 16 (load 2 m (a + 4))
  nlink := BitVec.ofNat 16 (load 2 m (a + 6))
  size := BitVec.ofNat 32 (load 4 m (a + 8))
  addrs k := BitVec.ofNat 32 (load 4 m (a + 12 + 4 * k))

/-- `memmove(dip->addrs, ip->addrs, sizeof(ip->addrs))` -/
def writeAddrs (m : Mem) (a : ℕ) (addrs : Fin (NDIRECT + 1) → BitVec 32) : Mem := fun x =>
  if a ≤ x ∧ x < a + 4 * (NDIRECT + 1) then
    BitVec.ofNat 8 ((addrs (Fin.ofNat (NDIRECT + 1) ((x - a) / 4))).toNat / 256 ^ ((x - a) % 4))
  else m x

def writeDinode (m : Mem) (a : ℕ) (d : Dinode) : Mem :=
  let m := store 2 m a d.type.toNat
  let m := store 2 m (a + 2) d.major.toNat
  let m := store 2 m (a + 4) d.minor.toNat
  let m := store 2 m (a + 6) d.nlink.toNat
  let m := store 4 m (a + 8) d.size.toNat
  writeAddrs m (a + 12) d.addrs

/-- The inode in the inode blocks. -/
def dinode (m : Mem) (inum : ℕ) : Dinode := readDinode m (inodeAddr sb inum)

/-! ## Block addresses -/

/-- `addrs[k]` -/
def Dinode.addr (d : Dinode) (k : ℕ) : ℕ := if h : k < NDIRECT + 1 then (d.addrs ⟨k, h⟩).toNat else 0

def Dinode.setAddr (d : Dinode) (k a : ℕ) : Dinode :=
  { d with addrs := fun j => if (j : ℕ) = k then BitVec.ofNat 32 a else d.addrs j }

/-- The address of `a[bn]` in the indirect block. -/
def entryAddr (block bn : ℕ) : ℕ := block * BSIZE + 4 * bn

/-- All block addresses of an inode: the direct ones, the address of the indirect block, and the ones in
the indirect block. -/
def slot (m : Mem) (d : Dinode) (k : ℕ) : ℕ :=
  if k ≤ NDIRECT then d.addr k
  else if k ≤ MAXFILE ∧ d.addr NDIRECT ≠ 0 then load 4 m (entryAddr (d.addr NDIRECT) (k - (NDIRECT + 1)))
  else 0

/-- The slot of block `bn` of a file. -/
def slotOf (bn : ℕ) : ℕ := if bn < NDIRECT then bn else bn + 1

/-! ## Where things are -/

theorem Superblock.bmapstart_le_nmeta : sb.bmapstart ≤ sb.nmeta := sb.bmapstart_le

theorem Superblock.nmeta_le : sb.nmeta ≤ sb.size := Nat.sub_le _ _

theorem bitByte_eq (b : ℕ) : bitByte sb b = sb.bmapstart * 1024 + b / 8 := by
  change (b / 8192 + sb.bmapstart) * 1024 + b % 8192 / 8 = _
  omega

theorem bitByte_lt {b : ℕ} (hb : b < sb.size) : bitByte sb b < sb.nmeta * 1024 := by
  have h₁ : sb.size ≤ (sb.nmeta - sb.bmapstart) * 8192 := sb.bitmap_fits
  have h₂ := sb.bmapstart_le_nmeta
  rw [bitByte_eq]
  omega

theorem inodeAddr_eq (i : ℕ) : inodeAddr sb i = sb.inodestart * 1024 + i * 64 := by
  change (i / 16 + sb.inodestart) * 1024 + i % 16 * 64 = _
  omega

theorem inodeAddr_le {i : ℕ} (hi : i < sb.ninodes) : inodeAddr sb i + 64 ≤ sb.bmapstart * 1024 := by
  have h₁ : sb.ninodes ≤ (sb.bmapstart - sb.inodestart) * 16 := sb.inodes_fit
  have h₂ := sb.inodestart_le
  rw [inodeAddr_eq]
  omega

theorem inodeAddr_disjoint {i j : ℕ} (h : i ≠ j) :
    inodeAddr sb i + 64 ≤ inodeAddr sb j ∨ inodeAddr sb j + 64 ≤ inodeAddr sb i := by
  rw [inodeAddr_eq, inodeAddr_eq]
  omega

/-! ## Bits -/

variable {sb} {m m' : Mem} {a b n : ℕ} {d : Dinode}

theorem bitMask_eq (b : ℕ) : bitMask b = 1#8 <<< (b % 8) := by
  change 1#8 <<< (b % 8192 % 8) = _
  rw [show b % 8192 % 8 = b % 8 by omega]

theorem getLsbD_bitMask (b j : ℕ) : (bitMask b).getLsbD j = decide (j = b % 8) := by
  have hlt : b % 8 < 8 := Nat.mod_lt _ (by decide)
  rw [bitMask_eq, BitVec.getLsbD_shiftLeft, BitVec.getLsbD_one]
  by_cases h : j = b % 8
  · simp [h, hlt]
  · by_cases hj : j < b % 8
    · simp [hj, h]
    · simp only [h, decide_false]
      have : j - b % 8 ≠ 0 := by omega
      simp [this]

theorem bit_eq (m : Mem) (b : ℕ) : bit sb m b = (m (sb.bmapstart * 1024 + b / 8)).getLsbD (b % 8) := by
  have hlt : b % 8 < 8 := Nat.mod_lt _ (by decide)
  rw [bit, bitByte_eq]
  generalize m (sb.bmapstart * 1024 + b / 8) = x
  cases hx : x.getLsbD (b % 8) with
  | true =>
    refine decide_eq_true fun h => ?_
    have := congrArg (BitVec.getLsbD · (b % 8)) h
    simp [BitVec.getLsbD_and, getLsbD_bitMask, hx] at this
  | false =>
    refine decide_eq_false (not_not_intro ?_)
    refine BitVec.eq_of_getLsbD_eq fun j hj => ?_
    rw [BitVec.getLsbD_and, getLsbD_bitMask]
    by_cases h : j = b % 8
    · simp [h, hx]
    · simp [h]

theorem bit_setBit (m : Mem) (b c : ℕ) : bit sb (setBit sb m b) c = (decide (c = b) || bit sb m c) := by
  rw [bit_eq, bit_eq, setBit, bitByte_eq]
  by_cases hbyte : c / 8 = b / 8
  · rw [hbyte, Function.update_self, BitVec.getLsbD_or, getLsbD_bitMask, Bool.or_comm]
    congr 2
    rw [eq_iff_iff]
    omega
  · rw [Function.update_of_ne (by omega), decide_eq_false (by rintro rfl; exact hbyte rfl), Bool.false_or]

theorem bit_clearBit (m : Mem) (b c : ℕ) :
    bit sb (clearBit sb m b) c = (!decide (c = b) && bit sb m c) := by
  have hlt : c % 8 < 8 := Nat.mod_lt _ (by decide)
  rw [bit_eq, bit_eq, clearBit, bitByte_eq]
  by_cases hbyte : c / 8 = b / 8
  · rw [hbyte, Function.update_self, BitVec.getLsbD_and, BitVec.getLsbD_not, getLsbD_bitMask, Bool.and_comm]
    simp only [hlt, decide_true, Bool.true_and]
    congr 3
    rw [eq_iff_iff]
    omega
  · rw [Function.update_of_ne (by omega), decide_eq_false (by rintro rfl; exact hbyte rfl)]
    rfl

theorem setBit_eqOutside (m : Mem) (b : ℕ) : EqOutside (bitByte sb b) 1 m (setBit sb m b) :=
  fun x hx => Function.update_of_ne (by omega) _ _

theorem clearBit_eqOutside (m : Mem) (b : ℕ) : EqOutside (bitByte sb b) 1 m (clearBit sb m b) :=
  fun x hx => Function.update_of_ne (by omega) _ _

theorem bit_of_eqOutside (h : EqOutside a n m m') {c : ℕ} (hc : c < sb.size)
    (hd : a + n ≤ sb.bmapstart * 1024 ∨ sb.nmeta * 1024 ≤ a) : bit sb m' c = bit sb m c := by
  have hlt := bitByte_lt sb hc
  rw [bitByte_eq] at hlt
  rw [bit_eq, bit_eq, h _ (by omega)]

/-! ## Disk inodes -/

theorem writeAddrs_eqOutside (m : Mem) (a : ℕ) (addrs : Fin (NDIRECT + 1) → BitVec 32) :
    EqOutside a 52 m (writeAddrs m a addrs) :=
  fun _ h => if_neg h

theorem writeDinode_eqOutside (m : Mem) (a : ℕ) (d : Dinode) : EqOutside a 64 m (writeDinode m a d) := by
  unfold writeDinode
  refine .trans ?_ ((writeAddrs_eqOutside _ _ _).mono (by omega) (by omega))
  refine .trans ?_ ((store_eqOutside 4 _ _ _).mono (by omega) (by omega))
  refine .trans ?_ ((store_eqOutside 2 _ _ _).mono (by omega) (by omega))
  refine .trans ?_ ((store_eqOutside 2 _ _ _).mono (by omega) (by omega))
  refine .trans ?_ ((store_eqOutside 2 _ _ _).mono (by omega) (by omega))
  exact (store_eqOutside 2 _ _ _).mono (by omega) (by omega)

theorem load_writeAddrs (m : Mem) (a : ℕ) (addrs : Fin (NDIRECT + 1) → BitVec 32) (k : Fin (NDIRECT + 1)) :
    load 4 (writeAddrs m a addrs) (a + 4 * k) = (addrs k).toNat := by
  have hk : (k : ℕ) < 13 := k.isLt
  rw [load_of_digits (v := (addrs k).toNat) fun i hi => ?_]
  · exact Nat.mod_eq_of_lt (addrs k).isLt
  · rw [writeAddrs, if_pos ⟨by omega, by change _ < a + 4 * 13; omega⟩]
    have h₁ : (a + 4 * (k : ℕ) + i - a) / 4 = k := by omega
    have h₂ : (a + 4 * (k : ℕ) + i - a) % 4 = i := by omega
    rw [h₁, h₂]
    congr 4
    exact Fin.ext (Nat.mod_eq_of_lt hk)

theorem readDinode_congr (h : ∀ i < 64, m' (a + i) = m (a + i)) : readDinode m' a = readDinode m a := by
  have hload {w o : ℕ} (ho : o + w ≤ 64) : load w m' (a + o) = load w m (a + o) :=
    load_congr fun i hi => by
      rw [Nat.add_assoc]
      exact h (o + i) (by omega)
  unfold readDinode
  congr 1
  · exact congrArg _ (hload (o := 0) (by omega))
  · exact congrArg _ (hload (by omega))
  · exact congrArg _ (hload (by omega))
  · exact congrArg _ (hload (by omega))
  · exact congrArg _ (hload (by omega))
  · funext k
    have hk : (k : ℕ) < 13 := k.isLt
    rw [Nat.add_assoc]
    exact congrArg _ (hload (by omega))

theorem ofNat_load {w k : ℕ} {v : BitVec k} (hk : 256 ^ w = 2 ^ k) (h : load w m a = v.toNat % 256 ^ w) :
    BitVec.ofNat k (load w m a) = v := by
  rw [h, hk, Nat.mod_eq_of_lt v.isLt, BitVec.ofNat_toNat, BitVec.setWidth_eq]

theorem readDinode_writeDinode (m : Mem) (a : ℕ) (d : Dinode) : readDinode (writeDinode m a d) a = d := by
  rcases d with ⟨type, major, minor, nlink, size, addrs⟩
  have hhead {w b : ℕ} (hb : b + w ≤ a + 12) (n : Mem) : load w (writeAddrs n (a + 12) addrs) b = load w n b :=
    (writeAddrs_eqOutside _ _ _).load (.inl hb)
  unfold readDinode writeDinode
  dsimp only
  congr 1
  · refine ofNat_load (by norm_num) ?_
    rw [hhead (by omega), load_store_of_disjoint _ _ _ _ (by omega), load_store_of_disjoint _ _ _ _ (by omega),
      load_store_of_disjoint _ _ _ _ (by omega), load_store_of_disjoint _ _ _ _ (by omega)]
    exact load_store_self 2 _ _ _
  · refine ofNat_load (by norm_num) ?_
    rw [hhead (by omega), load_store_of_disjoint _ _ _ _ (by omega), load_store_of_disjoint _ _ _ _ (by omega),
      load_store_of_disjoint _ _ _ _ (by omega)]
    exact load_store_self 2 _ _ _
  · refine ofNat_load (by norm_num) ?_
    rw [hhead (by omega), load_store_of_disjoint _ _ _ _ (by omega), load_store_of_disjoint _ _ _ _ (by omega)]
    exact load_store_self 2 _ _ _
  · refine ofNat_load (by norm_num) ?_
    rw [hhead (by omega), load_store_of_disjoint _ _ _ _ (by omega)]
    exact load_store_self 2 _ _ _
  · refine ofNat_load (by norm_num) ?_
    rw [hhead (by omega)]
    exact load_store_self 4 _ _ _
  · funext k
    rw [load_writeAddrs, BitVec.ofNat_toNat, BitVec.setWidth_eq]

theorem dinode_of_eqOutside (h : EqOutside a n m m') {i : ℕ}
    (hd : inodeAddr sb i + 64 ≤ a ∨ a + n ≤ inodeAddr sb i) : dinode sb m' i = dinode sb m i :=
  readDinode_congr fun k hk => h _ (by omega)

end Xv6.Fs
