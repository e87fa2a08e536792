import Xv6.Fs.User
import Xv6.Fs.Write

/-!
# A small file system

A disk with the root directory and one file, on which the code can be run.  Block 2 has the inodes, block 3
the bitmap, block 4 the root directory and block 5 the file.
-/

namespace Xv6.Fs

open Kernel Memory Vm

/-- The code returns with a result and a state that pass the check `p`. -/
def returns {U α : Type} (c : F U α) (s : State U) (p : α → State U → Bool) : Bool :=
  match c s with
  | .ok (a, t) => p a t
  | .error _ => false

theorem exists_of_returns {U α : Type} {c : F U α} {s : State U} {p : α → State U → Bool}
    (h : returns c s p = true) : ∃ a t, c s = .ok (a, t) ∧ p a t = true := by
  unfold returns at h
  split at h
  · next a t heq => exact ⟨a, t, heq, h⟩
  · cases h

/-- The code stops with the panic `p`. -/
def panics {U α : Type} (c : F U α) (s : State U) (p : Panic) : Bool :=
  match c s with
  | .ok _ => false
  | .error q => q = p

theorem error_of_panics {U α : Type} {c : F U α} {s : State U} {p : Panic} (h : panics c s p = true) :
    c s = .error p := by
  unfold panics at h
  split at h
  · cases h
  · next q heq => rw [heq, of_decide_eq_true h]

def smallSb : Superblock where
  size := 50
  nblocks := 46
  ninodes := 16
  nlog := 30
  inodestart := 2
  bmapstart := 3
  size_lt := by decide
  nblocks_le := by decide
  rootino_lt := by decide
  ninodes_le := by decide
  inodestart_le := by decide
  inodes_fit := by decide
  bmapstart_le := by decide
  bitmap_fits := by decide

/-- The root directory has an entry for the file, whose name is "f"; the file has the bytes "hi". -/
def smallDisk : Mem :=
  let m : Mem := fun _ => 0
  let m := store 1 m (3 * 1024) 0x3f
  let m := writeDinode m (inodeAddr smallSb 1) ⟨T_DIR, 0, 0, 1, 48, fun k => if k.val = 0 then 4 else 0⟩
  let m := writeDinode m (inodeAddr smallSb 2) ⟨T_FILE, 0, 0, 1, 2, fun k => if k.val = 0 then 5 else 0⟩
  let m := write m (4 * 1024) (Dirent.bytes ⟨1, strncpy dot DIRSIZ⟩ ++ Dirent.bytes ⟨1, strncpy dotdot DIRSIZ⟩ ++
    Dirent.bytes ⟨2, strncpy [0x66] DIRSIZ⟩)
  write m (5 * 1024) [0x68, 0x69]

/-- A transaction in which the file is locked.  The process has one page. -/
def smallState : State UserSpace where
  disk := smallDisk
  inode e := if e = 0 then ⟨2, 1, true, true, dinode smallSb smallDisk 2⟩ else ⟨0, 0, false, false, Dinode.fresh 0⟩
  outstanding := 1
  log := ⟨[], false⟩
  committed := smallDisk
  user := ⟨onePage, 0x80001000, onePageTree, onePage_space⟩

theorem smallDisk_reads :
    (∀ i < 16, (dinode smallSb smallDisk i).type ≠ 0 ↔ i = 1 ∨ i = 2) ∧
    (∀ k ≤ 12, (dinode smallSb smallDisk 1).addr k = (if k = 0 then 4 else 0) ∧
      (dinode smallSb smallDisk 2).addr k = if k = 0 then 5 else 0) ∧
    (∀ i < 16, (dinode smallSb smallDisk i).type ≠ 0 → (dinode smallSb smallDisk i).size.toNat ≤ 1024 ∧
      slot smallDisk (dinode smallSb smallDisk i) 0 ≠ 0) ∧
    (∀ b < 50, bit smallSb smallDisk b = true ↔ b < 6) ∧
    content smallDisk (dinode smallSb smallDisk 2) = [0x68, 0x69] ∧ (dinode smallSb smallDisk 2).size = 2 := by
  decide +kernel

theorem smallDisk_live {i : ℕ} : Live smallSb (dinode smallSb smallDisk) i ↔ i = 1 ∨ i = 2 := by
  refine ⟨fun h => (smallDisk_reads.1 i h.1).1 h.2, fun h => ?_⟩
  have hi : i < 16 := by omega
  exact ⟨hi, (smallDisk_reads.1 i hi).2 h⟩

theorem smallDisk_ptr (x : ℕ × ℕ) : ptr smallSb smallDisk (dinode smallSb smallDisk) x =
    if x = (1, 0) then 4 else if x = (2, 0) then 5 else 0 := by
  obtain ⟨i, k⟩ := x
  have haddr := smallDisk_reads.2.1
  have hslot {i a : ℕ} (h : ∀ k ≤ 12, (dinode smallSb smallDisk i).addr k = if k = 0 then a else 0) (k : ℕ) :
      slot smallDisk (dinode smallSb smallDisk i) k = if k = 0 then a else 0 := by
    obtain hk | ⟨j, -, rfl⟩ | hk := slot_cases k
    · rw [slot_direct _ _ hk, h k hk]
    · rw [slot_entry_zero _ _ (h 12 le_rfl), if_neg (by omega)]
    · rw [slot_big _ _ hk, if_neg (by omega)]
  by_cases h₁ : i = 1
  · subst h₁
    rw [ptr_of_live _ (smallDisk_live.2 (.inl rfl)), hslot fun k hk => (haddr k hk).1]
    simp
  by_cases h₂ : i = 2
  · subst h₂
    rw [ptr_of_live _ (smallDisk_live.2 (.inr rfl)), hslot fun k hk => (haddr k hk).2]
    simp
  · rw [ptr_of_not_live _ fun hl => (smallDisk_live.1 hl).elim h₁ h₂]
    simp [h₁, h₂]

theorem smallDisk_consistent : Consistent smallSb smallDisk (dinode smallSb smallDisk) := by
  have hbit := smallDisk_reads.2.2.2.1
  have hmeta : smallSb.nmeta = 4 := rfl
  refine ⟨⟨fun x y hx hxy => ?_, fun b => ?_⟩, fun b hb => (hbit b (by omega)).2 (by omega)⟩
  · rw [smallDisk_ptr] at hx hxy
    rw [smallDisk_ptr] at hxy
    split_ifs at hx hxy <;> simp_all
  · simp only [smallDisk_ptr]
    constructor
    · rintro ⟨h₁, h₂, hb⟩
      have := (hbit b h₂).1 hb
      obtain rfl | rfl : b = 4 ∨ b = 5 := by omega
      · exact ⟨by decide, (1, 0), rfl⟩
      · exact ⟨by decide, (2, 0), rfl⟩
    · rintro ⟨h0, x, rfl⟩
      split_ifs at h0 ⊢
      · exact ⟨by decide, by decide, (hbit 4 (by decide)).2 (by decide)⟩
      · exact ⟨by decide, by decide, (hbit 5 (by decide)).2 (by decide)⟩
      · exact absurd rfl h0

theorem smallState_mapping : Mapping smallSb (dinode smallSb smallDisk) 0 smallState where
  inum_lt := by decide
  live := (smallDisk_live.2 (.inr rfl)).2
  consistent := by
    change Consistent smallSb smallDisk (Function.update (dinode smallSb smallDisk) 2 (dinode smallSb smallDisk 2))
    rw [Function.update_eq_self]
    exact smallDisk_consistent

theorem smallDisk_full (i : ℕ) (h : Live smallSb (dinode smallSb smallDisk) i) :
    Full smallDisk (dinode smallSb smallDisk i) := by
  obtain ⟨hsize, hslot⟩ := smallDisk_reads.2.2.1 i h.1 h.2
  refine ⟨hsize.trans (by decide), fun x hx => ?_⟩
  rw [Mapped, show x / BSIZE = 0 from Nat.div_eq_of_lt (hx.trans_le hsize)]
  exact hslot

end Xv6.Fs
