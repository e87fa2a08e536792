import Xv6.Fs.Layout
import Xv6.Lib.Owners

/-!
# Who owns a block

The inodes are given by a map `ino`, since the copy of an inode in memory may be ahead of the disk.
`ptr sb m ino (i, k)` is the block address in slot `k` of inode `i`: the direct ones, the address of the
indirect block, and its entries.  `Consistent` is the ownership of blocks: the data blocks marked in the
bitmap are those that some slot refers to, each of them once, and all blocks before the data blocks are
marked.
-/

namespace Xv6.Fs

open Memory

variable {sb : Superblock} {m m' : Mem} {ino ino' : ℕ → Dinode} {d : Dinode} {a b n i k : ℕ}

/-! ## Block addresses -/

theorem addr_setAddr_self (hk : k ≤ 12) (ha : a < 2 ^ 32) : (d.setAddr k a).addr k = a := by
  rw [Dinode.addr, dif_pos (by change k < 13; omega)]
  change (if k = k then BitVec.ofNat 32 a else _).toNat = a
  rw [if_pos rfl, BitVec.toNat_ofNat, Nat.mod_eq_of_lt ha]

theorem addr_setAddr_of_ne {j : ℕ} (h : j ≠ k) : (d.setAddr k a).addr j = d.addr j := by
  unfold Dinode.addr
  split_ifs with hj
  · change (if j = k then _ else d.addrs ⟨j, hj⟩).toNat = _
    rw [if_neg h]
  · rfl

theorem slot_direct (m : Mem) (d : Dinode) (hk : k ≤ 12) : slot m d k = d.addr k := if_pos hk

theorem slot_entry (m : Mem) (d : Dinode) (hk : k < 256) (h : d.addr 12 ≠ 0) :
    slot m d (13 + k) = load 4 m (entryAddr (d.addr 12) k) := by
  rw [slot, if_neg (by change ¬ 13 + k ≤ 12; omega), if_pos ⟨by change 13 + k ≤ 268; omega, h⟩]
  rw [show 13 + k - (NDIRECT + 1) = k by change 13 + k - 13 = k; omega]
  rfl

theorem slot_entry_zero (m : Mem) (d : Dinode) (h : d.addr 12 = 0) : slot m d (13 + k) = 0 := by
  rw [slot, if_neg (by change ¬ 13 + k ≤ 12; omega), if_neg fun hk => hk.2 h]

theorem slot_big (m : Mem) (d : Dinode) (h : 268 < k) : slot m d k = 0 := by
  rw [slot, if_neg (by change ¬ k ≤ 12; omega), if_neg fun hk => absurd hk.1 (by change ¬ k ≤ 268; omega)]

theorem slot_of_addrs {d' : Dinode} (h : d'.addrs = d.addrs) (m : Mem) (k : ℕ) : slot m d' k = slot m d k := by
  unfold slot Dinode.addr
  rw [h]

theorem slotOf_of_lt {bn : ℕ} (h : bn < 12) : slotOf bn = bn := if_pos h

theorem slotOf_of_le {bn : ℕ} (h : 12 ≤ bn) : slotOf bn = 13 + (bn - 12) := by
  rw [slotOf, if_neg (by change ¬ bn < 12; omega)]
  omega

theorem slotOf_ne (bn : ℕ) : slotOf bn ≠ 12 := by
  by_cases h : bn < 12
  · rw [slotOf_of_lt h]
    omega
  · rw [slotOf_of_le (by omega)]
    omega

theorem slot_cases (k : ℕ) : k ≤ 12 ∨ (∃ j < 256, k = 13 + j) ∨ 268 < k := by
  by_cases h₁ : k ≤ 12
  · exact .inl h₁
  · by_cases h₂ : 268 < k
    · exact .inr (.inr h₂)
    · exact .inr (.inl ⟨k - 13, by omega, by omega⟩)

theorem slot_congr (h : d.addr 12 ≠ 0 → ∀ o < 1024, m' (d.addr 12 * 1024 + o) = m (d.addr 12 * 1024 + o)) (k : ℕ) :
    slot m' d k = slot m d k := by
  obtain hk | ⟨j, hj, rfl⟩ | hk := slot_cases k
  · rw [slot_direct _ _ hk, slot_direct _ _ hk]
  · by_cases h0 : d.addr 12 = 0
    · rw [slot_entry_zero _ _ h0, slot_entry_zero _ _ h0]
    · rw [slot_entry _ _ hj h0, slot_entry _ _ hj h0]
      refine load_congr fun o ho => ?_
      change m' (d.addr 12 * 1024 + 4 * j + o) = m (d.addr 12 * 1024 + 4 * j + o)
      rw [Nat.add_assoc]
      exact h h0 _ (by omega)
  · rw [slot_big _ _ hk, slot_big _ _ hk]

/-- Storing an address in a slot of the inode.  A new indirect block has no entries yet. -/
theorem slot_setAddr (hk : k ≤ 12) (ha : a < 2 ^ 32) (h0 : d.addr k = 0)
    (hz : k = 12 → ∀ o < 1024, m (a * 1024 + o) = 0) (j : ℕ) :
    slot m (d.setAddr k a) j = if j = k then a else slot m d j := by
  obtain hj | ⟨l, hl, rfl⟩ | hj := slot_cases j
  · rw [slot_direct _ _ hj, slot_direct _ _ hj]
    by_cases h : j = k
    · rw [if_pos h, h, addr_setAddr_self hk ha]
    · rw [if_neg h, addr_setAddr_of_ne h]
  · rw [if_neg (by omega)]
    by_cases h : k = 12
    · subst h
      rw [slot_entry_zero _ _ h0]
      by_cases ha0 : a = 0
      · exact slot_entry_zero _ _ ((addr_setAddr_self le_rfl ha).trans ha0)
      · rw [slot_entry _ _ hl (by rwa [addr_setAddr_self le_rfl ha]), addr_setAddr_self le_rfl ha,
          load_of_digits (v := 0) fun o ho => ?_, Nat.zero_mod]
        change m (a * 1024 + 4 * l + o) = _
        rw [Nat.add_assoc, hz rfl _ (by omega), Nat.zero_div]
        rfl
    · have h12 : (d.setAddr k a).addr 12 = d.addr 12 := addr_setAddr_of_ne fun e => h e.symm
      by_cases hz' : d.addr 12 = 0
      · rw [slot_entry_zero _ _ hz', slot_entry_zero _ _ (h12.trans hz')]
      · rw [slot_entry _ _ hl hz', slot_entry _ _ hl (by rwa [h12]), h12]
  · rw [slot_big _ _ hj, slot_big _ _ hj, if_neg (by omega)]

theorem slot_store (hk : k < 256) (ha : a < 2 ^ 32) (h0 : d.addr 12 ≠ 0) (j : ℕ) :
    slot (store 4 m (entryAddr (d.addr 12) k) a) d j = if j = 13 + k then a else slot m d j := by
  obtain hj | ⟨l, hl, rfl⟩ | hj := slot_cases j
  · rw [if_neg (by omega), slot_direct _ _ hj, slot_direct _ _ hj]
  · rw [slot_entry _ _ hl h0, slot_entry _ _ hl h0]
    by_cases h : l = k
    · rw [if_pos (by rw [h]), h, load_store_self]
      exact Nat.mod_eq_of_lt ha
    · rw [if_neg (by omega), load_store_of_disjoint]
      change d.addr 12 * 1024 + 4 * l + 4 ≤ d.addr 12 * 1024 + 4 * k ∨
        d.addr 12 * 1024 + 4 * k + 4 ≤ d.addr 12 * 1024 + 4 * l
      omega
  · rw [if_neg (by omega), slot_big _ _ hj, slot_big _ _ hj]

/-! ## Ownership -/

/-- The inode is allocated. -/
def Live (sb : Superblock) (ino : ℕ → Dinode) (i : ℕ) : Prop := i < sb.ninodes ∧ (ino i).type ≠ 0

instance : Decidable (Live sb ino i) := by
  unfold Live
  infer_instance

/-- The block address in a slot of an inode. -/
def ptr (sb : Superblock) (m : Mem) (ino : ℕ → Dinode) (x : ℕ × ℕ) : ℕ :=
  if Live sb ino x.1 then slot m (ino x.1) x.2 else 0

theorem ptr_of_live (m : Mem) (h : Live sb ino i) (k : ℕ) : ptr sb m ino (i, k) = slot m (ino i) k := if_pos h

theorem ptr_of_not_live (m : Mem) (h : ¬ Live sb ino i) (k : ℕ) : ptr sb m ino (i, k) = 0 := if_neg h

theorem ptr_ino_congr (h : ∀ j < sb.ninodes, (ino' j).type = (ino j).type ∧ (ino' j).addrs = (ino j).addrs) (m : Mem) :
    ptr sb m ino' = ptr sb m ino := by
  funext ⟨j, k⟩
  by_cases hj : Live sb ino j
  · have hj' : Live sb ino' j := ⟨hj.1, by rw [(h j hj.1).1]; exact hj.2⟩
    rw [ptr_of_live m hj, ptr_of_live m hj', slot_of_addrs (h j hj.1).2]
  · have hj' : ¬ Live sb ino' j := fun hl => hj ⟨hl.1, by rw [← (h j hl.1).1]; exact hl.2⟩
    rw [ptr_of_not_live m hj, ptr_of_not_live m hj']

/-- The data blocks that are marked in the bitmap. -/
def used (sb : Superblock) (m : Mem) : Set ℕ := {b | sb.nmeta ≤ b ∧ b < sb.size ∧ bit sb m b = true}

structure Consistent (sb : Superblock) (m : Mem) (ino : ℕ → Dinode) : Prop where
  owners : Owners (ptr sb m ino) (used sb m)
  metadata : ∀ b < sb.nmeta, bit sb m b = true

theorem nmeta_pos (sb : Superblock) : 0 < sb.nmeta := by
  have h₁ := sb.rootino_lt
  have h₂ := sb.inodes_fit
  have h₃ := sb.bmapstart_le_nmeta
  by_contra h
  have : sb.bmapstart = 0 := by omega
  rw [this, Nat.zero_sub, Nat.zero_mul] at h₂
  omega

/-- A block that some slot refers to is a data block. -/
theorem Consistent.mem (h : Consistent sb m ino) {x : ℕ × ℕ} (hx : ptr sb m ino x ≠ 0) :
    sb.nmeta ≤ ptr sb m ino x ∧ ptr sb m ino x < sb.size :=
  ⟨(h.owners.mem hx).1, (h.owners.mem hx).2.1⟩

theorem Consistent.addr_indirect (_h : Consistent sb m ino) (hi : Live sb ino i) :
    (ino i).addr 12 = ptr sb m ino (i, 12) := by
  rw [ptr_of_live m hi, slot_direct _ _ le_rfl]

/-- Changes outside the indirect blocks do not change a slot. -/
theorem Consistent.ptr_congr (h : Consistent sb m ino)
    (hm : ∀ j, ptr sb m ino (j, 12) ≠ 0 → ∀ o < 1024,
      m' (ptr sb m ino (j, 12) * 1024 + o) = m (ptr sb m ino (j, 12) * 1024 + o)) :
    ptr sb m' ino = ptr sb m ino := by
  funext ⟨j, k⟩
  by_cases hj : Live sb ino j
  · rw [ptr_of_live _ hj, ptr_of_live _ hj]
    refine slot_congr (fun h0 o ho => ?_) k
    rw [h.addr_indirect hj] at h0 ⊢
    exact hm j h0 o ho
  · rw [ptr_of_not_live _ hj, ptr_of_not_live _ hj]

theorem Consistent.ptr_metadata (h : Consistent sb m ino) (hm : EqOutside a n m m')
    (ha : a + n ≤ sb.nmeta * 1024) : ptr sb m' ino = ptr sb m ino :=
  h.ptr_congr fun j hj o _ => hm _ fun hin => by
    have := (h.mem hj).1
    omega

theorem Consistent.ptr_block (h : Consistent sb m ino) (hm : EqOutside (b * 1024) 1024 m m')
    (hb : ∀ j, ptr sb m ino (j, 12) ≠ b) : ptr sb m' ino = ptr sb m ino :=
  h.ptr_congr fun j _ o ho => hm _ fun hin => hb j (by omega)

/-! ## The bitmap -/

theorem used_of_eqOutside (h : EqOutside a n m m') (hd : a + n ≤ sb.bmapstart * 1024 ∨ sb.nmeta * 1024 ≤ a) :
    used sb m' = used sb m := by
  ext c
  refine and_congr_right fun _ => and_congr_right fun hc => ?_
  rw [bit_of_eqOutside h hc hd]

theorem used_setBit (h₁ : sb.nmeta ≤ b) (h₂ : b < sb.size) : used sb (setBit sb m b) = insert b (used sb m) := by
  ext c
  rw [Set.mem_insert_iff, used, used, Set.mem_ofPred_eq, Set.mem_ofPred_eq, bit_setBit]
  by_cases h : c = b
  · simp [h, h₁, h₂]
  · simp [h]

theorem used_clearBit : used sb (clearBit sb m b) = used sb m \ {b} := by
  ext c
  rw [Set.mem_sdiff, Set.mem_singleton_iff, used, used, Set.mem_ofPred_eq, Set.mem_ofPred_eq, bit_clearBit]
  by_cases h : c = b
  · simp [h]
  · simp [h]

/-- A write outside the bitmap and the indirect blocks. -/
theorem Consistent.of_eqOutside (h : Consistent sb m ino) (hm : EqOutside a n m m')
    (hd : a + n ≤ sb.bmapstart * 1024 ∨ sb.nmeta * 1024 ≤ a) (hp : ptr sb m' ino' = ptr sb m ino) :
    Consistent sb m' ino' := by
  refine ⟨?_, fun c hc => ?_⟩
  · rw [hp, used_of_eqOutside hm hd]
    exact h.owners
  · rw [bit_of_eqOutside hm (hc.trans_le sb.nmeta_le) hd]
    exact h.metadata c hc

end Xv6.Fs
