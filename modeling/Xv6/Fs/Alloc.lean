import Xv6.Fs.Code
import Xv6.Fs.Ownership

/-!
# Allocation of blocks

`balloc`, `bfree` and `bmap`.  While a file is written its inode in memory is ahead of the disk: the
inodes are `Function.update ino i d`, where `d` is the copy in memory of inode `i`.  `Grown` is what a
number of calls of `bmap` may do: slots that had a block keep it, blocks of data keep their bytes, and the
slots of the other inodes do not change at all.
-/

namespace Xv6.Fs

open Kernel Memory

variable {U : Type} {sb : Superblock} {s t : State U} {m m' m'' : Mem} {ino : ℕ → Dinode} {d d' d'' : Dinode}
  {a b i k : ℕ} {e : Fin NINODE}

/-- The code returns. -/
def NoPanic (_ : Panic) : Prop := False

/-! ## The log -/

/-- Only blocks in `B` have been added to the log, and `log_write` has panicked only if the log is full. -/
structure Logs (sb : Superblock) (B : Set ℕ) (l l' : Log) : Prop where
  grows : ∀ b ∈ l.blocks, b ∈ l'.blocks
  only : ∀ b ∈ l'.blocks, b ∈ l.blocks ∨ b ∈ B
  nodup : l.blocks.Nodup → l'.blocks.Nodup
  length_le : l.blocks.length ≤ l'.blocks.length
  tooBig : l'.tooBig → l.tooBig ∨ sb.logCap ≤ l'.blocks.length

theorem logs_refl (B : Set ℕ) (l : Log) : Logs sb B l l :=
  ⟨fun _ h => h, fun _ h => .inl h, id, le_rfl, .inl⟩

theorem Logs.trans {B : Set ℕ} {l l' l'' : Log} (h : Logs sb B l l') (h' : Logs sb B l' l'') : Logs sb B l l'' := by
  refine ⟨fun b hb => h'.grows b (h.grows b hb), fun b hb => ?_, fun hn => h'.nodup (h.nodup hn),
    h.length_le.trans h'.length_le, fun ht => ?_⟩
  · obtain hb | hb := h'.only b hb
    · exact h.only b hb
    · exact .inr hb
  · obtain ht | ht := h'.tooBig ht
    · obtain ht | ht := h.tooBig ht
      · exact .inl ht
      · exact .inr (ht.trans h'.length_le)
    · exact .inr ht

theorem Logs.mono {B C : Set ℕ} {l l' : Log} (h : Logs sb B l l') (hBC : B ⊆ C) : Logs sb C l l' :=
  ⟨h.grows, fun b hb => (h.only b hb).imp id fun hB => hBC hB, h.nodup, h.length_le, h.tooBig⟩

theorem logs_add (l : Log) (b : ℕ) : Logs sb {b} l (l.add sb b) := by
  unfold Log.add
  refine ⟨fun c hc => ?_, fun c hc => ?_, fun hn => ?_, ?_, fun ht => ?_⟩
  · dsimp only
    split_ifs
    · exact hc
    · exact List.mem_append_left _ hc
  · dsimp only at hc
    split_ifs at hc
    · exact .inl hc
    · obtain hc | hc := List.mem_append.1 hc
      · exact .inl hc
      · exact .inr (List.mem_singleton.1 hc)
  · dsimp only
    split_ifs with hb
    · exact hn
    · exact hn.append (List.nodup_singleton b) (by simpa using hb)
  · dsimp only
    split_ifs
    · exact le_rfl
    · exact (List.length_append ▸ Nat.le_add_right _ _)
  · obtain ht | ht := Bool.or_eq_true_iff.1 ht
    · exact .inl ht
    · refine .inr ((of_decide_eq_true ht).trans ?_)
      dsimp only
      split_ifs
      · exact le_rfl
      · exact (List.length_append ▸ Nat.le_add_right _ _)

theorem logWrite_spec (b : ℕ) (h : 0 < s.outstanding) :
    Ensures (logWrite sb b) s (fun _ t => ∃ l, t = { s with log := l } ∧ Logs sb {b} s.log l) NoPanic := by
  apply ensures_get_bind
  rw [if_neg (by omega)]
  exact ensures_set ⟨_, rfl, logs_add s.log b⟩

/-! ## A new block -/

/-- The disk after `balloc` has returned `b`. -/
def newBlock (sb : Superblock) (m : Mem) (b : ℕ) : Mem := fill (setBit sb m b) (b * BSIZE) BSIZE 0

theorem newBlock_zero (m : Mem) (b : ℕ) {o : ℕ} (ho : o < 1024) : newBlock sb m b (b * 1024 + o) = 0 :=
  if_pos (by change b * 1024 ≤ b * 1024 + o ∧ b * 1024 + o < b * 1024 + 1024; omega)

/-- Only the bit and the bytes of the block change. -/
theorem newBlock_of_ne {x : ℕ} (m : Mem) (hbit : x ≠ bitByte sb b) (hx : ¬ (b * 1024 ≤ x ∧ x < b * 1024 + 1024)) :
    newBlock sb m b x = m x :=
  (fill_eqOutside _ _ _ _ x hx).trans (setBit_eqOutside m b x (by omega))

theorem newBlock_block (m : Mem) {c o : ℕ} (hb : b < sb.size) (hc : sb.nmeta ≤ c) (hne : c ≠ b) (ho : o < 1024) :
    newBlock sb m b (c * 1024 + o) = m (c * 1024 + o) := by
  have := bitByte_lt sb hb
  exact newBlock_of_ne m (by omega) (by omega)

theorem newBlock_dinode (m : Mem) (h₁ : sb.nmeta ≤ b) {j : ℕ} (hj : j < sb.ninodes) :
    dinode sb (newBlock sb m b) j = dinode sb m j := by
  have h₂ := inodeAddr_le sb hj
  have h₃ := sb.bmapstart_le_nmeta
  have h₄ := bitByte_eq sb b
  exact readDinode_congr fun k hk => newBlock_of_ne m (by omega) (by omega)

theorem newBlock_used (m : Mem) (h₁ : sb.nmeta ≤ b) (h₂ : b < sb.size) :
    used sb (newBlock sb m b) = insert b (used sb m) := by
  rw [← used_setBit h₁ h₂]
  exact used_of_eqOutside (fill_eqOutside _ _ _ _) (.inr (Nat.mul_le_mul_right _ h₁))

theorem newBlock_metadata (h : Consistent sb m ino) (h₁ : sb.nmeta ≤ b) {c : ℕ} (hc : c < sb.nmeta) :
    bit sb (newBlock sb m b) c = true := by
  have hfill := bit_of_eqOutside (fill_eqOutside (setBit sb m b) (b * BSIZE) BSIZE 0) (hc.trans_le sb.nmeta_le)
    (.inr (Nat.mul_le_mul_right _ h₁))
  rw [newBlock, hfill, bit_setBit, h.metadata c hc, Bool.or_true]

theorem Consistent.notMem_used (hbit : bit sb m b = false) : b ∉ used sb m := fun h => by
  rw [h.2.2] at hbit
  cases hbit

theorem Consistent.ptr_newBlock (h : Consistent sb m ino) (h₁ : sb.nmeta ≤ b) (h₂ : b < sb.size)
    (hbit : bit sb m b = false) : ptr sb (newBlock sb m b) ino = ptr sb m ino := by
  have h0 : b ≠ 0 := (nmeta_pos sb).trans_le h₁ |>.ne'
  refine h.ptr_congr fun j hj o ho => newBlock_block m h₂ (h.mem hj).1 ?_ ho
  exact h.owners.ne_of_notMem (notMem_used hbit) h0 _

/-- Storing the new block in a slot gives it its owner. -/
theorem Consistent.assign (h : Consistent sb m ino) (h₁ : sb.nmeta ≤ b) (h₂ : b < sb.size)
    (hbit : bit sb m b = false) {x : ℕ × ℕ} (hx : ptr sb m ino x = 0) {ino' : ℕ → Dinode}
    (hp : ptr sb m' ino' = Function.update (ptr sb m ino) x b) (hu : used sb m' = used sb (newBlock sb m b))
    (hmeta : ∀ c < sb.nmeta, bit sb m' c = bit sb (newBlock sb m b) c) : Consistent sb m' ino' := by
  have h0 : b ≠ 0 := (nmeta_pos sb).trans_le h₁ |>.ne'
  refine ⟨?_, fun c hc => ?_⟩
  · rw [hp, hu, newBlock_used m h₁ h₂]
    exact h.owners.assign hx h0 (notMem_used hbit)
  · rw [hmeta c hc]
    exact newBlock_metadata h h₁ hc

/-! ## `balloc` and `bfree` -/

def DiskFull (sb : Superblock) (m : Mem) : Prop := ∀ b < sb.size, bit sb m b = true

theorem bzero_spec (b : ℕ) (h : 0 < s.outstanding) :
    Ensures (bzero sb b) s (fun _ t => ∃ l, t = { s with disk := fill s.disk (b * BSIZE) BSIZE 0, log := l } ∧
      Logs sb {b} s.log l) NoPanic := by
  apply ensures_modify_bind
  apply (logWrite_spec b (by exact h)).mono _ (fun _ => id)
  rintro _ _ ⟨l, rfl, hl⟩
  exact ⟨l, rfl, hl⟩

/-- `balloc` returns a data block that was free, or 0 if there is none. -/
theorem balloc_spec (hm : ∀ b < sb.nmeta, bit sb s.disk b = true) (h : 0 < s.outstanding) :
    Ensures (balloc sb) s (fun b t => (b = 0 ∧ t = s ∧ DiskFull sb s.disk) ∨
      (sb.nmeta ≤ b ∧ b < sb.size ∧ bit sb s.disk b = false ∧
        ∃ l, t = { s with disk := newBlock sb s.disk b, log := l } ∧ Logs sb {sb.bblock b, b} s.log l)) NoPanic := by
  apply ensures_get_bind
  cases hf : (List.range sb.size).find? fun b => !bit sb s.disk b with
  | none =>
    refine ensures_pure (.inl ⟨rfl, rfl, fun b hb => ?_⟩)
    simpa using List.find?_eq_none.1 hf b (List.mem_range.2 hb)
  | some b =>
    have hbit : bit sb s.disk b = false := by simpa using List.find?_some hf
    have hsize : b < sb.size := List.mem_range.1 (List.mem_of_find?_eq_some hf)
    have hdata : sb.nmeta ≤ b := by
      by_contra hlt
      rw [hm b (by omega)] at hbit
      cases hbit
    apply ensures_set_bind
    apply (logWrite_spec _ (by exact h)).bind (fun _ => id)
    rintro _ _ ⟨l, rfl, hl⟩
    apply (bzero_spec b (by exact h)).bind (fun _ => id)
    rintro _ _ ⟨l', rfl, hl'⟩
    refine ensures_pure (.inr ⟨hdata, hsize, hbit, l', rfl, (hl.mono ?_).trans (hl'.mono ?_)⟩)
    · exact Set.singleton_subset_iff.2 (.inl rfl)
    · exact Set.singleton_subset_iff.2 (.inr rfl)

theorem bfree_spec (hb : bit sb s.disk b = true) (h : 0 < s.outstanding) :
    Ensures (bfree sb b) s (fun _ t => ∃ l, t = { s with disk := clearBit sb s.disk b, log := l } ∧
      Logs sb {sb.bblock b} s.log l) NoPanic := by
  apply ensures_get_bind
  rw [if_pos hb]
  apply ensures_set_bind
  apply (logWrite_spec _ (by exact h)).mono _ (fun _ => id)
  rintro _ _ ⟨l, rfl, hl⟩
  exact ⟨l, rfl, hl⟩

/-! ## `bmap` -/

/-- What calls of `bmap` for inode `i` may do to the disk and to the copy of the inode. -/
structure Grown (sb : Superblock) (ino : ℕ → Dinode) (i : ℕ) (m : Mem) (d : Dinode) (m' : Mem) (d' : Dinode) :
    Prop where
  consistent : Consistent sb m' (Function.update ino i d')
  fields : d' = { d with addrs := d'.addrs }
  inodes : ∀ j < sb.ninodes, dinode sb m' j = dinode sb m j
  kept : ∀ x, ptr sb m (Function.update ino i d) x ≠ 0 →
    ptr sb m' (Function.update ino i d') x = ptr sb m (Function.update ino i d) x
  others : ∀ x : ℕ × ℕ, x.1 ≠ i →
    ptr sb m' (Function.update ino i d') x = ptr sb m (Function.update ino i d) x
  bytes : ∀ j bn, ptr sb m (Function.update ino i d) (j, slotOf bn) ≠ 0 → ∀ o < 1024,
    m' (ptr sb m (Function.update ino i d) (j, slotOf bn) * 1024 + o) =
      m (ptr sb m (Function.update ino i d) (j, slotOf bn) * 1024 + o)

theorem Grown.refl (h : Consistent sb m (Function.update ino i d)) : Grown sb ino i m d m d :=
  ⟨h, rfl, fun _ _ => rfl, fun _ _ => rfl, fun _ _ => rfl, fun _ _ _ _ _ => rfl⟩

theorem Grown.trans (h : Grown sb ino i m d m' d') (h' : Grown sb ino i m' d' m'' d'') :
    Grown sb ino i m d m'' d'' := by
  refine ⟨h'.consistent, ?_, fun j hj => (h'.inodes j hj).trans (h.inodes j hj), fun x hx => ?_,
    fun x hx => (h'.others x hx).trans (h.others x hx), fun j bn hj o ho => ?_⟩
  · rw [h'.fields, h.fields]
  · have hk := h.kept x hx
    rw [h'.kept x (by rwa [hk]), hk]
  · have hk := h.kept _ hj
    have hb := h'.bytes j bn (by rwa [hk]) o ho
    rw [hk] at hb
    rw [hb, h.bytes j bn hj o ho]

theorem grown_of_assign (h : Consistent sb m (Function.update ino i d)) (h₁ : sb.nmeta ≤ b) (h₂ : b < sb.size)
    (hbit : bit sb m b = false) (hx : ptr sb m (Function.update ino i d) (i, k) = 0)
    (hp : ptr sb m' (Function.update ino i d') =
      Function.update (ptr sb m (Function.update ino i d)) (i, k) b)
    (hd : d' = { d with addrs := d'.addrs })
    (hout : ∀ x, (x < sb.nmeta * 1024 ∨ ∃ j bn, ptr sb m (Function.update ino i d) (j, slotOf bn) ≠ 0 ∧
      x / 1024 = ptr sb m (Function.update ino i d) (j, slotOf bn)) → m' x = newBlock sb m b x) :
    Grown sb ino i m d m' d' := by
  have hbits {c : ℕ} (hc : c < sb.size) : bit sb m' c = bit sb (newBlock sb m b) c := by
    have := bitByte_lt sb hc
    rw [bitByte_eq] at this
    rw [bit_eq, bit_eq, hout _ (.inl this)]
  have hne := h.owners.ne_of_notMem (Consistent.notMem_used hbit) ((nmeta_pos sb).trans_le h₁).ne'
  refine ⟨h.assign h₁ h₂ hbit hx hp ?_ fun c hc => hbits (hc.trans_le sb.nmeta_le), hd, fun j hj => ?_,
    fun x hx' => ?_, fun x hx' => ?_, fun j bn hj o ho => ?_⟩
  · ext c
    exact and_congr_right fun _ => and_congr_right fun hc => by rw [hbits hc]
  · have h₃ := inodeAddr_le sb hj
    have h₄ := sb.bmapstart_le_nmeta
    rw [← newBlock_dinode m h₁ hj]
    exact readDinode_congr fun o ho => hout _ (.inl (by omega))
  · rw [hp, Function.update_of_ne]
    rintro rfl
    exact hx' hx
  · rw [hp, Function.update_of_ne]
    rintro rfl
    exact hx' rfl
  · rw [hout _ (.inr ⟨j, bn, hj, by omega⟩)]
    exact newBlock_block m h₂ (h.mem hj).1 (hne _) ho

section Slots

variable (hi : i < sb.ninodes) (ht : d.type ≠ 0)

include hi ht in
theorem ptr_update_self (m : Mem) (ino : ℕ → Dinode) (k : ℕ) :
    ptr sb m (Function.update ino i d) (i, k) = slot m d k := by
  have hlive : Live sb (Function.update ino i d) i := ⟨hi, by rwa [Function.update_self]⟩
  rw [ptr_of_live m hlive, Function.update_self]

theorem ptr_update_of_ne (m : Mem) (ino : ℕ → Dinode) (d : Dinode) {j : ℕ} (hj : j ≠ i) (k : ℕ) :
    ptr sb m (Function.update ino i d) (j, k) = ptr sb m ino (j, k) := by
  simp only [ptr, Live, Function.update_of_ne hj]

include hi ht in
/-- Two maps of slots that differ in one slot of inode `i`. -/
theorem ptr_eq_update {x : ℕ} (ht' : d'.type ≠ 0)
    (hself : ∀ l, slot m' d' l = if l = k then x else slot m d l)
    (hother : ∀ j l, j ≠ i → ptr sb m' ino (j, l) = ptr sb m ino (j, l)) :
    ptr sb m' (Function.update ino i d') = Function.update (ptr sb m (Function.update ino i d)) (i, k) x := by
  funext ⟨j, l⟩
  by_cases hj : j = i
  · subst hj
    rw [ptr_update_self hi ht', hself]
    by_cases hl : l = k
    · rw [if_pos hl, hl, Function.update_self]
    · rw [if_neg hl, Function.update_of_ne (by simp [hl]), ptr_update_self hi ht]
  · rw [Function.update_of_ne (by simp [hj]), ptr_update_of_ne _ _ _ hj, ptr_update_of_ne _ _ _ hj, hother j l hj]

variable (h : Consistent sb m (Function.update ino i d)) (h₁ : sb.nmeta ≤ b) (h₂ : b < sb.size)
  (hbit : bit sb m b = false)

include hi ht h h₁ h₂ hbit in
/-- No slot changes when a free block is prepared, seen from one inode and from the others. -/
theorem slot_newBlock (l : ℕ) : slot (newBlock sb m b) d l = slot m d l := by
  rw [← ptr_update_self hi ht, ← ptr_update_self hi ht m ino, h.ptr_newBlock h₁ h₂ hbit]

include h h₁ h₂ hbit in
theorem ptr_newBlock_of_ne {j : ℕ} (hj : j ≠ i) (l : ℕ) : ptr sb (newBlock sb m b) ino (j, l) = ptr sb m ino (j, l) := by
  rw [← ptr_update_of_ne _ ino d hj, ← ptr_update_of_ne m ino d hj, h.ptr_newBlock h₁ h₂ hbit]

include hi ht h h₁ h₂ hbit in
/-- The new block becomes a direct block or the indirect block. -/
theorem grown_setAddr (hk : k ≤ 12) (h0 : d.addr k = 0) :
    Grown sb ino i m d (newBlock sb m b) (d.setAddr k b) := by
  have hslot : slot m d k = 0 := (slot_direct m d hk).trans h0
  refine grown_of_assign (k := k) h h₁ h₂ hbit ?_ ?_ rfl fun _ _ => rfl
  · rw [ptr_update_self hi ht, hslot]
  · apply ptr_eq_update hi ht
    · exact ht
    · intro l
      rw [slot_setAddr hk (h₂.trans (sb.size_lt.trans (by norm_num))) h0, slot_newBlock hi ht h h₁ h₂ hbit]
      intro _ o ho
      exact newBlock_zero m b ho
    · exact fun j l hj => ptr_newBlock_of_ne h h₁ h₂ hbit hj l

include hi ht h h₁ h₂ hbit in
/-- The new block becomes an entry of the indirect block. -/
theorem grown_store (hk : k < 256) (h12 : d.addr 12 ≠ 0) (h0 : slot m d (13 + k) = 0) :
    Grown sb ino i m d (store 4 (newBlock sb m b) (entryAddr (d.addr 12) k) b) d := by
  have h12' : ptr sb m (Function.update ino i d) (i, 12) = d.addr 12 := by
    rw [ptr_update_self hi ht, slot_direct _ _ le_rfl]
  have hdata : sb.nmeta ≤ d.addr 12 := by
    rw [← h12'] at h12 ⊢
    exact (h.mem h12).1
  have hout : EqOutside (d.addr 12 * 1024) 1024 (newBlock sb m b)
      (store 4 (newBlock sb m b) (entryAddr (d.addr 12) k) b) :=
    (store_eqOutside _ _ _ _).mono (Nat.le_add_right _ _)
      (by change d.addr 12 * 1024 + 4 * k + 4 ≤ d.addr 12 * 1024 + 1024; omega)
  have hne {j l : ℕ} (hp : ptr sb m (Function.update ino i d) (j, l) ≠ 0) (hjl : (j, l) ≠ (i, 12)) :
      ptr sb m (Function.update ino i d) (j, l) ≠ d.addr 12 := fun he =>
    hjl (h.owners.inj _ _ hp (he.trans h12'.symm))
  refine grown_of_assign (k := 13 + k) h h₁ h₂ hbit ?_ ?_ rfl ?_
  · rw [ptr_update_self hi ht, h0]
  · apply ptr_eq_update hi ht ht
    · intro l
      rw [slot_store hk (h₂.trans (sb.size_lt.trans (by norm_num))) h12, slot_newBlock hi ht h h₁ h₂ hbit]
    · intro j l hj
      rw [← ptr_newBlock_of_ne h h₁ h₂ hbit hj]
      by_cases hlive : Live sb ino j
      · rw [ptr_of_live _ hlive, ptr_of_live _ hlive]
        apply slot_congr
        intro hj12 o ho
        apply hout
        have hp : ptr sb m (Function.update ino i d) (j, 12) = (ino j).addr 12 := by
          rw [ptr_update_of_ne _ _ _ hj, ptr_of_live _ hlive, slot_direct _ _ le_rfl]
        have := hne (by rwa [hp]) (by simp [hj] : (j, 12) ≠ (i, 12))
        rw [hp] at this
        omega
      · rw [ptr_of_not_live _ hlive, ptr_of_not_live _ hlive]
  · rintro x (hx | ⟨j, bn, hj, hx⟩)
    · exact hout x (by omega)
    · have := hne hj (by simp [slotOf_ne])
      exact hout x (by omega)

end Slots

theorem State.put_inode (s : State U) (e : Fin NINODE) (m : Mem) (d : Dinode) (l : Log) :
    (s.put e m d l).inode e = { s.inode e with copy := d } :=
  Function.update_self _ _ _

@[simp] theorem State.put_disk (s : State U) (e : Fin NINODE) (m : Mem) (d : Dinode) (l : Log) :
    (s.put e m d l).disk = m := rfl

@[simp] theorem State.put_user (s : State U) (e : Fin NINODE) (m : Mem) (d : Dinode) (l : Log) :
    (s.put e m d l).user = s.user := rfl

theorem State.put_put (s : State U) (e : Fin NINODE) (m m' : Mem) (d d' : Dinode) (l l' : Log) :
    (s.put e m d l).put e m' d' l' = s.put e m' d' l' := by
  unfold put setCopy setInode
  simp only [Function.update_self, Function.update_idem]

theorem State.put_self (s : State U) (e : Fin NINODE) : s.put e s.disk (s.inode e).copy s.log = s := by
  unfold put setCopy setInode
  rw [Function.update_eq_self]

theorem State.setCopy_eq_put (s : State U) (e : Fin NINODE) (d : Dinode) :
    s.setCopy e d = s.put e s.disk d s.log := rfl

/-- The blocks that belong to new references in the slots `K`: the blocks themselves, their bitmap blocks,
and the blocks that the slots referred to before. -/
def Touched (sb : Superblock) (m : Mem) (d : Dinode) (m' : Mem) (d' : Dinode) (K : Set ℕ) : Set ℕ :=
  {b | ∃ k ∈ K, slot m' d' k ≠ 0 ∧ (b = slot m' d' k ∨ slot m d k = 0 ∧ b = sb.bblock (slot m' d' k))}

/-- Slots that have a block keep it. -/
def Keeps (m : Mem) (d : Dinode) (m' : Mem) (d' : Dinode) : Prop := ∀ k, slot m d k ≠ 0 → slot m' d' k = slot m d k

theorem touched_left {K L : Set ℕ} (h : Keeps m' d' m'' d'') (hKL : K ⊆ L) :
    Touched sb m d m' d' K ⊆ Touched sb m d m'' d'' L := by
  rintro b ⟨k, hk, hne, hb⟩
  have hs := h k hne
  rw [← hs] at hne hb
  exact ⟨k, hKL hk, hne, hb⟩

theorem touched_right {K L : Set ℕ} (h : Keeps m d m' d') (hKL : K ⊆ L) :
    Touched sb m' d' m'' d'' K ⊆ Touched sb m d m'' d'' L := by
  rintro b ⟨k, hk, hne, hb⟩
  refine ⟨k, hKL hk, hne, hb.imp id fun ⟨h0, hb⟩ => ⟨?_, hb⟩⟩
  by_contra hs
  exact hs ((h k hs).symm.trans h0)

theorem Grown.keeps (h : Grown sb ino i m d m' d') (hi : i < sb.ninodes) (ht : d.type ≠ 0) : Keeps m d m' d' := by
  intro k hk
  have ht' : d'.type ≠ 0 := by
    rw [h.fields]
    exact ht
  have := h.kept (i, k)
  rw [ptr_update_self hi ht, ptr_update_self hi ht'] at this
  exact this hk

/-- The disk and the copy of the inode after a step of `bmap` that has returned `a`. -/
def Maps (sb : Superblock) (ino : ℕ → Dinode) (e : Fin NINODE) (s : State U) (K : Set ℕ)
    (q : Mem → Dinode → ℕ → Prop) (a : ℕ) (t : State U) : Prop :=
  ∃ m d l, t = s.put e m d l ∧ Grown sb ino (s.inode e).inum s.disk (s.inode e).copy m d ∧
    Logs sb (Touched sb s.disk (s.inode e).copy m d K) s.log l ∧ (a = 0 ∧ DiskFull sb m ∨ a ≠ 0 ∧ q m d a)

/-- What is known about an inode that `bmap` is called for. -/
structure Mapping (sb : Superblock) (ino : ℕ → Dinode) (e : Fin NINODE) (s : State U) : Prop where
  inum_lt : (s.inode e).inum < sb.ninodes
  live : (s.inode e).copy.type ≠ 0
  consistent : Consistent sb s.disk (Function.update ino (s.inode e).inum (s.inode e).copy)

theorem Mapping.put {m : Mem} (h : Mapping sb ino e s)
    (hg : Grown sb ino (s.inode e).inum s.disk (s.inode e).copy m d) (l : Log) : Mapping sb ino e (s.put e m d l) := by
  refine ⟨?_, ?_, ?_⟩
  · rw [s.put_inode]
    exact h.inum_lt
  · rw [s.put_inode]
    dsimp only
    rw [hg.fields]
    exact h.live
  · rw [s.put_inode]
    exact hg.consistent

theorem Mapping.maps (h : Mapping sb ino e s) (K : Set ℕ) {q : Mem → Dinode → ℕ → Prop}
    (hq : a = 0 ∧ DiskFull sb s.disk ∨ a ≠ 0 ∧ q s.disk (s.inode e).copy a) : Maps sb ino e s K q a s :=
  ⟨_, _, _, (s.put_self e).symm, .refl h.consistent, logs_refl _ _, hq⟩

theorem allocAddr_spec (h : Mapping sb ino e s) (ho : 0 < s.outstanding) (hk : k ≤ 12)
    (h0 : (s.inode e).copy.addr k = 0) :
    Ensures (do
      let addr ← balloc sb
      if addr = 0 then pure 0
      else do
        modifyCopy e fun d => d.setAddr k addr
        pure addr) s (Maps sb ino e s {k} fun _ d a => d.addr k = a) NoPanic := by
  apply (balloc_spec h.consistent.metadata ho).bind (fun _ => id)
  rintro b t (⟨rfl, rfl, hfull⟩ | ⟨h₁, h₂, hbit, l, rfl, hl⟩)
  · exact ensures_pure (h.maps _ (.inl ⟨rfl, hfull⟩))
  · have hb0 : b ≠ 0 := ((nmeta_pos sb).trans_le h₁).ne'
    have haddr : ((s.inode e).copy.setAddr k b).addr k = b :=
      addr_setAddr_self hk (h₂.trans (sb.size_lt.trans (by norm_num)))
    rw [if_neg hb0]
    apply ensures_modify_bind
    refine ensures_pure ⟨_, _, l, rfl, grown_setAddr h.inum_lt h.live h.consistent h₁ h₂ hbit hk h0, hl.mono ?_,
      .inr ⟨hb0, haddr⟩⟩
    have hold : slot s.disk (s.inode e).copy k = 0 := (slot_direct _ _ hk).trans h0
    have hnew : slot (newBlock sb s.disk b) ((s.inode e).copy.setAddr k b) k = b := (slot_direct _ _ hk).trans haddr
    rintro c (rfl | rfl)
    · exact ⟨k, rfl, hnew.trans_ne hb0, .inr ⟨hold, congrArg _ hnew.symm⟩⟩
    · exact ⟨k, rfl, hnew.trans_ne hb0, .inl hnew.symm⟩

theorem bmap_indirect_spec (h : Mapping sb ino e s) (ho : 0 < s.outstanding) :
    Ensures (bmap.indirect sb e s) s (Maps sb ino e s {12} fun _ d a => d.addr 12 = a) NoPanic := by
  unfold bmap.indirect
  dsimp only
  by_cases h0 : (s.inode e).copy.addr NDIRECT = 0
  · rw [if_pos h0]
    exact allocAddr_spec h ho le_rfl h0
  · rw [if_neg h0]
    exact ensures_pure (h.maps _ (.inr ⟨h0, rfl⟩))

theorem bmap_entry_spec (h : Mapping sb ino e s) (ho : 0 < s.outstanding) (hk : k < 256)
    (h12 : (s.inode e).copy.addr 12 ≠ 0) :
    Ensures (bmap.entry sb ((s.inode e).copy.addr 12) k) s
      (Maps sb ino e s {13 + k, 12} fun m d a => slot m d (13 + k) = a) NoPanic := by
  have hslot := slot_entry s.disk _ hk h12
  apply ensures_get_bind
  by_cases h0 : load 4 s.disk (entryAddr ((s.inode e).copy.addr 12) k) = 0
  · dsimp only
    rw [if_pos h0]
    apply (balloc_spec h.consistent.metadata ho).bind (fun _ => id)
    rintro b t (⟨rfl, rfl, hfull⟩ | ⟨h₁, h₂, hbit, l, rfl, hl⟩)
    · exact ensures_pure (h.maps _ (.inl ⟨rfl, hfull⟩))
    · have hb0 : b ≠ 0 := ((nmeta_pos sb).trans_le h₁).ne'
      rw [if_neg hb0]
      apply ensures_modify_bind
      apply (logWrite_spec _ (by exact ho)).bind (fun _ => id)
      rintro _ _ ⟨l', rfl, hl'⟩
      have hg := grown_store h.inum_lt h.live h.consistent h₁ h₂ hbit hk h12 (hslot.trans h0)
      have hnew : slot (store 4 (newBlock sb s.disk b) (entryAddr ((s.inode e).copy.addr 12) k) b)
          (s.inode e).copy (13 + k) = b := by
        rw [slot_store hk (h₂.trans (sb.size_lt.trans (by norm_num))) h12, if_pos rfl]
      refine ensures_pure ⟨_, _, l', ?_, hg, (hl.mono ?_).trans (hl'.mono ?_), .inr ⟨hb0, hnew⟩⟩
      · unfold State.put State.setCopy State.setInode
        rw [Function.update_eq_self]
        rfl
      · rintro c (rfl | rfl)
        · exact ⟨13 + k, .inl rfl, hnew.trans_ne hb0, .inr ⟨hslot.trans h0, congrArg _ hnew.symm⟩⟩
        · exact ⟨13 + k, .inl rfl, hnew.trans_ne hb0, .inl hnew.symm⟩
      · rintro c rfl
        have hind := slot_direct (store 4 (newBlock sb s.disk b) (entryAddr ((s.inode e).copy.addr 12) k) b)
          (s.inode e).copy (le_refl 12)
        exact ⟨12, .inr rfl, hind.trans_ne h12, .inl hind.symm⟩
  · dsimp only
    rw [if_neg h0]
    exact ensures_pure (h.maps _ (.inr ⟨h0, hslot⟩))

/-- `bmap` returns the block of the slot, allocating if necessary. -/
theorem bmap_spec {bn : ℕ} (h : Mapping sb ino e s) (ho : 0 < s.outstanding) (hbn : bn < 268) :
    Ensures (bmap sb e bn) s (Maps sb ino e s {slotOf bn, 12} fun m d a => slot m d (slotOf bn) = a) NoPanic := by
  apply ensures_get_bind
  by_cases hn : bn < NDIRECT
  · have hle : bn ≤ 12 := le_of_lt hn
    have hslot (m : Mem) (d : Dinode) : slot m d (slotOf bn) = d.addr bn := by
      rw [slotOf_of_lt hn, slot_direct _ _ hle]
    simp only [hslot]
    rw [if_pos hn]
    by_cases h0 : (s.inode e).copy.addr bn = 0
    · rw [if_pos h0]
      apply (allocAddr_spec h ho hle h0).mono _ (fun _ => id)
      rintro a _ ⟨m, d, l, rfl, hg, hl, hres⟩
      refine ⟨m, d, l, rfl, hg, hl.mono ?_, hres⟩
      exact touched_left (fun _ _ => rfl) (Set.singleton_subset_iff.2 (.inl (slotOf_of_lt hn).symm))
    · rw [if_neg h0]
      exact ensures_pure (h.maps _ (.inr ⟨h0, rfl⟩))
  · have hge : 12 ≤ bn := not_lt.1 hn
    rw [if_neg hn, if_pos (by change bn - 12 < 256; omega), slotOf_of_le hge]
    apply (bmap_indirect_spec h ho).bind (fun _ => id)
    rintro a _ ⟨m, d, l, rfl, hg, hl, ⟨rfl, hfull⟩ | ⟨ha, h12⟩⟩
    · exact ensures_pure ⟨m, d, l, rfl, hg, hl.mono (touched_left (fun _ _ => rfl) (by simp)), .inl ⟨rfl, hfull⟩⟩
    · rw [if_neg ha]
      have h12' : ((s.put e m d l).inode e).copy.addr 12 = a := by rw [s.put_inode, h12]
      have := bmap_entry_spec (h.put hg l) (by exact ho) (by omega : bn - 12 < 256) (by rwa [h12'])
      rw [h12'] at this
      apply this.mono _ (fun _ => id)
      rintro a' _ ⟨m', d', l', rfl, hg', hl', hres⟩
      have hk' := hg'.keeps (by exact (h.put hg l).inum_lt) (h.put hg l).live
      rw [s.put_put, s.put_inode] at *
      refine ⟨m', d', l', rfl, hg.trans hg', (hl.mono ?_).trans (hl'.mono ?_), hres⟩
      · exact touched_left hk' (by simp)
      · exact touched_right (hg.keeps h.inum_lt h.live) le_rfl

theorem bmap_mapped {bn : ℕ} (hbn : bn < 268) (h : slot s.disk (s.inode e).copy (slotOf bn) ≠ 0) :
    bmap sb e bn s = .ok (slot s.disk (s.inode e).copy (slotOf bn), s) := by
  unfold bmap
  rw [run_bind (run_get s)]
  by_cases hn : bn < NDIRECT
  · have hslot : slot s.disk (s.inode e).copy (slotOf bn) = (s.inode e).copy.addr bn := by
      rw [slotOf_of_lt hn, slot_direct _ _ (le_of_lt hn)]
    rw [hslot] at h ⊢
    rw [if_pos hn, if_neg h]
    rfl
  · have hge : 12 ≤ bn := not_lt.1 hn
    have hof := slotOf_of_le hge
    have h12 : (s.inode e).copy.addr 12 ≠ 0 := fun h0 => h (by rw [hof, slot_entry_zero _ _ h0])
    have hslot := slot_entry s.disk (s.inode e).copy (by omega : bn - 12 < 256) h12
    rw [hof, hslot] at h
    rw [if_neg hn, if_pos (by change bn - 12 < 256; omega), hof, hslot]
    have hind : bmap.indirect sb e s s = .ok ((s.inode e).copy.addr 12, s) := by
      rw [bmap.indirect, if_neg (by exact h12)]
      rfl
    rw [run_bind hind, if_neg h12, bmap.entry, run_bind (run_get s)]
    rw [if_neg (by exact h)]
    rfl

theorem bmap_zero {bn : ℕ} (hbn : bn < 268) :
    Ensures (bmap sb e bn) s (fun a _ => a = 0 → slot s.disk (s.inode e).copy (slotOf bn) = 0) fun _ => True := by
  by_cases h : slot s.disk (s.inode e).copy (slotOf bn) = 0
  · exact ensures_true.mono (fun _ _ _ _ => h) (fun _ => id)
  · exact ensures_of_eq (bmap_mapped hbn h) id


end Xv6.Fs
