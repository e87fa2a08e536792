import Xv6.Fs.Write

/-!
# Truncation

`itrunc` frees the blocks of a file.  While it frees the entries of the indirect block these are still in
place, so that the owners of the used blocks are the slots without those entries: `cleared`.
-/

namespace Xv6.Fs

open Kernel Memory

variable {U : Type} {sb : Superblock} {s t : State U} {m m' m'' : Mem} {ino : ℕ → Dinode} {d d' : Dinode}
  {i k : ℕ} {e : Fin NINODE}

/-- The disks agree outside the bitmap. -/
def BitmapOnly (sb : Superblock) (m m' : Mem) : Prop :=
  EqOutside (sb.bmapstart * 1024) ((sb.nmeta - sb.bmapstart) * 1024) m m'

theorem bitmapOnly_refl (m : Mem) : BitmapOnly sb m m := fun _ _ => rfl

theorem BitmapOnly.trans (h : BitmapOnly sb m m') (h' : BitmapOnly sb m' m'') : BitmapOnly sb m m'' :=
  EqOutside.trans h h'

theorem bitmapOnly_clearBit (m : Mem) {b : ℕ} (hb : b < sb.size) : BitmapOnly sb m (clearBit sb m b) := by
  have h₁ := bitByte_lt sb hb
  have h₂ := bitByte_eq sb b
  exact (clearBit_eqOutside m b).mono (by omega) (by omega)

theorem BitmapOnly.bitmap_end (sb : Superblock) :
    sb.bmapstart * 1024 + (sb.nmeta - sb.bmapstart) * 1024 ≤ sb.nmeta * 1024 := by
  have := sb.bmapstart_le_nmeta
  omega

theorem BitmapOnly.data (h : BitmapOnly sb m m') {x : ℕ} (hx : sb.nmeta * 1024 ≤ x) : m' x = m x := by
  have := BitmapOnly.bitmap_end sb
  exact h x (by omega)

theorem BitmapOnly.dinode (h : BitmapOnly sb m m') {j : ℕ} (hj : j < sb.ninodes) :
    Fs.dinode sb m' j = Fs.dinode sb m j :=
  dinode_of_eqOutside h (.inl (inodeAddr_le sb hj))

theorem BitmapOnly.ptr_eq (h : BitmapOnly sb m m') (hc : Consistent sb m ino) : ptr sb m' ino = ptr sb m ino :=
  hc.ptr_metadata h (BitmapOnly.bitmap_end sb)

theorem bit_clearBit_metadata (hm : ∀ b < sb.nmeta, bit sb m b = true) {b : ℕ} (hb : sb.nmeta ≤ b) {c : ℕ}
    (hc : c < sb.nmeta) : bit sb (clearBit sb m b) c = true := by
  rw [bit_clearBit, hm c hc, decide_eq_false (by omega)]
  rfl

/-- The blocks of the bitmap. -/
def Superblock.bitmap (sb : Superblock) : Set ℕ := {c | ∃ b < sb.size, c = sb.bblock b}

/-! ## Slots without a range -/

/-- The slots without those from `lo` to `hi` of inode `i`. -/
def cleared (P : ℕ × ℕ → ℕ) (i lo hi : ℕ) (x : ℕ × ℕ) : ℕ := if x.1 = i ∧ lo ≤ x.2 ∧ x.2 < hi then 0 else P x

theorem cleared_self (P : ℕ × ℕ → ℕ) (i lo : ℕ) : cleared P i lo lo = P := by
  funext x
  exact if_neg (by omega)

theorem cleared_succ (P : ℕ × ℕ → ℕ) (i : ℕ) {lo hi : ℕ} (h : lo ≤ hi) :
    cleared P i lo (hi + 1) = Function.update (cleared P i lo hi) (i, hi) 0 := by
  funext ⟨j, l⟩
  by_cases hx : (j, l) = (i, hi)
  · obtain ⟨rfl, rfl⟩ := Prod.mk.inj hx
    rw [Function.update_self, cleared, if_pos ⟨rfl, h, Nat.lt_succ_self _⟩]
  · rw [Function.update_of_ne hx, cleared, cleared]
    have : j = i → l ≠ hi := by
      rintro rfl rfl
      exact hx rfl
    by_cases hj : j = i ∧ lo ≤ l ∧ l < hi
    · rw [if_pos hj, if_pos ⟨hj.1, hj.2.1, by omega⟩]
    · rw [if_neg hj, if_neg fun h' => hj ⟨h'.1, h'.2.1, by have := this h'.1; omega⟩]

theorem cleared_next (P : ℕ × ℕ → ℕ) (i lo hi : ℕ) : cleared P i lo hi (i, hi) = P (i, hi) := if_neg (by omega)

theorem slot_clear (m : Mem) (d : Dinode) (hk : k < 12) (l : ℕ) :
    slot m (d.setAddr k 0) l = if l = k then 0 else slot m d l := by
  have h12 : (d.setAddr k 0).addr 12 = d.addr 12 := addr_setAddr_of_ne (by omega)
  obtain hl | ⟨j, hj, rfl⟩ | hl := slot_cases l
  · rw [slot_direct _ _ hl, slot_direct _ _ hl]
    by_cases h : l = k
    · rw [if_pos h, h, addr_setAddr_self (by omega) (by norm_num)]
    · rw [if_neg h, addr_setAddr_of_ne h]
  · rw [if_neg (by omega)]
    by_cases h0 : d.addr 12 = 0
    · rw [slot_entry_zero _ _ h0, slot_entry_zero _ _ (h12.trans h0)]
    · rw [slot_entry _ _ hj h0, slot_entry _ _ hj (by rwa [h12]), h12]
  · rw [slot_big _ _ hl, slot_big _ _ hl, if_neg (by omega)]

/-! ## The direct blocks -/

/-- What a part of `itrunc` does: it clears slots of the inode, and nothing but the bitmap changes on the
disk. -/
structure Freed (sb : Superblock) (ino : ℕ → Dinode) (e : Fin NINODE) (s : State U) (q : ℕ → Prop) (m : Mem)
    (d : Dinode) : Prop where
  consistent : Consistent sb m (Function.update ino (s.inode e).inum d)
  disk : BitmapOnly sb s.disk m
  fields : d = { (s.inode e).copy with addrs := d.addrs }
  addr : ∀ l, (q l → d.addr l = 0) ∧ (¬ q l → d.addr l = (s.inode e).copy.addr l)

theorem Freed.mapping {q : ℕ → Prop} (hf : Freed sb ino e s q m d) (h : Mapping sb ino e s) (l : Log) :
    Mapping sb ino e (s.put e m d l) := by
  refine ⟨?_, ?_, ?_⟩
  · rw [s.put_inode]
    exact h.inum_lt
  · rw [s.put_inode]
    dsimp only
    rw [hf.fields]
    exact h.live
  · rw [s.put_inode]
    exact hf.consistent

theorem freed_direct (h : Mapping sb ino e s) (hk : k < 12) (h0 : (s.inode e).copy.addr k ≠ 0) :
    bit sb s.disk ((s.inode e).copy.addr k) = true ∧ sb.bblock ((s.inode e).copy.addr k) ∈ sb.bitmap ∧
    Freed sb ino e s (· = k) (clearBit sb s.disk ((s.inode e).copy.addr k)) ((s.inode e).copy.setAddr k 0) := by
  have hp : ptr sb s.disk (Function.update ino (s.inode e).inum (s.inode e).copy) ((s.inode e).inum, k) =
      (s.inode e).copy.addr k := by
    rw [ptr_update_self h.inum_lt h.live, slot_direct _ _ (by omega)]
  have hmem := h.consistent.owners.mem (hp.trans_ne h0)
  rw [hp] at hmem
  have honly := bitmapOnly_clearBit s.disk hmem.2.1
  have hptr : ptr sb (clearBit sb s.disk ((s.inode e).copy.addr k))
      (Function.update ino (s.inode e).inum ((s.inode e).copy.setAddr k 0)) =
      Function.update (ptr sb s.disk (Function.update ino (s.inode e).inum (s.inode e).copy))
        ((s.inode e).inum, k) 0 := by
    rw [← honly.ptr_eq h.consistent]
    apply ptr_eq_update h.inum_lt h.live
    · exact h.live
    · exact slot_clear _ _ hk
    · exact fun _ _ _ => rfl
  refine ⟨hmem.2.2, ⟨_, hmem.2.1, rfl⟩, ⟨⟨?_, fun c hc => ?_⟩, honly, rfl, fun l => ⟨?_, fun hl => addr_setAddr_of_ne hl⟩⟩⟩
  · have := h.consistent.owners.release (hp.trans_ne h0)
    rw [hp] at this
    rwa [hptr, used_clearBit]
  · exact bit_clearBit_metadata h.consistent.metadata hmem.1 hc
  · rintro rfl
    exact addr_setAddr_self (by omega) (by norm_num)

theorem truncDirect_spec :
    ∀ (k j : ℕ) (s : State U), j + k ≤ 12 → Mapping sb ino e s → 0 < s.outstanding →
      Ensures (truncDirect sb e k j) s (fun _ t => ∃ m d l, t = s.put e m d l ∧ Logs sb sb.bitmap s.log l ∧
        Freed sb ino e s (fun x => j ≤ x ∧ x < j + k) m d) NoPanic
  | 0, j, s, _, h, _ => ensures_pure ⟨_, _, _, (s.put_self e).symm, logs_refl _ _,
      h.consistent, bitmapOnly_refl _, rfl, fun x => ⟨fun hx => by omega, fun _ => rfl⟩⟩
  | k + 1, j, s, hjk, h, ho => by
    apply ensures_get_bind
    by_cases h0 : (s.inode e).copy.addr j = 0
    · dsimp only
      rw [if_pos h0]
      apply (truncDirect_spec k (j + 1) s (by omega) h ho).mono _ (fun _ => id)
      rintro _ _ ⟨m, d, l, rfl, hl, hf⟩
      refine ⟨m, d, l, rfl, hl, hf.consistent, hf.disk, hf.fields, fun x => ⟨fun hx => ?_, fun hx => ?_⟩⟩
      · by_cases hxj : x = j
        · rw [hxj, (hf.addr j).2 (by omega), h0]
        · exact (hf.addr x).1 (by omega)
      · exact (hf.addr x).2 (by omega)
    · dsimp only
      rw [if_neg h0]
      obtain ⟨hbit, hblock, hf₁⟩ := freed_direct h (by omega : j < 12) h0
      apply (bfree_spec hbit ho).bind (fun _ => id)
      rintro _ _ ⟨l, rfl, hl⟩
      apply ensures_modify_bind
      apply (truncDirect_spec k (j + 1) _ (by omega) (hf₁.mapping h l) (by exact ho)).mono _ (fun _ => id)
      rintro _ _ ⟨m, d, l', rfl, hl', hf⟩
      refine ⟨m, d, l', s.put_put _ _ _ _ _ _ _, (hl.mono (Set.singleton_subset_iff.2 hblock)).trans hl', ?_⟩
      obtain ⟨hc, hd, hfields, haddr⟩ := hf
      rw [s.put_inode] at hc hfields haddr
      refine ⟨hc, hf₁.disk.trans hd, hfields, fun x => ⟨fun hx => ?_, fun hx => ?_⟩⟩
      · by_cases hxj : x = j
        · rw [hxj, (haddr j).2 (by omega)]
          exact (hf₁.addr j).1 rfl
        · exact (haddr x).1 (by omega)
      · rw [(haddr x).2 (by omega)]
        exact (hf₁.addr x).2 (by omega)

/-! ## The indirect block -/

/-- The entries before `13 + j` have been freed. -/
structure Freeing (sb : Superblock) (P : ℕ × ℕ → ℕ) (i j : ℕ) (m₀ m : Mem) : Prop where
  owners : Owners (cleared P i 13 (13 + j)) (used sb m)
  metadata : ∀ b < sb.nmeta, bit sb m b = true
  disk : BitmapOnly sb m₀ m

theorem truncEntries_spec {P : ℕ × ℕ → ℕ} {m₀ : Mem} {block : ℕ} (hblock : sb.nmeta ≤ block)
    (hP : ∀ j < 256, P (i, 13 + j) = load 4 m₀ (entryAddr block j)) :
    ∀ (k j : ℕ) (s : State U), j + k = 256 → Freeing sb P i j m₀ s.disk → 0 < s.outstanding →
      Ensures (truncEntries sb block k j) s (fun _ t => ∃ m l, t = { s with disk := m, log := l } ∧
        Logs sb sb.bitmap s.log l ∧ Freeing sb P i 256 m₀ m) NoPanic
  | 0, j, s, hj, h, _ => by
    obtain rfl : j = 256 := by omega
    exact ensures_pure ⟨_, _, rfl, logs_refl _ _, h⟩
  | k + 1, j, s, hj, h, ho => by
    apply ensures_get_bind
    have hload : load 4 s.disk (entryAddr block j) = P (i, 13 + j) := by
      rw [hP j (by omega)]
      apply load_congr
      intro o _
      apply h.disk.data
      change sb.nmeta * 1024 ≤ block * 1024 + 4 * j + o
      omega
    have hnext : cleared P i 13 (13 + (j + 1)) = Function.update (cleared P i 13 (13 + j)) (i, 13 + j) 0 :=
      cleared_succ P i (Nat.le_add_right 13 j)
    have hcur := cleared_next P i 13 (13 + j)
    dsimp only
    rw [hload]
    by_cases h0 : P (i, 13 + j) = 0
    · rw [if_pos h0]
      refine truncEntries_spec hblock hP k (j + 1) s (by omega) ⟨?_, h.metadata, h.disk⟩ ho
      have hsame : Function.update (cleared P i 13 (13 + j)) (i, 13 + j) 0 = cleared P i 13 (13 + j) := by
        rw [← h0, ← hcur, Function.update_eq_self]
      rw [hnext, hsame]
      exact h.owners
    · rw [if_neg h0]
      have hmem := h.owners.mem (hcur.trans_ne h0)
      rw [hcur] at hmem
      apply (bfree_spec hmem.2.2 ho).bind (fun _ => id)
      rintro _ _ ⟨l, rfl, hl⟩
      have hstep : Freeing sb P i (j + 1) m₀ (clearBit sb s.disk (P (i, 13 + j))) := by
        refine ⟨?_, fun c hc => bit_clearBit_metadata h.metadata hmem.1 hc,
          h.disk.trans (bitmapOnly_clearBit _ hmem.2.1)⟩
        have := h.owners.release (hcur.trans_ne h0)
        rw [hcur] at this
        rwa [hnext, used_clearBit]
      apply (truncEntries_spec hblock hP k (j + 1) _ (by omega) (by exact hstep) (by exact ho)).mono _ (fun _ => id)
      rintro _ _ ⟨m, l', rfl, hl', hf⟩
      have hblock : sb.bblock (P (i, 13 + j)) ∈ sb.bitmap := ⟨_, hmem.2.1, rfl⟩
      exact ⟨m, l', rfl, (hl.mono (Set.singleton_subset_iff.2 hblock)).trans hl', hf⟩

theorem truncIndirect_spec (h : Mapping sb ino e s) (ho : 0 < s.outstanding) :
    Ensures (truncIndirect sb e) s (fun _ t => ∃ m d l, t = s.put e m d l ∧ Logs sb sb.bitmap s.log l ∧
      Freed sb ino e s (· = 12) m d) NoPanic := by
  apply ensures_get_bind
  dsimp only
  by_cases h0 : (s.inode e).copy.addr 12 = 0
  · rw [if_pos (by exact h0)]
    refine ensures_pure ⟨_, _, _, (s.put_self e).symm, logs_refl _ _, h.consistent, bitmapOnly_refl _, rfl,
      fun x => ⟨?_, fun _ => rfl⟩⟩
    rintro rfl
    exact h0
  rw [if_neg (by exact h0)]
  obtain ⟨P, hP⟩ : ∃ P, P = ptr sb s.disk (Function.update ino (s.inode e).inum (s.inode e).copy) := ⟨_, rfl⟩
  have hslot (l : ℕ) : P ((s.inode e).inum, l) = slot s.disk (s.inode e).copy l := by
    rw [hP, ptr_update_self h.inum_lt h.live]
  have h12 : P ((s.inode e).inum, 12) = (s.inode e).copy.addr 12 := (hslot 12).trans (slot_direct _ _ le_rfl)
  have howners : Owners P (used sb s.disk) := hP ▸ h.consistent.owners
  have hmem := howners.mem (h12.trans_ne h0)
  rw [h12] at hmem
  have hstart : Freeing sb P (s.inode e).inum 0 s.disk s.disk := by
    refine ⟨?_, h.consistent.metadata, bitmapOnly_refl _⟩
    rwa [Nat.add_zero, cleared_self]
  have hentries (j : ℕ) (hj : j < 256) :
      P ((s.inode e).inum, 13 + j) = load 4 s.disk (entryAddr ((s.inode e).copy.addr 12) j) :=
    (hslot _).trans (slot_entry _ _ hj h0)
  apply (truncEntries_spec hmem.1 hentries 256 0 s rfl hstart ho).bind (fun _ => id)
  rintro _ _ ⟨m, l, rfl, hl, hf⟩
  -- The entries are free; the indirect block is the last one.
  have hcur : cleared P (s.inode e).inum 13 269 ((s.inode e).inum, 12) = (s.inode e).copy.addr 12 :=
    (if_neg (by simp)).trans h12
  have hlast := hf.owners.mem (hcur.trans_ne h0)
  rw [hcur] at hlast
  apply (bfree_spec (by exact hlast.2.2) (by exact ho)).bind (fun _ => id)
  rintro _ _ ⟨l', rfl, hl'⟩
  have hbblock : sb.bblock ((s.inode e).copy.addr 12) ∈ sb.bitmap := ⟨_, hlast.2.1, rfl⟩
  have honly : BitmapOnly sb s.disk (clearBit sb m ((s.inode e).copy.addr 12)) :=
    hf.disk.trans (bitmapOnly_clearBit _ hlast.2.1)
  have haddr : ((s.inode e).copy.setAddr 12 0).addr 12 = 0 := addr_setAddr_self le_rfl (by norm_num)
  have hptr : ptr sb (clearBit sb m ((s.inode e).copy.addr 12))
      (Function.update ino (s.inode e).inum ((s.inode e).copy.setAddr 12 0)) =
      Function.update (cleared P (s.inode e).inum 13 269) ((s.inode e).inum, 12) 0 := by
    funext ⟨j, l⟩
    by_cases hj : j = (s.inode e).inum
    · subst hj
      rw [ptr_update_self h.inum_lt (by exact h.live)]
      by_cases hl : l = 12
      · rw [hl, Function.update_self, slot_direct _ _ le_rfl, haddr]
      · rw [Function.update_of_ne (by simp [hl]), cleared, hslot]
        obtain hl' | ⟨k, hk, rfl⟩ | hl' := slot_cases l
        · rw [if_neg (by dsimp only; omega), slot_direct _ _ hl', slot_direct _ _ hl', addr_setAddr_of_ne hl]
        · rw [if_pos ⟨rfl, by dsimp only; omega, by dsimp only; omega⟩, slot_entry_zero _ _ haddr]
        · rw [if_neg (by dsimp only; omega), slot_big _ _ hl', slot_big _ _ hl']
    · rw [Function.update_of_ne (by simp [hj]), cleared, if_neg fun hx => hj hx.1, hP, ptr_update_of_ne _ _ _ hj,
        ← ptr_update_of_ne _ _ (s.inode e).copy hj, honly.ptr_eq h.consistent, ptr_update_of_ne _ _ _ hj]
  refine ensures_modify ⟨clearBit sb m ((s.inode e).copy.addr 12), (s.inode e).copy.setAddr 12 0, l', rfl,
    hl.trans (hl'.mono (Set.singleton_subset_iff.2 hbblock)), ⟨?_, fun c hc => ?_⟩, honly, rfl,
    fun x => ⟨?_, fun hx => addr_setAddr_of_ne hx⟩⟩
  · have := hf.owners.release (hcur.trans_ne h0)
    rw [hcur] at this
    rwa [hptr, used_clearBit]
  · exact bit_clearBit_metadata hf.metadata hlast.1 hc
  · rintro rfl
    exact haddr

/-! ## `itrunc` -/

/-- The inode after `itrunc`. -/
def Dinode.emptied (d : Dinode) : Dinode :=
  { d with
    size := 0
    addrs := fun _ => 0 }

/-- The disk after `itrunc` of inode `i`, which was `d`. -/
structure Truncated (sb : Superblock) (ino : ℕ → Dinode) (i : ℕ) (d : Dinode) (m m' : Mem) : Prop where
  consistent : Consistent sb m' (Function.update ino i d.emptied)
  data : ∀ x, sb.nmeta * 1024 ≤ x → m' x = m x
  dinode : Fs.dinode sb m' i = d.emptied
  others : ∀ j < sb.ninodes, j ≠ i → Fs.dinode sb m' j = Fs.dinode sb m j

theorem addrs_eq_zero (h : ∀ l, l ≤ 12 → d.addr l = 0) : d.addrs = fun _ => 0 := by
  funext k
  have := h k (Nat.lt_succ_iff.1 k.isLt)
  rw [Dinode.addr, dif_pos k.isLt] at this
  exact BitVec.eq_of_toNat_eq this

theorem itrunc_spec (h : Mapping sb ino e s) (ho : 0 < s.outstanding) :
    Ensures (itrunc sb e) s (fun _ t => ∃ m l, t = s.put e m (s.inode e).copy.emptied l ∧
      Logs sb (insert (sb.iblock (s.inode e).inum) sb.bitmap) s.log l ∧ Truncated sb ino (s.inode e).inum (s.inode e).copy s.disk m) NoPanic := by
  apply (truncDirect_spec 12 0 s le_rfl h ho).bind (fun _ => id)
  rintro _ _ ⟨m, d, l, rfl, hl, hf⟩
  apply (truncIndirect_spec (hf.mapping h l) (by exact ho)).bind (fun _ => id)
  rintro _ _ ⟨m', d', l', rfl, hl', hc, hd, hfields, haddr⟩
  rw [s.put_put]
  rw [s.put_inode] at hc hfields haddr
  have hd' : { d' with size := 0 } = (s.inode e).copy.emptied := by
    have hzero : d'.addrs = fun _ => 0 := by
      refine addrs_eq_zero fun x hx => ?_
      by_cases h12 : x = 12
      · exact (haddr x).1 h12
      · rw [(haddr x).2 h12]
        exact (hf.addr x).1 (by omega)
    rw [hfields, hf.fields, Dinode.emptied]
    dsimp only
    rw [hzero]
  apply ensures_modify_bind
  rw [State.setCopy_eq_put, s.put_put, s.put_inode, State.put_disk]
  dsimp only
  rw [hd']
  apply (iupdate_spec (by exact ho)).mono _ (fun _ => id)
  rintro _ _ ⟨l'', rfl, hl''⟩
  rw [s.put_put, s.put_inode]
  rw [s.put_inode] at hl''
  have hout : EqOutside (inodeAddr sb (s.inode e).inum) 64 m'
      (writeDinode m' (inodeAddr sb (s.inode e).inum) (s.inode e).copy.emptied) := writeDinode_eqOutside _ _ _
  have h₁ := inodeAddr_le sb h.inum_lt
  have h₂ := sb.bmapstart_le_nmeta
  refine ⟨_, l'', rfl, ((hl.trans hl').mono (Set.subset_insert _ _)).trans
    (hl''.mono (Set.singleton_subset_iff.2 (Set.mem_insert _ _))),
    (hc.inode_write h.inum_lt hout (update_same ino _ ?_ ?_)).1, fun x hx => ?_, dinode_writeDinode _ _ _,
    fun j hj hne => ?_⟩
  · rw [← hd']
  · rw [← hd']
  · dsimp only [State.put_disk]
    rw [hout x (by omega), BitmapOnly.data hd hx]
    exact hf.disk.data hx
  · dsimp only [State.put_disk]
    rw [dinode_writeDinode_of_ne _ _ hne, BitmapOnly.dinode hd hj]
    exact hf.disk.dinode hj

end Xv6.Fs
