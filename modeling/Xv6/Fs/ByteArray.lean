import Xv6.Fs.Image
import Xv6.Fs.Trunc

/-!
# A file as an array of bytes

What `writei`, `readi` and `itrunc` do to the bytes of a file, for files without holes: a write replaces
the bytes at its offset, a read delivers them, and truncation leaves none.  A write whose source cannot be
read to the end also changes bytes that it does not report.  A write of the length that `filewrite` uses
for one transaction logs at most `MAXOPBLOCKS` blocks.
-/

namespace Xv6.Fs

open Kernel Memory UserMemory

/-- The bytes `old`, with `W` in the place of those at `off`. -/
def overwrite (old : List (BitVec 8)) (off : ℕ) (W : List (BitVec 8)) : List (BitVec 8) :=
  old.take off ++ W ++ old.drop (off + W.length)

variable {U : Type} {sb : Superblock} {s t : State U} {m m' : Mem} {ino : ℕ → Dinode} {d d' : Dinode}
  {i off n : ℕ} {W P : List (BitVec 8)} {e : Fin NINODE}

section Overwrite

variable {old : List (BitVec 8)}

theorem length_overwrite (h : off ≤ old.length) : (overwrite old off W).length = max old.length (off + W.length) := by
  rw [overwrite, List.length_append, List.length_append, List.length_take, List.length_drop]
  omega

theorem getD_overwrite (h : off ≤ old.length) (x : ℕ) : (overwrite old off W).getD x 0 =
    if off ≤ x ∧ x < off + W.length then W.getD (x - off) 0 else old.getD x 0 := by
  have htake : (old.take off).length = off := by rw [List.length_take, Nat.min_eq_left h]
  have hhead : (old.take off ++ W).length = off + W.length := by rw [List.length_append, htake]
  rw [overwrite]
  split_ifs with hx
  · rw [List.getD_append _ _ _ _ (by omega), List.getD_append_right _ _ _ _ (by omega), htake]
  · by_cases hlt : x < off
    · rw [List.getD_append _ _ _ _ (by omega), List.getD_append _ _ _ _ (by omega)]
      simp only [List.getD_eq_getElem?_getD, List.getElem?_take_of_lt hlt]
    · rw [List.getD_append_right _ _ _ _ (by omega), hhead]
      simp only [List.getD_eq_getElem?_getD, List.getElem?_drop]
      rw [Nat.add_sub_cancel' (by omega)]

theorem eq_iff_getD {l l' : List (BitVec 8)} (h : l.length = l'.length) :
    l = l' ↔ ∀ x < l.length, l.getD x 0 = l'.getD x 0 := by
  refine ⟨fun e x _ => by rw [e], fun hall => List.ext_getElem h fun x hx hx' => ?_⟩
  have := hall x hx
  rwa [List.getD_eq_getElem _ _ hx, List.getD_eq_getElem _ _ hx'] at this

end Overwrite

/-! ## The content of a file -/

theorem length_content (m : Mem) (d : Dinode) : (content m d).length = d.size.toNat := length_bytesAt _ _ _ _

theorem getD_content (m : Mem) (d : Dinode) {x : ℕ} (h : x < d.size.toNat) : (content m d).getD x 0 = byteAt m d x := by
  rw [content, getD_bytesAt _ _ _ h, Nat.zero_add]

theorem take_drop_content (m : Mem) (d : Dinode) (h : off + n ≤ d.size.toNat ∨ n = 0) :
    ((content m d).drop off).take n = bytesAt m d off n := by
  obtain h | rfl := h
  · obtain ⟨k, hk⟩ := Nat.exists_eq_add_of_le h
    rw [content, hk, bytesAt_add, bytesAt_add, Nat.zero_add, List.append_assoc,
      List.drop_left' (length_bytesAt _ _ _ _), List.take_left' (length_bytesAt _ _ _ _)]
  · rw [List.take_zero]
    rfl

theorem content_congr (hsize : d'.size = d.size) (h : ∀ x < d.size.toNat, byteAt m' d' x = byteAt m d x) :
    content m' d' = content m d := by
  rw [content, content, hsize]
  refine List.map_congr_left fun j hj => ?_
  rw [Nat.zero_add]
  exact h j (List.mem_range.1 hj)

/-- After a write the content is the old one with the bytes `W` in it, unless bytes `P` behind them have
been changed as well. -/
theorem Wrote.content_eq_iff (h : Wrote sb ino i off (W ++ P) m d m' d') (hfull : Full m d) (hoff : off ≤ d.size.toNat)
    (hsize : d'.size.toNat = max d.size.toNat (off + W.length)) :
    content m' d' = overwrite (content m d) off W ↔
      ∀ j < P.length, off + W.length + j < d.size.toNat → P.getD j 0 = byteAt m d (off + W.length + j) := by
  have hlen : (W ++ P).length = W.length + P.length := List.length_append
  have hold : off ≤ (content m d).length := by rwa [length_content]
  have hbehind {j : ℕ} (hj : j < P.length) : byteAt m' d' (off + W.length + j) = P.getD j 0 := by
    rw [Nat.add_assoc, (h.written (W.length + j) (by omega)).2, List.getD_append_right _ _ _ _ (by omega),
      Nat.add_sub_cancel_left]
  rw [eq_iff_getD (by rw [length_overwrite hold, length_content, length_content, hsize]), length_content]
  simp only [getD_overwrite hold]
  constructor
  · intro hall j hj hlt
    have := hall (off + W.length + j) (by omega)
    rwa [getD_content _ _ (by omega), hbehind hj, if_neg (by omega), getD_content _ _ hlt] at this
  · intro hP x hx
    rw [getD_content _ _ hx]
    split_ifs with hin
    · have := (h.written (x - off) (by omega)).2
      rw [Nat.add_sub_cancel' hin.1] at this
      rw [this, List.getD_append _ _ _ _ (by omega)]
    · have hlt : x < d.size.toNat := by omega
      rw [getD_content _ _ hlt]
      by_cases hout : x < off ∨ off + (W ++ P).length ≤ x
      · exact (h.ownBytes x (hfull.mapped x hlt) hout).2
      · obtain ⟨j, rfl⟩ : ∃ j, x = off + W.length + j := ⟨x - (off + W.length), by omega⟩
        rw [hbehind (by omega), hP j (by omega) hlt]

theorem Wrote.full (h : Wrote sb ino i off W m d m' d') (hfull : Full m d) (hoff : off ≤ d.size.toNat)
    (hsize : d'.size.toNat ≤ max d.size.toNat (off + W.length)) (hmax : d'.size.toNat ≤ MAXFILE * BSIZE) : Full m' d' := by
  refine ⟨hmax, fun x hx => ?_⟩
  by_cases hout : x < off ∨ off + W.length ≤ x
  · exact (h.ownBytes x (hfull.mapped x (by omega)) hout).1
  · have := (h.written (x - off) (by omega)).1
    rwa [Nat.add_sub_cancel' (by omega)] at this

theorem Wrote.other {j : ℕ} (h : Wrote sb ino i off W m d m' d') (hj : j ≠ i) (hlive : Live sb ino j) {x : ℕ}
    (hx : Mapped m (ino j) x) : Mapped m' (ino j) x ∧ byteAt m' (ino j) x = byteAt m (ino j) x := by
  have hp (m : Mem) (d : Dinode) (k : ℕ) : ptr sb m (Function.update ino i d) (j, k) = slot m (ino j) k :=
    (ptr_update_of_ne m ino d hj k).trans (ptr_of_live m hlive k)
  have hslot := h.others (j, slotOf (x / BSIZE)) hj
  have hbyte := h.otherBytes j (x / BSIZE) hj (by rwa [hp]) (x % 1024) (Nat.mod_lt _ (by decide))
  rw [hp, hp] at hslot
  rw [hp] at hbyte
  refine ⟨by rwa [Mapped, hslot], ?_⟩
  rw [byteAt, hslot]
  exact hbyte

theorem Truncated.other {j : ℕ} (h : Truncated sb ino i d m m') (hc : Consistent sb m (Function.update ino i d))
    (hj : j ≠ i) (hlive : Live sb ino j) {x : ℕ} (hx : Mapped m (ino j) x) :
    Mapped m' (ino j) x ∧ byteAt m' (ino j) x = byteAt m (ino j) x := by
  have hp (k : ℕ) : ptr sb m (Function.update ino i d) (j, k) = slot m (ino j) k :=
    (ptr_update_of_ne m ino d hj k).trans (ptr_of_live m hlive k)
  have hdata {k : ℕ} (hk : slot m (ino j) k ≠ 0) : sb.nmeta ≤ slot m (ino j) k := by
    rw [← hp] at hk ⊢
    exact (hc.mem hk).1
  have hslot (k : ℕ) : slot m' (ino j) k = slot m (ino j) k := by
    apply slot_congr
    intro h12 o _
    apply h.data
    have := hdata (show slot m (ino j) 12 ≠ 0 by rwa [slot_direct _ _ le_rfl])
    rw [slot_direct _ _ le_rfl] at this
    omega
  refine ⟨by rwa [Mapped, hslot], ?_⟩
  rw [byteAt, byteAt, hslot]
  apply h.data
  have := hdata hx
  change sb.nmeta * 1024 ≤ slot m (ino j) (slotOf (x / BSIZE)) * 1024 + x % 1024
  omega

/-! ## The three operations -/

variable [UserMemory U]

theorem toNat_newSize {a b : ℕ} (h : max a b ≤ MAXFILE * BSIZE) : (BitVec.ofNat 32 (max a b)).toNat = max a b := by
  rw [BitVec.toNat_ofNat]
  exact Nat.mod_eq_of_lt (h.trans_lt (by decide))

theorem not_refused (h : ¬ Refused d off n) : off ≤ d.size.toNat ∧ off + n ≤ MAXFILE * BSIZE := by
  unfold Refused at h
  omega

theorem WriteDone.size {src : Source} {r : ℤ} (h : WriteDone sb ino e src off n s r t)
    (hfull : Full s.disk (s.inode e).copy) (hn : ¬ Refused (s.inode e).copy off n) :
    (t.inode e).copy.size.toNat = max (s.inode e).copy.size.toNat (off + r.toNat) ∧ r.toNat ≤ n ∧ 0 ≤ r ∧
      Full t.disk (t.inode e).copy := by
  obtain ⟨m, d, l, c, P, rfl, rfl, hc, hw, hd, -⟩ := h
  obtain ⟨hoff, hmax⟩ := not_refused hn
  have hle : max (s.inode e).copy.size.toNat (off + c) ≤ MAXFILE * BSIZE :=
    max_le hfull.size_le ((Nat.add_le_add_left hc off).trans hmax)
  have hsize : d.size.toNat = max (s.inode e).copy.size.toNat (off + c) := by
    rw [hd]
    exact toNat_newSize hle
  rw [s.put_inode, Int.toNat_natCast]
  refine ⟨hsize, hc, Int.natCast_nonneg c, ?_⟩
  apply hw.full hfull hoff
  · rw [hsize, List.length_append, Source.length_bytes]
    exact max_le_max le_rfl (by omega)
  · exact hsize.trans_le hle

/-! ## Short writes -/

/-- Where the file had bytes, what `copyin` has left behind the first `c` bytes is what was there. -/
def NothingLost (u : U) (m : Mem) (d : Dinode) (src : Source) (off n c : ℕ) : Prop :=
  ∀ j < (partialCopy u src 0 off n c).length, off + c + j < d.size.toNat →
    (partialCopy u src 0 off n c).getD j 0 = byteAt m d (off + c + j)

/-! ## The length of a transaction -/

/-- The blocks of the slots that a chunk of `filewrite` needs.  If the chunk does not begin at a block boundary its
first block is there, since the file has no holes. -/
theorem chunk_blocks (sb : Superblock) (m' : Mem) (d' : Dinode) (hfull : Full m d) (hoff : off ≤ d.size.toNat) (hn : n ≤ 3 * 1024) :
    ∃ L : List ℕ, L.length ≤ 9 ∧ ∀ b ∈ Touched sb m d m' d' (rangeSlots off n), b ∈ L := by
  obtain ⟨f, hf⟩ : ∃ f : ℕ → ℕ, f = fun i => slot m' d' (slotOf (off / 1024 + i)) := ⟨_, rfl⟩
  have hcount {y : ℕ} (h₁ : off ≤ y) (h₂ : y < off + n) : ∃ i, y / 1024 = off / 1024 + i ∧ i < 4 ∧
      (off % 1024 = 0 → i < 3) := ⟨y / 1024 - off / 1024, by omega, by omega, by omega⟩
  by_cases hal : off % 1024 = 0
  · refine ⟨slot m' d' 12 :: sb.bblock (slot m' d' 12) ::
      ((List.range 3).map f ++ (List.range 3).map fun i => sb.bblock (f i)), by simp, ?_⟩
    rintro b ⟨k, rfl | ⟨y, h₁, h₂, rfl⟩, -, hb⟩
    · obtain rfl | ⟨-, rfl⟩ := hb <;> simp
    · obtain ⟨i, hi, -, hlt⟩ := hcount h₁ h₂
      have hlt := hlt hal
      rw [show y / BSIZE = off / 1024 + i from hi] at hb
      obtain rfl | ⟨-, rfl⟩ := hb
      · simp only [List.mem_cons, List.mem_append, List.mem_map, List.mem_range]
        exact .inr (.inr (.inl ⟨i, hlt, by rw [hf]⟩))
      · simp only [List.mem_cons, List.mem_append, List.mem_map, List.mem_range]
        exact .inr (.inr (.inr ⟨i, hlt, by rw [hf]⟩))
  · have hfirst : slot m d (slotOf (off / 1024)) ≠ 0 := by
      have hmapped := hfull.mapped (off - 1) (by omega)
      rw [Mapped, show (off - 1) / BSIZE = off / 1024 by change (off - 1) / 1024 = _; omega] at hmapped
      exact hmapped
    refine ⟨slot m' d' 12 :: sb.bblock (slot m' d' 12) ::
      ((List.range 4).map f ++ (List.range 3).map fun i => sb.bblock (f (i + 1))), by simp, ?_⟩
    rintro b ⟨k, rfl | ⟨y, h₁, h₂, rfl⟩, -, hb⟩
    · obtain rfl | ⟨-, rfl⟩ := hb <;> simp
    · obtain ⟨i, hi, hlt, -⟩ := hcount h₁ h₂
      rw [show y / BSIZE = off / 1024 + i from hi] at hb
      obtain rfl | ⟨h0, rfl⟩ := hb
      · simp only [List.mem_cons, List.mem_append, List.mem_map, List.mem_range]
        exact .inr (.inr (.inl ⟨i, hlt, by rw [hf]⟩))
      · simp only [List.mem_cons, List.mem_append, List.mem_map, List.mem_range]
        obtain ⟨i, rfl⟩ : ∃ i', i = i' + 1 := by
          refine Nat.exists_eq_add_one_of_ne_zero fun hi0 => hfirst ?_
          rwa [hi0, Nat.add_zero] at h0
        exact .inr (.inr (.inr ⟨i, by omega, by rw [hf]⟩))

end Xv6.Fs
