import Xv6.Fs.Content

/-!
# Writing to a file

`Wrote` is what `writei` does to the disk and to the copy of the inode: the bytes `W` are in the file at
`off`, its other bytes are as before, and so are the slots and the bytes of the other files.  When the
source cannot be read to the end, `W` is longer than what `writei` reports: a part of a block has been
copied to the buffer cache.
-/

namespace Xv6.Fs

open Kernel Memory UserMemory

variable {U : Type} {sb : Superblock} {s t : State U} {m m' m'' : Mem} {ino : ℕ → Dinode} {d d' d'' : Dinode}
  {i off n k tot : ℕ} {W W' : List (BitVec 8)} {e : Fin NINODE}

structure Wrote (sb : Superblock) (ino : ℕ → Dinode) (i off : ℕ) (W : List (BitVec 8)) (m : Mem) (d : Dinode)
    (m' : Mem) (d' : Dinode) : Prop where
  consistent : Consistent sb m' (Function.update ino i d')
  kept : ∀ x, ptr sb m (Function.update ino i d) x ≠ 0 →
    ptr sb m' (Function.update ino i d') x = ptr sb m (Function.update ino i d) x
  others : ∀ x : ℕ × ℕ, x.1 ≠ i →
    ptr sb m' (Function.update ino i d') x = ptr sb m (Function.update ino i d) x
  otherBytes : ∀ j bn, j ≠ i → ptr sb m (Function.update ino i d) (j, slotOf bn) ≠ 0 → ∀ o < 1024,
    m' (ptr sb m (Function.update ino i d) (j, slotOf bn) * 1024 + o) =
      m (ptr sb m (Function.update ino i d) (j, slotOf bn) * 1024 + o)
  ownBytes : ∀ x, Mapped m d x → (x < off ∨ off + W.length ≤ x) → Mapped m' d' x ∧ byteAt m' d' x = byteAt m d x
  written : ∀ j < W.length, Mapped m' d' (off + j) ∧ byteAt m' d' (off + j) = W.getD j 0

section

variable (hi : i < sb.ninodes) (ht : d.type ≠ 0)

include hi ht in
theorem ptr_slotOf (m : Mem) (ino : ℕ → Dinode) (bn : ℕ) :
    ptr sb m (Function.update ino i d) (i, slotOf bn) = slot m d (slotOf bn) :=
  ptr_update_self hi ht m ino _

include hi ht in
theorem Grown.wrote (h : Grown sb ino i m d m' d') (off : ℕ) : Wrote sb ino i off [] m d m' d' := by
  have ht' : d'.type ≠ 0 := by
    rw [h.fields]
    exact ht
  refine ⟨h.consistent, h.kept, h.others, fun j bn _ => h.bytes j bn, fun x hx _ => ?_, fun j hj => absurd hj (by simp)⟩
  rw [Mapped, ← ptr_slotOf hi ht m ino] at hx
  have hk := h.kept _ hx
  have hb := h.bytes i _ hx (x % 1024) (Nat.mod_lt _ (by decide))
  rw [ptr_slotOf hi ht', ptr_slotOf hi ht] at hk
  rw [ptr_slotOf hi ht] at hx hb
  refine ⟨?_, ?_⟩
  · rwa [Mapped, hk]
  · rw [byteAt, hk]
    exact hb

theorem slotOf_inj {a b : ℕ} (h : slotOf a = slotOf b) : a = b := by
  by_cases ha : a < 12 <;> by_cases hb : b < 12
  · rwa [slotOf_of_lt ha, slotOf_of_lt hb] at h
  · rw [slotOf_of_lt ha, slotOf_of_le (by omega)] at h
    omega
  · rw [slotOf_of_lt hb, slotOf_of_le (by omega)] at h
    omega
  · rw [slotOf_of_le (by omega), slotOf_of_le (by omega)] at h
    omega

include hi ht in
theorem wrote_block (h : Consistent sb m (Function.update ino i d)) (hoff : Mapped m d off)
    (hW : off % 1024 + W.length ≤ 1024) :
    Wrote sb ino i off W m d (write m (slot m d (slotOf (off / BSIZE)) * BSIZE + off % BSIZE) W) d := by
  obtain ⟨b, hb⟩ : ∃ b, b = slot m d (slotOf (off / BSIZE)) := ⟨_, rfl⟩
  have hp : ptr sb m (Function.update ino i d) (i, slotOf (off / BSIZE)) = b := (ptr_slotOf hi ht m ino _).trans hb.symm
  have hb0 : b ≠ 0 := by rwa [hb]
  have hdata := (h.mem (hp.trans_ne hb0)).1
  rw [hp] at hdata
  rw [← hb]
  -- The block is in no other slot.
  have hinj {y : ℕ × ℕ} (hy : ptr sb m (Function.update ino i d) y = b) : y = (i, slotOf (off / BSIZE)) :=
    h.owners.inj _ _ (hy.trans_ne hb0) (hy.trans hp.symm)
  have hstart : b * 1024 ≤ b * BSIZE + off % BSIZE := Nat.le_add_right _ _
  have hend : b * BSIZE + off % BSIZE + W.length ≤ b * 1024 + 1024 := by
    have : off % BSIZE + W.length ≤ 1024 := hW
    have : b * BSIZE = b * 1024 := rfl
    omega
  have hblock : EqOutside (b * 1024) 1024 m (write m (b * BSIZE + off % BSIZE) W) :=
    (write_eqOutside m _ W).mono hstart hend
  have hptr : ptr sb (write m (b * BSIZE + off % BSIZE) W) (Function.update ino i d) =
      ptr sb m (Function.update ino i d) := by
    apply h.ptr_block hblock
    intro j hj
    have := congrArg Prod.snd (hinj hj)
    exact slotOf_ne _ this.symm
  have hslot (x : ℕ) : slot (write m (b * BSIZE + off % BSIZE) W) d (slotOf x) = slot m d (slotOf x) := by
    rw [← ptr_slotOf hi ht _ ino, hptr, ptr_slotOf hi ht]
  refine ⟨h.of_eqOutside hblock (.inr (Nat.mul_le_mul_right _ hdata)) hptr, fun x _ => by rw [hptr],
    fun x _ => by rw [hptr], fun j bn hj hne o ho => ?_, fun x hx hout => ?_, fun j hj => ?_⟩
  · apply hblock
    have : ptr sb m (Function.update ino i d) (j, slotOf bn) ≠ b := fun he => hj (congrArg Prod.fst (hinj he))
    omega
  · refine ⟨by rwa [Mapped, hslot], ?_⟩
    rw [byteAt, byteAt, hslot]
    apply write_eqOutside
    change ¬ (b * 1024 + off % 1024 ≤ slot m d (slotOf (x / 1024)) * 1024 + x % 1024 ∧
      slot m d (slotOf (x / 1024)) * 1024 + x % 1024 < b * 1024 + off % 1024 + W.length)
    intro hin
    have hxb : slot m d (slotOf (x / 1024)) = b := by omega
    rw [← ptr_slotOf hi ht m ino] at hxb
    have : x / 1024 = off / 1024 := slotOf_inj (congrArg Prod.snd (hinj hxb))
    rw [ptr_slotOf hi ht] at hxb
    omega
  · have h₁ : (off + j) / BSIZE = off / BSIZE := by
      change (off + j) / 1024 = off / 1024
      omega
    have h₂ : (off + j) % BSIZE = off % BSIZE + j := by
      change (off + j) % 1024 = off % 1024 + j
      omega
    refine ⟨?_, ?_⟩
    · rwa [Mapped, hslot, h₁, ← hb]
    · rw [byteAt, hslot, h₁, h₂, ← hb, write, if_pos (by omega)]
      congr 1
      omega

theorem Wrote.trans (h : Wrote sb ino i off W m d m' d') (h' : Wrote sb ino i (off + W.length) W' m' d' m'' d'') :
    Wrote sb ino i off (W ++ W') m d m'' d'' := by
  have hlen : (W ++ W').length = W.length + W'.length := List.length_append
  refine ⟨h'.consistent, fun x hx => ?_, fun x hx => (h'.others x hx).trans (h.others x hx),
    fun j bn hj hne o ho => ?_, fun x hx hout => ?_, fun j hj => ?_⟩
  · have hk := h.kept x hx
    rw [h'.kept x (by rwa [hk]), hk]
  · have ho' := h.others (j, slotOf bn) hj
    have hb := h'.otherBytes j bn hj (by rwa [ho']) o ho
    rw [ho'] at hb
    rw [hb, h.otherBytes j bn hj hne o ho]
  · obtain ⟨hx', hb⟩ := h.ownBytes x hx (by omega)
    obtain ⟨hx'', hb'⟩ := h'.ownBytes x hx' (by omega)
    exact ⟨hx'', hb'.trans hb⟩
  · by_cases hjW : j < W.length
    · obtain ⟨hx, hb⟩ := h.written j hjW
      obtain ⟨hx', hb'⟩ := h'.ownBytes _ hx (by omega)
      exact ⟨hx', by rw [hb', hb, List.getD_append _ _ _ _ hjW]⟩
    · obtain ⟨hx, hb⟩ := h'.written (j - W.length) (by omega)
      rw [show off + W.length + (j - W.length) = off + j by omega] at hx hb
      exact ⟨hx, by rw [hb, List.getD_append_right _ _ _ _ (by omega)]⟩

end

theorem Mapping.wrote_nil (h : Mapping sb ino e s) (off : ℕ) :
    Wrote sb ino (s.inode e).inum off [] s.disk (s.inode e).copy s.disk (s.inode e).copy :=
  (Grown.refl h.consistent).wrote h.inum_lt h.live off

theorem Mapping.put_wrote (h : Mapping sb ino e s)
    (hw : Wrote sb ino (s.inode e).inum off W s.disk (s.inode e).copy m d)
    (hd : d = { (s.inode e).copy with addrs := d.addrs }) (l : Log) : Mapping sb ino e (s.put e m d l) := by
  refine ⟨?_, ?_, ?_⟩
  · rw [s.put_inode]
    exact h.inum_lt
  · rw [s.put_inode]
    dsimp only
    rw [hd]
    exact h.live
  · rw [s.put_inode]
    exact hw.consistent

theorem write_dinode {b o : ℕ} (hb : sb.nmeta ≤ b) {j : ℕ} (hj : j < sb.ninodes) (m : Mem) (W : List (BitVec 8)) :
    dinode sb (write m (b * BSIZE + o) W) j = dinode sb m j := by
  have h₁ := inodeAddr_le sb hj
  have h₂ := sb.bmapstart_le_nmeta
  apply dinode_of_eqOutside (write_eqOutside m _ W)
  change inodeAddr sb j + 64 ≤ b * 1024 + o ∨ _
  omega

theorem Wrote.keeps (h : Wrote sb ino i off W m d m' d') (hi : i < sb.ninodes) (ht : d.type ≠ 0)
    (ht' : d'.type ≠ 0) : Keeps m d m' d' := by
  intro k hk
  have := h.kept (i, k)
  rw [ptr_update_self hi ht, ptr_update_self hi ht'] at this
  exact this hk

/-- The slots that a write of `k` bytes at `off` may need. -/
def rangeSlots (off k : ℕ) : Set ℕ := {x | x = 12 ∨ ∃ y, off ≤ y ∧ y < off + k ∧ x = slotOf (y / BSIZE)}

/-! ## The source -/

variable [UserMemory U]

/-- Byte `j` of the source. -/
def Source.byte (u : U) (src : Source) (j : ℕ) : BitVec 8 :=
  match src with
  | .kernel bytes => bytes.getD j 0
  | .user va => UserMemory.byte u (wrap va j)

/-- The `k` bytes of the source from `tot` on. -/
def Source.bytes (u : U) (src : Source) (tot k : ℕ) : List (BitVec 8) :=
  (List.range k).map fun j => src.byte u (tot + j)

/-- A buffer in the kernel has `n` bytes. -/
def Source.Has (n : ℕ) : Source → Prop
  | .kernel bytes => n ≤ bytes.length
  | .user _ => True

/-- The first `n` bytes of the source can be read. -/
def Source.Readable (u : U) (n : ℕ) : Source → Prop
  | .kernel bytes => n ≤ bytes.length
  | .user va => ∀ j < n, UserMemory.Readable u (wrap va j)

theorem Source.length_bytes (u : U) (src : Source) (tot k : ℕ) : (src.bytes u tot k).length = k := by
  rw [Source.bytes, List.length_map, List.length_range]

theorem Source.bytes_add (u : U) (src : Source) (tot k n : ℕ) :
    src.bytes u tot (k + n) = src.bytes u tot k ++ src.bytes u (tot + k) n := by
  simp only [Source.bytes, List.range_add, List.map_append, List.map_map]
  refine congrArg (_ ++ ·) (List.map_congr_left fun j _ => ?_)
  rw [Function.comp_apply, Nat.add_assoc]

theorem Source.Has.mono {src : Source} (h : src.Has n) (hk : k ≤ n) : src.Has k := by
  cases src with
  | kernel bytes => exact hk.trans h
  | user va => trivial

theorem Source.Readable.mono {u : U} {src : Source} (h : src.Readable u n) (hk : k ≤ n) : src.Readable u k := by
  cases src with
  | kernel bytes => exact hk.trans h
  | user va => exact fun j hj => h j (hj.trans_le hk)

theorem eitherCopyin_length (u : U) (src : Source) (tot k : ℕ) : (eitherCopyin u src tot k).2.length ≤ k := by
  cases src with
  | kernel bytes => exact List.length_take_le _ _
  | user va => exact copyin_length _ _ _

theorem eitherCopyin_bytes {u : U} {src : Source} (h : src.Has (tot + k)) (hr : (eitherCopyin u src tot k).1 ≠ -1) :
    (eitherCopyin u src tot k).2 = src.bytes u tot k := by
  cases src with
  | kernel bytes =>
    have hlen : tot + k ≤ bytes.length := h
    apply List.ext_getElem
    · simp only [eitherCopyin, List.length_take, List.length_drop, Source.length_bytes]
      omega
    · intro j h₁ h₂
      have hj : j < k := by rwa [Source.length_bytes] at h₂
      simp only [eitherCopyin, List.getElem_take, List.getElem_drop, Source.bytes, Source.byte, List.getElem_map,
        List.getElem_range]
      rw [List.getD_eq_getElem _ _ (by omega)]
  | user va =>
    have h0 : (copyin u (wrap va tot) k).1 = 0 := (copyin_result u (wrap va tot) k).resolve_right hr
    have := copyin_bytes _ _ _ h0
    simp only [wrap_wrap] at this
    exact this

theorem eitherCopyin_readable {u : U} {src : Source} (h : src.Readable u (tot + k)) :
    (eitherCopyin u src tot k).1 ≠ -1 := by
  cases src with
  | kernel bytes => exact (by decide : (0 : ℤ) ≠ -1)
  | user va =>
    have h0 : (copyin u (wrap va tot) k).1 = 0 := by
      rw [copyin_eq_zero]
      intro j hj
      rw [wrap_wrap]
      exact h _ (by omega)
    change (copyin u (wrap va tot) k).1 ≠ -1
    rw [h0]
    decide

/-! ## The loop of `writei` -/

/-- What `copyin` leaves in the block when it fails after `c` of `k` bytes have been written. -/
def partialCopy (u : U) (src : Source) (tot off k c : ℕ) : List (BitVec 8) :=
  let r := eitherCopyin u src (tot + c) (min (k - c) (BSIZE - (off + c) % BSIZE))
  if c < k ∧ r.1 = -1 then r.2 else []

theorem partialCopy_self (u : U) (src : Source) (tot off k : ℕ) : partialCopy u src tot off k k = [] :=
  if_neg fun h => lt_irrefl k h.1

theorem partialCopy_add (u : U) (src : Source) (tot off c k c' : ℕ) :
    partialCopy u src tot off (c + k) (c + c') = partialCopy u src (tot + c) (off + c) k c' := by
  unfold partialCopy
  rw [show c + k - (c + c') = k - c' by omega, Nat.add_assoc, Nat.add_assoc]
  simp only [Nat.add_lt_add_iff_left]

/-- What the loop of `writei` does: it writes `c` of `k` bytes, and in case of an error perhaps more. -/
def LoopDone (sb : Superblock) (ino : ℕ → Dinode) (e : Fin NINODE) (src : Source) (tot off k : ℕ) (s : State U)
    (r : ℕ × ℕ) (t : State U) : Prop :=
  ∃ m d l c P, t = s.put e m d l ∧ r = (tot + c, off + c) ∧ c ≤ k ∧
    Wrote sb ino (s.inode e).inum off (src.bytes s.user tot c ++ P) s.disk (s.inode e).copy m d ∧
    d = { (s.inode e).copy with addrs := d.addrs } ∧
    (∀ j < sb.ninodes, dinode sb m j = dinode sb s.disk j) ∧
    Logs sb (Touched sb s.disk (s.inode e).copy m d (rangeSlots off k)) s.log l ∧
    (P = partialCopy s.user src tot off k c ∨ P = [] ∧ ¬ Mapped s.disk (s.inode e).copy (off + c)) ∧
    (src.Readable s.user (tot + k) → P = [] ∧ (c < k → DiskFull sb m))

theorem Mapping.loopDone_zero (h : Mapping sb ino e s) (src : Source) (tot off : ℕ) :
    LoopDone sb ino e src tot off 0 s (tot, off) s :=
  ⟨_, _, _, 0, [], (s.put_self e).symm, rfl, le_rfl, h.wrote_nil off, rfl, fun _ _ => rfl, logs_refl _ _,
    .inl (partialCopy_self _ _ _ _ _).symm, fun _ => ⟨rfl, fun h => absurd h (lt_irrefl 0)⟩⟩

theorem writeLoop_spec (src : Source) :
    ∀ (fuel k tot off : ℕ) (s : State U), k ≤ fuel → Mapping sb ino e s → 0 < s.outstanding →
      off + k ≤ 268 * 1024 → src.Has (tot + k) →
      Ensures (writeLoop sb e src (tot + k) fuel tot off) s (LoopDone sb ino e src tot off k s) NoPanic
  | 0, 0, tot, off, s, _, h, _, _, _ => ensures_pure (h.loopDone_zero src tot off)
  | fuel + 1, k, tot, off, s, hfuel, h, ho, hoff, hsrc => by
    unfold writeLoop
    by_cases hk : k = 0
    · subst hk
      rw [if_neg (by omega)]
      exact ensures_pure (h.loopDone_zero src tot off)
    rw [if_pos (by omega)]
    have hbn : off / BSIZE < 268 := by
      change off / 1024 < 268
      omega
    have hslots : {slotOf (off / BSIZE), 12} ⊆ rangeSlots off k := by
      rintro x (rfl | rfl)
      · exact .inr ⟨off, le_rfl, by omega, rfl⟩
      · exact .inl rfl
    apply ((bmap_spec h ho hbn).and (bmap_zero hbn)).bind (fun _ h => h.1)
    rintro a _ ⟨⟨m, d, l, rfl, hg, hl, ⟨rfl, hfull⟩ | ⟨ha, hslot⟩⟩, hzero⟩
    · refine ensures_pure ⟨m, d, l, 0, [], rfl, rfl, Nat.zero_le _, hg.wrote h.inum_lt h.live off, hg.fields,
        hg.inodes, hl.mono (touched_left (fun _ _ => rfl) hslots), .inr ⟨rfl, fun hmapped => ?_⟩,
        fun _ => ⟨rfl, fun _ => hfull⟩⟩
      exact hmapped (hzero rfl)
    rw [if_neg ha]
    apply ensures_get_bind
    -- The block is there; this pass writes the bytes of the source that belong in it.
    have hmap := h.put hg l
    have hcopy : ((s.put e m d l).inode e).copy = d := by rw [s.put_inode]
    obtain ⟨c, hc⟩ : ∃ c, c = min k (1024 - off % 1024) := ⟨_, rfl⟩
    have hchunk : min (tot + k - tot) (BSIZE - off % BSIZE) = c := by
      rw [hc, Nat.add_sub_cancel_left]
      rfl
    have hcons := hg.consistent
    have hlive : d.type ≠ 0 := hcopy ▸ hmap.live
    have hmapped : Mapped m d off := by
      change slot m d (slotOf (off / BSIZE)) ≠ 0
      rwa [hslot]
    have hblock {W : List (BitVec 8)} (hlen : W.length ≤ c) :
        Wrote sb ino (s.inode e).inum off W m d (write m (a * BSIZE + off % BSIZE) W) d := by
      have hw := wrote_block h.inum_lt hlive hcons hmapped (by omega : off % 1024 + W.length ≤ 1024)
      rwa [hslot] at hw
    have hW {W : List (BitVec 8)} (hlen : W.length ≤ c) :
        Wrote sb ino (s.inode e).inum off W s.disk (s.inode e).copy (write m (a * BSIZE + off % BSIZE) W) d :=
      (hg.wrote h.inum_lt h.live off).trans (hblock hlen)
    have hdata : sb.nmeta ≤ a := by
      have hp := ptr_slotOf h.inum_lt hlive m ino (off / BSIZE)
      rw [hslot] at hp
      rw [← hp]
      exact (hcons.mem (by rwa [hp])).1
    have hinodes {W : List (BitVec 8)} (j : ℕ) (hj : j < sb.ninodes) :
        dinode sb (write m (a * BSIZE + off % BSIZE) W) j = dinode sb s.disk j :=
      (write_dinode hdata hj m W).trans (hg.inodes j hj)
    have hlen := eitherCopyin_length s.user src tot c
    apply ensures_set_bind
    simp only [hchunk, State.put_disk, State.put_user]
    by_cases hr : (eitherCopyin s.user src tot c).1 = -1
    · rw [if_pos hr]
      have hpart : partialCopy s.user src tot off k 0 = (eitherCopyin s.user src tot c).2 := by
        rw [partialCopy, Nat.sub_zero, Nat.add_zero, Nat.add_zero,
          show min k (BSIZE - off % BSIZE) = c from hc.symm]
        exact if_pos ⟨by omega, hr⟩
      refine ensures_pure ⟨_, d, l, 0, _, rfl, rfl, Nat.zero_le _, hW hlen, hg.fields, hinodes,
        hl.mono (touched_left ((hblock hlen).keeps h.inum_lt hlive hlive) hslots), .inl hpart.symm, fun hread => ?_⟩
      exact absurd hr (eitherCopyin_readable (hread.mono (by omega)))
    · rw [if_neg hr]
      have hbytes := eitherCopyin_bytes (hsrc.mono (by omega : tot + c ≤ tot + k)) hr
      rw [hbytes] at hlen ⊢
      have hwrote := hW hlen
      have hkeeps := (hblock hlen).keeps h.inum_lt hlive hlive
      apply (logWrite_spec a (by exact ho)).bind (fun _ => id)
      rintro _ _ ⟨l', rfl, hl'⟩
      obtain ⟨k', rfl⟩ : ∃ k', k = c + k' := ⟨k - c, by omega⟩
      have hmap' := h.put_wrote hwrote hg.fields l'
      have hrec := writeLoop_spec src fuel k' (tot + c) (off + c) _ (by omega) hmap' (by exact ho) (by omega)
        (by rwa [Nat.add_assoc])
      rw [Nat.add_assoc] at hrec
      apply hrec.mono _ (fun _ => id)
      rintro r _ ⟨m', d', l'', c', P, rfl, rfl, hle, hw', hd', hi', hl'', hP, hread⟩
      rw [s.put_inode] at hw' hd' hl'' hP
      rw [State.put_user] at hw' hread hP
      have hd'' : d' = { (s.inode e).copy with addrs := d'.addrs } := by rw [hd', hg.fields]
      have hlive' : d'.type ≠ 0 := by
        rw [hd'']
        exact h.live
      have hkeeps' : Keeps _ d m' d' := hw'.keeps h.inum_lt hlive hlive'
      have hcat := hwrote.trans (by rwa [Source.length_bytes])
      rw [← List.append_assoc, ← Source.bytes_add] at hcat
      have hafter : rangeSlots (off + c) k' ⊆ rangeSlots off (c + k') := by
        rintro x (rfl | ⟨y, h₁, h₂, rfl⟩)
        · exact .inl rfl
        · exact .inr ⟨y, by omega, by omega, rfl⟩
      refine ⟨m', d', l'', c + c', P, s.put_put _ _ _ _ _ _ _, ?_, by omega, hcat, hd'', fun j hj => ?_,
        ((hl.mono ?_).trans (hl'.mono ?_)).trans (hl''.mono ?_), ?_, fun hR => ?_⟩
      · rw [Nat.add_assoc, Nat.add_assoc]
      · exact (hi' j hj).trans (hinodes j hj)
      · intro b hb
        exact touched_left hkeeps' le_rfl (touched_left hkeeps hslots hb)
      · rintro b rfl
        have hnew : slot m' d' (slotOf (off / BSIZE)) = b := by
          have h₁ := hkeeps _ (hslot.trans_ne ha)
          have h₂ := hkeeps' _ ((h₁.trans hslot).trans_ne ha)
          exact (h₂.trans h₁).trans hslot
        exact ⟨_, hslots (.inl rfl), hnew.trans_ne ha, .inl hnew.symm⟩
      · exact touched_right (hwrote.keeps h.inum_lt h.live hlive) hafter
      · rw [partialCopy_add, ← Nat.add_assoc]
        refine hP.imp id fun ⟨hnil, hnot⟩ => ⟨hnil, fun hm => hnot ?_⟩
        exact ((hwrote.keeps h.inum_lt h.live hlive) _ hm).trans_ne hm
      · rw [Nat.add_assoc] at hread
        obtain ⟨hP, hfull⟩ := hread hR
        exact ⟨hP, fun hlt => hfull (by omega)⟩

/-! ## `iupdate` -/

section Iupdate

omit [UserMemory U]

theorem iupdate_spec (ho : 0 < s.outstanding) :
    Ensures (iupdate sb e) s (fun _ t => ∃ l, t =
      s.put e (writeDinode s.disk (inodeAddr sb (s.inode e).inum) (s.inode e).copy) (s.inode e).copy l ∧
      Logs sb {sb.iblock (s.inode e).inum} s.log l) NoPanic := by
  apply ensures_get_bind
  apply ensures_set_bind
  apply (logWrite_spec _ (by exact ho)).mono _ (fun _ => id)
  rintro _ _ ⟨l, rfl, hl⟩
  refine ⟨l, ?_, hl⟩
  unfold State.put State.setCopy State.setInode
  rw [Function.update_eq_self]
  rfl

theorem Consistent.inode_write (h : Consistent sb m ino) (hi : i < sb.ninodes)
    (hm : EqOutside (inodeAddr sb i) 64 m m') {ino' : ℕ → Dinode}
    (hino : ∀ j < sb.ninodes, (ino' j).type = (ino j).type ∧ (ino' j).addrs = (ino j).addrs) :
    Consistent sb m' ino' ∧ ptr sb m' ino' = ptr sb m ino := by
  have h₁ := inodeAddr_le sb hi
  have hptr : ptr sb m' ino' = ptr sb m ino := by
    rw [← h.ptr_metadata hm (h₁.trans (Nat.mul_le_mul_right _ sb.bmapstart_le_nmeta))]
    exact ptr_ino_congr hino m'
  exact ⟨h.of_eqOutside hm (.inl h₁) hptr, hptr⟩

theorem eq_of_inode_write (hi : i < sb.ninodes) (hm : EqOutside (inodeAddr sb i) 64 m m') {b : ℕ}
    (hb : sb.nmeta ≤ b) (o : ℕ) : m' (b * 1024 + o) = m (b * 1024 + o) := by
  have h₁ := inodeAddr_le sb hi
  have h₂ := sb.bmapstart_le_nmeta
  exact hm _ (by omega)

theorem update_same (ino : ℕ → Dinode) (i : ℕ) (ht : d'.type = d.type) (ha : d'.addrs = d.addrs) :
    ∀ j < sb.ninodes, (Function.update ino i d' j).type = (Function.update ino i d j).type ∧
      (Function.update ino i d' j).addrs = (Function.update ino i d j).addrs := by
  intro j _
  by_cases hj : j = i
  · rw [hj, Function.update_self, Function.update_self]
    exact ⟨ht, ha⟩
  · rw [Function.update_of_ne hj, Function.update_of_ne hj]
    exact ⟨rfl, rfl⟩

theorem Wrote.iupdate (h : Wrote sb ino i off W m d m' d') (hi : i < sb.ninodes) (ht : d'.type ≠ 0)
    (hm : EqOutside (inodeAddr sb i) 64 m' m'') (htype : d''.type = d'.type) (haddrs : d''.addrs = d'.addrs) :
    Wrote sb ino i off W m d m'' d'' := by
  obtain ⟨hcons, hptr⟩ := h.consistent.inode_write hi hm (update_same ino i htype haddrs)
  have ht'' : d''.type ≠ 0 := htype ▸ ht
  have hslot (bn : ℕ) : slot m'' d'' (slotOf bn) = slot m' d' (slotOf bn) := by
    rw [← ptr_slotOf hi ht'' m'' ino, hptr, ptr_slotOf hi ht]
  have hbyte {x : ℕ} (hx : Mapped m' d' x) : Mapped m'' d'' x ∧ byteAt m'' d'' x = byteAt m' d' x := by
    have hdata : sb.nmeta ≤ slot m' d' (slotOf (x / BSIZE)) := by
      rw [Mapped, ← ptr_slotOf hi ht m' ino] at hx
      rw [← ptr_slotOf hi ht m' ino]
      exact (h.consistent.mem hx).1
    refine ⟨by rwa [Mapped, hslot], ?_⟩
    rw [byteAt, byteAt, hslot]
    exact eq_of_inode_write hi hm hdata _
  refine ⟨hcons, fun x hx => by rw [hptr, h.kept x hx], fun x hx => by rw [hptr, h.others x hx],
    fun j bn hj hne o ho => ?_, fun x hx hout => ?_, fun j hj => ?_⟩
  · rw [← h.otherBytes j bn hj hne o ho]
    have hne' := h.others (j, slotOf bn) hj
    rw [← hne'] at hne ⊢
    exact eq_of_inode_write hi hm (h.consistent.mem hne).1 o
  · obtain ⟨hx', hb⟩ := h.ownBytes x hx hout
    exact ⟨(hbyte hx').1, (hbyte hx').2.trans hb⟩
  · obtain ⟨hx', hb⟩ := h.written j hj
    exact ⟨(hbyte hx').1, (hbyte hx').2.trans hb⟩

theorem dinode_writeDinode (m : Mem) (i : ℕ) (d : Dinode) : dinode sb (writeDinode m (inodeAddr sb i) d) i = d :=
  readDinode_writeDinode m _ d

theorem dinode_writeDinode_of_ne (m : Mem) (d : Dinode) {j : ℕ} (h : j ≠ i) :
    dinode sb (writeDinode m (inodeAddr sb i) d) j = dinode sb m j :=
  dinode_of_eqOutside (writeDinode_eqOutside m _ d) (inodeAddr_disjoint sb h)

end Iupdate

/-! ## `writei` -/

/-- `writei` refuses the arguments. -/
def Refused (d : Dinode) (off n : ℕ) : Prop := d.size.toNat < off ∨ 2 ^ 32 ≤ off + n ∨ MAXFILE * BSIZE < off + n

/-- `writei` has written `c` bytes and returned that number. -/
def WriteDone (sb : Superblock) (ino : ℕ → Dinode) (e : Fin NINODE) (src : Source) (off n : ℕ) (s : State U) (r : ℤ)
    (t : State U) : Prop :=
  ∃ (m : Mem) (d : Dinode) (l : Log) (c : ℕ) (P : List (BitVec 8)), t = s.put e m d l ∧ r = c ∧ c ≤ n ∧
    Wrote sb ino (s.inode e).inum off (src.bytes s.user 0 c ++ P) s.disk (s.inode e).copy m d ∧
    d = { (s.inode e).copy with
      addrs := d.addrs
      size := BitVec.ofNat 32 (max (s.inode e).copy.size.toNat (off + c)) } ∧
    dinode sb m (s.inode e).inum = d ∧
    (∀ j < sb.ninodes, j ≠ (s.inode e).inum → dinode sb m j = dinode sb s.disk j) ∧
    Logs sb (insert (sb.iblock (s.inode e).inum) (Touched sb s.disk (s.inode e).copy m d (rangeSlots off n))) s.log l ∧
    (P = partialCopy s.user src 0 off n c ∨ P = [] ∧ ¬ Mapped s.disk (s.inode e).copy (off + c)) ∧
    (src.Readable s.user n → P = [] ∧ (c < n → DiskFull sb m))

theorem writei_spec {src : Source} (h : Mapping sb ino e s) (ho : 0 < s.outstanding) (hsrc : src.Has n)
    (hoff : off < 2 ^ 32) (hn : n < 2 ^ 32) :
    Ensures (writei sb e src off n) s (fun r t => (Refused (s.inode e).copy off n ∧ r = -1 ∧ t = s) ∨
      (¬ Refused (s.inode e).copy off n ∧ WriteDone sb ino e src off n s r t)) NoPanic := by
  have hwrap : (off + n) % 2 ^ 32 < off ↔ 2 ^ 32 ≤ off + n := by omega
  apply ensures_get_bind
  unfold Refused
  simp only [hwrap]
  split_ifs with h₁ h₂
  · exact ensures_pure (.inl ⟨by tauto, rfl, rfl⟩)
  · exact ensures_pure (.inl ⟨by tauto, rfl, rfl⟩)
  have hbound : off + n ≤ 268 * 1024 := not_lt.1 h₂
  have hloop := writeLoop_spec src n n 0 off s le_rfl h ho hbound (by rwa [Nat.zero_add])
  rw [Nat.zero_add] at hloop
  apply hloop.bind (fun _ => id)
  rintro _ _ ⟨m, d, l, c, P, rfl, rfl, hle, hw, hd, hinodes, hl, hP, hread⟩
  rw [Nat.zero_add] at hread ⊢
  apply ensures_modify_bind
  rw [State.setCopy_eq_put, s.put_put, s.put_inode]
  obtain ⟨d', hd'⟩ : ∃ d' : Dinode,
      d' = { d with size := BitVec.ofNat 32 (max (s.inode e).copy.size.toNat (off + c)) } := ⟨_, rfl⟩
  have hsize : (if d.size.toNat < off + c then { d with size := BitVec.ofNat 32 (off + c) } else d) = d' := by
    have hds : d.size = (s.inode e).copy.size := by rw [hd]
    rw [hd']
    split_ifs with hlt
    · rw [← hds, Nat.max_eq_right hlt.le]
    · rw [← hds, Nat.max_eq_left (by omega), BitVec.ofNat_toNat, BitVec.setWidth_eq]
  dsimp only [State.put_disk]
  rw [hsize]
  apply (iupdate_spec (by exact ho)).bind (fun _ => id)
  rintro _ _ ⟨l', rfl, hl'⟩
  rw [s.put_put, s.put_inode]
  rw [s.put_inode] at hl'
  have hlive : d.type ≠ 0 := by
    rw [hd]
    exact h.live
  have htype : d'.type = d.type := by rw [hd']
  have haddrs : d'.addrs = d.addrs := by rw [hd']
  have hout := writeDinode_eqOutside m (inodeAddr sb (s.inode e).inum) d'
  have hwrote := hw.iupdate h.inum_lt hlive hout htype haddrs
  refine ensures_pure (.inr ⟨by tauto, _, _, l', c, P, rfl, rfl, hle, hwrote, ?_, ?_, fun j hj hne => ?_,
    (hl.mono ?_).trans (hl'.mono ?_), hP, ?_⟩)
  · rw [hd', hd]
  · exact dinode_writeDinode _ _ _
  · exact (dinode_writeDinode_of_ne _ _ hne).trans (hinodes j hj)
  · refine Set.Subset.trans ?_ (Set.subset_insert _ _)
    apply touched_left _ le_rfl
    intro k _
    rw [← ptr_update_self h.inum_lt hlive m ino, ← ptr_update_self h.inum_lt (htype.trans_ne hlive) _ ino]
    exact congrFun (hw.consistent.inode_write h.inum_lt hout (update_same ino _ htype haddrs)).2 _
  · exact Set.singleton_subset_iff.2 (Set.mem_insert _ _)
  · intro hR
    refine ⟨(hread hR).1, fun hlt b hb => ?_⟩
    have hfull := (hread hR).2 hlt b hb
    rwa [← bit_of_eqOutside (writeDinode_eqOutside m _ _) hb (.inl (inodeAddr_le sb h.inum_lt))] at hfull

end Xv6.Fs
