import Xv6.Fs.Alloc

/-!
# The bytes of a file

`byteAt m d x` is the byte at offset `x` of the file with inode `d`.  In a file without holes every offset
below the size is in a block, so that `readi` changes nothing but its destination.
-/

namespace Xv6.Fs

open Kernel Memory UserMemory

def byteAt (m : Mem) (d : Dinode) (x : ℕ) : BitVec 8 := m (slot m d (slotOf (x / BSIZE)) * BSIZE + x % BSIZE)

def bytesAt (m : Mem) (d : Dinode) (off n : ℕ) : List (BitVec 8) := (List.range n).map fun j => byteAt m d (off + j)

def content (m : Mem) (d : Dinode) : List (BitVec 8) := bytesAt m d 0 d.size.toNat

/-- The file has a block for offset `x`. -/
def Mapped (m : Mem) (d : Dinode) (x : ℕ) : Prop := slot m d (slotOf (x / BSIZE)) ≠ 0

/-- The file has no holes and is not too long. -/
structure Full (m : Mem) (d : Dinode) : Prop where
  size_le : d.size.toNat ≤ MAXFILE * BSIZE
  mapped : ∀ x < d.size.toNat, Mapped m d x

variable {U : Type} {sb : Superblock} {s t : State U} {m m' : Mem} {d d' : Dinode} {e : Fin NINODE}
  {off n k tot : ℕ}

theorem length_bytesAt (m : Mem) (d : Dinode) (off n : ℕ) : (bytesAt m d off n).length = n := by
  rw [bytesAt, List.length_map, List.length_range]

theorem getD_bytesAt (m : Mem) (d : Dinode) (off : ℕ) (hk : k < n) : (bytesAt m d off n).getD k 0 = byteAt m d (off + k) := by
  rw [List.getD_eq_getElem _ _ (by rwa [length_bytesAt])]
  simp only [bytesAt, List.getElem_map, List.getElem_range]

theorem bytesAt_add (m : Mem) (d : Dinode) (off k n : ℕ) :
    bytesAt m d off (k + n) = bytesAt m d off k ++ bytesAt m d (off + k) n := by
  simp only [bytesAt, List.range_add, List.map_append, List.map_map]
  refine congrArg (_ ++ ·) (List.map_congr_left fun j _ => ?_)
  rw [Function.comp_apply, Nat.add_assoc]

theorem read_block (m : Mem) (d : Dinode) (h : off % 1024 + n ≤ 1024) :
    read m (slot m d (slotOf (off / BSIZE)) * BSIZE + off % BSIZE) n = bytesAt m d off n := by
  apply List.map_congr_left
  intro j hj
  have hj := List.mem_range.1 hj
  have h₁ : (off + j) / BSIZE = off / BSIZE := by
    change (off + j) / 1024 = off / 1024
    omega
  have h₂ : (off + j) % BSIZE = off % BSIZE + j := by
    change (off + j) % 1024 = off % 1024 + j
    omega
  rw [byteAt, h₁, h₂, Nat.add_assoc]

/-! ## `readi` -/

theorem wrap_wrap (va i j : ℕ) : wrap (wrap va i) j = wrap va (i + j) := by
  unfold wrap
  omega

theorem wrap_ne {va i j : ℕ} (hi : i < 2 ^ 64) (hj : j < 2 ^ 64) (h : i ≠ j) : wrap va i ≠ wrap va j := by
  unfold wrap
  omega

variable [UserMemory U]

/-- The destination has room for `n` bytes. -/
def Dest.Writable (u : U) (n : ℕ) : Dest → Prop
  | .kernel => True
  | .user va => ∀ j < n, UserMemory.Writable u (wrap va j)

/-- The bytes are at the destination from `tot` on, and nothing else has changed. -/
def Copied (dst : Dest) (tot : ℕ) (bytes : List (BitVec 8)) (u u' : U) : Prop :=
  match dst with
  | .kernel => u' = u
  | .user va => (∀ j < bytes.length, UserMemory.Writable u (wrap va (tot + j)) ∧ byte u' (wrap va (tot + j)) = bytes.getD j 0) ∧
    (∀ x, Readable u x → (∀ j < bytes.length, x ≠ wrap va (tot + j)) → byte u' x = byte u x) ∧
    (∀ x, UserMemory.Writable u' x ↔ UserMemory.Writable u x) ∧ ∀ x, Readable u' x ↔ Readable u x

theorem copied_nil (dst : Dest) (tot : ℕ) (u : U) : Copied dst tot [] u u := by
  cases dst with
  | kernel => rfl
  | user va => exact ⟨by simp, fun _ _ _ => rfl, fun _ => Iff.rfl, fun _ => Iff.rfl⟩

theorem Copied.writable {dst : Dest} {bytes : List (BitVec 8)} {u u' : U} (h : Copied dst tot bytes u u') :
    dst.Writable u' n ↔ dst.Writable u n := by
  cases dst with
  | kernel => exact Iff.rfl
  | user va => exact forall₂_congr fun j _ => h.2.2.1 _

theorem Copied.append {dst : Dest} {bs cs : List (BitVec 8)} {u u' u'' : U} (h : Copied dst tot bs u u')
    (h' : Copied dst (tot + bs.length) cs u' u'') (hlt : tot + bs.length + cs.length < 2 ^ 64) :
    Copied dst tot (bs ++ cs) u u'' := by
  cases dst with
  | kernel => exact h'.trans h
  | user va =>
    obtain ⟨h₁, h₂, h₃, h₄⟩ := h
    obtain ⟨h₁', h₂', h₃', h₄'⟩ := h'
    have hlen : (bs ++ cs).length = bs.length + cs.length := List.length_append
    refine ⟨fun j hj => ?_, fun x hr hx => ?_, fun x => (h₃' x).trans (h₃ x), fun x => (h₄' x).trans (h₄ x)⟩
    · by_cases hb : j < bs.length
      · obtain ⟨hw, hbyte⟩ := h₁ j hb
        refine ⟨hw, ?_⟩
        rw [h₂' _ ((h₄ _).2 (readable_of_writable _ _ hw)), hbyte, List.getD_append _ _ _ _ hb]
        intro k hk
        exact wrap_ne (by omega) (by omega) (by omega)
      · obtain ⟨hw, hbyte⟩ := h₁' (j - bs.length) (by omega)
        rw [show tot + bs.length + (j - bs.length) = tot + j by omega] at hw hbyte
        refine ⟨(h₃ _).1 hw, ?_⟩
        rw [hbyte, List.getD_append_right _ _ _ _ (by omega)]
    · rw [h₂' x ((h₄ x).2 hr), h₂ x hr]
      · exact fun j hj => hx j (by omega)
      · intro j hj
        rw [Nat.add_assoc]
        exact hx _ (by omega)

theorem eitherCopyout_run (dst : Dest) (tot : ℕ) (bytes : List (BitVec 8)) (s : State U) :
    ∃ r u, eitherCopyout dst tot bytes s = .ok (r, { s with user := u }) ∧ (r = 0 ∨ r = -1) ∧
      (dst.Writable s.user (tot + bytes.length) → r = 0 ∧ Copied dst tot bytes s.user u) := by
  cases dst with
  | kernel => exact ⟨0, s.user, rfl, .inl rfl, fun _ => ⟨rfl, rfl⟩⟩
  | user va =>
    refine ⟨_, _, rfl, copyout_result _ _ _, fun h => ?_⟩
    have h0 : (copyout s.user (wrap va tot) bytes).1 = 0 := by
      rw [copyout_eq_zero]
      intro j hj
      rw [wrap_wrap]
      exact h _ (by omega)
    have hbyte := copyout_byte _ _ _ h0
    have hother := copyout_other s.user (wrap va tot) bytes
    simp only [wrap_wrap] at hbyte hother
    exact ⟨h0, fun j hj => ⟨h _ (by omega), hbyte j hj⟩, hother, copyout_writable _ _ _, copyout_readable _ _ _⟩

theorem readLoop_run (sb : Superblock) (hfull : Full s.disk (s.inode e).copy) (dst : Dest) :
    ∀ (fuel k tot off : ℕ) (out : List (BitVec 8)) (u : U), k ≤ fuel →
      off + k ≤ (s.inode e).copy.size.toNat →
      ∃ r out' u', readLoop sb e dst (tot + k) fuel tot off out { s with user := u } =
        .ok ((r, out'), { s with user := u' }) ∧
        (dst.Writable u (tot + k) → tot + k < 2 ^ 64 → r = ((tot + k : ℕ) : ℤ) ∧
          out' = out ++ bytesAt s.disk (s.inode e).copy off k ∧
          Copied dst tot (bytesAt s.disk (s.inode e).copy off k) u u')
  | 0, 0, tot, off, out, u, _, _ =>
    ⟨_, _, u, rfl, fun _ _ => ⟨rfl, (List.append_nil out).symm, copied_nil dst tot u⟩⟩
  | fuel + 1, k, tot, off, out, u, hfuel, hoff => by
    unfold readLoop
    by_cases hk : k = 0
    · subst hk
      rw [if_neg (by omega)]
      exact ⟨_, _, u, rfl, fun _ _ => ⟨rfl, (List.append_nil out).symm, copied_nil dst tot u⟩⟩
    · rw [if_pos (by omega)]
      have hsize : off < (s.inode e).copy.size.toNat := by omega
      have hmapped := hfull.mapped off hsize
      have hbn : off / BSIZE < 268 := by
        have : (s.inode e).copy.size.toNat ≤ 268 * 1024 := hfull.size_le
        change off / 1024 < 268
        omega
      have hbmap : bmap sb e (off / BSIZE) { s with user := u } =
          .ok (slot s.disk (s.inode e).copy (slotOf (off / BSIZE)), { s with user := u }) := bmap_mapped hbn hmapped
      -- The bytes of this pass are those of one block.
      obtain ⟨c, hc⟩ : ∃ c, c = min k (1024 - off % 1024) := ⟨_, rfl⟩
      have hchunk : min (tot + k - tot) (BSIZE - off % BSIZE) = c := by
        rw [hc, Nat.add_sub_cancel_left]
        rfl
      obtain ⟨l, rfl⟩ : ∃ l, k = c + l := ⟨k - c, by omega⟩
      have hread := read_block s.disk (s.inode e).copy (by omega : off % 1024 + c ≤ 1024)
      obtain ⟨r, u', hrun, hr, hcopied⟩ := eitherCopyout_run dst tot (bytesAt s.disk (s.inode e).copy off c)
        { s with user := u }
      rw [run_bind hbmap, if_neg hmapped, run_bind (run_get _)]
      dsimp only
      rw [hchunk, hread, run_bind hrun]
      rw [length_bytesAt] at hcopied
      obtain rfl | rfl := hr
      · rw [if_neg (by decide)]
        obtain ⟨r, out', u'', hrec, hall⟩ := readLoop_run sb hfull dst fuel l (tot + c) (off + c)
          (out ++ bytesAt s.disk (s.inode e).copy off c) u' (by omega) (by omega)
        rw [Nat.add_assoc] at hrec hall
        refine ⟨r, out', u'', hrec, fun hw hlt => ?_⟩
        have hcopy : Copied dst tot (bytesAt s.disk (s.inode e).copy off c) u u' := by
          apply (hcopied _).2
          cases dst with
          | kernel => trivial
          | user va => exact fun j hj => hw j (by omega)
        obtain ⟨rfl, rfl, hrest⟩ := hall (hcopy.writable.2 hw) hlt
        rw [bytesAt_add, ← List.append_assoc]
        refine ⟨rfl, rfl, hcopy.append ?_ ?_⟩
        · rwa [length_bytesAt]
        · rw [length_bytesAt, length_bytesAt]
          omega
      · rw [if_pos rfl]
        refine ⟨_, _, u', rfl, fun hw _ => ?_⟩
        have := (hcopied (by
          cases dst with
          | kernel => trivial
          | user va => exact fun j hj => hw j (by omega))).1
        cases this

/-- The number of bytes that `readi` delivers. -/
def readCount (d : Dinode) (off n : ℕ) : ℕ :=
  if d.size.toNat < off ∨ 2 ^ 32 ≤ off + n then 0 else min n (d.size.toNat - off)

/-- `readi` in a file without holes changes nothing but the destination.  If the destination has room it
delivers the bytes of the file. -/
theorem readi_run (hfull : Full s.disk (s.inode e).copy) (dst : Dest) (hoff : off < 2 ^ 32) (hn : n < 2 ^ 32) :
    ∃ r out u, readi sb e dst off n s = .ok ((r, out), { s with user := u }) ∧
      (dst.Writable s.user (readCount (s.inode e).copy off n) →
        r = (readCount (s.inode e).copy off n : ℤ) ∧
        out = bytesAt s.disk (s.inode e).copy off (readCount (s.inode e).copy off n) ∧
        Copied dst 0 out s.user u) := by
  have hwrap : (off + n) % 2 ^ 32 < off ↔ 2 ^ 32 ≤ off + n := by omega
  unfold readi
  rw [run_bind (run_get s)]
  dsimp only
  unfold readCount
  simp only [hwrap]
  split_ifs with h₁ h₂
  · exact ⟨_, _, _, rfl, fun _ => ⟨rfl, rfl, copied_nil dst 0 s.user⟩⟩
  · rw [Nat.min_eq_right (by omega)]
    obtain ⟨r, out, u, hrun, hall⟩ := readLoop_run sb hfull dst ((s.inode e).copy.size.toNat - off)
      ((s.inode e).copy.size.toNat - off) 0 off [] s.user le_rfl (by omega)
    rw [Nat.zero_add] at hrun hall
    refine ⟨r, out, u, hrun, fun hw => ?_⟩
    obtain ⟨rfl, rfl, hc⟩ := hall hw (by omega)
    exact ⟨rfl, rfl, hc⟩
  · rw [Nat.min_eq_left (by omega)]
    obtain ⟨r, out, u, hrun, hall⟩ := readLoop_run sb hfull dst n n 0 off [] s.user le_rfl (by omega)
    rw [Nat.zero_add] at hrun hall
    refine ⟨r, out, u, hrun, fun hw => ?_⟩
    obtain ⟨rfl, rfl, hc⟩ := hall hw (by omega)
    exact ⟨rfl, rfl, hc⟩

end Xv6.Fs
