import Xv6.Fs.Within
import Xv6.Lib.Slots

/-!
# Directories

The content of a directory is a sequence of entries, each of them free or the binding of a name to an inode
number: `slots data` is the finite map of `Xv6.Lib.Slots`.  Names are compared by `namecmp`, that is by
their first `DIRSIZ` bytes before a null: `key`.

The loops of `dirlookup`, `dirlink` and `isdirempty` change nothing.  They compute `Slots.find`, `Slots.free`
and whether all slots are free.  An entry is in one block, so that it is written as a whole or not at all.
-/

namespace Xv6.Fs

open Kernel Memory

/-! ## Names -/

/-- The part of a name that counts. -/
def key (name : List (BitVec 8)) : List (BitVec 8) := (name.takeWhile (· ≠ 0)).take DIRSIZ

variable {U : Type} {sb : Superblock} {c s t : State U} {T : Tree} {H : Multiset (Fin NINODE)}
  {L : Finset (Fin NINODE)} {B : Set ℕ} {e dp : Fin NINODE} {E : Panic → Prop} {n : Node} {de : Dirent}
  {data W name p q : List (BitVec 8)} {k i inum : ℕ}

theorem take_takeWhile_succ (p : List (BitVec 8)) (n : ℕ) : (p.takeWhile (· ≠ 0)).take (n + 1) =
    if p.headD 0 = 0 then [] else p.headD 0 :: (p.tail.takeWhile (· ≠ 0)).take n := by
  cases p with
  | nil => simp
  | cons a p =>
    rw [List.takeWhile_cons, List.headD_cons, List.tail_cons]
    by_cases ha : a = 0
    · rw [if_pos ha, if_neg (by simp [ha]), List.take_nil]
    · rw [if_neg ha, if_pos (decide_eq_true ha), List.take_succ_cons]

theorem strncmp_eq_zero_iff (p q : List (BitVec 8)) (n : ℕ) :
    strncmp p q n = 0 ↔ (p.takeWhile (· ≠ 0)).take n = (q.takeWhile (· ≠ 0)).take n := by
  induction n generalizing p q with
  | zero => simp [strncmp]
  | succ n ih =>
    rw [strncmp, take_takeWhile_succ, take_takeWhile_succ]
    by_cases hp : p.headD 0 = 0
    · rw [if_neg fun h => h.1 hp, if_pos hp, hp]
      by_cases hq : q.headD 0 = 0
      · rw [if_pos hq, hq]
        exact iff_of_true (Int.sub_self _) rfl
      · have : (q.headD 0).toNat ≠ 0 := fun h => hq (BitVec.eq_of_toNat_eq h)
        rw [if_neg hq]
        refine iff_of_false ?_ (by simp)
        change ((0 : ℕ) : ℤ) - (q.headD 0).toNat ≠ 0
        omega
    · rw [if_neg hp]
      by_cases hpq : p.headD 0 = q.headD 0
      · rw [if_pos ⟨hp, hpq⟩, ih, if_neg (hpq ▸ hp), hpq, List.cons.injEq, and_iff_right rfl]
      · rw [if_neg fun h => hpq h.2]
        refine iff_of_false ?_ ?_
        · have : (p.headD 0).toNat ≠ (q.headD 0).toNat := fun h => hpq (BitVec.eq_of_toNat_eq h)
          omega
        · split_ifs with hq
          · simp
          · exact fun h => hpq (List.cons.inj h).1

theorem namecmp_eq_zero_iff : namecmp p q = 0 ↔ key p = key q := strncmp_eq_zero_iff p q DIRSIZ

theorem length_strncpy (name : List (BitVec 8)) (n : ℕ) : (strncpy name n).length = n := by
  induction n generalizing name with
  | zero => rfl
  | succ n ih =>
    rw [strncpy]
    split_ifs
    · rw [List.length_replicate]
    · rw [List.length_cons, ih]

theorem take_takeWhile_strncpy (name : List (BitVec 8)) (n : ℕ) :
    ((strncpy name n).takeWhile (· ≠ 0)).take n = (name.takeWhile (· ≠ 0)).take n := by
  induction n generalizing name with
  | zero => rfl
  | succ n ih =>
    rw [take_takeWhile_succ, take_takeWhile_succ name, strncpy]
    by_cases h : name.headD 0 = 0
    · rw [if_pos h, if_pos h]
      simp [List.replicate_succ]
    · rw [if_neg h, if_neg h, List.headD_cons, List.tail_cons, if_neg h, ih]

theorem key_strncpy (name : List (BitVec 8)) : key (strncpy name DIRSIZ) = key name := take_takeWhile_strncpy name DIRSIZ

/-! ## Entries -/

/-- The binding in an entry. -/
def Dirent.slot (de : Dirent) : Option (List (BitVec 8) × ℕ) :=
  if de.inum = 0 then none else some (key de.name, de.inum)

def dirents (data : List (BitVec 8)) : List Dirent :=
  (List.range (data.length / DESIZE)).map fun k => .ofBytes ((data.drop (k * DESIZE)).take DESIZE)

def slots (data : List (BitVec 8)) : List (Option (List (BitVec 8) × ℕ)) := (dirents data).map Dirent.slot

theorem length_dirents (data : List (BitVec 8)) : (dirents data).length = data.length / 16 := by
  rw [dirents, List.length_map, List.length_range]
  rfl

theorem length_slots (data : List (BitVec 8)) : (slots data).length = data.length / 16 := by
  rw [slots, List.length_map, length_dirents]

theorem getElem?_dirents (h : k < data.length / 16) :
    (dirents data)[k]? = some (.ofBytes ((data.drop (k * 16)).take 16)) := by
  have h' : k < data.length / DESIZE := h
  rw [dirents, List.getElem?_map, List.getElem?_range h']
  rfl

theorem getElem?_slots (h : k < data.length / 16) :
    (slots data)[k]? = some (Dirent.ofBytes ((data.drop (k * 16)).take 16)).slot := by
  rw [slots, List.getElem?_map, getElem?_dirents h]
  rfl

theorem drop_slots (data : List (BitVec 8)) (h : k < data.length / 16) :
    (slots data).drop k = (Dirent.ofBytes ((data.drop (k * 16)).take 16)).slot :: (slots data).drop (k + 1) := by
  have hlt : k < (slots data).length := by rwa [length_slots]
  rw [List.drop_eq_getElem_cons hlt]
  refine congrArg (· :: _) (Option.some_inj.1 ?_)
  rw [← List.getElem?_eq_getElem hlt, getElem?_slots h]

theorem ofBytes_bytes (h : inum < 2 ^ 16) : Dirent.ofBytes (Dirent.bytes ⟨inum, name⟩) = ⟨inum, name⟩ := by
  unfold Dirent.ofBytes Dirent.bytes
  congr 1
  change (BitVec.ofNat 8 inum).toNat + 256 * (BitVec.ofNat 8 (inum / 256)).toNat = inum
  rw [BitVec.toNat_ofNat, BitVec.toNat_ofNat]
  omega

/-- The slots after an entry has been written. -/
theorem slots_overwrite (hdiv : 16 ∣ data.length) (hk : k ≤ data.length / 16) (hW : W.length = 16) :
    slots (overwrite data (k * 16) W) = Slots.put (slots data) k (Dirent.ofBytes W).slot := by
  have hoff : k * 16 ≤ data.length := by omega
  have hlen : (overwrite data (k * 16) W).length / 16 = max (data.length / 16) (k + 1) := by
    rw [length_overwrite hoff, hW]
    omega
  have hle : k ≤ (slots data).length := by rwa [length_slots]
  refine List.ext_getElem? fun j => ?_
  by_cases hj : j < max (data.length / 16) (k + 1)
  · rw [getElem?_slots (by rwa [hlen])]
    by_cases hjk : j = k
    · subst hjk
      rw [Slots.getElem?_put_self hle]
      congr 3
      rw [overwrite, List.append_assoc, List.drop_left' (by rw [List.length_take]; omega), List.take_left' hW]
    · rw [Slots.getElem?_put_of_ne hle hjk, getElem?_slots (by omega)]
      congr 3
      have hlenL : (((overwrite data (k * 16) W).drop (j * 16)).take 16).length = 16 := by
        rw [List.length_take, List.length_drop, length_overwrite hoff]
        omega
      have hlenR : ((data.drop (j * 16)).take 16).length = 16 := by
        rw [List.length_take, List.length_drop]
        omega
      rw [eq_iff_getD (hlenL.trans hlenR.symm), hlenL]
      intro x hx
      have hgetD (l : List (BitVec 8)) : ((l.drop (j * 16)).take 16).getD x 0 = l.getD (j * 16 + x) 0 := by
        simp only [List.getD_eq_getElem?_getD, List.getElem?_take_of_lt hx, List.getElem?_drop]
      rw [hgetD, hgetD, getD_overwrite hoff, if_neg (by omega)]
  · rw [List.getElem?_eq_none (by rw [length_slots, hlen]; omega), List.getElem?_eq_none]
    rw [Slots.put, length_slots]
    split_ifs
    · rw [List.length_set, length_slots]
      omega
    · rw [List.length_append, length_slots, List.length_singleton]
      omega

/-! ## The loops -/

/-- A directory has whole entries. -/
structure IsDir (n : Node) : Prop where
  type : n.type = T_DIR
  whole : 16 ∣ n.data.length

section Loops

variable [UserMemory U]

theorem readDirent_run (hfull : Full s.disk (s.inode e).copy) (hdiv : 16 ∣ (s.inode e).copy.size.toNat)
    (hk : k < (s.inode e).copy.size.toNat / 16) (panic : Panic) :
    readDirent sb e (k * 16) panic s =
      .ok (.ofBytes (((content s.disk (s.inode e).copy).drop (k * 16)).take 16), s) := by
  have hmax : (s.inode e).copy.size.toNat ≤ 268 * 1024 := hfull.size_le
  obtain ⟨r, out, u, (hrun : readi sb e .kernel (k * 16) 16 s = _), hall⟩ :=
    readi_run hfull .kernel (by omega : k * 16 < 2 ^ 32) (by decide : 16 < 2 ^ 32)
  obtain ⟨rfl, rfl, hu⟩ := hall trivial
  have hcount : readCount (s.inode e).copy (k * 16) 16 = 16 := by
    rw [readCount, if_neg (by omega)]
    omega
  have hstate : { s with user := u } = s := by rw [show u = s.user from hu]
  rw [hcount, hstate] at hrun
  change readi sb e .kernel (k * 16) DESIZE s = _ at hrun
  rw [readDirent, run_bind hrun, take_drop_content _ _ (.inl (by omega))]
  rfl

variable (hfull : Full s.disk (s.inode dp).copy) (hdiv : 16 ∣ (s.inode dp).copy.size.toNat)

include hfull hdiv

theorem dirlookupLoop_run (sb : Superblock) (name : List (BitVec 8)) : ∀ (fuel k : ℕ), (s.inode dp).copy.size.toNat / 16 < fuel + k →
    dirlookupLoop sb dp name fuel (k * 16) s =
      match Slots.find (key name) ((slots (content s.disk (s.inode dp).copy)).drop k) with
      | none => .ok (none, s)
      | some (j, i) => (do
          let ip ← iget i
          pure (some (ip, (k + j) * 16)) : F U _) s
  | 0, k, hfuel => by
    rw [List.drop_eq_nil_of_le (by rw [length_slots, length_content]; omega)]
    rfl
  | fuel + 1, k, hfuel => by
    rw [dirlookupLoop, run_bind (run_get s)]
    by_cases hk : k < (s.inode dp).copy.size.toNat / 16
    · have hslot := drop_slots (content s.disk (s.inode dp).copy) (by rwa [length_content] : k < _)
      have hrec := dirlookupLoop_run sb name fuel (k + 1) (by omega)
      rw [Nat.succ_mul] at hrec
      have hshift (h : ∀ v, (Dirent.ofBytes (((content s.disk (s.inode dp).copy).drop (k * 16)).take 16)).slot ≠
          some (key name, v)) : dirlookupLoop sb dp name fuel (k * 16 + DESIZE) s =
          match Slots.find (key name) ((slots (content s.disk (s.inode dp).copy)).drop k) with
          | none => .ok (none, s)
          | some (j, i) => (do
              let ip ← iget i
              pure (some (ip, (k + j) * 16)) : F U _) s := by
        rw [hslot, Slots.find_cons_of_notMem h]
        refine hrec.trans ?_
        cases Slots.find (key name) ((slots (content s.disk (s.inode dp).copy)).drop (k + 1)) with
        | none => rfl
        | some x =>
          simp only [Option.map_some]
          rw [show k + 1 + x.1 = k + (x.1 + 1) by omega]
      rw [if_pos (by omega), run_bind (readDirent_run hfull hdiv hk _)]
      generalize Dirent.ofBytes (((content s.disk (s.inode dp).copy).drop (k * 16)).take 16) = de at hslot hshift
      by_cases h0 : de.inum = 0
      · rw [if_pos h0]
        apply hshift
        intro v
        rw [Dirent.slot, if_pos h0]
        simp
      · rw [if_neg h0]
        by_cases hcmp : namecmp name de.name = 0
        · rw [if_pos hcmp, hslot, Slots.find_cons_of_mem (v := de.inum)]
          · rfl
          · rw [Dirent.slot, if_neg h0, namecmp_eq_zero_iff.1 hcmp]
        · rw [if_neg hcmp]
          apply hshift
          intro v hv
          rw [Dirent.slot, if_neg h0, Option.some_inj, Prod.mk.injEq] at hv
          exact hcmp (namecmp_eq_zero_iff.2 hv.1.symm)
    · rw [if_neg (by omega), List.drop_eq_nil_of_le (by rw [length_slots, length_content]; omega)]
      rfl

theorem dirlinkLoop_run (sb : Superblock) : ∀ (fuel k : ℕ), (s.inode dp).copy.size.toNat / 16 < fuel + k → k ≤ (s.inode dp).copy.size.toNat / 16 →
    dirlinkLoop sb dp fuel (k * 16) s =
      .ok ((k + Slots.free ((slots (content s.disk (s.inode dp).copy)).drop k)) * 16, s)
  | 0, k, hfuel, hle => by omega
  | fuel + 1, k, hfuel, hle => by
    rw [dirlinkLoop, run_bind (run_get s)]
    by_cases hk : k < (s.inode dp).copy.size.toNat / 16
    · have hslot := drop_slots (content s.disk (s.inode dp).copy) (by rwa [length_content] : k < _)
      have hrec := dirlinkLoop_run sb fuel (k + 1) (by omega) (by omega)
      rw [Nat.succ_mul] at hrec
      rw [if_pos (by omega), run_bind (readDirent_run hfull hdiv hk _), hslot]
      generalize Dirent.ofBytes (((content s.disk (s.inode dp).copy).drop (k * 16)).take 16) = de
      by_cases h0 : de.inum = 0
      · rw [if_pos h0, Slots.free, List.findIdx_cons, Dirent.slot, if_pos h0]
        rfl
      · rw [if_neg h0, Slots.free, List.findIdx_cons, Dirent.slot, if_neg h0]
        refine hrec.trans ?_
        rw [Slots.free, show k + 1 + List.findIdx Option.isNone ((slots (content s.disk (s.inode dp).copy)).drop (k + 1)) =
          k + (List.findIdx Option.isNone ((slots (content s.disk (s.inode dp).copy)).drop (k + 1)) + 1) by omega]
        rfl
    · rw [if_neg (by omega), List.drop_eq_nil_of_le (by rw [length_slots, length_content]; omega)]
      rfl

theorem isdiremptyLoop_run : ∀ (fuel k : ℕ), (s.inode dp).copy.size.toNat / 16 < fuel + k →
    isdiremptyLoop sb dp fuel (k * 16) s =
      .ok (((slots (content s.disk (s.inode dp).copy)).drop k).all Option.isNone, s)
  | 0, k, hfuel => by
    rw [List.drop_eq_nil_of_le (by rw [length_slots, length_content]; omega)]
    rfl
  | fuel + 1, k, hfuel => by
    rw [isdiremptyLoop, run_bind (run_get s)]
    by_cases hk : k < (s.inode dp).copy.size.toNat / 16
    · have hslot := drop_slots (content s.disk (s.inode dp).copy) (by rwa [length_content] : k < _)
      have hrec := isdiremptyLoop_run fuel (k + 1) (by omega)
      rw [Nat.succ_mul] at hrec
      rw [if_pos (by omega), run_bind (readDirent_run hfull hdiv hk _), hslot]
      generalize Dirent.ofBytes (((content s.disk (s.inode dp).copy).drop (k * 16)).take 16) = de
      rw [List.all_cons, Dirent.slot]
      by_cases h0 : de.inum = 0
      · rw [if_neg (not_not_intro h0), if_pos h0]
        exact hrec
      · rw [if_pos h0, if_neg h0]
        rfl
    · rw [if_neg (by omega), List.drop_eq_nil_of_le (by rw [length_slots, length_content]; omega)]
      rfl

end Loops

/-! ## Writing an entry -/

section Write

variable [UserMemory U]

/-- A write in one block writes everything or nothing.  If the block is there, only the source can be the
reason for that. -/
theorem writeLoop_block {src : Source} {off k : ℕ} (h : off % 1024 + k ≤ 1024) (hoff : off + k ≤ 268 * 1024) :
    Ensures (writeLoop sb e src k k 0 off) s (fun r _ => r.1 = k ∨
      r.1 = 0 ∧ (Mapped s.disk (s.inode e).copy off → (eitherCopyin s.user src 0 k).1 = -1)) fun _ => True := by
  have hdone (Q : Prop) (fuel off : ℕ) (t : State U) :
      Ensures (writeLoop sb e src k fuel k off) t (fun r _ => r.1 = k ∨ r.1 = 0 ∧ Q) fun _ => True := by
    cases fuel with
    | zero => exact ensures_pure (.inl rfl)
    | succ fuel =>
      rw [writeLoop, if_neg (Nat.lt_irrefl k)]
      exact ensures_pure (.inl rfl)
  cases k with
  | zero => exact ensures_pure (.inl rfl)
  | succ k =>
    have hmin : min (k + 1 - 0) (BSIZE - off % BSIZE) = k + 1 := by
      change min (k + 1 - 0) (1024 - off % 1024) = k + 1
      omega
    have hbmap : Ensures (bmap sb e (off / BSIZE)) s (fun a t => Mapped s.disk (s.inode e).copy off → a ≠ 0 ∧ t = s)
        fun _ => True := by
      by_cases hm : Mapped s.disk (s.inode e).copy off
      · refine ensures_of_eq (bmap_mapped ?_ hm) fun _ => ⟨hm, rfl⟩
        change off / 1024 < 268
        omega
      · exact ensures_true.mono (fun _ _ _ hm' => absurd hm' hm) (fun _ => id)
    rw [writeLoop, if_pos (Nat.succ_pos k)]
    apply hbmap.bind (fun _ => id)
    intro addr t haddr
    split_ifs with h0
    · exact ensures_pure (.inr ⟨rfl, fun hm => absurd h0 (haddr hm).1⟩)
    · apply ensures_get_bind
      rw [hmin]
      dsimp only
      rw [Nat.zero_add]
      apply ensures_set_bind
      split_ifs with hr
      · refine ensures_pure (.inr ⟨rfl, fun hm => ?_⟩)
        rwa [(haddr hm).2] at hr
      · apply ensures_true.bind (fun _ => id)
        exact fun _ u _ => hdone _ k _ u

theorem writei_block {src : Source} {off k : ℕ} (h : off % 1024 + k ≤ 1024) :
    Ensures (writei sb e src off k) s (fun r _ => r = -1 ∨ r = k ∨
      r = 0 ∧ (Mapped s.disk (s.inode e).copy off → (eitherCopyin s.user src 0 k).1 = -1)) fun _ => True := by
  apply ensures_get_bind
  split_ifs with _ hmax
  · exact ensures_pure (.inl rfl)
  · exact ensures_pure (.inl rfl)
  · have hoff : off + k ≤ 268 * 1024 := not_lt.1 hmax
    apply (writeLoop_block h hoff).bind (fun _ => id)
    rintro ⟨r, off'⟩ t hr
    apply ensures_modify_bind
    apply ensures_true.bind (fun _ => id)
    intro _ u _
    refine ensures_pure (.inr ?_)
    obtain rfl | ⟨rfl, hr⟩ := hr
    · exact .inl rfl
    · exact .inr ⟨rfl, hr⟩

/-- The blocks that an entry needs: its own, the indirect block, and blocks of the bitmap. -/
theorem touched_entry {m m' : Mem} {d d' : Dinode} {ino : ℕ → Dinode} (hc : Consistent sb m' (Function.update ino i d'))
    (hi : i < sb.ninodes) (ht : d'.type ≠ 0) (k : ℕ) :
    ∃ x y, Touched sb m d m' d' (rangeSlots (k * 16) 16) ⊆ sb.bitmap ∪ {x, y} := by
  refine ⟨slot m' d' 12, slot m' d' (slotOf (k * 16 / 1024)), ?_⟩
  rintro b ⟨j, hj, hne, hb⟩
  have hmem := hc.mem (x := (i, j)) (by rwa [ptr_update_self hi ht])
  rw [ptr_update_self hi ht] at hmem
  obtain rfl | ⟨-, rfl⟩ := hb
  · refine .inr ?_
    obtain rfl | ⟨y, h₁, h₂, rfl⟩ := hj
    · exact .inl rfl
    · refine .inr ?_
      rw [show y / BSIZE = k * 16 / 1024 by change y / 1024 = _; omega]
      rfl
  · exact .inl ⟨_, hmem.2, rfl⟩

/-- The content is the old one with another entry at position `k`. -/
def Node.setEntry (n : Node) (k : ℕ) (W : List (BitVec 8)) : Node := { n with data := overwrite n.data (k * 16) W }

theorem writeEntry_within (h : Within sb c T H L B s) (he : e ∈ L) (ho : 0 < c.outstanding)
    (hn : T (s.inode e).inum = some n) (hdiv : 16 ∣ n.data.length) (hk : k ≤ n.data.length / 16) (hW : W.length = 16) :
    Ensures (writei sb e (.kernel W) (k * DESIZE) DESIZE) s (fun r t => Kept H s t ∧ ∃ x y,
      (r = DESIZE ∧ Within sb c (Function.update T (s.inode e).inum (some (n.setEntry k W))) H L
        (B ∪ insert (sb.iblock (s.inode e).inum) (sb.bitmap ∪ {x, y})) t ∨
      r ≠ DESIZE ∧ k = n.data.length / 16 ∧ (MAXFILE * BSIZE < k * 16 + 16 ∨ DiskFull sb t.disk) ∧
        Within sb c T H L (B ∪ insert (sb.iblock (s.inode e).inum) (sb.bitmap ∪ {x, y})) t)) E := by
  have hfull := h.full he
  have hmax : (s.inode e).copy.size.toNat ≤ 268 * 1024 := hfull.size_le
  obtain rfl : node s.disk (s.inode e).copy = n := Option.some_inj.1 ((h.node_eq he).symm.trans hn)
  rw [length_data] at hdiv hk ⊢
  have hsrc : (Source.kernel W).Has 16 := hW.ge
  have hread : (Source.kernel W).Readable s.user 16 := hsrc
  have hblock : Ensures (writei sb e (.kernel W) (k * 16) 16) s _ _ := writei_block (by omega : k * 16 % 1024 + 16 ≤ 1024)
  apply ((writei_within (E := E) h he ho hsrc (by omega : k * 16 < 2 ^ 32) (by decide : 16 < 2 ^ 32)).and hblock).mono _
    (fun _ => And.left)
  rintro r t ⟨⟨hr, rfl, rfl⟩ | ⟨hr, hdone, hw, hkept⟩, hr'⟩
  · refine ⟨kept_refl H t, 0, 0, .inr ⟨by decide, ?_, .inl ?_, h.mono Set.subset_union_left⟩⟩
    · unfold Refused at hr
      have hr : _ ∨ _ ∨ 268 * 1024 < k * 16 + 16 := hr
      omega
    · obtain hr | hr | hr := hr
      · omega
      · omega
      · exact hr
  · obtain ⟨m, d, l, c', P, rfl, rfl, -, hwrote, hd, -, -, -, hP, hpre⟩ := hdone
    obtain ⟨rfl, hdisk⟩ := hpre hread
    rw [s.put_inode] at hw
    dsimp only [State.put_disk] at hw
    have hlive := h.mapping he
    have htype : d.type ≠ 0 := by rw [hd]; exact hlive.live
    obtain ⟨x, y, hxy⟩ := touched_entry (m := s.disk) (d := (s.inode e).copy) hwrote.consistent hlive.inum_lt htype k
    have hw := hw.mono (Set.union_subset_union_right B (Set.insert_subset_insert hxy))
    have hsize : d.size.toNat = max (s.inode e).copy.size.toNat (k * 16 + c') := by
      rw [hd]
      refine toNat_newSize (max_le hfull.size_le ?_)
      change _ ≤ 268 * 1024
      have hle : k * 16 + 16 ≤ 268 * 1024 := (not_refused hr).2
      omega
    have hcontent := (hwrote.content_eq_iff hfull (by omega) (by rwa [Source.length_bytes])).2 fun j hj => absurd hj (by simp)
    rw [hcontent] at hw
    refine ⟨hkept, x, y, ?_⟩
    by_cases hc : c' = 16
    · subst hc
      have hbytes : (Source.kernel W).bytes s.user 0 16 = W := by
        rw [eq_iff_getD (by rw [Source.length_bytes, hW]), Source.length_bytes]
        intro x hx
        rw [Source.bytes, List.getD_eq_getElem _ _ (by simpa using hx)]
        simp [Source.byte]
      rw [hbytes] at hw
      exact .inl ⟨rfl, hw⟩
    · obtain hr' | hr' | ⟨hzero, hmapped⟩ := hr'
      · omega
      · omega
      obtain rfl : c' = 0 := by omega
      have hnil : overwrite (content s.disk (s.inode e).copy) (k * 16) ((Source.kernel W).bytes s.user 0 0) =
          content s.disk (s.inode e).copy := by
        simp [overwrite, Source.bytes]
      rw [hnil] at hw
      change Within sb c (Function.update T (s.inode e).inum (some (node s.disk (s.inode e).copy))) H L _ _ at hw
      rw [← h.node_eq he, Function.update_eq_self] at hw
      refine .inr ⟨by decide, ?_, .inr (hdisk (by decide)), hw⟩
      -- A position in the directory is in a block that the directory has.
      by_contra hne
      have hfail : (0 : ℤ) = -1 := hmapped (hfull.mapped _ (by omega))
      exact absurd hfail (by decide)

end Write

/-! ## The functions -/

section Functions

theorem Within.dir (h : Within sb c T H L B s) (hdp : dp ∈ L) (hn : T (s.inode dp).inum = some n) (hdir : IsDir n) :
    (s.inode dp).copy.type = T_DIR ∧ n.data = content s.disk (s.inode dp).copy ∧
      Full s.disk (s.inode dp).copy ∧ 16 ∣ (s.inode dp).copy.size.toNat := by
  obtain rfl : node s.disk (s.inode dp).copy = n := Option.some_inj.1 ((h.node_eq hdp).symm.trans hn)
  refine ⟨hdir.type, rfl, h.full hdp, ?_⟩
  rw [← length_data s.disk]
  exact hdir.whole

variable [UserMemory U]

theorem dirlookup_within (h : Within sb c T H L B s) (hdp : dp ∈ L) (hn : T (s.inode dp).inum = some n) (hdir : IsDir n)
    (hE : (∀ e, e ∈ H) → E .igetNoInodes) :
    Ensures (dirlookup sb dp name) s (fun r t => match Slots.find (key name) (slots n.data) with
      | none => r = none ∧ t = s
      | some (k, i) => ∃ ip, r = some (ip, k * 16) ∧ Within sb c T (ip ::ₘ H) L B t ∧ (t.inode ip).inum = i ∧ Kept H s t ∧
          t.disk = s.disk ∧ (ip ∈ H ∨ (t.inode ip).valid = false)) E := by
  obtain ⟨htype, hdata, hfull, hdiv⟩ := h.dir hdp hn hdir
  apply ensures_get_bind
  rw [if_neg (not_not_intro htype), Ensures]
  have hrun := dirlookupLoop_run hfull hdiv sb name ((s.inode dp).copy.size.toNat / DESIZE + 1) 0
    (Nat.lt_succ_self _)
  rw [Nat.zero_mul] at hrun
  rw [hrun, List.drop_zero, ← hdata]
  cases hfind : Slots.find (key name) (slots n.data) with
  | none => exact ⟨rfl, rfl⟩
  | some x =>
    have hget := iget_within h x.2 hE
    have : Ensures (do
        let ip ← iget x.2
        pure (some (ip, (0 + x.1) * 16)) : F U _) s (fun r t => ∃ ip, r = some (ip, x.1 * 16) ∧
          Within sb c T (ip ::ₘ H) L B t ∧ (t.inode ip).inum = x.2 ∧ Kept H s t ∧ t.disk = s.disk ∧
          (ip ∈ H ∨ (t.inode ip).valid = false)) E := by
      apply hget.bind (fun _ => id)
      intro ip t ht
      rw [Nat.zero_add]
      exact ensures_pure ⟨ip, rfl, ht⟩
    exact this

/-- The entry that `dirlink` writes. -/
def linkBytes (name : List (BitVec 8)) (inum : ℕ) : List (BitVec 8) := Dirent.bytes ⟨inum % 2 ^ 16, strncpy name DIRSIZ⟩

theorem length_linkBytes (name : List (BitVec 8)) (inum : ℕ) : (linkBytes name inum).length = 16 := by
  change (strncpy name DIRSIZ).length + 1 + 1 = 16
  rw [length_strncpy]
  rfl

/-- The directory with a new entry. -/
def Node.link (n : Node) (name : List (BitVec 8)) (inum : ℕ) : Node :=
  n.setEntry (Slots.free (slots n.data)) (linkBytes name inum)

theorem dirlink_within (h : Within sb c T H L B s) (hdp : dp ∈ L) (ho : 0 < c.outstanding)
    (hn : T (s.inode dp).inum = some n) (hdir : IsDir n) (hE : (∀ e, e ∈ H) → E .igetNoInodes) :
    Ensures (dirlink sb dp name inum) s (fun r t => Kept H s t ∧ ∃ x y,
      (r = 0 ∧ Slots.find (key name) (slots n.data) = none ∧
        Within sb c (Function.update T (s.inode dp).inum (some (n.link name inum))) H L
          (B ∪ insert (sb.iblock (s.inode dp).inum) (sb.bitmap ∪ {x, y})) t ∨
      r = -1 ∧ (Slots.find (key name) (slots n.data) = none → Slots.free (slots n.data) = (slots n.data).length ∧
          (MAXFILE * BSIZE < n.data.length + 16 ∨ DiskFull sb t.disk)) ∧
        Within sb c T H L (B ∪ insert (sb.iblock (s.inode dp).inum) (sb.bitmap ∪ {x, y})) t)) E := by
  apply (dirlookup_within h hdp hn hdir hE).bind (fun _ => id)
  intro r t hr
  cases hfind : Slots.find (key name) (slots n.data) with
  | some x =>
    rw [hfind] at hr
    obtain ⟨ip, rfl, ht, -, hk, -, hnew⟩ := hr
    have hL : ip ∈ L → ip ∈ (ip ::ₘ H).erase ip := by
      rw [Multiset.erase_cons_head]
      exact fun hip => h.mem_of_locked hip
    have hput := iput_keeps (E := E) ht (Multiset.mem_cons_self ip H) hL (ht.not_frees_of_new hnew)
    rw [Multiset.erase_cons_head] at hput
    apply hput.bind (fun _ => id)
    rintro _ u ⟨hu, hk', -⟩
    exact ensures_pure ⟨hk.trans hk', 0, 0, .inr ⟨rfl, (fun hnone => by cases hnone), hu.mono Set.subset_union_left⟩⟩
  | none =>
    rw [hfind] at hr
    obtain ⟨rfl, rfl⟩ := hr
    obtain ⟨-, hdata, hfull, hdiv⟩ := h.dir hdp hn hdir
    apply ensures_get_bind
    have hrun := dirlinkLoop_run hfull hdiv sb ((t.inode dp).copy.size.toNat / DESIZE + 1) 0
      (Nat.lt_succ_self _) (Nat.zero_le _)
    rw [Nat.zero_mul, Nat.zero_add, List.drop_zero, ← hdata] at hrun
    rw [Ensures, run_bind hrun]
    have hfree := Slots.free_le (slots n.data)
    rw [length_slots] at hfree ⊢
    have hwrite := writeEntry_within (E := E) h hdp ho hn hdir.whole hfree (length_linkBytes name inum)
    refine hwrite.bind (fun _ => id) fun r u hru => ?_
    obtain ⟨hk, x, y, ⟨rfl, hu⟩ | ⟨hr, hend, hwhy, hu⟩⟩ := hru
    · rw [if_neg (not_not_intro rfl)]
      exact ensures_pure ⟨hk, x, y, .inl ⟨rfl, rfl, hu⟩⟩
    · rw [if_pos hr]
      refine ensures_pure ⟨hk, x, y, .inr ⟨rfl, fun _ => ⟨hend, hwhy.imp_left fun hmax => ?_⟩, hu⟩⟩
      obtain ⟨q, hq⟩ := hdir.whole
      rw [hend] at hmax
      omega

theorem isdirempty_run (h : Within sb c T H L B s) (hdp : dp ∈ L) (hn : T (s.inode dp).inum = some n) (hdir : IsDir n) :
    isdirempty sb dp s = .ok (((slots n.data).drop 2).all Option.isNone, s) := by
  obtain ⟨-, hdata, hfull, hdiv⟩ := h.dir hdp hn hdir
  rw [isdirempty, run_bind (run_get s), hdata]
  refine isdiremptyLoop_run hfull hdiv _ 2 ?_
  change _ < (s.inode dp).copy.size.toNat / 16 + 1 + 2
  omega

/-- The directory without the entry at position `k`. -/
def Node.clear (n : Node) (k : ℕ) : Node := n.setEntry k (List.replicate 16 0)

theorem clear_within (h : Within sb c T H L B s) (hdp : dp ∈ L) (ho : 0 < c.outstanding)
    (hn : T (s.inode dp).inum = some n) (hdir : IsDir n) (hk : k < (slots n.data).length) :
    Ensures (unlink.clear sb dp (k * 16)) s (fun _ t => Kept H s t ∧ ∃ x y,
      Within sb c (Function.update T (s.inode dp).inum (some (n.clear k))) H L
        (B ∪ insert (sb.iblock (s.inode dp).inum) (sb.bitmap ∪ {x, y})) t) E := by
  rw [length_slots] at hk
  have hwrite := writeEntry_within (E := E) h hdp ho hn hdir.whole hk.le (List.length_replicate : (List.replicate 16 (0 : BitVec 8)).length = 16)
  refine hwrite.bind (fun _ => id) fun r t hr => ?_
  obtain ⟨hkept, x, y, ⟨rfl, ht⟩ | ⟨-, hend, -⟩⟩ := hr
  · rw [if_neg (not_not_intro rfl)]
    exact ensures_pure ⟨hkept, x, y, ht⟩
  · omega

end Functions

/-! ## The directory after a change -/

theorem IsDir.setEntry (hdir : IsDir n) (hk : k ≤ n.data.length / 16) (hW : W.length = 16) : IsDir (n.setEntry k W) := by
  obtain ⟨q, hq⟩ := hdir.whole
  refine ⟨hdir.type, ⟨max q (k + 1), ?_⟩⟩
  rw [Node.setEntry, length_overwrite (by omega), hW]
  omega

theorem free_slots_le (n : Node) : Slots.free (slots n.data) ≤ n.data.length / 16 := by
  rw [← length_slots]
  exact Slots.free_le _

theorem IsDir.link (hdir : IsDir n) (name : List (BitVec 8)) (inum : ℕ) : IsDir (n.link name inum) :=
  hdir.setEntry (free_slots_le n) (length_linkBytes name inum)

theorem slots_link (hdir : IsDir n) (name : List (BitVec 8)) (inum : ℕ) :
    slots (n.link name inum).data = Slots.put (slots n.data) (Slots.free (slots n.data))
      (if inum % 2 ^ 16 = 0 then none else some (key name, inum % 2 ^ 16)) := by
  have hslot : (Dirent.ofBytes (linkBytes name inum)).slot =
      if inum % 2 ^ 16 = 0 then none else some (key name, inum % 2 ^ 16) := by
    rw [linkBytes, ofBytes_bytes (Nat.mod_lt _ (by decide)), Dirent.slot, key_strncpy]
  rw [← hslot]
  exact slots_overwrite hdir.whole (free_slots_le n) (length_linkBytes name inum)

theorem IsDir.clear (hdir : IsDir n) (hk : k < (slots n.data).length) : IsDir (n.clear k) := by
  rw [length_slots] at hk
  exact hdir.setEntry hk.le List.length_replicate

theorem slots_clear (hdir : IsDir n) (hk : k < (slots n.data).length) :
    slots (n.clear k).data = Slots.put (slots n.data) k none := by
  rw [length_slots] at hk
  exact slots_overwrite hdir.whole hk.le List.length_replicate

end Xv6.Fs
