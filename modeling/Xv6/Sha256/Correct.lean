import Xv6.Sha256.Fips
import Xv6.Sha256.Code

/-!
# The streaming code computes SHA-256

`Fed ctx M` says that `ctx` is the context after the bytes `M`: the state is the hash value of the
full blocks of `M`, the buffer begins with the bytes after them, and `bitlen` counts the full blocks.
One byte keeps it (`updateByte_fed`), hence so does any sequence of updates, however the message is
cut.  `sha256Final` then compresses the one or two blocks that padding adds (`fed_final`).
-/

namespace Xv6.Sha256

open CArray

theorem neZero_eight : NeZero 8 := ⟨by decide⟩

section

attribute [local instance] neZero_eight

/-- The hash value held in `state[8]`. -/
def hashOf (s : Vector U32 8) : Fips.Hash :=
  ⟨s.get 0, s.get 1, s.get 2, s.get 3, s.get 4, s.get 5, s.get 6, s.get 7⟩

end

/-! ## The compression function -/

theorem rotRight_eq_rotateRight (a : U32) {b : ℕ} (h : b < 32) : rotRight a b = a.rotateRight b := by
  rw [BitVec.rotateRight_eq_rotateRightAux_of_lt h]
  rfl

theorem ep0_eq (x : U32) : ep0 x = Fips.bigSigma0 x := by
  simp only [ep0, Fips.bigSigma0, rotRight_eq_rotateRight _ (show 2 < 32 by decide),
    rotRight_eq_rotateRight _ (show 13 < 32 by decide),
    rotRight_eq_rotateRight _ (show 22 < 32 by decide)]

theorem ep1_eq (x : U32) : ep1 x = Fips.bigSigma1 x := by
  simp only [ep1, Fips.bigSigma1, rotRight_eq_rotateRight _ (show 6 < 32 by decide),
    rotRight_eq_rotateRight _ (show 11 < 32 by decide),
    rotRight_eq_rotateRight _ (show 25 < 32 by decide)]

theorem sig0_eq (x : U32) : sig0 x = Fips.sigma0 x := by
  simp only [sig0, Fips.sigma0, rotRight_eq_rotateRight _ (show 7 < 32 by decide),
    rotRight_eq_rotateRight _ (show 18 < 32 by decide)]

theorem sig1_eq (x : U32) : sig1 x = Fips.sigma1 x := by
  simp only [sig1, Fips.sigma1, rotRight_eq_rotateRight _ (show 17 < 32 by decide),
    rotRight_eq_rotateRight _ (show 19 < 32 by decide)]

theorem load_k {t : ℕ} (ht : t < 64) : load k t = Fips.K t := by
  have checked : ∀ t : Fin 64, load k t = Fips.K t := by decide +kernel
  exact checked ⟨t, ht⟩

theorem loadWord_eq_beWord (data : Vector U8 64) (j : ℕ) :
    loadWord data j = Fips.beWord (load data j) (load data (j + 1)) (load data (j + 2))
      (load data (j + 3)) := by
  apply BitVec.eq_of_getLsbD_eq
  intro i hi
  simp only [loadWord, Fips.beWord, BitVec.getLsbD_or, BitVec.getLsbD_shiftLeft,
    BitVec.getLsbD_setWidth, BitVec.getLsbD_append]
  interval_cases i <;> simp

theorem load_schedule (data : Vector U8 64) {t : ℕ} (ht : t < 64) :
    load (schedule data) t = Fips.W (fun t => loadWord data (4 * t)) t := by
  refine load_storeLoop_of_step _ (Fips.W _) 16 48 le_rfl _ (fun j hj => ?_) (fun i b hi _ hb => ?_)
    t ht
  · have := load_storeLoop_of_step (fun _ i => loadWord data (4 * i))
      (fun i => loadWord data (4 * i)) 0 16 (by decide) (Vector.replicate 64 0)
      (fun _ h => absurd h (Nat.not_lt_zero _)) (fun _ _ _ _ _ => rfl) j (by omega)
    rw [this, Fips.W, if_pos hj]
  · rw [hb (i - 2) (by omega), hb (i - 7) (by omega), hb (i - 15) (by omega), hb (i - 16) (by omega),
      sig0_eq, sig1_eq, Fips.W.eq_def _ i, if_neg (by omega)]

/-- The working variables of the standard for the local variables of the code. -/
def Vars.hash (v : Vars) : Fips.Hash := ⟨v.a, v.b, v.c, v.d, v.e, v.f, v.g, v.h⟩

theorem hash_round {m : Vector U32 64} {M : ℕ → U32} (hm : ∀ t < 64, load m t = Fips.W M t)
    (v : Vars) {t : ℕ} (ht : t < 64) :
    (round m v t).hash = Fips.round (Fips.K t) (Fips.W M t) v.hash := by
  simp only [round, Vars.hash, Fips.round, load_k ht, hm t ht, ep0_eq, ep1_eq]
  rfl

theorem hash_rounds {m : Vector U32 64} {M : ℕ → U32} (hm : ∀ t < 64, load m t = Fips.W M t)
    (v : Vars) {n : ℕ} (hn : n ≤ 64) :
    ((List.range n).foldl (round m) v).hash = Fips.rounds M v.hash n := by
  induction n with
  | zero => rfl
  | succ n ih =>
    rw [List.range_succ, List.foldl_append, List.foldl_cons, List.foldl_nil,
      hash_round hm _ (by omega), ih (by omega), Fips.rounds]

theorem hashOf_transform (ctx : Ctx) (data : Vector U8 64) :
    hashOf (sha256Transform ctx data).state =
      Fips.compress (hashOf ctx.state) fun t => loadWord data (4 * t) := by
  have h := hash_rounds (fun t ht => load_schedule data (t := t) ht)
    ⟨ctx.state[0], ctx.state[1], ctx.state[2], ctx.state[3], ctx.state[4], ctx.state[5],
      ctx.state[6], ctx.state[7]⟩ le_rfl
  unfold Fips.compress
  rw [show hashOf ctx.state = Vars.hash ⟨ctx.state[0], ctx.state[1], ctx.state[2], ctx.state[3],
    ctx.state[4], ctx.state[5], ctx.state[6], ctx.state[7]⟩ from rfl, ← h]
  simp only [sha256Transform, hashOf, Vars.hash]
  ext1 <;> exact BitVec.add_comm _ _

/-- A buffer that holds block `i` of a message is compressed as that block. -/
theorem hashOf_transform_block (ctx : Ctx) (data : Vector U8 64) (P : List U8) (i : ℕ)
    (h : ∀ j < 64, load data j = P.getD (64 * i + j) 0) :
    hashOf (sha256Transform ctx data).state =
      Fips.compress (hashOf ctx.state) (Fips.blockWord P i) := by
  rw [hashOf_transform]
  apply Fips.compress_congr
  intro t ht
  rw [loadWord_eq_beWord, h _ (by omega), h _ (by omega), h _ (by omega), h _ (by omega)]
  rfl

/-! ## Feeding bytes -/

/-- The context after the bytes `M` have been fed since `sha256_init`. -/
structure Fed (ctx : Ctx) (M : List U8) : Prop where
  datalen : ctx.datalen = M.length % 64
  bitlen : ctx.bitlen = BitVec.ofNat 64 (512 * (M.length / 64))
  state : hashOf ctx.state = Fips.hashBlocks M (M.length / 64)
  data : ∀ j < M.length % 64, load ctx.data j = M.getD (64 * (M.length / 64) + j) 0

theorem sha256Init_fed (ctx : Ctx) : Fed (sha256Init ctx) [] where
  datalen := rfl
  bitlen := rfl
  state := by
    show hashOf (sha256Init ctx).state = Fips.H0
    have checked : (⟨0x6a09e667, 0xbb67ae85, 0x3c6ef372, 0xa54ff53a, 0x510e527f, 0x9b05688c,
      0x1f83d9ab, 0x5be0cd19⟩ : Fips.Hash) = Fips.H0 := by decide +kernel
    exact checked
  data := fun _ h => absurd h (Nat.not_lt_zero _)

variable {ctx : Ctx} {M : List U8}

/-- The buffer after one more byte, while the block is still being filled. -/
theorem load_store_fed (fed : Fed ctx M) (x : U8) {j : ℕ}
    (hj : j ≤ M.length % 64) :
    load (store ctx.data ctx.datalen x) j = (M ++ [x]).getD (64 * (M.length / 64) + j) 0 := by
  rw [fed.datalen, load_store _ (Nat.mod_lt _ (by decide))]
  split_ifs with h
  · rw [List.getD_append_right _ _ _ _ (by omega),
      show 64 * (M.length / 64) + j - M.length = 0 by omega]
    rfl
  · rw [fed.data j (by omega), List.getD_append _ _ _ _ (by omega)]

theorem hashBlocks_append (M N : List U8) {n : ℕ} (h : 64 * n ≤ M.length) :
    Fips.hashBlocks (M ++ N) n = Fips.hashBlocks M n :=
  Fips.hashBlocks_congr n fun _ hj => List.getD_append _ _ _ _ (by omega)

/-- One byte: either the buffer is still filling up, or the block is complete and compressed. -/
theorem updateByte_fed (fed : Fed ctx M) (x : U8) :
    Fed (updateByte ctx x) (M ++ [x]) := by
  have hlen : (M ++ [x]).length = M.length + 1 := by simp
  have hold := hashBlocks_append M [x] (n := M.length / 64) (by omega)
  simp only [updateByte]
  split_ifs with hfull
  · have hmod : M.length % 64 = 63 := by
      have := fed.datalen
      omega
    have hdiv : (M.length + 1) / 64 = M.length / 64 + 1 := by omega
    refine ⟨?_, ?_, ?_, fun j hj => absurd hj (by omega)⟩
    · show 0 = _
      omega
    · show ctx.bitlen + 512 = _
      rw [fed.bitlen, hlen, hdiv, Nat.mul_add, BitVec.ofNat_add]
      rfl
    · rw [hlen, hdiv, Fips.hashBlocks, hold, ← fed.state]
      exact hashOf_transform_block _ _ _ _ fun j hj => load_store_fed fed x (by omega)
  · have hmod : (M.length + 1) % 64 = M.length % 64 + 1 := by
      have := fed.datalen
      omega
    have hdiv : (M.length + 1) / 64 = M.length / 64 := by omega
    refine ⟨?_, ?_, ?_, fun j hj => ?_⟩
    · show ctx.datalen + 1 = _
      rw [fed.datalen, hlen, hmod]
    · show ctx.bitlen = _
      rw [fed.bitlen, hlen, hdiv]
    · rw [hlen, hdiv, hold]
      exact fed.state
    · rw [hlen, hdiv]
      exact load_store_fed fed x (by omega)

/-- The update loop feeds the bytes of its argument in order. -/
theorem foldl_updateByte_fed (fed : Fed ctx M) (s : List U8) {n : ℕ}
    (hn : n ≤ s.length) :
    Fed ((List.range n).foldl (fun ctx i => updateByte ctx (s.getD i 0)) ctx) (M ++ s.take n) := by
  induction n with
  | zero => simpa using fed
  | succ n ih =>
    have hget : s.take (n + 1) = s.take n ++ [s.getD n 0] := by
      rw [List.take_succ_eq_append_getElem hn, List.getD_eq_getElem _ _ hn]
    rw [List.range_succ, List.foldl_append, List.foldl_cons, List.foldl_nil, hget,
      ← List.append_assoc]
    exact updateByte_fed (ih (by omega)) _

theorem sha256Update_fed (fed : Fed ctx M) {s : List U8}
    (hs : s.length < 2 ^ 32) :
    Fed (sha256Update ctx s (BitVec.ofNat 32 s.length)) (M ++ s) := by
  have h := foldl_updateByte_fed fed s le_rfl
  rw [List.take_length] at h
  unfold sha256Update
  rwa [BitVec.toNat_ofNat, Nat.mod_eq_of_lt hs]

/-- Any sequence of updates feeds the concatenation of its strings. -/
theorem foldl_update_fed (fed : Fed ctx M) {chunks : List (List U8)}
    (hs : ∀ s ∈ chunks, s.length < 2 ^ 32) :
    Fed (chunks.foldl (fun c s => sha256Update c s (BitVec.ofNat 32 s.length)) ctx)
      (M ++ chunks.flatten) := by
  induction chunks generalizing ctx M with
  | nil => simpa using fed
  | cons s chunks ih =>
    rw [List.foldl_cons, List.flatten_cons, ← List.append_assoc]
    exact ih (sha256Update_fed fed (hs s (by simp))) fun t ht => hs t (by simp [ht])

/-! ## Padding -/

theorem load_storeBitlen (data : Vector U8 64) (b : U64) {j : ℕ} (hj : j < 64) :
    load (storeBitlen data b) j =
      if j < 56 then load data j else (b >>> (8 * (63 - j))).setWidth 8 := by
  have unrolled : storeBitlen data b = store (store (store (store (store (store (store (store data
      63 ((b >>> 0).setWidth 8)) 62 ((b >>> 8).setWidth 8)) 61 ((b >>> 16).setWidth 8))
      60 ((b >>> 24).setWidth 8)) 59 ((b >>> 32).setWidth 8)) 58 ((b >>> 40).setWidth 8))
      57 ((b >>> 48).setWidth 8)) 56 ((b >>> 56).setWidth 8) := rfl
  rw [unrolled]
  split_ifs with h
  · rw [load_store_ne _ (by omega), load_store_ne _ (by omega), load_store_ne _ (by omega),
      load_store_ne _ (by omega), load_store_ne _ (by omega), load_store_ne _ (by omega),
      load_store_ne _ (by omega), load_store_ne _ (by omega)]
  · obtain ⟨r, hr, rfl⟩ : ∃ r < 8, j = 56 + r := ⟨j - 56, by omega, by omega⟩
    interval_cases r <;> simp

/-- The length bytes of the code are those of the standard, as long as the length in bits fits
into 64 bits. -/
theorem setWidth_bitlen {len r : ℕ} (hlen : 8 * len < 2 ^ 64) :
    ((BitVec.ofNat 64 (8 * len)) >>> r).setWidth 8 = BitVec.ofNat 8 (8 * len / 2 ^ r) := by
  apply BitVec.eq_of_toNat_eq
  simp only [BitVec.toNat_setWidth, BitVec.toNat_ushiftRight, BitVec.toNat_ofNat,
    Nat.shiftRight_eq_div_pow, Nat.mod_eq_of_lt hlen]

/-- The buffer after the marker byte and the zeros up to `e`. -/
theorem load_marked (fed : Fed ctx M) {e j : ℕ} (he : e ≤ 64)
    (hd : M.length % 64 < e) (hj : j < e)
    (hz : 64 * (M.length / 64) + e ≤ M.length + Fips.zeroBytes M.length + 1) :
    load (storeLoop (fun _ _ => 0) (ctx.datalen + 1) (e - (ctx.datalen + 1))
      (store ctx.data ctx.datalen 0x80)) j = (Fips.pad M).getD (64 * (M.length / 64) + j) 0 := by
  rw [fed.datalen]
  rcases lt_trichotomy j (M.length % 64) with h | h | h
  · rw [load_storeLoop_of_notMem _ _ _ _ (by omega), load_store_ne _ (by omega), fed.data j h,
      Fips.getD_pad_message _ (by omega)]
  · rw [load_storeLoop_of_notMem _ _ _ _ (by omega), h, load_store_self _ (by omega),
      show 64 * (M.length / 64) + M.length % 64 = M.length by omega, Fips.getD_pad_marker]
    rfl
  · rw [Fips.getD_pad_zero _ (by omega) (by omega)]
    refine load_storeLoop_of_step (fun _ _ => 0) (fun i => if i ≤ M.length % 64 then
      load (store ctx.data (M.length % 64) 0x80) i else 0) _ _ (by omega) _ (fun i hi => ?_)
      (fun i b h₁ _ _ => ?_) j (by omega) |>.trans ?_
    · rw [if_pos (by omega)]
    · rw [if_neg (by omega)]
    · rw [if_neg (by omega)]

theorem bitlen_padLong (ctx : Ctx) : (padLong ctx).bitlen = ctx.bitlen := by
  simp only [padLong, sha256Transform]

theorem datalen_padLong (ctx : Ctx) : (padLong ctx).datalen = ctx.datalen := by
  simp only [padLong, sha256Transform]

theorem hashOf_padLong (fed : Fed ctx M) (hd : ¬ M.length % 64 < 56) :
    hashOf (padLong ctx).state =
      Fips.compress (hashOf ctx.state) (Fips.blockWord (Fips.pad M) (M.length / 64)) := by
  have hz : 64 * (M.length / 64) + 64 ≤ M.length + Fips.zeroBytes M.length + 1 := by
    unfold Fips.zeroBytes
    omega
  simp only [padLong]
  rw [hashOf_transform_block _ _ (Fips.pad M) (M.length / 64)]
  intro j hj
  exact load_marked fed le_rfl (Nat.mod_lt _ (by decide)) hj hz

/-- `sha256_final` after the bytes `M` leaves the hash value of the padded message. -/
theorem fed_final (fed : Fed ctx M) (hM : M.length < 2 ^ 61)
    (hash : Vector U8 32) :
    hashOf (sha256Final ctx hash).1.state =
      Fips.hashBlocks (Fips.pad M) ((Fips.pad M).length / 64) := by
  have hbits : ctx.bitlen + BitVec.ofNat 64 (ctx.datalen * 8) = BitVec.ofNat 64 (8 * M.length) := by
    rw [fed.bitlen, fed.datalen, ← BitVec.ofNat_add]
    congr 1
    omega
  have hfull : Fips.hashBlocks (Fips.pad M) (M.length / 64) = hashOf ctx.state := by
    rw [fed.state]
    exact Fips.hashBlocks_congr _ fun j hj => Fips.getD_pad_message _ (by omega)
  have hlast {q : ℕ} (hq : 64 * q + 56 = M.length + Fips.zeroBytes M.length + 1) {j : ℕ}
      (h₁ : 56 ≤ j) (h₂ : j < 64) :
      ((BitVec.ofNat 64 (8 * M.length)) >>> (8 * (63 - j))).setWidth 8 =
        (Fips.pad M).getD (64 * q + j) 0 := by
    rw [setWidth_bitlen (by omega), show 64 * q + j =
      M.length + Fips.zeroBytes M.length + 1 + (j - 56) by omega, Fips.getD_pad_length _ (by omega),
      show 7 - (j - 56) = 63 - j by omega]
  unfold sha256Final
  rw [Fips.length_pad_div, Nat.mul_div_cancel_left _ (by decide)]
  by_cases hd : M.length % 64 < 56
  · have hz : 64 * (M.length / 64) + 56 = M.length + Fips.zeroBytes M.length + 1 := by
      unfold Fips.zeroBytes
      omega
    rw [if_pos hd, if_pos (by rw [fed.datalen]; exact hd), Fips.hashBlocks, hfull]
    refine hashOf_transform_block _ _ _ _ fun j hj => ?_
    rw [load_storeBitlen _ _ hj]
    split_ifs with h
    · exact load_marked (e := 56) fed (by omega) hd h (by omega)
    · rw [show (padShort ctx).bitlen + BitVec.ofNat 64 ((padShort ctx).datalen * 8) = _ from hbits]
      exact hlast hz (by omega) hj
  · have hz : 64 * (M.length / 64 + 1) + 56 = M.length + Fips.zeroBytes M.length + 1 := by
      unfold Fips.zeroBytes
      omega
    have hmid : hashOf (padLong ctx).state = Fips.hashBlocks (Fips.pad M) (M.length / 64 + 1) := by
      rw [Fips.hashBlocks, hfull, hashOf_padLong fed hd]
    rw [if_neg hd, if_neg (by rw [fed.datalen]; exact hd), Fips.hashBlocks, ← hmid]
    refine hashOf_transform_block _ _ _ _ fun j hj => ?_
    rw [load_storeBitlen _ _ hj]
    split_ifs with h
    · rw [Fips.getD_pad_zero _ (by omega) (by omega)]
      exact load_storeLoop_of_step (fun _ _ => 0) (fun _ => 0) 0 56 (by decide) _
        (fun _ h => absurd h (Nat.not_lt_zero _)) (fun _ _ _ _ _ => rfl) j (by omega)
    · rw [bitlen_padLong, datalen_padLong, hbits]
      exact hlast hz (by omega) hj

/-! ## The digest -/

theorem hashByte_eq (s : U32) {i : ℕ} (hi : i < 4) : hashByte s i = s.extractLsb' (24 - 8 * i) 8 := by
  apply BitVec.eq_of_getLsbD_eq
  intro b hb
  interval_cases i <;> interval_cases b <;> simp [hashByte]

/-- The 32 stores write the digest, whatever the output buffer held. -/
theorem foldl_storeHash (state : Vector U32 8) (hash : Vector U8 32) :
    ((List.range 4).foldl (storeHash state) hash).toList = Fips.digest (hashOf state) := by
  have hload {i w : ℕ} (hi : i < 4) (hw : w < 8) :
      load ((List.range 4).foldl (storeHash state) hash) (i + 4 * w) = hashByte state[w] i := by
    rw [← load_eq_getElem state hw]
    simp only [storeHash, show List.range 4 = [0, 1, 2, 3] from rfl,
      show List.range 8 = [0, 1, 2, 3, 4, 5, 6, 7] from rfl, List.foldl_cons, List.foldl_nil]
    interval_cases i <;> interval_cases w <;> simp
  apply List.ext_getElem
  · simp [Fips.digest, Fips.wordBytes]
  · intro j h₁ h₂
    have hj : j < 32 := by simpa using h₁
    have h := hload (i := j % 4) (w := j / 4) (by omega) (by omega)
    rw [show j % 4 + 4 * (j / 4) = j by omega, load_eq_getElem _ hj, hashByte_eq _ (by omega)] at h
    rw [Vector.getElem_toList, h]
    interval_cases j <;> rfl

/-- Every message, cut into strings in any way, is hashed to its SHA-256 digest. -/
theorem sha256Stream_correct (ctx : Ctx) (hash : Vector U8 32) (chunks : List (List U8))
    (hchunk : ∀ s ∈ chunks, s.length < 2 ^ 32) (hM : chunks.flatten.length < 2 ^ 61) :
    (sha256Stream ctx hash chunks).toList = Fips.sha256 chunks.flatten := by
  have fed := foldl_update_fed (sha256Init_fed ctx) hchunk
  rw [List.nil_append] at fed
  unfold sha256Stream Fips.sha256
  rw [← fed_final fed hM hash]
  exact foldl_storeHash _ hash

theorem sha256Stream_abc :
    (sha256Stream ⟨.replicate 64 0, 0, 0, .replicate 8 0⟩ (.replicate 32 0)
      [[0x61], [], [0x62, 0x63]]).toList = Fips.sha256 [0x61, 0x62, 0x63] :=
  sha256Stream_correct _ _ _ (by decide) (by decide)

end Xv6.Sha256
