import Mathlib

/-!
# SHA-256 as FIPS 180-4 defines it

The hash function on byte strings, in the terms of the standard: the logical functions (4.1.2), the
constants (4.2.2), padding (5.1.1), parsing into 512-bit blocks (5.2.1), the initial hash value
(5.3.3), and the computation of the hash value block by block (6.2.2).
-/

namespace Fips

abbrev Byte := BitVec 8

abbrev Word := BitVec 32

/-- Eight words: a hash value `H₀ … H₇`, or the working variables `a … h`. -/
@[ext] structure Hash where
  a : Word
  b : Word
  c : Word
  d : Word
  e : Word
  f : Word
  g : Word
  h : Word
  deriving DecidableEq, Repr

/-! ## Functions and constants -/

def ch (x y z : Word) : Word := (x &&& y) ^^^ (~~~x &&& z)

def maj (x y z : Word) : Word := (x &&& y) ^^^ (x &&& z) ^^^ (y &&& z)

/-- `Σ₀`. -/
def bigSigma0 (x : Word) : Word := x.rotateRight 2 ^^^ x.rotateRight 13 ^^^ x.rotateRight 22

/-- `Σ₁`. -/
def bigSigma1 (x : Word) : Word := x.rotateRight 6 ^^^ x.rotateRight 11 ^^^ x.rotateRight 25

/-- `σ₀`. -/
def sigma0 (x : Word) : Word := x.rotateRight 7 ^^^ x.rotateRight 18 ^^^ x >>> 3

/-- `σ₁`. -/
def sigma1 (x : Word) : Word := x.rotateRight 17 ^^^ x.rotateRight 19 ^^^ x >>> 10

def primes : List ℕ :=
  [2, 3, 5, 7, 11, 13, 17, 19, 23, 29, 31, 37, 41, 43, 47, 53,
   59, 61, 67, 71, 73, 79, 83, 89, 97, 101, 103, 107, 109, 113, 127, 131,
   137, 139, 149, 151, 157, 163, 167, 173, 179, 181, 191, 193, 197, 199, 211, 223,
   227, 229, 233, 239, 241, 251, 257, 263, 269, 271, 277, 281, 283, 293, 307, 311]

theorem primes_eq_filter : primes = (List.range 312).filter Nat.Prime := by decide +kernel

/-- The integer cube root, by bisection on `n` bits. -/
def cbrtBits (x : ℕ) : ℕ → ℕ → ℕ
  | 0, r => r
  | n + 1, r => if (r + 2 ^ n) ^ 3 ≤ x then cbrtBits x n (r + 2 ^ n) else cbrtBits x n r

/-- `Kₜ`: the first thirty-two bits of the fractional part of the cube root of a prime. -/
def K (t : ℕ) : Word := BitVec.ofNat 32 (cbrtBits (primes.getD t 0 * 2 ^ 96) 36 0)

/-- `H⁽⁰⁾`: the first thirty-two bits of the fractional parts of the square roots of the first eight
primes. -/
def H0 : Hash :=
  let frac (p : ℕ) : Word := BitVec.ofNat 32 (Nat.sqrt (p * 2 ^ 64))
  ⟨frac 2, frac 3, frac 5, frac 7, frac 11, frac 13, frac 17, frac 19⟩

/-! ## One block -/

/-- The message schedule `W₀ … W₆₃` of a block given by its sixteen words. -/
def W (M : ℕ → Word) (t : ℕ) : Word :=
  if t < 16 then M t
  else sigma1 (W M (t - 2)) + W M (t - 7) + sigma0 (W M (t - 15)) + W M (t - 16)
termination_by t

/-- One round of the compression. -/
def round (k w : Word) (v : Hash) : Hash :=
  let T1 := v.h + bigSigma1 v.e + ch v.e v.f v.g + k + w
  let T2 := bigSigma0 v.a + maj v.a v.b v.c
  ⟨T1 + T2, v.a, v.b, v.c, v.d + T1, v.e, v.f, v.g⟩

/-- The working variables after `t` rounds. -/
def rounds (M : ℕ → Word) (v : Hash) : ℕ → Hash
  | 0 => v
  | t + 1 => round (K t) (W M t) (rounds M v t)

/-- The intermediate hash value after one more block. -/
def compress (H : Hash) (M : ℕ → Word) : Hash :=
  let v := rounds M H 64
  ⟨v.a + H.a, v.b + H.b, v.c + H.c, v.d + H.d, v.e + H.e, v.f + H.f, v.g + H.g, v.h + H.h⟩

/-! ## Messages -/

/-- The big-endian word of four bytes. -/
def beWord (b0 b1 b2 b3 : Byte) : Word := b0 ++ b1 ++ b2 ++ b3

/-- Word `t` of block `i` of a padded message. -/
def blockWord (P : List Byte) (i t : ℕ) : Word :=
  let o := 64 * i + 4 * t
  beWord (P.getD o 0) (P.getD (o + 1) 0) (P.getD (o + 2) 0) (P.getD (o + 3) 0)

/-- The hash value after the first `n` blocks of a padded message. -/
def hashBlocks (P : List Byte) : ℕ → Hash
  | 0 => H0
  | n + 1 => compress (hashBlocks P n) (blockWord P n)

/-- The number of zero bytes after the `0x80` byte: the least that makes the length congruent to
`56` modulo `64`. -/
def zeroBytes (len : ℕ) : ℕ := (55 + 64 - len % 64) % 64

/-- The message length in bits as eight big-endian bytes. -/
def lengthBytes (len : ℕ) : List Byte :=
  (List.range 8).map fun j => BitVec.ofNat 8 (8 * len / 2 ^ (8 * (7 - j)))

def pad (M : List Byte) : List Byte :=
  M ++ 0x80#8 :: (List.replicate (zeroBytes M.length) 0#8 ++ lengthBytes M.length)

/-- A word as four big-endian bytes. -/
def wordBytes (w : Word) : List Byte :=
  [w.extractLsb' 24 8, w.extractLsb' 16 8, w.extractLsb' 8 8, w.extractLsb' 0 8]

/-- The digest `H₀ ‖ … ‖ H₇`. -/
def digest (H : Hash) : List Byte :=
  [H.a, H.b, H.c, H.d, H.e, H.f, H.g, H.h].flatMap wordBytes

def sha256 (M : List Byte) : List Byte := digest (hashBlocks (pad M) ((pad M).length / 64))

/-! ## Blocks and padding -/

theorem blockWord_congr {P Q : List Byte} {i t : ℕ} (ht : t < 16)
    (h : ∀ j < 64, P.getD (64 * i + j) 0 = Q.getD (64 * i + j) 0) :
    blockWord P i t = blockWord Q i t := by
  have at4 (r : ℕ) (hr : r < 4) :
      P.getD (64 * i + 4 * t + r) 0 = Q.getD (64 * i + 4 * t + r) 0 := by
    rw [Nat.add_assoc]
    exact h _ (by omega)
  simp only [blockWord, at4 1 (by omega), at4 2 (by omega), at4 3 (by omega)]
  rw [show P.getD (64 * i + 4 * t) 0 = Q.getD (64 * i + 4 * t) 0 from at4 0 (by omega)]

theorem W_congr {M N : ℕ → Word} (h : ∀ t < 16, M t = N t) (t : ℕ) : W M t = W N t := by
  induction t using Nat.strong_induction_on with
  | _ t ih =>
    rw [W, W.eq_def N]
    split_ifs with ht
    · exact h t ht
    · rw [ih (t - 2) (by omega), ih (t - 7) (by omega), ih (t - 15) (by omega),
        ih (t - 16) (by omega)]

theorem compress_congr (H : Hash) {M N : ℕ → Word} (h : ∀ t < 16, M t = N t) :
    compress H M = compress H N := by
  have hr (t : ℕ) : rounds M H t = rounds N H t := by
    induction t with
    | zero => rfl
    | succ t ih => rw [rounds, rounds, ih, W_congr h]
  unfold compress
  rw [hr]

/-- The hash value after `n` blocks depends on the first `64 n` bytes only. -/
theorem hashBlocks_congr {P Q : List Byte} (n : ℕ) (h : ∀ j < 64 * n, P.getD j 0 = Q.getD j 0) :
    hashBlocks P n = hashBlocks Q n := by
  induction n with
  | zero => rfl
  | succ n ih =>
    rw [hashBlocks, hashBlocks, ih fun j hj => h j (by omega)]
    exact compress_congr _ fun t ht => blockWord_congr ht fun j hj => h _ (by omega)

@[simp] theorem length_lengthBytes (len : ℕ) : (lengthBytes len).length = 8 := by
  simp [lengthBytes]

theorem length_pad (M : List Byte) : (pad M).length = M.length + zeroBytes M.length + 9 := by
  simp [pad]
  omega

/-- The padded message has one block more than the message has full ones, or two when fewer than
nine bytes remain in the last block. -/
theorem length_pad_div (M : List Byte) :
    (pad M).length = 64 * (M.length / 64 + if M.length % 64 < 56 then 1 else 2) := by
  rw [length_pad, zeroBytes]
  split_ifs <;> omega

theorem getD_pad_message (M : List Byte) {j : ℕ} (h : j < M.length) :
    (pad M).getD j 0 = M.getD j 0 := by
  rw [pad, List.getD_append _ _ _ _ h]

theorem getD_pad_marker (M : List Byte) : (pad M).getD M.length 0 = 0x80#8 := by
  rw [pad, List.getD_append_right _ _ _ _ le_rfl]
  simp

theorem getD_pad_zero (M : List Byte) {j : ℕ} (h₁ : M.length < j)
    (h₂ : j ≤ M.length + zeroBytes M.length) : (pad M).getD j 0 = 0 := by
  obtain ⟨r, rfl⟩ : ∃ r, j = M.length + (r + 1) := ⟨j - M.length - 1, by omega⟩
  rw [pad, List.getD_append_right _ _ _ _ (by omega), Nat.add_sub_cancel_left, List.getD_cons_succ,
    List.getD_append _ _ _ _ (by simp; omega)]
  simp [List.getD_eq_getElem?_getD, show r < zeroBytes M.length by omega]

theorem getD_pad_length (M : List Byte) {j : ℕ} (hj : j < 8) :
    (pad M).getD (M.length + zeroBytes M.length + 1 + j) 0 =
      BitVec.ofNat 8 (8 * M.length / 2 ^ (8 * (7 - j))) := by
  rw [pad, List.getD_append_right _ _ _ _ (by omega),
    show M.length + zeroBytes M.length + 1 + j - M.length = zeroBytes M.length + j + 1 by omega,
    List.getD_cons_succ, List.getD_append_right _ _ _ _ (by simp)]
  simp [lengthBytes, List.getD_eq_getElem?_getD, hj]

end Fips
