import Xv6.Lib.CArray

/-!
# Little-endian fields in byte arrays

`getLE w a o` reads the unsigned little-endian number in the `w` bytes at offset `o` of an array, and
`putLE w a o x` stores `x` there modulo `256 ^ w`.
-/

namespace Bytes

open CArray

variable {n : ℕ}

def getLE : ℕ → Vector (BitVec 8) n → ℕ → ℕ
  | 0, _, _ => 0
  | w + 1, a, o => (load a o).toNat + 256 * getLE w a (o + 1)

def putLE : ℕ → Vector (BitVec 8) n → ℕ → ℕ → Vector (BitVec 8) n
  | 0, a, _, _ => a
  | w + 1, a, o, x => putLE w (store a o (BitVec.ofNat 8 x)) (o + 1) (x / 256)

theorem load_putLE_of_notMem (w : ℕ) (a : Vector (BitVec 8) n) (o x : ℕ) {i : ℕ}
    (h : i < o ∨ o + w ≤ i) : load (putLE w a o x) i = load a i := by
  induction w generalizing a o x with
  | zero => rfl
  | succ w ih => rw [putLE, ih _ _ _ (by omega), load_store_ne _ (by omega)]

theorem getLE_congr (w : ℕ) {a b : Vector (BitVec 8) n} (o : ℕ)
    (h : ∀ i, o ≤ i → i < o + w → load a i = load b i) : getLE w a o = getLE w b o := by
  induction w generalizing o with
  | zero => rfl
  | succ w ih => rw [getLE, getLE, h o le_rfl (by omega), ih _ fun i h₁ h₂ => h i (by omega) (by omega)]

theorem getLE_putLE_self (w : ℕ) (a : Vector (BitVec 8) n) {o : ℕ} (x : ℕ) (h : o + w ≤ n) :
    getLE w (putLE w a o x) o = x % 256 ^ w := by
  induction w generalizing a o x with
  | zero => simp [getLE, Nat.mod_one]
  | succ w ih =>
    rw [getLE, putLE, load_putLE_of_notMem _ _ _ _ (by omega), load_store_self _ (by omega),
      ih _ _ (by omega), BitVec.toNat_ofNat]
    change x % 256 + 256 * (x / 256 % 256 ^ w) = x % 256 ^ (w + 1)
    rw [pow_succ, Nat.mul_comm (256 ^ w), Nat.mod_mul]

theorem getLE_putLE_of_disjoint (w w' : ℕ) (a : Vector (BitVec 8) n) (o o' x : ℕ)
    (h : o' + w' ≤ o ∨ o + w ≤ o') : getLE w' (putLE w a o x) o' = getLE w' a o' :=
  getLE_congr _ _ fun _ _ _ => load_putLE_of_notMem _ _ _ _ (by omega)

end Bytes
