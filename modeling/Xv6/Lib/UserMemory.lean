import Mathlib

/-!
# Memory of a user program

What a kernel may rely on when it copies from and to the memory of a user program: a copy of a range
succeeds exactly when every byte of the range may be accessed.  Addresses have 64 bits and wrap.  A copy
that fails may have copied a first part.
-/

/-- The address `i` bytes after `va`. -/
def UserMemory.wrap (va i : ℕ) : ℕ := (va + i) % 2 ^ 64

open UserMemory in
/-- Memories of type `U` with the operations that copy from and to them. -/
class UserMemory (U : Type) where
  byte : U → ℕ → BitVec 8
  Readable : U → ℕ → Prop
  Writable : U → ℕ → Prop
  /-- The result, and the bytes that have been copied. -/
  copyin : U → ℕ → ℕ → ℤ × List (BitVec 8)
  copyout : U → ℕ → List (BitVec 8) → ℤ × U
  copyin_result (u : U) (va n : ℕ) : (copyin u va n).1 = 0 ∨ (copyin u va n).1 = -1
  copyin_eq_zero (u : U) (va n : ℕ) : (copyin u va n).1 = 0 ↔ ∀ i < n, Readable u (wrap va i)
  copyin_length (u : U) (va n : ℕ) : (copyin u va n).2.length ≤ n
  copyin_bytes (u : U) (va n : ℕ) : (copyin u va n).1 = 0 →
    (copyin u va n).2 = (List.range n).map fun i => byte u (wrap va i)
  copyout_result (u : U) (va : ℕ) (src : List (BitVec 8)) : (copyout u va src).1 = 0 ∨ (copyout u va src).1 = -1
  copyout_eq_zero (u : U) (va : ℕ) (src : List (BitVec 8)) :
    (copyout u va src).1 = 0 ↔ ∀ i < src.length, Writable u (wrap va i)
  copyout_byte (u : U) (va : ℕ) (src : List (BitVec 8)) : (copyout u va src).1 = 0 →
    ∀ i < src.length, byte (copyout u va src).2 (wrap va i) = src.getD i 0
  copyout_other (u : U) (va : ℕ) (src : List (BitVec 8)) (x : ℕ) : Readable u x →
    (∀ i < src.length, x ≠ wrap va i) → byte (copyout u va src).2 x = byte u x
  copyout_readable (u : U) (va : ℕ) (src : List (BitVec 8)) (x : ℕ) :
    Readable (copyout u va src).2 x ↔ Readable u x
  copyout_writable (u : U) (va : ℕ) (src : List (BitVec 8)) (x : ℕ) :
    Writable (copyout u va src).2 x ↔ Writable u x
  readable_of_writable (u : U) (x : ℕ) : Writable u x → Readable u x
