import Xv6.Lib.Memory

/-!
# `memmove`

The kernel's `memmove` (`kernel/string.c`) and that of the user library (`user/ulib.c`).  Both copy byte by
byte, upwards or downwards, and choose the direction by different tests.  `Memory.copy` is what either should
do: the bytes that were at the source, whatever the overlap.  Copying upwards does it unless the destination
starts inside the source, and copying downwards unless the source starts inside the destination.

Pointers have 64 bits and wrap.
-/

namespace Xv6.Memmove

open Memory

/-- `*d = *s` -/
def assign (m : Mem) (d s : BitVec 64) : Mem := Function.update m d.toNat (m s.toNat)

/-- `while(n-- > 0) *d++ = *s++;` -/
def copyUp (m : Mem) (d s : BitVec 64) : ℕ → Mem
  | 0 => m
  | n + 1 => copyUp (assign m d s) (d + 1) (s + 1) n

/-- `while(n-- > 0) *--d = *--s;` -/
def copyDown (m : Mem) (d s : BitVec 64) : ℕ → Mem
  | 0 => m
  | n + 1 => copyDown (assign m (d - 1) (s - 1)) (d - 1) (s - 1) n

/-- `memmove` of the kernel, with the memory afterwards and the result. -/
def memmove (m : Mem) (dst src : BitVec 64) (n : BitVec 32) : Mem × BitVec 64 :=
  if n = 0 then (m, dst)
  else if src < dst ∧ src + n.setWidth 64 > dst then
    (copyDown m (dst + n.setWidth 64) (src + n.setWidth 64) n.toNat, dst)
  else (copyUp m dst src n.toNat, dst)

/-- `memmove` of the user library, where `n` is an `int`. -/
def userMemmove (m : Mem) (vdst vsrc : BitVec 64) (n : BitVec 32) : Mem × BitVec 64 :=
  if vsrc > vdst then (copyUp m vdst vsrc n.toInt.toNat, vdst)
  else (copyDown m (vdst + n.signExtend 64) (vsrc + n.signExtend 64) n.toInt.toNat, vdst)

/-! ## The two loops -/

variable {m : Mem} {d s : BitVec 64} {n : ℕ}

theorem toNat_add_ofNat (h : d.toNat + n < 2 ^ 64) : (d + BitVec.ofNat 64 n).toNat = d.toNat + n := by
  rw [BitVec.toNat_add, BitVec.toNat_ofNat, Nat.add_mod_mod, Nat.mod_eq_of_lt h]

/-- The first byte of a copy may be copied first if it is not needed afterwards. -/
theorem copy_assign_first {d s : ℕ} (h : d ≤ s ∨ s + (n + 1) ≤ d) :
    copy (Function.update m d (m s)) (d + 1) (s + 1) n = copy m d s (n + 1) := by
  funext x
  unfold copy
  by_cases hx : d + 1 ≤ x ∧ x < d + 1 + n
  · rw [if_pos hx, if_pos (by omega), Function.update_of_ne (by omega)]
    congr 1
    omega
  · rw [if_neg hx]
    by_cases e : x = d
    · rw [e, Function.update_self, if_pos (by omega), Nat.sub_self, Nat.add_zero]
    · rw [Function.update_of_ne e, if_neg (by omega)]

/-- So may the last one. -/
theorem copy_assign_last {d s : ℕ} (h : s ≤ d ∨ d + (n + 1) ≤ s) :
    copy (Function.update m (d + n) (m (s + n))) d s n = copy m d s (n + 1) := by
  funext x
  unfold copy
  by_cases hx : d ≤ x ∧ x < d + n
  · rw [if_pos hx, if_pos (by omega), Function.update_of_ne (by omega)]
  · rw [if_neg hx]
    by_cases e : x = d + n
    · rw [e, Function.update_self, if_pos (by omega), Nat.add_sub_cancel_left]
    · rw [Function.update_of_ne e, if_neg (by omega)]

theorem copy_zero (m : Mem) (d s : ℕ) : copy m d s 0 = m := by
  funext x
  exact if_neg (by omega)

theorem copyUp_eq_copy (hd : d.toNat + n ≤ 2 ^ 64) (hs : s.toNat + n ≤ 2 ^ 64)
    (h : d.toNat ≤ s.toNat ∨ s.toNat + n ≤ d.toNat) :
    copyUp m d s n = copy m d.toNat s.toNat n := by
  induction n generalizing m d s with
  | zero => exact (copy_zero m _ _).symm
  | succ n ih =>
    rw [copyUp, ← copy_assign_first h]
    cases n with
    | zero => rw [copyUp, copy_zero, assign]
    | succ n =>
      -- another byte follows, so that neither pointer wraps
      have hd' : (d + 1).toNat = d.toNat + 1 := toNat_add_ofNat (n := 1) (by omega)
      have hs' : (s + 1).toNat = s.toNat + 1 := toNat_add_ofNat (n := 1) (by omega)
      rw [ih (by omega) (by omega) (by omega), hd', hs', assign]

theorem add_ofNat_succ_sub_one (d : BitVec 64) (n : ℕ) :
    d + BitVec.ofNat 64 (n + 1) - 1 = d + BitVec.ofNat 64 n := by
  rw [BitVec.ofNat_add, ← BitVec.add_assoc]
  exact BitVec.add_sub_cancel _ _

theorem copyDown_eq_copy (hd : d.toNat + n ≤ 2 ^ 64) (hs : s.toNat + n ≤ 2 ^ 64)
    (h : s.toNat ≤ d.toNat ∨ d.toNat + n ≤ s.toNat) :
    copyDown m (d + BitVec.ofNat 64 n) (s + BitVec.ofNat 64 n) n = copy m d.toNat s.toNat n := by
  induction n generalizing m with
  | zero => exact (copy_zero m _ _).symm
  | succ n ih =>
    rw [copyDown, add_ofNat_succ_sub_one, add_ofNat_succ_sub_one, ih (by omega) (by omega) (by omega),
      assign, toNat_add_ofNat (by omega), toNat_add_ofNat (by omega), copy_assign_last h]

/-! ## The two functions -/

theorem setWidth_eq_ofNat (n : BitVec 32) : n.setWidth 64 = BitVec.ofNat 64 n.toNat := by
  apply BitVec.eq_of_toNat_eq
  rw [BitVec.toNat_setWidth, BitVec.toNat_ofNat]

theorem memmove_eq_copy (m : Mem) {dst src : BitVec 64} {n : BitVec 32}
    (hdst : dst.toNat + n.toNat ≤ 2 ^ 64) (hsrc : src.toNat + n.toNat ≤ 2 ^ 64) :
    memmove m dst src n = (copy m dst.toNat src.toNat n.toNat, dst) := by
  unfold memmove
  split_ifs with hn hlt
  · rw [hn]
    exact congrArg (·, dst) (copy_zero m _ _).symm
  · rw [BitVec.lt_def] at hlt
    rw [setWidth_eq_ofNat, copyDown_eq_copy hdst hsrc (by omega)]
  · have hup : dst.toNat ≤ src.toNat ∨ src.toNat + n.toNat ≤ dst.toNat := by
      by_contra hc
      -- the destination starts inside the source, whose end cannot wrap then
      refine hlt ⟨BitVec.lt_def.2 (by omega), BitVec.lt_def.2 ?_⟩
      rw [setWidth_eq_ofNat, toNat_add_ofNat (by omega)]
      omega
    rw [copyUp_eq_copy hdst hsrc hup]

theorem userMemmove_eq_copy (m : Mem) {dst src : BitVec 64} {n : BitVec 32} (hn : 0 ≤ n.toInt)
    (hdst : dst.toNat + n.toNat ≤ 2 ^ 64) (hsrc : src.toNat + n.toNat ≤ 2 ^ 64) :
    userMemmove m dst src n = (copy m dst.toNat src.toNat n.toNat, dst) := by
  have hmsb : n.msb = false := by
    rw [BitVec.msb_eq_toInt]
    exact decide_eq_false (Int.not_lt.2 hn)
  rw [userMemmove, BitVec.toInt_eq_toNat_of_msb hmsb, Int.toNat_natCast,
    BitVec.signExtend_eq_setWidth_of_msb_false hmsb, setWidth_eq_ofNat]
  split_ifs with hlt
  · rw [copyUp_eq_copy hdst hsrc (.inl (BitVec.le_def.1 (BitVec.le_of_lt hlt)))]
  · rw [copyDown_eq_copy hdst hsrc (.inl (BitVec.le_def.1 (BitVec.not_lt.1 hlt)))]

/-- The `n` bytes at `dst` are those that were at `src`, and the rest of the memory is as it was. -/
structure Moved (m : Mem) (dst src n : ℕ) (m' : Mem) : Prop where
  bytes : ∀ i < n, m' (dst + i) = m (src + i)
  outside : EqOutside dst n m m'

theorem moved_copy (m : Mem) (dst src n : ℕ) : Moved m dst src n (copy m dst src n) where
  bytes i hi := by rw [copy, if_pos (by omega), Nat.add_sub_cancel_left]
  outside := copy_eqOutside m dst src n

/-- Both functions move the bytes, whatever the overlap, and so they agree. -/
theorem memmove_correct (m : Mem) (dst src : BitVec 64) (n : BitVec 32)
    (hdst : dst.toNat + n.toNat ≤ 2 ^ 64) (hsrc : src.toNat + n.toNat ≤ 2 ^ 64) :
    Moved m dst.toNat src.toNat n.toNat (memmove m dst src n).1 ∧
      (0 ≤ n.toInt → Moved m dst.toNat src.toNat n.toNat (userMemmove m dst src n).1 ∧
        memmove m dst src n = userMemmove m dst src n) := by
  rw [memmove_eq_copy m hdst hsrc]
  refine ⟨moved_copy m _ _ _, fun hn => ?_⟩
  rw [userMemmove_eq_copy m hn hdst hsrc]
  exact ⟨moved_copy m _ _ _, rfl⟩

/-- Three bytes up by one, at the top of the address space. -/
theorem memmove_correct_overlap :
    let m : Mem := fun x => BitVec.ofNat 8 x
    Moved m (2 ^ 64 - 3) (2 ^ 64 - 4) 3 (memmove m (-3) (-4) 3).1 ∧
      memmove m (-3) (-4) 3 = userMemmove m (-3) (-4) 3 := by
  intro m
  obtain ⟨hk, hu⟩ := memmove_correct m (-3) (-4) 3 (by decide) (by decide)
  exact ⟨hk, (hu (by decide)).2⟩

end Xv6.Memmove
