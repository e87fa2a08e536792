import Xv6.Lib.UserMemory
import Xv6.Vm.UserCopy

/-!
# The memory of a process, as the file system sees it

`either_copyin` and `either_copyout` reach the memory of the current process through its page table.
An address space has the properties that the file system relies on: they are those of `copyin` and
`copyout`.
-/

namespace Xv6.Fs

open Vm Kalloc

/-- The physical memory with the page table of the current process. -/
structure UserSpace where
  phys : Phys
  pagetable : ℕ
  space : ∃ T, AddressSpace phys.mem pagetable T

namespace UserSpace

def copyin (u : UserSpace) (srcva len : ℕ) : ℤ × List (BitVec 8) :=
  match Vm.copyin u.pagetable (srcva % 2 ^ 64) len u.phys with
  | .ok (r, _) => r
  | .error _ => (-1, [])

theorem copyout_space {s t : Phys} {r va : ℕ} {src : List (BitVec 8)} {res : ℤ} (h : ∃ T, AddressSpace s.mem r T)
    (hrun : Vm.copyout r va src s = .ok (res, t)) : ∃ T, AddressSpace t.mem r T := by
  obtain ⟨T, hT⟩ := h
  obtain ⟨res', t', hrun', hT', -⟩ := hT.copyoutLoop src.length va src le_rfl
  rw [Vm.copyout, hrun'] at hrun
  cases hrun
  exact ⟨T, hT'⟩

def copyout (u : UserSpace) (dstva : ℕ) (src : List (BitVec 8)) : ℤ × UserSpace :=
  match h : Vm.copyout u.pagetable (dstva % 2 ^ 64) src u.phys with
  | .ok (r, t) => (r, ⟨t, u.pagetable, copyout_space u.space h⟩)
  | .error _ => (-1, u)

theorem copyout_eq {u : UserSpace} {va : ℕ} {src : List (BitVec 8)} {res : ℤ} {t : Phys}
    (hrun : Vm.copyout u.pagetable (va % 2 ^ 64) src u.phys = .ok (res, t)) :
    u.copyout va src = (res, ⟨t, u.pagetable, copyout_space u.space hrun⟩) := by
  rw [copyout]
  split
  · next heq =>
    cases heq.symm.trans hrun
    rfl
  · next heq => cases heq.symm.trans hrun

theorem wrap_mod (va i : ℕ) : wrap (va % 2 ^ 64) i = UserMemory.wrap va i := by
  rw [wrap, UserMemory.wrap, Nat.mod_add_mod]

theorem mod_lt (va : ℕ) : va % 2 ^ 64 < 2 ^ 64 := Nat.mod_lt _ (by norm_num)

theorem copyin_spec (u : UserSpace) (va len : ℕ) :
    ((u.copyin va len).1 = 0 ∨ (u.copyin va len).1 = -1) ∧
    ((u.copyin va len).1 = 0 ↔ ∀ i < len, Readable u.phys u.pagetable (UserMemory.wrap va i)) ∧
    ((u.copyin va len).1 = 0 → (u.copyin va len).2 =
      (List.range len).map fun i => u.phys.mem (physAddr u.phys u.pagetable (UserMemory.wrap va i))) ∧
    (u.copyin va len).2.length ≤ len := by
  obtain ⟨T, hT⟩ := u.space
  obtain ⟨res, bytes, hrun, hres⟩ := (user_copy hT (mod_lt va)).1 len
  have hcopy : u.copyin va len = (res, bytes) := by rw [copyin, hrun]
  simp only [wrap_mod] at hres
  rwa [hcopy]

theorem copyout_spec (u : UserSpace) (va : ℕ) (src : List (BitVec 8)) :
    ((u.copyout va src).1 = 0 ∨ (u.copyout va src).1 = -1) ∧
    ((u.copyout va src).1 = 0 ↔ ∀ i < src.length, Writable u.phys u.pagetable (UserMemory.wrap va i)) ∧
    ((u.copyout va src).1 = 0 → ∀ i < src.length,
      (u.copyout va src).2.phys.mem (physAddr u.phys u.pagetable (UserMemory.wrap va i)) = src.getD i 0) ∧
    (∀ x, (u.copyout va src).2.phys.mem x ≠ u.phys.mem x → ∃ i < src.length,
      Writable u.phys u.pagetable (va % 2 ^ 64 + i) ∧ x = physAddr u.phys u.pagetable (va % 2 ^ 64 + i)) ∧
    (u.copyout va src).2.pagetable = u.pagetable := by
  obtain ⟨T, hT⟩ := u.space
  obtain ⟨res, t, hrun, hres⟩ := (user_copy hT (mod_lt va)).2.1 src
  simp only [wrap_mod] at hres
  rw [copyout_eq hrun]
  exact ⟨hres.1, hres.2.1, hres.2.2.1, hres.2.2.2, rfl⟩

theorem copyout_tree (u : UserSpace) (va : ℕ) (src : List (BitVec 8)) :
    ∃ T, AddressSpace u.phys.mem u.pagetable T ∧
      AddressSpace (u.copyout va src).2.phys.mem (u.copyout va src).2.pagetable T := by
  obtain ⟨T, hT⟩ := u.space
  obtain ⟨res, t, hrun, ht, -⟩ := hT.copyoutLoop src.length (va % 2 ^ 64) src le_rfl
  refine ⟨T, hT, ?_⟩
  rw [copyout_eq hrun]
  exact ht

end UserSpace

open UserSpace in
instance : UserMemory UserSpace where
  byte u x := u.phys.mem (physAddr u.phys u.pagetable x)
  Readable u x := Readable u.phys u.pagetable x
  Writable u x := Writable u.phys u.pagetable x
  copyin := copyin
  copyout := copyout
  copyin_result u va n := (u.copyin_spec va n).1
  copyin_eq_zero u va n := (u.copyin_spec va n).2.1
  copyin_bytes u va n := (u.copyin_spec va n).2.2.1
  copyin_length u va n := (u.copyin_spec va n).2.2.2
  copyout_result u va src := (u.copyout_spec va src).1
  copyout_eq_zero u va src := (u.copyout_spec va src).2.1
  copyout_byte u va src h i hi := by
    obtain ⟨T, hT, hT'⟩ := u.copyout_tree va src
    obtain ⟨-, hiff, hbytes, -⟩ := u.copyout_spec va src
    have hpage := (hT.writable_iff.1 (hiff.1 h i hi)).1
    rw [hT'.physAddr_eq hpage, ← hT.physAddr_eq hpage]
    exact hbytes h i hi
  copyout_other u va src x hr hne := by
    obtain ⟨T, hT, hT'⟩ := u.copyout_tree va src
    obtain ⟨-, -, -, hframe, -⟩ := u.copyout_spec va src
    have hpage := hT.readable_iff.1 hr
    rw [hT'.physAddr_eq hpage, hT.physAddr_eq hpage]
    by_contra hchange
    obtain ⟨i, hi, hw, hx⟩ := hframe _ hchange
    have hlt : va % 2 ^ 64 + i < MAXVA := hw.1.1
    have hpage' := (hT.writable_iff.1 hw).1
    rw [hT.physAddr_eq hpage'] at hx
    apply hne i hi
    rw [hT.phys_inj hpage hpage' hx, ← wrap_mod, wrap, Nat.mod_eq_of_lt (hlt.trans (by decide))]
  copyout_readable u va src x := by
    obtain ⟨T, hT, hT'⟩ := u.copyout_tree va src
    exact hT'.readable_iff.trans hT.readable_iff.symm
  copyout_writable u va src x := by
    obtain ⟨T, hT, hT'⟩ := u.copyout_tree va src
    exact hT'.writable_iff.trans hT.writable_iff.symm
  readable_of_writable _ _ h := h.1

end Xv6.Fs
