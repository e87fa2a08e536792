import Xv6.Lib.Stack
import Xv6.Sys.Code
import Xv6.Vm.UserCopy

/-!
# The stack that `exec` builds

The strings and the array of pointers are blocks on a stack of 16-byte steps.  The stack has one page, so
that no block is longer than a page; the guard page below it keeps the stack pointer from wrapping around.
-/

namespace Xv6.Sys

open Memory Kernel Kalloc Vm Stack

variable {s t : Phys} {m m' : Mem} {r sp n : ℕ} {T : Tree} {own : Owners}

/-- The user finds the byte `b` at `x`. -/
def UserFinds (s : Phys) (T : Tree) (x : ℕ) (b : BitVec 8) : Prop :=
  UserPage T (x / 4096) ∧ s.mem (T.phys x) = b

theorem copyout_finds {res : ℤ} {dstva : ℕ} {src : List (BitVec 8)} (h : AddressSpace s.mem r T)
    (hrun : copyout r dstva src s = .ok (res, t)) :
    (∀ x b, x < dstva ∨ dstva + src.length ≤ x → UserFinds s T x b → UserFinds t T x b) ∧
      (¬ res < 0 → ∀ i (hi : i < src.length), UserFinds t T (dstva + i) src[i]) := by
  obtain ⟨res', t', hrun', -, hframe, hres⟩ := h.copyoutLoop src.length dstva src le_rfl
  rw [copyout, hrun'] at hrun
  cases hrun
  refine ⟨fun x b hx hb => ⟨hb.1, ?_⟩, fun hneg i hi => ?_⟩
  · rw [hframe _ fun i hi hw e => ?_, hb.2]
    have := h.phys_inj hb.1 hw.1 e
    omega
  · obtain ⟨-, hall⟩ | ⟨rfl, -⟩ := hres
    · obtain ⟨hw, hbyte⟩ := hall i hi
      exact ⟨hw.1, by rw [hbyte, List.getD_eq_getElem _ _ hi]⟩
    · exact absurd (by decide) hneg

/-- On a stack with a page to spare the pushes do not wrap around. -/
theorem pushDown_eq (hsp : 16 ∣ sp) (hlt : sp < 2 ^ 64) (hpage : PGSIZE ≤ sp) (hn : n ≤ PGSIZE) :
    sp = pushDown sp n + roundUp 16 n := by
  obtain ⟨q, rfl⟩ := hsp
  unfold PGSIZE at hpage hn
  have hmod : (16 * q + 2 ^ 64 - n) % 2 ^ 64 = 16 * q - n := by omega
  simp only [pushDown, hmod, roundUp]
  omega

theorem strAt_congr {a : ℕ} (h : SamePage m m' a) : strAt m' a = strAt m a := by
  have hread : Memory.read m' a PGSIZE = Memory.read m a PGSIZE := by
    refine List.map_congr_left fun i hi => ?_
    have := List.mem_range.1 hi
    unfold PGSIZE at this
    exact h _ (by omega) (by omega)
  rw [strAt, strAt, hread]

theorem length_words (ws : List ℕ) : (words ws).length = 8 * ws.length := by
  induction ws with
  | nil => rfl
  | cons w ws ih =>
    rw [words, List.flatMap_cons, List.length_append, List.length_map, List.length_range, List.length_cons]
    rw [words] at ih
    omega

/-- The arguments are strings in pages of the kernel. -/
def Args (m : Mem) (own : Owners) (argv : List ℕ) : Prop :=
  ∀ a ∈ argv, own a = some .held ∧ (strAt m a).length < PGSIZE

/-- What `exec` pushes for the arguments. -/
def strings (m : Mem) (argv : List ℕ) : List (List (BitVec 8)) := argv.map fun a => strAt m a ++ [0]

theorem strings_congr {argv : List ℕ} (h : ∀ a ∈ argv, SamePage m m' a) : strings m' argv = strings m argv :=
  List.map_congr_left fun a ha => by rw [strAt_congr (h a ha)]

theorem Args.congr {own' : Owners} {argv : List ℕ} (h : Args m own argv) (hown : ∀ a ∈ argv, own' a = own a)
    (hm : ∀ a ∈ argv, SamePage m m' a) : Args m' own' argv := fun a ha => by
  rw [hown a ha, strAt_congr (hm a ha)]
  exact h a ha

theorem Args.samePage {argv : List ℕ} (h : Args s.mem own argv) (hf : Frame (UserPages r) s own t own) :
    ∀ a ∈ argv, SamePage s.mem t.mem a := fun a ha =>
  (hf.keep a .held (by rintro ⟨v, e⟩; cases e) (h a ha).1).2

end Xv6.Sys
