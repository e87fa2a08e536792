import Mathlib

/-!
# Allocation with one owner

A table `P` of references to things that are allocated one by one; `0` is no reference.  `Owners P used`
says that the used things are those that the table refers to, and that it refers to each of them once.
Storing a reference to an unused thing, and clearing one, keep that.
-/

variable {ι β : Type*} [Zero β]

structure Owners (P : ι → β) (used : Set β) : Prop where
  inj : ∀ x y, P x ≠ 0 → P x = P y → x = y
  mem_iff : ∀ b, b ∈ used ↔ b ≠ 0 ∧ ∃ x, P x = b

namespace Owners

variable {P : ι → β} {used : Set β} {x : ι} {b : β}

theorem mem (h : Owners P used) (hx : P x ≠ 0) : P x ∈ used := (h.mem_iff _).2 ⟨hx, x, rfl⟩

theorem ne_of_notMem (h : Owners P used) (hb : b ∉ used) (h0 : b ≠ 0) (x : ι) : P x ≠ b :=
  fun e => hb ((h.mem_iff b).2 ⟨h0, x, e⟩)

variable [DecidableEq ι]

theorem assign (h : Owners P used) (hx : P x = 0) (h0 : b ≠ 0) (hb : b ∉ used) :
    Owners (Function.update P x b) (insert b used) := by
  have hne := h.ne_of_notMem hb h0
  refine ⟨fun y z hy heq => ?_, fun c => ?_⟩
  · by_cases hyx : y = x <;> by_cases hzx : z = x
    · rw [hyx, hzx]
    · rw [hyx, Function.update_self, Function.update_of_ne hzx] at heq
      exact absurd heq.symm (hne z)
    · rw [hzx, Function.update_self, Function.update_of_ne hyx] at heq
      exact absurd heq (hne y)
    · rw [Function.update_of_ne hyx] at hy heq
      rw [Function.update_of_ne hzx] at heq
      exact h.inj y z hy heq
  · rw [Set.mem_insert_iff, h.mem_iff]
    constructor
    · rintro (rfl | ⟨hc, y, rfl⟩)
      · exact ⟨h0, x, Function.update_self _ _ _⟩
      · have hyx : y ≠ x := by
          rintro rfl
          exact hc hx
        exact ⟨hc, y, Function.update_of_ne hyx _ _⟩
    · rintro ⟨hc, y, hy⟩
      by_cases hyx : y = x
      · rw [hyx, Function.update_self] at hy
        exact .inl hy.symm
      · rw [Function.update_of_ne hyx] at hy
        exact .inr ⟨hc, y, hy⟩

theorem release (h : Owners P used) (hx : P x ≠ 0) :
    Owners (Function.update P x 0) (used \ {P x}) := by
  have hother {y : ι} (hy : y ≠ x) : Function.update P x 0 y = P y := Function.update_of_ne hy _ _
  refine ⟨fun y z hy heq => ?_, fun c => ?_⟩
  · have hyx : y ≠ x := by
      rintro rfl
      exact hy (Function.update_self _ _ _)
    by_cases hzx : z = x
    · rw [hzx, Function.update_self] at heq
      exact absurd heq hy
    · rw [hother hyx] at hy heq
      rw [hother hzx] at heq
      exact h.inj y z hy heq
  · rw [Set.mem_sdiff, Set.mem_singleton_iff, h.mem_iff]
    constructor
    · rintro ⟨⟨hc, y, rfl⟩, hcx⟩
      have hyx : y ≠ x := by
        rintro rfl
        exact hcx rfl
      exact ⟨hc, y, hother hyx⟩
    · rintro ⟨hc, y, hy⟩
      by_cases hyx : y = x
      · rw [hyx, Function.update_self] at hy
        exact absurd hy.symm hc
      · rw [hother hyx] at hy
        refine ⟨⟨hc, y, hy⟩, fun e => hyx (h.inj y x ?_ (hy.trans e))⟩
        rwa [hy]

end Owners
