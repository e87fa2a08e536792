import Mathlib

/-!
# Counted references

A table counts how often each of its entries is referenced, and the references are held by others.  The
count is right when it is the sum of the shares of all holders, as functions of the entry.  A step
changes a holder or two, and the sum changes by the difference of their shares (`sum_comp_update`).
When no share is negative, nobody holds more than is counted, and two holders hold no more together.
-/

namespace Shares

variable {ι α ρ : Type*}

section Unit

variable [DecidableEq ρ]

/-- One reference to `r`. -/
def unit (r : ρ) : ρ → ℤ := Pi.single r 1

/-- The references in a list. -/
def units (l : List ρ) : ρ → ℤ := (l.map unit).sum

/-- A slot that may hold a reference. -/
def held (x : Option ρ) : ρ → ℤ := units x.toList

@[simp] theorem units_nil : units ([] : List ρ) = 0 := rfl

@[simp] theorem units_cons (r : ρ) (l : List ρ) : units (r :: l) = unit r + units l := by
  simp [units]

@[simp] theorem held_none : held (none : Option ρ) = 0 := rfl

@[simp] theorem held_some (r : ρ) : held (some r) = unit r := by simp [held]

theorem unit_apply (r x : ρ) : unit r x = if x = r then 1 else 0 := Pi.single_apply r 1 x

@[simp] theorem unit_self (r : ρ) : unit r r = 1 := Pi.single_eq_same r 1

theorem unit_of_ne {r x : ρ} (h : x ≠ r) : unit r x = 0 := Pi.single_eq_of_ne h 1

theorem units_apply (l : List ρ) (x : ρ) : units l x = l.count x := by
  induction l with
  | nil => simp
  | cons r l ih =>
    rw [units_cons, Pi.add_apply, ih, unit_apply, List.count_cons]
    by_cases h : x = r
    · simp [h, add_comm]
    · simp [h, Ne.symm h]

theorem units_nonneg (l : List ρ) (x : ρ) : 0 ≤ units l x := by
  rw [units_apply]
  exact Int.natCast_nonneg _

theorem held_nonneg (o : Option ρ) (x : ρ) : 0 ≤ held o x := units_nonneg _ x

theorem held_apply (o : Option ρ) (x : ρ) : held o x = if o = some x then 1 else 0 := by
  cases o with
  | none => simp
  | some r => simp [unit_apply, eq_comm]

end Unit

variable [Fintype ι]

theorem sum_comp_update [DecidableEq ι] {M : Type*} [AddCommGroup M] (g : α → M) (f : ι → α) (i : ι) (x : α) :
    ∑ j, g (Function.update f i x j) = ∑ j, g (f j) - g (f i) + g x := by
  have hrest : ∑ j ∈ Finset.univ.erase i, g (Function.update f i x j) =
      ∑ j ∈ Finset.univ.erase i, g (f j) :=
    Finset.sum_congr rfl fun j hj => by rw [Function.update_of_ne (Finset.ne_of_mem_erase hj)]
  rw [← Finset.add_sum_erase _ _ (Finset.mem_univ i), hrest, Function.update_self,
    ← Finset.add_sum_erase _ (fun j => g (f j)) (Finset.mem_univ i)]
  abel

/-- Nobody holds more than all together. -/
theorem le_sum {f : ι → ρ → ℤ} (h : ∀ i r, 0 ≤ f i r) (i : ι) (r : ρ) : f i r ≤ (∑ j, f j) r := by
  rw [Finset.sum_apply]
  exact Finset.single_le_sum (fun j _ => h j r) (Finset.mem_univ i)

theorem add_le_sum {f : ι → ρ → ℤ} (h : ∀ i r, 0 ≤ f i r) {i j : ι} (hij : i ≠ j) (r : ρ) :
    f i r + f j r ≤ (∑ k, f k) r := by
  rw [Finset.sum_apply]
  exact Finset.add_le_sum (fun k _ => h k r) (Finset.mem_univ i) (Finset.mem_univ j) hij

theorem sum_nonneg {f : ι → ρ → ℤ} (h : ∀ i r, 0 ≤ f i r) (r : ρ) : 0 ≤ (∑ j, f j) r := by
  rw [Finset.sum_apply]
  exact Finset.sum_nonneg fun j _ => h j r

end Shares
