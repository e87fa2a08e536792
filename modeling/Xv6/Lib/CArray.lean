import Mathlib

/-!
# Fixed-size C arrays

An array of `n` elements is a `Vector`; `load` and `store` are the element accesses of the C
program.  An access outside the array is undefined behaviour in C; here `load` returns a default
there and `store` does nothing.
-/

namespace CArray

variable {α : Type*} {n : ℕ}

/-- Read element `i`. -/
def load [Inhabited α] (a : Vector α n) (i : ℕ) : α := a.getD i default

/-- Write element `i`. -/
def store (a : Vector α n) (i : ℕ) (x : α) : Vector α n := a.setIfInBounds i x

/-- The loop `for (i = s; i < s + k; ++i) a[i] = f(a, i)`. -/
def storeLoop (f : Vector α n → ℕ → α) (s k : ℕ) (a : Vector α n) : Vector α n :=
  (List.range' s k).foldl (fun a i => store a i (f a i)) a

theorem storeLoop_succ (f : Vector α n → ℕ → α) (s k : ℕ) (a : Vector α n) :
    storeLoop f s (k + 1) a =
      store (storeLoop f s k a) (s + k) (f (storeLoop f s k a) (s + k)) := by
  simp [storeLoop, List.range'_concat, List.foldl_append]

variable [Inhabited α]

theorem load_eq_getElem (a : Vector α n) {i : ℕ} (h : i < n) : load a i = a[i] := by
  simp [load, Vector.getD, Array.getD, h]

@[simp] theorem load_store_self (a : Vector α n) {i : ℕ} (h : i < n) (x : α) :
    load (store a i x) i = x := by
  rw [load_eq_getElem _ h]
  exact Vector.getElem_setIfInBounds_self h

@[simp] theorem load_store_ne (a : Vector α n) {i j : ℕ} (h : i ≠ j) (x : α) :
    load (store a i x) j = load a j := by
  by_cases hj : j < n
  · rw [load_eq_getElem _ hj, load_eq_getElem _ hj]
    exact Vector.getElem_setIfInBounds_ne hj h
  · simp [load, Vector.getD, Array.getD, hj]

theorem load_store (a : Vector α n) {i : ℕ} (hi : i < n) (j : ℕ) (x : α) :
    load (store a i x) j = if i = j then x else load a j := by
  split_ifs with h
  · subst h
    exact load_store_self a hi x
  · exact load_store_ne a h x

theorem load_storeLoop_of_notMem (f : Vector α n → ℕ → α) (s k : ℕ) (a : Vector α n) {j : ℕ}
    (h : j < s ∨ s + k ≤ j) : load (storeLoop f s k a) j = load a j := by
  induction k with
  | zero => rfl
  | succ k ih =>
    rw [storeLoop_succ, load_store_ne _ (by omega), ih (by omega)]

/-- If each pass computes `g i` from elements that already hold `g`, the loop extends the part of
the array on which it agrees with `g`. -/
theorem load_storeLoop_of_step (f : Vector α n → ℕ → α) (g : ℕ → α) (s k : ℕ) (hk : s + k ≤ n)
    (a : Vector α n) (ha : ∀ j < s, load a j = g j)
    (step : ∀ i (b : Vector α n), s ≤ i → i < s + k → (∀ j < i, load b j = g j) → f b i = g i) :
    ∀ j < s + k, load (storeLoop f s k a) j = g j := by
  induction k with
  | zero => exact ha
  | succ k ih =>
    have prior := ih (by omega) fun i b h₁ h₂ => step i b h₁ (by omega)
    intro j hj
    rw [storeLoop_succ, load_store _ (by omega)]
    split_ifs with h
    · subst h
      exact step _ _ (by omega) (by omega) prior
    · exact prior j (by omega)

end CArray
