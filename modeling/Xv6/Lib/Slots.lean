import Mathlib

/-!
# A finite map in slots

A list of slots, each of which is free or holds a key and a value.  `find` returns the position and the
value of the first slot that holds a key, and `free` the position of the first free slot, which is the end
of the list if there is none.  If the keys are distinct, `put` in a free slot adds a binding to the map, and
`put` of a free slot removes one.
-/

namespace Slots

variable {K V : Type} {l : List (Option (K × V))} {x : Option (K × V)} {k : K} {v : V} {i j : ℕ}

/-- The position of the first free slot. -/
def free (l : List (Option (K × V))) : ℕ := l.findIdx Option.isNone

/-- A new slot, or another content of one. -/
def put (l : List (Option (K × V))) (j : ℕ) (x : Option (K × V)) : List (Option (K × V)) :=
  if j < l.length then l.set j x else l ++ [x]

/-- No two slots hold the same key. -/
def Distinct (l : List (Option (K × V))) : Prop :=
  ∀ (i j : ℕ) (k : K) (v v' : V), l[i]? = some (some (k, v)) → l[j]? = some (some (k, v')) → i = j

/-! ## Changes of a slot -/

theorem free_le (l : List (Option (K × V))) : free l ≤ l.length := List.findIdx_le_length

theorem getElem?_free (h : free l < l.length) : l[free l]? = some none := by
  rw [List.getElem?_eq_getElem h, Option.some_inj]
  exact Option.isNone_iff_eq_none.1 (List.findIdx_getElem (w := h))

theorem getElem?_put_self (hj : j ≤ l.length) : (put l j x)[j]? = some x := by
  unfold put
  split_ifs with h
  · rw [List.getElem?_set_self h]
  · rw [show j = l.length by omega, List.getElem?_append_right le_rfl, Nat.sub_self]
    rfl

theorem getElem?_put_of_ne (hj : j ≤ l.length) (hi : i ≠ j) : (put l j x)[i]? = l[i]? := by
  unfold put
  split_ifs with h
  · rw [List.getElem?_set_ne hi.symm]
  · by_cases hlt : i < l.length
    · rw [List.getElem?_append_left hlt]
    · rw [List.getElem?_eq_none (by rw [List.length_append, List.length_singleton]; omega),
        List.getElem?_eq_none (by omega)]

theorem mem_put_iff (hj : j ≤ l.length) {y : Option (K × V)} : y ∈ put l j x ↔ y = x ∨ ∃ i ≠ j, l[i]? = some y := by
  rw [List.mem_iff_getElem?]
  constructor
  · rintro ⟨i, hi⟩
    by_cases hij : i = j
    · rw [hij, getElem?_put_self hj, Option.some_inj] at hi
      exact .inl hi.symm
    · rw [getElem?_put_of_ne hj hij] at hi
      exact .inr ⟨i, hij, hi⟩
  · rintro (rfl | ⟨i, hij, hi⟩)
    · exact ⟨j, getElem?_put_self hj⟩
    · exact ⟨i, by rw [getElem?_put_of_ne hj hij, hi]⟩

/-- Distinctness after a change that does not repeat a key of another slot. -/
theorem Distinct.put (hd : Distinct l) (hj : j ≤ l.length)
    (hx : ∀ k v, x = some (k, v) → ∀ i ≠ j, ∀ v', l[i]? ≠ some (some (k, v'))) : Distinct (put l j x) := by
  intro i i' k v v' hi hi'
  by_cases h : i = j <;> by_cases h' : i' = j
  · rw [h, h']
  · rw [h, getElem?_put_self hj, Option.some_inj] at hi
    rw [getElem?_put_of_ne hj h'] at hi'
    exact absurd hi' (hx k v hi i' h' v')
  · rw [h', getElem?_put_self hj, Option.some_inj] at hi'
    rw [getElem?_put_of_ne hj h] at hi
    exact absurd hi (hx k v' hi' i h v)
  · rw [getElem?_put_of_ne hj h] at hi
    rw [getElem?_put_of_ne hj h'] at hi'
    exact hd i i' k v v' hi hi'

/-- The keys that are in the slots, as a list. -/
theorem distinct_of_nodup (h : (l.filterMap fun x => x.map Prod.fst).Nodup) : Distinct l := by
  induction l with
  | nil =>
    intro i j k v v' hi
    simp at hi
  | cons x l ih =>
    have hmem {j : ℕ} {k : K} {v : V} (hj : l[j]? = some (some (k, v))) : k ∈ l.filterMap fun x => x.map Prod.fst :=
      List.mem_filterMap.2 ⟨_, List.mem_of_getElem? hj, rfl⟩
    have hhead {j : ℕ} {k : K} {v v' : V} (hx : x = some (k, v)) (hj : l[j]? = some (some (k, v'))) : False := by
      rw [List.filterMap_cons_some (b := k) (by rw [hx]; rfl), List.nodup_cons] at h
      exact h.1 (hmem hj)
    have htail : Distinct l := ih (h.sublist ((List.sublist_cons_self x l).filterMap _))
    intro i j k v v' hi hj
    cases i with
    | zero =>
      cases j with
      | zero => rfl
      | succ j => exact (hhead (Option.some_inj.1 hi) hj).elim
    | succ i =>
      cases j with
      | zero => exact (hhead (Option.some_inj.1 hj) hi).elim
      | succ j => rw [htail i j k v v' hi hj]

theorem Distinct.unbind (hd : Distinct l) (h : j ≤ l.length) : Distinct (Slots.put l j none) :=
  hd.put h fun _ _ h => by cases h

variable [DecidableEq K]

/-! ## The map -/

def find (k : K) : List (Option (K × V)) → Option (ℕ × V)
  | [] => none
  | x :: l =>
    match x.filter (·.1 = k) with
    | some (_, v) => some (0, v)
    | none => (find k l).map fun p => (p.1 + 1, p.2)

def get (l : List (Option (K × V))) (k : K) : Option V := (find k l).map Prod.snd

theorem find_cons_of_mem (h : x = some (k, v)) : find k (x :: l) = some (0, v) := by
  subst h
  simp [find, Option.filter]

theorem find_cons_of_notMem (h : ∀ v, x ≠ some (k, v)) :
    find k (x :: l) = (find k l).map fun p => (p.1 + 1, p.2) := by
  cases x with
  | none => simp [find]
  | some p =>
    have hne : p.1 ≠ k := fun heq => h p.2 (by rw [← heq])
    simp [find, Option.filter, hne]

theorem find_eq_none_iff : find k l = none ↔ ∀ v, some (k, v) ∉ l := by
  induction l with
  | nil => simp [find]
  | cons x l ih =>
    by_cases h : ∃ v, x = some (k, v)
    · obtain ⟨v, rfl⟩ := h
      rw [find_cons_of_mem rfl]
      simp only [reduceCtorEq, false_iff, not_forall, not_not]
      exact ⟨v, List.mem_cons_self⟩
    · have hx (v : V) : x ≠ some (k, v) := fun heq => h ⟨v, heq⟩
      rw [find_cons_of_notMem hx, Option.map_eq_none_iff, ih]
      refine forall_congr' fun v => ?_
      rw [List.mem_cons, or_iff_right (hx v).symm]

theorem getElem?_of_find (h : find k l = some (j, v)) : l[j]? = some (some (k, v)) := by
  induction l generalizing j with
  | nil => cases h
  | cons x l ih =>
    by_cases hx : ∃ v, x = some (k, v)
    · obtain ⟨v', rfl⟩ := hx
      rw [find_cons_of_mem rfl, Option.some_inj, Prod.mk.injEq] at h
      obtain ⟨rfl, rfl⟩ := h
      rfl
    · rw [find_cons_of_notMem fun v heq => hx ⟨v, heq⟩, Option.map_eq_some_iff] at h
      obtain ⟨⟨j', v'⟩, hfind, heq⟩ := h
      rw [Prod.mk.injEq] at heq
      obtain ⟨rfl, rfl⟩ := heq
      exact ih hfind

theorem lt_of_find (h : find k l = some (j, v)) : j < l.length :=
  (List.getElem?_eq_some_iff.1 (getElem?_of_find h)).1

/-- With distinct keys the map has the bindings that are in the slots. -/
theorem Distinct.get_eq_some_iff (hd : Distinct l) : get l k = some v ↔ some (k, v) ∈ l := by
  rw [get, Option.map_eq_some_iff]
  constructor
  · rintro ⟨⟨j, v'⟩, hfind, rfl⟩
    exact List.mem_of_getElem? (getElem?_of_find hfind)
  · intro hmem
    cases hfind : find k l with
    | none => exact absurd hmem (find_eq_none_iff.1 hfind v)
    | some p =>
      obtain ⟨i, hi⟩ := List.mem_iff_getElem?.1 hmem
      have hp := getElem?_of_find hfind
      rw [hd i p.1 k v p.2 hi hp, hp] at hi
      simp only [Option.some_inj, Prod.mk.injEq, true_and] at hi
      exact ⟨p, rfl, hi⟩

theorem get_eq_none_iff : get l k = none ↔ ∀ v, some (k, v) ∉ l := by
  rw [get, Option.map_eq_none_iff, find_eq_none_iff]

/-! ## Changes of the map -/

section Bind

variable (hd : Distinct l) (hk : get l k = none)

include hd hk

theorem Distinct.bind (hj : j ≤ l.length) (v : V) : Distinct (Slots.put l j (some (k, v))) := by
  apply hd.put hj
  intro k₁ v₁ h i _ v' hi
  simp only [Option.some_inj, Prod.mk.injEq] at h
  rw [← h.1] at hi
  exact get_eq_none_iff.1 hk v' (List.mem_of_getElem? hi)

theorem get_bind (v : V) : get (put l (free l) (some (k, v))) = Function.update (get l) k (some v) := by
  have hj := free_le l
  have hd' := hd.bind hk hj v
  funext k₁
  refine Option.ext fun v₁ => ?_
  rw [hd'.get_eq_some_iff, mem_put_iff hj]
  by_cases h : k₁ = k
  · rw [h, Function.update_self]
    simp only [Option.some_inj, Prod.mk.injEq, true_and]
    refine (or_iff_left ?_).trans eq_comm
    rintro ⟨i, -, hi⟩
    exact get_eq_none_iff.1 hk v₁ (List.mem_of_getElem? hi)
  · rw [Function.update_of_ne h, hd.get_eq_some_iff, List.mem_iff_getElem?]
    simp only [Option.some_inj, Prod.mk.injEq, h, false_and, false_or]
    refine exists_congr fun i => and_iff_right_of_imp fun hi => ?_
    rintro rfl
    -- The slot that has been used was free.
    have hlt := (List.getElem?_eq_some_iff.1 hi).1
    rw [getElem?_free hlt] at hi
    cases hi

end Bind

section Unbind

variable (hd : Distinct l) (hj : l[j]? = some (some (k, v)))

include hd hj

theorem get_unbind : get (put l j none) = Function.update (get l) k none := by
  have hle := (List.getElem?_eq_some_iff.1 hj).1.le
  have hd' := hd.unbind hle
  funext k₁
  refine Option.ext fun v₁ => ?_
  rw [hd'.get_eq_some_iff, mem_put_iff hle]
  simp only [reduceCtorEq, false_or]
  by_cases h : k₁ = k
  · rw [h, Function.update_self]
    refine iff_of_false ?_ (by simp)
    rintro ⟨i, hij, hi⟩
    exact hij (hd i j k v₁ v hi hj)
  · rw [Function.update_of_ne h, hd.get_eq_some_iff, List.mem_iff_getElem?]
    refine exists_congr fun i => and_iff_right_of_imp fun hi => ?_
    rintro rfl
    rw [hj] at hi
    simp only [Option.some_inj, Prod.mk.injEq] at hi
    exact h hi.1.symm

end Unbind

end Slots
