import Mathlib

/-!
# Code with state and panics

`Code ε σ α` is code that changes a state `σ`, returns an `α`, or stops with an error.  A
specification has the form `c s = .ok (a, t) ∧ …`; the lemmas here run a composed program from the
results of its parts.  `Ensures c s Q E` is the specification of code that may stop: what it returns meets
`Q`, and if it stops the error meets `E`.
-/

namespace Kernel

abbrev Code (ε σ : Type) (α : Type) := StateT σ (Except ε) α

variable {ε σ τ α β : Type} {s t : σ} {a : α} {c : Code ε σ α} {k : α → Code ε σ β}
  {e : ε}

theorem run_pure (a : α) (s : σ) : (pure a : Code ε σ α) s = .ok (a, s) := rfl

theorem run_get (s : σ) : (get : Code ε σ σ) s = .ok (s, s) := rfl

theorem run_modify (f : σ → σ) (s : σ) : (modify f : Code ε σ PUnit) s = .ok (⟨⟩, f s) := rfl

theorem run_set (s t : σ) : (set t : Code ε σ PUnit) s = .ok (⟨⟩, t) := rfl

theorem run_bind (h : c s = .ok (a, t)) :
    (c >>= k) s = k a t := by
  change (c s >>= fun p => k p.1 p.2) = _
  rw [h]
  rfl

theorem run_bind_error (h : c s = .error e) :
    (c >>= k) s = .error e := by
  change (c s >>= fun p => k p.1 p.2) = _
  rw [h]
  rfl

/-- A program that has returned did so in all its parts. -/
theorem run_bind_eq_ok {b : β} {u : σ}
    (h : (c >>= k) s = .ok (b, u)) : ∃ a t, c s = .ok (a, t) ∧ k a t = .ok (b, u) := by
  change (c s >>= fun p => k p.1 p.2) = _ at h
  cases hc : c s with
  | error e =>
    rw [hc] at h
    cases h
  | ok p =>
    rw [hc] at h
    exact ⟨p.1, p.2, rfl, h⟩

/-- Code that works on a part of the state. -/
def zoom (get : σ → τ) (set : σ → τ → σ) (c : Code ε τ α) : Code ε σ α := fun s =>
  match c (get s) with
  | .ok (a, t) => .ok (a, set s t)
  | .error e => .error e

theorem run_zoom {get : σ → τ} {set : σ → τ → σ} {c : Code ε τ α} {t : τ}
    (h : c (get s) = .ok (a, t)) : zoom get set c s = .ok (a, set s t) := by
  rw [zoom, h]

theorem run_zoom_eq_ok {get : σ → τ} {set : σ → τ → σ} {c : Code ε τ α} {u : σ}
    (h : zoom get set c s = .ok (a, u)) : ∃ t, c (get s) = .ok (a, t) ∧ u = set s t := by
  rw [zoom] at h
  cases hc : c (get s) with
  | error e =>
    rw [hc] at h
    cases h
  | ok x =>
    rw [hc] at h
    cases h
    exact ⟨x.2, rfl, rfl⟩

/-! ## Postconditions -/

/-- From `s` the code returns a result and a state that meet `Q`, or stops with an error that meets `E`. -/
def Ensures (c : Code ε σ α) (s : σ) (Q : α → σ → Prop) (E : ε → Prop) : Prop :=
  match c s with
  | .ok (a, t) => Q a t
  | .error e => E e

variable {R : β → σ → Prop} {Q Q' : α → σ → Prop} {E E' : ε → Prop}

theorem Ensures.of_ok (h : Ensures c s Q E) (hc : c s = .ok (a, t)) : Q a t := by
  rwa [Ensures, hc] at h

theorem Ensures.of_error (h : Ensures c s Q E) (hc : c s = .error e) : E e := by
  rwa [Ensures, hc] at h

theorem ensures_of_eq (hc : c s = .ok (a, t)) (h : Q a t) : Ensures c s Q E := by
  rwa [Ensures, hc]

theorem ensures_pure (h : Q a s) : Ensures (pure a) s Q E := h

theorem ensures_set {Q : PUnit → σ → Prop} (h : Q ⟨⟩ t) : Ensures (set t : Code ε σ PUnit) s Q E := h

theorem ensures_modify {f : σ → σ} {Q : PUnit → σ → Prop} (h : Q ⟨⟩ (f s)) :
    Ensures (modify f : Code ε σ PUnit) s Q E := h

theorem ensures_throw (h : E e) : Ensures (throw e : Code ε σ α) s Q E := h

theorem Ensures.mono (h : Ensures c s Q E) (hQ : ∀ a t, Q a t → Q' a t) (hE : ∀ e, E e → E' e) :
    Ensures c s Q' E' := by
  rw [Ensures] at h ⊢
  split at h
  · exact hQ _ _ h
  · exact hE _ h

/-- What a first part ensures is what the second one may assume. -/
theorem Ensures.bind (h : Ensures c s Q E)
    (hE : ∀ e, E e → E' e) (hk : ∀ a t, Q a t → Ensures (k a) t R E') :
    Ensures (c >>= k) s R E' := by
  cases hc : c s with
  | error e =>
    rw [Ensures, run_bind_error hc]
    exact hE e (h.of_error hc)
  | ok p =>
    rw [Ensures, run_bind hc]
    exact hk p.1 p.2 (h.of_ok hc)

theorem ensures_get_bind {k : σ → Code ε σ β} (h : Ensures (k s) s R E) :
    Ensures (get >>= k) s R E := h

theorem ensures_set_bind {k : PUnit → Code ε σ β} (h : Ensures (k ⟨⟩) t R E) :
    Ensures (set t >>= k) s R E := h

theorem ensures_modify_bind {f : σ → σ} {k : PUnit → Code ε σ β}
    (h : Ensures (k ⟨⟩) (f s) R E) : Ensures (modify f >>= k) s R E := h

theorem Ensures.and {R : α → σ → Prop} (h : Ensures c s Q E) (h' : Ensures c s R E') :
    Ensures c s (fun a t => Q a t ∧ R a t) fun e => E e ∧ E' e := by
  rw [Ensures] at h h' ⊢
  split at h <;> simp_all

theorem ensures_true : Ensures c s (fun _ _ => True) fun _ => True := by
  rw [Ensures]
  split <;> trivial

end Kernel
