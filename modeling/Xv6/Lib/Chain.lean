import Mathlib

/-!
# Null-terminated linked lists

`Chain next null a l` says that following `next` from `a` visits the nodes `l` and then reaches
`null`.  The list is determined by its head, has no repeated node, and depends on `next` at its own
nodes only.
-/

namespace LinkedList

variable {α : Type*}

/-- Following `next` from `a` visits the nodes of the list and ends at `null`. -/
def Chain (next : α → α) (null : α) : α → List α → Prop
  | a, [] => a = null
  | a, p :: l => a = p ∧ p ≠ null ∧ Chain next null (next p) l

variable {next next' : α → α} {null : α}

theorem chain_null_iff {l : List α} : Chain next null null l ↔ l = [] := by
  cases l with
  | nil => simp [Chain]
  | cons p l => simpa [Chain] using fun h => absurd h.symm

theorem Chain.exists_cons {a : α} {l : List α} (h : Chain next null a l) (ha : a ≠ null) :
    ∃ l', l = a :: l' ∧ Chain next null (next a) l' := by
  cases l with
  | nil => exact absurd h ha
  | cons p l =>
    obtain ⟨rfl, -, h⟩ := h
    exact ⟨l, rfl, h⟩

theorem Chain.unique {a : α} {l l' : List α} (h : Chain next null a l) (h' : Chain next null a l') :
    l = l' := by
  induction l generalizing a l' with
  | nil =>
    obtain rfl : a = null := h
    exact (chain_null_iff.1 h').symm
  | cons p l ih =>
    obtain ⟨rfl, hp, h⟩ := h
    obtain ⟨l'', rfl, h''⟩ := h'.exists_cons hp
    rw [ih h h'']

theorem Chain.of_append {a p : α} {l₁ l₂ : List α} (h : Chain next null a (l₁ ++ p :: l₂)) :
    Chain next null p (p :: l₂) := by
  induction l₁ generalizing a with
  | nil =>
    obtain ⟨rfl, hp, h⟩ := h
    exact ⟨rfl, hp, h⟩
  | cons q l₁ ih => exact ih h.2.2

theorem Chain.nodup {a : α} {l : List α} (h : Chain next null a l) : l.Nodup := by
  induction l generalizing a with
  | nil => exact List.nodup_nil
  | cons p l ih =>
    refine List.nodup_cons.2 ⟨fun hp => ?_, ih h.2.2⟩
    obtain ⟨l₁, l₂, rfl⟩ := List.append_of_mem hp
    have h₁ : Chain next null p (p :: (l₁ ++ p :: l₂)) := ⟨rfl, h.2.1, h.2.2⟩
    have h₂ : Chain next null p (p :: l₂) := h.2.2.of_append
    have := congrArg List.length (h₁.unique h₂)
    simp at this
    omega

theorem Chain.congr {a : α} {l : List α} (h : Chain next null a l)
    (heq : ∀ p ∈ l, next' p = next p) : Chain next' null a l := by
  induction l generalizing a with
  | nil => exact h
  | cons p l ih =>
    refine ⟨h.1, h.2.1, ?_⟩
    rw [heq p (by simp)]
    exact ih h.2.2 fun q hq => heq q (by simp [hq])

end LinkedList
