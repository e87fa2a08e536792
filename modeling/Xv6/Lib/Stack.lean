import Mathlib

/-!
# Blocks on a stack

A stack grows downwards; each block is pushed at the next multiple of the alignment that leaves it room.
`Pushed` follows the pushes one by one.  The blocks lie in order, so they are disjoint, and all pointers
are multiples of the alignment when the first one is.
-/

namespace Xv6.Stack

/-- `n` rounded up to a multiple of `al`. -/
def roundUp (al n : ℕ) : ℕ := (n + (al - 1)) / al * al

theorem dvd_roundUp (al n : ℕ) : al ∣ roundUp al n := Dvd.intro_left _ rfl

theorem le_roundUp {al : ℕ} (h : 0 < al) (n : ℕ) : n ≤ roundUp al n := by
  have h₁ := Nat.div_add_mod (n + (al - 1)) al
  have h₂ := Nat.mod_lt (n + (al - 1)) h
  rw [Nat.mul_comm] at h₁
  unfold roundUp
  omega

/-- The room that blocks take. -/
def room {β : Type*} (al : ℕ) (bs : List (List β)) : ℕ := (bs.map fun b => roundUp al b.length).sum

/-- From `sp` down to `sp'` the blocks `bs` were pushed, and `ps` are their addresses; `holds` says what
is in memory. -/
inductive Pushed {β : Type*} (al : ℕ) (holds : ℕ → β → Prop) : ℕ → List (List β) → List ℕ → ℕ → Prop
  | nil (sp : ℕ) : Pushed al holds sp [] [] sp
  | cons {sp p sp' : ℕ} {b : List β} {bs : List (List β)} {ps : List ℕ} (hp : sp = p + roundUp al b.length)
      (hb : ∀ i (hi : i < b.length), holds (p + i) b[i]) (hrest : Pushed al holds p bs ps sp') :
      Pushed al holds sp (b :: bs) (p :: ps) sp'

namespace Pushed

variable {β : Type*} {al : ℕ} {holds holds' : ℕ → β → Prop} {sp mid sp' : ℕ} {b : List β}
  {bs bs' : List (List β)} {ps ps' : List ℕ}

theorem length_eq (h : Pushed al holds sp bs ps sp') : ps.length = bs.length := by
  induction h with
  | nil => rfl
  | cons _ _ _ ih => rw [List.length_cons, List.length_cons, ih]

theorem eq_add_room (h : Pushed al holds sp bs ps sp') : sp = sp' + room al bs := by
  induction h with
  | nil => rfl
  | cons hp _ _ ih =>
    simp only [room, List.map_cons, List.sum_cons] at ih ⊢
    omega

theorem append (h : Pushed al holds sp bs ps mid) (h' : Pushed al holds mid bs' ps' sp') :
    Pushed al holds sp (bs ++ bs') (ps ++ ps') sp' := by
  induction h with
  | nil => exact h'
  | cons hp hb _ ih => exact .cons hp hb (ih h')

/-- The pointers are at or above the end of the stack. -/
theorem le_of_mem (h : Pushed al holds sp bs ps sp') : ∀ p ∈ ps, sp' ≤ p := by
  induction h with
  | nil => simp
  | cons hp _ hrest ih =>
    intro q hq
    rcases List.mem_cons.1 hq with rfl | hq
    · have := hrest.eq_add_room
      omega
    · exact ih q hq

/-- The pointers to blocks that are not empty are below the start of the stack. -/
theorem lt_of_mem (h : Pushed al holds sp bs ps sp') (hal : 0 < al) (hne : ∀ b ∈ bs, b ≠ []) :
    ∀ p ∈ ps, p < sp := by
  induction h with
  | nil => simp
  | @cons sp p sp' b bs ps hp _ _ ih =>
    have hle := le_roundUp hal b.length
    have hpos := List.length_pos_iff.2 (hne b List.mem_cons_self)
    intro q hq
    rcases List.mem_cons.1 hq with rfl | hq
    · omega
    · have := ih (fun c hc => hne c (List.mem_cons_of_mem _ hc)) q hq
      omega

/-- Blocks survive a change below them. -/
theorem imp (h : Pushed al holds sp bs ps sp') (hi : ∀ x c, sp' ≤ x → holds x c → holds' x c) :
    Pushed al holds' sp bs ps sp' := by
  induction h with
  | nil => exact .nil _
  | cons hp hb hrest ih =>
    have := hrest.eq_add_room
    exact .cons hp (fun i hlt => hi _ _ (by omega) (hb i hlt)) (ih hi)

theorem dvd (h : Pushed al holds sp bs ps sp') (hsp : al ∣ sp) : al ∣ sp' ∧ ∀ p ∈ ps, al ∣ p := by
  induction h with
  | nil => exact ⟨hsp, by simp⟩
  | cons hp _ _ ih =>
    have hdvd : al ∣ _ := (Nat.dvd_add_left (dvd_roundUp al _)).1 (hp ▸ hsp)
    obtain ⟨h₁, h₂⟩ := ih hdvd
    exact ⟨h₁, List.forall_mem_cons.2 ⟨hdvd, h₂⟩⟩

theorem of_mem_zip (h : Pushed al holds sp bs ps sp') (hal : 0 < al) {p : ℕ} (hm : (p, b) ∈ ps.zip bs) :
    p + b.length ≤ sp ∧ ∀ i (hi : i < b.length), holds (p + i) b[i] := by
  induction h with
  | nil => simp at hm
  | @cons sp q sp' c bs ps hp hb hrest ih =>
    have hle := le_roundUp hal c.length
    rw [List.zip_cons_cons, List.mem_cons, Prod.mk.injEq] at hm
    rcases hm with ⟨rfl, rfl⟩ | hm
    · exact ⟨by omega, hb⟩
    · obtain ⟨h₁, h₂⟩ := ih hm
      exact ⟨by omega, h₂⟩

/-- Each block ends before those pushed earlier begin. -/
theorem pairwise (h : Pushed al holds sp bs ps sp') (hal : 0 < al) :
    (ps.zip bs).Pairwise fun x y => y.1 + y.2.length ≤ x.1 := by
  induction h with
  | nil => exact .nil
  | cons hp _ hrest ih =>
    rw [List.zip_cons_cons, List.pairwise_cons]
    exact ⟨fun y hy => (hrest.of_mem_zip hal hy).1, ih⟩

end Pushed

end Xv6.Stack
