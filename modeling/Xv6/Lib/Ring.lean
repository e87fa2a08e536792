import Mathlib

/-!
# Doubly linked rings

`Path k a l c` says that the links `k` lead from `a` over the nodes `l` to `c`, forwards through
`next` and backwards through `prev`; a ring is a path from its head to itself.  The pointer
assignments that take a node out (`unlink`) and put a node behind the head (`insertFront`) act on the
list of the nodes as expected, and a scan in either direction finds the first node with a property.
-/

namespace Ring

variable {α : Type*}

/-- The two pointer fields of the nodes. -/
structure Links (α : Type*) where
  next : α → α
  prev : α → α

def Path (k : Links α) : α → List α → α → Prop
  | a, [], c => k.next a = c ∧ k.prev c = a
  | a, b :: l, c => k.next a = b ∧ k.prev b = a ∧ Path k b l c

/-- The nodes of the ring through `head`, in the order of `next`. -/
structure IsRing (k : Links α) (head : α) (l : List α) : Prop where
  path : Path k head l head
  nodup : (head :: l).Nodup

/-- The ring read backwards. -/
def Links.swap (k : Links α) : Links α := ⟨k.prev, k.next⟩

section Update

variable [DecidableEq α]

/-- `b->next->prev = b->prev; b->prev->next = b->next`. -/
def unlink (k : Links α) (b : α) : Links α :=
  let prev := Function.update k.prev (k.next b) (k.prev b)
  ⟨Function.update k.next (prev b) (k.next b), prev⟩

/-- `b->next = head.next; b->prev = &head; head.next->prev = b; head.next = b`. -/
def insertFront (k : Links α) (head b : α) : Links α :=
  let next := Function.update k.next b (k.next head)
  let prev := Function.update k.prev b head
  ⟨Function.update next head b, Function.update prev (next head) b⟩

/-- The loop that follows `f` from `a` up to the head, for a node that satisfies `p`; `fuel` bounds
its passes. -/
def scan (f : α → α) (head : α) (p : α → Bool) : ℕ → α → Option α
  | 0, _ => none
  | fuel + 1, a => if a = head then none else if p a then some a else scan f head p fuel (f a)

end Update

variable {k k' : Links α} {a b c head : α} {l l₁ l₂ : List α}

/-! ## Paths -/

theorem path_append : Path k a (l₁ ++ b :: l₂) c ↔ Path k a l₁ b ∧ Path k b l₂ c := by
  induction l₁ generalizing a with
  | nil => simp [Path, and_assoc]
  | cons d l₁ ih => simp [Path, ih, and_assoc]

theorem Path.congr (h : Path k a l c) (hnext : ∀ x ∈ a :: l, k'.next x = k.next x)
    (hprev : ∀ x ∈ l ++ [c], k'.prev x = k.prev x) : Path k' a l c := by
  induction l generalizing a with
  | nil =>
    have h₁ := hnext a (by simp)
    have h₂ := hprev c (by simp)
    exact ⟨h₁.trans h.1, h₂.trans h.2⟩
  | cons b l ih =>
    refine ⟨(hnext a (by simp)).trans h.1, (hprev b (by simp)).trans h.2.1, ?_⟩
    exact ih h.2.2 (fun x hx => hnext x (List.mem_cons_of_mem _ hx))
      fun x hx => hprev x (List.mem_cons_of_mem _ hx)

theorem Path.next_mem (h : Path k a l c) : k.next a ∈ l ++ [c] := by
  cases l with
  | nil => simp [h.1]
  | cons b l => simp [h.1]

theorem Path.prev_mem (h : Path k a l c) : k.prev c ∈ a :: l := by
  induction l generalizing a with
  | nil => simp [h.2]
  | cons b l ih => exact List.mem_cons_of_mem _ (ih h.2.2)

theorem Path.swap (h : Path k a l c) : Path k.swap c l.reverse a := by
  induction l generalizing a with
  | nil => exact ⟨h.2, h.1⟩
  | cons b l ih =>
    rw [List.reverse_cons, path_append]
    exact ⟨ih h.2.2, h.2.1, h.1⟩

theorem IsRing.swap (h : IsRing k head l) : IsRing k.swap head l.reverse := by
  refine ⟨h.path.swap, ?_⟩
  have hn := h.nodup
  rw [List.nodup_cons] at hn ⊢
  exact ⟨by simpa using hn.1, List.nodup_reverse.2 hn.2⟩

/-! ## Changing the ring -/

section Update

variable [DecidableEq α]

theorem Path.unlink (h₁ : Path k a l₁ b) (h₂ : Path k b l₂ c) (hn : (a :: l₁ ++ b :: l₂).Nodup)
    (hc : c ∉ l₁ ++ b :: l₂) : Path (unlink k b) a (l₁ ++ l₂) c := by
  have hnextb := h₂.next_mem
  have hb : k.next b ≠ b := by
    rintro e
    rw [e] at hnextb
    rcases List.mem_append.1 hnextb with hb | hb
    · simp [List.nodup_append, hb] at hn
    · exact hc (by simp [List.mem_singleton.1 hb])
  have hprev (x : α) (hx : x ≠ k.next b) : (Ring.unlink k b).prev x = k.prev x :=
    Function.update_of_ne hx _ _
  have hnext (x : α) (hx : x ≠ k.prev b) : (Ring.unlink k b).next x = k.next x := by
    refine Function.update_of_ne ?_ _ _
    rwa [Function.update_of_ne hb.symm]
  have hnext' : (Ring.unlink k b).next (k.prev b) = k.next b := by
    simp [Ring.unlink, Function.update_of_ne hb.symm]
  have hprev' : (Ring.unlink k b).prev (k.next b) = k.prev b := Function.update_self _ _ _
  clear hnextb hb
  induction l₁ generalizing a with
  | nil =>
    rw [h₁.2] at hprev' hnext'
    cases l₂ with
    | nil =>
      rw [h₂.1] at hprev' hnext'
      exact ⟨hnext', hprev'⟩
    | cons d l₂ =>
      obtain ⟨hd, -, h₂⟩ := h₂
      rw [hd] at hprev' hnext'
      refine ⟨hnext', hprev', h₂.congr (fun x hx => hnext x ?_) fun x hx => hprev x ?_⟩
      · rintro rfl
        rw [h₁.2] at hx
        simp only [List.nil_append, List.cons_append, List.nodup_cons, List.mem_cons] at hn hx
        exact hn.1 (.inr hx)
      · rintro rfl
        rw [hd] at hx
        rcases List.mem_append.1 hx with hx | hx
        · simp only [List.nil_append, List.cons_append, List.nodup_cons] at hn
          exact hn.2.2.1 hx
        · exact hc (by simp [List.mem_singleton.1 hx])
  | cons d l₁ ih =>
    obtain ⟨had, hda, h₁⟩ := h₁
    have hn' : (d :: l₁ ++ b :: l₂).Nodup := (List.nodup_cons.1 hn).2
    refine ⟨?_, ?_, ih h₁ hn' fun hmem => hc (List.mem_cons_of_mem _ hmem)⟩
    · rw [hnext a fun e => ?_, had]
      have hmem := h₁.prev_mem
      rw [← e] at hmem
      exact (List.nodup_cons.1 hn).1 (List.mem_append_left _ hmem)
    · rw [hprev d fun e => ?_, hda]
      have hmem := h₂.next_mem
      rw [← e] at hmem
      rcases List.mem_append.1 hmem with hmem | hmem
      · exact (List.nodup_cons.1 hn').1 (List.mem_append_right _ (List.mem_cons_of_mem _ hmem))
      · exact hc (by simp [List.mem_singleton.1 hmem])

theorem IsRing.unlink (h : IsRing k head (l₁ ++ b :: l₂)) :
    IsRing (unlink k b) head (l₁ ++ l₂) := by
  obtain ⟨h₁, h₂⟩ := path_append.1 h.path
  refine ⟨h₁.unlink h₂ h.nodup (List.nodup_cons.1 h.nodup).1, ?_⟩
  exact h.nodup.sublist (by simp)

theorem IsRing.insertFront (h : IsRing k head l) (hb : b ∉ head :: l) :
    IsRing (insertFront k head b) head (b :: l) := by
  rw [List.mem_cons, not_or] at hb
  have hy := h.path.next_mem
  have hhead : head ∉ l := (List.nodup_cons.1 h.nodup).1
  have hby : b ≠ k.next head := by
    rintro e
    rw [← e] at hy
    simp [hb] at hy
  have hnext : (Ring.insertFront k head b).next = Function.update
      (Function.update k.next b (k.next head)) head b := rfl
  have hprev : (Ring.insertFront k head b).prev = Function.update
      (Function.update k.prev b head) (k.next head) b := by
    simp [Ring.insertFront, Function.update_of_ne (Ne.symm hb.1)]
  refine ⟨⟨?_, ?_, ?_⟩, ?_⟩
  · rw [hnext, Function.update_self]
  · rw [hprev, Function.update_of_ne hby, Function.update_self]
  · have hnextb : (Ring.insertFront k head b).next b = k.next head := by
      rw [hnext, Function.update_of_ne hb.1, Function.update_self]
    have hprevy : (Ring.insertFront k head b).prev (k.next head) = b := by
      rw [hprev, Function.update_self]
    have hpath := h.path
    cases l with
    | nil =>
      rw [hpath.1] at hnextb hprevy
      exact ⟨hnextb, hprevy⟩
    | cons c l =>
      obtain ⟨hc, -, hpath⟩ := hpath
      rw [hc] at hnextb hprevy
      refine ⟨hnextb, hprevy, hpath.congr (fun x hx => ?_) fun x hx => ?_⟩
      · have hxh : x ≠ head := fun e => hhead (e ▸ hx)
        have hxb : x ≠ b := fun e => hb.2 (e ▸ hx)
        rw [hnext, Function.update_of_ne hxh, Function.update_of_ne hxb]
      · have hxc : x ≠ c := by
          rintro rfl
          rcases List.mem_append.1 hx with hx | hx
          · exact (List.nodup_cons.1 (List.nodup_cons.1 h.nodup).2).1 hx
          · exact hhead (by simp [List.mem_singleton.1 hx])
        have hxb : x ≠ b := by
          rintro rfl
          rcases List.mem_append.1 hx with hx | hx
          · exact hb.2 (List.mem_cons_of_mem _ hx)
          · exact hb.1 (List.mem_singleton.1 hx)
        rw [hprev, hc, Function.update_of_ne hxc, Function.update_of_ne hxb]
  · rw [List.nodup_cons, List.mem_cons, not_or]
    refine ⟨⟨Ne.symm hb.1, hhead⟩, List.nodup_cons.2 ⟨hb.2, (List.nodup_cons.1 h.nodup).2⟩⟩

/-! ## Scans -/

theorem Path.scan (p : α → Bool) (h : Path k a l head) (hl : head ∉ l) {fuel : ℕ}
    (hf : l.length < fuel) : scan k.next head p fuel (k.next a) = l.find? p := by
  induction l generalizing a fuel with
  | nil =>
    obtain ⟨n, rfl⟩ := Nat.exists_eq_succ_of_ne_zero (Nat.ne_of_gt hf)
    simp [Ring.scan, h.1]
  | cons b l ih =>
    obtain ⟨n, rfl⟩ := Nat.exists_eq_succ_of_ne_zero (Nat.ne_zero_of_lt hf)
    obtain ⟨hb, -, h⟩ := h
    rw [List.mem_cons, not_or] at hl
    rw [Ring.scan, hb, if_neg (Ne.symm hl.1), List.find?_cons]
    cases hp : p b with
    | true => simp
    | false => simpa using ih h hl.2 (by simpa using hf)

theorem IsRing.scan_next (h : IsRing k head l) (p : α → Bool) {fuel : ℕ} (hf : l.length < fuel) :
    scan k.next head p fuel (k.next head) = l.find? p :=
  h.path.scan p (List.nodup_cons.1 h.nodup).1 hf

theorem IsRing.scan_prev (h : IsRing k head l) (p : α → Bool) {fuel : ℕ} (hf : l.length < fuel) :
    scan k.prev head p fuel (k.prev head) = l.reverse.find? p :=
  h.swap.scan_next p (by simpa using hf)

end Update

end Ring
