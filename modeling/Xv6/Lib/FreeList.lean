import Mathlib

/-!
# Address-ordered free lists

A block is its first address and its length in units of `w` bytes.  A free list keeps its blocks in
address order with a gap between any two of them.  `join` puts a block in front of the blocks above
it and merges the two that touch; giving a block back is two joins, and taking one is cutting off
the top of a block.  `Tiling` says that the free and the live blocks are the disjoint parts of a set
of addresses: it is what giving back, taking and adding memory keep.
-/

namespace FreeList

abbrev Block := ℕ × ℕ

/-- The first address past a block. -/
def stop (w : ℕ) (b : Block) : ℕ := b.1 + w * b.2

def bytes (w : ℕ) (b : Block) : Set ℕ := {x | b.1 ≤ x ∧ x < stop w b}

def cover (w : ℕ) (L : List Block) : Set ℕ := {x | ∃ b ∈ L, x ∈ bytes w b}

/-- The blocks are in address order and no two of them touch. -/
def Apart (w : ℕ) (L : List Block) : Prop := L.Pairwise fun b c => stop w b < c.1

/-- `b` in front of the blocks above it, merged with the first of them if the two touch. -/
def join (w : ℕ) (b : Block) : List Block → List Block
  | [] => [b]
  | c :: L => if stop w b = c.1 then (b.1, b.2 + c.2) :: L else b :: c :: L

/-- The list after the top `n` units of `q` are taken. -/
def cut (A : List Block) (q : Block) (L : List Block) (n : ℕ) : List Block :=
  if q.2 = n then A ++ L else A ++ (q.1, q.2 - n) :: L

/-- The top `n` units of a block. -/
def top (w : ℕ) (q : Block) (n : ℕ) : Block := (q.1 + w * (q.2 - n), n)

variable {w n : ℕ} {b c q : Block} {A L live : List Block} {R : Set ℕ}

theorem start_le_stop (w : ℕ) (b : Block) : b.1 ≤ stop w b := Nat.le_add_right _ _

@[simp] theorem cover_nil (w : ℕ) : cover w [] = ∅ := by
  ext x
  simp [cover]

@[simp] theorem cover_cons (w : ℕ) (b : Block) (L : List Block) :
    cover w (b :: L) = bytes w b ∪ cover w L := by
  ext x
  simp [cover]

@[simp] theorem cover_append (w : ℕ) (A L : List Block) :
    cover w (A ++ L) = cover w A ∪ cover w L := by
  ext x
  simp [cover, or_and_right, exists_or]

theorem bytes_merge (h : stop w b = c.1) : bytes w (b.1, b.2 + c.2) = bytes w b ∪ bytes w c := by
  ext x
  have hc := start_le_stop w c
  have hb := start_le_stop w b
  have hstop : stop w (b.1, b.2 + c.2) = stop w c := by
    unfold stop at h ⊢
    dsimp only
    rw [Nat.mul_add, ← Nat.add_assoc, h]
  simp only [bytes, Set.mem_ofPred_eq, Set.mem_union, hstop]
  omega

theorem bytes_split (hn : n ≤ q.2) : bytes w q = bytes w (q.1, q.2 - n) ∪ bytes w (top w q n) := by
  have hstop : stop w (q.1, q.2 - n) = (top w q n).1 := rfl
  rw [← bytes_merge hstop]
  change bytes w q = bytes w (q.1, q.2 - n + n)
  rw [Nat.sub_add_cancel hn]

theorem cover_join (w : ℕ) (b : Block) (L : List Block) :
    cover w (join w b L) = bytes w b ∪ cover w L := by
  cases L with
  | nil => exact cover_cons w b []
  | cons c L =>
    rw [join]
    split_ifs with h
    · rw [cover_cons, cover_cons, bytes_merge h, Set.union_assoc]
    · rw [cover_cons]

/-! ## Order -/

theorem apart_cons : Apart w (b :: L) ↔ (∀ c ∈ L, stop w b < c.1) ∧ Apart w L := List.pairwise_cons

theorem apart_append :
    Apart w (A ++ L) ↔ Apart w A ∧ Apart w L ∧ ∀ b ∈ A, ∀ c ∈ L, stop w b < c.1 :=
  List.pairwise_append

/-- A merged block is still below what its upper part was below. -/
theorem start_le_of_mem_join (hL : ∀ c ∈ L, stop w b ≤ c.1) (hc : c ∈ join w b L) : b.1 ≤ c.1 := by
  have hb := start_le_stop w b
  cases L with
  | nil => rw [List.mem_singleton.1 hc]
  | cons d L =>
    rw [join] at hc
    split_ifs at hc
    · rcases List.mem_cons.1 hc with rfl | hc
      · rfl
      · exact hb.trans (hL c (List.mem_cons_of_mem d hc))
    · rcases List.mem_cons.1 hc with rfl | hc
      · rfl
      · exact hb.trans (hL c hc)

theorem Apart.join (h : Apart w L) (hL : ∀ c ∈ L, stop w b ≤ c.1) : Apart w (join w b L) := by
  cases L with
  | nil => exact List.pairwise_singleton _ b
  | cons c L =>
    obtain ⟨hc, hrest⟩ := apart_cons.1 h
    rw [FreeList.join]
    split_ifs with htouch
    · refine apart_cons.2 ⟨fun d hd => ?_, hrest⟩
      have := hc d hd
      unfold stop at this htouch ⊢
      dsimp only
      rw [Nat.mul_add]
      omega
    · have hlt : stop w b < c.1 := lt_of_le_of_ne (hL c List.mem_cons_self) htouch
      refine apart_cons.2 ⟨fun d hd => ?_, h⟩
      rcases List.mem_cons.1 hd with rfl | hd
      · exact hlt
      · exact hlt.trans ((start_le_stop w c).trans_lt (hc d hd))

/-- A block put between `q` and the blocks above `q` leaves the list in order. -/
theorem Apart.place (h : Apart w (A ++ q :: L)) (hq : stop w q ≤ b.1)
    (hL : ∀ c ∈ L, stop w b ≤ c.1) :
    Apart w (A ++ FreeList.join w q (FreeList.join w b L)) := by
  obtain ⟨hA, hqL, hAq⟩ := apart_append.1 h
  obtain ⟨-, hapart⟩ := apart_cons.1 hqL
  have hbelow : ∀ c ∈ FreeList.join w b L, stop w q ≤ c.1 := fun c hc =>
    hq.trans (start_le_of_mem_join hL hc)
  refine apart_append.2 ⟨hA, (hapart.join hL).join hbelow, fun a ha c hc => ?_⟩
  exact (hAq a ha q List.mem_cons_self).trans_le (start_le_of_mem_join hbelow hc)

theorem cover_place (w : ℕ) (A : List Block) (q b : Block) (L : List Block) :
    cover w (A ++ join w q (join w b L)) = bytes w b ∪ cover w (A ++ q :: L) := by
  simp only [cover_append, cover_join, cover_cons]
  ac_rfl

theorem Apart.cut (h : Apart w (A ++ q :: L)) (n : ℕ) : Apart w (cut A q L n) := by
  obtain ⟨hA, hqL, hAq⟩ := apart_append.1 h
  obtain ⟨hq, hL⟩ := apart_cons.1 hqL
  unfold FreeList.cut
  split_ifs
  · exact apart_append.2 ⟨hA, hL, fun a ha c hc => hAq a ha c (List.mem_cons_of_mem q hc)⟩
  · refine apart_append.2 ⟨hA, apart_cons.2 ⟨fun c hc => ?_, hL⟩, fun a ha c hc => ?_⟩
    · refine lt_of_le_of_lt ?_ (hq c hc)
      exact Nat.add_le_add_left (Nat.mul_le_mul_left w (Nat.sub_le _ _)) _
    · rcases List.mem_cons.1 hc with rfl | hc
      · exact hAq a ha q List.mem_cons_self
      · exact hAq a ha c (List.mem_cons_of_mem q hc)

theorem cover_cut (hn : n ≤ q.2) (A L : List Block) :
    cover w (A ++ q :: L) = bytes w (top w q n) ∪ cover w (cut A q L n) := by
  unfold cut
  split_ifs with h
  · have hq : q = top w q n := by
      unfold top
      rw [h, Nat.sub_self, Nat.mul_zero, Nat.add_zero, ← h]
    rw [cover_append, cover_cons, cover_append, ← hq]
    ac_rfl
  · simp only [cover_append, cover_cons, bytes_split hn]
    ac_rfl

/-! ## Disjoint parts -/

theorem disjoint_of_stop_le (h : stop w b ≤ c.1) : Disjoint (bytes w b) (bytes w c) := by
  refine Set.disjoint_left.2 fun x hb hc => ?_
  exact absurd (hb.2.trans_le h) (Nat.not_lt.2 hc.1)

theorem disjoint_cover_iff {S : Set ℕ} :
    Disjoint S (cover w L) ↔ ∀ b ∈ L, Disjoint S (bytes w b) := by
  constructor
  · intro h b hb
    have hsub : bytes w b ⊆ cover w L := fun x hx => ⟨b, hb, hx⟩
    exact h.mono_right hsub
  · intro h
    refine Set.disjoint_left.2 fun x hx hcover => ?_
    obtain ⟨b, hb, hxb⟩ := hcover
    exact Set.disjoint_left.1 (h b hb) hx hxb

/-- The top of a block is disjoint from what is left in the list. -/
theorem disjoint_top_cut (h : Apart w (A ++ q :: L)) (hn : n ≤ q.2) :
    Disjoint (bytes w (top w q n)) (cover w (cut A q L n)) := by
  obtain ⟨-, hqL, hAq⟩ := apart_append.1 h
  obtain ⟨hq, -⟩ := apart_cons.1 hqL
  have hstop : stop w (top w q n) = stop w q := by
    unfold stop top
    dsimp only
    rw [Nat.add_assoc, ← Nat.mul_add, Nat.sub_add_cancel hn]
  have hA : ∀ a ∈ A, Disjoint (bytes w (top w q n)) (bytes w a) := fun a ha =>
    (disjoint_of_stop_le ((hAq a ha q List.mem_cons_self).le.trans (Nat.le_add_right _ _))).symm
  have hL : ∀ c ∈ L, Disjoint (bytes w (top w q n)) (bytes w c) := fun c hc =>
    disjoint_of_stop_le (hstop ▸ (hq c hc).le)
  refine disjoint_cover_iff.2 fun c hc => ?_
  unfold cut at hc
  split_ifs at hc
  · rcases List.mem_append.1 hc with hc | hc
    · exact hA c hc
    · exact hL c hc
  · rcases List.mem_append.1 hc with hc | hc
    · exact hA c hc
    · rcases List.mem_cons.1 hc with rfl | hc
      · exact (disjoint_of_stop_le le_rfl).symm
      · exact hL c hc

/-- The free and the live blocks are disjoint and make up `R`. -/
structure Tiling (w : ℕ) (free live : List Block) (R : Set ℕ) : Prop where
  apart : Apart w free
  live_disjoint : live.Pairwise fun b c => Disjoint (bytes w b) (bytes w c)
  disjoint : Disjoint (cover w live) (cover w free)
  cover_eq : cover w free ∪ cover w live = R

theorem Tiling.take (h : Tiling w (A ++ q :: L) live R) (hn : n ≤ q.2) :
    Tiling w (cut A q L n) (top w q n :: live) R := by
  have hcover := cover_cut (w := w) hn A L
  have hdisj := h.disjoint
  rw [hcover, Set.disjoint_union_right] at hdisj
  refine ⟨h.apart.cut n, List.pairwise_cons.2 ⟨fun b hb => ?_, h.live_disjoint⟩, ?_, ?_⟩
  · exact disjoint_cover_iff.1 hdisj.1.symm b hb
  · rw [cover_cons, Set.disjoint_union_left]
    exact ⟨disjoint_top_cut h.apart hn, hdisj.2⟩
  · rw [← h.cover_eq, hcover, cover_cons]
    ac_rfl

/-- Giving a live block back, between `q` and the free blocks above it. -/
theorem Tiling.give {X Y : List Block} (h : Tiling w (A ++ q :: L) (X ++ b :: Y) R)
    (hq : stop w q ≤ b.1) (hL : ∀ c ∈ L, stop w b ≤ c.1) :
    Tiling w (A ++ join w q (join w b L)) (X ++ Y) R := by
  obtain ⟨hX, hbY, hXb⟩ := List.pairwise_append.1 h.live_disjoint
  obtain ⟨hb, hY⟩ := List.pairwise_cons.1 hbY
  have hdisj := h.disjoint
  rw [cover_append, cover_cons, Set.disjoint_union_left, Set.disjoint_union_left] at hdisj
  refine ⟨h.apart.place hq hL, ?_, ?_, ?_⟩
  · exact List.pairwise_append.2
      ⟨hX, hY, fun x hx y hy => hXb x hx y (List.mem_cons_of_mem b hy)⟩
  · rw [cover_place, cover_append, Set.disjoint_union_left, Set.disjoint_union_right,
      Set.disjoint_union_right]
    refine ⟨⟨?_, hdisj.1⟩, ⟨?_, hdisj.2.2⟩⟩
    · exact (disjoint_cover_iff.2 fun x hx => (hXb x hx b List.mem_cons_self).symm).symm
    · exact (disjoint_cover_iff.2 fun y hy => hb y hy).symm
  · rw [← h.cover_eq, cover_place]
    simp only [cover_append, cover_cons]
    ac_rfl

theorem Tiling.grow (h : Tiling w (A ++ q :: L) live R) (hfresh : Disjoint (bytes w b) R)
    (hq : stop w q ≤ b.1) (hL : ∀ c ∈ L, stop w b ≤ c.1) :
    Tiling w (A ++ join w q (join w b L)) live (bytes w b ∪ R) := by
  refine ⟨h.apart.place hq hL, h.live_disjoint, ?_, ?_⟩
  · rw [cover_place, Set.disjoint_union_right]
    refine ⟨(hfresh.mono_right ?_).symm, h.disjoint⟩
    rw [← h.cover_eq]
    exact Set.subset_union_right
  · rw [cover_place, ← h.cover_eq, Set.union_assoc]

end FreeList
