import Xv6.Lib.FreeList
import Xv6.Heap.Code

/-!
# The free list in memory

`Linked m e L` says that the headers of the blocks of `L` form a chain that ends in a pointer to
`e`.  The free list of the allocator is the chain of `(base, 0)` and the free blocks, with `base` at
its end again, so it can be cut at any of its nodes: `Linked.rotate`.  The two halves of the
insertion are the `join` of free lists (`joinNext_linked`, `joinPrev_linked`).
-/

namespace Xv6.Heap

open Memory FreeList

variable {m m' : Mem} {p q v e n : ℕ} {b c : FreeList.Block} {A L : List FreeList.Block}

/-! ## Headers -/

/-- The memories have the same header at `p`. -/
def SameHeader (m m' : Mem) (p : ℕ) : Prop := ptr m' p = ptr m p ∧ size m' p = size m p

/-- The headers at `p` and `q` do not overlap. -/
def Far (p q : ℕ) : Prop := p + HEADER ≤ q ∨ q + HEADER ≤ p

theorem Far.symm (h : Far p q) : Far q p := Or.symm h

theorem sameHeader_of_eqOutside (h : EqOutside q HEADER m m') (hfar : Far p q) :
    SameHeader m m' p := by
  unfold Far at hfar
  change p + 16 ≤ q ∨ q + 16 ≤ p at hfar
  change EqOutside q 16 m m' at h
  exact ⟨h.load (by omega), h.load (by omega)⟩

theorem setPtr_eqOutside (m : Mem) (p v : ℕ) : EqOutside p HEADER m (setPtr m p v) :=
  (store_eqOutside 8 m p v).mono le_rfl (by change p + 8 ≤ p + 16; omega)

theorem setSize_eqOutside (m : Mem) (p v : ℕ) : EqOutside p HEADER m (setSize m p v) :=
  (store_eqOutside 4 m (p + 8) v).mono (Nat.le_add_right _ _)
    (by change p + 8 + 4 ≤ p + 16; omega)

theorem ptr_lt (m : Mem) (p : ℕ) : ptr m p < 2 ^ 64 := load_lt 8 m p

theorem ptr_setPtr (m : Mem) (p : ℕ) (hv : v < 2 ^ 64) : ptr (setPtr m p v) p = v :=
  (load_store_self 8 m p v).trans (Nat.mod_eq_of_lt hv)

theorem size_setSize (m : Mem) (p : ℕ) (hv : v < 2 ^ 32) : size (setSize m p v) p = v :=
  (load_store_self 4 m (p + 8) v).trans (Nat.mod_eq_of_lt hv)

@[simp] theorem size_setPtr (m : Mem) (p v : ℕ) : size (setPtr m p v) p = size m p :=
  load_store_of_disjoint 8 4 m v (Or.inr le_rfl)

@[simp] theorem ptr_setSize (m : Mem) (p v : ℕ) : ptr (setSize m p v) p = ptr m p :=
  load_store_of_disjoint 4 8 m v (Or.inl le_rfl)

theorem ptr_setSize_far (m : Mem) (v : ℕ) (h : Far p q) : ptr (setSize m q v) p = ptr m p :=
  (sameHeader_of_eqOutside (setSize_eqOutside m q v) h).1

theorem plus_eq_stop (h : stop HEADER b < 2 ^ 64) : plus b.1 b.2 = stop HEADER b := Nat.mod_eq_of_lt h

/-! ## Chains -/

/-- The first address of a chain that ends in `e`. -/
def next (e : ℕ) : List FreeList.Block → ℕ
  | [] => e
  | c :: _ => c.1

/-- The headers of `L` are linked in this order, and the last one points to `e`. -/
def Linked (m : Mem) (e : ℕ) : List FreeList.Block → Prop
  | [] => True
  | b :: L => size m b.1 = b.2 ∧ ptr m b.1 = next e L ∧ Linked m e L

theorem linked_cons :
    Linked m e (b :: L) ↔ size m b.1 = b.2 ∧ ptr m b.1 = next e L ∧ Linked m e L := Iff.rfl

theorem next_append (e : ℕ) (A L : List FreeList.Block) : next e (A ++ L) = next (next e L) A := by
  cases A with
  | nil => rfl
  | cons b A => rfl

theorem linked_append : Linked m e (A ++ L) ↔ Linked m (next e L) A ∧ Linked m e L := by
  induction A with
  | nil => exact (iff_of_eq (true_and _)).symm
  | cons b A ih => rw [List.cons_append, linked_cons, linked_cons, next_append, ih, and_assoc, and_assoc]

theorem Linked.congr (h : Linked m e L) (hsame : ∀ b ∈ L, SameHeader m m' b.1) : Linked m' e L := by
  induction L with
  | nil => trivial
  | cons b L ih =>
    obtain ⟨hsize, hptr, hrest⟩ := h
    obtain ⟨hp, hs⟩ := hsame b List.mem_cons_self
    exact ⟨hs.trans hsize, hp.trans hptr, ih hrest fun c hc => hsame c (List.mem_cons_of_mem b hc)⟩

theorem Linked.size_eq (h : Linked m e L) (hb : b ∈ L) : size m b.1 = b.2 := by
  induction L with
  | nil => exact absurd hb List.not_mem_nil
  | cons c L ih =>
    rcases List.mem_cons.1 hb with rfl | hb
    · exact h.1
    · exact ih h.2.2 hb

theorem Linked.rotate (h : Linked m e (A ++ b :: L)) (he : next b.1 A = e) :
    Linked m b.1 (b :: L ++ A) := by
  obtain ⟨hA, hbL⟩ := linked_append.1 h
  refine linked_append.2 ⟨?_, hA⟩
  rwa [he]

/-! ## The two halves of the insertion -/

theorem join_eq_cons (w : ℕ) (b : FreeList.Block) (L : List FreeList.Block) :
    ∃ n M, join w b L = (b.1, n) :: M := by
  cases L with
  | nil => exact ⟨b.2, [], rfl⟩
  | cons c L =>
    rw [join]
    split_ifs
    · exact ⟨b.2 + c.2, L, rfl⟩
    · exact ⟨b.2, c :: L, rfl⟩

/-- The last address that a heap may reach for its sizes to fit in 32 bits. -/
def LIMIT : ℕ := 2 ^ 36

theorem size_lt_of_stop_le (hpos : 0 < b.1) (h : stop HEADER b ≤ LIMIT) : b.2 < 2 ^ 32 := by
  change b.1 + 16 * b.2 ≤ 2 ^ 36 at h
  omega

theorem joinNext_linked (hq : ptr m q = next e L) (hL : Linked m e L) (hsize : size m b.1 = b.2)
    (hqfar : Far q b.1) (hfar : ∀ c ∈ L, Far c.1 b.1) (hpos : 0 < b.1) (he : e ≤ b.1)
    (hlimit : ∀ c ∈ b :: L, stop HEADER c ≤ LIMIT) (hheader : 0 < b.2) :
    Linked (joinNext m q b.1) e (join HEADER b L) ∧ EqOutside b.1 HEADER m (joinNext m q b.1) := by
  have hb : stop HEADER b ≤ 2 ^ 36 := hlimit b List.mem_cons_self
  have hlt : b.1 < stop HEADER b := by
    change b.1 < b.1 + 16 * b.2
    omega
  unfold joinNext
  rw [hsize, plus_eq_stop (by omega), hq]
  cases L with
  | nil =>
    have hne : stop HEADER b ≠ e := by omega
    change Linked _ e [b] ∧ _
    rw [next, if_neg hne]
    refine ⟨⟨?_, ptr_setPtr m b.1 (by omega), trivial⟩, setPtr_eqOutside m b.1 e⟩
    rw [size_setPtr, hsize]
  | cons c L =>
    obtain ⟨hcsize, hcptr, hrest⟩ := hL
    have hc : stop HEADER c ≤ 2 ^ 36 := hlimit c (List.mem_cons_of_mem b List.mem_cons_self)
    have hcstart := start_le_stop HEADER c
    rw [next, join]
    split_ifs with htouch
    · -- the two touch: the header of `c` is read once more, then forgotten
      have hbound : b.2 + c.2 < 2 ^ 32 := by
        unfold stop at htouch hc
        change b.1 + 16 * b.2 = c.1 at htouch
        change c.1 + 16 * c.2 ≤ 2 ^ 36 at hc
        omega
      have hnext : next e L < 2 ^ 64 := hcptr ▸ ptr_lt m c.1
      have houter := (setSize_eqOutside m b.1 (b.2 + c.2)).trans
        (setPtr_eqOutside (setSize m b.1 (b.2 + c.2)) b.1 (next e L))
      dsimp only
      rw [hcsize, ptr_setSize_far m _ hqfar, hq, next,
        ptr_setSize_far m _ (hfar c List.mem_cons_self), hcptr]
      refine ⟨⟨?_, ptr_setPtr _ b.1 hnext, ?_⟩, houter⟩
      · rw [size_setPtr, size_setSize m b.1 hbound]
      · exact hrest.congr fun d hd =>
          sameHeader_of_eqOutside houter (hfar d (List.mem_cons_of_mem c hd))
    · have houter := setPtr_eqOutside m b.1 c.1
      refine ⟨⟨?_, ptr_setPtr m b.1 (by omega), ?_⟩, houter⟩
      · rw [size_setPtr, hsize]
      · have hcL : Linked m e (c :: L) := ⟨hcsize, hcptr, hrest⟩
        exact hcL.congr fun d hd => sameHeader_of_eqOutside houter (hfar d hd)

theorem joinPrev_linked {q : FreeList.Block} (h : Linked m e (b :: L)) (hsize : size m q.1 = q.2)
    (hfar : ∀ c ∈ b :: L, Far c.1 q.1) (hpos : 0 < q.1) (hqb : stop HEADER q ≤ b.1)
    (hb : stop HEADER b ≤ LIMIT) :
    Linked (joinPrev m q.1 b.1) e (join HEADER q (b :: L)) ∧
      EqOutside q.1 HEADER m (joinPrev m q.1 b.1) := by
  obtain ⟨hbsize, hbptr, hrest⟩ := h
  have hstart := start_le_stop HEADER b
  change stop HEADER b ≤ 2 ^ 36 at hb
  unfold joinPrev
  rw [hsize, plus_eq_stop (by omega), join]
  split_ifs with htouch
  · have hbound : q.2 + b.2 < 2 ^ 32 := by
      unfold stop at htouch hb
      change q.1 + 16 * q.2 = b.1 at htouch
      change b.1 + 16 * b.2 ≤ 2 ^ 36 at hb
      omega
    have hnext : next e L < 2 ^ 64 := hbptr ▸ ptr_lt m b.1
    have houter := (setSize_eqOutside m q.1 (q.2 + b.2)).trans
      (setPtr_eqOutside (setSize m q.1 (q.2 + b.2)) q.1 (next e L))
    dsimp only
    rw [hbsize, ptr_setSize_far m _ (hfar b List.mem_cons_self), hbptr]
    refine ⟨⟨?_, ptr_setPtr _ q.1 hnext, ?_⟩, houter⟩
    · rw [size_setPtr, size_setSize m q.1 hbound]
    · exact hrest.congr fun d hd =>
        sameHeader_of_eqOutside houter (hfar d (List.mem_cons_of_mem b hd))
  · have houter := setPtr_eqOutside m q.1 b.1
    have hbL : Linked m e (b :: L) := ⟨hbsize, hbptr, hrest⟩
    refine ⟨⟨?_, ptr_setPtr m q.1 (by omega), ?_⟩, houter⟩
    · rw [size_setPtr, hsize]
    · exact hbL.congr fun d hd => sameHeader_of_eqOutside houter (hfar d hd)

end Xv6.Heap
