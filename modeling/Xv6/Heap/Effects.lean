import Xv6.Heap.Search

/-!
# What `free` and `malloc` do to the free list

`Ring.free` is the effect of `free` on the free list and `Ring.take` that of the end of `malloc`'s
search.  Both change headers only: those of the block, of the node before it and, in `take`, of the
part that is cut off.
-/

namespace Xv6.Heap

open Memory FreeList

variable {m : Mem} {base freep fuel nunits : ℕ} {b c q : FreeList.Block} {A L M : List FreeList.Block}

/-! ## Joined blocks -/

theorem Valid.stop_lt (h : Valid base c) : stop HEADER c < 2 ^ 64 := by
  have : stop HEADER c ≤ 2 ^ 36 := h.limit
  omega

theorem Valid.start_mem (h : Valid base c) : c.1 ∈ bytes HEADER c :=
  ⟨le_rfl, (Nat.lt_add_of_pos_right (by decide)).trans_le h.header_le_stop⟩

theorem Valid.merge (hb : Valid base b) (hc : Valid base c) (h : stop HEADER b = c.1) :
    Valid base (b.1, b.2 + c.2) := by
  refine ⟨hb.above, Nat.add_pos_left hb.pos _, ?_⟩
  have hlimit := hc.limit
  unfold stop at h hlimit ⊢
  dsimp only
  rw [Nat.mul_add, ← Nat.add_assoc, h]
  exact hlimit

theorem valid_join (hb : Valid base b) (hL : ∀ c ∈ L, Valid base c) :
    ∀ c ∈ join HEADER b L, Valid base c := by
  intro c hc
  cases L with
  | nil =>
    rw [List.mem_singleton.1 hc]
    exact hb
  | cons d L =>
    have hd := hL d List.mem_cons_self
    rw [join] at hc
    split_ifs at hc with htouch
    · rcases List.mem_cons.1 hc with rfl | hc
      · exact hb.merge hd htouch
      · exact hL c (List.mem_cons_of_mem d hc)
    · rcases List.mem_cons.1 hc with rfl | hc
      · exact hb
      · exact hL c hc

/-- A block disjoint from a free block above it ends before it, and one below it begins after it. -/
theorem stop_le_of_disjoint (hdisj : Disjoint (bytes HEADER b) (bytes HEADER c))
    (hlt : b.1 < c.1) (hc : Valid base c) : stop HEADER b ≤ c.1 := by
  by_contra h
  exact Set.disjoint_left.1 hdisj ⟨hlt.le, Nat.not_le.1 h⟩ hc.start_mem

/-! ## `free` -/

/-- The memories agree outside the headers at `p` and `q`. -/
def EqOutsideHeaders (p q : ℕ) (m m' : Mem) : Prop :=
  ∀ x, ¬ (p ≤ x ∧ x < p + HEADER) → ¬ (q ≤ x ∧ x < q + HEADER) → m' x = m x

theorem place_eq_cons (hN : (base, 0) :: L = A ++ q :: M) (hbase : base < b.1) :
    ∃ L', A ++ join HEADER q (join HEADER b M) = (base, 0) :: L' ∧
      (L' = join HEADER b M ∧ M = L ∨
        ∃ A', L = A' ++ q :: M ∧ L' = A' ++ join HEADER q (join HEADER b M)) := by
  cases A with
  | nil =>
    obtain ⟨rfl, rfl⟩ := List.cons.inj hN
    obtain ⟨n, M', hjoin⟩ := join_eq_cons HEADER b L
    refine ⟨join HEADER b L, ?_, Or.inl ⟨rfl, rfl⟩⟩
    rw [hjoin, List.nil_append, join, if_neg]
    exact hbase.ne
  | cons a A =>
    obtain ⟨rfl, rfl⟩ := List.cons.inj hN
    exact ⟨A ++ join HEADER q (join HEADER b M), rfl, Or.inr ⟨A, rfl, rfl⟩⟩

/-- The place of a block that is disjoint from the free ones. -/
structure Place (base : ℕ) (L : List FreeList.Block) (b : FreeList.Block) (A : List FreeList.Block) (q : FreeList.Block)
    (M : List FreeList.Block) : Prop where
  nodes : (base, 0) :: L = A ++ q :: M
  stop_le : stop HEADER q ≤ b.1
  le_start : ∀ d ∈ M, stop HEADER b ≤ d.1
  header_le : q.1 + HEADER ≤ b.1

theorem Place.mem (h : Place base L b A q M) {d : FreeList.Block} (hd : d ∈ M) : d ∈ L := by
  cases A with
  | nil => exact (List.cons.inj h.nodes).2 ▸ hd
  | cons a A =>
    exact (List.cons.inj h.nodes).2 ▸ List.mem_append_right A (List.mem_cons_of_mem q hd)

theorem Ring.place (h : Ring m base freep L) (hb : Valid base b)
    (hdisj : Disjoint (bytes HEADER b) (cover HEADER L)) (hfuel : L.length < fuel) :
    ∃ A q M, Place base L b A q M ∧ Heap.freeLoop m b.1 fuel freep = some q.1 := by
  have hbase : base < b.1 := (Nat.lt_add_of_pos_right (by decide)).trans_le hb.above
  have hdisj := disjoint_cover_iff.1 hdisj
  have hne : ∀ c ∈ L, c.1 ≠ b.1 := by
    intro c hc heq
    exact Set.disjoint_left.1 (hdisj c hc) (heq ▸ hb.start_mem) (h.valid c hc).start_mem
  obtain ⟨A, q, M, hN, hqb, hM, hloop⟩ := h.freeLoop hbase hne hfuel
  refine ⟨A, q, M, ⟨hN, ?_, fun d hd => ?_, ?_⟩, hloop⟩
  · rcases Ring.eq_base_or_mem hN with rfl | hq
    · exact hqb.le
    · exact stop_le_of_disjoint (hdisj q hq).symm hqb hb
  · have hdL : d ∈ L := by
      cases A with
      | nil => exact (List.cons.inj hN).2 ▸ hd
      | cons a A =>
        exact (List.cons.inj hN).2 ▸ List.mem_append_right A (List.mem_cons_of_mem q hd)
    exact stop_le_of_disjoint (hdisj d hdL) (hM d hd) (h.valid d hdL)
  · rcases Ring.eq_base_or_mem hN with rfl | hq
    · exact hb.above
    · exact (h.valid q hq).header_le_stop.trans
        (stop_le_of_disjoint (hdisj q hq).symm hqb hb)

theorem Ring.insert (h : Ring m base freep L) (hb : Valid base b) (hsize : size m b.1 = b.2)
    (hp : Place base L b A q M) :
    Linked (joinPrev (joinNext m q.1 b.1) q.1 b.1) base (A ++ join HEADER q (join HEADER b M)) ∧
      EqOutsideHeaders b.1 q.1 m (joinPrev (joinNext m q.1 b.1) q.1 b.1) := by
  have hbase : base + 16 ≤ b.1 := hb.above
  have hqfar : q.1 + 16 ≤ b.1 := hp.header_le
  have hbstop : b.1 + 16 ≤ stop HEADER b := hb.header_le_stop
  have hqpos : 0 < q.1 :=
    h.base_pos.trans_le (h.base_le (hp.nodes ▸ List.mem_append_right A List.mem_cons_self))
  obtain ⟨hlinkA, hqsize, hqptr, hlinkM⟩ := linked_append.1 (hp.nodes ▸ h.linked)
  -- the first half gives `b` its successor
  have hfarM : ∀ d ∈ M, Far d.1 b.1 := fun d hd => Or.inr (hbstop.trans (hp.le_start d hd))
  have hlimit : ∀ d ∈ b :: M, stop HEADER d ≤ LIMIT := by
    intro d hd
    rcases List.mem_cons.1 hd with rfl | hd
    · exact hb.limit
    · exact (h.valid d (hp.mem hd)).limit
  obtain ⟨hnext, houtb⟩ := joinNext_linked hqptr hlinkM hsize (Or.inl hqfar) hfarM
    (by omega) (by omega) hlimit hb.pos
  -- the second half gives `q` its successor
  obtain ⟨n, M', hjoin⟩ := join_eq_cons HEADER b M
  have hfarq : ∀ d ∈ (b.1, n) :: M', Far d.1 q.1 := fun d hd =>
    Or.inr (hqfar.trans (start_le_of_mem_join hp.le_start (hjoin ▸ hd)))
  have hbn : Valid base (b.1, n) := valid_join hb (fun d hd => h.valid d (hp.mem hd)) _
    (hjoin ▸ List.mem_cons_self)
  have hqsame := sameHeader_of_eqOutside houtb (Or.inl hqfar)
  rw [hjoin] at hnext
  obtain ⟨hprev, houtq⟩ := joinPrev_linked (q := q) hnext (hqsame.2.trans hqsize) hfarq hqpos
    hp.stop_le hbn.limit
  rw [← hjoin] at hprev
  refine ⟨linked_append.2 ⟨?_, hprev⟩, fun x hxb hxq => (houtq x hxq).trans (houtb x hxb)⟩
  -- the nodes below `q` still lead to it
  obtain ⟨k, Q, hQ⟩ := join_eq_cons HEADER q (join HEADER b M)
  rw [hQ]
  refine hlinkA.congr fun a ha => ?_
  have haq : a.1 + 16 ≤ q.1 := (h.header_le hp.nodes).1 a ha
  have h₁ : SameHeader m (joinNext m q.1 b.1) a.1 :=
    sameHeader_of_eqOutside houtb (Or.inl (haq.trans (by omega)))
  have h₂ := sameHeader_of_eqOutside houtq (Or.inl haq)
  exact ⟨h₂.1.trans h₁.1, h₂.2.trans h₁.2⟩

theorem Ring.free (h : Ring m base freep L) (hb : Valid base b) (hsize : size m b.1 = b.2)
    (hdisj : Disjoint (bytes HEADER b) (cover HEADER L)) (hfuel : L.length < fuel) :
    ∃ A q M m' L', Place base L b A q M ∧
      A ++ join HEADER q (join HEADER b M) = (base, 0) :: L' ∧
      Heap.free fuel m freep (plus b.1 1) = some (m', q.1) ∧ Ring m' base q.1 L' ∧
      EqOutsideHeaders b.1 q.1 m m' := by
  obtain ⟨A, q, M, hp, hloop⟩ := h.place hb hdisj hfuel
  obtain ⟨hlinked, hframe⟩ := h.insert hb hsize hp
  have hbase : base < b.1 := (Nat.lt_add_of_pos_right (by decide)).trans_le hb.above
  obtain ⟨L', hplace, hL'⟩ := place_eq_cons hp.nodes hbase
  have hvalidM : ∀ d ∈ join HEADER b M, Valid base d :=
    valid_join hb fun d hd => h.valid d (hp.mem hd)
  refine ⟨A, q, M, _, L', hp, hplace, ?_, ⟨h.base_pos, hplace ▸ hlinked, ?_, ?_, ?_⟩, hframe⟩
  · have hbp : (plus b.1 1 + 2 ^ 64 - HEADER) % 2 ^ 64 = b.1 := by
      have := hb.header_le_stop.trans_lt hb.stop_lt
      change b.1 + 16 < 2 ^ 64 at this
      change ((b.1 + 16 * 1) % 2 ^ 64 + 2 ^ 64 - 16) % 2 ^ 64 = b.1
      omega
    unfold Heap.free
    dsimp only
    rw [hbp, hloop]
    rfl
  · rw [← hplace]
    exact (hp.nodes ▸ h.apart).place hp.stop_le hp.le_start
  · rcases hL' with ⟨rfl, rfl⟩ | ⟨A', hA', rfl⟩
    · exact hvalidM
    · intro d hd
      have hq : q ∈ L := hA' ▸ List.mem_append_right A' List.mem_cons_self
      rcases List.mem_append.1 hd with hd | hd
      · exact h.valid d (hA' ▸ List.mem_append_left _ hd)
      · exact valid_join (h.valid q hq) hvalidM d hd
  · obtain ⟨k, Q, hQ⟩ := join_eq_cons HEADER q (join HEADER b M)
    refine ⟨(q.1, k), ?_, rfl⟩
    rw [← hplace, hQ]
    exact List.mem_append_right A List.mem_cons_self

/-! ## The end of `malloc`'s search -/

variable {σ : Type} {a : Allocator σ}

theorem top_of_eq (h : c.2 = nunits) : top HEADER c nunits = c := by
  unfold top
  rw [h, Nat.sub_self, Nat.mul_zero, Nat.add_zero, ← h]

theorem Valid.top (h : Valid base c) (hn : 0 < nunits) (hle : nunits ≤ c.2) :
    Valid base (FreeList.top HEADER c nunits) := by
  refine ⟨h.above.trans (Nat.le_add_right _ _), hn, ?_⟩
  refine le_trans (le_of_eq ?_) h.limit
  unfold stop FreeList.top
  dsimp only
  rw [Nat.add_assoc, ← Nat.mul_add, Nat.sub_add_cancel hle]

theorem Ring.take_whole (h : Ring a.mem base a.freep L)
    (hN : (base, 0) :: L = A ++ q :: c :: M) :
    Linked (setPtr a.mem q.1 (ptr a.mem c.1)) base (A ++ q :: M) := by
  obtain ⟨hlinkA, hqsize, hqptr, hcsize, hcptr, hlinkM⟩ := linked_append.1 (hN ▸ h.linked)
  have hfar : ∀ d, d ∈ A ∨ d ∈ c :: M → Far d.1 q.1 := fun d hd => h.far hN hd
  have hsame : ∀ d, d ∈ A ∨ d ∈ c :: M →
      SameHeader a.mem (setPtr a.mem q.1 (ptr a.mem c.1)) d.1 := fun d hd =>
    sameHeader_of_eqOutside (setPtr_eqOutside a.mem q.1 _) (hfar d hd)
  refine linked_append.2 ⟨hlinkA.congr fun d hd => hsame d (Or.inl hd), ?_, ?_, ?_⟩
  · rw [size_setPtr, hqsize]
  · rw [ptr_setPtr a.mem q.1 (ptr_lt a.mem c.1), hcptr]
  · exact hlinkM.congr fun d hd => hsame d (Or.inr (List.mem_cons_of_mem c hd))

/-- A larger block keeps its lower part, and the upper part gets a header. -/
theorem Ring.take_part (h : Ring a.mem base a.freep L) (hc : Valid base c)
    (hN : (base, 0) :: L = A ++ c :: M) (hn : 0 < nunits) (hlt : nunits < c.2) :
    Linked (setSize (setSize a.mem c.1 (c.2 - nunits)) (FreeList.top HEADER c nunits).1 nunits)
      base (A ++ (c.1, c.2 - nunits) :: M) := by
  obtain ⟨hlinkA, hcsize, hcptr, hlinkM⟩ := linked_append.1 (hN ▸ h.linked)
  have hc₂ : c.2 < 2 ^ 32 :=
    size_lt_of_stop_le (h.base_pos.trans_le ((Nat.le_add_right _ _).trans hc.above)) hc.limit
  obtain ⟨hA, hM⟩ := h.header_le hN
  -- the new header is inside `c`, above its own header
  have htop : c.1 + 16 ≤ (FreeList.top HEADER c nunits).1 := by
    change c.1 + 16 ≤ c.1 + 16 * (c.2 - nunits)
    omega
  have hstop : ∀ d ∈ M, (FreeList.top HEADER c nunits).1 + 16 ≤ d.1 := by
    intro d hd
    have := (apart_cons.1 (apart_append.1 (hN ▸ h.apart)).2.1).1 d hd
    change c.1 + 16 * c.2 < d.1 at this
    change c.1 + 16 * (c.2 - nunits) + 16 ≤ d.1
    omega
  have hsame : ∀ d, d ∈ A ∨ d ∈ M → SameHeader a.mem
      (setSize (setSize a.mem c.1 (c.2 - nunits)) (FreeList.top HEADER c nunits).1 nunits) d.1 := by
    intro d hd
    have hfar : Far d.1 (FreeList.top HEADER c nunits).1 := by
      rcases hd with hd | hd
      · exact Or.inl ((hA d hd).trans ((Nat.le_add_right _ _).trans htop))
      · exact Or.inr (hstop d hd)
    have h₁ := sameHeader_of_eqOutside (setSize_eqOutside a.mem c.1 (c.2 - nunits)) (h.far hN hd)
    have h₂ := sameHeader_of_eqOutside
      (setSize_eqOutside (setSize a.mem c.1 (c.2 - nunits)) _ nunits) hfar
    exact ⟨h₂.1.trans h₁.1, h₂.2.trans h₁.2⟩
  have hc' := sameHeader_of_eqOutside
    (setSize_eqOutside (setSize a.mem c.1 (c.2 - nunits)) (FreeList.top HEADER c nunits).1 nunits)
    (Or.inl htop)
  refine linked_append.2 ⟨hlinkA.congr fun d hd => hsame d (Or.inl hd), ?_, ?_, ?_⟩
  · exact hc'.2.trans (size_setSize a.mem c.1 (by omega))
  · rw [hc'.1, ptr_setSize, hcptr]
  · exact hlinkM.congr fun d hd => hsame d (Or.inr hd)

/-- What is left after a cut is again a list from `base` on, with `q` among its nodes. -/
theorem Ring.cut {m' : Mem} (h : Ring m base freep L)
    (hN : (base, 0) :: L = (A ++ [q]) ++ c :: M) (hle : nunits ≤ c.2)
    (hlinked : Linked m' base (FreeList.cut (A ++ [q]) c M nunits)) :
    ∃ L', FreeList.cut (A ++ [q]) c M nunits = (base, 0) :: L' ∧ Ring m' base q.1 L' := by
  obtain ⟨A', hA', hL⟩ : ∃ A', A ++ [q] = (base, 0) :: A' ∧ L = A' ++ c :: M := by
    cases hAq : A ++ [q] with
    | nil => exact absurd hAq (List.append_ne_nil_of_right_ne_nil A (List.cons_ne_nil q []))
    | cons x A' =>
      rw [hAq] at hN
      obtain ⟨rfl, rfl⟩ := List.cons.inj hN
      exact ⟨A', rfl, rfl⟩
  have hcut : FreeList.cut (A ++ [q]) c M nunits = (base, 0) :: FreeList.cut A' c M nunits := by
    unfold FreeList.cut
    rw [hA']
    split_ifs
    · rfl
    · rfl
  have hc : Valid base c := h.valid c (hL ▸ List.mem_append_right A' List.mem_cons_self)
  refine ⟨_, hcut, h.base_pos, hcut ▸ hlinked, ?_, fun d hd => ?_, q, ?_, rfl⟩
  · rw [← hcut]
    exact (hN ▸ h.apart).cut nunits
  · unfold FreeList.cut at hd
    split_ifs at hd with heq
    · refine h.valid d (hL ▸ ?_)
      rcases List.mem_append.1 hd with hd | hd
      · exact List.mem_append_left _ hd
      · exact List.mem_append_right _ (List.mem_cons_of_mem c hd)
    · rcases List.mem_append.1 hd with hd | hd
      · exact h.valid d (hL ▸ List.mem_append_left _ hd)
      · rcases List.mem_cons.1 hd with rfl | hd
        · refine ⟨hc.above, Nat.sub_pos_of_lt (lt_of_le_of_ne hle (Ne.symm heq)), ?_⟩
          refine le_trans ?_ hc.limit
          exact Nat.add_le_add_left (Nat.mul_le_mul_left HEADER (Nat.sub_le _ _)) _
        · exact h.valid d (hL ▸ List.mem_append_right _ (List.mem_cons_of_mem c hd))
  · have hq : q ∈ A ++ [q] := List.mem_append_right A List.mem_cons_self
    rw [← hcut]
    unfold FreeList.cut
    split_ifs
    · exact List.mem_append_left _ hq
    · exact List.mem_append_left _ hq

/-- The end of the search takes the top of the block that was found. -/
theorem Ring.take (h : Ring a.mem base a.freep L) (hn : 0 < nunits)
    (hN : (base, 0) :: L = A ++ q :: c :: M) (hle : nunits ≤ c.2) :
    ∃ m' L', Heap.take a nunits q.1 c.1 =
        (plus (FreeList.top HEADER c nunits).1 1, { a with mem := m', freep := q.1 }) ∧
      FreeList.cut (A ++ [q]) c M nunits = (base, 0) :: L' ∧ Ring m' base q.1 L' ∧
      size m' (FreeList.top HEADER c nunits).1 = nunits ∧
      ∀ x, ¬ (q.1 ≤ x ∧ x < q.1 + HEADER) → x ∉ bytes HEADER c → m' x = a.mem x := by
  have hNc : (base, 0) :: L = (A ++ [q]) ++ c :: M := by rw [hN, List.append_assoc]; rfl
  have hmem : c ∈ (base, 0) :: L := hNc ▸ List.mem_append_right _ List.mem_cons_self
  have hcsize : size a.mem c.1 = c.2 := h.linked.size_eq hmem
  have hc : Valid base c := by
    rcases List.mem_cons.1 hmem with rfl | hcL
    · exact absurd hle (Nat.not_le.2 hn)
    · exact h.valid c hcL
  unfold Heap.take
  rw [hcsize]
  by_cases heq : c.2 = nunits
  · have hlinked := h.take_whole hN
    have hcut : FreeList.cut (A ++ [q]) c M nunits = A ++ q :: M := by
      unfold FreeList.cut
      rw [if_pos heq, List.append_assoc]
      rfl
    obtain ⟨L', hL', hring⟩ := h.cut hNc hle (hcut ▸ hlinked)
    have hfar : Far c.1 q.1 := h.far hN (Or.inr List.mem_cons_self)
    rw [if_pos heq, top_of_eq heq]
    refine ⟨_, L', rfl, hL', hring, ?_, fun x hx _ => setPtr_eqOutside a.mem q.1 _ x hx⟩
    rw [(sameHeader_of_eqOutside (setPtr_eqOutside a.mem q.1 _) hfar).2, hcsize, heq]
  · have hlt : nunits < c.2 := lt_of_le_of_ne hle (Ne.symm heq)
    have hlinked := h.take_part hc hNc hn hlt
    have hcut : FreeList.cut (A ++ [q]) c M nunits = (A ++ [q]) ++ (c.1, c.2 - nunits) :: M :=
      if_neg heq
    obtain ⟨L', hL', hring⟩ := h.cut hNc hle (hcut ▸ hlinked)
    have hc₂ : c.2 < 2 ^ 32 :=
      size_lt_of_stop_le (h.base_pos.trans_le ((Nat.le_add_right _ _).trans hc.above)) hc.limit
    have hstop : c.1 + 16 * c.2 < 2 ^ 64 := hc.stop_lt
    have htop : plus c.1 (c.2 - nunits) = (FreeList.top HEADER c nunits).1 :=
      Nat.mod_eq_of_lt (show c.1 + 16 * (c.2 - nunits) < 2 ^ 64 by omega)
    rw [if_neg heq]
    dsimp only
    rw [size_setSize a.mem c.1 (by omega : c.2 - nunits < 2 ^ 32), htop]
    refine ⟨_, L', rfl, hL', hring, size_setSize _ _ (by omega), fun x _ hx => ?_⟩
    have hout : ¬ (c.1 ≤ x ∧ x < c.1 + 16 * c.2) := hx
    rw [setSize_eqOutside _ _ nunits x, setSize_eqOutside a.mem c.1 _ x]
    · change ¬ (c.1 ≤ x ∧ x < c.1 + 16)
      omega
    · change ¬ (c.1 + 16 * (c.2 - nunits) ≤ x ∧ x < c.1 + 16 * (c.2 - nunits) + 16)
      omega

end Xv6.Heap
