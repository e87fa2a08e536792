import Xv6.Heap.Nodes

/-!
# The searches of `free` and `malloc`

`Ring m base freep L` is the free list: the circular chain of `base` and the blocks `L`, in address
order, and `freep` is one of its nodes.  A walk from `freep` meets every node, so `free` finds the
node below the block it gets, and `malloc` finds a block that is large enough when there is one.
-/

namespace Xv6.Heap

open Memory FreeList

/-- A block above `base` that has a header and ends inside the limit. -/
structure Valid (base : ℕ) (c : FreeList.Block) : Prop where
  above : base + HEADER ≤ c.1
  pos : 0 < c.2
  limit : stop HEADER c ≤ LIMIT

/-- The free list. -/
structure Ring (m : Mem) (base freep : ℕ) (L : List FreeList.Block) : Prop where
  base_pos : 0 < base
  linked : Linked m base ((base, 0) :: L)
  apart : Apart HEADER ((base, 0) :: L)
  valid : ∀ c ∈ L, Valid base c
  freep_mem : ∃ f ∈ (base, 0) :: L, f.1 = freep

variable {m : Mem} {base freep bp fuel nunits e : ℕ} {b c f : FreeList.Block} {A L M : List FreeList.Block}

/-! ## Order of the nodes -/

theorem Valid.header_le_stop (h : Valid base c) : c.1 + HEADER ≤ stop HEADER c := by
  have := h.pos
  change c.1 + 16 ≤ c.1 + 16 * c.2
  omega

theorem Ring.base_le (h : Ring m base freep L) (hc : c ∈ (base, 0) :: L) : base ≤ c.1 := by
  rcases List.mem_cons.1 hc with rfl | hc
  · rfl
  · exact (Nat.le_add_right _ _).trans (h.valid c hc).above

theorem Ring.eq_base_or_mem (hN : (base, 0) :: L = A ++ c :: M) : c = (base, 0) ∨ c ∈ L :=
  List.mem_cons.1 (hN ▸ List.mem_append_right A List.mem_cons_self)

theorem Ring.header_le (h : Ring m base freep L) (hN : (base, 0) :: L = A ++ c :: M) :
    (∀ a ∈ A, a.1 + HEADER ≤ c.1) ∧ ∀ d ∈ M, c.1 + HEADER ≤ d.1 := by
  have hsorted : ((base, 0) :: L).Pairwise fun b c => b.1 + HEADER ≤ c.1 := by
    obtain ⟨-, hL⟩ := apart_cons.1 h.apart
    refine List.pairwise_cons.2 ⟨fun c hc => (h.valid c hc).above, ?_⟩
    refine List.Pairwise.imp_of_mem ?_ hL
    intro b c hb _ hbc
    exact ((h.valid b hb).header_le_stop.trans_lt hbc).le
  rw [hN] at hsorted
  obtain ⟨-, hcM, hA⟩ := List.pairwise_append.1 hsorted
  exact ⟨fun a ha => hA a ha c List.mem_cons_self, (List.pairwise_cons.1 hcM).1⟩

theorem Ring.far (h : Ring m base freep L) (hN : (base, 0) :: L = A ++ c :: M) {d : FreeList.Block}
    (hd : d ∈ A ∨ d ∈ M) : Far d.1 c.1 := by
  obtain ⟨hA, hM⟩ := h.header_le hN
  rcases hd with hd | hd
  · exact Or.inl (hA d hd)
  · exact Or.inr (hM d hd)

/-- The chain cut at `freep`: every other node, from the successor of `freep` on. -/
theorem Ring.rotate (h : Ring m base freep L) :
    ∃ f C, f.1 = freep ∧ Linked m freep (f :: C) ∧ (∀ c ∈ C, c.1 ≠ freep) ∧
      ((base, 0) :: L).Perm (f :: C) := by
  obtain ⟨f, hf, rfl⟩ := h.freep_mem
  obtain ⟨A, M, hN⟩ := List.append_of_mem hf
  have hhead : next f.1 A = base := by
    cases A with
    | nil => exact congrArg Prod.fst (List.cons.inj hN).1.symm
    | cons a A => exact congrArg Prod.fst (List.cons.inj hN).1.symm
  obtain ⟨hA, hM⟩ := h.header_le hN
  refine ⟨f, M ++ A, rfl, (hN ▸ h.linked).rotate hhead, fun c hc => ?_, ?_⟩
  · change ∀ a ∈ A, a.1 + 16 ≤ f.1 at hA
    change ∀ d ∈ M, f.1 + 16 ≤ d.1 at hM
    rcases List.mem_append.1 hc with hc | hc
    · have := hM c hc
      omega
    · have := hA c hc
      omega
  · rw [hN]
    exact List.perm_append_comm

/-! ## The search of `free` -/

/-- The search of `free` ends at `p`. -/
def Stops (m : Mem) (bp p : ℕ) : Prop :=
  (p < bp ∧ bp < ptr m p) ∨ (ptr m p ≤ p ∧ (p < bp ∨ bp < ptr m p))

theorem freeLoop_of_stops (h : Stops m bp b.1) (fuel : ℕ) :
    freeLoop m bp (fuel + 1) b.1 = some b.1 := by
  rw [freeLoop]
  split_ifs with h₁ h₂
  · rfl
  · rfl
  · exact absurd h (not_or.2 ⟨h₁, h₂⟩)

theorem freeLoop_of_not_stops (h : ¬ Stops m bp b.1) (fuel : ℕ) :
    freeLoop m bp (fuel + 1) b.1 = freeLoop m bp fuel (ptr m b.1) := by
  obtain ⟨h₁, h₂⟩ := not_or.1 h
  rw [freeLoop, if_neg h₁, if_neg h₂]

/-- A walk over a chain that has a node to stop at stops at one. -/
theorem freeLoop_walk (h : Linked m e (b :: L)) (hstop : ∃ c ∈ b :: L, Stops m bp c.1)
    (hfuel : L.length < fuel) :
    ∃ c ∈ b :: L, Stops m bp c.1 ∧ freeLoop m bp fuel b.1 = some c.1 := by
  induction L generalizing b fuel with
  | nil =>
    obtain ⟨c, hc, hcstop⟩ := hstop
    obtain rfl := List.mem_singleton.1 hc
    obtain ⟨k, rfl⟩ := Nat.exists_eq_add_of_lt hfuel
    exact ⟨c, hc, hcstop, freeLoop_of_stops hcstop _⟩
  | cons d L ih =>
    obtain ⟨k, rfl⟩ : ∃ k, fuel = k + 1 := ⟨fuel - 1, by omega⟩
    by_cases hb : Stops m bp b.1
    · exact ⟨b, List.mem_cons_self, hb, freeLoop_of_stops hb k⟩
    · obtain ⟨-, hptr, hrest⟩ := h
      have hrestStop : ∃ c ∈ d :: L, Stops m bp c.1 := by
        obtain ⟨c, hc, hcstop⟩ := hstop
        rcases List.mem_cons.1 hc with rfl | hc
        · exact absurd hcstop hb
        · exact ⟨c, hc, hcstop⟩
      rw [List.length_cons] at hfuel
      obtain ⟨c, hc, hcstop, hloop⟩ := ih hrest hrestStop (by omega : L.length < k)
      refine ⟨c, List.mem_cons_of_mem b hc, hcstop, ?_⟩
      rw [freeLoop_of_not_stops hb, hptr]
      exact hloop

/-- From a node below `bp` on, some node has `bp` between itself and its successor. -/
theorem exists_stops (h : Linked m e (b :: L)) (hb : b.1 < bp) (he : e ≤ b.1)
    (hsorted : (b :: L).Pairwise fun c d => c.1 ≤ d.1) (hne : ∀ c ∈ L, c.1 ≠ bp) :
    ∃ c ∈ b :: L, Stops m bp c.1 := by
  induction L generalizing b with
  | nil =>
    refine ⟨b, List.mem_cons_self, Or.inr ?_⟩
    rw [h.2.1]
    exact ⟨he, Or.inl hb⟩
  | cons d L ih =>
    obtain ⟨-, hptr, hrest⟩ := h
    obtain ⟨hbelow, hsorted⟩ := List.pairwise_cons.1 hsorted
    rcases Nat.lt_or_gt_of_ne (hne d List.mem_cons_self) with hd | hd
    · obtain ⟨c, hc, hcstop⟩ := ih hrest hd (he.trans (hbelow d List.mem_cons_self)) hsorted
        fun c hc => hne c (List.mem_cons_of_mem d hc)
      exact ⟨c, List.mem_cons_of_mem b hc, hcstop⟩
    · refine ⟨b, List.mem_cons_self, Or.inl ⟨hb, ?_⟩⟩
      rw [hptr]
      exact hd

/-- A node where the search ends is the last one below `bp`. -/
theorem Ring.position (h : Ring m base freep L) (hbp : base < bp)
    (hN : (base, 0) :: L = A ++ c :: M) (hstop : Stops m bp c.1) :
    c.1 < bp ∧ ∀ d ∈ M, bp < d.1 := by
  obtain ⟨-, hptr, -⟩ := (linked_append.1 (hN ▸ h.linked)).2
  have hbase : base ≤ c.1 := h.base_le (hN ▸ List.mem_append_right A List.mem_cons_self)
  obtain ⟨-, hM⟩ := h.header_le hN
  unfold Stops at hstop
  rw [hptr] at hstop
  cases M with
  | nil =>
    change c.1 < bp ∧ bp < base ∨ base ≤ c.1 ∧ (c.1 < bp ∨ bp < base) at hstop
    exact ⟨by omega, fun d hd => absurd hd List.not_mem_nil⟩
  | cons d M =>
    change c.1 < bp ∧ bp < d.1 ∨ d.1 ≤ c.1 ∧ (c.1 < bp ∨ bp < d.1) at hstop
    have hd : c.1 + 16 ≤ d.1 := hM d List.mem_cons_self
    have hNd : (base, 0) :: L = (A ++ [c]) ++ d :: M := by rw [hN, List.append_assoc]; rfl
    obtain ⟨-, hMd⟩ := h.header_le hNd
    refine ⟨by omega, fun x hx => ?_⟩
    rcases List.mem_cons.1 hx with rfl | hx
    · omega
    · have : d.1 + 16 ≤ x.1 := hMd x hx
      omega

theorem Ring.freeLoop (h : Ring m base freep L) (hbp : base < bp) (hne : ∀ c ∈ L, c.1 ≠ bp)
    (hfuel : L.length < fuel) :
    ∃ A q M, (base, 0) :: L = A ++ q :: M ∧ q.1 < bp ∧ (∀ d ∈ M, bp < d.1) ∧
      freeLoop m bp fuel freep = some q.1 := by
  obtain ⟨f, C, rfl, hlinked, -, hperm⟩ := h.rotate
  have hsorted : ((base, 0) :: L).Pairwise fun c d => c.1 ≤ d.1 :=
    h.apart.imp fun {c d} hcd => (start_le_stop HEADER c).trans hcd.le
  obtain ⟨c₀, hc₀, hstop₀⟩ := exists_stops h.linked hbp le_rfl hsorted hne
  have hlen : C.length < fuel := by
    have := hperm.length_eq
    rw [List.length_cons, List.length_cons] at this
    omega
  obtain ⟨q, hq, hstop, hloop⟩ := freeLoop_walk hlinked ⟨c₀, hperm.subset hc₀, hstop₀⟩ hlen
  obtain ⟨A, M, hN⟩ := List.append_of_mem (hperm.symm.subset hq)
  obtain ⟨hlt, hM⟩ := h.position hbp hN hstop
  exact ⟨A, q, M, hN, hlt, hM, hloop⟩

/-! ## The search of `malloc` -/

variable {σ : Type} (sbrk : ℤ → σ → Option ℕ × σ) {a : Allocator σ}

theorem mallocLoop_of_fits (h : nunits ≤ size a.mem b.1) (fuel prevp : ℕ) :
    mallocLoop sbrk nunits (fuel + 1) a prevp b.1 = some (take a nunits prevp b.1) := by
  rw [mallocLoop, if_pos h]

theorem mallocLoop_of_lt (h : size a.mem b.1 < nunits) (hne : b.1 ≠ a.freep) (fuel prevp : ℕ) :
    mallocLoop sbrk nunits (fuel + 1) a prevp b.1 =
      mallocLoop sbrk nunits fuel a b.1 (ptr a.mem b.1) := by
  rw [mallocLoop, if_neg (Nat.not_le.2 h), if_neg hne]

/-- Among the nodes before `freep` is met again, a block that is large enough is taken. -/
theorem mallocLoop_walk (h : Linked a.mem e (b :: L)) (hne : ∀ c ∈ L, c.1 ≠ a.freep)
    (hfit : ∃ c ∈ L, nunits ≤ c.2) (hfuel : L.length < fuel) :
    ∃ q ∈ b :: L, ∃ c ∈ L, ptr a.mem q.1 = c.1 ∧ nunits ≤ c.2 ∧
      mallocLoop sbrk nunits fuel a b.1 (next e L) = some (take a nunits q.1 c.1) := by
  induction L generalizing b fuel with
  | nil =>
    obtain ⟨c, hc, -⟩ := hfit
    exact absurd hc List.not_mem_nil
  | cons d L ih =>
    obtain ⟨k, rfl⟩ : ∃ k, fuel = k + 1 := ⟨fuel - 1, by omega⟩
    obtain ⟨-, hptr, hrest⟩ := h
    have hsize : size a.mem d.1 = d.2 := hrest.1
    by_cases hd : nunits ≤ d.2
    · refine ⟨b, List.mem_cons_self, d, List.mem_cons_self, hptr, hd, ?_⟩
      exact mallocLoop_of_fits sbrk (hsize.symm ▸ hd) k b.1
    · have hfitRest : ∃ c ∈ L, nunits ≤ c.2 := by
        obtain ⟨c, hc, hcfit⟩ := hfit
        rcases List.mem_cons.1 hc with rfl | hc
        · exact absurd hcfit hd
        · exact ⟨c, hc, hcfit⟩
      rw [List.length_cons] at hfuel
      obtain ⟨q, hq, c, hc, hqc, hcfit, hloop⟩ :=
        ih hrest (fun c hc => hne c (List.mem_cons_of_mem d hc)) hfitRest
          (by omega : L.length < k)
      refine ⟨q, List.mem_cons_of_mem b hq, c, List.mem_cons_of_mem d hc, hqc, hcfit, ?_⟩
      have hlt : size a.mem d.1 < nunits := hsize.symm ▸ Nat.not_le.1 hd
      change mallocLoop sbrk nunits (k + 1) a b.1 d.1 = _
      rw [mallocLoop_of_lt sbrk hlt (hne d List.mem_cons_self), hrest.2.1]
      exact hloop

/-- Nodes that are too small are passed. -/
theorem mallocLoop_skip (h : Linked a.mem e (b :: L)) (hne : ∀ c ∈ L, c.1 ≠ a.freep)
    (hsmall : ∀ c ∈ L, c.2 < nunits) (fuel : ℕ) :
    ∃ q ∈ b :: L, ptr a.mem q.1 = e ∧
      mallocLoop sbrk nunits (fuel + L.length) a b.1 (next e L) =
        mallocLoop sbrk nunits fuel a q.1 e := by
  induction L generalizing b with
  | nil => exact ⟨b, List.mem_cons_self, h.2.1, rfl⟩
  | cons d L ih =>
    obtain ⟨-, hptr, hrest⟩ := h
    obtain ⟨q, hq, hqe, hloop⟩ := ih hrest (fun c hc => hne c (List.mem_cons_of_mem d hc))
      fun c hc => hsmall c (List.mem_cons_of_mem d hc)
    refine ⟨q, List.mem_cons_of_mem b hq, hqe, ?_⟩
    have hlt : size a.mem d.1 < nunits := hrest.1.symm ▸ hsmall d List.mem_cons_self
    change mallocLoop sbrk nunits (fuel + L.length + 1) a b.1 d.1 = _
    rw [mallocLoop_of_lt sbrk hlt (hne d List.mem_cons_self), hrest.2.1]
    exact hloop

/-- When a free block is large enough, the search takes one, and knows the node before it. -/
theorem Ring.mallocLoop_found (h : Ring a.mem base a.freep L) (hn : 0 < nunits)
    (hfit : ∃ c ∈ L, nunits ≤ c.2) (hfuel : L.length + 1 < fuel) :
    ∃ A q c M, (base, 0) :: L = A ++ q :: c :: M ∧ nunits ≤ c.2 ∧
      mallocLoop sbrk nunits fuel a a.freep (ptr a.mem a.freep) = some (take a nunits q.1 c.1) := by
  obtain ⟨f, C, hf, hlinked, hne, hperm⟩ := h.rotate
  have hlen : L.length = C.length := Nat.succ_injective hperm.length_eq
  -- some node is found with its predecessor in the chain
  obtain ⟨q, hq, c, hc, hqc, hcfit, hloop⟩ : ∃ q ∈ f :: C, ∃ c ∈ f :: C,
      ptr a.mem q.1 = c.1 ∧ nunits ≤ c.2 ∧
      mallocLoop sbrk nunits fuel a a.freep (ptr a.mem a.freep) =
        some (take a nunits q.1 c.1) := by
    have hstart : ptr a.mem a.freep = next a.freep C := hf ▸ hlinked.2.1
    by_cases hC : ∃ c ∈ C, nunits ≤ c.2
    · obtain ⟨q, hq, c, hc, hqc, hcfit, hloop⟩ :=
        mallocLoop_walk sbrk hlinked hne hC (by omega : C.length < fuel)
      rw [hf] at hloop
      exact ⟨q, hq, c, List.mem_cons_of_mem f hc, hqc, hcfit, hstart ▸ hloop⟩
    · have hsmall : ∀ c ∈ C, c.2 < nunits := fun c hc =>
        Nat.not_le.1 fun hle => hC ⟨c, hc, hle⟩
      have hffit : nunits ≤ f.2 := by
        obtain ⟨c, hc, hcfit⟩ := hfit
        rcases List.mem_cons.1 (hperm.subset (List.mem_cons_of_mem _ hc)) with rfl | hc
        · exact hcfit
        · exact absurd hcfit (Nat.not_le.2 (hsmall c hc))
      obtain ⟨k, rfl⟩ : ∃ k, fuel = k + 1 + C.length := ⟨fuel - 1 - C.length, by omega⟩
      obtain ⟨q, hq, hqe, hloop⟩ := mallocLoop_skip sbrk hlinked hne hsmall (k + 1)
      refine ⟨q, hq, f, List.mem_cons_self, hqe.trans hf.symm, hffit, ?_⟩
      rw [hf] at hloop
      rw [hstart, hloop, ← hf]
      exact mallocLoop_of_fits sbrk (hlinked.1.symm ▸ hffit) k q.1
  -- in the order of addresses the predecessor stands right before it
  obtain ⟨A, M, hN⟩ := List.append_of_mem (hperm.symm.subset hq)
  obtain ⟨-, hqptr, -⟩ := (linked_append.1 (hN ▸ h.linked)).2
  have hcL : c ∈ L := by
    rcases List.mem_cons.1 (hperm.symm.subset hc) with rfl | hcL
    · exact absurd hcfit (Nat.not_le.2 hn)
    · exact hcL
  cases M with
  | nil =>
    have hbase : base = c.1 := hqptr.symm.trans hqc
    have habove : base + 16 ≤ c.1 := (h.valid c hcL).above
    omega
  | cons d M =>
    have hdc : d.1 = c.1 := hqptr.symm.trans hqc
    have hNd : (base, 0) :: L = (A ++ [q]) ++ d :: M := by rw [hN, List.append_assoc]; rfl
    have hcN : c ∈ (A ++ [q]) ++ d :: M := hNd ▸ List.mem_cons_of_mem _ hcL
    obtain rfl : c = d := by
      obtain ⟨hA, hM⟩ := h.header_le hNd
      change ∀ x ∈ A ++ [q], x.1 + 16 ≤ d.1 at hA
      change ∀ x ∈ M, d.1 + 16 ≤ x.1 at hM
      rcases List.mem_append.1 hcN with hcA | hcM
      · have := hA c hcA
        omega
      · rcases List.mem_cons.1 hcM with rfl | hcM
        · rfl
        · have := hM c hcM
          omega
    exact ⟨A, q, c, M, hN, hcfit, hloop⟩

/-- When no free block is large enough, the search asks for more memory. -/
theorem Ring.mallocLoop_none (h : Ring a.mem base a.freep L) (hn : 0 < nunits)
    (hsmall : ∀ c ∈ L, c.2 < nunits) (fuel : ℕ) :
    mallocLoop sbrk nunits (fuel + 1 + L.length) a a.freep (ptr a.mem a.freep) =
      (morecore sbrk fuel a nunits).bind fun r =>
        if r.1 = 0 then some (0, r.2)
        else mallocLoop sbrk nunits fuel r.2 r.1 (ptr r.2.mem r.1) := by
  obtain ⟨f, C, hf, hlinked, hne, hperm⟩ := h.rotate
  have hlen : L.length = C.length := Nat.succ_injective hperm.length_eq
  have hsmall' : ∀ c ∈ f :: C, c.2 < nunits := by
    intro c hc
    rcases List.mem_cons.1 (hperm.symm.subset hc) with rfl | hc
    · exact hn
    · exact hsmall c hc
  have hstart : ptr a.mem a.freep = next a.freep C := hf ▸ hlinked.2.1
  obtain ⟨q, -, -, hloop⟩ := mallocLoop_skip sbrk hlinked hne
    (fun c hc => hsmall' c (List.mem_cons_of_mem f hc)) (fuel + 1)
  have hlt : size a.mem a.freep < nunits := by
    rw [← hf, hlinked.1]
    exact hsmall' f List.mem_cons_self
  rw [hstart, hlen]
  rw [hf] at hloop
  rw [hloop, mallocLoop, if_neg (Nat.not_le.2 hlt), if_pos rfl]
  rfl

end Xv6.Heap
