import Xv6.Heap.Effects

/-!
# The invariant of the user heap

`HeapInv` is the invariant: the free list is a `Ring`, and the free and the live blocks are the
disjoint parts of the memory that `sbrk` gave.  `free` of a live block keeps it; `malloc` takes a
block of the free list or adds a fresh region first.
-/

namespace Xv6.Heap

open Memory FreeList

/-- A request that was served: the pointer that `malloc` returned and the bytes asked for. -/
abbrev Request := ℕ × ℕ

/-- The block of a request, its header included. -/
def block (r : Request) : FreeList.Block := (r.1 - HEADER, units r.2)

/-- The free list `L` and the live blocks of an allocator that got the addresses `R`. -/
structure HeapInv (base : ℕ) (m : Mem) (freep : ℕ) (live : List Request) (R : Set ℕ)
    (L : List FreeList.Block) : Prop where
  ring : Ring m base freep L
  tiling : Tiling HEADER ((base, 0) :: L) (live.map block) R
  valid : ∀ r ∈ live, HEADER ≤ r.1 ∧ Valid base (block r)
  header : ∀ r ∈ live, size m (block r).1 = (block r).2
  room : ∀ r ∈ live, HEADER + r.2 ≤ HEADER * (block r).2

variable {base freep fuel nbytes : ℕ} {m : Mem} {live X Y : List Request} {r : Request} {R : Set ℕ}
  {b c q : FreeList.Block} {A L M : List FreeList.Block}

/-! ## Disjoint headers -/

theorem far_of_disjoint (hb : Valid base b) (hc : Valid base c)
    (h : Disjoint (bytes HEADER b) (bytes HEADER c)) : Far b.1 c.1 := by
  rcases Nat.lt_trichotomy b.1 c.1 with hlt | heq | hlt
  · exact Or.inl (hb.header_le_stop.trans (stop_le_of_disjoint h hlt hc))
  · exact absurd (heq ▸ hb.start_mem) (Set.disjoint_right.1 h hc.start_mem)
  · exact Or.inr (hc.header_le_stop.trans (stop_le_of_disjoint h.symm hlt hb))

theorem Ring.far_of_disjoint (h : Ring m base freep L) (hb : Valid base b)
    (hdisj : Disjoint (bytes HEADER b) (cover HEADER ((base, 0) :: L))) (hc : c ∈ (base, 0) :: L) :
    Far b.1 c.1 := by
  rcases List.mem_cons.1 hc with rfl | hc
  · exact Or.inr hb.above
  · refine Heap.far_of_disjoint hb (h.valid c hc) ?_
    exact disjoint_cover_iff.1 hdisj c (List.mem_cons_of_mem _ hc)

theorem HeapInv.live_disjoint_free (h : HeapInv base m freep live R L) (hr : r ∈ live) :
    Disjoint (bytes HEADER (block r)) (cover HEADER ((base, 0) :: L)) :=
  (disjoint_cover_iff.1 h.tiling.disjoint.symm (block r) (List.mem_map_of_mem hr)).symm

theorem HeapInv.far_node (h : HeapInv base m freep live R L) (hr : r ∈ live)
    (hc : c ∈ (base, 0) :: L) : Far (block r).1 c.1 :=
  h.ring.far_of_disjoint (h.valid r hr).2 (h.live_disjoint_free hr) hc

/-- The invariant reads the headers of the nodes and of the live blocks only. -/
theorem HeapInv.congr {m' : Mem} (h : HeapInv base m freep live R L)
    (hnodes : ∀ c ∈ (base, 0) :: L, SameHeader m m' c.1)
    (hlive : ∀ r ∈ live, SameHeader m m' (block r).1) : HeapInv base m' freep live R L :=
  ⟨⟨h.ring.base_pos, h.ring.linked.congr hnodes, h.ring.apart, h.ring.valid, h.ring.freep_mem⟩,
    h.tiling, h.valid, fun r hr => (hlive r hr).2.trans (h.header r hr), h.room⟩

/-! ## `free` -/

theorem eqOutsideHeaders_sameHeader {m' : Mem} {p p' x : ℕ} (h : EqOutsideHeaders p p' m m')
    (hp : Far x p) (hp' : Far x p') : SameHeader m m' x := by
  have hbyte : ∀ i < 16, m' (x + i) = m (x + i) := by
    intro i hi
    unfold Far at hp hp'
    change x + 16 ≤ p ∨ p + 16 ≤ x at hp
    change x + 16 ≤ p' ∨ p' + 16 ≤ x at hp'
    refine h (x + i) ?_ ?_
    · change ¬ (p ≤ x + i ∧ x + i < p + 16)
      omega
    · change ¬ (p' ≤ x + i ∧ x + i < p' + 16)
      omega
  refine ⟨load_congr fun i hi => hbyte i (by omega), load_congr fun i hi => ?_⟩
  rw [Nat.add_assoc]
  exact hbyte (8 + i) (by omega)

/-- The pointer of a live block, from the address of its header. -/
theorem HeapInv.plus_block (h : HeapInv base m freep live R L) (hr : r ∈ live) :
    plus (block r).1 1 = r.1 := by
  obtain ⟨hle, hv⟩ := h.valid r hr
  have hlt := hv.header_le_stop.trans_lt hv.stop_lt
  change 16 ≤ r.1 at hle
  change r.1 - 16 + 16 < 2 ^ 64 at hlt
  change (r.1 - 16 + 16 * 1) % 2 ^ 64 = r.1
  omega

theorem HeapInv.free (h : HeapInv base m freep (X ++ r :: Y) R L) (hfuel : L.length < fuel) :
    ∃ m' freep' L', Heap.free fuel m freep r.1 = some (m', freep') ∧
      HeapInv base m' freep' (X ++ Y) R L' := by
  have hr : r ∈ X ++ r :: Y := List.mem_append_right X List.mem_cons_self
  have hdisj : Disjoint (bytes HEADER (block r)) (cover HEADER L) := by
    refine (h.live_disjoint_free hr).mono_right ?_
    rw [cover_cons]
    exact Set.subset_union_right
  obtain ⟨A, q, M, m', L', hp, hplace, hfree, hring, hframe⟩ :=
    h.ring.free (h.valid r hr).2 (h.header r hr) hdisj hfuel
  rw [h.plus_block hr] at hfree
  have hsub : ∀ x ∈ X ++ Y, x ∈ X ++ r :: Y := fun x hx =>
    (List.sublist_cons_self r Y).append_left X |>.subset hx
  have htiling := h.tiling
  rw [List.map_append, List.map_cons, hp.nodes] at htiling
  have hgive := htiling.give hp.stop_le hp.le_start
  rw [hplace, ← List.map_append] at hgive
  refine ⟨m', q.1, L', hfree, hring, hgive, fun x hx => h.valid x (hsub x hx), fun x hx => ?_,
    fun x hx => h.room x (hsub x hx)⟩
  -- the headers of the other live blocks are not touched
  have hxr : Disjoint (bytes HEADER (block x)) (bytes HEADER (block r)) := by
    have hpair := h.tiling.live_disjoint
    rw [List.map_append, List.map_cons] at hpair
    obtain ⟨-, hrY, hXr⟩ := List.pairwise_append.1 hpair
    rcases List.mem_append.1 hx with hx | hx
    · exact hXr _ (List.mem_map_of_mem hx) _ List.mem_cons_self
    · exact ((List.pairwise_cons.1 hrY).1 _ (List.mem_map_of_mem hx)).symm
  have hfar : Far (block x).1 (block r).1 :=
    Heap.far_of_disjoint (h.valid x (hsub x hx)).2 (h.valid r hr).2 hxr
  have hfarq : Far (block x).1 q.1 :=
    h.far_node (hsub x hx) (hp.nodes ▸ List.mem_append_right A List.mem_cons_self)
  rw [(eqOutsideHeaders_sameHeader hframe hfar hfarq).2]
  exact h.header x (hsub x hx)

/-! ## The end of `malloc` -/

variable {σ : Type} {a : Allocator σ}

theorem units_pos (hn : nbytes < 2 ^ 32) : 0 < units nbytes := by
  change 0 < ((nbytes + 16 - 1) / 16 + 1) % 2 ^ 32
  omega

theorem room_units (hn : nbytes < 2 ^ 32) : HEADER + nbytes ≤ HEADER * units nbytes := by
  change 16 + nbytes ≤ 16 * (((nbytes + 16 - 1) / 16 + 1) % 2 ^ 32)
  omega

/-- The block that the search found becomes live. -/
theorem HeapInv.take (h : HeapInv base a.mem a.freep live R L) (hn : nbytes < 2 ^ 32)
    (hN : (base, 0) :: L = A ++ q :: c :: M) (hle : units nbytes ≤ c.2) :
    ∃ p m' L', Heap.take a (units nbytes) q.1 c.1 = (p, { a with mem := m', freep := q.1 }) ∧
      p ≠ 0 ∧ HeapInv base m' q.1 ((p, nbytes) :: live) R L' := by
  obtain ⟨m', L', htake, hcut, hring, hsize, hframe⟩ := h.ring.take (units_pos hn) hN hle
  have hNc : (base, 0) :: L = (A ++ [q]) ++ c :: M := by rw [hN, List.append_assoc]; rfl
  have hmem : c ∈ (base, 0) :: L := hNc ▸ List.mem_append_right _ List.mem_cons_self
  have hc : Valid base c := by
    rcases List.mem_cons.1 hmem with rfl | hcL
    · exact absurd hle (Nat.not_le.2 (units_pos hn))
    · exact h.ring.valid c hcL
  have htop := hc.top (units_pos hn) hle
  have hlt : (FreeList.top HEADER c (units nbytes)).1 + 16 < 2 ^ 64 :=
    htop.header_le_stop.trans_lt htop.stop_lt
  have hp : plus (FreeList.top HEADER c (units nbytes)).1 1 =
      (FreeList.top HEADER c (units nbytes)).1 + 16 :=
    Nat.mod_eq_of_lt hlt
  have hblock : block ((FreeList.top HEADER c (units nbytes)).1 + 16, nbytes) =
      FreeList.top HEADER c (units nbytes) :=
    Prod.ext (Nat.add_sub_cancel _ 16) rfl
  have htiling := h.tiling
  rw [hNc] at htiling
  have htaken := htiling.take hle
  rw [hcut, ← hblock, ← List.map_cons] at htaken
  rw [hp] at htake
  refine ⟨_, m', L', htake, Nat.succ_ne_zero _, hring, htaken, ?_, ?_, ?_⟩
  · intro x hx
    rcases List.mem_cons.1 hx with rfl | hx
    · exact ⟨Nat.le_add_left _ _, hblock.symm ▸ htop⟩
    · exact h.valid x hx
  · intro x hx
    rcases List.mem_cons.1 hx with rfl | hx
    · rw [hblock]
      exact hsize
    · -- a live block is apart from the node before and from the block that was cut
      have hfar := h.far_node hx (c := q) (hN ▸ List.mem_append_right A List.mem_cons_self)
      have hdisj := disjoint_cover_iff.1 (h.live_disjoint_free hx) c hmem
      have hv := (h.valid x hx).2
      rw [← h.header x hx]
      refine load_congr fun i hi => hframe _ ?_ ?_
      · unfold Far at hfar
        change (block x).1 + 16 ≤ q.1 ∨ q.1 + 16 ≤ (block x).1 at hfar
        change ¬ (q.1 ≤ (block x).1 + 8 + i ∧ (block x).1 + 8 + i < q.1 + 16)
        omega
      · have hstop := hv.header_le_stop
        change (block x).1 + 16 ≤ stop HEADER (block x) at hstop
        exact Set.disjoint_left.1 hdisj ⟨by omega, by omega⟩
  · intro x hx
    rcases List.mem_cons.1 hx with rfl | hx
    · rw [hblock]
      exact room_units hn
    · exact h.room x hx

/-! ## `morecore` -/

/-- The units that `morecore` asks for. -/
def moreUnits (nunits : ℕ) : ℕ := if nunits < 4096 then 4096 else nunits

theorem le_moreUnits (n : ℕ) : n ≤ moreUnits n := by
  unfold moreUnits
  split_ifs
  · omega
  · rfl

theorem exists_le_join (w : ℕ) (b : FreeList.Block) (L : List FreeList.Block) : ∃ c ∈ join w b L, b.2 ≤ c.2 := by
  cases L with
  | nil => exact ⟨b, List.mem_cons_self, le_rfl⟩
  | cons d L =>
    rw [join]
    split_ifs
    · exact ⟨_, List.mem_cons_self, Nat.le_add_right _ _⟩
    · exact ⟨b, List.mem_cons_self, le_rfl⟩

/-- Joining leaves no block smaller. -/
theorem exists_le_join_of_mem (w : ℕ) (b : FreeList.Block) (hc : c ∈ L) : ∃ d ∈ join w b L, c.2 ≤ d.2 := by
  cases L with
  | nil => exact absurd hc List.not_mem_nil
  | cons d L =>
    rw [join]
    split_ifs
    · rcases List.mem_cons.1 hc with rfl | hc
      · exact ⟨_, List.mem_cons_self, Nat.le_add_left _ _⟩
      · exact ⟨c, List.mem_cons_of_mem _ hc, le_rfl⟩
    · exact ⟨c, List.mem_cons_of_mem _ hc, le_rfl⟩

theorem length_join_le (w : ℕ) (b : FreeList.Block) (L : List FreeList.Block) :
    (join w b L).length ≤ L.length + 1 := by
  cases L with
  | nil => rfl
  | cons d L =>
    rw [join]
    split_ifs
    · exact Nat.le_succ _
    · rfl

theorem HeapInv.setSize (h : HeapInv base m freep live R L) (hb : Valid base b)
    (hfresh : Disjoint (bytes HEADER b) R) (n : ℕ) :
    HeapInv base (Heap.setSize m b.1 n) freep live R L := by
  have hcover := h.tiling.cover_eq
  have hfree : Disjoint (bytes HEADER b) (cover HEADER ((base, 0) :: L)) :=
    hfresh.mono_right (hcover ▸ Set.subset_union_left)
  have hlive : Disjoint (bytes HEADER b) (cover HEADER (live.map block)) :=
    hfresh.mono_right (hcover ▸ Set.subset_union_right)
  have hout := setSize_eqOutside m b.1 n
  refine h.congr (fun c hc => ?_) fun x hx => ?_
  · exact sameHeader_of_eqOutside hout (h.ring.far_of_disjoint hb hfree hc).symm
  · have hdisj := disjoint_cover_iff.1 hlive (block x) (List.mem_map_of_mem hx)
    exact sameHeader_of_eqOutside hout (Heap.far_of_disjoint hb (h.valid x hx).2 hdisj).symm

/-- `morecore` adds a fresh region to the free list, and then some block is large enough. -/
theorem HeapInv.grow (h : HeapInv base m freep live R L) (hb : Valid base b)
    (hfresh : Disjoint (bytes HEADER b) R) (hfuel : L.length < fuel) :
    ∃ m' freep' L', Heap.free fuel (Heap.setSize m b.1 b.2) freep (plus b.1 1) =
        some (m', freep') ∧ freep' ≠ 0 ∧ HeapInv base m' freep' live (bytes HEADER b ∪ R) L' ∧
      (∃ c ∈ L', b.2 ≤ c.2) ∧ L'.length ≤ L.length + 1 := by
  have hb₂ : b.2 < 2 ^ 32 :=
    size_lt_of_stop_le (h.ring.base_pos.trans_le ((Nat.le_add_right _ _).trans hb.above)) hb.limit
  have h₁ := h.setSize hb hfresh b.2
  have hsize : size (Heap.setSize m b.1 b.2) b.1 = b.2 := size_setSize m b.1 hb₂
  have hdisj : Disjoint (bytes HEADER b) (cover HEADER L) := by
    refine hfresh.mono_right ?_
    rw [← h.tiling.cover_eq, cover_cons]
    exact (Set.subset_union_right).trans Set.subset_union_left
  obtain ⟨A, q, M, m', L', hp, hplace, hfree, hring, hframe⟩ :=
    h₁.ring.free hb hsize hdisj hfuel
  have htiling := h.tiling
  rw [hp.nodes] at htiling
  have hgrow := htiling.grow hfresh hp.stop_le hp.le_start
  rw [hplace] at hgrow
  have hqmem : q ∈ (base, 0) :: L := hp.nodes ▸ List.mem_append_right A List.mem_cons_self
  refine ⟨m', q.1, L', hfree, ?_, ⟨hring, hgrow, h.valid, fun x hx => ?_, h.room⟩, ?_, ?_⟩
  · have := h.ring.base_pos.trans_le (h.ring.base_le hqmem)
    omega
  · have hlive : Disjoint (bytes HEADER (block x)) (bytes HEADER b) := by
      refine (hfresh.mono_right ?_).symm
      rw [← h.tiling.cover_eq]
      exact fun y hy => Or.inr ⟨block x, List.mem_map_of_mem hx, hy⟩
    have hfar := Heap.far_of_disjoint (h.valid x hx).2 hb hlive
    rw [(eqOutsideHeaders_sameHeader hframe hfar (h.far_node hx hqmem)).2]
    exact h₁.header x hx
  · -- the region, joined to its neighbours, is in the list and is not `base`
    obtain ⟨c, hc, hbc⟩ := exists_le_join HEADER b M
    obtain ⟨d, hd, hcd⟩ := exists_le_join_of_mem HEADER q hc
    have hdN : d ∈ (base, 0) :: L' := hplace ▸ List.mem_append_right A hd
    have hpos := hb.pos
    rcases List.mem_cons.1 hdN with rfl | hdL
    · exact absurd (hbc.trans hcd) (Nat.not_le.2 hpos)
    · exact ⟨d, hdL, hbc.trans hcd⟩
  · have h₂ := congrArg List.length hplace
    have h₃ := congrArg List.length hp.nodes
    have h₄ := length_join_le HEADER b M
    have h₅ := length_join_le HEADER q (join HEADER b M)
    simp only [List.length_append, List.length_cons] at h₂ h₃
    omega

/-! ## `malloc` -/

variable (sbrk : ℤ → σ → Option ℕ × σ)

theorem morecore_none {nunits : ℕ} {proc : σ}
    (h : sbrk (toInt (moreUnits nunits * HEADER)) a.proc = (none, proc)) :
    morecore sbrk fuel a nunits = some (0, { a with proc }) := by
  unfold moreUnits at h
  unfold morecore
  dsimp only
  rw [h]
  rfl

theorem morecore_some {nunits hp freep' : ℕ} {proc : σ} {m' : Mem}
    (h : sbrk (toInt (moreUnits nunits * HEADER)) a.proc = (some hp, proc))
    (hfree : Heap.free fuel (Heap.setSize a.mem hp (moreUnits nunits)) a.freep (plus hp 1) =
      some (m', freep')) :
    morecore sbrk fuel a nunits = some (freep', { mem := m', freep := freep', proc }) := by
  unfold moreUnits at h hfree
  unfold morecore
  dsimp only
  rw [h]
  dsimp only
  rw [hfree]
  rfl

/-- `malloc` on an initialised heap serves the request from the free list, or returns null because
there is no memory, or serves it from the memory it got. -/
inductive Outcome (base nbytes : ℕ) (live : List Request) (R : Set ℕ) (L : List FreeList.Block)
    (a : Allocator σ) : ℕ → Allocator σ → Prop
  | served {p : ℕ} {a' : Allocator σ} {L' : List FreeList.Block} (fits : ∃ c ∈ L, units nbytes ≤ c.2)
      (ne : p ≠ 0) (proc_eq : a'.proc = a.proc)
      (inv : HeapInv base a'.mem a'.freep ((p, nbytes) :: live) R L') :
      Outcome base nbytes live R L a p a'
  | refused {proc : σ} (small : ∀ c ∈ L, c.2 < units nbytes)
      (call : sbrk (toInt (moreUnits (units nbytes) * HEADER)) a.proc = (none, proc)) :
      Outcome base nbytes live R L a 0 { a with proc }
  | grown {p hp : ℕ} {a' : Allocator σ} {L' : List FreeList.Block} (small : ∀ c ∈ L, c.2 < units nbytes)
      (call : sbrk (toInt (moreUnits (units nbytes) * HEADER)) a.proc = (some hp, a'.proc))
      (ne : p ≠ 0)
      (inv : HeapInv base a'.mem a'.freep ((p, nbytes) :: live)
        (bytes HEADER (hp, moreUnits (units nbytes)) ∪ R) L') :
      Outcome base nbytes live R L a p a'

theorem HeapInv.mallocLoop (h : HeapInv base a.mem a.freep live R L) (hn : nbytes < 2 ^ 32)
    (hsbrk : ∀ hp proc, (∀ c ∈ L, c.2 < units nbytes) →
      sbrk (toInt (moreUnits (units nbytes) * HEADER)) a.proc = (some hp, proc) →
      Valid base (hp, moreUnits (units nbytes)) ∧
        Disjoint (bytes HEADER (hp, moreUnits (units nbytes))) R)
    (hfuel : 2 * L.length + 4 ≤ fuel) :
    ∃ p a', mallocLoop sbrk (units nbytes) fuel a a.freep (ptr a.mem a.freep) = some (p, a') ∧
      Outcome sbrk base nbytes live R L a p a' := by
  by_cases hfit : ∃ c ∈ L, units nbytes ≤ c.2
  · obtain ⟨A, q, c, M, hN, hle, hloop⟩ :=
      h.ring.mallocLoop_found sbrk (units_pos hn) hfit (by omega : L.length + 1 < fuel)
    obtain ⟨p, m', L', htake, hp, hinv⟩ := h.take hn hN hle
    rw [htake] at hloop
    exact ⟨p, _, hloop, .served hfit hp rfl hinv⟩
  · have hsmall : ∀ c ∈ L, c.2 < units nbytes := fun c hc =>
      Nat.not_le.1 fun hle => hfit ⟨c, hc, hle⟩
    obtain ⟨k, rfl⟩ : ∃ k, fuel = k + 1 + L.length := ⟨fuel - 1 - L.length, by omega⟩
    have hnone := h.ring.mallocLoop_none sbrk (units_pos hn) hsmall k
    rcases hcall : sbrk (toInt (moreUnits (units nbytes) * HEADER)) a.proc with ⟨_ | hp, proc⟩
    · rw [morecore_none sbrk hcall] at hnone
      exact ⟨0, _, hnone, .refused hsmall hcall⟩
    · obtain ⟨hvalid, hfresh⟩ := hsbrk hp proc hsmall hcall
      obtain ⟨m', freep', L', hfree, hne, hgrow, ⟨c, hc, hfit'⟩, hlen⟩ :=
        h.grow hvalid hfresh (by omega : L.length < k)
      rw [morecore_some sbrk hcall hfree, Option.bind_some, if_neg hne] at hnone
      -- the second search starts from the new `freep`
      let a₁ : Allocator σ := { mem := m', freep := freep', proc }
      have hgrown : HeapInv base a₁.mem a₁.freep live _ L' := hgrow
      obtain ⟨A, q, d, M, hN, hle, hloop⟩ := hgrown.ring.mallocLoop_found sbrk (units_pos hn)
        ⟨c, hc, (le_moreUnits _).trans hfit'⟩ (by omega : L'.length + 1 < k)
      obtain ⟨p, m'', L'', htake, hp', hinv⟩ := hgrown.take hn hN hle
      rw [htake] at hloop
      exact ⟨p, _, hnone.trans hloop, .grown hsmall hcall hp' hinv⟩

theorem HeapInv.initBase (hbase : 0 < base) (hlt : base < 2 ^ 64) (a : Allocator σ) :
    HeapInv base (initBase base a).mem (initBase base a).freep [] ∅ [] := by
  refine ⟨⟨hbase, ⟨?_, ?_, trivial⟩, List.pairwise_singleton _ _, ?_, ?_⟩, ?_, ?_, ?_, ?_⟩
  · exact size_setSize _ base (by decide)
  · exact (ptr_setSize _ base 0).trans (ptr_setPtr a.mem base hlt)
  · exact fun c hc => absurd hc List.not_mem_nil
  · exact ⟨(base, 0), List.mem_cons_self, rfl⟩
  · have hempty : bytes HEADER (base, 0) = ∅ :=
      Set.eq_empty_of_forall_notMem fun x hx => absurd hx.2 (Nat.not_lt.2 hx.1)
    refine ⟨List.pairwise_singleton _ _, List.Pairwise.nil, ?_, ?_⟩
    · rw [List.map_nil, cover_nil]
      exact Set.empty_disjoint _
    · rw [List.map_nil, cover_cons, cover_nil, hempty, Set.union_empty, Set.union_empty]
  · exact fun r hr => absurd hr List.not_mem_nil
  · exact fun r hr => absurd hr List.not_mem_nil
  · exact fun r hr => absurd hr List.not_mem_nil

end Xv6.Heap
