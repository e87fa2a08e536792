import Xv6.Heap.Invariant
import Xv6.Lib.Runs

/-!
# Runs of a program that uses the heap

A program calls `malloc` and `free`, and stores into the blocks it holds.  Every legal event keeps
the invariant of the heap and returns, as long as the heap ends below `LIMIT`.  Beyond it the size
of a merged block does not fit in its header, and `heap_loses_memory` is a run in which memory is
lost.
-/

namespace Xv6.Heap

open Memory FreeList

/-- A program and its heap; the regions are the first address and the bytes of each one obtained
from `sbrk`. -/
structure Program where
  heap : Allocator (List FreeList.Block)
  live : List Request

inductive Event
  /-- `malloc(nbytes)`, with the answer that `sbrk` would give. -/
  | malloc (nbytes : ℕ) (answer : Option ℕ)
  | free (ap : ℕ)
  /-- The program stores a byte. -/
  | write (x : ℕ) (v : BitVec 8)

/-- `sbrk` with a given answer. -/
def sbrkOf (answer : Option ℕ) (k : ℤ) (regions : List FreeList.Block) : Option ℕ × List FreeList.Block :=
  match answer with
  | none => (none, regions)
  | some p => (some p, (p, k.toNat) :: regions)

/-- One event, with fuel for its loops. -/
def step (base : ℕ) (s : Program) : ℕ × Event → Option Program
  | (fuel, .malloc nbytes answer) => do
    let (p, heap) ← malloc (sbrkOf answer) fuel base s.heap nbytes
    return { heap, live := if p = 0 then s.live else (p, nbytes) :: s.live }
  | (fuel, .free ap) => do
    let (mem, freep) ← free fuel s.heap.mem s.heap.freep ap
    return { heap := { s.heap with mem, freep }, live := s.live.eraseP fun r => r.1 = ap }
  | (_, .write x v) =>
    some { s with heap := { s.heap with mem := Function.update s.heap.mem x v } }

/-- A request of fewer than 2^27 units, where a region that `sbrk` returns is above `base` and the
earlier regions and ends at `limit` at most; a pointer that is live; a store into a live block. -/
def Legal (base limit : ℕ) (s : Program) : Event → Prop
  | .malloc nbytes answer => nbytes < 2 ^ 32 ∧ units nbytes < 2 ^ 27 ∧
      ∀ p ∈ answer, base + HEADER ≤ p ∧ (∀ r ∈ s.heap.proc, stop 1 r ≤ p) ∧
        p + HEADER * moreUnits (units nbytes) ≤ limit
  | .free ap => ∃ r ∈ s.live, r.1 = ap
  | .write x _ => ∃ r ∈ s.live, r.1 ≤ x ∧ x < r.1 + r.2

instance (base limit : ℕ) (s : Program) : (e : Event) → Decidable (Legal base limit s e)
  | .malloc nbytes answer =>
    inferInstanceAs (Decidable (nbytes < 2 ^ 32 ∧ units nbytes < 2 ^ 27 ∧
      ∀ p ∈ answer, base + HEADER ≤ p ∧ (∀ r ∈ s.heap.proc, stop 1 r ≤ p) ∧
        p + HEADER * moreUnits (units nbytes) ≤ limit))
  | .free ap => inferInstanceAs (Decidable (∃ r ∈ s.live, r.1 = ap))
  | .write x _ => inferInstanceAs (Decidable (∃ r ∈ s.live, r.1 ≤ x ∧ x < r.1 + r.2))

def initial (m : Mem) : Program := { heap := { mem := m, freep := 0, proc := [] }, live := [] }

/-- Nothing was requested yet, or the heap has its invariant. -/
def HeapOk (base : ℕ) (s : Program) : Prop :=
  (s.heap.freep = 0 ∧ s.heap.proc = [] ∧ s.live = []) ∨
    ∃ L, HeapInv base s.heap.mem s.heap.freep s.live (cover 1 s.heap.proc) L

variable {base : ℕ} {s t : Program} {e : Event}

/-! ## `malloc` -/

theorem toInt_request {n : ℕ} (hn : n < 2 ^ 27) :
    toInt (moreUnits n * HEADER) = (moreUnits n * HEADER : ℕ) := by
  have hmore : moreUnits n < 2 ^ 27 := by
    unfold moreUnits
    split_ifs
    · decide
    · exact hn
  have hlt : 2 * (moreUnits n * HEADER) < 2 ^ 32 := by
    change 2 * (moreUnits n * 16) < 2 ^ 32
    omega
  have hnat : (BitVec.ofNat 32 (moreUnits n * HEADER)).toNat = moreUnits n * HEADER := by
    rw [BitVec.toNat_ofNat, Nat.mod_eq_of_lt (by omega)]
  unfold toInt
  rw [BitVec.toInt_eq_toNat_of_lt (by rw [hnat]; exact hlt), hnat]

theorem bytes_region (p n : ℕ) : bytes 1 (p, n * HEADER) = bytes HEADER (p, n) := by
  unfold bytes stop
  dsimp only
  rw [Nat.one_mul, Nat.mul_comm]

theorem malloc_of_inv {nbytes fuel : ℕ} {answer : Option ℕ} {a : Allocator (List FreeList.Block)}
    {live : List Request} {L : List FreeList.Block}
    (h : HeapInv base a.mem a.freep live (cover 1 a.proc) L)
    (hlegal : Legal base LIMIT { heap := a, live } (.malloc nbytes answer))
    (hfuel : 2 * L.length + 4 ≤ fuel) :
    ∃ p a', mallocLoop (sbrkOf answer) (units nbytes) fuel a a.freep (ptr a.mem a.freep) =
        some (p, a') ∧
      ∃ L', HeapInv base a'.mem a'.freep (if p = 0 then live else (p, nbytes) :: live)
        (cover 1 a'.proc) L' := by
  obtain ⟨hn, hunits, hregion⟩ := hlegal
  have hsbrk : ∀ hp proc, (∀ c ∈ L, c.2 < units nbytes) →
      sbrkOf answer (toInt (moreUnits (units nbytes) * HEADER)) a.proc = (some hp, proc) →
      Valid base (hp, moreUnits (units nbytes)) ∧
        Disjoint (bytes HEADER (hp, moreUnits (units nbytes))) (cover 1 a.proc) := by
    intro hp proc _ hcall
    cases answer with
    | none => exact absurd (congrArg Prod.fst hcall) (by simp [sbrkOf])
    | some p =>
      obtain rfl : p = hp := Option.some.inj (congrArg Prod.fst hcall)
      obtain ⟨habove, hregions, hlimit⟩ := hregion p rfl
      refine ⟨⟨habove, (units_pos hn).trans_le (le_moreUnits _), hlimit⟩, ?_⟩
      refine disjoint_cover_iff.2 fun r hr => ?_
      rw [← bytes_region]
      exact (disjoint_of_stop_le (hregions r hr)).symm
  obtain ⟨p, a', hloop, hout⟩ := h.mallocLoop (sbrkOf answer) hn hsbrk hfuel
  refine ⟨p, a', hloop, ?_⟩
  cases hout with
  | served _ hne hproc hinv =>
    rw [if_neg hne, hproc]
    exact ⟨_, hinv⟩
  | @refused proc _ hcall =>
    have hproc : proc = a.proc := by
      cases answer with
      | none => exact (congrArg Prod.snd hcall).symm
      | some p => exact absurd (congrArg Prod.fst hcall) (by simp [sbrkOf])
    rw [if_pos rfl, hproc]
    exact ⟨L, h⟩
  | @grown _ hp _ _ _ hcall hne hinv =>
    have hproc : a'.proc = (hp, moreUnits (units nbytes) * HEADER) :: a.proc := by
      rw [toInt_request hunits] at hcall
      cases answer with
      | none => exact absurd (congrArg Prod.fst hcall) (by simp [sbrkOf])
      | some p =>
        obtain rfl : p = hp := Option.some.inj (congrArg Prod.fst hcall)
        exact (congrArg Prod.snd hcall).symm
    rw [if_neg hne, hproc, cover_cons, bytes_region]
    exact ⟨_, hinv⟩

/-! ## Runs -/

theorem HeapInv.write {m : Mem} {freep x : ℕ} {live : List Request} {R : Set ℕ} {L : List FreeList.Block}
    (h : HeapInv base m freep live R L) (v : BitVec 8)
    (hx : ∃ r ∈ live, r.1 ≤ x ∧ x < r.1 + r.2) :
    HeapInv base (Function.update m x v) freep live R L := by
  obtain ⟨r, hr, hle, hlt⟩ := hx
  have hroom := h.room r hr
  have hstart : 16 ≤ r.1 := (h.valid r hr).1
  change 16 + r.2 ≤ 16 * (block r).2 at hroom
  have hmem : x ∈ bytes HEADER (block r) := by
    refine ⟨(Nat.sub_le _ _).trans hle, ?_⟩
    change x < r.1 - 16 + 16 * (block r).2
    omega
  have hout : ∀ y, x < y ∨ y + 16 ≤ x → SameHeader m (Function.update m x v) y := by
    intro y hy
    refine ⟨load_congr fun i hi => ?_, load_congr fun i hi => ?_⟩
    · exact Function.update_of_ne (by omega) _ _
    · exact Function.update_of_ne (by omega) _ _
  -- a block that is disjoint from the live one does not hold `x`
  have hother : ∀ c, Valid base c → Disjoint (bytes HEADER (block r)) (bytes HEADER c) →
      x < c.1 ∨ c.1 + 16 ≤ x := by
    intro c hc hdisj
    have hnot : ¬ (c.1 ≤ x ∧ x < stop HEADER c) := Set.disjoint_left.1 hdisj hmem
    have hheader : c.1 + 16 ≤ stop HEADER c := hc.header_le_stop
    omega
  refine h.congr (fun c hc => hout c.1 ?_) fun q hq => hout _ ?_
  · rcases List.mem_cons.1 hc with rfl | hcL
    · have habove : base + 16 ≤ r.1 - 16 := (h.valid r hr).2.above
      right
      change base + 16 ≤ x
      omega
    · exact hother c (h.ring.valid c hcL) (disjoint_cover_iff.1 (h.live_disjoint_free hr) c hc)
  · by_cases heq : block q = block r
    · right
      rw [heq]
      change r.1 - 16 + 16 ≤ x
      omega
    · refine hother _ (h.valid q hq).2 ?_
      have : Std.Symm fun b c : FreeList.Block => Disjoint (bytes HEADER b) (bytes HEADER c) :=
        ⟨fun _ _ hd => Disjoint.symm hd⟩
      exact h.tiling.live_disjoint.forall (List.mem_map_of_mem hr) (List.mem_map_of_mem hq)
        (Ne.symm heq)

/-! ## More fuel -/

section Fuel

variable {m : Mem} {bp p q fuel fuel' : ℕ}

theorem freeLoop_mono (h : freeLoop m bp fuel p = some q) (hle : fuel ≤ fuel') :
    freeLoop m bp fuel' p = some q := by
  induction fuel generalizing fuel' p with
  | zero => exact absurd h (by simp [freeLoop])
  | succ fuel ih =>
    obtain ⟨k, rfl⟩ : ∃ k, fuel' = k + 1 := ⟨fuel' - 1, by omega⟩
    rw [freeLoop] at h ⊢
    split_ifs at h ⊢ with h₁ h₂
    · exact h
    · exact h
    · exact ih h (by omega)

theorem free_mono {freep ap : ℕ} {r : Mem × ℕ} (h : free fuel m freep ap = some r)
    (hle : fuel ≤ fuel') : free fuel' m freep ap = some r := by
  obtain ⟨p, hp, hr⟩ := Option.bind_eq_some_iff.1 h
  exact Option.bind_eq_some_iff.2 ⟨p, freeLoop_mono hp hle, hr⟩

variable {σ : Type} (sbrk : ℤ → σ → Option ℕ × σ) {nunits : ℕ}

theorem morecore_mono {a : Allocator σ} {r : ℕ × Allocator σ}
    (h : morecore sbrk fuel a nunits = some r) (hle : fuel ≤ fuel') :
    morecore sbrk fuel' a nunits = some r := by
  unfold morecore at h ⊢
  dsimp only at h ⊢
  split at h
  · exact h
  · obtain ⟨x, hx, hr⟩ := Option.bind_eq_some_iff.1 h
    exact Option.bind_eq_some_iff.2 ⟨x, free_mono hx hle, hr⟩

theorem mallocLoop_mono {a : Allocator σ} {prevp : ℕ} {r : ℕ × Allocator σ}
    (h : mallocLoop sbrk nunits fuel a prevp p = some r) (hle : fuel ≤ fuel') :
    mallocLoop sbrk nunits fuel' a prevp p = some r := by
  induction fuel generalizing fuel' a prevp p with
  | zero => exact absurd h (by simp [mallocLoop])
  | succ fuel ih =>
    obtain ⟨k, rfl⟩ : ∃ k, fuel' = k + 1 := ⟨fuel' - 1, by omega⟩
    rw [mallocLoop] at h ⊢
    split_ifs at h ⊢ with h₁ h₂
    · exact h
    · obtain ⟨x, hx, hr⟩ := Option.bind_eq_some_iff.1 h
      refine Option.bind_eq_some_iff.2 ⟨x, morecore_mono sbrk hx (by omega), ?_⟩
      dsimp only at hr ⊢
      split_ifs at hr ⊢
      · exact hr
      · exact ih hr (by omega)
    · exact ih h (by omega)

theorem step_mono (h : step base s (fuel, e) = some t) (hle : fuel ≤ fuel') :
    step base s (fuel', e) = some t := by
  cases e with
  | malloc nbytes answer =>
    obtain ⟨x, hx, ht⟩ := Option.bind_eq_some_iff.1 h
    exact Option.bind_eq_some_iff.2 ⟨x, mallocLoop_mono _ hx hle, ht⟩
  | free ap =>
    obtain ⟨x, hx, ht⟩ := Option.bind_eq_some_iff.1 h
    exact Option.bind_eq_some_iff.2 ⟨x, free_mono hx hle, ht⟩
  | write x v => exact h

end Fuel

/-! ## Runs -/

/-- With enough fuel a legal event returns, and leaves a heap with its invariant. -/
theorem HeapOk.step (hbase : 0 < base) (hlt : base < 2 ^ 64) (h : HeapOk base s)
    (hlegal : Legal base LIMIT s e) :
    ∃ n, ∀ fuel ≥ n, ∃ t, Heap.step base s (fuel, e) = some t ∧ HeapOk base t := by
  cases e with
  | malloc nbytes answer =>
    rcases h with ⟨hfreep, hproc, hlive⟩ | ⟨L, h⟩
    · -- the first request
      have hinit : HeapInv base (initBase base s.heap).mem (initBase base s.heap).freep s.live
          (cover 1 (initBase base s.heap).proc) [] := by
        change HeapInv base _ _ s.live (cover 1 s.heap.proc) []
        rw [hlive, hproc, cover_nil]
        exact HeapInv.initBase hbase hlt s.heap
      refine ⟨4, fun fuel hfuel => ?_⟩
      obtain ⟨p, a', hloop, L', hinv⟩ := malloc_of_inv hinit hlegal hfuel
      refine ⟨_, Option.bind_eq_some_iff.2 ⟨(p, a'), ?_, rfl⟩, Or.inr ⟨L', hinv⟩⟩
      unfold malloc
      rw [if_pos hfreep]
      exact hloop
    · refine ⟨2 * L.length + 4, fun fuel hfuel => ?_⟩
      have hne : s.heap.freep ≠ 0 := by
        obtain ⟨f, hf, hfreep⟩ := h.ring.freep_mem
        have := h.ring.base_le hf
        omega
      obtain ⟨p, a', hloop, L', hinv⟩ := malloc_of_inv h hlegal hfuel
      refine ⟨_, Option.bind_eq_some_iff.2 ⟨(p, a'), ?_, rfl⟩, Or.inr ⟨L', hinv⟩⟩
      unfold malloc
      rw [if_neg hne]
      exact hloop
  | free ap =>
    obtain ⟨r, hr, rfl⟩ := hlegal
    rcases h with ⟨-, -, hlive⟩ | ⟨L, h⟩
    · rw [hlive] at hr
      exact absurd hr List.not_mem_nil
    · refine ⟨L.length + 1, fun fuel hfuel => ?_⟩
      obtain ⟨q, X, Y, -, hq, hXY, herase⟩ :=
        List.exists_of_eraseP (p := fun q : Request => decide (q.1 = r.1)) hr (decide_eq_true rfl)
      have hqr : q.1 = r.1 := of_decide_eq_true hq
      rw [hXY] at h
      obtain ⟨m', freep', L', hfree, hinv⟩ := h.free hfuel
      rw [hqr] at hfree
      refine ⟨_, Option.bind_eq_some_iff.2 ⟨_, hfree, rfl⟩, Or.inr ⟨L', ?_⟩⟩
      dsimp only
      rw [herase]
      exact hinv
  | write x v =>
    refine ⟨0, fun fuel _ => ⟨_, rfl, ?_⟩⟩
    rcases h with ⟨-, -, hlive⟩ | ⟨L, h⟩
    · obtain ⟨r, hr, -⟩ := hlegal
      rw [hlive] at hr
      exact absurd hr List.not_mem_nil
    · exact Or.inr ⟨L, h.write v hlegal⟩

/-- In a run whose heap ends below the limit the heap keeps its invariant, and every call returns. -/
theorem heap_invariant (hbase : 0 < base) (hlt : base < 2 ^ 64) {m : Mem} {es : List (ℕ × Event)}
    (hok : Runs.StepsOk (step base) (fun s e => Legal base LIMIT s e.2) (initial m) es)
    (hrun : Runs.run (step base) (initial m) es = some s) :
    HeapOk base s ∧ ∀ e, Legal base LIMIT s e →
      ∃ n, ∀ fuel ≥ n, ∃ t, step base s (fuel, e) = some t := by
  have hinv : HeapOk base s := by
    refine Runs.run_invariant (fun s e t hs hlegal hstep => ?_) (Or.inl ⟨rfl, rfl, rfl⟩) hok hrun
    -- the result does not depend on the fuel that was enough
    obtain ⟨n, hn⟩ := hs.step hbase hlt hlegal
    obtain ⟨u, hu, huok⟩ := hn (max n e.1) (le_max_left _ _)
    have hsame := (step_mono hstep (le_max_right n e.1)).symm.trans hu
    exact Option.some.inj hsame ▸ huok
  refine ⟨hinv, fun e he => ?_⟩
  obtain ⟨n, hn⟩ := hinv.step hbase hlt he
  refine ⟨n, fun fuel hfuel => ?_⟩
  obtain ⟨t, ht, -⟩ := hn fuel hfuel
  exact ⟨t, ht⟩

/-- A block is requested, written and freed. -/
theorem heap_invariant_oneBlock :
    ∃ s, Runs.run (step 16) (initial fun _ => 0)
        [(10, .malloc 5 (some 64)), (10, .write 65584 1), (10, .free 65584)] = some s ∧
      HeapOk 16 s := by
  obtain ⟨s, hs⟩ := Option.isSome_iff_exists.1
    (show (Runs.run (step 16) (initial fun _ => 0)
      [(10, .malloc 5 (some 64)), (10, .write 65584 1), (10, .free 65584)]).isSome = true by
        decide +kernel)
  exact ⟨s, hs, (heap_invariant (by decide) (by decide) (by decide +kernel) hs).1⟩

/-! ## Memory that is lost -/

/-- The regions of the largest requests that are allowed, one above the other. -/
def bigRegion (i : ℕ) : ℕ := 64 + i * (HEADER * (2 ^ 27 - 1))

/-- Thirty-three of them are requested and then freed. -/
def bigRun : List (ℕ × Event) :=
  (List.range 33).map (fun i => (40, .malloc (HEADER * (2 ^ 27 - 2)) (some (bigRegion i)))) ++
    (List.range 33).map fun i => (40, .free (bigRegion i + HEADER))

/-- Without the limit, thirty-three requests of 2^27 - 1 units lose memory when they are freed: the
free list is then a block of 2^27 - 33 units, and nothing else is live or free. -/
theorem heap_loses_memory :
    Runs.StepsOk (step 16) (fun s e => Legal 16 (2 ^ 64) s e.2) (initial fun _ => 0) bigRun ∧
      ∃ s, Runs.run (step 16) (initial fun _ => 0) bigRun = some s ∧ s.live = [] ∧
        Linked s.heap.mem 16 [(16, 0), (64, 2 ^ 27 - 33)] ∧
        ¬ cover 1 s.heap.proc ⊆ cover HEADER [(16, 0), (64, 2 ^ 27 - 33)] := by
  refine ⟨by decide +kernel, ?_⟩
  have heval : (Runs.run (step 16) (initial fun _ => 0) bigRun).map (fun s =>
      (s.live, size s.heap.mem 16, ptr s.heap.mem 16, size s.heap.mem 64, ptr s.heap.mem 64,
        decide ((bigRegion 32, HEADER * (2 ^ 27 - 1)) ∈ s.heap.proc))) =
      some ([], 0, 64, 2 ^ 27 - 33, 16, true) := by
    decide +kernel
  obtain ⟨s, hrun, hs⟩ := Option.map_eq_some_iff.1 heval
  simp only [Prod.mk.injEq] at hs
  obtain ⟨hlive, hbase, hnext, hsize, hptr, hregion⟩ := hs
  refine ⟨s, hrun, hlive, ⟨hbase, hnext, hsize, hptr, trivial⟩, fun hsub => ?_⟩
  -- the first byte of the last region is in no free block
  obtain ⟨b, hb, hmem⟩ := hsub ⟨_, of_decide_eq_true hregion, le_rfl,
    show bigRegion 32 < bigRegion 32 + 1 * (HEADER * (2 ^ 27 - 1)) by decide⟩
  rcases List.mem_cons.1 hb with rfl | hb
  · exact absurd hmem.2 (by decide)
  · rw [List.mem_singleton.1 hb] at hmem
    exact absurd hmem.2 (by decide)

end Xv6.Heap
