import Xv6.Heap.Run
import Xv6.Sys.Boot

/-!
# Large requests

`sbrk` takes an `int`.  `growSize` is the size of the process after a call, with `ok` for whether
the kernel found the pages (`growproc_size`).  A request of 2^27 units or more that no free block
can serve gives `sbrk` a number that is not its size; it may be negative, and then the process
loses memory.  Every other request is safe: `malloc_safe_iff`.
-/

namespace Xv6.Heap

open Memory FreeList Kernel

/-- The size of the process after `growproc(n)`, `none` if the call fails. -/
def growSize (ok : Bool) (n : ℤ) (sz : ℕ) : Option ℕ :=
  let newsz := ((sz + n) % 2 ^ 64).toNat
  if n > 0 then
    if newsz < sz then some sz else if ok then some newsz else none
  else if n < 0 then some (min sz newsz)
  else some sz

/-- A process, with the calls of `sbrk` it has made. -/
structure Proc where
  sz : ℕ
  calls : List ℤ

def sbrk (ok : Bool) (n : ℤ) (p : Proc) : Option ℕ × Proc :=
  match growSize ok n p.sz with
  | none => (none, { p with calls := n :: p.calls })
  | some sz => (some p.sz, { sz, calls := n :: p.calls })

/-! ## Safe requests -/

/-- A process of at most the size of the memory, whose heap is below its size; `calls` is empty
before the request. -/
structure Process (base : ℕ) (a : Allocator Proc) (live : List Request) (L : List FreeList.Block) : Prop where
  base_pos : 0 < base
  base_le : base + HEADER ≤ a.proc.sz
  sz_le : a.proc.sz ≤ Kalloc.PHYSTOP - Kalloc.KERNBASE
  calls : a.proc.calls = []
  heap : (a.freep = 0 ∧ live = [] ∧ L = []) ∨
    ∃ R, HeapInv base a.mem a.freep live R L ∧ ∀ x ∈ R, x < a.proc.sz

/-- The result `p` and the process after `malloc(nbytes)`: the header and the bytes are inside the
process, which has not become smaller and still has its live blocks, and the calls of `sbrk` asked
for the units that are needed. -/
structure Safe (nbytes : ℕ) (a : Allocator Proc) (live : List Request) (p : ℕ)
    (a' : Allocator Proc) : Prop where
  inside : p ≠ 0 → HEADER ≤ p ∧ p + nbytes ≤ a'.proc.sz
  sz_le : a.proc.sz ≤ a'.proc.sz
  live_le : ∀ r ∈ live, stop HEADER (block r) ≤ a'.proc.sz
  calls : ∀ n ∈ a'.proc.calls, 0 < n ∧ n = (HEADER * moreUnits (units nbytes) : ℕ)

variable {base nbytes fuel p sz : ℕ} {a a' : Allocator Proc} {live : List Request} {L : List FreeList.Block}
  {R : Set ℕ} {m : Mem} {freep : ℕ} {r : Request} {ok : Bool}

theorem HeapInv.stop_le (h : HeapInv base m freep live R L) (hR : ∀ x ∈ R, x < sz) (hr : r ∈ live) :
    stop HEADER (block r) ≤ sz := by
  have hv := (h.valid r hr).2
  have hpos : 0 < stop HEADER (block r) :=
    (Nat.lt_add_left _ (by decide)).trans_le hv.header_le_stop
  have hlast : stop HEADER (block r) - 1 ∈ R := by
    rw [← h.tiling.cover_eq]
    refine Or.inr ⟨block r, List.mem_map_of_mem hr, ?_, Nat.sub_lt hpos Nat.one_pos⟩
    have := hv.header_le_stop
    change (block r).1 + 16 ≤ stop HEADER (block r) at this
    omega
  have := hR _ hlast
  omega

theorem HeapInv.inside (h : HeapInv base m freep live R L) (hR : ∀ x ∈ R, x < sz) (hr : r ∈ live) :
    HEADER ≤ r.1 ∧ r.1 + r.2 ≤ sz := by
  obtain ⟨hle, -⟩ := h.valid r hr
  have hroom := h.room r hr
  have hstop := h.stop_le hR hr
  refine ⟨hle, ?_⟩
  change 16 ≤ r.1 at hle
  change 16 + r.2 ≤ 16 * (block r).2 at hroom
  change r.1 - 16 + 16 * (block r).2 ≤ sz at hstop
  omega

theorem moreUnits_lt {n : ℕ} (hn : n < 2 ^ 27) : moreUnits n < 2 ^ 27 := by
  unfold moreUnits
  split_ifs
  · decide
  · exact hn

theorem moreUnits_pos (n : ℕ) : 0 < moreUnits n := by
  unfold moreUnits
  split_ifs
  · decide
  · omega

/-- A request of fewer than 2^27 units makes the process larger by its size, or fails. -/
theorem growSize_request {n : ℕ} (hn : n < 2 ^ 27) (hsz : sz ≤ 2 ^ 27) :
    growSize ok (toInt (moreUnits n * HEADER)) sz =
      if ok then some (sz + HEADER * moreUnits n) else none := by
  have hpos := moreUnits_pos n
  have hlt := moreUnits_lt hn
  rw [toInt_request hn]
  change growSize ok (moreUnits n * 16 : ℕ) sz = if ok then some (sz + 16 * moreUnits n) else none
  have hnew : (((sz : ℤ) + (moreUnits n * 16 : ℕ)) % 2 ^ 64).toNat = sz + 16 * moreUnits n := by
    omega
  unfold growSize
  dsimp only
  rw [hnew, if_pos (by omega), if_neg (by omega)]

theorem mallocLoop_safe (h : HeapInv base a.mem a.freep live R L) (hR : ∀ x ∈ R, x < a.proc.sz)
    (hbase : base + HEADER ≤ a.proc.sz) (hsz : a.proc.sz ≤ 2 ^ 27) (hcalls : a.proc.calls = [])
    (hn : nbytes < 2 ^ 32) (hcond : units nbytes < 2 ^ 27 ∨ ∃ c ∈ L, units nbytes ≤ c.2)
    (hfuel : 2 * L.length + 4 ≤ fuel) :
    ∃ p a', mallocLoop (sbrk ok) (units nbytes) fuel a a.freep (ptr a.mem a.freep) = some (p, a') ∧
      Safe nbytes a live p a' := by
  have hunits : (∀ c ∈ L, c.2 < units nbytes) → units nbytes < 2 ^ 27 := by
    intro hsmall
    rcases hcond with hlt | ⟨c, hc, hle⟩
    · exact hlt
    · exact absurd hle (Nat.not_le.2 (hsmall c hc))
  -- a call of `sbrk` fails, or returns the old size of a process that has grown
  have hsbrk : (∀ c ∈ L, c.2 < units nbytes) →
      sbrk ok (toInt (moreUnits (units nbytes) * HEADER)) a.proc =
        if ok then (some a.proc.sz, ⟨a.proc.sz + HEADER * moreUnits (units nbytes),
          [((HEADER * moreUnits (units nbytes) : ℕ) : ℤ)]⟩)
        else (none, ⟨a.proc.sz, [((HEADER * moreUnits (units nbytes) : ℕ) : ℤ)]⟩) := by
    intro hsmall
    unfold sbrk
    rw [growSize_request (hunits hsmall) hsz, hcalls, toInt_request (hunits hsmall), Nat.mul_comm]
    cases ok
    · rfl
    · rfl
  have hpos : (0 : ℤ) < (HEADER * moreUnits (units nbytes) : ℕ) := by
    have := moreUnits_pos (units nbytes)
    change (0 : ℤ) < (16 * moreUnits (units nbytes) : ℕ)
    omega
  have hfresh : ∀ hp proc, (∀ c ∈ L, c.2 < units nbytes) →
      sbrk ok (toInt (moreUnits (units nbytes) * HEADER)) a.proc = (some hp, proc) →
      Valid base (hp, moreUnits (units nbytes)) ∧
        Disjoint (bytes HEADER (hp, moreUnits (units nbytes))) R := by
    intro hp proc hsmall hcall
    have hlt := moreUnits_lt (hunits hsmall)
    rw [hsbrk hsmall] at hcall
    split_ifs at hcall
    · obtain rfl : a.proc.sz = hp := Option.some.inj (congrArg Prod.fst hcall)
      refine ⟨⟨hbase, moreUnits_pos _, ?_⟩, Set.disjoint_left.2 fun x hx hxR => ?_⟩
      · change a.proc.sz + 16 * moreUnits (units nbytes) ≤ 2 ^ 36
        omega
      · exact absurd (hR x hxR) (Nat.not_lt.2 hx.1)
    · exact absurd (congrArg Prod.fst hcall) (Option.some_ne_none hp).symm
  obtain ⟨p, a', hloop, hout⟩ := h.mallocLoop (sbrk ok) hn hfresh hfuel
  refine ⟨p, a', hloop, ?_⟩
  cases hout with
  | served _ hne hproc hinv =>
    rw [← hproc] at hR
    refine ⟨fun _ => hinv.inside hR List.mem_cons_self, (congrArg Proc.sz hproc).ge, fun r hr => ?_,
      fun n hcall => ?_⟩
    · exact hinv.stop_le hR (List.mem_cons_of_mem _ hr)
    · rw [hproc, hcalls] at hcall
      exact absurd hcall List.not_mem_nil
  | @refused proc hsmall hcall =>
    rw [hsbrk hsmall] at hcall
    split_ifs at hcall
    · exact absurd (congrArg Prod.fst hcall) (Option.some_ne_none _)
    · obtain rfl := congrArg Prod.snd hcall
      refine ⟨fun hne => absurd rfl hne, le_rfl, fun r hr => h.stop_le hR hr, fun n hn => ?_⟩
      obtain rfl := List.mem_singleton.1 hn
      exact ⟨hpos, rfl⟩
  | @grown _ hp _ _ hsmall hcall hne hinv =>
    rw [hsbrk hsmall] at hcall
    split_ifs at hcall
    · obtain rfl : a.proc.sz = hp := Option.some.inj (congrArg Prod.fst hcall)
      have hproc := congrArg Prod.snd hcall
      dsimp only at hproc
      have hsz' : a'.proc.sz = a.proc.sz + HEADER * moreUnits (units nbytes) :=
        (congrArg Proc.sz hproc).symm
      have hR' : ∀ x ∈ bytes HEADER (a.proc.sz, moreUnits (units nbytes)) ∪ R,
          x < a'.proc.sz := by
        rintro x (hx | hx)
        · rw [hsz']
          exact hx.2
        · rw [hsz']
          exact (hR x hx).trans_le (Nat.le_add_right _ _)
      refine ⟨fun _ => hinv.inside hR' List.mem_cons_self, ?_, fun r hr => ?_, fun n hn => ?_⟩
      · rw [hsz']
        exact Nat.le_add_right _ _
      · exact hinv.stop_le hR' (List.mem_cons_of_mem _ hr)
      · rw [← hproc] at hn
        obtain rfl := List.mem_singleton.1 hn
        exact ⟨hpos, rfl⟩
    · exact absurd (congrArg Prod.fst hcall) (Option.some_ne_none _).symm

/-! ## Calls are not forgotten -/

theorem morecore_calls {nunits : ℕ} {r : ℕ × Allocator Proc}
    (h : morecore (sbrk ok) fuel a nunits = some r) :
    r.2.proc.calls = toInt (moreUnits nunits * HEADER) :: a.proc.calls := by
  unfold moreUnits
  unfold morecore at h
  dsimp only at h
  generalize toInt ((if nunits < 4096 then 4096 else nunits) * HEADER) = n at h ⊢
  have hcalls : (sbrk ok n a.proc).2.calls = n :: a.proc.calls := by
    unfold sbrk
    split
    · rfl
    · rfl
  split at h
  · next heq =>
    rw [← Option.some.inj h]
    rw [heq] at hcalls
    exact hcalls
  · next heq =>
    obtain ⟨x, -, hx⟩ := Option.bind_eq_some_iff.1 h
    rw [← Option.some.inj hx]
    rw [heq] at hcalls
    exact hcalls

theorem mallocLoop_calls {nunits prevp q : ℕ} {r : ℕ × Allocator Proc}
    (h : mallocLoop (sbrk ok) nunits fuel a prevp q = some r) {n : ℤ} (hn : n ∈ a.proc.calls) :
    n ∈ r.2.proc.calls := by
  induction fuel generalizing a prevp q with
  | zero => exact absurd h (by simp [mallocLoop])
  | succ fuel ih =>
    rw [mallocLoop] at h
    split_ifs at h
    · rw [← Option.some.inj h]
      unfold take
      split_ifs
      · exact hn
      · exact hn
    · obtain ⟨x, hx, hr⟩ := Option.bind_eq_some_iff.1 h
      have hmem : n ∈ x.2.proc.calls := by
        rw [morecore_calls hx]
        exact List.mem_cons_of_mem _ hn
      dsimp only at hr
      split_ifs at hr
      · rw [← Option.some.inj hr]
        exact hmem
      · exact ih hr hmem
    · exact ih h hn

/-- A request that no free block can serve calls `sbrk`. -/
theorem mallocLoop_call (h : HeapInv base a.mem a.freep live R L) (hn : nbytes < 2 ^ 32)
    (hsmall : ∀ c ∈ L, c.2 < units nbytes) {r : ℕ × Allocator Proc}
    (hloop : mallocLoop (sbrk ok) (units nbytes) fuel a a.freep (ptr a.mem a.freep) = some r) :
    toInt (moreUnits (units nbytes) * HEADER) ∈ r.2.proc.calls := by
  have hmono := mallocLoop_mono (sbrk ok) hloop (Nat.le_add_right fuel (1 + L.length))
  rw [← Nat.add_assoc, h.ring.mallocLoop_none (sbrk ok) (units_pos hn) hsmall fuel] at hmono
  obtain ⟨x, hx, hr⟩ := Option.bind_eq_some_iff.1 hmono
  have hmem : toInt (moreUnits (units nbytes) * HEADER) ∈ x.2.proc.calls := by
    rw [morecore_calls hx]
    exact List.mem_cons_self
  split_ifs at hr
  · rw [← Option.some.inj hr]
    exact hmem
  · exact mallocLoop_calls hr hmem

/-- A large request does not go through `int` unchanged. -/
theorem toInt_ne_of_le {n : ℕ} (hn : 2 ^ 27 ≤ n) : toInt (moreUnits n * HEADER) ≠ (HEADER * moreUnits n : ℕ) := by
  have hlt := BitVec.toInt_lt (x := BitVec.ofNat 32 (moreUnits n * HEADER))
  have hle := hn.trans (le_moreUnits n)
  unfold toInt
  change (BitVec.ofNat 32 (moreUnits n * HEADER)).toInt ≠ (16 * moreUnits n : ℕ)
  norm_num at hlt
  omega

/-! ## The condition -/

/-- `malloc` is safe for the requests of fewer than 2^27 units and for those that a free block can
serve, and for no others. -/
theorem malloc_safe_iff (h : Process base a live L) (hn : nbytes < 2 ^ 32) (ok : Bool) :
    (∃ n, ∀ fuel ≥ n, ∃ p a', malloc (sbrk ok) fuel base a nbytes = some (p, a') ∧
      Safe nbytes a live p a') ↔
      units nbytes < 2 ^ 27 ∨ ∃ c ∈ L, units nbytes ≤ c.2 := by
  have hsz : a.proc.sz ≤ 2 ^ 27 := h.sz_le
  have hbase := h.base_le
  change base + 16 ≤ a.proc.sz at hbase
  -- the heap after the test of `freep`
  obtain ⟨a₁, hproc, R, hinv, hR, hmalloc⟩ : ∃ a₁ : Allocator Proc, a₁.proc = a.proc ∧
      ∃ R, HeapInv base a₁.mem a₁.freep live R L ∧ (∀ x ∈ R, x < a.proc.sz) ∧
        ∀ fuel, malloc (sbrk ok) fuel base a nbytes =
          mallocLoop (sbrk ok) (units nbytes) fuel a₁ a₁.freep (ptr a₁.mem a₁.freep) := by
    rcases h.heap with ⟨hfreep, rfl, rfl⟩ | ⟨R, hinv, hR⟩
    · refine ⟨initBase base a, rfl, ∅, HeapInv.initBase h.base_pos (by omega) a,
        fun x hx => absurd hx (Set.notMem_empty x), fun fuel => ?_⟩
      unfold malloc
      rw [if_pos hfreep]
    · refine ⟨a, rfl, R, hinv, hR, fun fuel => ?_⟩
      have hne : a.freep ≠ 0 := by
        obtain ⟨f, hf, hfreep⟩ := hinv.ring.freep_mem
        have := hinv.ring.base_le hf
        have := h.base_pos
        omega
      unfold malloc
      rw [if_neg hne]
  rw [← hproc] at hR hsz
  have hcalls : a₁.proc.calls = [] := hproc ▸ h.calls
  constructor
  · rintro ⟨n, hall⟩
    by_contra hcond
    rw [not_or] at hcond
    have hsmall : ∀ c ∈ L, c.2 < units nbytes := fun c hc =>
      Nat.not_le.1 fun hle => hcond.2 ⟨c, hc, hle⟩
    obtain ⟨p, a', hrun, hsafe⟩ := hall n le_rfl
    rw [hmalloc] at hrun
    have hcall := hsafe.calls _ (mallocLoop_call hinv hn hsmall hrun)
    exact toInt_ne_of_le (Nat.not_lt.1 hcond.1) hcall.2
  · intro hcond
    refine ⟨2 * L.length + 4, fun fuel hfuel => ?_⟩
    obtain ⟨p, a', hloop, hsafe⟩ :=
      mallocLoop_safe hinv hR (hproc.symm ▸ h.base_le) hsz hcalls hn hcond hfuel
    refine ⟨p, a', (hmalloc fuel).trans hloop, hsafe.inside, hproc ▸ hsafe.sz_le, hsafe.live_le,
      hsafe.calls⟩

/-- The first request of a process, for a few bytes. -/
theorem malloc_safe_iff_first :
    (∃ n, ∀ fuel ≥ n, ∃ p a', malloc (sbrk true) fuel 0x1000
        { mem := fun _ => 0, freep := 0, proc := { sz := 0x5000, calls := [] } } 100 = some (p, a') ∧
      Safe 100 { mem := fun _ => 0, freep := 0, proc := { sz := 0x5000, calls := [] } } [] p a') ↔
      units 100 < 2 ^ 27 ∨ ∃ c ∈ ([] : List FreeList.Block), units 100 ≤ c.2 :=
  malloc_safe_iff ⟨by decide, by decide, by decide, rfl, Or.inl ⟨rfl, rfl, rfl⟩⟩ (by decide) true

/-- A request of 2^32 - 4112 bytes makes the process smaller by a page, and the pointer that it
returns is outside. -/
theorem malloc_shrinks_process :
    (malloc (sbrk true) 10 0x1000
        { mem := fun _ => 0, freep := 0, proc := { sz := 0x5000, calls := [] } }
        (2 ^ 32 - 4112)).map (fun r => (r.1, r.2.proc.sz, r.2.proc.calls)) =
      some (0x5010, 0x4000, [-4096]) := by
  decide +kernel

end Xv6.Heap
