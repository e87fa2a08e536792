import Xv6.Lib.Runs

/-!
# The physical page allocator

`kernel/kalloc.c`: free pages are linked through their first word (`struct run`), from
`kmem.freelist`.  `kalloc` and `countpages` hold `kmem.lock`; `kfree` does not, so its read of the
list head into `r->next` and its later store to `kmem.freelist` are two steps, between which other
CPUs may act.  Memory is sequentially consistent.  A page is named by its physical address, and the
address `0` is the null pointer.
-/

namespace Xv6.Kalloc

def PGSIZE : ℕ := 4096

def KERNBASE : ℕ := 0x80000000

def PHYSTOP : ℕ := KERNBASE + 128 * 1024 * 1024

/-- `PGROUNDUP` on addresses that do not wrap. -/
def pgRoundUp (a : ℕ) : ℕ := (a + PGSIZE - 1) / PGSIZE * PGSIZE

/-- The symbol `end` of the linker script: the first address after the kernel. -/
structure Layout where
  kernelEnd : ℕ
  base_le : KERNBASE ≤ kernelEnd
  le_stop : kernelEnd ≤ PHYSTOP

variable (L : Layout)

/-- The first page `freerange` frees. -/
def Layout.firstPage : ℕ := pgRoundUp L.kernelEnd

/-- The number of passes of the loop of `freerange`. -/
def Layout.total : ℕ := (PHYSTOP - L.firstPage) / PGSIZE

/-- The pages of `[PGROUNDUP(end), PHYSTOP)`. -/
def Layout.pages : List ℕ := (List.range L.total).map fun i => L.firstPage + PGSIZE * i

/-- The allocator and its users: `next p` is the first word of page `p`, `held` are the pages
returned by `kalloc` and not yet passed to `kfree`, and `freeing c` is the page that CPU `c` has
linked to the list (`r->next = kmem.freelist`) but not yet published (`kmem.freelist = r`). -/
structure State where
  freelist : ℕ
  next : ℕ → ℕ
  held : List ℕ
  freeing : ℕ → Option ℕ
  panicked : Bool

/-- The check at the start of `kfree`. -/
def kfreePanics (pa : ℕ) : Bool := pa % PGSIZE != 0 || pa < L.kernelEnd || pa ≥ PHYSTOP

/-- The critical section of `kalloc`; the result is `0` when the list is empty. -/
def kalloc (s : State) : State × ℕ :=
  let r := s.freelist
  if r = 0 then (s, 0) else ({ s with freelist := s.next r, held := r :: s.held }, r)

/-- `kfree` up to and including `r->next = kmem.freelist`. -/
def kfreeRead (c pa : ℕ) (s : State) : State :=
  if kfreePanics L pa then { s with panicked := true }
  else
    { s with
      next := Function.update s.next pa s.freelist
      held := s.held.erase pa
      freeing := Function.update s.freeing c (some pa) }

/-- `kmem.freelist = r`. -/
def kfreeWrite (c r : ℕ) (s : State) : State :=
  { s with freelist := r, freeing := Function.update s.freeing c none }

/-- The loop of `countpages`, with a bound on the number of passes. -/
def countLoop (next : ℕ → ℕ) : ℕ → ℕ → ℕ → Option ℕ
  | 0, _, _ => none
  | fuel + 1, r, count => if r = 0 then some count else countLoop next fuel (next r) (count + 1)

def countpages (fuel : ℕ) (s : State) : Option ℕ := countLoop s.next fuel s.freelist 0

/-! ## Boot -/

/-- A call of `kfree` that no other CPU interrupts. -/
def kfree (c pa : ℕ) (s : State) : State :=
  let s := kfreeRead L c pa s
  if s.panicked then s else kfreeWrite c pa s

/-- `kinit`: `freerange` frees all pages in increasing order on the boot CPU; `words` is what memory
holds at power-up. -/
def kinit (words : ℕ → ℕ) : State :=
  L.pages.foldl (fun s p => kfree L 0 p s) ⟨0, words, [], fun _ => none, false⟩

/-! ## Interleavings -/

inductive Event
  /-- CPU `c` runs the critical section of `kalloc`. -/
  | kalloc (c : ℕ)
  /-- CPU `c` calls `kfree` on page `pa`. -/
  | kfreeRead (c pa : ℕ)
  /-- CPU `c` completes its `kfree`. -/
  | kfreeWrite (c : ℕ)
  /-- A caller stores `v` into the first word of a page it holds; the `memset` of `kalloc` and that
  of `kfree` are such stores. -/
  | write (pa v : ℕ)

/-- One step.  A CPU makes one call at a time, only pages that are held are freed or written, and
nothing happens after a panic. -/
def step (s : State) (e : Event) : Option State :=
  if s.panicked then none
  else
    match e with
    | .kalloc c => if s.freeing c = none then some (kalloc s).1 else none
    | .kfreeRead c pa =>
      if s.freeing c = none ∧ pa ∈ s.held then some (kfreeRead L c pa s) else none
    | .kfreeWrite c => (s.freeing c).map fun r => kfreeWrite c r s
    | .write pa v => if pa ∈ s.held then some { s with next := Function.update s.next pa v } else none

/-- No call is in progress. -/
def Quiet (s : State) : Prop := ∀ c, s.freeing c = none

end Xv6.Kalloc
