import Xv6.Lib.Memory

/-!
# The user heap (`user/umalloc.c`)

A header is sixteen bytes: the pointer to the next free block and the size of its own block in
units of headers.  `base` is the address of the static header that the free list starts from, and
`freep` is null until the first request.  Addresses wrap at 2^64 and sizes at 2^32.  The loops take
fuel and give `none` when it runs out.  `sbrk` is a parameter: it gets the `int` that the call
passes and the state of the process, and `none` is its result -1.
-/

namespace Xv6.Heap

open Memory

/-- `sizeof(Header)`. -/
def HEADER : ℕ := 16

/-- `p->s.ptr`. -/
def ptr (m : Mem) (p : ℕ) : ℕ := load 8 m p

/-- `p->s.size`. -/
def size (m : Mem) (p : ℕ) : ℕ := load 4 m (p + 8)

def setPtr (m : Mem) (p v : ℕ) : Mem := store 8 m p v

def setSize (m : Mem) (p v : ℕ) : Mem := store 4 m (p + 8) v

/-- `p + n` for a pointer to headers. -/
def plus (p n : ℕ) : ℕ := (p + HEADER * n) % 2 ^ 64

/-- The conversion of a `size_t` to `int`. -/
def toInt (n : ℕ) : ℤ := (BitVec.ofNat 32 n).toInt

/-- The search of `free`: the node after which `bp` goes. -/
def freeLoop (m : Mem) (bp : ℕ) : ℕ → ℕ → Option ℕ
  | 0, _ => none
  | fuel + 1, p =>
    if p < bp ∧ bp < ptr m p then some p
    else if ptr m p ≤ p ∧ (p < bp ∨ bp < ptr m p) then some p
    else freeLoop m bp fuel (ptr m p)

/-- The first half of the insertion: `bp` gets its successor. -/
def joinNext (m : Mem) (p bp : ℕ) : Mem :=
  if plus bp (size m bp) = ptr m p then
    let m := setSize m bp (size m bp + size m (ptr m p))
    setPtr m bp (ptr m (ptr m p))
  else setPtr m bp (ptr m p)

/-- The second half: `p` gets `bp` as its successor. -/
def joinPrev (m : Mem) (p bp : ℕ) : Mem :=
  if plus p (size m p) = bp then
    let m := setSize m p (size m p + size m bp)
    setPtr m p (ptr m bp)
  else setPtr m p bp

/-- The memory and `freep` after `free(ap)`. -/
def free (fuel : ℕ) (m : Mem) (freep ap : ℕ) : Option (Mem × ℕ) := do
  let bp := (ap + 2 ^ 64 - HEADER) % 2 ^ 64
  let p ← freeLoop m bp fuel freep
  return (joinPrev (joinNext m p bp) p bp, p)

/-- The variables of the allocator and the state of the process that `sbrk` works on. -/
structure Allocator (σ : Type) where
  mem : Mem
  freep : ℕ
  proc : σ

variable {σ : Type} (sbrk : ℤ → σ → Option ℕ × σ)

/-- The result is `freep`, or null when there is no memory. -/
def morecore (fuel : ℕ) (h : Allocator σ) (nu : ℕ) : Option (ℕ × Allocator σ) := do
  let nu := if nu < 4096 then 4096 else nu
  match sbrk (toInt (nu * HEADER)) h.proc with
  | (none, proc) => return (0, { h with proc })
  | (some hp, proc) =>
    let (mem, freep) ← free fuel (setSize h.mem hp nu) h.freep (plus hp 1)
    return (freep, { mem, freep, proc })

/-- `nunits`: the header and the requested bytes, rounded up. -/
def units (nbytes : ℕ) : ℕ := ((nbytes + HEADER - 1) / HEADER + 1) % 2 ^ 32

/-- The block `p` of at least `nunits` units is taken, whole or at its upper end. -/
def take (h : Allocator σ) (nunits prevp p : ℕ) : ℕ × Allocator σ :=
  if size h.mem p = nunits then
    (plus p 1, { h with mem := setPtr h.mem prevp (ptr h.mem p), freep := prevp })
  else
    let m := setSize h.mem p (size h.mem p - nunits)
    let p := plus p (size m p)
    (plus p 1, { h with mem := setSize m p nunits, freep := prevp })

/-- The loop of `malloc`, entered with `p` the successor of `prevp`. -/
def mallocLoop (nunits : ℕ) : ℕ → Allocator σ → ℕ → ℕ → Option (ℕ × Allocator σ)
  | 0, _, _, _ => none
  | fuel + 1, h, prevp, p =>
    if nunits ≤ size h.mem p then some (take h nunits prevp p)
    else if p = h.freep then do
      let (p, h) ← morecore sbrk fuel h nunits
      if p = 0 then return (0, h) else mallocLoop nunits fuel h p (ptr h.mem p)
    else mallocLoop nunits fuel h p (ptr h.mem p)

/-- `base.s.ptr = freep = &base; base.s.size = 0`. -/
def initBase (base : ℕ) (h : Allocator σ) : Allocator σ :=
  { h with mem := setSize (setPtr h.mem base base) base 0, freep := base }

def malloc (fuel base : ℕ) (h : Allocator σ) (nbytes : ℕ) : Option (ℕ × Allocator σ) :=
  let h := if h.freep = 0 then initBase base h else h
  mallocLoop sbrk (units nbytes) fuel h h.freep (ptr h.mem h.freep)

end Xv6.Heap
