import Xv6.Lib.Memory
import Xv6.Lib.Kernel
import Xv6.Kalloc.Code

/-!
# Physical memory and user page tables

`kernel/vm.c` and the allocator of `kernel/kalloc.c` over byte-addressed physical memory: free pages
are linked through their first word, and a page table is a tree of pages of 512 words.  Each call of
`kalloc` and `kfree` is atomic.  A function returns, or panics with its message; the null pointer is
the address `0`.
-/

namespace Xv6.Vm

open Memory Kernel Kalloc

/-! ## Addresses and page-table entries -/

def MAXVA : ℕ := 2 ^ (9 + 9 + 9 + 12 - 1)

def TRAMPOLINE : ℕ := MAXVA - PGSIZE

def TRAPFRAME : ℕ := TRAMPOLINE - PGSIZE

def PTE_V : ℕ := 1
def PTE_R : ℕ := 2
def PTE_W : ℕ := 4
def PTE_X : ℕ := 8
def PTE_U : ℕ := 16

def pa2pte (pa : ℕ) : ℕ := (pa >>> 12) <<< 10

def pte2pa (pte : ℕ) : ℕ := (pte >>> 10) <<< 12

def pteFlags (pte : ℕ) : ℕ := pte &&& 0x3FF

/-- The index of a virtual address into the table of a level. -/
def px (level va : ℕ) : ℕ := (va >>> (12 + 9 * level)) &&& 0x1FF

/-- `PGROUNDUP` on 64-bit numbers. -/
def pgroundup (sz : ℕ) : ℕ := (sz + PGSIZE - 1) % 2 ^ 64 / PGSIZE * PGSIZE

def pgrounddown (a : ℕ) : ℕ := a / PGSIZE * PGSIZE

/-! ## Physical memory -/

/-- Memory and `kmem.freelist`.  No code reads `refreed`: it records whether `kfree` was ever given
a page of the free list. -/
structure Phys where
  mem : Mem
  freelist : ℕ
  refreed : Bool

abbrev K := Code String Phys

/-- The field `next` of the `struct run` in a free page. -/
def next (m : Mem) (r : ℕ) : ℕ := load 8 m r

/-- The pages that `next` reaches from `r`, at most `fuel` of them. -/
def nodes (m : Mem) : ℕ → ℕ → List ℕ
  | 0, _ => []
  | fuel + 1, r => if r = 0 then [] else r :: nodes m fuel (next m r)

def kalloc : K ℕ := do
  let s ← get
  let r := s.freelist
  if r = 0 then pure 0
  else do
    set { s with freelist := next s.mem r, mem := fill s.mem r PGSIZE 5 }
    pure r

variable (L : Layout)

def kfree (pa : ℕ) : K Unit :=
  if kfreePanics L pa then throw "kfree"
  else modify fun s =>
    { mem := store 8 (fill s.mem pa PGSIZE 1) pa s.freelist
      freelist := pa
      refreed := s.refreed || (nodes s.mem (L.total + 1) s.freelist).contains pa }

/-- A loop of `kfree` calls, as in `freerange`. -/
def freeAll : List ℕ → K Unit
  | [] => pure ()
  | p :: ps => do
    kfree L p
    freeAll ps

def countpages (fuel : ℕ) (s : Phys) : Option ℕ := countLoop (next s.mem) fuel s.freelist 0

def memset (pa : ℕ) (c : BitVec 8) : K Unit :=
  modify fun s => { s with mem := fill s.mem pa PGSIZE c }

def setWord (a v : ℕ) : K Unit := modify fun s => { s with mem := store 8 s.mem a v }

def getWord (a : ℕ) : K ℕ := do
  let s ← get
  pure (load 8 s.mem a)

/-! ## Page tables -/

/-- One pass of the loop of `walk`: the table of the next level, `none` when `walk` returns 0. -/
def walkLevel (pagetable va level : ℕ) (alloc : Bool) : K (Option ℕ) := do
  let pte ← getWord (pagetable + 8 * px level va)
  if pte &&& PTE_V ≠ 0 then pure (some (pte2pa pte))
  else if !alloc then pure none
  else do
    let pg ← kalloc
    if pg = 0 then pure none
    else do
      memset pg 0
      setWord (pagetable + 8 * px level va) (pa2pte pg ||| PTE_V)
      pure (some pg)

def walk (pagetable va : ℕ) (alloc : Bool) : K ℕ :=
  if va ≥ MAXVA then throw "walk"
  else do
    match ← walkLevel pagetable va 2 alloc with
    | none => pure 0
    | some mid =>
      match ← walkLevel mid va 1 alloc with
      | none => pure 0
      | some low => pure (low + 8 * px 0 va)

def walkaddr (pagetable va : ℕ) : K ℕ :=
  if va ≥ MAXVA then pure 0
  else do
    let pte ← walk pagetable va false
    if pte = 0 then pure 0
    else do
      let w ← getWord pte
      if w &&& PTE_V = 0 then pure 0
      else if w &&& PTE_U = 0 then pure 0
      else pure (pte2pa w)

/-- The loop of `mappages`, for the remaining number of pages. -/
def mapLoop (pagetable perm : ℕ) : ℕ → ℕ → ℕ → K ℤ
  | 0, _, _ => pure 0
  | n + 1, a, pa => do
    let pte ← walk pagetable a true
    if pte = 0 then pure (-1)
    else do
      let w ← getWord pte
      if w &&& PTE_V ≠ 0 then throw "mappages: remap"
      else do
        setWord pte (pa2pte pa ||| perm ||| PTE_V)
        mapLoop pagetable perm n (a + PGSIZE) (pa + PGSIZE)

def mappages (pagetable va size pa perm : ℕ) : K ℤ :=
  if va % PGSIZE ≠ 0 then throw "mappages: va not aligned"
  else if size % PGSIZE ≠ 0 then throw "mappages: size not aligned"
  else if size = 0 then throw "mappages: size"
  else mapLoop pagetable perm (size / PGSIZE) va pa

/-- The loop of `uvmunmap`, for the remaining number of pages. -/
def unmapLoop (pagetable : ℕ) (doFree : Bool) : ℕ → ℕ → K Unit
  | 0, _ => pure ()
  | n + 1, a => do
    let pte ← walk pagetable a false
    if pte = 0 then throw "uvmunmap: walk"
    else do
      let w ← getWord pte
      if w &&& PTE_V = 0 then throw "uvmunmap: not mapped"
      else if pteFlags w = PTE_V then throw "uvmunmap: not a leaf"
      else do
        if doFree then kfree L (pte2pa w) else pure ()
        setWord pte 0
        unmapLoop pagetable doFree n (a + PGSIZE)

def uvmunmap (pagetable va npages : ℕ) (doFree : Bool) : K Unit :=
  if va % PGSIZE ≠ 0 then throw "uvmunmap: not aligned"
  else unmapLoop L pagetable doFree npages va

def uvmcreate : K ℕ := do
  let pagetable ← kalloc
  if pagetable = 0 then pure 0
  else do
    memset pagetable 0
    pure pagetable

/-- `uvmfirst` does not look at what `kalloc` and `mappages` return; the result here says whether both
had memory. -/
def uvmfirst (pagetable : ℕ) (src : List (BitVec 8)) : K Bool :=
  if src.length ≥ PGSIZE then throw "uvmfirst: more than a page"
  else do
    let mem ← kalloc
    memset mem 0
    let r ← mappages pagetable 0 PGSIZE mem (PTE_W ||| PTE_R ||| PTE_X ||| PTE_U)
    modify fun s => { s with mem := write s.mem mem src }
    pure (mem ≠ 0 ∧ r = 0)

def uvmdealloc (pagetable oldsz newsz : ℕ) : K ℕ :=
  if newsz ≥ oldsz then pure oldsz
  else if pgroundup newsz < pgroundup oldsz then do
    uvmunmap L pagetable (pgroundup newsz) ((pgroundup oldsz - pgroundup newsz) / PGSIZE) true
    pure newsz
  else pure newsz

/-- The loop of `uvmalloc`, for the remaining number of pages. -/
def allocLoop (pagetable oldsz newsz xperm : ℕ) : ℕ → ℕ → K ℕ
  | 0, _ => pure newsz
  | n + 1, a => do
    let mem ← kalloc
    if mem = 0 then do
      let _ ← uvmdealloc L pagetable a oldsz
      pure 0
    else do
      memset mem 0
      let r ← mappages pagetable a PGSIZE mem (PTE_R ||| PTE_U ||| xperm)
      if r ≠ 0 then do
        kfree L mem
        let _ ← uvmdealloc L pagetable a oldsz
        pure 0
      else allocLoop pagetable oldsz newsz xperm n (a + PGSIZE)

def uvmalloc (pagetable oldsz newsz xperm : ℕ) : K ℕ :=
  if newsz < oldsz then pure oldsz
  else
    let oldsz := pgroundup oldsz
    allocLoop L pagetable oldsz newsz xperm ((newsz - oldsz + (PGSIZE - 1)) / PGSIZE) oldsz

/-- The loop of `freewalk` over the entries; `free` is the recursive call. -/
def freeEntries (free : ℕ → K Unit) (pagetable : ℕ) : List ℕ → K Unit
  | [] => pure ()
  | i :: is => do
    let pte ← getWord (pagetable + 8 * i)
    if pte &&& PTE_V ≠ 0 ∧ pte &&& (PTE_R ||| PTE_W ||| PTE_X) = 0 then do
      free (pte2pa pte)
      setWord (pagetable + 8 * i) 0
      freeEntries free pagetable is
    else if pte &&& PTE_V ≠ 0 then throw "freewalk: leaf"
    else freeEntries free pagetable is

/-- `freewalk`, with a bound on the depth of its recursion. -/
def freewalk : ℕ → ℕ → K Unit
  | 0, _ => throw "freewalk: depth"
  | depth + 1, pagetable => do
    freeEntries (freewalk depth) pagetable (List.range 512)
    kfree L pagetable

def uvmfree (pagetable sz : ℕ) : K Unit := do
  if sz > 0 then uvmunmap L pagetable 0 (pgroundup sz / PGSIZE) true else pure ()
  freewalk L 3 pagetable

/-- The loop of `uvmcopy`, for the remaining number of pages. -/
def copyLoop (old new : ℕ) : ℕ → ℕ → K ℤ
  | 0, _ => pure 0
  | n + 1, i => do
    let pte ← walk old i false
    if pte = 0 then throw "uvmcopy: pte should exist"
    else do
      let w ← getWord pte
      if w &&& PTE_V = 0 then throw "uvmcopy: page not present"
      else do
        let mem ← kalloc
        if mem = 0 then do
          uvmunmap L new 0 (i / PGSIZE) true
          pure (-1)
        else do
          modify fun s => { s with mem := copy s.mem mem (pte2pa w) PGSIZE }
          let r ← mappages new i PGSIZE mem (pteFlags w)
          if r ≠ 0 then do
            kfree L mem
            uvmunmap L new 0 (i / PGSIZE) true
            pure (-1)
          else copyLoop old new n (i + PGSIZE)

def uvmcopy (old new sz : ℕ) : K ℤ := copyLoop L old new ((sz + (PGSIZE - 1)) / PGSIZE) 0

def uvmclear (pagetable va : ℕ) : K Unit := do
  let pte ← walk pagetable va false
  if pte = 0 then throw "uvmclear"
  else do
    let w ← getWord pte
    setWord pte (w &&& (2 ^ 64 - 1 - PTE_U))

/-- The loop of `copyout`; every pass copies at least one byte, so `src.length` bounds them. -/
def copyoutLoop (pagetable : ℕ) : ℕ → ℕ → List (BitVec 8) → K ℤ
  | 0, _, _ => pure 0
  | fuel + 1, dstva, src =>
    if src = [] then pure 0
    else
      let va0 := pgrounddown dstva
      if va0 ≥ MAXVA then pure (-1)
      else do
        let pte ← walk pagetable va0 false
        let w ← getWord pte
        if pte = 0 ∨ w &&& PTE_V = 0 ∨ w &&& PTE_U = 0 ∨ w &&& PTE_W = 0 then pure (-1)
        else do
          let n := min (PGSIZE - (dstva - va0)) src.length
          modify fun s => { s with mem := write s.mem (pte2pa w + (dstva - va0)) (src.take n) }
          copyoutLoop pagetable fuel (va0 + PGSIZE) (src.drop n)

def copyout (pagetable dstva : ℕ) (src : List (BitVec 8)) : K ℤ :=
  copyoutLoop pagetable src.length dstva src

/-- The loop of `copyin`; every pass copies at least one byte, so `len` bounds them.  `dst` has the bytes
that are in the destination so far. -/
def copyinLoop (pagetable : ℕ) : ℕ → ℕ → ℕ → List (BitVec 8) → K (ℤ × List (BitVec 8))
  | 0, _, _, dst => pure (0, dst)
  | fuel + 1, srcva, len, dst =>
    if len = 0 then pure (0, dst)
    else do
      let va0 := pgrounddown srcva
      let pa0 ← walkaddr pagetable va0
      if pa0 = 0 then pure (-1, dst)
      else do
        let s ← get
        let n := min (PGSIZE - (srcva - va0)) len
        copyinLoop pagetable fuel (va0 + PGSIZE) (len - n) (dst ++ read s.mem (pa0 + (srcva - va0)) n)

/-- `copyin`, with the bytes that it has written to the destination. -/
def copyin (pagetable srcva len : ℕ) : K (ℤ × List (BitVec 8)) := copyinLoop pagetable len srcva len []

/-- The inner loop of `copyinstr`: whether there was a null, what is left of `max`, and the bytes in the
destination. -/
def strLoop (m : Mem) : ℕ → ℕ → ℕ → List (BitVec 8) → Bool × ℕ × List (BitVec 8)
  | 0, _, max, dst => (false, max, dst)
  | n + 1, p, max, dst =>
    if m p = 0 then (true, max, dst ++ [0]) else strLoop m n (p + 1) (max - 1) (dst ++ [m p])

/-- The outer loop of `copyinstr`; every pass but the last copies at least one byte, so `max` bounds
them. -/
def copyinstrLoop (pagetable : ℕ) : ℕ → ℕ → ℕ → List (BitVec 8) → K (ℤ × List (BitVec 8))
  | 0, _, _, dst => pure (-1, dst)
  | fuel + 1, srcva, max, dst =>
    if max = 0 then pure (-1, dst)
    else do
      let va0 := pgrounddown srcva
      let pa0 ← walkaddr pagetable va0
      if pa0 = 0 then pure (-1, dst)
      else do
        let s ← get
        let n := min (PGSIZE - (srcva - va0)) max
        let (gotNull, max', dst') := strLoop s.mem n (pa0 + (srcva - va0)) max dst
        if gotNull then pure (0, dst') else copyinstrLoop pagetable fuel (va0 + PGSIZE) max' dst'

/-- `copyinstr`, with the bytes that it has written to the destination. -/
def copyinstr (pagetable srcva max : ℕ) : K (ℤ × List (BitVec 8)) := copyinstrLoop pagetable max srcva max []

end Xv6.Vm
