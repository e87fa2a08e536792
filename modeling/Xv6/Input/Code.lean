import Xv6.Pipe.Code
import Xv6.Vm.UserCopy

/-!
# Readers of input queues

`piperead` of `kernel/pipe.c` and `consoleread` of `kernel/console.c` with the memory that they copy to.
While a reader sleeps the lock of the queue is free: `wakes` lists what the queue holds each time the
reader has taken the lock again, and the reader is killed when the list ends.  `taken` records the data
bytes by which the call has advanced the read index.
-/

namespace Xv6.Input

open Kernel Kalloc Vm

/-- A queue of type `Q`, memory, and the state of a reader. -/
structure State (Q : Type) where
  queue : Q
  phys : Phys
  wakes : List Q
  taken : List (BitVec 8)

abbrev I (Q : Type) := Code String (State Q)

variable {Q : Type}

def phys {α : Type} (c : K α) : I Q α := zoom State.phys (fun s t => { s with phys := t }) c

/-- The loop that waits for input: `false` if the process has been killed. -/
def awaitLoop (empty : Q → Bool) : List Q → Q → Option (Q × List Q)
  | [], q => if empty q then none else some (q, [])
  | q' :: wakes, q => if empty q then awaitLoop empty wakes q' else some (q, q' :: wakes)

def await (empty : Q → Bool) : I Q Bool := do
  let s ← get
  match awaitLoop empty s.wakes s.queue with
  | none => pure false
  | some (q, wakes) => do
    set { s with queue := q, wakes := wakes }
    pure true

/-! ## Pipes -/

open Pipe (Buffer)

/-- `pi->nread == pi->nwrite && pi->writeopen` -/
def pipeWaits (pi : Buffer) : Bool := pi.nread = pi.nwrite ∧ pi.writeopen

/-- The loop of `piperead`, from `i` on, for at most the given number of bytes. -/
def pipereadLoop (pagetable addr : ℕ) : ℕ → ℕ → I Buffer ℕ
  | 0, i => pure i
  | k + 1, i => do
    let s ← get
    if s.queue.nread = s.queue.nwrite then pure i
    else do
      let ch := s.queue.get.1
      set { s with queue := s.queue.get.2, taken := s.taken ++ [ch] }
      let res ← phys (copyout pagetable (wrap addr i) [ch])
      if res = -1 then pure i else pipereadLoop pagetable addr k (i + 1)

def piperead (pagetable addr : ℕ) (n : ℤ) : I Buffer ℤ := do
  if ← await pipeWaits then do
    let i ← pipereadLoop pagetable addr n.toNat 0
    pure (i : ℤ)
  else pure (-1)

/-! ## The console -/

def INPUT_BUF_SIZE : ℕ := 128

/-- `cons` without its lock. -/
structure Cons where
  buf : ℕ → BitVec 8
  r : BitVec 32
  w : BitVec 32
  e : BitVec 32

/-- `C('D')` -/
def ctrlD : BitVec 8 := 4

def newline : BitVec 8 := 10

def Cons.front (c : Cons) : BitVec 8 := c.buf (c.r.toNat % INPUT_BUF_SIZE)

/-- `cons.r == cons.w` -/
def consWaits (c : Cons) : Bool := c.r = c.w

/-- The loop of `consoleread`, with `n` bytes left of `target`. -/
def consolereadLoop (pagetable target : ℕ) : ℕ → ℕ → I Cons ℤ
  | 0, _ => pure target
  | n + 1, dst => do
    if ← await consWaits then do
      let s ← get
      let c := s.queue.front
      set { s with queue := { s.queue with r := s.queue.r + 1 } }
      if c = ctrlD then
        if n + 1 < target then do
          modify fun s => { s with queue := { s.queue with r := s.queue.r - 1 } }
          pure ((target : ℤ) - (n + 1))
        else pure ((target : ℤ) - (n + 1))
      else do
        modify fun s => { s with taken := s.taken ++ [c] }
        let res ← phys (copyout pagetable dst [c])
        if res = -1 then pure ((target : ℤ) - (n + 1))
        else if c = newline then pure ((target : ℤ) - n)
        else consolereadLoop pagetable target n (wrap dst 1)
    else pure (-1)

/-- `consoleread` to a user address.  A negative `n` is a `target` that `target - n` takes back to `0`. -/
def consoleread (pagetable dst : ℕ) (n : ℤ) : I Cons ℤ := consolereadLoop pagetable n.toNat n.toNat dst

end Xv6.Input
