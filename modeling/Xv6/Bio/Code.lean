import Xv6.Param
import Xv6.Lib.Ring
import Xv6.Lib.Runs

/-!
# The buffer cache

`kernel/bio.c` as a state machine.  Its steps are the critical sections of `bcache.lock`, the
acquisition and the release of a buffer's sleep-lock, and what a process does with a buffer while it
holds that lock.  A call of `bread` is three steps (`bget`, `acquire`, `fill`), a call of `brelse` two
(`release`, `brelse`); the steps of different processes interleave freely.  A read or write of the
disk is one step.
-/

namespace Xv6.Bio

open Ring

/-- A pointer to a `struct buf`: the list head or a buffer. -/
abbrev Node := Option (Fin NBUF)

/-- `struct buf` without its list pointers. -/
structure Buf where
  valid : Bool
  dev : ℕ
  blockno : ℕ
  /-- The process that holds the sleep-lock. -/
  lock : Option ℕ
  refcnt : ℕ
  data : Block

/-- A call of `bread` by process `pid` that `bget` gave the buffer `buf`. -/
structure Call where
  pid : ℕ
  dev : ℕ
  blockno : ℕ
  buf : Fin NBUF
  deriving DecidableEq

/-- What the process of a call does with its buffer. -/
inductive Stage
  /-- In `acquiresleep` of `bget`. -/
  | waiting
  /-- `bget` has returned to `bread`. -/
  | locked
  /-- `bread` has returned. -/
  | ready
  /-- `brelse` has released the sleep-lock. -/
  | releasing
  deriving DecidableEq

structure State where
  buf : Fin NBUF → Buf
  links : Links Node
  disk : ℕ → ℕ → Block
  /-- The calls that have raised the count of their buffer and not yet lowered it. -/
  calls : List (Call × Stage)
  /-- The calls of `bpin` that no `bunpin` has undone. -/
  pins : Fin NBUF → ℕ
  panicked : Bool

/-! ## Initialisation -/

/-- The loop of `binit` over the buffers. -/
def linkAll (bs : List (Fin NBUF)) (k : Links Node) : Links Node :=
  bs.foldl (fun k i => insertFront k none (some i)) k

/-- `binit`, on the zeroed memory of `bcache`. -/
def binit (disk : ℕ → ℕ → Block) : State where
  buf _ := { valid := false, dev := 0, blockno := 0, lock := none, refcnt := 0,
             data := Vector.replicate BSIZE 0 }
  links := linkAll (List.finRange NBUF) ⟨fun _ => none, fun _ => none⟩
  disk := disk
  calls := []
  pins _ := 0
  panicked := false

/-! ## The operations -/

def State.setBuf (s : State) (i : Fin NBUF) (b : Buf) : State :=
  { s with buf := Function.update s.buf i b }

/-- `refcnt` is a `uint`. -/
def inc (n : ℕ) : ℕ := (n + 1) % 2 ^ 32

def dec (n : ℕ) : ℕ := (n + (2 ^ 32 - 1)) % 2 ^ 32

/-- A test on the buffer of a node, for the scans of the list. -/
def onBuf (p : Fin NBUF → Bool) : Node → Bool
  | some i => p i
  | none => false

/-- The first loop of `bget`. -/
def lookup (s : State) (dev blockno : ℕ) : Option (Fin NBUF) :=
  (scan s.links.next none
    (onBuf fun i => (s.buf i).dev == dev && (s.buf i).blockno == blockno)
    (NBUF + 1) (s.links.next none)).join

/-- The second loop of `bget`. -/
def unused (s : State) : Option (Fin NBUF) :=
  (scan s.links.prev none (onBuf fun i => (s.buf i).refcnt == 0)
    (NBUF + 1) (s.links.prev none)).join

/-- `bget` finds the block cached in buffer `i`. -/
def bgetHit (p dev blockno : ℕ) (i : Fin NBUF) (s : State) : State :=
  { s.setBuf i { s.buf i with refcnt := inc (s.buf i).refcnt } with
    calls := (⟨p, dev, blockno, i⟩, .waiting) :: s.calls }

/-- `bget` recycles buffer `i`. -/
def bgetRecycle (p dev blockno : ℕ) (i : Fin NBUF) (s : State) : State :=
  { s.setBuf i { s.buf i with dev := dev, blockno := blockno, valid := false, refcnt := 1 } with
    calls := (⟨p, dev, blockno, i⟩, .waiting) :: s.calls }

/-- The critical section of `bget`. -/
def bget (p dev blockno : ℕ) (s : State) : State :=
  match lookup s dev blockno with
  | some i => bgetHit p dev blockno i s
  | none =>
    match unused s with
    | some i => bgetRecycle p dev blockno i s
    | none => { s with panicked := true }

/-- The call goes on to the next stage. -/
def State.advance (s : State) (c : Call) (st st' : Stage) : State :=
  { s with calls := (c, st') :: s.calls.erase (c, st) }

/-- The end of `acquiresleep` in `bget`. -/
def acquiresleep (c : Call) (s : State) : State :=
  (s.setBuf c.buf { s.buf c.buf with lock := some c.pid }).advance c .waiting .locked

/-- `bread` after `bget`. -/
def breadFill (c : Call) (s : State) : State :=
  let b := s.buf c.buf
  (if b.valid then s
    else s.setBuf c.buf { b with data := s.disk b.dev b.blockno, valid := true }).advance
      c .locked .ready

def modify (c : Call) (v : Block) (s : State) : State :=
  s.setBuf c.buf { s.buf c.buf with data := v }

def holdingsleep (s : State) (c : Call) : Bool := (s.buf c.buf).lock == some c.pid

def bwrite (c : Call) (s : State) : State :=
  if holdingsleep s c then
    let b := s.buf c.buf
    { s with disk := Function.update s.disk b.dev (Function.update (s.disk b.dev) b.blockno b.data) }
  else { s with panicked := true }

/-- `brelse` up to `releasesleep`. -/
def releasesleep (c : Call) (s : State) : State :=
  if holdingsleep s c then
    (s.setBuf c.buf { s.buf c.buf with lock := none }).advance c .ready .releasing
  else { s with panicked := true }

/-- The critical section of `brelse`. -/
def brelse (c : Call) (s : State) : State :=
  let b := { s.buf c.buf with refcnt := dec (s.buf c.buf).refcnt }
  { s.setBuf c.buf b with
    calls := s.calls.erase (c, .releasing)
    links := if b.refcnt = 0 then insertFront (unlink s.links (some c.buf)) none (some c.buf)
      else s.links }

def bpin (i : Fin NBUF) (s : State) : State :=
  { s.setBuf i { s.buf i with refcnt := inc (s.buf i).refcnt } with
    pins := Function.update s.pins i (s.pins i + 1) }

def bunpin (i : Fin NBUF) (s : State) : State :=
  { s.setBuf i { s.buf i with refcnt := dec (s.buf i).refcnt } with
    pins := Function.update s.pins i (s.pins i - 1) }

/-! ## Steps -/

inductive Event
  | bget (p dev blockno : ℕ)
  | acquire (c : Call)
  | fill (c : Call)
  | modify (c : Call) (v : Block)
  | bwrite (c : Call)
  | bpin (c : Call)
  | bunpin (i : Fin NBUF)
  | release (c : Call)
  | brelse (c : Call)

/-- A buffer is used only between the return of `bread` and `brelse`, the devices are numbered from
one, and a `bunpin` undoes an earlier `bpin`. -/
def step (s : State) (e : Event) : Option State :=
  if s.panicked then none else
  match e with
  | .bget p dev blockno => if 1 ≤ dev then some (bget p dev blockno s) else none
  | .acquire c =>
    if (c, Stage.waiting) ∈ s.calls ∧ (s.buf c.buf).lock = none then some (acquiresleep c s) else none
  | .fill c => if (c, Stage.locked) ∈ s.calls then some (breadFill c s) else none
  | .modify c v => if (c, Stage.ready) ∈ s.calls then some (modify c v s) else none
  | .bwrite c => if (c, Stage.ready) ∈ s.calls then some (bwrite c s) else none
  | .bpin c => if (c, Stage.ready) ∈ s.calls then some (bpin c.buf s) else none
  | .bunpin i => if 0 < s.pins i then some (bunpin i s) else none
  | .release c => if (c, Stage.ready) ∈ s.calls then some (releasesleep c s) else none
  | .brelse c => if (c, Stage.releasing) ∈ s.calls then some (brelse c s) else none

end Xv6.Bio
