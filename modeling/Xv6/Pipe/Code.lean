import Xv6.Lib.Runs

/-!
# Pipes

`kernel/pipe.c` with `sleep`, `wakeup` and `kill` of `kernel/proc.c`, for one pipe and any number of
processes.  A process is at a point of the code between two lock operations; a step is one lock
operation with the code up to the next one, or less.  The scheduler is present where it holds the lock
of a process: after the process has gone to sleep, and when it starts to run again.  The memory of a
process does not change while it is in a call, so a call carries what `copyin` or `copyout` of each
byte does.
-/

namespace Xv6.Pipe

def PIPESIZE : ℕ := 512

/-- `struct pipe` without its lock. -/
structure Buffer where
  data : ℕ → BitVec 8
  nread : BitVec 32
  nwrite : BitVec 32
  readopen : Bool
  writeopen : Bool

/-- The channels `&pi->nread` and `&pi->nwrite`. -/
inductive Chan
  | nread
  | nwrite
  deriving DecidableEq

inductive ProcState
  | sleeping
  | runnable
  | running
  deriving DecidableEq

/-- The arguments of `pipewrite`, with the byte that `copyin` finds at `addr + i`. -/
structure Write where
  src : ℕ → Option (BitVec 8)
  n : ℤ

/-- The arguments of `piperead`, with whether `copyout` to `addr + i` succeeds. -/
structure Read where
  dst : ℕ → Bool
  n : ℤ

/-- Where `sleep` returns to: the loop of `pipewrite` or of `piperead`. -/
inductive Back
  | write (w : Write) (i : ℕ)
  | read (r : Read)

/-- What the caller of `wakeup` does next. -/
inductive Next
  /-- `sleep(&pi->nwrite, &pi->lock)` -/
  | sleep (w : Write) (i : ℕ)
  /-- `release(&pi->lock)` and return. -/
  | unlock (ret : ℤ)

/-- The point of the code that a process has reached.  No code reads `fresh`: it says that
`pipewrite` has stored bytes since it took the lock or called `wakeup(&pi->nread)`. -/
inductive Pc
  | idle
  | writeLock (w : Write)
  | writeLoop (w : Write) (i : ℕ) (fresh : Bool)
  /-- In `killed`, which holds the lock of the process and has read its flag. -/
  | writeKilled (w : Write) (i : ℕ) (fresh killed : Bool)
  | readLock (r : Read)
  | readLoop (r : Read)
  | readKilled (r : Read) (killed : Bool)
  | readCopy (r : Read) (i : ℕ)
  | closeLock (writable : Bool)
  | unlock (ret : ℤ)
  /-- `wakeup` before it takes the lock of process `j`, and with it. -/
  | wakeup (chan : Chan) (j : ℕ) (next : Next)
  | wakeupUnlock (chan : Chan) (j : ℕ) (next : Next)
  | sleepLock (chan : Chan) (back : Back)
  | sleepSched (chan : Chan) (back : Back)
  /-- In `sleep` after `sched` has returned. -/
  | sleepWake (back : Back)
  | sleepRelock (back : Back)
  /-- `kill` at the process with the given id, before it takes its lock, and with it. -/
  | kill (target : ℕ)
  | killUnlock (target : ℕ)

/-- Who holds the lock of a process. -/
inductive Holder
  | proc (i : ℕ)
  | sched
  deriving DecidableEq

/-- A process.  `sent` records the bytes that its current call of `pipewrite` has stored. -/
structure Proc where
  state : ProcState
  chan : Option Chan
  killed : Bool
  lock : Option Holder
  pc : Pc
  sent : List (BitVec 8)

/-- A pipe, the holder of its lock, and the processes.  `stored` and `taken` record all bytes put into
`data` and taken out of it. -/
structure Machine where
  pipe : Buffer
  lock : Option ℕ
  proc : ℕ → Proc
  stored : List (BitVec 8)
  taken : List (BitVec 8)

/-- A pipe as `pipealloc` makes it, before any call. -/
def Machine.Initial (s : Machine) : Prop :=
  s.pipe.nread = 0 ∧ s.pipe.nwrite = 0 ∧ s.pipe.readopen = true ∧ s.pipe.writeopen = true ∧
    s.lock = none ∧ s.stored = [] ∧ s.taken = [] ∧
    ∀ i, s.proc i = ⟨.running, none, false, none, .idle, []⟩

namespace Machine

def setProc (s : Machine) (i : ℕ) (f : Proc → Proc) : Machine :=
  { s with proc := Function.update s.proc i (f (s.proc i)) }

def goto (s : Machine) (i : ℕ) (pc : Pc) : Machine := s.setProc i fun p => { p with pc := pc }

/-- `acquire` and `release` of the lock of process `j` by process `i`. -/
def acquireProc (s : Machine) (i j : ℕ) : Option Machine :=
  if (s.proc j).lock = none then some (s.setProc j fun p => { p with lock := some (.proc i) }) else none

def releaseProc (s : Machine) (j : ℕ) : Machine := s.setProc j fun p => { p with lock := none }

/-- `acquire(&pi->lock)` -/
def acquirePipe (s : Machine) (i : ℕ) : Option Machine :=
  if s.lock = none then some { s with lock := some i } else none

end Machine

/-- The change that `wakeup` makes to a process. -/
def Proc.wake (p : Proc) (chan : Chan) : Proc :=
  if p.state = .sleeping ∧ p.chan = some chan then { p with state := .runnable } else p

/-- The change that `kill` makes to its target. -/
def Proc.kill (p : Proc) : Proc :=
  if p.state = .sleeping then { p with killed := true, state := .runnable }
  else { p with killed := true }

def Buffer.put (pi : Buffer) (ch : BitVec 8) : Buffer :=
  { pi with
    data := Function.update pi.data (pi.nwrite.toNat % PIPESIZE) ch
    nwrite := pi.nwrite + 1 }

def Buffer.get (pi : Buffer) : BitVec 8 × Buffer :=
  (pi.data (pi.nread.toNat % PIPESIZE), { pi with nread := pi.nread + 1 })

def Buffer.full (pi : Buffer) : Prop := pi.nwrite = pi.nread + BitVec.ofNat 32 PIPESIZE

instance (pi : Buffer) : Decidable pi.full := inferInstanceAs (Decidable (_ = _))

/-! ## Steps -/

variable (nproc : ℕ)

open Machine

/-- The loop of `pipewrite` once `killed` has returned `false`. -/
def writeByte (s : Machine) (p : ℕ) (w : Write) (i : ℕ) : Machine :=
  if s.pipe.full then s.goto p (.wakeup .nread 0 (.sleep w i))
  else match w.src i with
    | none => s.goto p (.wakeup .nread 0 (.unlock i))
    | some ch =>
      { s with
        pipe := s.pipe.put ch
        stored := s.stored ++ [ch] }.setProc p fun q =>
        { q with
          pc := .writeLoop w (i + 1) true
          sent := q.sent ++ [ch] }

/-- The copy loop of `piperead`. -/
def readByte (s : Machine) (p : ℕ) (r : Read) (i : ℕ) : Machine :=
  if (i : ℤ) < r.n ∧ s.pipe.nread ≠ s.pipe.nwrite then
    { s with
      pipe := s.pipe.get.2
      taken := s.taken ++ [s.pipe.get.1] }.goto p
      (if r.dst i then .readCopy r (i + 1) else .wakeup .nwrite 0 (.unlock i))
  else s.goto p (.wakeup .nwrite 0 (.unlock i))

/-- The next step of process `p`. -/
def go (s : Machine) (p : ℕ) : Option Machine :=
  match (s.proc p).pc with
  | .idle => none
  | .writeLock w => (s.acquirePipe p).map fun s =>
      s.setProc p fun q => { q with pc := .writeLoop w 0 false, sent := [] }
  | .writeLoop w i fresh =>
    if (i : ℤ) < w.n then
      if s.pipe.readopen = false then some (s.goto p (.unlock (-1)))
      else (s.acquireProc p p).map fun t =>
        t.goto p (.writeKilled w i fresh (s.proc p).killed)
    else some (s.goto p (.wakeup .nread 0 (.unlock i)))
  | .writeKilled w i _ killed =>
    let s := s.releaseProc p
    if killed then some (s.goto p (.unlock (-1))) else some (writeByte s p w i)
  | .readLock r => (s.acquirePipe p).map fun s => s.goto p (.readLoop r)
  | .readLoop r =>
    if s.pipe.nread = s.pipe.nwrite ∧ s.pipe.writeopen = true then
      (s.acquireProc p p).map fun t => t.goto p (.readKilled r (s.proc p).killed)
    else some (s.goto p (.readCopy r 0))
  | .readKilled r killed =>
    some ((s.releaseProc p).goto p (if killed then .unlock (-1) else .sleepLock .nread (.read r)))
  | .readCopy r i => some (readByte s p r i)
  | .closeLock writable => (s.acquirePipe p).map fun s =>
    if writable then
      { s with pipe := { s.pipe with writeopen := false } }.goto p (.wakeup .nread 0 (.unlock 0))
    else
      { s with pipe := { s.pipe with readopen := false } }.goto p (.wakeup .nwrite 0 (.unlock 0))
  | .unlock _ => some ({ s with lock := none }.goto p .idle)
  | .wakeup chan j next =>
    if j < nproc then
      if j = p then some (s.goto p (.wakeup chan (j + 1) next))
      else (s.acquireProc p j).map fun s =>
        (s.setProc j fun q => q.wake chan).goto p (.wakeupUnlock chan j next)
    else match next with
      | .sleep w i => some (s.goto p (.sleepLock .nwrite (.write w i)))
      | .unlock ret => some (s.goto p (.unlock ret))
  | .wakeupUnlock chan j next => some ((s.releaseProc j).goto p (.wakeup chan (j + 1) next))
  | .sleepLock chan back => (s.acquireProc p p).map fun s => s.goto p (.sleepSched chan back)
  | .sleepSched chan back =>
    some ({ s with lock := none }.setProc p fun q =>
      { q with
        chan := some chan
        state := .sleeping
        lock := some .sched
        pc := .sleepWake back })
  | .sleepWake back => some (s.setProc p fun q =>
      { q with
        chan := none
        lock := none
        pc := .sleepRelock back })
  | .sleepRelock back => (s.acquirePipe p).map fun s =>
    match back with
    | .write w i => s.goto p (.writeLoop w i false)
    | .read r => s.goto p (.readLoop r)
  | .kill target => (s.acquireProc p target).map fun s =>
      (s.setProc target Proc.kill).goto p (.killUnlock target)
  | .killUnlock target => some ((s.releaseProc target).goto p .idle)

inductive Call
  | write (w : Write)
  | read (r : Read)
  | close (writable : Bool)
  | kill (target : ℕ)

def Call.entry : Call → Pc
  | .write w => .writeLock w
  | .read r => .readLock r
  | .close writable => .closeLock writable
  | .kill target => .kill target

inductive Event
  | call (p : ℕ) (c : Call)
  | go (p : ℕ)
  /-- The scheduler releases the lock of a process that has gone to sleep. -/
  | switched (p : ℕ)
  /-- The scheduler runs a process, with its lock. -/
  | schedule (p : ℕ)

/-- One step.  Only processes of the table take part. -/
def step (s : Machine) : Event → Option Machine
  | .call p c =>
    match (s.proc p).pc with
    | .idle => if p < nproc then some (s.goto p c.entry) else none
    | _ => none
  | .go p => if (s.proc p).state = .running then go nproc s p else none
  | .switched p =>
    if (s.proc p).lock = some .sched then some (s.releaseProc p) else none
  | .schedule p =>
    if (s.proc p).lock = none ∧ (s.proc p).state = .runnable then
      some (s.setProc p fun q => { q with lock := some (.proc p), state := .running })
    else none

end Xv6.Pipe
