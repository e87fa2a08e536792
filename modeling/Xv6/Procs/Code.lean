import Xv6.Lib.Threads

/-!
# Processes

The process table of `proc.c` with `fork`, `exit`, `wait`, `kill`, `sleep`, `wakeup`, `yield` and the
scheduler.  The threads are the CPUs, which own the locks: `swtch` takes a CPU from the scheduler to a
process and back, with the lock of the process held.  The point that a process has reached is kept in
its `context` while no CPU runs it.  A step is the code from one lock operation up to the next.

Of the other code of the kernel only what it does to the table is here: a process may sleep on and wake
other channels and change its memory, and a device interrupt may wake other channels.  The results of
`kalloc`, `proc_pagetable`, `uvmcopy` and `copyout` are choices, and so are timer interrupts, which may
come wherever a process holds no lock.
-/

namespace Xv6.Procs

open Threads

inductive ProcState
  | unused
  | used
  | sleeping
  | runnable
  | running
  | zombie
  deriving DecidableEq

/-- What a process sleeps on: a process, as `wait` does, or anything else. -/
inductive Chan
  | proc (i : ℕ)
  | other (n : ℕ)
  deriving DecidableEq

inductive Lock
  /-- `wait_lock` -/
  | wait
  /-- `pid_lock` -/
  | pid
  /-- `proc[j].lock` -/
  | proc (j : ℕ)
  deriving DecidableEq

/-- What `wakeup` returns to. -/
inductive After
  | reparent (j : ℕ) (status : BitVec 32)
  | exit (status : BitVec 32)
  | user

/-- The callers of `sleep`: `wait`, with its argument, and the rest of the kernel. -/
inductive Sleeper
  | wait (addr : BitVec 64)
  | other (n : ℕ)

/-- The point that a process has reached in the kernel, named after the lock operation that comes
next. -/
inductive Kpc
  /-- In user space, or in a system call outside this model. -/
  | user
  | allocScan (j : ℕ)
  | allocSkip (j : ℕ)
  | allocPid (j : ℕ)
  | allocPidDone (j : ℕ) (pid : BitVec 32)
  | allocTrapframe (j : ℕ)
  | allocPagetable (j : ℕ)
  | forkCopy (j : ℕ)
  | forkFail (j : ℕ)
  | forkUnlock (j : ℕ)
  | forkParent (j : ℕ)
  | forkParentDone (j : ℕ)
  | forkRun (j : ℕ)
  | forkDone (j : ℕ)
  | exitLock (status : BitVec 32)
  | reparent (j : ℕ) (status : BitVec 32)
  | exitSelf (status : BitVec 32)
  | exitSched
  | waitLock (addr : BitVec 64)
  | waitScan (addr : BitVec 64) (j : ℕ) (havekids : Bool)
  | waitNext (addr : BitVec 64) (j : ℕ)
  | waitReaped (j : ℕ) (pid : BitVec 32) (child : ℕ)
  | waitFail (j : ℕ)
  | waitKilled (addr : BitVec 64) (killed : Bool)
  | waitReturn (pid : BitVec 32) (child : Option ℕ)
  | wakeup (chan : Option Chan) (k : ℕ) (after : After)
  | wakeupNext (chan : Option Chan) (k : ℕ) (after : After)
  | sleepLock (w : Sleeper)
  | sleepSched (w : Sleeper)
  | sleepWoken (w : Sleeper)
  | sleepRelock (w : Sleeper)
  | yield (k : Kpc)
  | resume (k : Kpc)
  | killScan (pid : BitVec 32) (k : ℕ)
  | killNext (pid : BitVec 32) (k : ℕ)
  | killHit (k : ℕ)
  | fault
  | faultDone

/-- A slot of the process table.  No code reads the last three fields: `serial` counts the processes,
`maker` is the process that is in `fork` for this slot, and `window` says that this `fork` has not set
`np->parent` yet. -/
structure Proc where
  state : ProcState
  chan : Option Chan
  killed : Bool
  xstate : BitVec 32
  pid : BitVec 32
  parent : Option ℕ
  sz : ℕ
  pagetable : ℕ
  trapframe : ℕ
  context : Kpc
  serial : ℕ
  maker : Option ℕ
  window : Bool

/-- What happened to processes, which are named by their serial numbers. -/
inductive Note
  /-- `allocproc` for a `fork` of process `parent`. -/
  | born (n parent : ℕ)
  /-- That `fork` has made the process `RUNNABLE`. -/
  | made (n : ℕ)
  /-- `kill(pid)` has found a slot. -/
  | kill (pid : BitVec 32)
  | fault (n : ℕ)
  | exit (n : ℕ) (status : BitVec 32)
  /-- `wait(addr)` of process `caller` has freed process `n`; `stored` is what `copyout` has written. -/
  | reap (caller n : ℕ) (addr : BitVec 64) (pid : BitVec 32) (stored : Option (BitVec 32))
  /-- `wait` of process `caller` has returned, after it has freed the process `child`. -/
  | waited (caller : ℕ) (ret : BitVec 32) (child : Option ℕ)
  deriving DecidableEq

/-- The table, `c->proc` of each CPU and `nextpid`.  The serial number of the next process and the notes
are only recorded. -/
structure Data where
  proc : ℕ → Proc
  cpu : ℕ → Option ℕ
  nextpid : BitVec 32
  next : ℕ
  notes : List Note

/-- The point that a CPU has reached. -/
inductive Pc
  /-- The loop of `scheduler`, before it takes the lock of a process, with a lock to release, and back
  from a process. -/
  | scan (j : ℕ)
  | skip (j : ℕ)
  | back (j : ℕ)
  | run (i : ℕ) (k : Kpc)
  /-- `wakeup` from an interrupt of a CPU that runs no process. -/
  | wakeup (n k j : ℕ)
  | wakeupNext (n k j : ℕ)

inductive Call
  | fork
  | exit (status : BitVec 32)
  | wait (addr : BitVec 64)
  | kill (pid : BitVec 32)
  /-- An exception in user space. -/
  | fault
  | sleep (n : ℕ)
  | wakeup (n : ℕ)
  /-- `sbrk` or `exec`. -/
  | space (sz pagetable : ℕ)

inductive Choice
  | go
  | call (c : Call)
  /-- What `kalloc` or `proc_pagetable` returns. -/
  | page (pa : ℕ)
  /-- Whether `uvmcopy` or `copyout` succeeds. -/
  | copied (ok : Bool)
  | timer
  /-- A device interrupt that wakes a channel. -/
  | device (n : ℕ)

/-- The first process, which `userinit` puts into the first slot. -/
def initproc : ℕ := 0

/-! ## Locks -/

def After.locks : After → List Lock
  | .reparent _ _ | .exit _ => [.wait]
  | .user => []

def Sleeper.locks : Sleeper → List Lock
  | .wait _ => [.wait]
  | .other _ => []

/-- The locks that process `i` holds. -/
def Kpc.locks (i : ℕ) : Kpc → List Lock
  | .allocSkip j | .allocPid j | .allocTrapframe j | .allocPagetable j | .forkCopy j | .forkFail j
  | .forkUnlock j | .forkDone j => [.proc j]
  | .allocPidDone j _ => [.pid, .proc j]
  | .forkParentDone _ => [.wait]
  | .reparent _ _ | .exitSelf _ => [.wait]
  | .exitSched => [.proc i, .wait]
  | .waitScan _ _ _ | .waitReturn _ _ => [.wait]
  | .waitNext _ j | .waitReaped j _ _ | .waitFail j => [.proc j, .wait]
  | .waitKilled _ _ => [.proc i, .wait]
  | .wakeup _ _ after => after.locks
  | .wakeupNext _ k after => .proc k :: after.locks
  | .sleepLock w => w.locks
  | .sleepSched w => .proc i :: w.locks
  | .sleepWoken _ | .resume _ => [.proc i]
  | .killNext _ k | .killHit k => [.proc k]
  | .faultDone => [.proc i]
  | _ => []

def Pc.locks : Pc → List Lock
  | .skip j | .back j => [.proc j]
  | .run i k => k.locks i
  | .wakeupNext _ k _ => [.proc k]
  | _ => []

/-! ## The table -/

def freeproc (p : Proc) : Proc :=
  { p with
    trapframe := 0
    pagetable := 0
    sz := 0
    pid := 0
    parent := none
    chan := none
    killed := false
    xstate := 0
    state := .unused
    maker := none
    window := false }

/-- The change that `wakeup` makes to a process. -/
def Proc.wake (p : Proc) (chan : Option Chan) : Proc :=
  if p.state = .sleeping ∧ p.chan = chan then { p with state := .runnable } else p

/-- The change that `kill` makes to the process it finds. -/
def Proc.kill (p : Proc) : Proc :=
  if p.state = .sleeping then { p with killed := true, state := .runnable }
  else { p with killed := true }

namespace Data

def setProc (d : Data) (j : ℕ) (p : Proc) : Data := { d with proc := Function.update d.proc j p }

def setCpu (d : Data) (c : ℕ) (i : Option ℕ) : Data := { d with cpu := Function.update d.cpu c i }

def note (d : Data) (x : Note) : Data := { d with notes := d.notes ++ [x] }

end Data

/-! ## Code -/

def After.kpc : After → Kpc
  | .reparent j status => .reparent j status
  | .exit status => .exitSelf status
  | .user => .user

def Sleeper.chan (i : ℕ) : Sleeper → Chan
  | .wait _ => .proc i
  | .other n => .other n

/-- `release(lk)` in `sleep`, for the locks of this model. -/
def Sleeper.release : Sleeper → Op Lock
  | .wait _ => .release .wait
  | .other _ => .skip

def Sleeper.acquire : Sleeper → Op Lock
  | .wait _ => .acquire .wait
  | .other _ => .skip

/-- Where a process goes on after `sleep`. -/
def Sleeper.kpc : Sleeper → Kpc
  | .wait addr => .waitScan addr 0 false
  | .other _ => .user

variable (nproc : ℕ)

/-- What process `i` does from user space. -/
def userCode (d : Data) (i : ℕ) : Call → Option (Instr Lock Data Pc)
  | .fork => some ⟨.skip, d, .run i (.allocScan 0)⟩
  -- `exit` of the first process panics
  | .exit status => if i = initproc then none else some ⟨.skip, d, .run i (.exitLock status)⟩
  | .wait addr => some ⟨.skip, d, .run i (.waitLock addr)⟩
  | .kill pid => some ⟨.skip, d, .run i (.killScan pid 0)⟩
  | .fault => some ⟨.skip, d, .run i .fault⟩
  | .sleep n => some ⟨.skip, d, .run i (.sleepLock (.other n))⟩
  | .wakeup n => some ⟨.skip, d, .run i (.wakeup (some (.other n)) 0 .user)⟩
  | .space sz pagetable =>
    some ⟨.skip, d.setProc i { d.proc i with sz := sz, pagetable := pagetable }, .run i .user⟩

/-- `allocproc` or `fork` gives up: `freeproc` and `release`. -/
def forkFails (d : Data) (i j : ℕ) : Instr Lock Data Pc :=
  ⟨.skip, d.setProc j (freeproc (d.proc j)), .run i (.forkFail j)⟩

/-- The code of `fork`, with `allocproc` and `allocpid`. -/
def forkCode (d : Data) (i : ℕ) (ch : Choice) : Kpc → Option (Instr Lock Data Pc)
  | .allocScan j =>
    if j < nproc then
      if (d.proc j).state = .unused then some ⟨.acquire (.proc j), d, .run i (.allocPid j)⟩
      else some ⟨.acquire (.proc j), d, .run i (.allocSkip j)⟩
    else some ⟨.skip, d, .run i .user⟩
  | .allocSkip j => some ⟨.release (.proc j), d, .run i (.allocScan (j + 1))⟩
  | .allocPid j =>
    some ⟨.acquire .pid, { d with nextpid := d.nextpid + 1, next := d.next + 1 },
      .run i (.allocPidDone j d.nextpid)⟩
  | .allocPidDone j pid =>
    let p := { d.proc j with
      pid := pid, state := .used, serial := d.next - 1, maker := some i, window := true }
    some ⟨.release .pid, (d.setProc j p).note (.born (d.next - 1) (d.proc i).serial),
      .run i (.allocTrapframe j)⟩
  | .allocTrapframe j =>
    match ch with
    | .page pa =>
      if pa = 0 then some (forkFails d i j)
      else some ⟨.skip, d.setProc j { d.proc j with trapframe := pa }, .run i (.allocPagetable j)⟩
    | _ => none
  | .allocPagetable j =>
    match ch with
    | .page pa =>
      if pa = 0 then some (forkFails d i j)
      -- the new context starts at `forkret`
      else some ⟨.skip, d.setProc j { d.proc j with pagetable := pa, context := .resume .user },
        .run i (.forkCopy j)⟩
    | _ => none
  | .forkCopy j =>
    match ch with
    | .copied ok =>
      if ok then
        some ⟨.skip, d.setProc j { d.proc j with sz := (d.proc i).sz }, .run i (.forkUnlock j)⟩
      else some (forkFails d i j)
    | _ => none
  | .forkFail j => some ⟨.release (.proc j), d, .run i .user⟩
  | .forkUnlock j => some ⟨.release (.proc j), d, .run i (.forkParent j)⟩
  | .forkParent j =>
    some ⟨.acquire .wait, d.setProc j { d.proc j with parent := some i, window := false },
      .run i (.forkParentDone j)⟩
  | .forkParentDone j => some ⟨.release .wait, d, .run i (.forkRun j)⟩
  | .forkRun j =>
    some ⟨.acquire (.proc j),
      (d.setProc j { d.proc j with state := .runnable, maker := none }).note (.made (d.proc j).serial),
      .run i (.forkDone j)⟩
  | .forkDone j => some ⟨.release (.proc j), d, .run i .user⟩
  | _ => none

/-- The code of `exit`, with `reparent` and `wakeup`. -/
def exitCode (d : Data) (i : ℕ) : Kpc → Option (Instr Lock Data Pc)
  | .exitLock status => some ⟨.acquire .wait, d, .run i (.reparent 0 status)⟩
  | .reparent j status =>
    if j < nproc then
      if (d.proc j).parent = some i then
        some ⟨.skip, d.setProc j { d.proc j with parent := some initproc },
          .run i (.wakeup (some (.proc initproc)) 0 (.reparent (j + 1) status))⟩
      else some ⟨.skip, d, .run i (.reparent (j + 1) status)⟩
    else some ⟨.skip, d, .run i (.wakeup ((d.proc i).parent.map .proc) 0 (.exit status))⟩
  | .exitSelf status =>
    some ⟨.acquire (.proc i),
      (d.setProc i { d.proc i with xstate := status, state := .zombie }).note
        (.exit (d.proc i).serial status), .run i .exitSched⟩
  | .exitSched => some ⟨.release .wait, d, .back i⟩
  | .wakeup chan k after =>
    if k < nproc then
      if k = i then some ⟨.skip, d, .run i (.wakeup chan (k + 1) after)⟩
      else some ⟨.acquire (.proc k), d.setProc k ((d.proc k).wake chan), .run i (.wakeupNext chan k after)⟩
    else some ⟨.skip, d, .run i after.kpc⟩
  | .wakeupNext chan k after => some ⟨.release (.proc k), d, .run i (.wakeup chan (k + 1) after)⟩
  | _ => none

/-- `wait` has found a zombie child, and `copyout` of its status has succeeded or was not asked for. -/
def reap (d : Data) (i j : ℕ) (addr : BitVec 64) : Data :=
  (d.setProc j (freeproc (d.proc j))).note (.reap (d.proc i).serial (d.proc j).serial addr
    (d.proc j).pid (if addr = 0 then none else some (d.proc j).xstate))

def waitCode (d : Data) (i : ℕ) (ch : Choice) : Kpc → Option (Instr Lock Data Pc)
  | .waitLock addr => some ⟨.acquire .wait, d, .run i (.waitScan addr 0 false)⟩
  | .waitScan addr j havekids =>
    if j < nproc then
      if (d.proc j).parent = some i then
        if (d.proc j).state = .zombie then
          match ch with
          | .copied ok =>
            if addr ≠ 0 ∧ ok = false then some ⟨.acquire (.proc j), d, .run i (.waitFail j)⟩
            else some ⟨.acquire (.proc j), reap d i j addr,
              .run i (.waitReaped j (d.proc j).pid (d.proc j).serial)⟩
          | _ => none
        else some ⟨.acquire (.proc j), d, .run i (.waitNext addr j)⟩
      else some ⟨.skip, d, .run i (.waitScan addr (j + 1) havekids)⟩
    else if havekids then
      some ⟨.acquire (.proc i), d, .run i (.waitKilled addr (d.proc i).killed)⟩
    else some ⟨.skip, d, .run i (.waitReturn (-1) none)⟩
  | .waitNext addr j => some ⟨.release (.proc j), d, .run i (.waitScan addr (j + 1) true)⟩
  | .waitReaped j pid child => some ⟨.release (.proc j), d, .run i (.waitReturn pid (some child))⟩
  | .waitFail j => some ⟨.release (.proc j), d, .run i (.waitReturn (-1) none)⟩
  | .waitKilled addr killed =>
    some ⟨.release (.proc i), d,
      .run i (if killed then .waitReturn (-1) none else .sleepLock (.wait addr))⟩
  | .waitReturn pid child =>
    some ⟨.release .wait, d.note (.waited (d.proc i).serial pid child), .run i .user⟩
  | _ => none

/-- The code of `sleep`, `yield` and `forkret`, up to `sched` and after it. -/
def sleepCode (d : Data) (i : ℕ) : Kpc → Option (Instr Lock Data Pc)
  | .sleepLock w => some ⟨.acquire (.proc i), d, .run i (.sleepSched w)⟩
  | .sleepSched w =>
    some ⟨w.release,
      d.setProc i { d.proc i with chan := some (w.chan i), state := .sleeping, context := .sleepWoken w },
      .back i⟩
  | .sleepWoken w =>
    some ⟨.release (.proc i), d.setProc i { d.proc i with chan := none }, .run i (.sleepRelock w)⟩
  | .sleepRelock w => some ⟨w.acquire, d, .run i w.kpc⟩
  | .yield k =>
    some ⟨.acquire (.proc i), d.setProc i { d.proc i with state := .runnable, context := .resume k },
      .back i⟩
  | .resume k => some ⟨.release (.proc i), d, .run i k⟩
  | _ => none

/-- The code of `kill` and of `setkilled` for the own process. -/
def killCode (d : Data) (i : ℕ) : Kpc → Option (Instr Lock Data Pc)
  | .killScan pid k =>
    if k < nproc then
      if (d.proc k).pid = pid then
        some ⟨.acquire (.proc k), (d.setProc k (d.proc k).kill).note (.kill pid), .run i (.killHit k)⟩
      else some ⟨.acquire (.proc k), d, .run i (.killNext pid k)⟩
    -- returns -1
    else some ⟨.skip, d, .run i .user⟩
  | .killNext pid k => some ⟨.release (.proc k), d, .run i (.killScan pid (k + 1))⟩
  -- returns 0
  | .killHit k => some ⟨.release (.proc k), d, .run i .user⟩
  | .fault =>
    some ⟨.acquire (.proc i),
      (d.setProc i { d.proc i with killed := true }).note (.fault (d.proc i).serial), .run i .faultDone⟩
  | .faultDone => some ⟨.release (.proc i), d, .run i .user⟩
  | _ => none

/-- The next step of process `i`. -/
def kcode (d : Data) (i : ℕ) (ch : Choice) (k : Kpc) : Option (Instr Lock Data Pc) :=
  match k with
  | .user =>
    match ch with
    | .call c => userCode d i c
    | _ => none
  | .allocScan _ | .allocSkip _ | .allocPid _ | .allocPidDone _ _ | .allocTrapframe _
  | .allocPagetable _ | .forkCopy _ | .forkFail _ | .forkUnlock _ | .forkParent _ | .forkParentDone _
  | .forkRun _ | .forkDone _ => forkCode nproc d i ch k
  | .exitLock _ | .reparent _ _ | .exitSelf _ | .exitSched | .wakeup _ _ _ | .wakeupNext _ _ _ =>
    exitCode nproc d i k
  | .waitLock _ | .waitScan _ _ _ | .waitNext _ _ | .waitReaped _ _ _ | .waitFail _ | .waitKilled _ _
  | .waitReturn _ _ => waitCode nproc d i ch k
  | .sleepLock _ | .sleepSched _ | .sleepWoken _ | .sleepRelock _ | .yield _ | .resume _ =>
    sleepCode d i k
  | .killScan _ _ | .killNext _ _ | .killHit _ | .fault | .faultDone => killCode nproc d i k

/-- The next step of CPU `c`. -/
def code (d : Data) (c : ℕ) (pc : Pc) (ch : Choice) : Option (Instr Lock Data Pc) :=
  match pc with
  | .scan j =>
    match ch with
    | .device n => some ⟨.skip, d, .wakeup n 0 j⟩
    | _ =>
      if j < nproc then
        if (d.proc j).state = .runnable then
          some ⟨.acquire (.proc j), (d.setProc j { d.proc j with state := .running }).setCpu c (some j),
            .run j (d.proc j).context⟩
        else some ⟨.acquire (.proc j), d, .skip j⟩
      else some ⟨.skip, d, .scan 0⟩
  | .skip j => some ⟨.release (.proc j), d, .scan (j + 1)⟩
  | .back j => some ⟨.release (.proc j), d.setCpu c none, .scan (j + 1)⟩
  | .wakeup n k j =>
    if k < nproc then
      some ⟨.acquire (.proc k), d.setProc k ((d.proc k).wake (some (.other n))), .wakeupNext n k j⟩
    else some ⟨.skip, d, .scan j⟩
  | .wakeupNext n k j => some ⟨.release (.proc k), d, .wakeup n (k + 1) j⟩
  | .run i k =>
    match ch with
    | .timer => if k.locks i = [] then some ⟨.skip, d, .run i (.yield k)⟩ else none
    | ch => kcode nproc d i ch k

abbrev Machine := State ℕ Lock Data Pc

/-- A machine after `userinit`: only the first process exists, and the CPUs start their schedulers. -/
structure Machine.Boot (s : Machine) : Prop where
  init : s.data.proc initproc =
    { state := .runnable, chan := none, killed := false, xstate := 0, pid := 1, parent := none,
      sz := (s.data.proc initproc).sz, pagetable := (s.data.proc initproc).pagetable,
      trapframe := (s.data.proc initproc).trapframe, context := .resume .user, serial := 1, maker := none,
      window := false }
  unused : ∀ j ≠ initproc, s.data.proc j = freeproc (s.data.proc j)
  cpu : ∀ c, s.data.cpu c = none ∧ s.pc c = .scan 0
  nextpid : s.data.nextpid = 2 ∧ s.data.next = 2
  notes : s.data.notes = []
  lock : ∀ l, s.lock l = none

end Xv6.Procs
