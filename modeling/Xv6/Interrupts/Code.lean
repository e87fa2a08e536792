import Xv6.Procs.Code

/-!
# Spinlocks, nested interrupt-off sections and context switches

`acquire`, `release`, `push_off` and `pop_off` of `spinlock.c` with `sched`, `yield`, `sleep`, `forkret`
and the scheduler of `proc.c`, for any CPUs, locks and processes.  A CPU runs its scheduler thread or the
kernel thread of a process; `noff` and `intena` belong to the CPU, the point a thread has reached belongs
to the thread and moves with it.

A thread makes one call after the other.  A function that calls others is the list of their calls, which
the thread works off; a step is one access to what another CPU or an interrupt handler can see.  Where
interrupts are on, an interrupt may come before any step: its handler runs on the stack of the thread,
with the interrupts off, and returns to the point that was interrupted.
-/

namespace Xv6.Interrupts

open Procs (ProcState)

inductive Thread (Cpu Proc : Type*)
  /-- The loop of `scheduler` on one CPU, and `main` before it. -/
  | sched (c : Cpu)
  | proc (p : Proc)
  deriving DecidableEq

/-- The calls of which the functions are made, with the statements of `proc.c` that matter to them. -/
inductive Call (Lock Proc : Type*)
  | acquire (lk : Lock)
  | release (lk : Lock)
  | pushOff
  | popOff
  /-- `p->state = st` for the running process -/
  | setState (st : ProcState)
  /-- `sched` from its checks on -/
  | sched
  /-- The `if` of the scheduler, with `p->lock` held. -/
  | dispatch (p : Proc)
  | panic (msg : String)
  deriving DecidableEq

/-- Where a thread is inside a call. -/
inductive Pc (Lock : Type*)
  /-- Between two calls. -/
  | idle
  /-- In `push_off`, with `old` read; for `acquire` of a lock or by itself. -/
  | push (old : Bool) (lk : Option Lock)
  /-- In `acquire`, before the test of `holding`. -/
  | test (lk : Lock)
  /-- In `acquire`, in the loop around the atomic swap. -/
  | spin (lk : Lock)
  /-- In `acquire`, before `lk->cpu = mycpu()`. -/
  | own (lk : Lock)
  /-- In `release`, before the test of `holding`. -/
  | check (lk : Lock)
  /-- In `release`, before the lock is set free. -/
  | unlock (lk : Lock)
  /-- In `pop_off`. -/
  | pop
  /-- In `sched`, after `swtch`, with the local variable `intena`. -/
  | resume (intena : Bool)
  deriving DecidableEq

/-- A kernel thread.  `held`, `pushed` and `outer` are not in the code: they record the locks for which
the thread has called `acquire` and not `release`, the calls of `push_off` that it has not matched, and
whether interrupts were on at the outermost `push_off` of the section it is in.  A new process starts in
the section of the scheduler that first runs it. -/
structure Tcb (Lock Proc : Type*) where
  pc : Pc Lock
  /-- The calls left of the function that the thread is in. -/
  todo : List (Call Lock Proc)
  /-- What interrupts have interrupted. -/
  saved : List (Pc Lock × List (Call Lock Proc))
  held : List Lock
  pushed : ℕ
  outer : Option Bool
  deriving DecidableEq

structure Core where
  sie : Bool
  noff : ℕ
  intena : Bool
  panicked : Option String

/-- `struct spinlock`.  `holder` is not in the code: it is the CPU whose swap took the lock. -/
structure SpinLock (Cpu : Type*) where
  locked : Bool
  cpu : Option Cpu
  holder : Option Cpu

structure State (Cpu Lock Proc : Type*) where
  core : Cpu → Core
  running : Cpu → Thread Cpu Proc
  tcb : Thread Cpu Proc → Tcb Lock Proc
  lock : Lock → SpinLock Cpu
  state : Proc → ProcState

/-- The functions that a thread may call. -/
inductive Func (Lock Proc : Type*)
  | acquire (lk : Lock)
  | release (lk : Lock)
  | pushOff
  | popOff
  | yield
  | sleep (lk : Lock)
  /-- The end of `exit`, with `wait_lock` held. -/
  | exit (lk : Lock)
  /-- One round of the loop over the processes in `scheduler`. -/
  | schedule (p : Proc)

inductive Op (Lock Proc : Type*)
  | call (f : Func Lock Proc)
  /-- The next step of the call that the thread is in. -/
  | go
  /-- `intr_on` or `intr_off` -/
  | intr (on : Bool)
  | trap
  /-- The return from an interrupt handler. -/
  | sret
  /-- `allocproc`, with `p->lock` held -/
  | alloc (p : Proc)
  /-- `np->state = RUNNABLE` in `fork` and `userinit` -/
  | ready (p : Proc)
  /-- `wakeup` and `kill`, with `p->lock` held -/
  | wake (p : Proc)
  /-- `freeproc` -/
  | free (p : Proc)

variable {Cpu Lock Proc : Type*}

/-! ## Nesting depth -/

/-- Whether `push_off` has run for the call that the thread is in and `pop_off` has not. -/
def Pc.pending : Pc Lock → ℕ
  | .test _ | .spin _ | .own _ | .unlock _ | .pop => 1
  | _ => 0

/-- The calls of `push_off` by the thread that no `pop_off` has undone. -/
def Tcb.depth (T : Tcb Lock Proc) : ℕ := T.held.length + T.pushed + T.pc.pending

/-! ## The functions as lists of calls -/

def myproc : List (Call Lock Proc) := [.pushOff, .popOff]

def sched : List (Call Lock Proc) := myproc ++ [.sched]

variable (plock : Proc → Lock)

/-- What a function calls.  `yield`, `sleep` and `exit` are for processes, and only a scheduler thread
runs `scheduler`. -/
def body : Thread Cpu Proc → Func Lock Proc → Option (List (Call Lock Proc))
  | _, .acquire lk => some [.acquire lk]
  | _, .release lk => some [.release lk]
  | _, .pushOff => some [.pushOff]
  | _, .popOff => some [.popOff]
  | .proc p, .yield =>
    some (myproc ++ [.acquire (plock p), .setState .runnable] ++ sched ++ [.release (plock p)])
  | .proc p, .sleep lk =>
    some (myproc ++ [.acquire (plock p), .release lk, .setState .sleeping] ++ sched ++
      [.release (plock p), .acquire lk])
  | .proc p, .exit lk =>
    some ([.acquire (plock p), .setState .zombie, .release lk] ++ sched ++ [.panic "zombie exit"])
  | .sched _, .schedule p => some [.acquire (plock p), .dispatch p, .release (plock p)]
  | _, _ => none

/-- A process whose first `swtch` goes to `forkret`. -/
def forkret (p : Proc) : Tcb Lock Proc :=
  ⟨.idle, [.release (plock p)], [], [plock p], 0, none⟩

/-! ## Steps -/

variable [DecidableEq Cpu] [DecidableEq Lock] [DecidableEq Proc]

namespace State

variable (s : State Cpu Lock Proc) (c : Cpu)

/-- The thread that runs on `c`. -/
def thread : Tcb Lock Proc := s.tcb (s.running c)

/-- A step of the thread on `c` that changes no lock. -/
def put (k : Core) (T : Tcb Lock Proc) : State Cpu Lock Proc :=
  { s with core := Function.update s.core c k, tcb := Function.update s.tcb (s.running c) T }

def setLock (lk : Lock) (l : SpinLock Cpu) : State Cpu Lock Proc :=
  { s with lock := Function.update s.lock lk l }

def setTcb (t : Thread Cpu Proc) (T : Tcb Lock Proc) : State Cpu Lock Proc :=
  { s with tcb := Function.update s.tcb t T }

def setState (p : Proc) (st : ProcState) : State Cpu Lock Proc :=
  { s with state := Function.update s.state p st }

def panic (msg : String) : State Cpu Lock Proc :=
  s.put c { s.core c with panicked := some msg } (s.thread c)

def holding (lk : Lock) : Bool := (s.lock lk).locked && decide ((s.lock lk).cpu = some c)

end State

open State

variable (s : State Cpu Lock Proc) (c : Cpu)

/-- `push_off` from `intr_off` on. -/
def pushOff (old : Bool) (lk : Option Lock) : State Cpu Lock Proc :=
  let k := s.core c
  let T := s.thread c
  s.put c
    { k with sie := false, intena := if k.noff = 0 then old else k.intena, noff := k.noff + 1 }
    { T with
      pc := lk.elim .idle .test
      pushed := lk.elim (T.pushed + 1) fun _ => T.pushed
      outer := if T.depth = 0 then some k.sie else T.outer }

def popOff : State Cpu Lock Proc :=
  let k := s.core c
  if k.sie then s.panic c "pop_off - interruptible"
  else if k.noff < 1 then s.panic c "pop_off"
  else s.put c { k with sie := k.noff - 1 = 0 ∧ k.intena, noff := k.noff - 1 }
    { s.thread c with pc := .idle }

/-- `sched` of process `p`, up to `swtch`. -/
def swtchToScheduler (p : Proc) (rest : List (Call Lock Proc)) : State Cpu Lock Proc :=
  if ¬s.holding c (plock p) then s.panic c "sched p->lock"
  else if (s.core c).noff ≠ 1 then s.panic c "sched locks"
  else if s.state p = .running then s.panic c "sched running"
  else if (s.core c).sie then s.panic c "sched interruptible"
  else
    { s with
      tcb := Function.update s.tcb (.proc p)
        { s.tcb (.proc p) with pc := .resume (s.core c).intena, todo := rest }
      running := Function.update s.running c (.sched c) }

/-- The body of the `if` in `scheduler`, up to `swtch`.  A process that starts in `forkret` takes over
the section that the scheduler is in. -/
def swtchToProc (p : Proc) (rest : List (Call Lock Proc)) : State Cpu Lock Proc :=
  let S := s.tcb (.sched c)
  let T := s.tcb (.proc p)
  { s with
    state := Function.update s.state p .running
    tcb := Function.update (Function.update s.tcb (.sched c) { S with todo := rest, outer := none })
      (.proc p) { T with outer := if T.pc = .idle then S.outer else T.outer }
    running := Function.update s.running c (.proc p) }

/-- The thread on `c` begins its next call. -/
def begin : Call Lock Proc → List (Call Lock Proc) → Option (State Cpu Lock Proc)
  | .acquire lk, rest =>
    some (s.put c (s.core c) { s.thread c with pc := .push (s.core c).sie (some lk), todo := rest })
  | .release lk, rest => some (s.put c (s.core c) { s.thread c with pc := .check lk, todo := rest })
  | .pushOff, rest =>
    some (s.put c (s.core c) { s.thread c with pc := .push (s.core c).sie none, todo := rest })
  | .popOff, rest =>
    some (s.put c (s.core c)
      { s.thread c with pc := .pop, todo := rest, pushed := (s.thread c).pushed - 1 })
  | .setState st, rest =>
    match s.running c with
    | .proc p => some ((s.put c (s.core c) { s.thread c with todo := rest }).setState p st)
    | .sched _ => none
  | .sched, rest =>
    match s.running c with
    | .proc p => some (swtchToScheduler plock s c p rest)
    | .sched _ => none
  | .dispatch p, rest =>
    if s.state p = .runnable then some (swtchToProc s c p rest)
    else some (s.put c (s.core c) { s.thread c with todo := rest })
  | .panic msg, _ => some (s.panic c msg)

/-- The next step of the thread on `c`. -/
def go : Option (State Cpu Lock Proc) :=
  let k := s.core c
  let T := s.thread c
  match T.pc with
  | .idle =>
    match T.todo with
    | [] => none
    | f :: rest => begin plock s c f rest
  | .push old lk => some (pushOff s c old lk)
  | .test lk =>
    if s.holding c lk then some (s.panic c "acquire") else some (s.put c k { T with pc := .spin lk })
  | .spin lk =>
    if (s.lock lk).locked then some s
    else some ((s.put c k { T with pc := .own lk }).setLock lk
      { s.lock lk with locked := true, holder := some c })
  | .own lk =>
    some ((s.put c k { T with pc := .idle, held := lk :: T.held }).setLock lk
      { s.lock lk with cpu := some c })
  | .check lk =>
    if ¬s.holding c lk then some (s.panic c "release")
    else some ((s.put c k { T with pc := .unlock lk, held := T.held.erase lk }).setLock lk
      { s.lock lk with cpu := none })
  | .unlock lk =>
    some ((s.put c k { T with pc := .pop }).setLock lk
      { s.lock lk with locked := false, holder := none })
  | .pop => some (popOff s c)
  | .resume intena => some (s.put c { k with intena } { T with pc := .idle })

/-- A thread between two calls of its own, outside any function that makes calls. -/
def Tcb.Free (T : Tcb Lock Proc) : Prop := T.pc = .idle ∧ T.todo = []

instance (T : Tcb Lock Proc) : Decidable T.Free := inferInstanceAs (Decidable (_ ∧ _))

/-- One step on CPU `e.1`.  A CPU that has panicked does nothing more. -/
def step (e : Cpu × Op Lock Proc) : Option (State Cpu Lock Proc) :=
  let c := e.1
  let k := s.core c
  let T := s.thread c
  if k.panicked ≠ none then none
  else match e.2 with
  | .go => go plock s c
  | .trap =>
    if k.sie then
      some (s.put c { k with sie := false } { T with pc := .idle, todo := [], saved := (T.pc, T.todo) :: T.saved })
    else none
  | .call f =>
    if T.Free then (body plock (s.running c) f).map fun todo => s.put c k { T with todo } else none
  | .intr on => if T.Free then some (s.put c { k with sie := on } T) else none
  | .sret =>
    if T.Free then
      match T.saved with
      | [] => none
      | (pc, todo) :: saved => some (s.put c { k with sie := true } { T with pc, todo, saved })
    else none
  | .alloc p =>
    if T.Free then
      if s.state p = .unused then
        some ((s.setTcb (.proc p) (forkret plock p)).setState p .used)
      else some s
    else none
  | .ready p => if T.Free then some (s.setState p .runnable) else none
  | .wake p =>
    if T.Free then if s.state p = .sleeping then some (s.setState p .runnable) else some s else none
  | .free p => if T.Free then some (s.setState p .unused) else none

/-! ## Matched calls -/

/-- `p->lock` of the process that a thread belongs to. -/
def ownLock : Thread Cpu Proc → Option Lock
  | .sched _ => none
  | .proc p => some (plock p)

/-- The calls `cs` are matched, for a thread that has the locks `held`, has called `push_off` `n` times
more than `pop_off`, and whose process has state `st`: a lock is released by a thread that has it, and
`sched` is called with exactly `p->lock` held and `p->state` changed, as its comment says.  The state is
changed with `p->lock` held, which is then not released before `sched`; a zombie does not return. -/
def Matched (t : Thread Cpu Proc) : List (Call Lock Proc) → List Lock → ℕ → ProcState → Prop
  | [], _, _, st => st = .running
  | .acquire lk :: cs, held, n, st => Matched t cs (lk :: held) n st
  | .release lk :: cs, held, n, st =>
    lk ∈ held ∧ (ownLock plock t = some lk → st = .running) ∧ Matched t cs (held.erase lk) n st
  | .pushOff :: cs, held, n, st => Matched t cs held (n + 1) st
  | .popOff :: cs, held, n, st => 0 < n ∧ Matched t cs held (n - 1) st
  | .setState st' :: cs, held, n, _ =>
    (∃ lk ∈ held, ownLock plock t = some lk) ∧ st' ≠ .running ∧ Matched t cs held n st'
  | .sched :: cs, held, n, st =>
    held.map some = [ownLock plock t] ∧ n = 0 ∧ st ≠ .running ∧
      (st ≠ .zombie → Matched t cs held n .running)
  | .dispatch p :: cs, held, n, st =>
    ownLock plock t = none ∧ held = [plock p] ∧ n = 0 ∧ Matched t cs held n st
  | .panic _ :: _, _, _, _ => False

instance Matched.decidable (t : Thread Cpu Proc) :
    ∀ cs held n st, Decidable (Matched plock t cs held n st)
  | [], _, _, _ => inferInstanceAs (Decidable (_ = _))
  | .acquire lk :: cs, held, n, st => Matched.decidable t cs (lk :: held) n st
  | .release lk :: cs, held, n, st =>
    have := Matched.decidable t cs (held.erase lk) n st
    inferInstanceAs (Decidable (_ ∧ _ ∧ _))
  | .pushOff :: cs, held, n, st => Matched.decidable t cs held (n + 1) st
  | .popOff :: cs, held, n, st =>
    have := Matched.decidable t cs held (n - 1) st
    inferInstanceAs (Decidable (_ ∧ _))
  | .setState st' :: cs, held, n, _ =>
    have := Matched.decidable t cs held n st'
    inferInstanceAs (Decidable (_ ∧ _ ∧ _))
  | .sched :: cs, held, n, _ =>
    have := Matched.decidable t cs held n .running
    inferInstanceAs (Decidable (_ ∧ _ ∧ _ ∧ _))
  | .dispatch _ :: cs, held, n, st =>
    have := Matched.decidable t cs held n st
    inferInstanceAs (Decidable (_ ∧ _ ∧ _ ∧ _))
  | .panic _ :: _, _, _, _ => isFalse id

/-- The calls of every thread are matched.  Interrupts are switched on and off by hand outside every
section, a handler returns with everything matched, and `p->state` of another process is changed with
its lock held, to what the code that does so expects. -/
def Disciplined (s : State Cpu Lock Proc) (e : Cpu × Op Lock Proc) : Prop :=
  let t := s.running e.1
  let T := s.thread e.1
  match e.2 with
  | .go | .trap => True
  | .call f => ∀ cs ∈ body plock t f, Matched plock t cs T.held T.pushed .running
  | .intr _ | .sret => T.depth = 0
  | .alloc p | .wake p => plock p ∈ T.held
  | .ready p => plock p ∈ T.held ∧ s.state p = .used
  | .free p => plock p ∈ T.held ∧ (s.state p = .used ∨ s.state p = .zombie)

instance (s : State Cpu Lock Proc) (e : Cpu × Op Lock Proc) : Decidable (Disciplined plock s e) := by
  unfold Disciplined
  cases e.2 <;> infer_instance

/-- Every CPU is in its scheduler, with no lock held; there is no process yet. -/
structure Initial (s : State Cpu Lock Proc) : Prop where
  core : ∀ c, (s.core c).noff = 0 ∧ (s.core c).panicked = none
  running : ∀ c, s.running c = .sched c
  tcb : ∀ c, s.tcb (.sched c) = ⟨.idle, [], [], [], 0, none⟩
  lock : ∀ lk, s.lock lk = ⟨false, none, none⟩
  state : ∀ p, s.state p = .unused

end Xv6.Interrupts
