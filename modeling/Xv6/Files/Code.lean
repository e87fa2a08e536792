import Xv6.Lib.Runs

/-!
# Open files

The open-file table with the system calls that make and drop references to it: `open`, `dup`, `close`,
`pipe`, `fork` and `exit`, and `read` and `write`, which use them.  A step of a process is one critical
section of `ftable.lock`, of `itable.lock` or of the lock of a pipe, or code that no other process sees.

The inodes are here as the reference counts of the inode table.  What `namei` and `create` find, the
results of `kalloc`, `uvmcopy` and `copyout` and the slot that `allocproc` finds are choices.  The sizes
of the tables are parameters.
-/

namespace Xv6.Files

inductive FileType
  | none
  | pipe
  | inode
  | device
  deriving DecidableEq

structure File where
  type : FileType
  ref : ℤ
  readable : Bool
  writable : Bool
  /-- The page of the `struct pipe`. -/
  pipe : ℕ
  /-- The entry of the inode table. -/
  ip : ℕ
  major : ℤ
  deriving DecidableEq

structure Pipe where
  readopen : Bool
  writeopen : Bool
  /-- `kalloc` has returned the page and `kfree` has not got it back. -/
  allocated : Bool
  deriving DecidableEq

def Pipe.isOpen (p : Pipe) (writable : Bool) : Bool := if writable then p.writeopen else p.readopen

def Pipe.close (p : Pipe) (writable : Bool) : Pipe :=
  if writable then { p with writeopen := false } else { p with readopen := false }

inductive InodeType
  | dir
  | file
  | device
  deriving DecidableEq

/-- What `open` reads of an inode. -/
structure Inode where
  type : InodeType
  major : ℤ

inductive ProcState
  | unused
  /-- A `fork` is making the process. -/
  | used
  | live
  | zombie
  deriving DecidableEq

/-- What `fileclose` and `iput` return to. -/
inductive After (nfile nofile : ℕ)
  | ret
  /-- `fileclose` of the second end of a pipe. -/
  | next (f : Fin nfile)
  /-- `iunlockput` in `open`. -/
  | iput (ip : ℕ)
  /-- The loop of `exit`, in which `f` is `p->ofile[fd]`. -/
  | exit (fd : Fin nofile) (f : Fin nfile)

/-- The point that a process has reached, named after what comes next. -/
inductive Pc (nproc nfile nofile : ℕ)
  | user
  | dup (f : Fin nfile)
  | openPath (omode : BitVec 32)
  | openAlloc (omode : BitVec 32) (ip : ℕ) (inode : Inode)
  | openFd (omode : BitVec 32) (ip : ℕ) (inode : Inode) (f : Fin nfile)
  | openSet (omode : BitVec 32) (ip : ℕ) (inode : Inode) (f : Fin nfile) (fd : Fin nofile)
  | pipeFirst
  | pipeSecond (f0 : Fin nfile)
  | pipePage (f0 f1 : Fin nfile)
  | pipeRead (f0 f1 : Fin nfile) (pi : ℕ)
  | pipeWrite (f0 f1 : Fin nfile) (pi : ℕ)
  | pipeFds (f0 f1 : Fin nfile)
  | pipeCopy (f0 f1 : Fin nfile) (fd0 fd1 : Fin nofile)
  | close (f : Fin nfile) (after : After nfile nofile)
  | closePipe (pi : ℕ) (writable : Bool) (after : After nfile nofile)
  | closeFree (pi : ℕ) (after : After nfile nofile)
  | iput (ip : ℕ) (after : After nfile nofile)
  | fork
  | forkCopy (j : Fin nproc)
  | forkDup (j : Fin nproc) (fd : ℕ)
  | forkSet (j : Fin nproc) (fd : Fin nofile) (f : Fin nfile)
  | forkCwd (j : Fin nproc)
  | forkRun (j : Fin nproc)
  | exitScan (fd : ℕ)
  | exitClear (fd : Fin nofile) (f : Fin nfile)
  | exitCwd
  | exitZombie

structure Proc (nproc nfile nofile : ℕ) where
  state : ProcState
  ofile : Fin nofile → Option (Fin nfile)
  cwd : Option ℕ
  pc : Pc nproc nfile nofile

/-- Why the kernel stops: its panics, and what must not happen to a page or a null pointer. -/
inductive Stop
  | filedup
  | fileclose
  | fileread
  | filewrite
  /-- `pipeclose` on a page that is not allocated. -/
  | pipeclose
  /-- `kfree` of a page that is not allocated. -/
  | kfree
  /-- `p->cwd` is 0. -/
  | cwd
  deriving DecidableEq

/-- What happened to the page of a pipe. -/
inductive Note
  | alloc (pi : ℕ)
  | free (pi : ℕ)
  deriving DecidableEq

/-- The state; the notes are only recorded. -/
structure State (nproc nfile nofile : ℕ) where
  proc : Fin nproc → Proc nproc nfile nofile
  file : Fin nfile → File
  pipe : ℕ → Pipe
  /-- `ip->ref` -/
  iref : ℕ → ℤ
  stop : Option Stop
  notes : List Note

inductive Call (nproc : ℕ)
  | open (omode : BitVec 32)
  | dup (fd : ℤ)
  | close (fd : ℤ)
  | pipe
  | fork
  | exit
  | read (fd : ℤ)
  | write (fd : ℤ)
  /-- `wait` frees the process `j`. -/
  | wait (j : Fin nproc)

inductive Choice (nproc : ℕ)
  | go
  | call (c : Call nproc)
  /-- What `namei` or `create` returns. -/
  | inode (r : Option (ℕ × Inode))
  /-- What `kalloc` returns. -/
  | page (pi : Option ℕ)
  /-- Whether `uvmcopy` or `copyout` succeeds. -/
  | copied (ok : Bool)
  /-- What `allocproc` returns. -/
  | slot (j : Option (Fin nproc))

def O_RDONLY : BitVec 32 := 0x000
def O_WRONLY : BitVec 32 := 0x001
def O_RDWR : BitVec 32 := 0x002
def O_CREATE : BitVec 32 := 0x200
def NDEV : ℤ := 10

variable {nproc nfile nofile : ℕ}

namespace State

def setProc (s : State nproc nfile nofile) (i : Fin nproc) (p : Proc nproc nfile nofile) :
    State nproc nfile nofile :=
  { s with proc := Function.update s.proc i p }

def setPc (s : State nproc nfile nofile) (i : Fin nproc) (pc : Pc nproc nfile nofile) :
    State nproc nfile nofile :=
  s.setProc i { s.proc i with pc := pc }

def setFd (s : State nproc nfile nofile) (i : Fin nproc) (fd : Fin nofile) (f : Option (Fin nfile)) :
    State nproc nfile nofile :=
  s.setProc i { s.proc i with ofile := Function.update (s.proc i).ofile fd f }

def setState (s : State nproc nfile nofile) (i : Fin nproc) (x : ProcState) :
    State nproc nfile nofile :=
  s.setProc i { s.proc i with state := x }

def setFile (s : State nproc nfile nofile) (f : Fin nfile) (x : File) : State nproc nfile nofile :=
  { s with file := Function.update s.file f x }

def setPipe (s : State nproc nfile nofile) (pi : ℕ) (p : Pipe) : State nproc nfile nofile :=
  { s with pipe := Function.update s.pipe pi p }

def addRef (s : State nproc nfile nofile) (ip : ℕ) (n : ℤ) : State nproc nfile nofile :=
  { s with iref := Function.update s.iref ip (s.iref ip + n) }

def note (s : State nproc nfile nofile) (x : Note) : State nproc nfile nofile :=
  { s with notes := s.notes ++ [x] }

def halt (s : State nproc nfile nofile) (x : Stop) : State nproc nfile nofile := { s with stop := some x }

end State

/-! ## Files -/

def argfd (p : Proc nproc nfile nofile) (fd : ℤ) : Option (Fin nofile × Fin nfile) :=
  if h : 0 ≤ fd ∧ fd.toNat < nofile then (p.ofile ⟨fd.toNat, h.2⟩).map ((⟨fd.toNat, h.2⟩, ·)) else none

/-- `fdalloc`, before it sets the slot. -/
def fdalloc (ofile : Fin nofile → Option (Fin nfile)) : Option (Fin nofile) :=
  (List.finRange nofile).find? fun fd => ofile fd = none

/-- `filealloc`, before it sets the count. -/
def filealloc (s : State nproc nfile nofile) : Option (Fin nfile) :=
  (List.finRange nfile).find? fun f => (s.file f).ref = 0

def After.pc : After nfile nofile → Pc nproc nfile nofile
  | .ret => .user
  | .next f => .close f .ret
  | .iput ip => .iput ip .ret
  | .exit fd f => .exitClear fd f

variable (s : State nproc nfile nofile) (i : Fin nproc)

/-- `filedup(f)`, which returns to `pc`. -/
def filedup (f : Fin nfile) (pc : Pc nproc nfile nofile) : State nproc nfile nofile :=
  if (s.file f).ref < 1 then s.halt .filedup
  else (s.setFile f { s.file f with ref := (s.file f).ref + 1 }).setPc i pc

/-- `fileclose(f)` up to the release of `ftable.lock`. -/
def fileclose (f : Fin nfile) (after : After nfile nofile) : State nproc nfile nofile :=
  let ff := s.file f
  if ff.ref < 1 then s.halt .fileclose
  else if ff.ref - 1 > 0 then (s.setFile f { ff with ref := ff.ref - 1 }).setPc i after.pc
  else
    (s.setFile f { ff with ref := 0, type := .none }).setPc i <|
      match ff.type with
      | .pipe => .closePipe ff.pipe ff.writable after
      | .inode | .device => .iput ff.ip after
      | .none => after.pc

/-- `pipeclose` up to the release of the lock of the pipe. -/
def pipeclose (pi : ℕ) (writable : Bool) (after : After nfile nofile) : State nproc nfile nofile :=
  if (s.pipe pi).allocated = false then s.halt .pipeclose
  else
    let p := (s.pipe pi).close writable
    (s.setPipe pi p).setPc i (if p.readopen = false ∧ p.writeopen = false then .closeFree pi after else after.pc)

def kfree (pi : ℕ) (after : After nfile nofile) : State nproc nfile nofile :=
  if (s.pipe pi).allocated = false then s.halt .kfree
  else ((s.setPipe pi { s.pipe pi with allocated := false }).note (.free pi)).setPc i after.pc

/-! ## System calls -/

/-- What `open` writes to its file. -/
def opened (x : File) (omode : BitVec 32) (ip : ℕ) (inode : Inode) : File :=
  { x with
    type := if inode.type = .device then .device else .inode
    major := if inode.type = .device then inode.major else x.major
    ip := ip
    readable := omode &&& O_WRONLY = 0
    writable := omode &&& O_WRONLY ≠ 0 ∨ omode &&& O_RDWR ≠ 0 }

/-- `sys_open` after `argstr`. -/
def openCode (c : Choice nproc) : Pc nproc nfile nofile → Option (State nproc nfile nofile)
  | .openPath omode =>
    match c with
    | .inode none => some (s.setPc i .user)
    | .inode (some (ip, inode)) =>
      let s := s.addRef ip 1
      if omode &&& O_CREATE = 0 ∧ inode.type = .dir ∧ omode ≠ O_RDONLY then some (s.setPc i (.iput ip .ret))
      else if inode.type = .device ∧ (inode.major < 0 ∨ inode.major ≥ NDEV) then
        some (s.setPc i (.iput ip .ret))
      else some (s.setPc i (.openAlloc omode ip inode))
    | _ => none
  | .openAlloc omode ip inode =>
    match filealloc s with
    | none => some (s.setPc i (.iput ip .ret))
    | some f =>
      some ((s.setFile f { s.file f with ref := 1 }).setPc i (.openFd omode ip inode f))
  | .openFd omode ip inode f =>
    match fdalloc (s.proc i).ofile with
    | none => some (s.setPc i (.close f (.iput ip)))
    | some fd => some ((s.setFd i fd (some f)).setPc i (.openSet omode ip inode f fd))
  | .openSet omode ip inode f _ =>
    some ((s.setFile f (opened (s.file f) omode ip inode)).setPc i .user)
  | _ => none

/-- `sys_pipe`, with `pipealloc`. -/
def pipeCode (c : Choice nproc) : Pc nproc nfile nofile → Option (State nproc nfile nofile)
  | .pipeFirst =>
    match filealloc s with
    | none => some (s.setPc i .user)
    | some f => some ((s.setFile f { s.file f with ref := 1 }).setPc i (.pipeSecond f))
  | .pipeSecond f0 =>
    match filealloc s with
    | none => some (s.setPc i (.close f0 .ret))
    | some f => some ((s.setFile f { s.file f with ref := 1 }).setPc i (.pipePage f0 f))
  | .pipePage f0 f1 =>
    match c with
    | .page none => some (s.setPc i (.close f0 (.next f1)))
    | .page (some pi) =>
      -- `kalloc` returns a page that is not in use
      if (s.pipe pi).allocated then none
      else some (((s.setPipe pi ⟨true, true, true⟩).note (.alloc pi)).setPc i (.pipeRead f0 f1 pi))
    | _ => none
  | .pipeRead f0 f1 pi =>
    some ((s.setFile f0 { s.file f0 with type := .pipe, readable := true, writable := false, pipe := pi }).setPc i
      (.pipeWrite f0 f1 pi))
  | .pipeWrite f0 f1 pi =>
    some ((s.setFile f1 { s.file f1 with type := .pipe, readable := false, writable := true, pipe := pi }).setPc i
      (.pipeFds f0 f1))
  | .pipeFds f0 f1 =>
    match fdalloc (s.proc i).ofile with
    | none => some (s.setPc i (.close f0 (.next f1)))
    | some fd0 =>
      let s' := s.setFd i fd0 (some f0)
      match fdalloc (s'.proc i).ofile with
      | none => some ((s'.setFd i fd0 none).setPc i (.close f0 (.next f1)))
      | some fd1 => some ((s'.setFd i fd1 (some f1)).setPc i (.pipeCopy f0 f1 fd0 fd1))
  | .pipeCopy f0 f1 fd0 fd1 =>
    match c with
    | .copied ok =>
      if ok then some (s.setPc i .user)
      else some (((s.setFd i fd0 none).setFd i fd1 none).setPc i (.close f0 (.next f1)))
    | _ => none
  | _ => none

/-- `fork` -/
def forkCode (c : Choice nproc) : Pc nproc nfile nofile → Option (State nproc nfile nofile)
  | .fork =>
    match c with
    | .slot none => some (s.setPc i .user)
    | .slot (some j) =>
      if (s.proc j).state = .unused then some ((s.setState j .used).setPc i (.forkCopy j)) else none
    | _ => none
  | .forkCopy j =>
    match c with
    | .copied ok =>
      if ok then some (s.setPc i (.forkDup j 0)) else some ((s.setState j .unused).setPc i .user)
    | _ => none
  | .forkDup j fd =>
    if h : fd < nofile then
      match (s.proc i).ofile ⟨fd, h⟩ with
      | none => some (s.setPc i (.forkDup j (fd + 1)))
      | some f => some (filedup s i f (.forkSet j ⟨fd, h⟩ f))
    else some (s.setPc i (.forkCwd j))
  | .forkSet j fd f => some ((s.setFd j fd (some f)).setPc i (.forkDup j (fd + 1)))
  | .forkCwd j =>
    match (s.proc i).cwd with
    | none => some (s.halt .cwd)
    | some ip =>
      some (((s.addRef ip 1).setProc j { s.proc j with cwd := some ip }).setPc i (.forkRun j))
  | .forkRun j => some ((s.setState j .live).setPc i .user)
  | _ => none

/-- `exit` -/
def exitCode : Pc nproc nfile nofile → Option (State nproc nfile nofile)
  | .exitScan fd =>
    if h : fd < nofile then
      match (s.proc i).ofile ⟨fd, h⟩ with
      | none => some (s.setPc i (.exitScan (fd + 1)))
      | some f => some (s.setPc i (.close f (.exit ⟨fd, h⟩ f)))
    else some (s.setPc i .exitCwd)
  | .exitClear fd _ => some ((s.setFd i fd none).setPc i (.exitScan (fd + 1)))
  | .exitCwd =>
    match (s.proc i).cwd with
    | none => some (s.halt .cwd)
    | some ip =>
      some ((s.addRef ip (-1)).setProc i { s.proc i with cwd := none, pc := .exitZombie })
  | .exitZombie => some ((s.setState i .zombie).setPc i .user)
  | _ => none

/-- A system call, up to its first critical section. -/
def callCode : Call nproc → Option (State nproc nfile nofile)
  | .open omode => some (s.setPc i (.openPath omode))
  | .dup fd =>
    match argfd (s.proc i) fd with
    | none => some s
    | some (_, f) =>
      match fdalloc (s.proc i).ofile with
      | none => some s
      | some fd => some ((s.setFd i fd (some f)).setPc i (.dup f))
  | .close fd =>
    match argfd (s.proc i) fd with
    | none => some s
    | some (fd, f) => some ((s.setFd i fd none).setPc i (.close f .ret))
  | .pipe => some (s.setPc i .pipeFirst)
  | .fork => some (s.setPc i .fork)
  -- `exit` of the first process panics
  | .exit => if i.val = 0 then none else some (s.setPc i (.exitScan 0))
  | .read fd =>
    match argfd (s.proc i) fd with
    | none => some s
    | some (_, f) =>
      if (s.file f).readable = false then some s
      else if (s.file f).type = .none then some (s.halt .fileread)
      else some s
  | .write fd =>
    match argfd (s.proc i) fd with
    | none => some s
    | some (_, f) =>
      if (s.file f).writable = false then some s
      else if (s.file f).type = .none then some (s.halt .filewrite)
      else some s
  | .wait j => if (s.proc j).state = .zombie then some (s.setState j .unused) else none

/-- The next step of process `i` at the point `pc`. -/
def code (c : Choice nproc) (pc : Pc nproc nfile nofile) : Option (State nproc nfile nofile) :=
  match pc with
  | .user =>
    match c with
    | .call call => callCode s i call
    | _ => none
  | .dup f => some (filedup s i f .user)
  | .openPath _ | .openAlloc _ _ _ | .openFd _ _ _ _ | .openSet _ _ _ _ _ => openCode s i c pc
  | .pipeFirst | .pipeSecond _ | .pipePage _ _ | .pipeRead _ _ _ | .pipeWrite _ _ _ | .pipeFds _ _
  | .pipeCopy _ _ _ _ => pipeCode s i c pc
  | .close f after => some (fileclose s i f after)
  | .closePipe pi writable after => some (pipeclose s i pi writable after)
  | .closeFree pi after => some (kfree s i pi after)
  | .iput ip after => some ((s.addRef ip (-1)).setPc i after.pc)
  | .fork | .forkCopy _ | .forkDup _ _ | .forkSet _ _ _ | .forkCwd _ | .forkRun _ => forkCode s i c pc
  | .exitScan _ | .exitClear _ _ | .exitCwd | .exitZombie => exitCode s i pc

variable {s}

/-- One step of the system: a process that exists goes on, unless the kernel has stopped. -/
def step (s : State nproc nfile nofile) (e : Fin nproc × Choice nproc) : Option (State nproc nfile nofile) :=
  if s.stop = none ∧ (s.proc e.1).state = .live then code s e.1 e.2 (s.proc e.1).pc else none

/-- The state after `userinit`: the first process has the root directory open, and no file is in use. -/
structure State.Boot (s : State nproc nfile nofile) : Prop where
  stop : s.stop = none
  proc : ∀ i, (s.proc i).pc = .user ∧ (∀ fd, (s.proc i).ofile fd = none) ∧
    if i.val = 0 then (s.proc i).state = .live ∧ (s.proc i).cwd ≠ none
    else (s.proc i).state = .unused ∧ (s.proc i).cwd = none
  file : ∀ f, (s.file f).ref = 0 ∧ (s.file f).type = .none
  pipe : ∀ pi, s.pipe pi = ⟨false, false, false⟩
  iref : ∀ ip, s.iref ip = if ∃ i, (s.proc i).cwd = some ip then 1 else 0
  notes : s.notes = []

end Xv6.Files
