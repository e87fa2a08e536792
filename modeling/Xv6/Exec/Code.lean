import Xv6.Sys.Code

/-!
# `exec` with everything it touches

`exec` of `kernel/exec.c` over memory and the process table as in `Xv6.Sys.Code`, and now also the
transaction it runs in, the inode that it locks and the name of the process.  What `namei` finds is an
input: no inode, or one with arbitrary contents, of which it returns a reference.
-/

namespace Xv6.Exec

open Memory Kernel Kalloc Vm Sys

inductive LogCall
  | beginOp
  | endOp
  deriving DecidableEq

/-- The state: `log` lists the calls of `begin_op` and `end_op`, `iref` and `ilocked` are the reference
counts and the sleep-locks of the inode table. -/
structure State where
  kern : Kern
  name : Slot → List (BitVec 8)
  iref : ℕ → ℕ
  ilocked : ℕ → Bool
  log : List LogCall

abbrev X := Code String State

def phys {α : Type} (c : K α) : X α :=
  zoom (fun st => st.kern.phys) (fun st s => { st with kern := { st.kern with phys := s } }) c

def setProc (i : Slot) (f : Proc → Proc) : X Unit := modify fun st =>
  { st with kern := { st.kern with proc := Function.update st.kern.proc i (f (st.kern.proc i)) } }

def logCall (c : LogCall) : X Unit := modify fun st => { st with log := st.log ++ [c] }

/-! ## Inodes -/

/-- A file: its entry of the inode table, and what `readi` returns. -/
structure File where
  ip : ℕ
  read : Reader

def namei : Option File → X (Option File)
  | none => pure none
  | some f => do
    modify fun st => { st with iref := Function.update st.iref f.ip (st.iref f.ip + 1) }
    pure (some f)

def ilock (ip : ℕ) : X Unit := do
  let st ← get
  if st.iref ip < 1 then throw "ilock"
  else if st.ilocked ip then throw "deadlock"
  else set { st with ilocked := Function.update st.ilocked ip true }

def iunlock (ip : ℕ) : X Unit := do
  let st ← get
  if !st.ilocked ip ∨ st.iref ip < 1 then throw "iunlock"
  else set { st with ilocked := Function.update st.ilocked ip false }

def iput (ip : ℕ) : X Unit :=
  modify fun st => { st with iref := Function.update st.iref ip (st.iref ip - 1) }

def iunlockput (ip : ℕ) : X Unit := do
  iunlock ip
  iput ip

/-! ## `exec` -/

def slash : BitVec 8 := 47

/-- The loop that finds the last part of the path. -/
def lastLoop : List (BitVec 8) → List (BitVec 8) → List (BitVec 8)
  | [], last => last
  | c :: s, last => lastLoop s (if c = slash then s else last)

/-- `safestrcpy` of the last part of the path to the 16 bytes of `p->name`. -/
def setName (i : Slot) (path : List (BitVec 8)) : X Unit :=
  modify fun st => { st with name := Function.update st.name i ((lastLoop path path).take 15) }

variable (L : Image)

/-- The label `bad`, with the variables `pagetable`, `sz` and `ip`. -/
def bad (pagetable sz : ℕ) (ip : Option ℕ) : X ℤ := do
  if pagetable = 0 then pure () else phys (procFreepagetable L pagetable sz)
  match ip with
  | none => pure (-1)
  | some ip => do
    iunlockput ip
    logCall .endOp
    pure (-1)

/-- From the stack on: the inode has been put and the transaction has ended. -/
def finish (i : Slot) (path : List (BitVec 8)) (argv : List ℕ) (entry pagetable sz : ℕ) : X ℤ := do
  match ← phys (pushStack L pagetable argv sz) with
  | (none, sz) => bad L pagetable sz none
  | (some (sp, argc), sz) => do
    let st ← get
    let p := st.kern.proc i
    phys (setWord (p.trapframe + a1Off) sp)
    setName i path
    setProc i fun p => { p with pagetable := pagetable, sz := sz }
    phys (setWord (p.trapframe + epcOff) entry)
    phys (setWord (p.trapframe + spOff) sp)
    phys (procFreepagetable L p.pagetable p.sz)
    pure (argc : ℤ)

/-- From the ELF header on: the inode is locked. -/
def load (i : Slot) (path : List (BitVec 8)) (f : File) (argv : List ℕ) : X ℤ :=
  let elf := f.read.read 0 64
  if elf.length ≠ 64 then bad L 0 0 (some f.ip)
  else if field elf 0 4 ≠ ELF_MAGIC then bad L 0 0 (some f.ip)
  else do
    let st ← get
    let pagetable ← phys (procPagetable L (st.kern.proc i).trapframe)
    if pagetable = 0 then bad L 0 0 (some f.ip)
    else do
      let (ok, sz) ← phys (loadLoop L pagetable f.read (field elf 56 2) (field elf 32 8 % 2 ^ 32) 0)
      if ok then do
        iunlockput f.ip
        logCall .endOp
        finish L i path argv (field elf 24 8) pagetable sz
      else bad L pagetable sz (some f.ip)

def exec (i : Slot) (path : List (BitVec 8)) (file : Option File) (argv : List ℕ) : X ℤ := do
  logCall .beginOp
  match ← namei file with
  | none => do
    logCall .endOp
    pure (-1)
  | some f => do
    ilock f.ip
    load L i path f argv

/-- `sys_exec`, with what `argstr` finds of the path, and the arguments as for `Sys.fetchArgs`. -/
def sysExec (i : Slot) (path : Option (List (BitVec 8))) (file : Option File)
    (args : List (Option (List (BitVec 8)))) (last : Bool) : X ℤ :=
  match path with
  | none => pure (-1)
  | some path => do
    let (ok, argv) ← phys (fetchArgs last args [])
    let ret ← (if ok then exec L i path file argv else pure (-1) : X ℤ)
    phys (freeAll L.toLayout argv)
    pure ret

end Xv6.Exec
