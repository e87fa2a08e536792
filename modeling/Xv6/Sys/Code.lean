import Xv6.Vm.Code

/-!
# Processes, open files and pipes

The system calls that allocate and free pages: `kernel/proc.c`, `kernel/exec.c`, the pipe and
descriptor parts of `kernel/file.c`, `kernel/pipe.c` and `kernel/sysfile.c`.  A system call runs to
its end before the next one starts.  What the file system tells `exec` (whether the path names a
file, and what `readi` returns) and what `fetchaddr` and `fetchstr` find in user memory are inputs of
the call, and so are arbitrary.  Current directories, names and inode references are left out: they
own no pages.
-/

namespace Xv6.Sys

open Memory Kernel Kalloc Vm

def NPROC : ℕ := 64
def NOFILE : ℕ := 16
def NFILE : ℕ := 100
def MAXARG : ℕ := 32
def USERSTACK : ℕ := 1

/-- A place in the process table. -/
abbrev Slot := Fin NPROC

theorem nproc_pos : 0 < NPROC := by decide

inductive ProcState
  | unused | used | sleeping | runnable | running | zombie
  deriving DecidableEq

/-- A place in the file table. -/
abbrev FileId := Fin NFILE

structure Proc where
  state : ProcState
  pid : ℕ
  parent : Option Slot
  xstate : ℕ
  sz : ℕ
  pagetable : ℕ
  trapframe : ℕ
  ofile : Fin NOFILE → Option FileId

inductive FileType
  | none | pipe | inode | device
  deriving DecidableEq

structure File where
  type : FileType
  ref : ℕ
  readable : Bool
  writable : Bool
  /-- The page of the `struct pipe`. -/
  pipe : ℕ

/-- The fields of a `struct pipe` that decide about its page. -/
structure Pipe where
  readopen : Bool
  writeopen : Bool

/-- No code reads `boot`: it lists the pages taken at boot. -/
structure Kern where
  phys : Phys
  proc : Slot → Proc
  file : FileId → File
  pipe : ℕ → Pipe
  initproc : Option Slot
  nextpid : ℕ
  boot : List ℕ

abbrev KCode := Code String Kern

def vm {α : Type} (c : K α) : KCode α := zoom Kern.phys (fun k s => { k with phys := s }) c

def setProc (i : Slot) (f : Proc → Proc) : KCode Unit :=
  modify fun k => { k with proc := Function.update k.proc i (f (k.proc i)) }

def setFd (i : Slot) (fd : Fin NOFILE) (f : Option FileId) : KCode Unit :=
  setProc i fun p => { p with ofile := Function.update p.ofile fd f }

/-- The kernel in memory: its end, and the page of its text that holds the trampoline. -/
structure Image extends Layout where
  trampoline : ℕ
  trampoline_aligned : trampoline % PGSIZE = 0
  trampoline_lt : trampoline < kernelEnd

variable (L : Image)

/-! ## Page tables of processes -/

def procPagetable (trapframe : ℕ) : K ℕ := do
  let pagetable ← uvmcreate
  if pagetable = 0 then pure 0
  else do
    let r ← mappages pagetable TRAMPOLINE PGSIZE L.trampoline (PTE_R ||| PTE_X)
    if r < 0 then do
      uvmfree L.toLayout pagetable 0
      pure 0
    else do
      let r ← mappages pagetable TRAPFRAME PGSIZE trapframe (PTE_R ||| PTE_W)
      if r < 0 then do
        uvmunmap L.toLayout pagetable TRAMPOLINE 1 false
        uvmfree L.toLayout pagetable 0
        pure 0
      else pure pagetable

def procFreepagetable (pagetable sz : ℕ) : K Unit := do
  uvmunmap L.toLayout pagetable TRAMPOLINE 1 false
  uvmunmap L.toLayout pagetable TRAPFRAME 1 false
  uvmfree L.toLayout pagetable sz

/-! ## The process table -/

/-- The part of `freeproc` that frees the trapframe. -/
def freeTrapframe (i : Slot) : KCode Unit := do
  let k ← get
  if (k.proc i).trapframe = 0 then pure () else vm (kfree L.toLayout (k.proc i).trapframe)

/-- The part of `freeproc` that frees user memory. -/
def freePagetable (i : Slot) : KCode Unit := do
  let k ← get
  if (k.proc i).pagetable = 0 then pure ()
  else vm (procFreepagetable L (k.proc i).pagetable (k.proc i).sz)

def freeproc (i : Slot) : KCode Unit := do
  freeTrapframe L i
  setProc i fun p => { p with trapframe := 0 }
  freePagetable L i
  setProc i fun p =>
    { p with pagetable := 0, sz := 0, pid := 0, parent := none, xstate := 0, state := .unused }

def allocproc : KCode (Option Slot) := do
  let k ← get
  match (List.finRange NPROC).find? fun i => (k.proc i).state = .unused with
  | none => pure none
  | some i => do
    setProc i fun p => { p with pid := k.nextpid, state := .used }
    modify fun k => { k with nextpid := k.nextpid + 1 }
    let trapframe ← vm kalloc
    setProc i fun p => { p with trapframe := trapframe }
    if trapframe = 0 then do
      freeproc L i
      pure none
    else do
      let pagetable ← vm (procPagetable L trapframe)
      setProc i fun p => { p with pagetable := pagetable }
      if pagetable = 0 then do
        freeproc L i
        pure none
      else pure (some i)

/-- Offsets in `struct trapframe`, and its size. -/
def epcOff : ℕ := 24
def spOff : ℕ := 48
def a0Off : ℕ := 112
def a1Off : ℕ := 120
def trapframeSize : ℕ := 288

/-- `growproc`: the size is a 64-bit number, `n` a signed 32-bit one. -/
def growproc (i : Slot) (n : ℤ) : KCode ℤ := do
  let k ← get
  let p := k.proc i
  let newsz := ((p.sz + n) % 2 ^ 64).toNat
  if n > 0 then do
    let sz ← vm (uvmalloc L.toLayout p.pagetable p.sz newsz PTE_W)
    if sz = 0 then pure (-1)
    else do
      setProc i fun p => { p with sz := sz }
      pure 0
  else if n < 0 then do
    let sz ← vm (uvmdealloc L.toLayout p.pagetable p.sz newsz)
    setProc i fun p => { p with sz := sz }
    pure 0
  else pure 0

def sysSbrk (i : Slot) (n : ℤ) : KCode ℤ := do
  let k ← get
  let r ← growproc L i n
  if r < 0 then pure (-1) else pure ((k.proc i).sz : ℤ)

/-! ## Open files and pipes -/

def setFile (f : FileId) (g : File → File) : KCode Unit :=
  modify fun k => { k with file := Function.update k.file f (g (k.file f)) }

def filealloc : KCode (Option FileId) := do
  let k ← get
  match (List.finRange NFILE).find? fun f => (k.file f).ref = 0 with
  | none => pure none
  | some f => do
    setFile f fun x => { x with ref := 1 }
    pure (some f)

def filedup (f : FileId) : KCode Unit := do
  let k ← get
  if (k.file f).ref < 1 then throw "filedup"
  else setFile f fun x => { x with ref := x.ref + 1 }

def pipeclose (pi : ℕ) (writable : Bool) : KCode Unit := do
  let k ← get
  let p : Pipe := if writable then { k.pipe pi with writeopen := false }
    else { k.pipe pi with readopen := false }
  modify fun k => { k with pipe := Function.update k.pipe pi p }
  if !p.readopen && !p.writeopen then vm (kfree L.toLayout pi) else pure ()

def fileclose (f : FileId) : KCode Unit := do
  let k ← get
  let ff := k.file f
  if ff.ref < 1 then throw "fileclose"
  else if ff.ref > 1 then setFile f fun x => { x with ref := x.ref - 1 }
  else do
    setFile f fun x => { x with ref := 0, type := .none }
    if ff.type = .pipe then pipeclose L ff.pipe ff.writable else pure ()

def pipealloc : KCode (Option (FileId × FileId)) := do
  match ← filealloc with
  | none => pure none
  | some f0 => do
    match ← filealloc with
    | none => do
      fileclose L f0
      pure none
    | some f1 => do
      let pi ← vm kalloc
      if pi = 0 then do
        fileclose L f0
        fileclose L f1
        pure none
      else do
        modify fun k => { k with pipe := Function.update k.pipe pi ⟨true, true⟩ }
        setFile f0 fun x => { x with type := .pipe, readable := true, writable := false, pipe := pi }
        setFile f1 fun x => { x with type := .pipe, readable := false, writable := true, pipe := pi }
        pure (some (f0, f1))

def fdalloc (i : Slot) (f : FileId) : KCode (Option (Fin NOFILE)) := do
  let k ← get
  match (List.finRange NOFILE).find? fun fd => (k.proc i).ofile fd = none with
  | none => pure none
  | some fd => do
    setFd i fd (some f)
    pure (some fd)

/-- The bytes of a 32-bit number. -/
def bytes4 (n : ℕ) : List (BitVec 8) := (List.range 4).map fun i => BitVec.ofNat 8 (n / 256 ^ i)

/-- The two `copyout` calls of `sys_pipe`. -/
def copyoutFds (pagetable fdarray fd0 fd1 : ℕ) : K ℤ := do
  let r ← copyout pagetable fdarray (bytes4 fd0)
  if r < 0 then pure (-1)
  else copyout pagetable ((fdarray + 4) % 2 ^ 64) (bytes4 fd1)

def sysPipe (i : Slot) (fdarray : ℕ) : KCode ℤ := do
  match ← pipealloc L with
  | none => pure (-1)
  | some (rf, wf) => do
    match ← fdalloc i rf with
    | none => do
      fileclose L rf
      fileclose L wf
      pure (-1)
    | some fd0 => do
      match ← fdalloc i wf with
      | none => do
        setFd i fd0 none
        fileclose L rf
        fileclose L wf
        pure (-1)
      | some fd1 => do
        let k ← get
        let r ← vm (copyoutFds (k.proc i).pagetable fdarray fd0 fd1)
        if r < 0 then do
          setFd i fd0 none
          setFd i fd1 none
          fileclose L rf
          fileclose L wf
          pure (-1)
        else pure 0

def sysClose (i : Slot) (fd : Fin NOFILE) : KCode ℤ := do
  let k ← get
  match (k.proc i).ofile fd with
  | none => pure (-1)
  | some f => do
    setFd i fd none
    fileclose L f
    pure 0

def sysDup (i : Slot) (fd : Fin NOFILE) : KCode ℤ := do
  let k ← get
  match (k.proc i).ofile fd with
  | none => pure (-1)
  | some f => do
    match ← fdalloc i f with
    | none => pure (-1)
    | some fd' => do
      filedup f
      pure (fd' : ℕ)

/-- The part of `sys_open` that makes a descriptor for an inode it has found. -/
def openInode (i : Slot) (type : FileType) (readable writable : Bool) : KCode ℤ := do
  match ← filealloc with
  | none => pure (-1)
  | some f => do
    match ← fdalloc i f with
    | none => do
      fileclose L f
      pure (-1)
    | some fd => do
      setFile f fun x => { x with type := type, readable := readable, writable := writable }
      pure (fd : ℕ)


/-! ## `fork`, `exit` and `wait` -/

/-- The loop of `fork` over the open files of the parent. -/
def dupFiles (i j : Slot) : List (Fin NOFILE) → KCode Unit
  | [] => pure ()
  | fd :: fds => do
    let k ← get
    match (k.proc i).ofile fd with
    | none => dupFiles i j fds
    | some f => do
      filedup f
      setFd j fd (some f)
      dupFiles i j fds

/-- `*(np->trapframe) = *(p->trapframe)` and `np->trapframe->a0 = 0`. -/
def copyTrapframe (src dst : ℕ) : K Unit := do
  modify fun s => { s with mem := copy s.mem dst src trapframeSize }
  setWord (dst + a0Off) 0

def fork (i : Slot) : KCode ℤ := do
  match ← allocproc L with
  | none => pure (-1)
  | some j => do
    let k ← get
    let r ← vm (uvmcopy L.toLayout (k.proc i).pagetable (k.proc j).pagetable (k.proc i).sz)
    if r < 0 then do
      freeproc L j
      pure (-1)
    else do
      setProc j fun p => { p with sz := (k.proc i).sz }
      vm (copyTrapframe (k.proc i).trapframe (k.proc j).trapframe)
      dupFiles i j (List.finRange NOFILE)
      setProc j fun p => { p with parent := some i }
      setProc j fun p => { p with state := .runnable }
      pure ((k.proc j).pid : ℤ)

/-- The loop of `exit` over the open files. -/
def closeFiles (i : Slot) : List (Fin NOFILE) → KCode Unit
  | [] => pure ()
  | fd :: fds => do
    let k ← get
    match (k.proc i).ofile fd with
    | none => closeFiles i fds
    | some f => do
      fileclose L f
      setFd i fd none
      closeFiles i fds

def reparent (i : Slot) : KCode Unit := modify fun k =>
  { k with proc := fun j =>
      if (k.proc j).parent = some i then { k.proc j with parent := k.initproc } else k.proc j }

def exit (i : Slot) (status : ℕ) : KCode Unit := do
  let k ← get
  if k.initproc = some i then throw "init exiting"
  else do
    closeFiles L i (List.finRange NOFILE)
    reparent i
    setProc i fun p => { p with xstate := status, state := .zombie }

/-- `wait`; the result is `none` when the process has children and none of them has exited, so that
it sleeps and scans the table again later. -/
def wait (i : Slot) (addr : ℕ) : KCode (Option ℤ) := do
  let k ← get
  match (List.finRange NPROC).find? fun j =>
      (k.proc j).parent = some i ∧ (k.proc j).state = .zombie with
  | some j => do
    let r ← (if addr = 0 then pure 0
      else vm (copyout (k.proc i).pagetable addr (bytes4 (k.proc j).xstate)) : KCode ℤ)
    if r < 0 then pure (some (-1))
    else do
      freeproc L j
      pure (some ((k.proc j).pid : ℤ))
  | none =>
    if (List.finRange NPROC).any fun j => (k.proc j).parent = some i then pure none
    else pure (some (-1))

/-! ## `exec` -/

/-- What `readi` returns for an offset and a length: at most that many bytes. -/
abbrev Reader := ℕ → ℕ → List (BitVec 8)

def Reader.read (rd : Reader) (off n : ℕ) : List (BitVec 8) := (rd off n).take n

/-- The little-endian number of `w` bytes at offset `o`. -/
def field (bs : List (BitVec 8)) (o w : ℕ) : ℕ :=
  ((bs.drop o).take w).foldr (fun b n => b.toNat + 256 * n) 0

def ELF_MAGIC : ℕ := 0x464C457F
def ELF_PROG_LOAD : ℕ := 1

def flags2perm (flags : ℕ) : ℕ :=
  (if flags &&& 1 ≠ 0 then PTE_X else 0) ||| (if flags &&& 2 ≠ 0 then PTE_W else 0)

/-- The loop of `loadseg`, for the remaining number of pages. -/
def loadsegLoop (pagetable va : ℕ) (rd : Reader) (offset sz : ℕ) : ℕ → ℕ → K ℤ
  | 0, _ => pure 0
  | m + 1, i => do
    let pa ← walkaddr pagetable (va + i)
    if pa = 0 then throw "loadseg: address should exist"
    else
      let n := if sz - i < PGSIZE then sz - i else PGSIZE
      let bs := rd.read ((offset + i) % 2 ^ 32) n
      do
        modify fun s => { s with mem := write s.mem pa bs }
        if bs.length ≠ n then pure (-1) else loadsegLoop pagetable va rd offset sz m (i + PGSIZE)

/-- The parameters `offset` and `sz` of `loadseg` have 32 bits. -/
def loadseg (pagetable va : ℕ) (rd : Reader) (offset sz : ℕ) : K ℤ :=
  loadsegLoop pagetable va rd (offset % 2 ^ 32) (sz % 2 ^ 32)
    ((sz % 2 ^ 32 + (PGSIZE - 1)) / PGSIZE) 0

/-- The loop over the program headers: whether it went through, and the variable `sz` after it. -/
def loadLoop (pagetable : ℕ) (rd : Reader) : ℕ → ℕ → ℕ → K (Bool × ℕ)
  | 0, _, sz => pure (true, sz)
  | m + 1, off, sz =>
    let ph := rd.read off 56
    let vaddr := field ph 16 8
    let filesz := field ph 32 8
    let memsz := field ph 40 8
    if ph.length ≠ 56 then pure (false, sz)
    else if field ph 0 4 ≠ ELF_PROG_LOAD then loadLoop pagetable rd m ((off + 56) % 2 ^ 32) sz
    else if memsz < filesz then pure (false, sz)
    else if (vaddr + memsz) % 2 ^ 64 < vaddr then pure (false, sz)
    else if vaddr % PGSIZE ≠ 0 then pure (false, sz)
    else do
      let sz1 ← uvmalloc L.toLayout pagetable sz (vaddr + memsz) (flags2perm (field ph 4 4))
      if sz1 = 0 then pure (false, sz)
      else do
        let r ← loadseg pagetable vaddr rd (field ph 8 8) filesz
        if r < 0 then pure (false, sz1)
        else loadLoop pagetable rd m ((off + 56) % 2 ^ 32) sz1

/-- The string at an address of the kernel. -/
def strAt (m : Mem) (a : ℕ) : List (BitVec 8) := (read m a PGSIZE).takeWhile (· ≠ 0)

/-- `sp -= n; sp -= sp % 16` on 64-bit numbers. -/
def pushDown (sp n : ℕ) : ℕ :=
  let sp := (sp + 2 ^ 64 - n) % 2 ^ 64
  sp - sp % 16

/-- The loop that pushes the argument strings: the stack pointer and the pointers pushed so far. -/
def pushArgs (pagetable stackbase : ℕ) : List ℕ → ℕ → List ℕ → K (Option (ℕ × List ℕ))
  | [], sp, ustack => pure (some (sp, ustack))
  | a :: argv, sp, ustack =>
    if ustack.length ≥ MAXARG then pure none
    else do
      let s ← get
      let str := strAt s.mem a
      let sp := pushDown sp (str.length + 1)
      if sp < stackbase then pure none
      else do
        let r ← copyout pagetable sp (str ++ [0])
        if r < 0 then pure none else pushArgs pagetable stackbase argv sp (ustack ++ [sp])

/-- The bytes of an array of 64-bit numbers. -/
def words (ws : List ℕ) : List (BitVec 8) :=
  ws.flatMap fun w => (List.range 8).map fun i => BitVec.ofNat 8 (w / 256 ^ i)

/-- The stack and the arguments: the new stack pointer and the number of arguments, or `none` for
`goto bad`; and the variable `sz`. -/
def pushStack (pagetable : ℕ) (argv : List ℕ) (sz : ℕ) : K (Option (ℕ × ℕ) × ℕ) := do
  let sz := pgroundup sz
  let sz1 ← uvmalloc L.toLayout pagetable sz (sz + (USERSTACK + 1) * PGSIZE) PTE_W
  if sz1 = 0 then pure (none, sz)
  else do
    uvmclear pagetable (sz1 - (USERSTACK + 1) * PGSIZE)
    match ← pushArgs pagetable (sz1 - USERSTACK * PGSIZE) argv sz1 [] with
    | none => pure (none, sz1)
    | some (sp, ustack) =>
      let sp := pushDown sp ((ustack.length + 1) * 8)
      if sp < sz1 - USERSTACK * PGSIZE then pure (none, sz1)
      else do
        let r ← copyout pagetable sp (words (ustack ++ [0]))
        if r < 0 then pure (none, sz1) else pure (some (sp, ustack.length), sz1)

/-- The new user image, built in `pagetable`. -/
def loadImage (pagetable : ℕ) (rd : Reader) (elf : List (BitVec 8)) (argv : List ℕ) :
    K (Option (ℕ × ℕ) × ℕ) := do
  let (ok, sz) ← loadLoop L pagetable rd (field elf 56 2) (field elf 32 8 % 2 ^ 32) 0
  if ok then pushStack L pagetable argv sz else pure (none, sz)

/-- The stores of `exec` to the trapframe. -/
def setEntry (trapframe sp entry : ℕ) : K Unit := do
  setWord (trapframe + a1Off) sp
  setWord (trapframe + epcOff) entry
  setWord (trapframe + spOff) sp

/-- `exec` of the file `rd`, if the path names one. -/
def exec (i : Slot) (file : Option Reader) (argv : List ℕ) : KCode ℤ :=
  match file with
  | none => pure (-1)
  | some rd =>
    let elf := rd.read 0 64
    if elf.length ≠ 64 then pure (-1)
    else if field elf 0 4 ≠ ELF_MAGIC then pure (-1)
    else do
      let k ← get
      let p := k.proc i
      let pagetable ← vm (procPagetable L p.trapframe)
      if pagetable = 0 then pure (-1)
      else do
        match ← vm (loadImage L pagetable rd elf argv) with
        | (none, sz) => do
          vm (procFreepagetable L pagetable sz)
          pure (-1)
        | (some (sp, argc), sz) => do
          vm (setEntry p.trapframe sp (field elf 24 8))
          setProc i fun p => { p with pagetable := pagetable, sz := sz }
          vm (procFreepagetable L p.pagetable p.sz)
          pure (argc : ℤ)

/-- The loop of `sys_exec`: an argument is what `fetchstr` finds, `none` when it fails; `last` says
whether the loop ends with a null pointer or with a failed `fetchaddr`. -/
def fetchArgs (last : Bool) : List (Option (List (BitVec 8))) → List ℕ → K (Bool × List ℕ)
  | args, argv =>
    if argv.length ≥ MAXARG then pure (false, argv)
    else match args with
      | [] => pure (last, argv)
      | arg :: args => do
        let pg ← kalloc
        if pg = 0 then pure (false, argv)
        else match arg with
          | none => pure (false, argv ++ [pg])
          | some str => do
            modify fun s => { s with mem := write s.mem pg (str.take (PGSIZE - 1) ++ [0]) }
            fetchArgs last args (argv ++ [pg])

def sysExec (i : Slot) (file : Option Reader) (args : List (Option (List (BitVec 8))))
    (last : Bool) : KCode ℤ := do
  let (ok, argv) ← vm (fetchArgs last args [])
  let ret ← (if ok then exec L i file argv else pure (-1) : KCode ℤ)
  vm (freeAll L.toLayout argv)
  pure ret

/-! ## Boot -/

/-- The machine code of `user/initcode.S`. -/
def initcode : List (BitVec 8) :=
  [0x17, 0x05, 0x00, 0x00, 0x13, 0x05, 0x45, 0x02,
   0x97, 0x05, 0x00, 0x00, 0x93, 0x85, 0x35, 0x02,
   0x93, 0x08, 0x70, 0x00, 0x73, 0x00, 0x00, 0x00,
   0x93, 0x08, 0x20, 0x00, 0x73, 0x00, 0x00, 0x00,
   0xef, 0xf0, 0x9f, 0xff, 0x2f, 0x69, 0x6e, 0x69,
   0x74, 0x00, 0x00, 0x24, 0x00, 0x00, 0x00, 0x00,
   0x00, 0x00, 0x00, 0x00]

/-- The stores of `userinit` to the trapframe. -/
def setFirst (trapframe : ℕ) : K Unit := do
  setWord (trapframe + epcOff) 0
  setWord (trapframe + spOff) PGSIZE

/-- The first process; the result says whether there was memory for it. -/
def userinit : KCode Bool := do
  match ← allocproc L with
  | none => pure false
  | some i => do
    modify fun k => { k with initproc := some i }
    let k ← get
    let ok ← vm (uvmfirst (k.proc i).pagetable initcode)
    setProc i fun p => { p with sz := PGSIZE }
    vm (setFirst (k.proc i).trapframe)
    setProc i fun p => { p with state := .runnable }
    pure ok

/-- Pages for the kernel itself: its page table, the kernel stacks and the disk queues. -/
def takePages : ℕ → KCode Unit
  | 0 => pure ()
  | n + 1 => do
    let pg ← vm kalloc
    if pg = 0 then throw "kalloc"
    else do
      modify fun k => { k with boot := pg :: k.boot }
      takePages n

/-- The tables before `main` has run. -/
def start (m : Mem) : Kern where
  phys := ⟨m, 0, false⟩
  proc _ := ⟨.unused, 0, none, 0, 0, 0, 0, fun _ => none⟩
  file _ := ⟨.none, 0, false, false, 0⟩
  pipe _ := ⟨false, false⟩
  initproc := none
  nextpid := 1
  boot := []

/-- `main`, with `n` pages for the kernel itself. -/
def boot (n : ℕ) : KCode Bool := do
  vm (freeAll L.toLayout L.pages)
  takePages n
  userinit L

/-! ## Runs -/

/-- What a process can do.  A store of the user program passes the same checks of the page table as
`copyout`. -/
inductive Call
  | fork
  | exec (file : Option Reader) (args : List (Option (List (BitVec 8)))) (last : Bool)
  | sbrk (n : BitVec 32)
  | exit (status : ℕ)
  | wait (addr : ℕ)
  | pipe (fdarray : ℕ)
  | close (fd : Fin NOFILE)
  | dup (fd : Fin NOFILE)
  | openInode (device readable writable : Bool)
  | store (va : ℕ) (bytes : List (BitVec 8))

def storeUser (i : Slot) (va : ℕ) (bytes : List (BitVec 8)) : KCode ℤ := do
  let k ← get
  vm (copyout (k.proc i).pagetable va bytes)

/-- A call of process `i`; the result is `none` when it does not return. -/
def syscall (i : Slot) : Call → KCode (Option ℤ)
  | .fork => some <$> fork L i
  | .exec file args last => some <$> sysExec L i file args last
  | .sbrk n => some <$> sysSbrk L i n.toInt
  | .exit status => do
    exit L i status
    pure none
  | .wait addr => wait L i addr
  | .pipe fdarray => some <$> sysPipe L i fdarray
  | .close fd => some <$> sysClose L i fd
  | .dup fd => some <$> sysDup i fd
  | .openInode device readable writable =>
    some <$> openInode L i (if device then .device else .inode) readable writable
  | .store va bytes => some <$> storeUser i va bytes

/-- The kernel, and the message of its panic. -/
structure Machine where
  kern : Kern
  panic : Option String

structure Event where
  slot : Slot
  call : Call

/-- A process that can run makes a call. -/
def step (s : Machine) (e : Event) : Option Machine :=
  if s.panic.isSome ∨ (s.kern.proc e.slot).state ≠ .runnable then none
  else match syscall L e.slot e.call s.kern with
    | .ok (_, k) => some ⟨k, none⟩
    | .error msg => some ⟨s.kern, some msg⟩

end Xv6.Sys
