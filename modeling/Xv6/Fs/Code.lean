import Xv6.Fs.Layout
import Xv6.Lib.Kernel
import Xv6.Lib.UserMemory

/-!
# Inodes and directories

`kernel/fs.c`, with `log_write`, `begin_op` and `end_op` of `kernel/log.c` as one process at a time sees
them, and the functions of `kernel/sysfile.c` that only work on inodes.  There is one device.

The disk is what the code sees through the buffer cache.  `committed` is the disk that recovery restores
after a crash: a transaction copies the blocks that it has logged to it when it ends.

`log_write` panics when the log has no room.  Here it records that in `tooBig` and goes on, and `endOp`
panics: nothing of a transaction that does not end can be seen.
-/

namespace Xv6.Fs

open Kernel Memory

def NINODE : ℕ := 50

instance : NeZero NINODE := ⟨by decide⟩

/-- The length of a directory entry's name. -/
def DIRSIZ : ℕ := 14

def T_DIR : BitVec 16 := 1
def T_FILE : BitVec 16 := 2
def T_DEVICE : BitVec 16 := 3

/-- What stops the kernel. -/
inductive Panic
  /-- "too big a transaction" -/
  | tooBig
  /-- "log_write outside of trans" -/
  | outsideTrans
  /-- "freeing free block" -/
  | freeingFree
  /-- "bmap: out of range" -/
  | bmapRange
  /-- "iget: no inodes" -/
  | igetNoInodes
  /-- "ilock" -/
  | ilock
  /-- "ilock: no type" -/
  | ilockNoType
  /-- "iunlock" -/
  | iunlock
  /-- "dirlookup not DIR" -/
  | dirlookupNotDir
  /-- "dirlookup read" -/
  | dirlookupRead
  /-- "dirlink read" -/
  | dirlinkRead
  /-- "isdirempty: readi" -/
  | isdiremptyReadi
  /-- "unlink: nlink < 1" -/
  | unlinkNlink
  /-- "unlink: writei" -/
  | unlinkWritei
  /-- "filedup" -/
  | filedup
  /-- "fileclose" -/
  | fileclose
  /-- "fileread" -/
  | fileread
  /-- "filewrite" -/
  | filewrite
  /-- The process waits for a sleep-lock that it holds. -/
  | deadlock
  deriving DecidableEq

/-- `struct inode`; `copy` has the fields that are a copy of the disk inode. -/
structure Inode where
  inum : ℕ
  ref : ℕ
  locked : Bool
  valid : Bool
  copy : Dinode

/-- The transaction: `log.lh.block`, and whether `log_write` has panicked with "too big a transaction". -/
structure Log where
  blocks : List ℕ
  tooBig : Bool
  deriving DecidableEq

structure State (U : Type) where
  disk : Mem
  inode : Fin NINODE → Inode
  /-- `log.outstanding` -/
  outstanding : ℕ
  log : Log
  committed : Mem
  /-- The memory of the process that runs. -/
  user : U

abbrev F (U : Type) := Code Panic (State U)

variable {U : Type}

namespace State

def setDisk (s : State U) (m : Mem) : State U := { s with disk := m }

def setInode (s : State U) (e : Fin NINODE) (x : Inode) : State U :=
  { s with inode := Function.update s.inode e x }

/-- Change the copy of the disk inode. -/
def setCopy (s : State U) (e : Fin NINODE) (d : Dinode) : State U :=
  s.setInode e { s.inode e with copy := d }

/-- Change the disk, the copy of a disk inode and the log. -/
def put (s : State U) (e : Fin NINODE) (m : Mem) (d : Dinode) (l : Log) : State U :=
  { s.setCopy e d with
    disk := m
    log := l }

end State

variable (sb : Superblock)

/-! ## The log -/

def beginOp : F U Unit := modify fun s => { s with outstanding := s.outstanding + 1 }

/-- The disk `old` with the blocks `bs` of `m`. -/
def install (m : Mem) (bs : List ℕ) (old : Mem) : Mem := fun x => if x / BSIZE ∈ bs then m x else old x

def endOp : F U Unit := do
  let s ← get
  if s.log.tooBig then throw .tooBig
  else if s.outstanding = 1 then
    set { s with
      outstanding := 0
      log := ⟨[], false⟩
      committed := install s.disk s.log.blocks s.committed }
  else set { s with outstanding := s.outstanding - 1 }

/-- The number of blocks that the log has room for. -/
def Superblock.logCap : ℕ := min LOGSIZE (sb.nlog - 1)

/-- The log after `log_write` of block `b`. -/
def Log.add (l : Log) (b : ℕ) : Log where
  blocks := if b ∈ l.blocks then l.blocks else l.blocks ++ [b]
  tooBig := l.tooBig || decide (sb.logCap ≤ l.blocks.length)

def logWrite (b : ℕ) : F U Unit := do
  let s ← get
  if s.outstanding < 1 then throw .outsideTrans
  else set { s with log := s.log.add sb b }

/-! ## Blocks -/

def bzero (bno : ℕ) : F U Unit := do
  modify fun s => s.setDisk (fill s.disk (bno * BSIZE) BSIZE 0)
  logWrite sb bno

/-- The two loops of `balloc` visit the blocks of the disk in order. -/
def balloc : F U ℕ := do
  let s ← get
  match (List.range sb.size).find? fun b => !bit sb s.disk b with
  | none => pure 0
  | some b => do
    set (s.setDisk (setBit sb s.disk b))
    logWrite sb (sb.bblock b)
    bzero sb b
    pure b

def bfree (b : ℕ) : F U Unit := do
  let s ← get
  if bit sb s.disk b then do
    set (s.setDisk (clearBit sb s.disk b))
    logWrite sb (sb.bblock b)
  else throw .freeingFree

/-! ## Inodes -/

def iget (inum : ℕ) : F U (Fin NINODE) := do
  let s ← get
  match (List.finRange NINODE).find? fun e => 0 < (s.inode e).ref ∧ (s.inode e).inum = inum with
  | some e => do
    set (s.setInode e { s.inode e with ref := (s.inode e).ref + 1 })
    pure e
  | none =>
    match (List.finRange NINODE).find? fun e => (s.inode e).ref = 0 with
    | none => throw .igetNoInodes
    | some e => do
      set (s.setInode e { s.inode e with inum := inum, ref := 1, valid := false })
      pure e

def ialloc (type : BitVec 16) : F U (Option (Fin NINODE)) := do
  let s ← get
  match (List.range sb.ninodes).find? fun inum => 1 ≤ inum ∧ (dinode sb s.disk inum).type = 0 with
  | none => pure none
  | some inum => do
    let a := inodeAddr sb inum
    set (s.setDisk (store 2 (fill s.disk a 64 0) a type.toNat))
    logWrite sb (sb.iblock inum)
    let e ← iget inum
    pure (some e)

def iupdate (e : Fin NINODE) : F U Unit := do
  let s ← get
  let inum := (s.inode e).inum
  set (s.setDisk (writeDinode s.disk (inodeAddr sb inum) (s.inode e).copy))
  logWrite sb (sb.iblock inum)

def idup (e : Fin NINODE) : F U (Fin NINODE) := do
  let s ← get
  set (s.setInode e { s.inode e with ref := (s.inode e).ref + 1 })
  pure e

def acquiresleep (e : Fin NINODE) : F U Unit := do
  let s ← get
  if (s.inode e).locked then throw .deadlock
  else set (s.setInode e { s.inode e with locked := true })

def ilock (e : Fin NINODE) : F U Unit := do
  let s ← get
  if (s.inode e).ref < 1 then throw .ilock
  else do
    acquiresleep e
    let s ← get
    if (s.inode e).valid then pure ()
    else do
      let d := dinode sb s.disk (s.inode e).inum
      set (s.setInode e { s.inode e with valid := true, copy := d })
      if d.type = 0 then throw .ilockNoType else pure ()

def iunlock (e : Fin NINODE) : F U Unit := do
  let s ← get
  if (s.inode e).locked ∧ 1 ≤ (s.inode e).ref then
    set (s.setInode e { s.inode e with locked := false })
  else throw .iunlock

/-- Change a field of the copy. -/
def modifyCopy (e : Fin NINODE) (f : Dinode → Dinode) : F U Unit :=
  modify fun s => s.setCopy e (f (s.inode e).copy)

def bmap (e : Fin NINODE) (bn : ℕ) : F U ℕ := do
  let s ← get
  if bn < NDIRECT then
    let addr := (s.inode e).copy.addr bn
    if addr = 0 then do
      let addr ← balloc sb
      if addr = 0 then pure 0
      else do
        modifyCopy e fun d => d.setAddr bn addr
        pure addr
    else pure addr
  else
    let bn := bn - NDIRECT
    if bn < NINDIRECT then do
      let addr ← indirect s
      if addr = 0 then pure 0
      else entry addr bn
    else throw .bmapRange
where
  /-- Load the indirect block, allocating if necessary. -/
  indirect (s : State U) : F U ℕ :=
    let addr := (s.inode e).copy.addr NDIRECT
    if addr = 0 then do
      let addr ← balloc sb
      if addr = 0 then pure 0
      else do
        modifyCopy e fun d => d.setAddr NDIRECT addr
        pure addr
    else pure addr
  /-- The entry of the indirect block, allocating if necessary. -/
  entry (block bn : ℕ) : F U ℕ := do
    let s ← get
    let addr := load 4 s.disk (entryAddr block bn)
    if addr = 0 then do
      let addr ← balloc sb
      if addr = 0 then pure 0
      else do
        modify fun s => s.setDisk (store 4 s.disk (entryAddr block bn) addr)
        logWrite sb block
        pure addr
    else pure addr

/-- The loop of `itrunc` over the direct addresses from `i` on. -/
def truncDirect (e : Fin NINODE) : ℕ → ℕ → F U Unit
  | 0, _ => pure ()
  | k + 1, i => do
    let s ← get
    let addr := (s.inode e).copy.addr i
    if addr = 0 then truncDirect e k (i + 1)
    else do
      bfree sb addr
      modifyCopy e fun d => d.setAddr i 0
      truncDirect e k (i + 1)

/-- The loop of `itrunc` over the entries of the indirect block from `j` on. -/
def truncEntries (block : ℕ) : ℕ → ℕ → F U Unit
  | 0, _ => pure ()
  | k + 1, j => do
    let s ← get
    let addr := load 4 s.disk (entryAddr block j)
    if addr = 0 then truncEntries block k (j + 1)
    else do
      bfree sb addr
      truncEntries block k (j + 1)

def truncIndirect (e : Fin NINODE) : F U Unit := do
  let s ← get
  let addr := (s.inode e).copy.addr NDIRECT
  if addr = 0 then pure ()
  else do
    truncEntries sb addr NINDIRECT 0
    bfree sb addr
    modifyCopy e fun d => d.setAddr NDIRECT 0

def itrunc (e : Fin NINODE) : F U Unit := do
  truncDirect sb e NDIRECT 0
  truncIndirect sb e
  modifyCopy e fun d => { d with size := 0 }
  iupdate sb e

/-- `iput` gives the inode up: it has no links and no other references. -/
def ifree (e : Fin NINODE) : F U Unit := do
  acquiresleep e
  itrunc sb e
  modifyCopy e fun d => { d with type := 0 }
  iupdate sb e
  modify fun s => s.setInode e { s.inode e with valid := false, locked := false }

def iput (e : Fin NINODE) : F U Unit := do
  let s ← get
  if (s.inode e).ref = 1 ∧ (s.inode e).valid ∧ (s.inode e).copy.nlink = 0 then ifree sb e
  modify fun s => s.setInode e { s.inode e with ref := (s.inode e).ref - 1 }

def iunlockput (e : Fin NINODE) : F U Unit := do
  iunlock e
  iput sb e

/-! ## Content -/

/-- Where `writei` gets its bytes from: user memory or a buffer in the kernel. -/
inductive Source
  | user (va : ℕ)
  | kernel (bytes : List (BitVec 8))

/-- Where `readi` puts its bytes. -/
inductive Dest
  | user (va : ℕ)
  | kernel

variable [UserMemory U]

/-- `either_copyout` of bytes to the destination from `tot` on. -/
def eitherCopyout (dst : Dest) (tot : ℕ) (bytes : List (BitVec 8)) : F U ℤ :=
  match dst with
  | .kernel => pure 0
  | .user va => do
    let s ← get
    let r := UserMemory.copyout s.user (UserMemory.wrap va tot) bytes
    set { s with user := r.2 }
    pure r.1

/-- The loop of `readi`, and what has been copied out. -/
def readLoop (e : Fin NINODE) (dst : Dest) (n : ℕ) : ℕ → ℕ → ℕ → List (BitVec 8) → F U (ℤ × List (BitVec 8))
  | 0, tot, _, out => pure (tot, out)
  | fuel + 1, tot, off, out =>
    if tot < n then do
      let addr ← bmap sb e (off / BSIZE)
      if addr = 0 then pure ((tot : ℤ), out)
      else do
        let s ← get
        let m := min (n - tot) (BSIZE - off % BSIZE)
        let bytes := read s.disk (addr * BSIZE + off % BSIZE) m
        let r ← eitherCopyout dst tot bytes
        if r = -1 then pure (-1, out)
        else readLoop e dst n fuel (tot + m) (off + m) (out ++ bytes)
    else pure (tot, out)

def readi (e : Fin NINODE) (dst : Dest) (off n : ℕ) : F U (ℤ × List (BitVec 8)) := do
  let s ← get
  let size := (s.inode e).copy.size.toNat
  if size < off ∨ (off + n) % 2 ^ 32 < off then pure (0, [])
  else
    let n := if size < off + n then size - off else n
    readLoop sb e dst n n 0 off []

/-- `either_copyin` of `m` bytes of the source from `tot` on: the result, and the bytes that have been
copied. -/
def eitherCopyin (u : U) (src : Source) (tot m : ℕ) : ℤ × List (BitVec 8) :=
  match src with
  | .kernel bytes => (0, (bytes.drop tot).take m)
  | .user va => UserMemory.copyin u (UserMemory.wrap va tot) m

/-- The loop of `writei`: the number of bytes written, and the offset behind them. -/
def writeLoop (e : Fin NINODE) (src : Source) (n : ℕ) : ℕ → ℕ → ℕ → F U (ℕ × ℕ)
  | 0, tot, off => pure (tot, off)
  | fuel + 1, tot, off =>
    if tot < n then do
      let addr ← bmap sb e (off / BSIZE)
      if addr = 0 then pure (tot, off)
      else do
        let s ← get
        let m := min (n - tot) (BSIZE - off % BSIZE)
        let r := eitherCopyin s.user src tot m
        set (s.setDisk (write s.disk (addr * BSIZE + off % BSIZE) r.2))
        if r.1 = -1 then pure (tot, off)
        else do
          logWrite sb addr
          writeLoop e src n fuel (tot + m) (off + m)
    else pure (tot, off)

def writei (e : Fin NINODE) (src : Source) (off n : ℕ) : F U ℤ := do
  let s ← get
  if (s.inode e).copy.size.toNat < off ∨ (off + n) % 2 ^ 32 < off then pure (-1)
  else if MAXFILE * BSIZE < off + n then pure (-1)
  else do
    let (tot, off) ← writeLoop sb e src n n 0 off
    modifyCopy e fun d => if d.size.toNat < off then { d with size := BitVec.ofNat 32 off } else d
    iupdate sb e
    pure tot

/-! ## Directories -/

/-- `strncmp`; behind the end of a string there is a null. -/
def strncmp : List (BitVec 8) → List (BitVec 8) → ℕ → ℤ
  | _, _, 0 => 0
  | p, q, n + 1 =>
    if p.headD 0 ≠ 0 ∧ p.headD 0 = q.headD 0 then strncmp p.tail q.tail n
    else (p.headD 0).toNat - (q.headD 0).toNat

def namecmp (s t : List (BitVec 8)) : ℤ := strncmp s t DIRSIZ

/-- The bytes that `strncpy` stores. -/
def strncpy : List (BitVec 8) → ℕ → List (BitVec 8)
  | _, 0 => []
  | t, n + 1 => if t.headD 0 = 0 then List.replicate (n + 1) 0 else t.headD 0 :: strncpy t.tail n

/-- `struct dirent` -/
structure Dirent where
  inum : ℕ
  name : List (BitVec 8)
  deriving DecidableEq

def Dirent.bytes (de : Dirent) : List (BitVec 8) :=
  BitVec.ofNat 8 de.inum :: BitVec.ofNat 8 (de.inum / 256) :: de.name

def Dirent.ofBytes (bs : List (BitVec 8)) : Dirent where
  inum := (bs.getD 0 0).toNat + 256 * (bs.getD 1 0).toNat
  name := bs.drop 2

/-- `sizeof(struct dirent)` -/
def DESIZE : ℕ := 2 + DIRSIZ

/-- Read the entry at `off`; anything but a whole entry is a panic. -/
def readDirent (e : Fin NINODE) (off : ℕ) (panic : Panic) : F U Dirent := do
  let r ← readi sb e .kernel off DESIZE
  if r.1 ≠ DESIZE then throw panic else pure (.ofBytes r.2)

/-- The loop of `dirlookup` from `off` on. -/
def dirlookupLoop (dp : Fin NINODE) (name : List (BitVec 8)) : ℕ → ℕ → F U (Option (Fin NINODE × ℕ))
  | 0, _ => pure none
  | fuel + 1, off => do
    let s ← get
    if off < (s.inode dp).copy.size.toNat then do
      let de ← readDirent sb dp off .dirlookupRead
      if de.inum = 0 then dirlookupLoop dp name fuel (off + DESIZE)
      else if namecmp name de.name = 0 then do
        let ip ← iget de.inum
        pure (some (ip, off))
      else dirlookupLoop dp name fuel (off + DESIZE)
    else pure none

/-- The inode and the offset of the entry. -/
def dirlookup (dp : Fin NINODE) (name : List (BitVec 8)) : F U (Option (Fin NINODE × ℕ)) := do
  let s ← get
  if (s.inode dp).copy.type ≠ T_DIR then throw .dirlookupNotDir
  else dirlookupLoop sb dp name ((s.inode dp).copy.size.toNat / DESIZE + 1) 0

/-- The loop of `dirlink` that looks for an empty entry from `off` on. -/
def dirlinkLoop (dp : Fin NINODE) : ℕ → ℕ → F U ℕ
  | 0, off => pure off
  | fuel + 1, off => do
    let s ← get
    if off < (s.inode dp).copy.size.toNat then do
      let de ← readDirent sb dp off .dirlinkRead
      if de.inum = 0 then pure off else dirlinkLoop dp fuel (off + DESIZE)
    else pure off

def dirlink (dp : Fin NINODE) (name : List (BitVec 8)) (inum : ℕ) : F U ℤ := do
  match ← dirlookup sb dp name with
  | some (ip, _) => do
    iput sb ip
    pure (-1)
  | none => do
    let s ← get
    let off ← dirlinkLoop sb dp ((s.inode dp).copy.size.toNat / DESIZE + 1) 0
    let de : Dirent := ⟨inum % 2 ^ 16, strncpy name DIRSIZ⟩
    let r ← writei sb dp (.kernel de.bytes) off DESIZE
    if r ≠ DESIZE then pure (-1) else pure 0

/-- The loop of `isdirempty` from `off` on. -/
def isdiremptyLoop (dp : Fin NINODE) : ℕ → ℕ → F U Bool
  | 0, _ => pure true
  | fuel + 1, off => do
    let s ← get
    if off < (s.inode dp).copy.size.toNat then do
      let de ← readDirent sb dp off .isdiremptyReadi
      if de.inum ≠ 0 then pure false else isdiremptyLoop dp fuel (off + DESIZE)
    else pure true

def isdirempty (dp : Fin NINODE) : F U Bool := do
  let s ← get
  isdiremptyLoop sb dp ((s.inode dp).copy.size.toNat / DESIZE + 1) (2 * DESIZE)

/-! ## Paths -/

/-- `'/'` -/
def slash : BitVec 8 := 0x2f

/-- `"."` -/
def dot : List (BitVec 8) := [0x2e]

/-- `".."` -/
def dotdot : List (BitVec 8) := [0x2e, 0x2e]

/-- The path after its first element, and that element. -/
def skipelem (path : List (BitVec 8)) : Option (List (BitVec 8) × List (BitVec 8)) :=
  let path := path.dropWhile (· == slash)
  if path = [] then none
  else
    let elem := path.takeWhile (· != slash)
    some ((path.drop elem.length).dropWhile (· == slash), elem.take DIRSIZ)

/-- The loop of `namex`: an inode, and the last path element if it is the parent that is looked up. -/
def namexLoop (nameiparent : Bool) :
    ℕ → Fin NINODE → List (BitVec 8) → F U (Option (Fin NINODE × List (BitVec 8)))
  | 0, _, _ => pure none
  | fuel + 1, ip, path =>
    match skipelem path with
    | none =>
      if nameiparent then do
        iput sb ip
        pure none
      else pure (some (ip, []))
    | some (path, name) => do
      ilock sb ip
      let s ← get
      if (s.inode ip).copy.type ≠ T_DIR then do
        iunlockput sb ip
        pure none
      else if nameiparent ∧ path = [] then do
        iunlock ip
        pure (some (ip, name))
      else
        match ← dirlookup sb ip name with
        | none => do
          iunlockput sb ip
          pure none
        | some (next, _) => do
          iunlockput sb ip
          namexLoop nameiparent fuel next path

def namex (cwd : Fin NINODE) (path : List (BitVec 8)) (nameiparent : Bool) :
    F U (Option (Fin NINODE × List (BitVec 8))) := do
  let ip ← if path.head? = some slash then iget ROOTINO else idup cwd
  namexLoop sb nameiparent (path.length + 1) ip path

def namei (cwd : Fin NINODE) (path : List (BitVec 8)) : F U (Option (Fin NINODE)) := do
  let r ← namex sb cwd path false
  pure (r.map Prod.fst)

def nameiparent (cwd : Fin NINODE) (path : List (BitVec 8)) :
    F U (Option (Fin NINODE × List (BitVec 8))) := namex sb cwd path true

/-! ## System calls -/

/-- `sys_link` after its arguments have been fetched. -/
def link (cwd : Fin NINODE) (old new : List (BitVec 8)) : F U ℤ := do
  beginOp
  match ← namei sb cwd old with
  | none => do
    endOp
    pure (-1)
  | some ip => do
    ilock sb ip
    let s ← get
    if (s.inode ip).copy.type = T_DIR then do
      iunlockput sb ip
      endOp
      pure (-1)
    else do
      modifyCopy ip fun d => { d with nlink := d.nlink + 1 }
      iupdate sb ip
      iunlock ip
      match ← nameiparent sb cwd new with
      | none => bad ip
      | some (dp, name) => do
        ilock sb dp
        let s ← get
        let r ← dirlink sb dp name (s.inode ip).inum
        if r < 0 then do
          iunlockput sb dp
          bad ip
        else do
          iunlockput sb dp
          iput sb ip
          endOp
          pure 0
where
  bad (ip : Fin NINODE) : F U ℤ := do
    ilock sb ip
    modifyCopy ip fun d => { d with nlink := d.nlink - 1 }
    iupdate sb ip
    iunlockput sb ip
    endOp
    pure (-1)

/-- `sys_unlink` after its argument has been fetched. -/
def unlink (cwd : Fin NINODE) (path : List (BitVec 8)) : F U ℤ := do
  beginOp
  match ← nameiparent sb cwd path with
  | none => do
    endOp
    pure (-1)
  | some (dp, name) => do
    ilock sb dp
    if namecmp name dot = 0 ∨ namecmp name dotdot = 0 then bad dp
    else
      match ← dirlookup sb dp name with
      | none => bad dp
      | some (ip, off) => do
        ilock sb ip
        let s ← get
        if (s.inode ip).copy.nlink.toInt < 1 then throw .unlinkNlink
        else if (s.inode ip).copy.type = T_DIR then do
          let empty ← isdirempty sb ip
          if empty then do
            clear dp off
            modifyCopy dp fun d => { d with nlink := d.nlink - 1 }
            iupdate sb dp
            drop dp ip
          else do
            iunlockput sb ip
            bad dp
        else do
          clear dp off
          drop dp ip
where
  bad (dp : Fin NINODE) : F U ℤ := do
    iunlockput sb dp
    endOp
    pure (-1)
  /-- Zero the entry. -/
  clear (dp : Fin NINODE) (off : ℕ) : F U Unit := do
    let r ← writei sb dp (.kernel (List.replicate DESIZE 0)) off DESIZE
    if r ≠ DESIZE then throw .unlinkWritei else pure ()
  drop (dp ip : Fin NINODE) : F U ℤ := do
    iunlockput sb dp
    modifyCopy ip fun d => { d with nlink := d.nlink - 1 }
    iupdate sb ip
    iunlockput sb ip
    endOp
    pure 0

def create (cwd : Fin NINODE) (path : List (BitVec 8)) (type major minor : BitVec 16) :
    F U (Option (Fin NINODE)) := do
  match ← nameiparent sb cwd path with
  | none => pure none
  | some (dp, name) => do
    ilock sb dp
    match ← dirlookup sb dp name with
    | some (ip, _) => do
      iunlockput sb dp
      ilock sb ip
      let s ← get
      let found := (s.inode ip).copy.type
      if type = T_FILE ∧ (found = T_FILE ∨ found = T_DEVICE) then pure (some ip)
      else do
        iunlockput sb ip
        pure none
    | none => do
      match ← ialloc sb type with
      | none => do
        iunlockput sb dp
        pure none
      | some ip => do
        ilock sb ip
        modifyCopy ip fun d => { d with major := major, minor := minor, nlink := 1 }
        iupdate sb ip
        let r ← if type = T_DIR then dots dp ip else pure 0
        if r < 0 then fail dp ip
        else do
          let s ← get
          let r ← dirlink sb dp name (s.inode ip).inum
          if r < 0 then fail dp ip
          else do
            if type = T_DIR then do
              modifyCopy dp fun d => { d with nlink := d.nlink + 1 }
              iupdate sb dp
            iunlockput sb dp
            pure (some ip)
where
  /-- Create the entries `.` and `..`. -/
  dots (dp ip : Fin NINODE) : F U ℤ := do
    let s ← get
    let r ← dirlink sb ip dot (s.inode ip).inum
    if r < 0 then pure r
    else do
      let s ← get
      dirlink sb ip dotdot (s.inode dp).inum
  /-- Something went wrong: free the new inode. -/
  fail (dp ip : Fin NINODE) : F U (Option (Fin NINODE)) := do
    modifyCopy ip fun d => { d with nlink := 0 }
    iupdate sb ip
    iunlockput sb ip
    iunlockput sb dp
    pure none

/-- `sys_mkdir` and `sys_mknod`; there is no path if `argstr` fails. -/
def mkinode (cwd : Fin NINODE) (path : Option (List (BitVec 8))) (type major minor : BitVec 16) : F U ℤ := do
  beginOp
  match path with
  | none => do
    endOp
    pure (-1)
  | some path => do
    match ← create sb cwd path type major minor with
    | none => do
      endOp
      pure (-1)
    | some ip => do
      iunlockput sb ip
      endOp
      pure 0

def mkdir (cwd : Fin NINODE) (path : Option (List (BitVec 8))) : F U ℤ := mkinode sb cwd path T_DIR 0 0

def mknod (cwd : Fin NINODE) (path : Option (List (BitVec 8))) (major minor : BitVec 16) : F U ℤ :=
  mkinode sb cwd path T_DEVICE major minor

end Xv6.Fs
