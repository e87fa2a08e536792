import Xv6.Fs.Dinode
import Xv6.Lib.Runs

/-!
# The inode table

`iget`, `idup`, `ilock`, `iupdate`, `iunlock`, `iput` and `ialloc` of `kernel/fs.c` as a state machine.
A step is a critical section of `itable.lock`, taking or releasing the sleep-lock of an entry, one
access to an inode block, or what a process does to an entry while it holds the sleep-lock.

A reference that is out may be used by any process, as the inode of an open file is by all who share
the file.  The processes keep to these rules: they duplicate, lock and put an inode only while a
reference is out, they put the last one only when nobody uses the inode, and they call `iupdate` after
a modification before they unlock.  Only `iput` clears the type of an inode.
-/

namespace Xv6.Itable

open Fs

/-- `struct inode` without its sleep-lock. -/
structure Entry where
  dev : ℕ
  inum : ℕ
  ref : ℤ
  valid : Bool
  copy : Dinode

/-- The point that a process has reached, named after what comes next. -/
inductive Pc (ninode : ℕ)
  | idle
  | ialloc (dev : ℕ) (type : BitVec 16) (inum : ℕ)
  | iget (dev inum : ℕ)
  | ilock (e : Fin ninode)
  /-- `ilock` holds the lock and is going to read the inode block. -/
  | load (e : Fin ninode)
  | iput (e : Fin ninode)
  /-- `itrunc` clears the addresses and the size. -/
  | trunc (e : Fin ninode)
  | truncUpdate (e : Fin ninode)
  | freeType (e : Fin ninode)
  | freeUpdate (e : Fin ninode)
  | invalidate (e : Fin ninode)
  | unlock (e : Fin ninode)
  | drop (e : Fin ninode)
  deriving DecidableEq

/-- The state.  No code reads the last three fields: `pool` counts the references that are out and not
in the hands of `iput`, `dirty` marks the entries modified since their last `iupdate`, and `new` has the
type of an inode that `ialloc` has initialised and nobody has modified or freed since. -/
structure State (nproc ninode : ℕ) where
  entry : Fin ninode → Entry
  /-- Who holds the sleep-lock. -/
  lock : Fin ninode → Option (Fin nproc)
  /-- The inodes in the inode blocks, by device and number. -/
  disk : ℕ → ℕ → Dinode
  pc : Fin nproc → Pc ninode
  pool : Fin ninode → ℕ
  dirty : Fin ninode → Bool
  new : ℕ → ℕ → Option (BitVec 16)

inductive Choice (ninode : ℕ)
  | go
  | iget (dev inum : ℕ)
  | idup (e : Fin ninode)
  | ilock (e : Fin ninode)
  | modify (e : Fin ninode) (d : Dinode)
  | iupdate (e : Fin ninode)
  | iunlock (e : Fin ninode)
  | iput (e : Fin ninode)
  | ialloc (dev : ℕ) (type : BitVec 16)

variable {nproc ninode : ℕ}

/-- The entry that `iput` is going to give up a reference to. -/
def Pc.drops : Pc ninode → Option (Fin ninode)
  | .iput e | .trunc e | .truncUpdate e | .freeType e | .freeUpdate e | .invalidate e | .unlock e
  | .drop e => some e
  | _ => none

/-- The entry that `iput` has locked. -/
def Pc.frees : Pc ninode → Option (Fin ninode)
  | .trunc e | .truncUpdate e | .freeType e | .freeUpdate e | .invalidate e | .unlock e => some e
  | _ => none

namespace State

/-- A process is in `ilock` for the entry or has it locked, other than in `iput`. -/
def Used (s : State nproc ninode) (e : Fin ninode) : Prop :=
  ∃ i, s.pc i = .ilock e ∨ s.pc i = .load e ∨ (s.lock e = some i ∧ (s.pc i).frees ≠ some e)

instance (s : State nproc ninode) (e : Fin ninode) : Decidable (s.Used e) := by
  unfold Used
  infer_instance

def setPc (s : State nproc ninode) (i : Fin nproc) (pc : Pc ninode) : State nproc ninode :=
  { s with pc := Function.update s.pc i pc }

def setEntry (s : State nproc ninode) (e : Fin ninode) (x : Entry) : State nproc ninode :=
  { s with entry := Function.update s.entry e x }

def setLock (s : State nproc ninode) (e : Fin ninode) (x : Option (Fin nproc)) : State nproc ninode :=
  { s with lock := Function.update s.lock e x }

def setPool (s : State nproc ninode) (e : Fin ninode) (n : ℕ) : State nproc ninode :=
  { s with pool := Function.update s.pool e n }

def setDirty (s : State nproc ninode) (e : Fin ninode) (x : Bool) : State nproc ninode :=
  { s with dirty := Function.update s.dirty e x }

def setDisk (s : State nproc ninode) (dev inum : ℕ) (d : Dinode) : State nproc ninode :=
  { s with disk := Function.update s.disk dev (Function.update (s.disk dev) inum d) }

def setNew (s : State nproc ninode) (dev inum : ℕ) (x : Option (BitVec 16)) : State nproc ninode :=
  { s with new := Function.update s.new dev (Function.update (s.new dev) inum x) }

/-- The inode in the inode block of an entry. -/
def dinode (s : State nproc ninode) (e : Fin ninode) : Dinode := s.disk (s.entry e).dev (s.entry e).inum

def setCopy (s : State nproc ninode) (e : Fin ninode) (d : Dinode) : State nproc ninode :=
  s.setEntry e { s.entry e with copy := d }

def iupdate (s : State nproc ninode) (e : Fin ninode) : State nproc ninode :=
  s.setDisk (s.entry e).dev (s.entry e).inum (s.entry e).copy

end State

/-- The largest `int`. -/
def INT_MAX : ℤ := 2 ^ 31 - 1

/-- `ip->ref++`; there is no step when the count overflows. -/
def addRef (s : State nproc ninode) (e : Fin ninode) : Option (State nproc ninode) :=
  if (s.entry e).ref = INT_MAX then none
  else some ((s.setEntry e { s.entry e with ref := (s.entry e).ref + 1 }).setPool e (s.pool e + 1))

def iget (s : State nproc ninode) (dev inum : ℕ) : Option (State nproc ninode) :=
  match (List.finRange ninode).find? fun e =>
      (s.entry e).ref > 0 ∧ (s.entry e).dev = dev ∧ (s.entry e).inum = inum with
  | some e => addRef s e
  | none =>
    match (List.finRange ninode).find? fun e => (s.entry e).ref = 0 with
    -- panics
    | none => none
    | some e =>
      some ((s.setEntry e { s.entry e with dev := dev, inum := inum, ref := 1, valid := false }).setPool e
        (s.pool e + 1))

/-- The critical section of `iput` up to the release of `itable.lock`. -/
def iput (s : State nproc ninode) (i : Fin nproc) (e : Fin ninode) : Option (State nproc ninode) :=
  let ip := s.entry e
  if ip.ref = 1 ∧ ip.valid = true ∧ ip.copy.nlink = 0 then
    if s.lock e = none then
      some (((s.setLock e (some i)).setNew ip.dev ip.inum none).setPc i (.trunc e))
    else none
  else some ((s.setEntry e { ip with ref := ip.ref - 1 }).setPc i .idle)

variable (ninodes : ℕ)

/-- What a process does outside of the calls with several steps. -/
def callCode (s : State nproc ninode) (i : Fin nproc) : Choice ninode → Option (State nproc ninode)
  | .go => none
  | .iget dev inum => some (s.setPc i (.iget dev inum))
  | .idup e => if 1 ≤ s.pool e then addRef s e else none
  | .ilock e => if 1 ≤ s.pool e ∧ 1 ≤ (s.entry e).ref then some (s.setPc i (.ilock e)) else none
  | .modify e d =>
    if s.lock e = some i ∧ d.type = (s.entry e).copy.type then
      some (((s.setCopy e d).setDirty e true).setNew (s.entry e).dev (s.entry e).inum none)
    else none
  | .iupdate e => if s.lock e = some i then some ((s.iupdate e).setDirty e false) else none
  | .iunlock e =>
    if s.lock e = some i ∧ 1 ≤ (s.entry e).ref ∧ s.dirty e = false then some (s.setLock e none) else none
  | .iput e =>
    if 1 ≤ s.pool e ∧ (s.pool e = 1 → ¬ s.Used e) then some ((s.setPool e (s.pool e - 1)).setPc i (.iput e))
    else none
  | .ialloc dev type => if type ≠ 0 then some (s.setPc i (.ialloc dev type 1)) else none

/-- The next step of process `i` at the point `pc`. -/
def code (s : State nproc ninode) (i : Fin nproc) (c : Choice ninode) : Pc ninode → Option (State nproc ninode)
  | .idle => callCode s i c
  | .ialloc dev type inum =>
    if inum < ninodes then
      if (s.disk dev inum).type = 0 then
        some (((s.setDisk dev inum (Dinode.fresh type)).setNew dev inum (some type)).setPc i (.iget dev inum))
      else some (s.setPc i (.ialloc dev type (inum + 1)))
    else some (s.setPc i .idle)
  | .iget dev inum => iget (s.setPc i .idle) dev inum
  | .ilock e =>
    if s.lock e = none then
      some ((s.setLock e (some i)).setPc i (if (s.entry e).valid then .idle else .load e))
    else none
  | .load e =>
    -- panics when the inode is free
    if (s.dinode e).type = 0 then none
    else some ((s.setEntry e { s.entry e with copy := s.dinode e, valid := true }).setPc i .idle)
  | .iput e => iput s i e
  | .trunc e =>
    some ((s.setCopy e { (s.entry e).copy with size := 0, addrs := fun _ => 0 }).setPc i (.truncUpdate e))
  | .truncUpdate e => some ((s.iupdate e).setPc i (.freeType e))
  | .freeType e => some ((s.setCopy e { (s.entry e).copy with type := 0 }).setPc i (.freeUpdate e))
  | .freeUpdate e => some ((s.iupdate e).setPc i (.invalidate e))
  | .invalidate e => some ((s.setEntry e { s.entry e with valid := false }).setPc i (.unlock e))
  | .unlock e => some ((s.setLock e none).setPc i (.drop e))
  | .drop e => some ((s.setEntry e { s.entry e with ref := (s.entry e).ref - 1 }).setPc i .idle)

def step (s : State nproc ninode) (x : Fin nproc × Choice ninode) : Option (State nproc ninode) :=
  code ninodes s x.1 x.2 (s.pc x.1)

/-- The table after `iinit`, with any inodes on the disk. -/
structure State.Boot (s : State nproc ninode) : Prop where
  entry : ∀ e, (s.entry e).ref = 0
  lock : ∀ e, s.lock e = none
  pc : ∀ i, s.pc i = .idle
  pool : ∀ e, s.pool e = 0
  dirty : ∀ e, s.dirty e = false
  new : ∀ dev inum, s.new dev inum = none

end Xv6.Itable
