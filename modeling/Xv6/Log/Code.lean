import Xv6.Param
import Xv6.Lib.Bytes
import Xv6.Lib.Runs

/-!
# The log

`kernel/log.c` as a state machine.  Its steps are the critical sections of `log.lock`, the changes
that file-system operations make to cached blocks, and the single block writes of `commit` and of
`recover_from_log`; a crash may come between any two of them and takes everything but the disk.
Every `bwrite` is one atomic write, applied in program order.

The buffer cache is the map from block numbers to the content of their buffers; a buffer that is
neither locked nor pinned may be recycled at any time, and any block may be read at any time.
-/

namespace Xv6.Log

open Bytes

abbrev Disk := ℕ → Block

/-- `log.start` and `log.size`, as `initlog` takes them from the superblock. -/
structure Geometry where
  start : ℕ
  size : ℕ
  size_pos : 0 < size

/-- What `mkfs` puts into the superblock. -/
def mkfsGeometry : Geometry := ⟨2, LOGSIZE, by decide⟩

variable (G : Geometry)

/-- The blocks outside the log area, as 32-bit block numbers. -/
def Geometry.Home (b : ℕ) : Prop := (b < G.start ∨ G.start + G.size ≤ b) ∧ b < 2 ^ 32

instance (b : ℕ) : Decidable (G.Home b) := inferInstanceAs (Decidable (_ ∧ _))

/-! ## The header block -/

/-- The stores of `write_head` into the buffer of the header block. -/
def writeHeader (hb : Block) (lh : List ℕ) : Block :=
  (List.range lh.length).foldl (fun hb i => putLE 4 hb (4 + 4 * i) (lh.getD i 0))
    (putLE 4 hb 0 lh.length)

/-- The field `n` of the header as a signed `int`; a negative count makes no pass of a loop. -/
def headerCount (hb : Block) : ℕ := if getLE 4 hb 0 < 2 ^ 31 then getLE 4 hb 0 else 0

/-- The loads of `read_head`. -/
def readHeader (hb : Block) : List ℕ :=
  (List.range (headerCount hb)).map fun i => getLE 4 hb (4 + 4 * i)

/-! ## The state -/

/-- Where the process that runs `commit` is. -/
inductive Phase
  | idle
  /-- In `write_log`, with `tail` blocks copied. -/
  | writeLog (tail : ℕ)
  /-- In `install_trans(0)`, with `tail` blocks installed. -/
  | install (tail : ℕ)
  /-- `commit` has returned, `log.committing` is still set. -/
  | done
  deriving DecidableEq

/-- A locked buffer; `dirty` while its holder has changed it and not yet called `log_write`. -/
structure Hold where
  block : ℕ
  proc : ℕ
  dirty : Bool
  deriving DecidableEq

/-- What a crash loses: `struct log`, the buffer cache, and the operations in progress. -/
structure Mem where
  lh : List ℕ
  outstanding : ℤ
  committing : Bool
  phase : Phase
  cache : ℕ → Option Block
  pins : ℕ → ℕ
  held : List Hold
  ops : List ℕ

inductive Mode
  | up
  | panicked
  /-- After a crash, before `recover_from_log` has read the header. -/
  | down
  /-- In `install_trans(1)`, with `tail` blocks installed. -/
  | recovering (tail : ℕ)
  deriving DecidableEq

structure State where
  disk : Disk
  mem : Mem
  mode : Mode

def Mem.boot : Mem :=
  { lh := [], outstanding := 0, committing := false, phase := .idle, cache := fun _ => none,
    pins := fun _ => 0, held := [], ops := [] }

/-- The kernel after `initlog` on a disk. -/
def boot (d : Disk) : State := ⟨d, Mem.boot, .up⟩

/-! ## The operations -/

/-- The data of the buffer that `bread` returns for block `b`. -/
def bread (s : State) (b : ℕ) : Block := (s.mem.cache b).getD (s.disk b)

/-- `bwrite` of a buffer of block `b` whose data is `v`. -/
def bwrite (s : State) (b : ℕ) (v : Block) : State :=
  { s with
    disk := Function.update s.disk b v
    mem := { s.mem with cache := Function.update s.mem.cache b (some v) } }

/-- The critical section of `begin_op` that does not sleep. -/
def beginOp (p : ℕ) (s : State) : Option State :=
  if s.mem.committing then none
  else if s.mem.lh.length + (s.mem.outstanding + 1) * MAXOPBLOCKS > LOGSIZE then none
  else
    some { s with mem := { s.mem with
      outstanding := s.mem.outstanding + 1
      ops := p :: s.mem.ops } }

/-- Process `p` locks block `b`, unless it holds it already, and sets its data to `v`. -/
def modify (p b : ℕ) (v : Block) (s : State) : State :=
  { s with mem := { s.mem with
    cache := Function.update s.mem.cache b (some v)
    held := ⟨b, p, true⟩ :: s.mem.held.filter (·.block ≠ b) } }

def logWrite (p b : ℕ) (s : State) : State :=
  if s.mem.lh.length ≥ LOGSIZE ∨ (s.mem.lh.length : ℤ) ≥ (G.size : ℤ) - 1 then
    { s with mode := .panicked }
  else if s.mem.outstanding < 1 then { s with mode := .panicked }
  else
    let held := ⟨b, p, false⟩ :: s.mem.held.filter (·.block ≠ b)
    if b ∈ s.mem.lh then { s with mem := { s.mem with held := held } }
    else
      { s with mem := { s.mem with
        held := held
        lh := s.mem.lh ++ [b]
        pins := Function.update s.mem.pins b (s.mem.pins b + 1) } }

def brelse (b : ℕ) (s : State) : State :=
  { s with mem := { s.mem with held := s.mem.held.filter (·.block ≠ b) } }

/-- The first critical section of `end_op`. -/
def endOp (p : ℕ) (s : State) : State :=
  let m := { s.mem with outstanding := s.mem.outstanding - 1, ops := s.mem.ops.erase p }
  if m.committing then { s with mem := m, mode := .panicked }
  else if m.outstanding = 0 then
    { s with mem := { m with
      committing := true
      phase := if m.lh.length > 0 then .writeLog 0 else .done } }
  else { s with mem := m }

/-- One pass of `write_log`. -/
def writeLog (tail : ℕ) (s : State) : State :=
  let s := bwrite s (G.start + tail + 1) (bread s (s.mem.lh.getD tail 0))
  { s with mem := { s.mem with phase := .writeLog (tail + 1) } }

/-- `write_head`. -/
def writeHead (s : State) : State := bwrite s G.start (writeHeader (bread s G.start) s.mem.lh)

/-- One pass of `install_trans(0)`. -/
def installTrans (tail : ℕ) (s : State) : State :=
  let b := s.mem.lh.getD tail 0
  let s := bwrite s b (bread s (G.start + tail + 1))
  { s with mem := { s.mem with
    pins := Function.update s.mem.pins b (s.mem.pins b - 1)
    phase := .install (tail + 1) } }

/-- One pass of `install_trans(1)`. -/
def recoverInstall (tail : ℕ) (s : State) : State :=
  { bwrite s (s.mem.lh.getD tail 0) (bread s (G.start + tail + 1)) with
    mode := .recovering (tail + 1) }

/-! ## Steps -/

inductive Event
  | beginOp (p : ℕ)
  | modify (p b : ℕ) (v : Block)
  | logWrite (p b : ℕ)
  | brelse (p b : ℕ)
  | endOp (p : ℕ)
  /-- Some process reads block `b` and releases it. -/
  | read (b : ℕ)
  /-- The buffer of block `b` is recycled. -/
  | evict (b : ℕ)
  /-- `commit` copies one block to the log. -/
  | writeLog
  /-- `commit` writes the header: the commit point. -/
  | writeHead
  /-- `commit` copies one block home. -/
  | install
  /-- `commit` erases the header. -/
  | clearHead
  /-- `end_op` clears `log.committing`. -/
  | commitDone
  | crash
  | readHead
  | recoverInstall
  | recoverClear

/-- The steps of a running kernel. -/
def stepUp (s : State) : Event → Option State
  | .beginOp p => if p ∈ s.mem.ops then none else beginOp p s
  | .modify p b v =>
    if p ∈ s.mem.ops ∧ G.Home b ∧ ∀ h ∈ s.mem.held, h.block = b → h.proc = p
    then some (modify p b v s) else none
  | .logWrite p b =>
    if p ∈ s.mem.ops ∧ ∃ h ∈ s.mem.held, h.block = b ∧ h.proc = p
    then some (logWrite G p b s) else none
  | .brelse p b =>
    if ∃ h ∈ s.mem.held, h.block = b ∧ h.proc = p ∧ h.dirty = false
    then some (brelse b s) else none
  | .endOp p =>
    if p ∈ s.mem.ops ∧ ∀ h ∈ s.mem.held, h.proc ≠ p then some (endOp p s) else none
  | .read b =>
    some { s with mem := { s.mem with cache := Function.update s.mem.cache b (some (bread s b)) } }
  | .evict b =>
    if s.mem.pins b = 0 ∧ ∀ h ∈ s.mem.held, h.block ≠ b
    then some { s with mem := { s.mem with cache := Function.update s.mem.cache b none } } else none
  | .writeLog =>
    match s.mem.phase with
    | .writeLog tail => if tail < s.mem.lh.length then some (writeLog G tail s) else none
    | _ => none
  | .writeHead =>
    match s.mem.phase with
    | .writeLog tail =>
      if tail < s.mem.lh.length then none
      else
        let s := writeHead G s
        some { s with mem := { s.mem with phase := .install 0 } }
    | _ => none
  | .install =>
    match s.mem.phase with
    | .install tail => if tail < s.mem.lh.length then some (installTrans G tail s) else none
    | _ => none
  | .clearHead =>
    match s.mem.phase with
    | .install tail =>
      if tail < s.mem.lh.length then none
      else
        let s := writeHead G { s with mem := { s.mem with lh := [] } }
        some { s with mem := { s.mem with phase := .done } }
    | _ => none
  | .commitDone =>
    if s.mem.phase = .done then
      some { s with mem := { s.mem with committing := false, phase := .idle } }
    else none
  | _ => none

/-- The steps of `recover_from_log`, which runs on an empty cache. -/
def stepRecover (s : State) : Event → Option State
  | .readHead =>
    if s.mode = .down then
      some { s with
        mem := { Mem.boot with lh := readHeader (s.disk G.start) }
        mode := .recovering 0 }
    else none
  | .recoverInstall =>
    match s.mode with
    | .recovering tail => if tail < s.mem.lh.length then some (recoverInstall G tail s) else none
    | _ => none
  | .recoverClear =>
    match s.mode with
    | .recovering tail =>
      if tail < s.mem.lh.length then none
      else some { writeHead G { s with mem := { s.mem with lh := [] } } with mode := .up }
    | _ => none
  | _ => none

def step (s : State) (e : Event) : Option State :=
  match e with
  | .crash => some { s with mem := Mem.boot, mode := .down }
  | e => if s.mode = .up then stepUp G s e else stepRecover G s e

end Xv6.Log
