import Xv6.Lib.Runs
import Xv6.Lib.Fifo

/-!
# The virtio disk

`kernel/virtio_disk.c` with a device, for any number of processes.  Code under `vdisk_lock` is cut where it
touches what it shares with the device: the two rings and their indices.  `sleep` releases the lock, may
return at any time, and takes the lock again, so `wakeup` does nothing here.

The device reads the heads of chains from the `avail` ring in order, performs the requests in any order and
puts the heads of completed ones into the `used` ring, entry first and index afterwards.

A process calls `virtio_disk_rw` with the sleep-lock of the buffer held, as `bread` and `bwrite` do.
-/

namespace Xv6.Virtio

def NUM : ℕ := 8

/-- What the address in a descriptor points to. -/
inductive Addr
  | null
  /-- `&disk.ops[i]` -/
  | op (i : ℕ)
  /-- `b->data` -/
  | data (b : ℕ)
  /-- `&disk.info[i].status` -/
  | status (i : ℕ)
  deriving DecidableEq

structure Desc where
  addr : Addr
  len : ℕ
  flags : BitVec 16
  next : ℕ

def VRING_DESC_F_NEXT : BitVec 16 := 1
def VRING_DESC_F_WRITE : BitVec 16 := 2

/-- `struct virtio_blk_req`; `out` is `type == VIRTIO_BLK_T_OUT`. -/
structure Op where
  out : Bool
  sector : ℕ

structure Info where
  b : Option ℕ
  status : BitVec 8

/-- The `avail` ring, with heads of chains, or the `used` ring, with ids. -/
structure Ring where
  idx : BitVec 16
  ring : ℕ → ℕ

/-- Why the kernel stops: its panics, a null `info[].b`, and a chain that the device cannot read. -/
inductive Stop
  | freeDesc1
  | freeDesc2
  | status
  | nullBuf
  | badChain
  deriving DecidableEq

/-! ## Descriptors -/

/-- `disk.desc` and `disk.free`. -/
structure Table where
  desc : ℕ → Desc
  free : ℕ → Bool

def Table.take (t : Table) (i : ℕ) : Table := { t with free := Function.update t.free i false }

/-- The descriptor is cleared and free. -/
def Table.put (t : Table) (i : ℕ) : Table :=
  ⟨Function.update t.desc i ⟨.null, 0, 0, 0⟩, Function.update t.free i true⟩

def allocDesc (t : Table) : Option (ℕ × Table) :=
  ((List.range NUM).find? t.free).map fun i => (i, t.take i)

def freeDesc (t : Table) (i : ℕ) : Except Stop Table :=
  if i ≥ NUM then .error .freeDesc1
  else if t.free i then .error .freeDesc2
  else .ok (t.put i)

/-- The loop of `free_chain`; no more than `NUM` descriptors can be freed before it panics. -/
def freeChain : ℕ → Table → ℕ → Except Stop Table
  | 0, t, _ => .ok t
  | fuel + 1, t, i => do
    let d := t.desc i
    let t ← freeDesc t i
    if d.flags &&& VRING_DESC_F_NEXT ≠ 0 then freeChain fuel t d.next else .ok t

def alloc3Desc (t : Table) : Except Stop (Option (ℕ × ℕ × ℕ) × Table) :=
  match allocDesc t with
  | none => .ok (none, t)
  | some (i0, t) =>
    match allocDesc t with
    | none => do
      let t ← freeDesc t i0
      .ok (none, t)
    | some (i1, t) =>
      match allocDesc t with
      | none => do
        let t ← freeDesc t i0
        let t ← freeDesc t i1
        .ok (none, t)
      | some (i2, t) => .ok (some (i0, i1, i2), t)

/-! ## The state -/

/-- The arguments of `virtio_disk_rw`. -/
structure Call where
  b : ℕ
  write : Bool
  blockno : BitVec 32

/-- A call with the descriptors in `idx`.  No code reads `id`, which tells requests apart. -/
structure Req extends Call where
  i0 : ℕ
  i1 : ℕ
  i2 : ℕ
  id : ℕ

/-- What the device does for a request. -/
structure Transfer where
  b : ℕ
  out : Bool
  sector : ℕ
  deriving DecidableEq

/-- `b->blockno * (BSIZE / 512)` -/
def sector (blockno : BitVec 32) : ℕ := (blockno * 2).toNat

def Req.transfer (q : Req) : Transfer := ⟨q.b, q.write, sector q.blockno⟩

/-- The point that a process has reached, in `virtio_disk_rw` or in `virtio_disk_intr`. -/
inductive Pc
  | idle
  /-- Taking the lock at the start, or in `sleep(&disk.free[0], …)`. -/
  | rwLock (c : Call)
  | alloc (c : Call)
  | format (q : Req)
  | ring (q : Req)
  | publish (q : Req)
  | wait (q : Req)
  /-- In `sleep(b, …)`. -/
  | waitLock (q : Req)
  | finish (q : Req)
  | rwUnlock (q : Req)
  | intrLock
  | intrLoop
  | intrEntry
  | intrUnlock

/-- The state of driver, device and processes.  `tag`, `served`, `cleared` and `returned` only record: the
request of each head, what the device has done for each request, the requests for which
`virtio_disk_intr` has cleared `b->disk`, and those whose `virtio_disk_rw` has returned. -/
structure State where
  table : Table
  avail : Ring
  used : Ring
  usedIdx : BitVec 16
  info : ℕ → Info
  ops : ℕ → Op
  lock : Option ℕ
  /-- `b->disk` -/
  disk : ℕ → Bool
  /-- The holder of `b->lock`. -/
  bufLock : ℕ → Option ℕ
  pc : ℕ → Pc
  /-- How far the device has read the `avail` ring. -/
  seen : BitVec 16
  fetched : List ℕ
  performed : List ℕ
  /-- The head that the device has put into the `used` ring before it increments the index. -/
  writing : Option ℕ
  stop : Option Stop
  nextId : ℕ
  tag : ℕ → ℕ
  served : List (ℕ × Transfer)
  cleared : List ℕ
  returned : List Req

/-- The state after `virtio_disk_init`. -/
def State.initial (desc : ℕ → Desc) (info : ℕ → Info) (ops : ℕ → Op) : State where
  table := ⟨desc, fun i => i < NUM⟩
  avail := ⟨0, fun _ => 0⟩
  used := ⟨0, fun _ => 0⟩
  usedIdx := 0
  info := info
  ops := ops
  lock := none
  disk := fun _ => false
  bufLock := fun _ => none
  pc := fun _ => .idle
  seen := 0
  fetched := []
  performed := []
  writing := none
  stop := none
  nextId := 0
  tag := fun _ => 0
  served := []
  cleared := []
  returned := []

def State.goto (s : State) (p : ℕ) (pc : Pc) : State := { s with pc := Function.update s.pc p pc }

def State.acquire (s : State) (p : ℕ) (pc : Pc) : Option State :=
  if s.lock = none then some ({ s with lock := some p }.goto p pc) else none

def State.release (s : State) (p : ℕ) (pc : Pc) : State := { s with lock := none }.goto p pc

/-! ## Steps -/

/-- The part of `virtio_disk_rw` that formats the descriptors. -/
def format (s : State) (q : Req) : State :=
  { s with
    ops := Function.update s.ops q.i0 ⟨q.write, sector q.blockno⟩
    table := { s.table with
      desc := Function.update (Function.update (Function.update s.table.desc
        q.i0 ⟨.op q.i0, 16, VRING_DESC_F_NEXT, q.i1⟩)
        q.i1 ⟨.data q.b, 1024, (if q.write then 0 else VRING_DESC_F_WRITE) ||| VRING_DESC_F_NEXT, q.i2⟩)
        q.i2 ⟨.status q.i0, 1, VRING_DESC_F_WRITE, 0⟩ }
    info := Function.update s.info q.i0 ⟨some q.b, 0xff⟩
    disk := Function.update s.disk q.b true
    tag := Function.update s.tag q.i0 q.id }

/-- The body of the loop of `virtio_disk_intr`. -/
def intrEntry (s : State) (p : ℕ) : State :=
  let id := s.used.ring (s.usedIdx.toNat % NUM)
  if (s.info id).status ≠ 0 then { s with stop := some .status }
  else match (s.info id).b with
    | none => { s with stop := some .nullBuf }
    | some b =>
      { s with
        disk := Function.update s.disk b false
        usedIdx := s.usedIdx + 1
        cleared := s.cleared ++ [s.tag id] }.goto p .intrLoop

/-- The next step of process `p`. -/
def go (s : State) (p : ℕ) : Option State :=
  match s.pc p with
  | .idle => none
  | .rwLock c => s.acquire p (.alloc c)
  | .alloc c =>
    match alloc3Desc s.table with
    | .error e => some { s with stop := some e }
    | .ok (none, t) => some ({ s with table := t }.release p (.rwLock c))
    | .ok (some (i0, i1, i2), t) =>
      some ({ s with table := t, nextId := s.nextId + 1 }.goto p (.format ⟨c, i0, i1, i2, s.nextId⟩))
  | .format q => some ((format s q).goto p (.ring q))
  | .ring q =>
    some ({ s with avail := { s.avail with
      ring := Function.update s.avail.ring (s.avail.idx.toNat % NUM) q.i0 } }.goto p (.publish q))
  | .publish q => some ({ s with avail := { s.avail with idx := s.avail.idx + 1 } }.goto p (.wait q))
  | .wait q => if s.disk q.b then some (s.release p (.waitLock q)) else some (s.goto p (.finish q))
  | .waitLock q => s.acquire p (.wait q)
  | .finish q =>
    match freeChain (NUM + 1) s.table q.i0 with
    | .error e => some { s with stop := some e }
    | .ok t =>
      some ({ s with
        table := t
        info := Function.update s.info q.i0 { s.info q.i0 with b := none } }.goto p (.rwUnlock q))
  | .rwUnlock q => some ({ s with returned := s.returned ++ [q] }.release p .idle)
  | .intrLock => s.acquire p .intrLoop
  | .intrLoop => some (s.goto p (if s.usedIdx = s.used.idx then .intrUnlock else .intrEntry))
  | .intrEntry => some (intrEntry s p)
  | .intrUnlock => some (s.release p .idle)

/-- The device performs the request of the chain at `h`: it reads the chain and sets the status. -/
def perform (s : State) (h : ℕ) : State :=
  let d0 := s.table.desc h
  let d1 := s.table.desc d0.next
  let d2 := s.table.desc d1.next
  match d0.addr, d1.addr, d2.addr with
  | .op i, .data b, .status j =>
    { s with
      fetched := s.fetched.erase h
      performed := s.performed ++ [h]
      info := Function.update s.info j { s.info j with status := 0 }
      served := s.served ++ [(s.tag h, ⟨b, (s.ops i).out, (s.ops i).sector⟩)] }
  | _, _, _ => { s with stop := some .badChain }

inductive Event
  /-- `acquiresleep` and `releasesleep` of a buffer. -/
  | lockBuf (p b : ℕ)
  | unlockBuf (p b : ℕ)
  | call (p : ℕ) (c : Call)
  | intr (p : ℕ)
  | go (p : ℕ)
  /-- The device reads an entry of the `avail` ring. -/
  | fetch
  | perform (h : ℕ)
  /-- The device writes an entry of the `used` ring, and increments the index. -/
  | put (h : ℕ)
  | complete

/-- One step, unless the kernel has stopped. -/
def step (s : State) (e : Event) : Option State :=
  if s.stop ≠ none then none
  else match e with
    | .lockBuf p b =>
      match s.pc p with
      | .idle =>
        if s.bufLock b = none then some { s with bufLock := Function.update s.bufLock b (some p) } else none
      | _ => none
    | .unlockBuf p b =>
      match s.pc p with
      | .idle =>
        if s.bufLock b = some p then some { s with bufLock := Function.update s.bufLock b none } else none
      | _ => none
    | .call p c =>
      match s.pc p with
      | .idle => if s.bufLock c.b = some p then some (s.goto p (.rwLock c)) else none
      | _ => none
    | .intr p =>
      match s.pc p with
      | .idle => some (s.goto p .intrLock)
      | _ => none
    | .go p => go s p
    | .fetch =>
      if s.seen = s.avail.idx then none
      else some { s with
        seen := s.seen + 1
        fetched := s.fetched ++ [s.avail.ring (s.seen.toNat % NUM)] }
    | .perform h => if h ∈ s.fetched then some (perform s h) else none
    | .put h =>
      if h ∈ s.performed ∧ s.writing = none then
        some { s with
          performed := s.performed.erase h
          used := { s.used with ring := Function.update s.used.ring (s.used.idx.toNat % NUM) h }
          writing := some h }
      else none
    | .complete =>
      if s.writing = none then none
      else some { s with used := { s.used with idx := s.used.idx + 1 }, writing := none }

end Xv6.Virtio
