import Xv6.Virtio.Code

/-!
# The invariant of driver and device

`phase` says how far a request has got with the driver.  The heads that are on their way through the device,
`flight`, are those of the published requests whose buffer still has `disk` set, each once.  All parts of the
invariant but the locks depend on the phases only, so they survive steps that only take or release a lock.
-/

namespace Xv6.Virtio

open Fifo

/-! ## Requests -/

inductive Phase
  | new
  | made
  | written
  | posted
  | final
  | ended
  deriving DecidableEq

def Phase.formatted : Phase → Bool
  | .made | .written | .posted | .final => true
  | .new | .ended => false

namespace Pc

def phase : Pc → Option (Phase × Req)
  | .format q => some (.new, q)
  | .ring q => some (.made, q)
  | .publish q => some (.written, q)
  | .wait q | .waitLock q => some (.posted, q)
  | .finish q => some (.final, q)
  | .rwUnlock q => some (.ended, q)
  | _ => none

/-- The process holds `vdisk_lock`. -/
def holds : Pc → Bool
  | .idle | .rwLock _ | .waitLock _ | .intrLock => false
  | _ => true

/-- The buffer of the call. -/
def buf : Pc → Option ℕ
  | .rwLock c | .alloc c => some c.b
  | .format q | .ring q | .publish q | .wait q | .waitLock q | .finish q | .rwUnlock q => some q.b
  | _ => none

end Pc

def Req.idx (q : Req) : List ℕ := [q.i0, q.i1, q.i2]

theorem Req.head_mem (q : Req) : q.i0 ∈ q.idx := by simp [Req.idx]

def State.phase (s : State) (p : ℕ) : Option (Phase × Req) := (s.pc p).phase

/-- The heads that the driver has published and the device has not read. -/
def availQ (s : State) : List ℕ := content NUM s.avail.ring s.seen s.avail.idx

/-- The entries of the `used` ring that the driver has not read. -/
def usedQ (s : State) : List ℕ := content NUM s.used.ring s.usedIdx s.used.idx

/-- The heads whose requests the device has performed. -/
def done (s : State) : List ℕ := s.performed ++ s.writing.toList ++ usedQ s

def flight (s : State) : List ℕ := availQ s ++ s.fetched ++ done s

/-! ## The invariant -/

structure Locks (s : State) : Prop where
  lock : ∀ p, (s.pc p).holds = true ↔ s.lock = some p
  buf : ∀ p b, (s.pc p).buf = some b → s.bufLock b = some p

/-- Who has which descriptors. -/
structure Owned (s : State) : Prop where
  busy : ∀ {p φ q}, s.phase p = some (φ, q) → φ ≠ .ended → ∀ d ∈ q.idx, d < NUM ∧ s.table.free d = false
  nodup : ∀ {p φ q}, s.phase p = some (φ, q) → φ ≠ .ended → q.idx.Nodup
  disjoint : ∀ {p p' φ φ' q q' d}, s.phase p = some (φ, q) → s.phase p' = some (φ', q') → φ ≠ .ended →
    φ' ≠ .ended → d ∈ q.idx → d ∈ q'.idx → p = p'
  owner : ∀ d < NUM, s.table.free d = false → ∃ p φ q, s.phase p = some (φ, q) ∧ φ ≠ .ended ∧ d ∈ q.idx
  buf : ∀ {p p' φ φ' q q'}, s.phase p = some (φ, q) → s.phase p' = some (φ', q') → q.b = q'.b → p = p'

/-- The descriptors of the request, as `virtio_disk_rw` has formatted them. -/
structure Made (s : State) (q : Req) : Prop where
  op : s.ops q.i0 = ⟨q.write, sector q.blockno⟩
  desc0 : s.table.desc q.i0 = ⟨.op q.i0, 16, VRING_DESC_F_NEXT, q.i1⟩
  desc1 : s.table.desc q.i1 =
    ⟨.data q.b, 1024, (if q.write then 0 else VRING_DESC_F_WRITE) ||| VRING_DESC_F_NEXT, q.i2⟩
  desc2 : s.table.desc q.i2 = ⟨.status q.i0, 1, VRING_DESC_F_WRITE, 0⟩
  b : (s.info q.i0).b = some q.b
  tag : s.tag q.i0 = q.id

/-- The requests on their way through the device. -/
structure Flight (s : State) : Prop where
  made : ∀ {p φ q}, s.phase p = some (φ, q) → φ.formatted = true → Made s q
  nodup : (flight s).Nodup
  mem : ∀ h, h ∈ flight s ↔ ∃ p q, s.phase p = some (.posted, q) ∧ q.i0 = h ∧ s.disk q.b = true
  status : ∀ h ∈ done s, (s.info h).status = 0
  written : ∀ {p q}, s.phase p = some (.written, q) → s.avail.ring (s.avail.idx.toNat % NUM) = q.i0
  writing : ∀ h, s.writing = some h → s.used.ring (s.used.idx.toNat % NUM) = h
  unposted : ∀ {p φ q}, s.phase p = some (φ, q) → φ = .made ∨ φ = .written → s.disk q.b = true
  final : ∀ {p φ q}, s.phase p = some (φ, q) → φ = .final ∨ φ = .ended → s.disk q.b = false

/-- What the device has done for the request `id`. -/
def servedFor (s : State) (id : ℕ) : List (ℕ × Transfer) := s.served.filter fun x => x.1 = id

/-- `virtio_disk_intr` has seen the completion of the request. -/
def Cleared (s : State) (φ : Phase) (q : Req) : Prop :=
  (φ = .posted ∨ φ = .final ∨ φ = .ended) ∧ s.disk q.b = false

/-- The device has performed the request. -/
def Served (s : State) (φ : Phase) (q : Req) : Prop :=
  Cleared s φ q ∨ φ = .posted ∧ q.i0 ∈ done s

/-- What has been recorded of the requests. -/
structure History (s : State) : Prop where
  lt : ∀ {p φ q}, s.phase p = some (φ, q) → q.id < s.nextId
  inj : ∀ {p p' φ φ' q q'}, s.phase p = some (φ, q) → s.phase p' = some (φ', q') → q.id = q'.id → p = p'
  old : ∀ id, s.nextId ≤ id → servedFor s id = [] ∧ s.cleared.count id = 0
  served : ∀ {p φ q}, s.phase p = some (φ, q) → Served s φ q → servedFor s q.id = [(q.id, q.transfer)]
  unserved : ∀ {p φ q}, s.phase p = some (φ, q) → ¬ Served s φ q → servedFor s q.id = []
  cleared : ∀ {p φ q}, s.phase p = some (φ, q) → Cleared s φ q → s.cleared.count q.id = 1
  uncleared : ∀ {p φ q}, s.phase p = some (φ, q) → ¬ Cleared s φ q → s.cleared.count q.id = 0
  returned : ∀ q ∈ s.returned, servedFor s q.id = [(q.id, q.transfer)] ∧ s.cleared.count q.id = 1 ∧
    ∀ {p φ q'}, s.phase p = some (φ, q') → q'.id ≠ q.id
  nodup : (s.returned.map Req.id).Nodup

structure Inv (s : State) : Prop where
  stop : s.stop = none
  locks : Locks s
  owned : Owned s
  device : Flight s
  history : History s

end Xv6.Virtio
