import Xv6.Procs.Code

/-!
# Assertions about processes

What process `i` knows at each point of the kernel (`Kpc.Ok`), what holds of the table between any two
steps (`Table`) and of the notes (`Logged`), and what every step leaves alone (`Guarantee`).  While
`wait_lock` is free nobody is asleep in `wait` with a zombie for a child (`NoLost`); whoever has the
lock knows which sleeper, if any, it still has to wake.
-/

namespace Xv6.Procs

open Threads

/-! ## What a process knows -/

/-- Asleep in `wait`. -/
def Asleep (d : Data) (q : ℕ) : Prop :=
  (d.proc q).state = .sleeping ∧ (d.proc q).chan = some (.proc q)

/-- Nobody sleeps in `wait` while one of its children is a zombie. -/
def NoLost (d : Data) : Prop :=
  ∀ q x, Asleep d q → (d.proc x).parent = some q → (d.proc x).state ≠ .zombie

/-- Only process `q` may have to be woken, by a `wakeup` that has come to slot `k`. -/
def Pending (d : Data) (q k : ℕ) : Prop :=
  ∀ q' x, Asleep d q' → (d.proc x).parent = some q' → (d.proc x).state = .zombie → q' = q ∧ k ≤ q

/-- The processes that were freed by `wait`. -/
def reaped (notes : List Note) : List ℕ :=
  notes.filterMap fun
    | .reap _ n _ _ _ => some n
    | _ => none

/-- Process `i` is in `fork`, for slot `j`. -/
structure Making (d : Data) (i j : ℕ) (parent : Option ℕ) : Prop where
  used : (d.proc j).state = .used
  maker : (d.proc j).maker = some i
  parent : (d.proc j).parent = parent
  born : .born (d.proc j).serial (d.proc i).serial ∈ d.notes

def After.Ok (d : Data) (i : ℕ) (chan : Option Chan) (k : ℕ) : After → Prop
  | .reparent j _ => i ≠ initproc ∧ chan = some (.proc initproc) ∧ (∀ x < j, (d.proc x).parent ≠ some i) ∧
      Pending d initproc k
  | .exit _ => i ≠ initproc ∧ (∀ x, (d.proc x).parent ≠ some i) ∧ NoLost d ∧
      ∃ q, (d.proc i).parent = some q ∧ chan = some (.proc q) ∧ (q < k → ¬ Asleep d q)
  | .user => True

/-- What `wait` of process `i` is going to return. -/
def Returns (d : Data) (caller : ℕ) (ret : BitVec 32) : Option ℕ → Prop
  | none => ret = -1
  | some n => ∃ addr stored, .reap caller n addr ret stored ∈ d.notes

def Kpc.Ok (nproc : ℕ) (d : Data) (i : ℕ) : Kpc → Prop
  | .allocPid j => j < nproc ∧ (d.proc j).state = .unused
  | .allocPidDone j pid => j < nproc ∧ (d.proc j).state = .unused ∧ 1 < d.next ∧
      pid = BitVec.ofNat 32 (d.next - 1) ∧
      (∀ x, (d.proc x).state ≠ .unused → (d.proc x).serial < d.next - 1) ∧
      ∀ n ∈ reaped d.notes, n < d.next - 1
  | .allocTrapframe j | .allocPagetable j => Making d i j none
  | .forkCopy j | .forkUnlock j | .forkParent j =>
      Making d i j none ∧ (d.proc j).context = .resume .user
  | .forkParentDone j => Making d i j (some i) ∧ (d.proc j).context = .resume .user ∧ NoLost d
  | .forkRun j => Making d i j (some i) ∧ (d.proc j).context = .resume .user
  | .exitLock _ => i ≠ initproc
  | .reparent j _ => i ≠ initproc ∧ (∀ x < j, (d.proc x).parent ≠ some i) ∧ NoLost d
  | .exitSelf _ => i ≠ initproc ∧ (∀ x, (d.proc x).parent ≠ some i) ∧ NoLost d ∧
      ∀ q, (d.proc i).parent = some q → ¬ Asleep d q
  | .exitSched => NoLost d
  | .waitScan _ j _ => NoLost d ∧ ∀ x < j, (d.proc x).parent = some i → (d.proc x).state ≠ .zombie
  | .waitNext _ j => NoLost d ∧ ∀ x < j + 1, (d.proc x).parent = some i → (d.proc x).state ≠ .zombie
  | .waitReaped _ pid child => NoLost d ∧ Returns d (d.proc i).serial pid (some child)
  | .waitFail j => NoLost d ∧ (d.proc j).parent = some i ∧ (d.proc j).state = .zombie
  | .waitKilled _ _ | .sleepLock (.wait _) | .sleepSched (.wait _) =>
      NoLost d ∧ ∀ x, (d.proc x).parent = some i → (d.proc x).state ≠ .zombie
  | .waitReturn pid child => NoLost d ∧ Returns d (d.proc i).serial pid child
  | .wakeup chan k after => after.Ok d i chan k
  | .wakeupNext chan k after => after.Ok d i chan (k + 1)
  | .yield k | .resume k => k.locks i = [] ∧ k.Ok nproc d i
  | _ => True

/-- The point at which a process that no CPU runs goes on. -/
def Kpc.Saved (nproc : ℕ) (d : Data) (i : ℕ) : Kpc → Prop
  | .resume k => k.locks i = [] ∧ k.Ok nproc d i
  | .sleepWoken _ => True
  | _ => False

/-- The state of a process that a CPU runs. -/
def Kpc.state : Kpc → ProcState
  | .exitSched => .zombie
  | _ => .running

def At (nproc : ℕ) (d : Data) (c : ℕ) : Pc → Prop
  | .run i k => d.cpu c = some i ∧ (d.proc i).state = k.state ∧ k.Ok nproc d i
  | .back i => d.cpu c = some i ∧ (d.proc i).state ≠ .unused ∧ (d.proc i).state ≠ .running
  | _ => d.cpu c = none

/-- What holds while a lock is free. -/
def Free (l : Lock) (d : Data) : Prop :=
  match l with
  | .wait => NoLost d
  | _ => True

/-! ## The table and the notes -/

def ProcState.Live : ProcState → Prop
  | .sleeping | .runnable | .running => True
  | _ => False

/-- A slot after `freeproc`.  A `kill` may have come since. -/
def Cleared (p : Proc) : Prop := p = { freeproc p with killed := p.killed }

structure Table (nproc : ℕ) (d : Data) : Prop where
  outside : ∀ j, nproc ≤ j → (d.proc j).state = .unused
  cleared : ∀ j, (d.proc j).state = .unused → Cleared (d.proc j)
  init : (d.proc initproc).state.Live ∧ (d.proc initproc).serial = 1
  nextpid : d.nextpid = BitVec.ofNat 32 d.next
  serial : ∀ j, (d.proc j).state ≠ .unused → 0 < (d.proc j).serial ∧ (d.proc j).serial < d.next ∧
    (d.proc j).pid = BitVec.ofNat 32 (d.proc j).serial
  distinct : ∀ j x, (d.proc j).state ≠ .unused → (d.proc x).state ≠ .unused →
    (d.proc j).serial = (d.proc x).serial → j = x
  maker : ∀ j, (d.proc j).state = .used ↔ (d.proc j).maker ≠ none
  forked : ∀ j y q, (d.proc j).maker = some y → (d.proc j).parent = some q →
    q = y ∨ q = initproc
  parents : ∀ j, j ≠ initproc → (d.proc j).state ≠ .unused → (d.proc j).parent = none →
    (d.proc j).state = .used ∧ (d.proc j).window = true
  live : ∀ j q, (d.proc j).parent = some q → (d.proc q).state.Live
  cpu : ∀ c c' i, d.cpu c = some i → d.cpu c' = some i → c = c'
  running : ∀ i, (d.proc i).state = .running → ∃ c, d.cpu c = some i
  saved : ∀ i, (d.proc i).state = .runnable ∨ (d.proc i).state = .sleeping →
    (d.proc i).context.Saved nproc d i

structure Logged (d : Data) : Prop where
  exits : ∀ x, (d.proc x).state = .zombie → .exit (d.proc x).serial (d.proc x).xstate ∈ d.notes
  born : ∀ x q, (d.proc x).parent = some q → q = initproc ∨
    .born (d.proc x).serial (d.proc q).serial ∈ d.notes
  unreaped : ∀ x, (d.proc x).state ≠ .unused → (d.proc x).serial ∉ reaped d.notes
  below : ∀ n ∈ reaped d.notes, n < d.next
  once : (reaped d.notes).Nodup
  reaps : ∀ caller n addr pid stored, .reap caller n addr pid stored ∈ d.notes →
    pid = BitVec.ofNat 32 n ∧ (caller = 1 ∨ .born n caller ∈ d.notes) ∧
      ∃ status, .exit n status ∈ d.notes ∧ stored = if addr = 0 then none else some status
  waited : ∀ caller ret child, .waited caller ret child ∈ d.notes → Returns d caller ret child

structure Good (nproc : ℕ) (d : Data) : Prop where
  table : Table nproc d
  logged : Logged d

/-! ## What a step leaves alone -/

/-- A step that process `me` takes, if any, with the locks `held` before or after it. -/
structure Frame (d d' : Data) (me : Option ℕ) (held : Set Lock) : Prop where
  state : ∀ x, .proc x ∉ held → (d'.proc x).state = (d.proc x).state
  parent : .wait ∉ held → ∀ x, (d'.proc x).parent = (d.proc x).parent
  zombie : .wait ∉ held → ∀ x, (d'.proc x).state = .zombie → (d.proc x).state = .zombie
  asleep : .wait ∉ held → ∀ q, Asleep d' q → Asleep d q
  next : .pid ∉ held → d'.next = d.next
  born : .pid ∉ held → ∀ x, (d'.proc x).state ≠ .unused → (d.proc x).state ≠ .unused
  serial : ∀ x, (d.proc x).state ≠ .unused → (d'.proc x).serial = (d.proc x).serial
  making : ∀ x y, (d.proc x).maker = some y → me ≠ some y → (d'.proc x).state = (d.proc x).state ∧
    (d'.proc x).maker = some y ∧ (d'.proc x).parent = (d.proc x).parent ∧
    (d'.proc x).context = (d.proc x).context
  notes : ∀ n ∈ d.notes, n ∈ d'.notes
  reaped : ∀ n ∈ reaped d'.notes, n ∈ reaped d.notes ∨
    ∃ x, (d.proc x).state ≠ .unused ∧ (d.proc x).serial = n

/-- A step of CPU `c`, which runs process `me`, if any. -/
structure Guarantee (d d' : Data) (c : ℕ) (me : Option ℕ) (held : Set Lock) : Prop
    extends Frame d d' me held where
  running : ∀ x, me ≠ some x → (d.proc x).state = .running → (d'.proc x).state = .running
  cpu : ∀ c' ≠ c, d'.cpu c' = d.cpu c'

variable {nproc : ℕ} {d d' : Data} {i j : ℕ} {me : Option ℕ} {held : Set Lock} {k : Kpc}

theorem NoLost.stable (h : NoLost d) (hg : Frame d d' me held) (hw : .wait ∉ held) : NoLost d' := by
  intro q x hq hx hz
  rw [hg.parent hw] at hx
  exact h q x (hg.asleep hw q hq) hx (hg.zombie hw x hz)

theorem Making.stable {parent : Option ℕ} (h : Making d i j parent) (hg : Frame d d' me held)
    (hme : me ≠ some i) (hi : (d.proc i).state ≠ .unused) : Making d' i j parent := by
  obtain ⟨hstate, hmaker, hparent, -⟩ := hg.making j i h.maker hme
  refine ⟨hstate.trans h.used, hmaker, hparent.trans h.parent, ?_⟩
  rw [hg.serial i hi, hg.serial j (by rw [h.used]; simp)]
  exact hg.notes _ h.born

theorem Returns.mono {caller : ℕ} {ret : BitVec 32} {child : Option ℕ} (h : Returns d caller ret child)
    (hn : ∀ n ∈ d.notes, n ∈ d'.notes) : Returns d' caller ret child := by
  cases child with
  | none => exact h
  | some n =>
    obtain ⟨addr, stored, hm⟩ := h
    exact ⟨addr, stored, hn _ hm⟩

theorem After.Ok.stable {after : After} {chan : Option Chan} {k : ℕ} (h : after.Ok d i chan k)
    (hg : Frame d d' me held) (hl : ∀ l ∈ after.locks, l ∉ held) : after.Ok d' i chan k := by
  cases after with
  | user => trivial
  | reparent j status =>
    have hw : Lock.wait ∉ held := hl _ (by simp [After.locks])
    obtain ⟨hi, hchan, hch, hp⟩ := h
    refine ⟨hi, hchan, fun x hx => by rw [hg.parent hw]; exact hch x hx, fun q x hq hx hz => ?_⟩
    rw [hg.parent hw] at hx
    exact hp q x (hg.asleep hw q hq) hx (hg.zombie hw x hz)
  | exit status =>
    have hw : Lock.wait ∉ held := hl _ (by simp [After.locks])
    obtain ⟨hi, hch, hn, q, hq, hchan, hs⟩ := h
    refine ⟨hi, fun x => by rw [hg.parent hw]; exact hch x, hn.stable hg hw, q, ?_, hchan,
      fun hk ha => hs hk (hg.asleep hw q ha)⟩
    rw [hg.parent hw]
    exact hq

/-- What a process knows survives the steps of the others. -/
theorem Kpc.Ok.stable (h : k.Ok nproc d i) (hg : Frame d d' me held) (hme : me ≠ some i)
    (hi : (d.proc i).state ≠ .unused) (hl : ∀ l ∈ k.locks i, l ∉ held) : k.Ok nproc d' i := by
  have hserial := hg.serial i hi
  induction k with
  | allocPid j =>
    rw [Kpc.Ok, hg.state j (hl _ (by simp [Kpc.locks]))]
    exact h
  | allocPidDone j pid =>
    have hp : Lock.pid ∉ held := hl _ (by simp [Kpc.locks])
    obtain ⟨hj, hs, hnext, hpid, hlt, hreaped⟩ := h
    rw [Kpc.Ok, hg.state j (hl _ (by simp [Kpc.locks])), hg.next hp]
    refine ⟨hj, hs, hnext, hpid, fun x hx => ?_, fun n hn => ?_⟩
    · have hx' := hg.born hp x hx
      rw [hg.serial x hx']
      exact hlt x hx'
    · obtain hn | ⟨x, hx, rfl⟩ := hg.reaped n hn
      · exact hreaped n hn
      · exact hlt x hx
  | allocTrapframe j | allocPagetable j => exact Making.stable h hg hme hi
  | forkCopy j | forkUnlock j | forkParent j | forkRun j =>
    refine ⟨h.1.stable hg hme hi, ?_⟩
    rw [(hg.making j i h.1.maker hme).2.2.2]
    exact h.2
  | forkParentDone j =>
    refine ⟨h.1.stable hg hme hi, ?_, h.2.2.stable hg (hl _ (by simp [Kpc.locks]))⟩
    rw [(hg.making j i h.1.maker hme).2.2.2]
    exact h.2.1
  | reparent j status =>
    have hw : Lock.wait ∉ held := hl _ (by simp [Kpc.locks])
    exact ⟨h.1, fun x hx => by rw [hg.parent hw]; exact h.2.1 x hx, h.2.2.stable hg hw⟩
  | exitSelf status =>
    have hw : Lock.wait ∉ held := hl _ (by simp [Kpc.locks])
    refine ⟨h.1, fun x => by rw [hg.parent hw]; exact h.2.1 x, h.2.2.1.stable hg hw, fun q hq ha => ?_⟩
    rw [hg.parent hw] at hq
    exact h.2.2.2 q hq (hg.asleep hw q ha)
  | exitSched => exact NoLost.stable h hg (hl _ (by simp [Kpc.locks]))
  | waitScan addr j havekids =>
    have hw : Lock.wait ∉ held := hl _ (by simp [Kpc.locks])
    refine ⟨h.1.stable hg hw, fun x hx hp hz => ?_⟩
    rw [hg.parent hw] at hp
    exact h.2 x hx hp (hg.zombie hw x hz)
  | waitNext addr j =>
    have hw : Lock.wait ∉ held := hl _ (by simp [Kpc.locks])
    refine ⟨h.1.stable hg hw, fun x hx hp hz => ?_⟩
    rw [hg.parent hw] at hp
    exact h.2 x hx hp (hg.zombie hw x hz)
  | waitReaped j pid child =>
    refine ⟨h.1.stable hg (hl _ (by simp [Kpc.locks])), ?_⟩
    rw [hserial]
    exact h.2.mono hg.notes
  | waitFail j =>
    have hw : Lock.wait ∉ held := hl _ (by simp [Kpc.locks])
    refine ⟨h.1.stable hg hw, ?_⟩
    rw [hg.parent hw, hg.state j (hl _ (by simp [Kpc.locks]))]
    exact h.2
  | waitKilled addr killed =>
    have hw : Lock.wait ∉ held := hl _ (by simp [Kpc.locks])
    refine ⟨h.1.stable hg hw, fun x hp hz => ?_⟩
    rw [hg.parent hw] at hp
    exact h.2 x hp (hg.zombie hw x hz)
  | waitReturn pid child =>
    refine ⟨h.1.stable hg (hl _ (by simp [Kpc.locks])), ?_⟩
    rw [hserial]
    exact h.2.mono hg.notes
  | wakeup chan k after => exact After.Ok.stable h hg hl
  | wakeupNext chan k after => exact After.Ok.stable h hg fun l hm => hl l (by simp [Kpc.locks, hm])
  | sleepLock w | sleepSched w =>
    cases w with
    | other n => trivial
    | wait addr =>
      have hw : Lock.wait ∉ held := hl _ (by simp [Kpc.locks, Sleeper.locks])
      refine ⟨h.1.stable hg hw, fun x hp hz => ?_⟩
      rw [hg.parent hw] at hp
      exact h.2 x hp (hg.zombie hw x hz)
  | yield k ih | resume k ih => exact ⟨h.1, ih h.2 (by simp [h.1])⟩
  | _ => exact h

/-- The point of a process that no CPU runs survives every step that is not its own. -/
theorem Kpc.Saved.stable (h : k.Saved nproc d i) (hg : Frame d d' me held) (hme : me ≠ some i)
    (hi : (d.proc i).state ≠ .unused) : k.Saved nproc d' i := by
  cases k with
  | resume k => exact ⟨h.1, h.2.stable hg hme hi (by simp [h.1])⟩
  | _ => exact h

end Xv6.Procs
