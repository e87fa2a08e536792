import Xv6.Pipe.Code

/-!
# Wakeups of a pipe

A process that sleeps on a channel of the pipe has a reason to, or the holder of the pipe's lock is on
its way to wake it (`Inv.wake`).  The holder keeps that promise on every path but one: `pipewrite`
returns without a `wakeup` when it finds its process killed.
-/

namespace Xv6.Pipe

open Runs Machine

/-- The process at this point holds the lock of the pipe. -/
def Pc.Holds : Pc → Prop
  | .idle | .writeLock _ | .readLock _ | .closeLock _ | .sleepWake _ | .sleepRelock _ | .kill _
  | .killUnlock _ => False
  | _ => True

/-- A process that sleeps on the channel has a reason to. -/
def Buffer.Blocked (pi : Buffer) : Chan → Prop
  | .nread => pi.nread = pi.nwrite ∧ pi.writeopen = true
  | .nwrite => pi.full ∧ pi.readopen = true

/-- The process at this point will wake process `q` on the channel before it releases the lock. -/
def Pc.Wakes (q : ℕ) : Pc → Chan → Prop
  | .writeLoop _ _ fresh, .nread | .writeKilled _ _ fresh _, .nread => fresh = true
  | .readCopy _ _, .nwrite => True
  | .wakeup chan j _, c => chan = c ∧ j ≤ q
  | .wakeupUnlock chan j _, c => chan = c ∧ j < q
  | _, _ => False

/-- What the process has found out about the pipe since it took the lock. -/
def Pc.Knows (pi : Buffer) : Pc → Prop
  | .writeLoop _ _ fresh => fresh = true → pi.readopen = true
  | .writeKilled _ _ _ _ => pi.readopen = true
  | .readKilled _ _ => pi.Blocked .nread
  | .wakeup chan _ (.sleep _ _) | .wakeupUnlock chan _ (.sleep _ _) =>
    chan = .nread ∧ pi.Blocked .nwrite
  | .sleepLock chan _ | .sleepSched chan _ => pi.Blocked chan
  | _ => True

/-- `SLEEPING` on the channel. -/
def Asleep (s : Machine) (q : ℕ) (c : Chan) : Prop :=
  (s.proc q).state = .sleeping ∧ (s.proc q).chan = some c

variable {nproc : ℕ}

structure Inv (nproc : ℕ) (s : Machine) : Prop where
  lock : ∀ p, s.lock = some p ↔ (s.proc p).pc.Holds
  table : ∀ p, (s.proc p).pc ≠ .idle → p < nproc
  sleeper : ∀ p, (s.proc p).state ≠ .running → ∃ back, (s.proc p).pc = .sleepWake back
  knows : ∀ p, (s.proc p).pc.Knows s.pipe
  wake : ∀ q c, Asleep s q c →
    s.pipe.Blocked c ∨ ∃ p, s.lock = some p ∧ (s.proc p).pc.Wakes q c

variable {s t : Machine} {p q i j : ℕ} {c : Chan} {a b : Pc}

@[simp] theorem setProc_pipe (s : Machine) (i : ℕ) (f : Proc → Proc) : (s.setProc i f).pipe = s.pipe :=
  rfl

@[simp] theorem setProc_lock (s : Machine) (i : ℕ) (f : Proc → Proc) : (s.setProc i f).lock = s.lock :=
  rfl

@[simp] theorem setProc_self (s : Machine) (i : ℕ) (f : Proc → Proc) :
    (s.setProc i f).proc i = f (s.proc i) := Function.update_self _ _ _

theorem setProc_ne (h : j ≠ i) (s : Machine) (f : Proc → Proc) :
    (s.setProc i f).proc j = s.proc j := Function.update_of_ne h _ _

theorem releaseProc_ne (h : j ≠ i) (s : Machine) : (s.releaseProc i).proc j = s.proc j :=
  setProc_ne h s _

@[simp] theorem goto_pipe (s : Machine) (i : ℕ) (pc : Pc) : (s.goto i pc).pipe = s.pipe := rfl

@[simp] theorem goto_lock (s : Machine) (i : ℕ) (pc : Pc) : (s.goto i pc).lock = s.lock := rfl

@[simp] theorem goto_self (s : Machine) (i : ℕ) (pc : Pc) :
    (s.goto i pc).proc i = { s.proc i with pc := pc } := setProc_self _ _ _

theorem goto_ne (h : j ≠ i) (s : Machine) (pc : Pc) : (s.goto i pc).proc j = s.proc j :=
  setProc_ne h _ _

theorem acquirePipe_map {f : Machine → Machine} (h : (s.acquirePipe p).map f = some t) :
    s.lock = none ∧ t = f { s with lock := some p } := by
  unfold acquirePipe at h
  split_ifs at h with hl
  · exact ⟨hl, (Option.some.inj h).symm⟩
  · cases h

theorem acquireProc_map {f : Machine → Machine} (h : (s.acquireProc i j).map f = some t) :
    t = f (s.setProc j fun p => { p with lock := some (.proc i) }) := by
  unfold acquireProc at h
  split_ifs at h
  · exact (Option.some.inj h).symm
  · cases h

theorem Asleep.of_eq (h : t.proc q = s.proc q) (hq : Asleep t q c) : Asleep s q c := by
  unfold Asleep at hq ⊢
  rwa [h] at hq

theorem Asleep.not_running (hq : Asleep s q c) : (s.proc q).state ≠ .running := by
  rw [hq.1]
  simp

/-- Facts about the pipe hold only for the holder of its lock. -/
theorem Pc.knows_of_not_holds {pi : Buffer} : ∀ {pc : Pc}, ¬ pc.Holds → pc.Knows pi := by
  intro pc h
  cases pc <;> first | exact trivial | exact absurd trivial h

/-- A step of process `p` that may change its own point in the code, its lock, the pipe, and which
processes sleep. -/
theorem Inv.move (h : Inv nproc s) (hp : (s.proc p).pc ≠ .idle ∨ p < nproc)
    (hpc : ∀ q ≠ p, (t.proc q).pc = (s.proc q).pc)
    (hstate : ∀ q ≠ p, (t.proc q).state ≠ .running → (s.proc q).state ≠ .running)
    (hself : (t.proc p).state ≠ .running → ∃ back, (t.proc p).pc = .sleepWake back)
    (hlock : t.lock = some p ↔ (t.proc p).pc.Holds)
    (hother : ∀ q ≠ p, t.lock = some q ↔ s.lock = some q)
    (hpipe : t.pipe = s.pipe ∨ t.lock = some p) (hknows : (t.proc p).pc.Knows t.pipe)
    (hwake : ∀ q c, Asleep t q c →
      t.pipe.Blocked c ∨ ∃ p, t.lock = some p ∧ (t.proc p).pc.Wakes q c) : Inv nproc t where
  lock q := by
    by_cases e : q = p
    · rw [e, hlock]
    · rw [hother q e, h.lock q, hpc q e]
  table q hq := by
    by_cases e : q = p
    · subst e
      exact hp.elim (h.table q) id
    · exact h.table q (by rwa [← hpc q e])
  sleeper q hq := by
    by_cases e : q = p
    · subst e
      exact hself hq
    · obtain ⟨back, hb⟩ := h.sleeper q (hstate q e hq)
      exact ⟨back, (hpc q e).trans hb⟩
  knows q := by
    by_cases e : q = p
    · rwa [e]
    rw [hpc q e]
    obtain e' | hl := hpipe
    · rw [e']
      exact h.knows q
    · refine Pc.knows_of_not_holds fun hq => e ?_
      have := (hother q e).2 ((h.lock q).2 hq)
      exact Option.some.inj (this.symm.trans hl)
  wake := hwake

/-- Process `p` goes from `a` to `b`; the pipe and its lock stay as they are, and nobody falls asleep. -/
structure Moves (s t : Machine) (p : ℕ) (b : Pc) : Prop where
  pipe : t.pipe = s.pipe
  lock : t.lock = s.lock
  pc : (t.proc p).pc = b
  state : (t.proc p).state = .running
  other : ∀ q ≠ p, (t.proc q).pc = (s.proc q).pc ∧
    ((t.proc q).state ≠ .running → (s.proc q).state ≠ .running)
  asleep : ∀ q c, Asleep t q c → Asleep s q c

theorem Inv.moves (h : Inv nproc s) (hpc : (s.proc p).pc = a) (ht : Moves s t p b)
    (hknows : a.Knows s.pipe → b.Knows s.pipe)
    (hwakes : ∀ q c, Asleep t q c → a.Wakes q c → s.pipe.Blocked c ∨ b.Wakes q c)
    (hb : b.Holds ↔ a.Holds := by exact Iff.rfl) (ha : a ≠ .idle ∨ p < nproc := by simp) :
    Inv nproc t := by
  subst hpc
  refine h.move ha (fun q hq => (ht.other q hq).1) (fun q hq => (ht.other q hq).2)
    (fun hr => absurd ht.state hr) ?_ (fun q _ => by rw [ht.lock]) (.inl ht.pipe) ?_ fun q c hq => ?_
  · rw [ht.lock, ht.pc, h.lock, hb]
  · rw [ht.pc, ht.pipe]
    exact hknows (h.knows p)
  · rw [ht.pipe, ht.lock]
    obtain hblocked | ⟨u, hu, hw⟩ := h.wake q c (ht.asleep q c hq)
    · exact .inl hblocked
    by_cases e : u = p
    · subst e
      obtain hblocked | hw := hwakes q c hq hw
      · exact .inl hblocked
      · exact .inr ⟨u, hu, by rwa [ht.pc]⟩
    · exact .inr ⟨u, hu, by rwa [(ht.other u e).1]⟩

/-- Process `p` takes the lock of the pipe and may change the pipe with it. -/
theorem Inv.acquires {pi : Buffer} (h : Inv nproc s) (hpc : (s.proc p).pc = a)
    (hrun : (s.proc p).state = .running) (hlock : s.lock = none) (hknows : b.Knows pi)
    (hblocked : ∀ q c, s.pipe.Blocked c → pi.Blocked c ∨ b.Wakes q c) (f : Proc → Proc)
    (hf : ∀ x, (f x).pc = b ∧ (f x).state = x.state := by exact fun _ => ⟨rfl, rfl⟩)
    (hb : b.Holds := by trivial) (ha : a ≠ .idle := by simp) :
    Inv nproc ({ s with lock := some p, pipe := pi }.setProc p f) := by
  subst hpc
  refine h.move (p := p) (.inl ha) (fun q hq => by rw [setProc_ne hq])
    (fun q hq => by rw [setProc_ne hq]; exact id) ?_ ?_ (fun q hq => ?_) (.inr rfl) ?_ fun q c hq => ?_
  · simp [hf, hrun]
  · simp [hf, hb]
  · simp [hlock, Ne.symm hq]
  · simpa [hf] using hknows
  · have hqp : q ≠ p := fun e => by
      subst e
      exact hq.not_running (by simp [hf, hrun])
    obtain hs | ⟨u, hu, -⟩ := h.wake q c (hq.of_eq (setProc_ne hqp _ _))
    · obtain hs | hw := hblocked q c hs
      · exact .inl hs
      · exact .inr ⟨p, rfl, by simpa [hf] using hw⟩
    · rw [hlock] at hu
      cases hu

/-- Somebody the holder of the lock has not put to sleep has a reason to sleep, or the holder will wake
it. -/
theorem Inv.wake_of_holder (h : Inv nproc s) (hpc : (s.proc p).pc = a) (hp : s.lock = some p)
    (hproc : ∀ q ≠ p, t.proc q = s.proc q) (hqp : q ≠ p) (hq : Asleep t q c) :
    s.pipe.Blocked c ∨ a.Wakes q c := by
  obtain hs | ⟨u, hu, hw⟩ := h.wake q c (hq.of_eq (hproc q hqp))
  · exact .inl hs
  · obtain rfl := Option.some.inj (hu.symm.trans hp)
    exact .inr (hpc ▸ hw)

theorem Inv.holder (h : Inv nproc s) (hpc : (s.proc p).pc = a) (ha : a.Holds) :
    s.lock = some p ∧ (s.proc p).pc ≠ .idle := by
  subst hpc
  refine ⟨(h.lock p).2 ha, fun e => ?_⟩
  rw [e] at ha
  exact ha

/-- The holder of the lock changes the pipe. -/
theorem Inv.changes (h : Inv nproc s) (hpc : (s.proc p).pc = a)
    (hb : (t.proc p).pc = b) (hproc : ∀ q ≠ p, t.proc q = s.proc q)
    (hstate : (t.proc p).state = .running) (hknows : b.Knows t.pipe)
    (hwakes : ∀ q c, s.pipe.Blocked c ∨ a.Wakes q c → t.pipe.Blocked c ∨ b.Wakes q c)
    (ht : t.lock = s.lock := by rfl) (hholds : a.Holds := by trivial)
    (hholds' : b.Holds := by trivial) : Inv nproc t := by
  obtain ⟨hp, hidle⟩ := h.holder hpc hholds
  refine h.move (.inl hidle) (fun q hq => by rw [hproc q hq]) (fun q hq => by rw [hproc q hq]; exact id)
    (fun hr => absurd hstate hr) ?_ (fun q _ => by rw [ht]) (.inr (ht.trans hp)) ?_ fun q c hq => ?_
  · rw [ht, hp, hb]
    simpa using hholds'
  · rwa [hb]
  · have hqp : q ≠ p := fun e => hq.not_running (e ▸ hstate)
    rw [ht]
    obtain hs | hw := hwakes q c (h.wake_of_holder hpc hp hproc hqp hq)
    · exact .inl hs
    · exact .inr ⟨p, hp, by rwa [hb]⟩

theorem Inv.releases (h : Inv nproc s) (hpc : (s.proc p).pc = a) (hb : (t.proc p).pc = b)
    (hproc : ∀ q ≠ p, t.proc q = s.proc q)
    (hself : (t.proc p).state ≠ .running → ∃ back, b = .sleepWake back)
    (hsleep : ∀ c, Asleep t p c → s.pipe.Blocked c) (hwakes : ∀ q c, ¬ a.Wakes q c)
    (ht : t.lock = none := by rfl) (hpi : t.pipe = s.pipe := by rfl) (hholds : a.Holds := by trivial)
    (hholds' : ¬ b.Holds := by exact id) : Inv nproc t := by
  obtain ⟨hp, hidle⟩ := h.holder hpc hholds
  refine h.move (.inl hidle) (fun q hq => by rw [hproc q hq]) (fun q hq => by rw [hproc q hq]; exact id)
    (by rwa [hb]) ?_ (fun q hq => ?_) (.inl hpi) (by rw [hb]; exact Pc.knows_of_not_holds hholds')
    fun q c hq => ?_
  · rw [ht, hb]
    simpa using hholds'
  · rw [ht, hp]
    simpa using Ne.symm hq
  · rw [hpi]
    refine .inl ?_
    by_cases e : q = p
    · subst e
      exact hsleep c hq
    · exact (h.wake_of_holder hpc hp hproc e hq).resolve_right (hwakes q c)

/-! ## Steps -/

theorem moves_setProc {f : Proc → Proc} (hrun : (s.proc p).state = .running)
    (hf : (f (s.proc p)).pc = b ∧ (f (s.proc p)).state = (s.proc p).state) :
    Moves s (s.setProc p f) p b where
  pipe := rfl
  lock := rfl
  pc := by simp [hf]
  state := by simp [hf, hrun]
  other q hq := by simp [setProc_ne hq]
  asleep q c hq := by
    by_cases e : q = p
    · subst e
      have := hq.1
      simp [hf, hrun] at this
    · unfold Asleep at hq
      rwa [setProc_ne e] at hq

/-- A step that also changes another process, but does not put it to sleep. -/
theorem moves_setOther {f : Proc → Proc} (hrun : (s.proc p).state = .running)
    (hj : j ≠ p) (hpc : (f (s.proc j)).pc = (s.proc j).pc) (hchan : (f (s.proc j)).chan = (s.proc j).chan)
    (hstate : (f (s.proc j)).state = (s.proc j).state ∨
      (f (s.proc j)).state = .runnable ∧ (s.proc j).state = .sleeping) :
    Moves s ((s.setProc j f).goto p b) p b where
  pipe := rfl
  lock := rfl
  pc := by simp
  state := by simp [setProc_ne hj.symm, hrun]
  other q hq := by
    rw [goto_ne hq]
    by_cases e : q = j
    · subst e
      rw [setProc_self]
      refine ⟨hpc, fun hr => ?_⟩
      obtain e | ⟨-, e⟩ := hstate
      · rwa [← e]
      · simp [e]
    · simp [setProc_ne e]
  asleep q c hq := by
    unfold Asleep at hq ⊢
    by_cases e : q = p
    · subst e
      simp [setProc_ne hj.symm, hrun] at hq
    rw [goto_ne e] at hq
    by_cases e' : q = j
    · subst e'
      rw [setProc_self, hchan] at hq
      obtain e' | ⟨e', -⟩ := hstate
      · rwa [e'] at hq
      · rw [e'] at hq
        cases hq.1
    · rwa [setProc_ne e'] at hq

theorem setProc_goto (s : Machine) (i : ℕ) (f : Proc → Proc) (pc : Pc) :
    (s.setProc i f).goto i pc = s.setProc i fun x => { f x with pc := pc } := by
  simp [goto, setProc]

theorem Proc.wake_pc (x : Proc) (c : Chan) : (x.wake c).pc = x.pc ∧ (x.wake c).chan = x.chan := by
  unfold Proc.wake
  split_ifs <;> exact ⟨rfl, rfl⟩

theorem Proc.wake_state (x : Proc) (c : Chan) : (x.wake c).state = x.state ∨
    (x.wake c).state = .runnable ∧ x.state = .sleeping := by
  unfold Proc.wake
  split_ifs with h
  · exact .inr ⟨rfl, h.1⟩
  · exact .inl rfl

theorem Proc.wake_awake (x : Proc) (c : Chan) :
    ¬ ((x.wake c).state = .sleeping ∧ (x.wake c).chan = some c) := by
  unfold Proc.wake
  split_ifs with h
  · simp
  · exact h

theorem Proc.kill_pc (x : Proc) : x.kill.pc = x.pc ∧ x.kill.chan = x.chan := by
  unfold Proc.kill
  split_ifs <;> exact ⟨rfl, rfl⟩

theorem Proc.kill_state (x : Proc) : x.kill.state = x.state ∨
    x.kill.state = .runnable ∧ x.state = .sleeping := by
  unfold Proc.kill
  split_ifs with h
  · exact .inr ⟨rfl, h⟩
  · exact .inl rfl

/-- `pipewrite` returns because its process is killed, after it has stored bytes that no `wakeup` has
announced. -/
def Pc.Forgets : Pc → Prop
  | .writeKilled _ _ fresh killed => fresh = true ∧ killed = true
  | _ => False

/-- The step is such a return, and a reader is asleep. -/
def Forgets (s : Machine) : Event → Prop
  | .go p => (s.proc p).pc.Forgets ∧ ∃ q, Asleep s q .nread
  | _ => False

theorem moves_releaseProc (hrun : (s.proc p).state = .running) (j : ℕ) :
    Moves s ((s.releaseProc j).goto p b) p b := by
  by_cases e : j = p
  · subst e
    rw [releaseProc, setProc_goto]
    exact moves_setProc hrun ⟨rfl, rfl⟩
  · exact moves_setOther hrun e rfl rfl (.inl rfl)

theorem inv_writeByte {w : Write} {i : ℕ} {fresh : Bool} (h : Inv nproc s)
    (hrun : (s.proc p).state = .running) (hpc : (s.proc p).pc = .writeKilled w i fresh false) :
    Inv nproc (writeByte (s.releaseProc p) p w i) := by
  unfold writeByte
  split_ifs with hfull
  · refine h.moves hpc (moves_releaseProc hrun p) (fun hopen => ⟨rfl, hfull, hopen⟩) fun q c _ hw => ?_
    cases c with
    | nread => exact .inr ⟨rfl, Nat.zero_le q⟩
    | nwrite => exact hw.elim
  · split
    case h_1 =>
      refine h.moves hpc (moves_releaseProc hrun p) (fun _ => trivial) fun q c _ hw => ?_
      cases c with
      | nread => exact .inr ⟨rfl, Nat.zero_le q⟩
      | nwrite => exact hw.elim
    case h_2 ch _ =>
      have hknows := h.knows p
      rw [hpc] at hknows
      refine h.changes (b := .writeLoop w (i + 1) true) hpc (by simp)
        (fun q hq => (setProc_ne hq _ _).trans (releaseProc_ne hq s)) ?_ (fun _ => hknows)
        fun q c hs => ?_
      · simp [releaseProc, hrun]
      · cases c with
        | nread => exact .inr rfl
        | nwrite => exact (hs.resolve_right id).elim fun hf _ => absurd hf hfull

theorem inv_readByte {r : Read} {i : ℕ} (h : Inv nproc s) (hrun : (s.proc p).state = .running)
    (hpc : (s.proc p).pc = .readCopy r i) : Inv nproc (readByte s p r i) := by
  unfold readByte
  split_ifs with hne hdst
  · refine h.changes (b := .readCopy r (i + 1)) hpc (by simp) (fun q hq => goto_ne hq _ _)
      (by simp [hrun]) trivial fun q c hs => ?_
    cases c with
    | nwrite => exact .inr trivial
    | nread => exact (hs.resolve_right id).elim fun he _ => absurd he hne.2
  · refine h.changes (b := .wakeup .nwrite 0 (.unlock i)) hpc (by simp) (fun q hq => goto_ne hq _ _)
      (by simp [hrun]) trivial fun q c hs => ?_
    cases c with
    | nwrite => exact .inr ⟨rfl, Nat.zero_le q⟩
    | nread => exact (hs.resolve_right id).elim fun he _ => absurd he hne.2
  · refine h.moves hpc (moves_setProc hrun ⟨rfl, rfl⟩) (fun _ => trivial) fun q c _ hw => ?_
    cases c with
    | nwrite => exact .inr ⟨rfl, Nat.zero_le q⟩
    | nread => exact hw.elim

theorem inv_wakeup {chan : Chan} {next : Next} (h : Inv nproc s)
    (hrun : (s.proc p).state = .running) (hpc : (s.proc p).pc = .wakeup chan j next)
    (hgo : go nproc s p = some t) : Inv nproc t := by
  simp only [go, hpc] at hgo
  split_ifs at hgo with hj hself
  · cases hgo
    refine h.moves hpc (moves_setProc hrun ⟨rfl, rfl⟩) (fun hk => ?_) fun q c hq hw => ?_
    · cases next <;> exact hk
    · have hne : q ≠ p := fun e => hq.not_running (by simp [e, hrun])
      exact .inr ⟨hw.1, by have := hw.2; omega⟩
  · obtain rfl := acquireProc_map hgo
    have hset : ((s.setProc j fun x => { x with lock := some (.proc p) }).setProc j fun x =>
        x.wake chan) = s.setProc j fun x => Proc.wake { x with lock := some (.proc p) } chan := by
      simp [setProc]
    rw [hset]
    refine h.moves hpc (moves_setOther hrun hself (Proc.wake_pc _ _).1 (Proc.wake_pc _ _).2
      (Proc.wake_state _ _)) (fun hk => ?_) fun q c hq hw => ?_
    · cases next <;> exact hk
    · obtain ⟨rfl, hle⟩ := hw
      refine .inr ⟨rfl, lt_of_le_of_ne hle fun e => ?_⟩
      subst e
      unfold Asleep at hq
      rw [goto_ne hself, setProc_self] at hq
      exact Proc.wake_awake _ _ hq
  · -- Every process has been visited.
    have hdone {b : Pc} (hm : Moves s t p b) (q : ℕ) (c : Chan) (hq : Asleep t q c)
        (hw : Pc.Wakes q (.wakeup chan j next) c) : s.pipe.Blocked c ∨ b.Wakes q c := by
      obtain ⟨back, hb⟩ := h.sleeper q (hm.asleep q c hq).not_running
      have := h.table q (by rw [hb]; simp)
      have := hw.2
      omega
    cases next with
    | sleep w i =>
      cases hgo
      have hm : Moves s (s.goto p (.sleepLock .nwrite (.write w i))) p _ := moves_setProc hrun ⟨rfl, rfl⟩
      exact h.moves hpc hm (fun hk => hk.2) (hdone hm)
    | unlock ret =>
      cases hgo
      have hm : Moves s (s.goto p (.unlock ret)) p _ := moves_setProc hrun ⟨rfl, rfl⟩
      exact h.moves hpc hm (fun _ => trivial) (hdone hm)

theorem inv_kill {target : ℕ} (h : Inv nproc s) (hrun : (s.proc p).state = .running)
    (hpc : (s.proc p).pc = .kill target) (hgo : go nproc s p = some t) : Inv nproc t := by
  simp only [go, hpc] at hgo
  obtain rfl := acquireProc_map hgo
  have hset : ((s.setProc target fun x => { x with lock := some (.proc p) }).setProc target Proc.kill) =
      s.setProc target fun x => Proc.kill { x with lock := some (.proc p) } := by
    simp [setProc]
  rw [hset]
  refine h.moves (b := .killUnlock target) hpc ?_ (fun _ => trivial) fun q c _ hw => hw.elim
  by_cases e : target = p
  · subst e
    rw [setProc_goto]
    exact moves_setProc hrun ⟨rfl, by simp [Proc.kill, hrun]⟩
  · exact moves_setOther hrun e (Proc.kill_pc _).1 (Proc.kill_pc _).2 (Proc.kill_state _)

/-- Every step of a process but the one that forgets its readers keeps the invariant. -/
theorem inv_go (h : Inv nproc s) (hrun : (s.proc p).state = .running)
    (hforget : ¬ Forgets s (.go p)) (hgo : go nproc s p = some t) : Inv nproc t := by
  cases hpc : (s.proc p).pc with
  | idle => simp [go, hpc] at hgo
  | wakeup chan j next => exact inv_wakeup h hrun hpc hgo
  | kill target => exact inv_kill h hrun hpc hgo
  | readCopy r i =>
    simp only [go, hpc] at hgo
    cases hgo
    exact inv_readByte h hrun hpc
  | writeLock w =>
    simp only [go, hpc] at hgo
    obtain ⟨hnone, rfl⟩ := acquirePipe_map hgo
    exact h.acquires (b := .writeLoop w 0 false) hpc hrun hnone (fun e => by cases e)
      (fun _ _ => .inl) _
  | readLock r =>
    simp only [go, hpc] at hgo
    obtain ⟨hnone, rfl⟩ := acquirePipe_map hgo
    exact h.acquires (b := .readLoop r) hpc hrun hnone trivial (fun _ _ => .inl) _
  | closeLock writable =>
    simp only [go, hpc] at hgo
    obtain ⟨hnone, rfl⟩ := acquirePipe_map hgo
    cases writable with
    | true =>
      refine h.acquires (b := .wakeup .nread 0 (.unlock 0)) hpc hrun hnone trivial (fun q c hb => ?_)
        fun x => { x with pc := _ }
      cases c with
      | nread => exact .inr ⟨rfl, Nat.zero_le q⟩
      | nwrite => exact .inl hb
    | false =>
      refine h.acquires (b := .wakeup .nwrite 0 (.unlock 0)) hpc hrun hnone trivial (fun q c hb => ?_)
        fun x => { x with pc := _ }
      cases c with
      | nread => exact .inl hb
      | nwrite => exact .inr ⟨rfl, Nat.zero_le q⟩
  | writeLoop w i fresh =>
    have hknows := h.knows p
    rw [hpc] at hknows
    simp only [go, hpc] at hgo
    split_ifs at hgo with hn hopen
    · cases hgo
      refine h.moves hpc (moves_setProc hrun ⟨rfl, rfl⟩) (fun _ => trivial) fun q c _ hw => ?_
      cases c with
      | nread => exact absurd (hknows hw) (by rw [hopen]; simp)
      | nwrite => exact hw.elim
    · obtain rfl := acquireProc_map hgo
      rw [setProc_goto]
      refine h.moves hpc (moves_setProc hrun ⟨rfl, rfl⟩) (fun _ => eq_true_of_ne_false hopen)
        fun q c _ hw => .inr ?_
      cases c <;> exact hw
    · cases hgo
      refine h.moves hpc (moves_setProc hrun ⟨rfl, rfl⟩) (fun _ => trivial) fun q c _ hw => ?_
      cases c with
      | nread => exact .inr ⟨rfl, Nat.zero_le q⟩
      | nwrite => exact hw.elim
  | writeKilled w i fresh killed =>
    simp only [go, hpc] at hgo
    split_ifs at hgo with hk
    · cases hgo
      have hm := moves_releaseProc (b := .unlock (-1)) hrun p
      refine h.moves hpc hm (fun _ => trivial) fun q c hq hw => ?_
      cases c with
      | nread =>
        refine absurd ⟨?_, q, hm.asleep q _ hq⟩ hforget
        rw [hpc]
        exact ⟨hw, hk⟩
      | nwrite => exact hw.elim
    · cases hgo
      obtain rfl : killed = false := by simpa using hk
      exact inv_writeByte h hrun hpc
  | readLoop r =>
    simp only [go, hpc] at hgo
    split_ifs at hgo with hempty
    · obtain rfl := acquireProc_map hgo
      rw [setProc_goto]
      exact h.moves hpc (moves_setProc hrun ⟨rfl, rfl⟩) (fun _ => hempty) fun q c _ hw => hw.elim
    · cases hgo
      exact h.moves hpc (moves_setProc hrun ⟨rfl, rfl⟩) (fun _ => trivial) fun q c _ hw => hw.elim
  | readKilled r killed =>
    simp only [go, hpc] at hgo
    cases hgo
    have hm {b : Pc} := moves_releaseProc (b := b) hrun p
    cases killed with
    | false => exact h.moves hpc hm id fun q c _ hw => hw.elim
    | true => exact h.moves hpc hm (fun _ => trivial) fun q c _ hw => hw.elim
  | unlock ret =>
    simp only [go, hpc] at hgo
    cases hgo
    exact h.releases (b := .idle) hpc (by simp) (fun q hq => goto_ne hq _ _) (by simp [hrun])
      (fun c hq => absurd (by simp [hrun]) hq.not_running) fun q c => id
  | wakeupUnlock chan j next =>
    simp only [go, hpc] at hgo
    cases hgo
    refine h.moves hpc (moves_releaseProc hrun j) (fun hk => ?_) fun q c _ hw => .inr ⟨hw.1, hw.2⟩
    cases next <;> exact hk
  | sleepLock chan back =>
    simp only [go, hpc] at hgo
    obtain rfl := acquireProc_map hgo
    rw [setProc_goto]
    exact h.moves hpc (moves_setProc hrun ⟨rfl, rfl⟩) id fun q c _ hw => hw.elim
  | sleepSched chan back =>
    have hknows := h.knows p
    rw [hpc] at hknows
    simp only [go, hpc] at hgo
    cases hgo
    refine h.releases (b := .sleepWake back) hpc (by simp) (fun q hq => setProc_ne hq _ _)
      (fun _ => ⟨back, rfl⟩) (fun c hq => ?_) fun q c => id
    have hc := hq.2
    simp only [setProc_self, Option.some.injEq] at hc
    rwa [← hc]
  | sleepWake back =>
    simp only [go, hpc] at hgo
    cases hgo
    exact h.moves hpc (moves_setProc hrun ⟨rfl, rfl⟩) (fun _ => trivial) fun q c _ hw => hw.elim
  | sleepRelock back =>
    simp only [go, hpc] at hgo
    obtain ⟨hnone, rfl⟩ := acquirePipe_map hgo
    cases back with
    | write w i =>
      exact h.acquires (b := .writeLoop w i false) hpc hrun hnone (fun e => by cases e)
        (fun _ _ => .inl) _
    | read r => exact h.acquires (b := .readLoop r) hpc hrun hnone trivial (fun _ _ => .inl) _
  | killUnlock target =>
    simp only [go, hpc] at hgo
    cases hgo
    exact h.moves hpc (moves_releaseProc hrun target) (fun _ => trivial) fun q c _ hw => hw.elim

/-! ## Runs -/

theorem inv_initial (h : s.Initial) : Inv nproc s := by
  obtain ⟨-, -, -, -, hlock, -, -, hproc⟩ := h
  constructor
  · intro p
    rw [hlock, hproc p]
    exact iff_of_false (by simp) id
  · intro p hp
    rw [hproc p] at hp
    exact absurd rfl hp
  · intro p hp
    rw [hproc p] at hp
    exact absurd rfl hp
  · intro p
    rw [hproc p]
    trivial
  · intro q c hq
    unfold Asleep at hq
    rw [hproc q] at hq
    exact absurd hq.1 (by simp)

/-- The scheduler changes the lock and the state of a process, but wakes nobody and puts nobody to
sleep. -/
theorem inv_sched {f : Proc → Proc} (h : Inv nproc s) (hpc : (f (s.proc p)).pc = (s.proc p).pc)
    (hstate : (f (s.proc p)).state = (s.proc p).state ∧ (f (s.proc p)).chan = (s.proc p).chan ∨
      (f (s.proc p)).state = .running) : Inv nproc (s.setProc p f) := by
  have hpc' (q : ℕ) : ((s.setProc p f).proc q).pc = (s.proc q).pc := by
    by_cases e : q = p
    · subst e
      rw [setProc_self, hpc]
    · rw [setProc_ne e]
  have hrun (q : ℕ) (hq : ((s.setProc p f).proc q).state ≠ .running) :
      ((s.setProc p f).proc q).state = (s.proc q).state ∧
        ((s.setProc p f).proc q).chan = (s.proc q).chan := by
    by_cases e : q = p
    · subst e
      rw [setProc_self] at hq ⊢
      exact hstate.resolve_right hq
    · rw [setProc_ne e]
      exact ⟨rfl, rfl⟩
  constructor
  · intro q
    rw [hpc', setProc_lock]
    exact h.lock q
  · intro q hq
    rw [hpc'] at hq
    exact h.table q hq
  · intro q hq
    rw [hpc']
    exact h.sleeper q (by rwa [← (hrun q hq).1])
  · intro q
    rw [hpc']
    exact h.knows q
  · intro q c hq
    have hq' := hrun q (by rw [hq.1]; simp)
    simp only [hpc']
    exact h.wake q c ⟨hq'.1 ▸ hq.1, hq'.2 ▸ hq.2⟩

theorem inv_step {e : Event} (h : Inv nproc s) (hforget : ¬ Forgets s e)
    (hstep : step nproc s e = some t) : Inv nproc t := by
  cases e with
  | call p c =>
    simp only [step] at hstep
    split at hstep
    case h_2 => cases hstep
    case h_1 hidle =>
    split_ifs at hstep with hp
    cases hstep
    have hrun : (s.proc p).state = .running := by
      by_contra hr
      obtain ⟨back, hb⟩ := h.sleeper p hr
      rw [hidle] at hb
      cases hb
    refine h.moves hidle (moves_setProc hrun ⟨rfl, rfl⟩) (fun _ => ?_) (fun q c _ hw => hw.elim) ?_
      (.inr hp)
    · cases c <;> exact trivial
    · cases c <;> exact Iff.rfl
  | go p =>
    simp only [step] at hstep
    split_ifs at hstep with hrun
    exact inv_go h hrun hforget hstep
  | switched p =>
    simp only [step] at hstep
    split_ifs at hstep
    cases hstep
    exact inv_sched h rfl (.inl ⟨rfl, rfl⟩)
  | schedule p =>
    simp only [step] at hstep
    split_ifs at hstep
    cases hstep
    exact inv_sched h rfl (.inr rfl)

/-- No wakeup is lost in a run without a return of `pipewrite` that forgets a sleeping reader: when the
lock of the pipe is free, whoever sleeps on a channel has a reason to. -/
theorem no_lost_wakeup {s t : Machine} {es : List Event} (h : s.Initial)
    (hok : StepsOk (step nproc) (fun s e => ¬ Forgets s e) s es) (hrun : run (step nproc) s es = some t)
    (hlock : t.lock = none) :
    (∀ q, Asleep t q .nread → t.pipe.nread = t.pipe.nwrite ∧ t.pipe.writeopen = true) ∧
      ∀ q, Asleep t q .nwrite → t.pipe.full ∧ t.pipe.readopen = true := by
  have hinv : Inv nproc t :=
    run_invariant (fun _ _ _ hi hf hs => inv_step hi hf hs) (inv_initial h) hok hrun
  have hblocked (q : ℕ) (c : Chan) (hq : Asleep t q c) : t.pipe.Blocked c := by
    obtain hb | ⟨u, hu, -⟩ := hinv.wake q c hq
    · exact hb
    · rw [hlock] at hu
      cases hu
  exact ⟨fun q hq => hblocked q .nread hq, fun q hq => hblocked q .nwrite hq⟩

def newPipe : Machine where
  pipe := ⟨fun _ => 0, 0, 0, true, true⟩
  lock := none
  proc _ := ⟨.running, none, false, none, .idle, []⟩
  stored := []
  taken := []

theorem newPipe_initial : newPipe.Initial := ⟨rfl, rfl, rfl, rfl, rfl, rfl, rfl, fun _ => rfl⟩

/-- Process 0 reads from the empty pipe and goes to sleep. -/
def readerSleeps : List Event :=
  [.call 0 (.read ⟨fun _ => true, 1⟩), .go 0, .go 0, .go 0, .go 0, .go 0, .switched 0]

theorem no_lost_wakeup_readerSleeps : ∃ t, run (step 3) newPipe readerSleeps = some t ∧
    t.lock = none ∧ Asleep t 0 .nread ∧ t.pipe.nread = t.pipe.nwrite := by
  have hok : StepsOk (step 3) (fun s e => ¬ Forgets s e) newPipe readerSleeps := by
    simp [readerSleeps, StepsOk, Forgets, newPipe, step, go, acquirePipe, acquireProc, Call.entry,
      Pc.Forgets]
  refine ⟨_, rfl, rfl, ⟨rfl, rfl⟩, ?_⟩
  exact ((no_lost_wakeup newPipe_initial hok rfl rfl).1 0 ⟨rfl, rfl⟩).1

/-- Process 1 writes two bytes to the pipe and is killed by process 2 after the first. -/
def writerKilled : List Event :=
  [.call 1 (.write ⟨fun _ => some 7, 2⟩), .go 1, .go 1, .go 1, .call 2 (.kill 1), .go 2, .go 2,
    .go 1, .go 1, .go 1]

/-- The reader stays asleep with a byte in the pipe and nobody left to wake it. -/
theorem killed_writer_loses_wakeup :
    (run (step 3) newPipe (readerSleeps ++ writerKilled)).map (fun t =>
      (t.lock, (t.proc 0).state, (t.proc 0).chan, t.pipe.nread, t.pipe.nwrite, (t.proc 1).pc)) =
    some (none, .sleeping, some .nread, 0, 1, .idle) := rfl

end Xv6.Pipe
