import Xv6.Procs.Reaping

/-!
# Kill

`kill` compares the pid of every slot, used or not, and an unused slot has pid 0.  So `kill(0)` finds an
unused slot when there is one before any process with pid 0, marks it as killed and returns 0; `freeproc`
is not run again before the slot is used, and the next process in it starts killed.  Apart from that
`kill` reaches only its target, and nobody else is killed.
-/

namespace Xv6.Procs

open Threads Runs

variable {nproc : ℕ} {s t : Machine} {d : Data} {c i : ℕ} {pc : Pc} {ch : Choice}
  {ins : Instr Lock Data Pc}

/-! ## One call -/

/-- The loop of `kill` from slot `k` on, over `n` slots, with its result. -/
def killLoop (proc : ℕ → Proc) (pid : BitVec 32) : ℕ → ℕ → (ℕ → Proc) × ℤ
  | 0, _ => (proc, -1)
  | n + 1, k =>
    if (proc k).pid = pid then (Function.update proc k (proc k).kill, 0) else killLoop proc pid n (k + 1)

/-- `kill(pid)` with nobody in between. -/
def kill (nproc : ℕ) (proc : ℕ → Proc) (pid : BitVec 32) : (ℕ → Proc) × ℤ := killLoop proc pid nproc 0

/-- Slot `k` is the first with the pid. -/
def First (nproc : ℕ) (proc : ℕ → Proc) (pid : BitVec 32) (k : ℕ) : Prop :=
  k < nproc ∧ (proc k).pid = pid ∧ ∀ x < k, (proc x).pid ≠ pid

theorem killLoop_eq (proc : ℕ → Proc) (pid : BitVec 32) (n k : ℕ) (hk : ∀ x < k, (proc x).pid ≠ pid) :
    (∃ j, First (k + n) proc pid j ∧
      killLoop proc pid n k = (Function.update proc j (proc j).kill, 0)) ∨
    (∀ x < k + n, (proc x).pid ≠ pid) ∧ killLoop proc pid n k = (proc, -1) := by
  induction n generalizing k with
  | zero => exact .inr ⟨hk, rfl⟩
  | succ n ih =>
    by_cases h : (proc k).pid = pid
    · refine .inl ⟨k, ⟨by omega, h, hk⟩, ?_⟩
      rw [killLoop, if_pos h]
    · have hk' (x : ℕ) (hx : x < k + 1) : (proc x).pid ≠ pid := by
        by_cases e : x = k
        · rwa [e]
        · exact hk x (by omega)
      rw [killLoop, if_neg h, show k + (n + 1) = k + 1 + n by omega]
      exact ih (k + 1) hk'

theorem kill_eq (nproc : ℕ) (proc : ℕ → Proc) (pid : BitVec 32) :
    (∃ j, First nproc proc pid j ∧ kill nproc proc pid = (Function.update proc j (proc j).kill, 0)) ∨
    (∀ x < nproc, (proc x).pid ≠ pid) ∧ kill nproc proc pid = (proc, -1) := by
  have := killLoop_eq proc pid nproc 0 fun x hx => absurd hx (Nat.not_lt_zero x)
  rwa [Nat.zero_add] at this

/-- `kill(pid)` returns 0 when a process has the pid, and then changes only such a process; otherwise it
returns -1 and changes nothing. -/
def KillsTarget (nproc : ℕ) (proc : ℕ → Proc) (pid : BitVec 32) : Prop :=
  ((kill nproc proc pid).2 = 0 ↔ ∃ j, (proc j).state ≠ .unused ∧ (proc j).pid = pid) ∧
  ((kill nproc proc pid).2 = 0 → ∃ j, (proc j).state ≠ .unused ∧ (proc j).pid = pid ∧
    (kill nproc proc pid).1 = Function.update proc j (proc j).kill) ∧
  ((kill nproc proc pid).2 ≠ 0 → (kill nproc proc pid).2 = -1 ∧ (kill nproc proc pid).1 = proc)

/-- The first slot that `kill(pid)` finds is unused. -/
def HitsUnused (nproc : ℕ) (proc : ℕ → Proc) (pid : BitVec 32) : Prop :=
  ∃ k, First nproc proc pid k ∧ (proc k).state = .unused

theorem killsTarget_of_not_hitsUnused {proc : ℕ → Proc} {pid : BitVec 32}
    (hout : ∀ j, nproc ≤ j → (proc j).state = .unused) (h : ¬ HitsUnused nproc proc pid) :
    KillsTarget nproc proc pid := by
  obtain ⟨j, hj, hk⟩ | ⟨hnone, hk⟩ := kill_eq nproc proc pid
  · have hused : (proc j).state ≠ .unused := fun hu => h ⟨j, hj, hu⟩
    rw [KillsTarget, hk]
    exact ⟨iff_of_true rfl ⟨j, hused, hj.2.1⟩, fun _ => ⟨j, hused, hj.2.1, rfl⟩, fun h => absurd rfl h⟩
  · rw [KillsTarget, hk]
    refine ⟨iff_of_false (by simp) ?_, fun h => by simp at h, fun _ => ⟨rfl, rfl⟩⟩
    rintro ⟨j, hj, hp⟩
    have hlt : j < nproc := by
      by_contra hj'
      exact hj (hout j (not_lt.1 hj'))
    exact hnone j hlt hp

theorem kill_of_hitsUnused {proc : ℕ → Proc} {pid : BitVec 32} {k : ℕ} (h : First nproc proc pid k)
    (hu : (proc k).state = .unused) :
    kill nproc proc pid = (Function.update proc k { proc k with killed := true }, 0) := by
  obtain ⟨j, hj, hk⟩ | ⟨hnone, -⟩ := kill_eq nproc proc pid
  · have e : j = k := by
      by_contra hne
      obtain hlt | hlt := Nat.lt_or_gt_of_ne hne
      · exact h.2.2 j hlt hj.2.1
      · exact hj.2.2 k hlt h.2.1
    rw [hk, e, Proc.kill, if_neg (by rw [hu]; simp)]
  · exact absurd h.2.1 (hnone k h.1)

/-- A CPU that runs `kill` while the locks of the processes are free does just that. -/
theorem kill_run {pid : BitVec 32} {n k : ℕ} (hpc : t.pc c = .run i (.killScan pid k)) (hk : k + n = nproc)
    (hlock : ∀ j, t.lock (.proc j) = none) :
    ∃ es u, run (step (code nproc)) t es = some u ∧ u.pc c = .run i .user ∧
      u.data.proc = (killLoop t.data.proc pid n k).1 ∧
      u.data.notes = t.data.notes ++ if (killLoop t.data.proc pid n k).2 = 0 then [.kill pid] else [] := by
  induction n generalizing k t with
  | zero =>
    refine ⟨[(c, .go)], ⟨t.data, Function.update t.pc c (.run i .user), t.lock⟩, ?_, by simp, rfl, by
      simp [killLoop]⟩
    simp [run, step, hpc, code, kcode, killCode, show ¬ k < nproc by omega, Op.apply]
  | succ n ih =>
    have hlt : k < nproc := by omega
    by_cases h : (t.data.proc k).pid = pid
    · rw [killLoop, if_pos h]
      refine ⟨[(c, .go), (c, .go)], ⟨(t.data.setProc k (t.data.proc k).kill).note (.kill pid),
        Function.update t.pc c (.run i .user), Function.update t.lock (.proc k) none⟩, ?_, by simp, rfl, rfl⟩
      simp [run, step, hpc, code, kcode, killCode, hlt, h, Op.apply, hlock]
    · rw [killLoop, if_neg h]
      have hnext : run (step (code nproc)) t [(c, .go), (c, .go)] = some ⟨t.data,
          Function.update t.pc c (.run i (.killScan pid (k + 1))), Function.update t.lock (.proc k) none⟩ := by
        simp [run, step, hpc, code, kcode, killCode, hlt, h, Op.apply, hlock]
      obtain ⟨es, u, hrun, hu⟩ := ih (k := k + 1) (t := ⟨t.data,
          Function.update t.pc c (.run i (.killScan pid (k + 1))), Function.update t.lock (.proc k) none⟩)
        (by simp) (by omega) fun j => by
          by_cases e : j = k
          · simp [e]
          · simp [e, hlock]
      refine ⟨[(c, .go), (c, .go)] ++ es, u, ?_, hu⟩
      rw [run_append, hnext, Option.bind_some, hrun]

/-! ## Who is killed -/

/-- What a step, with the notes `l`, does to the `killed` flag of a slot. -/
inductive Fate (p p' : Proc) (l : List Note) : Prop
  | same (state : p'.state = .unused ↔ p.state = .unused) (killed : p'.killed = p.killed)
      (serial : p'.serial = p.serial) (pid : p'.pid = p.pid)
  | hit (state : p'.state ≠ .unused) (used : p.state ≠ .unused) (serial : p'.serial = p.serial)
      (pid : p'.pid = p.pid) (note : .kill p.pid ∈ l ∨ .fault p.serial ∈ l)
  | freed (state : p'.state = .unused) (killed : p'.killed = false)
  | born (unused : p.state = .unused) (killed : p'.killed = p.killed) (m : ℕ)
      (note : l = [.born p'.serial m])

/-- The step is the one in which `kill` finds an unused slot. -/
def MarksUnused (nproc : ℕ) (s : Machine) (e : ℕ × Choice) : Prop :=
  match s.pc e.1 with
  | .run _ (.killScan pid k) => k < nproc ∧ (s.data.proc k).pid = pid ∧ (s.data.proc k).state = .unused
  | _ => False

instance (nproc : ℕ) (s : Machine) (e : ℕ × Choice) : Decidable (MarksUnused nproc s e) := by
  unfold MarksUnused
  split <;> infer_instance

theorem Fate.refl (p : Proc) (l : List Note) : Fate p p l := .same Iff.rfl rfl rfl rfl

/-- What a step does to all slots, when it changes one. -/
theorem fate_setProc {j : ℕ} {p' : Proc} {l : List Note} (h : Fate (d.proc j) p' l) (x : ℕ) :
    Fate (d.proc x) ((d.setProc j p').proc x) l := by
  by_cases e : x = j
  · subst e
    rwa [Data.setProc_self]
  · rw [Data.setProc_ne e]
    exact Fate.refl _ _

theorem Fate.wake (p : Proc) (chan : Option Chan) (l : List Note) : Fate p (p.wake chan) l := by
  unfold Proc.wake
  split_ifs with h
  · exact .same (by simp [h.1]) rfl rfl rfl
  · exact Fate.refl _ _

theorem Fate.kill {p : Proc} (h : p.state ≠ .unused) : Fate p p.kill [.kill p.pid] := by
  unfold Proc.kill
  split_ifs
  · exact .hit (by simp) h rfl rfl (.inl (List.mem_singleton_self _))
  · exact .hit h h rfl rfl (.inl (List.mem_singleton_self _))

/-- The step adds the notes `l`, in which only new processes are born, and decides about every slot. -/
def Fates (d d' : Data) : Prop :=
  ∃ l, d'.notes = d.notes ++ l ∧ (∀ n m, .born n m ∈ l → ∀ x, (d.proc x).state ≠ .unused →
    (d.proc x).serial ≠ n) ∧ ∀ x, Fate (d.proc x) (d'.proc x) l

theorem fates_of_quiet {d' : Data} (hn : d'.notes = d.notes) (h : ∀ x, Fate (d.proc x) (d'.proc x) []) :
    Fates d d' :=
  ⟨[], by simp [hn], fun n m hm => absurd hm List.not_mem_nil, h⟩

theorem Fates.refl (d : Data) : Fates d d := fates_of_quiet rfl fun _ => Fate.refl _ _

theorem Fates.setProc {j : ℕ} {p' : Proc} (h : Fate (d.proc j) p' []) : Fates d (d.setProc j p') :=
  fates_of_quiet rfl (fate_setProc h)

theorem fates_of_note {d' : Data} {n : Note} (hn : ∀ x m, .born x m ≠ n) (hnotes : d'.notes = d.notes ++ [n])
    (h : ∀ x, Fate (d.proc x) (d'.proc x) [n]) : Fates d d' :=
  ⟨[n], hnotes, fun x m hm => absurd (List.mem_singleton.1 hm) (hn x m), h⟩

theorem fates_fork {k : Kpc} (hok : k.Ok nproc d i) (h : forkCode nproc d i ch k = some ins) :
    Fates d ins.data := by
  have hfails (j : ℕ) : Fates d (forkFails d i j).data := Fates.setProc (.freed rfl rfl)
  cases k <;> simp only [forkCode, reduceCtorEq] at h
  case allocScan j =>
    split_ifs at h <;> cases h <;> exact Fates.refl d
  case allocPid j =>
    cases h
    exact fates_of_quiet rfl fun _ => Fate.refl _ _
  case allocPidDone j pid =>
    cases h
    refine ⟨_, rfl, fun n m hm x hx => ?_, fate_setProc (.born hok.2.1 rfl _ rfl)⟩
    cases List.mem_singleton.1 hm
    exact (hok.2.2.2.2.1 x hx).ne
  case allocTrapframe j | allocPagetable j | forkCopy j =>
    split at h
    · split_ifs at h <;> cases h <;> first
        | exact hfails j
        | exact Fates.setProc (.same Iff.rfl rfl rfl rfl)
    · cases h
  case forkParent j =>
    cases h
    exact Fates.setProc (.same Iff.rfl rfl rfl rfl)
  case forkRun j =>
    cases h
    exact fates_of_note (by simp) rfl (fate_setProc (.same (by simp [hok.1.used]) rfl rfl rfl))
  all_goals
    cases h
    exact Fates.refl d

theorem fates_exit {k : Kpc} (hi : (d.proc i).state = k.state) (h : exitCode nproc d i k = some ins) :
    Fates d ins.data := by
  cases k <;> simp only [exitCode, reduceCtorEq] at h
  case reparent j status =>
    split_ifs at h <;> cases h
    · exact Fates.setProc (.same Iff.rfl rfl rfl rfl)
    · exact Fates.refl d
    · exact Fates.refl d
  case exitSelf status =>
    cases h
    exact fates_of_note (by simp) rfl (fate_setProc (.same (by simp [hi, Kpc.state]) rfl rfl rfl))
  case wakeup chan k after =>
    split_ifs at h <;> cases h
    · exact Fates.refl d
    · exact Fates.setProc (Fate.wake _ _ _)
    · exact Fates.refl d
  all_goals
    cases h
    exact Fates.refl d

theorem fates_wait {k : Kpc} (h : waitCode nproc d i ch k = some ins) : Fates d ins.data := by
  cases k <;> simp only [waitCode, reduceCtorEq] at h
  case waitScan addr j havekids =>
    split_ifs at h
    · split at h
      · split_ifs at h <;> cases h
        · exact Fates.refl d
        · exact fates_of_note (by simp) rfl (fate_setProc (.freed rfl rfl))
      · cases h
    all_goals
      cases h
      exact Fates.refl d
  case waitReturn pid child =>
    cases h
    exact fates_of_note (by simp) rfl fun _ => Fate.refl _ _
  all_goals
    cases h
    exact Fates.refl d

theorem fates_sleep {k : Kpc} (hi : (d.proc i).state = .running) (h : sleepCode d i k = some ins) :
    Fates d ins.data := by
  cases k <;> simp only [sleepCode, reduceCtorEq] at h
  case sleepSched w | yield k =>
    cases h
    exact Fates.setProc (.same (by simp [hi]) rfl rfl rfl)
  case sleepWoken w =>
    cases h
    exact Fates.setProc (.same Iff.rfl rfl rfl rfl)
  all_goals
    cases h
    exact Fates.refl d

theorem fates_kill {k : Kpc} (hi : (d.proc i).state = .running)
    (hok : ∀ pid x, k = .killScan pid x → x < nproc → (d.proc x).pid = pid → (d.proc x).state ≠ .unused)
    (h : killCode nproc d i k = some ins) : Fates d ins.data := by
  cases k <;> simp only [killCode, reduceCtorEq] at h
  case killScan pid k =>
    split_ifs at h with hk hpid <;> cases h
    · subst hpid
      exact fates_of_note (by simp) rfl (fate_setProc (Fate.kill (hok _ k rfl hk rfl)))
    · exact Fates.refl d
    · exact Fates.refl d
  case fault =>
    cases h
    exact fates_of_note (by simp) rfl (fate_setProc (.hit (by simp [hi]) (by simp [hi]) rfl rfl
      (.inr (List.mem_singleton_self _))))
  all_goals
    cases h
    exact Fates.refl d

theorem fates_kcode {k : Kpc} (hi : (d.proc i).state = k.state) (hok : k.Ok nproc d i)
    (hkill : ∀ pid x, k = .killScan pid x → x < nproc → (d.proc x).pid = pid → (d.proc x).state ≠ .unused)
    (h : kcode nproc d i ch k = some ins) : Fates d ins.data := by
  cases k <;> simp only [kcode] at h
  case user =>
    split at h
    case h_2 => cases h
    case h_1 call =>
      cases call <;> simp only [userCode] at h
      case exit status =>
        split_ifs at h
        cases h
        exact Fates.refl d
      case space sz pagetable =>
        cases h
        exact Fates.setProc (.same Iff.rfl rfl rfl rfl)
      all_goals
        cases h
        exact Fates.refl d
  all_goals first
    | exact fates_fork hok h
    | exact fates_exit hi h
    | exact fates_wait h
    | exact fates_sleep hi h
    | exact fates_kill hi hkill h

/-- What a step does to the `killed` flags, unless it marks an unused slot. -/
theorem fates_step {e : ℕ × Choice} (hinv : Inv holds (Good nproc) Free (At nproc) s)
    (hok : ¬ MarksUnused nproc s e) (hstep : step (code nproc) s e = some t) : Fates s.data t.data := by
  obtain ⟨c, ch⟩ := e
  obtain ⟨ins, lock, hins, -, rfl⟩ := step_eq_some.1 hstep
  have hat := hinv.point c
  simp only at hins
  cases hpc : s.pc c with
  | run i k =>
    rw [hpc] at hat hins
    simp only [code] at hins
    split at hins
    · split_ifs at hins
      cases hins
      exact Fates.refl _
    · refine fates_kcode hat.2.1 hat.2.2 (fun pid x e hx hpid hu => ?_) hins
      rw [MarksUnused, hpc, e] at hok
      exact hok ⟨hx, hpid, hu⟩
  | scan j =>
    rw [hpc] at hins
    simp only [code] at hins
    split at hins
    · cases hins
      exact Fates.refl _
    · split_ifs at hins with _ hs <;> cases hins
      · exact fates_of_quiet rfl (fate_setProc (.same (by simp [hs]) rfl rfl rfl))
      · exact Fates.refl _
      · exact Fates.refl _
  | wakeup n k j =>
    rw [hpc] at hins
    simp only [code] at hins
    split_ifs at hins <;> cases hins
    · exact Fates.setProc (Fate.wake _ _ _)
    · exact Fates.refl _
  | back j =>
    rw [hpc] at hins
    simp only [code] at hins
    cases hins
    exact fates_of_quiet rfl fun _ => Fate.refl _ _
  | skip j | wakeupNext n k j =>
    rw [hpc] at hins
    simp only [code] at hins
    cases hins
    exact Fates.refl _

/-! ## Runs -/

/-- Process `x` was born in the run, for the last time before `post`, and if it is marked as killed, then
it has been killed by its pid or has had a fault of its own since. -/
def Deserved (d : Data) (x : ℕ) : Prop :=
  ∃ pre m post, d.notes = pre ++ .born (d.proc x).serial m :: post ∧
    (∀ m', .born (d.proc x).serial m' ∉ post) ∧
    ((d.proc x).killed = true → .kill (d.proc x).pid ∈ post ∨ .fault (d.proc x).serial ∈ post)

structure Spared (d : Data) : Prop where
  unused : ∀ x, (d.proc x).state = .unused → (d.proc x).killed = false
  used : ∀ x, x ≠ initproc → (d.proc x).state ≠ .unused → Deserved d x

theorem Spared.step {d' : Data} (h : Spared d) (hf : Fates d d') : Spared d' := by
  obtain ⟨l, hnotes, hborn, hf⟩ := hf
  have hadd {x : ℕ} (hx : (d.proc x).state ≠ .unused) {post : List Note}
      (hpost : ∀ m', .born (d.proc x).serial m' ∉ post) (m' : ℕ) :
      .born (d.proc x).serial m' ∉ post ++ l := by
    rw [List.mem_append, not_or]
    exact ⟨hpost m', fun hm => hborn _ _ hm x hx rfl⟩
  refine ⟨fun x hx => ?_, fun x hinit hx => ?_⟩
  · cases hf x with
    | same state killed serial pid => rw [killed]; exact h.unused x (state.1 hx)
    | hit state used serial pid note => exact absurd hx state
    | freed state killed => exact killed
    | born unused killed m note => rw [killed]; exact h.unused x unused
  · cases hf x with
    | same state killed serial pid =>
      have hused : (d.proc x).state ≠ .unused := fun hu => hx (state.2 hu)
      obtain ⟨pre, m, post, hn, hlast, hk⟩ := h.used x hinit hused
      rw [Deserved, serial, pid, killed, hnotes, hn]
      exact ⟨pre, m, post ++ l, by simp, hadd hused hlast, fun hkilled =>
        (hk hkilled).imp (List.mem_append_left _) (List.mem_append_left _)⟩
    | hit state used serial pid note =>
      obtain ⟨pre, m, post, hn, hlast, -⟩ := h.used x hinit used
      rw [Deserved, serial, pid, hnotes, hn]
      exact ⟨pre, m, post ++ l, by simp, hadd used hlast, fun _ =>
        note.imp (List.mem_append_right _) (List.mem_append_right _)⟩
    | freed state killed => exact absurd state hx
    | born unused killed m note =>
      refine ⟨d.notes, m, [], by rw [hnotes, note], fun _ => List.not_mem_nil, fun hkilled => ?_⟩
      rw [killed, h.unused x unused] at hkilled
      cases hkilled

/-- In every run: `kill` reaches only its target unless the first slot with the pid is unused, in which
case it marks that slot and returns 0; and if that never happens in the run, every process made by
`fork` was killed by its pid or by a fault of its own after it was born, if it is killed. -/
theorem kill_reaches_target {es : List (ℕ × Choice)} (hn : 0 < nproc) (h : s.Boot)
    (hrun : run (step (code nproc)) s es = some t) :
    (∀ pid, ¬ HitsUnused nproc t.data.proc pid → KillsTarget nproc t.data.proc pid) ∧
    (∀ pid k, First nproc t.data.proc pid k → (t.data.proc k).state = .unused →
      kill nproc t.data.proc pid =
        (Function.update t.data.proc k { t.data.proc k with killed := true }, 0)) ∧
    (StepsOk (step (code nproc)) (fun s e => ¬ MarksUnused nproc s e) s es →
      ∀ x, x ≠ initproc → (t.data.proc x).state ≠ .unused → Deserved t.data x) := by
  have hinv := inv_run hn h hrun
  refine ⟨fun pid hh => killsTarget_of_not_hitsUnused hinv.data.table.outside hh,
    fun pid k hk hu => kill_of_hitsUnused hk hu, fun hok => ?_⟩
  have hstep (u : Machine) (e : ℕ × Choice) (v : Machine)
      (hu : Inv holds (Good nproc) Free (At nproc) u ∧ Spared u.data) (he : ¬ MarksUnused nproc u e)
      (hv : step (code nproc) u e = some v) :
      Inv holds (Good nproc) Free (At nproc) v ∧ Spared v.data :=
    ⟨(outline nproc).inv_step hu.1 hv, hu.2.step (fates_step hu.1 he hv)⟩
  have hboot : Spared s.data := by
    refine ⟨fun x hx => ?_, fun x hinit hx => ?_⟩
    · by_cases e : x = initproc
      · rw [e, h.init]
      · rw [h.unused x e]
        rfl
    · rw [h.unused x hinit] at hx
      exact absurd rfl hx
  exact (run_invariant hstep ⟨inv_boot hn h, hboot⟩ hok hrun).2.used

/-- The first process makes a child and kills it. -/
def forkKill : List (ℕ × Choice) :=
  [.go, .go, .call .fork, .go, .go, .go, .go, .go, .page 1, .page 1, .copied true, .go, .go, .go, .go, .go,
    .call (.kill 2), .go, .go, .go, .go].map (0, ·)

theorem kill_reaches_target_forkKill :
    ∃ t, run (step (code 2)) booted forkKill = some t ∧ (t.data.proc 1).killed = true ∧
      t.data.notes = [.born 2 1, .made 2, .kill 2] ∧ KillsTarget 2 t.data.proc 2 ∧ Deserved t.data 1 := by
  have hend : (run (step (code 2)) booted forkKill).map (fun t => (t.data.notes, (t.data.proc 0).pid,
      (t.data.proc 1).killed, (t.data.proc 1).state)) =
      some ([.born 2 1, .made 2, .kill 2], 1, true, .runnable) := rfl
  obtain ⟨t, ht, e⟩ := Option.map_eq_some_iff.1 hend
  simp only [Prod.mk.injEq] at e
  obtain ⟨hnotes, hpid, hkilled, hstate⟩ := e
  obtain ⟨htarget, -, hspared⟩ := kill_reaches_target (by decide) booted_boot ht
  refine ⟨t, ht, hkilled, hnotes, htarget 2 ?_, hspared (by decide) 1 (by decide) (by rw [hstate]; decide)⟩
  rintro ⟨k, ⟨hk, hfirst, -⟩, hu⟩
  obtain rfl | rfl : k = 0 ∨ k = 1 := by omega
  · rw [hpid] at hfirst
    exact absurd hfirst (by decide)
  · rw [hstate] at hu
    cases hu

/-- The first process calls `kill(0)` and then makes a child. -/
def killZeroFork : List (ℕ × Choice) :=
  [.go, .go, .call (.kill 0), .go, .go, .go, .go, .call .fork, .go, .go, .go, .go, .go, .page 1, .page 1,
    .copied true, .go, .go, .go, .go, .go].map (0, ·)

/-- `kill(0)` returns 0 right after boot, when no process has pid 0, and the process that is made next
starts killed. -/
theorem kill_zero_marks_next_process :
    (kill 2 booted.data.proc 0).2 = 0 ∧ (∀ j, (booted.data.proc j).state ≠ .unused →
      (booted.data.proc j).pid ≠ 0) ∧
    (run (step (code 2)) booted killZeroFork).map (fun t => (t.data.notes, (t.data.proc 1).state,
      (t.data.proc 1).pid, (t.data.proc 1).killed)) =
      some ([.kill 0, .born 2 1, .made 2], .runnable, 2, true) := by
  refine ⟨rfl, fun j hj => ?_, rfl⟩
  by_cases e : j = initproc
  · simp [booted, e]
  · simp [booted, e] at hj

end Xv6.Procs
