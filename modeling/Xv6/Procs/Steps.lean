import Xv6.Procs.Effects

/-!
# The proof outline of the process code

For each point of the code: the locks that a process has there, and that the step from there keeps the
invariants and leads to a point whose assertion holds.
-/

namespace Xv6.Procs

open Threads

variable {nproc : ℕ} {d : Data} {c i j : ℕ} {k : Kpc} {pc : Pc} {ch : Choice} {ins : Instr Lock Data Pc}

def holds (_ : ℕ) (pc : Pc) : Set Lock := { l | l ∈ pc.locks }

/-! ## Locks -/

/-- The instruction changes the locks of the point as its lock operation says. -/
def Disciplined (locks : List Lock) (ins : Instr Lock Data Pc) : Prop :=
  { l | l ∈ ins.pc.locks } = ins.op.after { l | l ∈ locks } ∧ ∀ l, ins.op = .release l → l ∈ locks

section Locks

attribute [local simp] Pc.locks Kpc.locks Sleeper.locks After.locks

variable {ls : List Lock} {l : Lock}

theorem Disciplined.skip (h : pc.locks = ls := by rfl) : Disciplined ls ⟨.skip, d, pc⟩ :=
  ⟨by rw [h]; rfl, fun _ h => by cases h⟩

theorem Disciplined.acquire (h : ∀ x, x ∈ pc.locks ↔ x = l ∨ x ∈ ls := by simp) :
    Disciplined ls ⟨.acquire l, d, pc⟩ :=
  ⟨Set.ext h, fun _ h => by cases h⟩

theorem Disciplined.release (h : ∀ x, x ∈ pc.locks ↔ x ∈ ls ∧ x ≠ l := by simp)
    (hl : l ∈ ls := by simp) : Disciplined ls ⟨.release l, d, pc⟩ := by
  refine ⟨Set.ext h, fun x hx => ?_⟩
  obtain rfl := Op.release.inj hx
  exact hl

theorem disciplined_fork (h : forkCode nproc d i ch k = some ins) : Disciplined (k.locks i) ins := by
  cases k <;> simp only [forkCode, reduceCtorEq] at h
  case allocScan j =>
    split_ifs at h <;> cases h
    · exact .acquire
    · exact .acquire
    · exact .skip
  case allocPidDone j pid =>
    cases h
    refine .release fun x => ?_
    cases x <;> simp
  case allocTrapframe j | allocPagetable j | forkCopy j =>
    split at h
    · split_ifs at h <;> cases h <;> exact .skip
    · cases h
  case allocPid j | forkParent j | forkRun j =>
    cases h
    exact .acquire
  all_goals
    cases h
    exact .release

theorem disciplined_exit (h : exitCode nproc d i k = some ins) : Disciplined (k.locks i) ins := by
  cases k <;> simp only [exitCode, reduceCtorEq] at h
  case reparent j status =>
    split_ifs at h <;> cases h <;> exact .skip
  case exitSched =>
    cases h
    refine .release fun x => ?_
    cases x <;> simp
  case wakeup chan k after =>
    split_ifs at h <;> cases h
    · exact .skip
    · exact .acquire
    · exact .skip (by cases after <;> rfl)
  case wakeupNext chan k after =>
    cases h
    refine .release fun x => ?_
    cases after <;> cases x <;> simp
  case exitLock status | exitSelf status =>
    cases h
    exact .acquire

theorem disciplined_wait (h : waitCode nproc d i ch k = some ins) : Disciplined (k.locks i) ins := by
  cases k <;> simp only [waitCode, reduceCtorEq] at h
  case waitLock addr =>
    cases h
    exact .acquire
  case waitScan addr j havekids =>
    split_ifs at h
    · split at h
      · split_ifs at h <;> cases h <;> exact .acquire
      · cases h
    · cases h
      exact .acquire
    · cases h
      exact .skip
    · cases h
      exact .acquire
    · cases h
      exact .skip
  case waitKilled addr killed =>
    cases h
    refine .release fun x => ?_
    cases killed <;> cases x <;> simp
  case waitReturn pid child =>
    cases h
    exact .release
  all_goals
    cases h
    refine .release fun x => ?_
    cases x <;> simp

theorem disciplined_sleep (hok : k.Ok nproc d i) (h : sleepCode d i k = some ins) :
    Disciplined (k.locks i) ins := by
  cases k <;> simp only [sleepCode, reduceCtorEq] at h
  case sleepSched w =>
    cases h
    cases w with
    | wait addr =>
      refine .release fun x => ?_
      cases x <;> simp
    | other n => exact .skip
  case sleepRelock w =>
    cases h
    cases w with
    | wait addr => exact .acquire (by simp [Sleeper.kpc])
    | other n => exact .skip
  case sleepLock w | yield k =>
    cases h
    exact .acquire
  case sleepWoken w =>
    cases h
    exact .release
  case resume k =>
    cases h
    exact .release (by rw [Pc.locks, hok.1]; simp)

theorem disciplined_kill (h : killCode nproc d i k = some ins) : Disciplined (k.locks i) ins := by
  cases k <;> simp only [killCode, reduceCtorEq] at h
  case killScan pid k =>
    split_ifs at h <;> cases h
    · exact .acquire
    · exact .acquire
    · exact .skip
  case fault =>
    cases h
    exact .acquire
  all_goals
    cases h
    exact .release

theorem disciplined_kcode (hok : k.Ok nproc d i) (h : kcode nproc d i ch k = some ins) :
    Disciplined (k.locks i) ins := by
  cases k <;> simp only [kcode] at h
  case user =>
    split at h
    case h_2 => cases h
    case h_1 call =>
      cases call <;> simp only [userCode] at h
      case exit status =>
        split_ifs at h
        cases h
        exact .skip
      all_goals
        cases h
        exact .skip
  all_goals first
    | exact disciplined_fork h
    | exact disciplined_exit h
    | exact disciplined_wait h
    | exact disciplined_sleep hok h
    | exact disciplined_kill h

theorem Kpc.Saved.locks (h : k.Saved nproc d i) : k.locks i = [.proc i] := by
  cases k <;> first | rfl | exact h.elim

theorem disciplined_code (hd : Good nproc d) (hat : At nproc d c pc) (h : code nproc d c pc ch = some ins) :
    Disciplined pc.locks ins := by
  cases pc with
  | scan j =>
    simp only [code] at h
    split at h
    · cases h
      exact .skip
    · split_ifs at h with hj hs <;> cases h
      · refine .acquire fun x => ?_
        rw [Pc.locks, (hd.table.saved j (.inl hs)).locks]
        simp
      · exact .acquire
      · exact .skip
  | skip j | back j | wakeupNext n k j =>
    simp only [code] at h
    cases h
    exact .release
  | wakeup n k j =>
    simp only [code] at h
    split_ifs at h <;> cases h
    · exact .acquire
    · exact .skip
  | run i k =>
    simp only [code] at h
    split at h
    · split_ifs at h with hk
      cases h
      exact .skip hk.symm
    · exact disciplined_kcode hat.2.2 h

end Locks

/-! ## Steps -/

/-- What a step of process `i` on CPU `c` from the point `k` achieves. -/
structure Steps (nproc : ℕ) (d : Data) (c i : ℕ) (k : Kpc) (ins : Instr Lock Data Pc) : Prop where
  guarantee : Guarantee d ins.data c (some i) ({ l | l ∈ k.locks i } ∪ { l | l ∈ ins.pc.locks })
  good : Good nproc ins.data
  point : At nproc ins.data c ins.pc
  released : ins.op = .release .wait → NoLost ins.data

/-- The lock invariants are at hand when a lock is taken. -/
def Acquires (d : Data) (ins : Instr Lock Data Pc) : Prop := ∀ l, ins.op = .acquire l → Free l d

theorem Guarantee.refl (d : Data) (c : ℕ) (me : Option ℕ) (held : Set Lock) : Guarantee d d c me held where
  state _ _ := rfl
  parent _ _ := rfl
  zombie _ _ := id
  asleep _ _ := id
  next _ := rfl
  born _ _ := id
  serial _ _ := rfl
  making _ _ h _ := ⟨rfl, h, rfl, rfl⟩
  running _ _ := id
  cpu _ _ := rfl
  notes _ := id
  reaped _ := .inl

variable {k' : Kpc} {op : Op Lock} {p' : Proc} {parent : Option ℕ}

theorem Steps.quiet (hd : Good nproc d) (hc : d.cpu c = some i)
    (hi : (d.proc i).state = .running) (hs : k'.state = .running) (hok : k'.Ok nproc d i)
    (hrel : op = .release .wait → NoLost d := by simp) : Steps nproc d c i k ⟨op, d, .run i k'⟩ :=
  ⟨Guarantee.refl d c _ _, hd, ⟨hc, hi.trans hs.symm, hok⟩, hrel⟩

theorem Steps.slot {d' : Data} (hc : d.cpu c = some i)
    (hi : (d.proc i).state = k'.state) (hcpu : d'.cpu = d.cpu) (hproc : (d'.proc i).state = (d.proc i).state)
    (h : Guarantee d d' c (some i) ({ l | l ∈ k.locks i } ∪ { l | l ∈ k'.locks i }) ∧ Good nproc d')
    (hok : k'.Ok nproc d' i) (hrel : op = .release .wait → NoLost d' := by simp) :
    Steps nproc d c i k ⟨op, d', .run i k'⟩ :=
  ⟨h.1, h.2, ⟨by rw [hcpu, hc], by rw [hproc, hi], hok⟩, hrel⟩

@[simp] theorem Data.setProc_self (d : Data) (j : ℕ) (p : Proc) : (d.setProc j p).proc j = p :=
  Function.update_self _ _ _

theorem Data.setProc_ne {x : ℕ} (h : x ≠ j) (d : Data) (p : Proc) : (d.setProc j p).proc x = d.proc x :=
  Function.update_of_ne h _ _

@[simp] theorem Data.note_proc (d : Data) (n : Note) : (d.note n).proc = d.proc := rfl

theorem ne_of_making (h : Making d i j parent) (hi : (d.proc i).state = .running) :
    i ≠ j := fun e => by
  rw [e, h.used] at hi
  cases hi

/-- The slot that `fork` works on is still its own. -/
theorem Making.setProc {parent' : Option ℕ} (h : Making d i j parent)
    (hi : (d.proc i).state = .running) (hstate : p'.state = .used) (hmaker : p'.maker = some i)
    (hserial : p'.serial = (d.proc j).serial) (hparent : p'.parent = parent') :
    Making (d.setProc j p') i j parent' := by
  refine ⟨by simpa, by simpa, by simpa, ?_⟩
  rw [Data.setProc_self, Data.setProc_ne (ne_of_making h hi), hserial]
  exact h.born

/-- Nobody is woken too late because of a change that makes no zombie and puts nobody to sleep. -/
theorem NoLost.setProc (h : NoLost d) (hz : p'.state ≠ .zombie)
    (ha : p'.state = .sleeping → p'.chan = some (.proc j) → Asleep d j) : NoLost (d.setProc j p') := by
  intro q x hq hx
  have hq' : Asleep d q := by
    by_cases e : q = j
    · subst e
      unfold Asleep at hq
      rw [Data.setProc_self] at hq
      exact ha hq.1 hq.2
    · unfold Asleep at hq ⊢
      rwa [Data.setProc_ne e] at hq
  by_cases e : x = j
  · subst e
    rw [Data.setProc_self]
    exact hz
  · rw [Data.setProc_ne e] at hx ⊢
    exact h q x hq' hx

theorem Making.steps (h : Making d i j parent) (hd : Good nproc d)
    (hc : d.cpu c = some i) (hi : (d.proc i).state = .running) (hs : k'.state = .running) (hstate : p'.state = .used)
    (hmaker : p'.maker = some i) (hserial : p'.serial = (d.proc j).serial) (hpid : p'.pid = (d.proc j).pid)
    (hparent : p'.parent = (d.proc j).parent ∧ p'.window = (d.proc j).window ∨
      p'.parent = some i ∧ (.wait ∈ k.locks i ∨ .wait ∈ k'.locks i))
    (hok : Making (d.setProc j p') i j p'.parent → k'.Ok nproc (d.setProc j p') i) (hrel : op ≠ .release .wait := by simp) :
    Steps nproc d c i k ⟨op, d.setProc j p', .run i k'⟩ :=
  Steps.slot hc (hi.trans hs.symm) rfl (by rw [Data.setProc_ne (ne_of_making h hi)])
    (h.build hd hi hstate hmaker hserial hpid hparent) (hok (h.setProc hi hstate hmaker hserial rfl)) fun e => absurd e hrel

theorem steps_fork (hd : Good nproc d) (hc : d.cpu c = some i) (hi : (d.proc i).state = .running)
    (hok : k.Ok nproc d i) (hfree : Acquires d ins) (h : forkCode nproc d i ch k = some ins) :
    Steps nproc d c i k ins := by
  have hquiet {k' : Kpc} {op : Op Lock} := @Steps.quiet nproc d c i k k' op hd hc hi
  have hfails {j : ℕ} (hm : Making d i j none) (hl : .proc j ∈ k.locks i) :
      Steps nproc d c i k (forkFails d i j) :=
    Steps.slot hc hi rfl (by rw [Data.setProc_ne (ne_of_making hm hi)])
      (hm.fail hd hi (.inl hl)) trivial
  cases k <;> simp only [forkCode, reduceCtorEq] at h
  case allocScan j =>
    split_ifs at h with hj hu <;> cases h
    · exact hquiet rfl ⟨hj, hu⟩
    · exact hquiet rfl trivial
    · exact hquiet rfl trivial
  case allocPid j =>
    cases h
    have hnext : 1 < d.next := by
      have := hd.table.serial initproc (Table.used_of_live hd.table.init.1)
      rw [hd.table.init.2] at this
      exact this.2.1
    refine Steps.slot hc hi rfl rfl
      (allocpid_good hd (.inr (by simp [Kpc.locks])) rfl _ (awake_of_running hi)) ?_
    refine ⟨hok.1, hok.2, by simp only; omega, hd.table.nextpid, fun x hx => ?_, hd.logged.below⟩
    exact (hd.table.serial x hx).2.1
  case allocPidDone j pid =>
    cases h
    have hij : i ≠ j := fun e => by
      rw [e, hok.2.1] at hi
      cases hi
    obtain ⟨hg, hgood, hm⟩ := born_good (c := c)
      ({ l | l ∈ (Kpc.allocPidDone j pid).locks i } ∪ { l | l ∈ (Kpc.allocTrapframe j).locks i })
      hd hi hok (.inl (by simp [Kpc.locks])) (.inl (by simp [Kpc.locks])) rfl
    exact Steps.slot hc hi rfl (by simp [Data.setProc_ne hij]) ⟨hg, hgood⟩ hm
  case allocTrapframe j =>
    split at h
    case h_2 => cases h
    case h_1 pa =>
      split_ifs at h <;> cases h
      · exact hfails hok (by simp [Kpc.locks])
      · exact hok.steps hd hc hi rfl hok.used hok.maker rfl rfl (.inl ⟨rfl, rfl⟩) (fun h => hok.parent ▸ h) (by simp)
  case allocPagetable j =>
    split at h
    case h_2 => cases h
    case h_1 pa =>
      split_ifs at h <;> cases h
      · exact hfails hok (by simp [Kpc.locks])
      · exact hok.steps hd hc hi rfl hok.used hok.maker rfl rfl (.inl ⟨rfl, rfl⟩)
          (fun h => ⟨hok.parent ▸ h, by simp⟩) (by simp)
  case forkCopy j =>
    obtain ⟨hm, hcontext⟩ := hok
    split at h
    case h_2 => cases h
    case h_1 ok =>
      split_ifs at h <;> cases h
      · exact hm.steps hd hc hi rfl hm.used hm.maker rfl rfl (.inl ⟨rfl, rfl⟩)
          (fun h => ⟨hm.parent ▸ h, by simpa using hcontext⟩) (by simp)
      · exact hfails hm (by simp [Kpc.locks])
  case forkParent j =>
    obtain ⟨hm, hcontext⟩ := hok
    cases h
    have hlost : NoLost d := hfree .wait rfl
    exact hm.steps hd hc hi rfl hm.used hm.maker rfl rfl (.inr ⟨rfl, .inr (by simp [Kpc.locks])⟩)
      (fun h => ⟨h, by simpa using hcontext, hlost.setProc (by simp [hm.used]) (by simp [hm.used])⟩) (by simp)
  case forkRun j =>
    obtain ⟨hm, hcontext⟩ := hok
    cases h
    exact Steps.slot hc hi rfl (by simp [Data.setProc_ne (ne_of_making hm hi)])
      (hm.finish hcontext hd hi (.inr (by simp [Kpc.locks])) rfl) trivial
  case forkParentDone j =>
    cases h
    exact hquiet rfl ⟨hok.1, hok.2.1⟩ fun _ => hok.2.2
  case forkUnlock j =>
    cases h
    exact hquiet rfl hok
  all_goals
    cases h
    exact hquiet rfl trivial

/-! ## Wakeup and exit -/

theorem asleep_wake {chan : Option Chan} {k q : ℕ}
    (h : Asleep (d.setProc k ((d.proc k).wake chan)) q) :
    Asleep d q ∧ ¬ (q = k ∧ chan = some (.proc k)) := by
  unfold Asleep at h ⊢
  by_cases e : q = k
  · subst e
    rw [Data.setProc_self] at h
    unfold Proc.wake at h
    split_ifs at h with hw
    · cases h.1
    · exact ⟨h, fun hc => hw ⟨h.1, h.2.trans hc.2.symm⟩⟩
  · rw [Data.setProc_ne e] at h
    exact ⟨h, fun hc => e hc.1⟩

theorem wake_other {chan : Option Chan} {k : ℕ} (x : ℕ) :
    ((d.setProc k ((d.proc k).wake chan)).proc x).parent = (d.proc x).parent ∧
      (((d.setProc k ((d.proc k).wake chan)).proc x).state = .zombie → (d.proc x).state = .zombie) := by
  by_cases e : x = k
  · subst e
    rw [Data.setProc_self]
    have hm := Mild.wake (d.proc x) chan
    refine ⟨hm.parent, fun hz => ?_⟩
    obtain e | ⟨-, e⟩ := hm.state
    · rwa [← e]
    · rw [e] at hz
      cases hz
  · rw [Data.setProc_ne e]
    exact ⟨rfl, id⟩

theorem NoLost.wake {chan : Option Chan} {k : ℕ} (h : NoLost d) :
    NoLost (d.setProc k ((d.proc k).wake chan)) := by
  intro q x hq hx hz
  rw [(wake_other x).1] at hx
  exact h q x (asleep_wake hq).1 hx ((wake_other x).2 hz)

/-- `wakeup` has dealt with slot `k`. -/
theorem After.Ok.woken {after : After} {chan : Option Chan} {k : ℕ} (h : after.Ok d i chan k) :
    after.Ok (d.setProc k ((d.proc k).wake chan)) i chan (k + 1) := by
  cases after with
  | user => trivial
  | reparent j status =>
    obtain ⟨hi, hchan, hch, hp⟩ := h
    refine ⟨hi, hchan, fun x hx => by rw [(wake_other x).1]; exact hch x hx, fun q x hq hx hz => ?_⟩
    rw [(wake_other x).1] at hx
    obtain ⟨ha, hk⟩ := asleep_wake hq
    obtain ⟨rfl, hle⟩ := hp q x ha hx ((wake_other x).2 hz)
    refine ⟨rfl, Nat.lt_of_le_of_ne hle fun e => hk ⟨e.symm, ?_⟩⟩
    rw [hchan, e]
  | exit status =>
    obtain ⟨hi, hch, hn, q, hq, hchan, hs⟩ := h
    refine ⟨hi, fun x => by rw [(wake_other x).1]; exact hch x, hn.wake, q, ?_, hchan, fun hk ha => ?_⟩
    · rw [(wake_other i).1, hq]
    · obtain ⟨ha, hne⟩ := asleep_wake ha
      by_cases e : q = k
      · exact hne ⟨e, by rw [hchan, e]⟩
      · exact hs (by omega) ha

/-- `wakeup` leaves out the process that runs it. -/
theorem After.Ok.skip {after : After} {chan : Option Chan} (h : after.Ok d i chan i)
    (hi : (d.proc i).state = .running) : after.Ok d i chan (i + 1) := by
  have hne : ¬ Asleep d i := fun ha => by
    rw [Asleep, hi] at ha
    cases ha.1
  cases after with
  | user => trivial
  | reparent j status =>
    obtain ⟨hi, hchan, hch, hp⟩ := h
    refine ⟨hi, hchan, hch, fun q x hq hx hz => ?_⟩
    obtain ⟨rfl, hle⟩ := hp q x hq hx hz
    exact ⟨rfl, Nat.lt_of_le_of_ne hle hi⟩
  | exit status =>
    obtain ⟨hi, hch, hn, q, hq, hchan, hs⟩ := h
    refine ⟨hi, hch, hn, q, hq, hchan, fun hk ha => ?_⟩
    by_cases e : q = i
    · exact hne (e ▸ ha)
    · exact hs (by omega) ha

theorem Table.lt_of_live (ht : Table nproc d) (h : (d.proc j).state.Live) : j < nproc := by
  by_contra hj
  exact Table.used_of_live h (ht.outside j (not_lt.1 hj))

/-- `wakeup` has come to the end of the table. -/
theorem After.Ok.done {after : After} {chan : Option Chan} {k : ℕ} (h : after.Ok d i chan k)
    (ht : Table nproc d) (hk : nproc ≤ k) : after.kpc.Ok nproc d i := by
  cases after with
  | user => trivial
  | reparent j status =>
    obtain ⟨hi, -, hch, hp⟩ := h
    refine ⟨hi, hch, fun q x hq hx hz => ?_⟩
    have hle := (hp q x hq hx hz).2
    have := ht.lt_of_live ht.init.1
    omega
  | exit status =>
    obtain ⟨hi, hch, hn, q, hq, -, hs⟩ := h
    refine ⟨hi, hch, hn, fun q' hq' => ?_⟩
    obtain rfl := Option.some.inj (hq.symm.trans hq')
    have := ht.lt_of_live (ht.live i q hq)
    exact hs (by omega)

theorem steps_exit (hd : Good nproc d) (hc : d.cpu c = some i) (hi : (d.proc i).state = k.state)
    (hok : k.Ok nproc d i) (hfree : Acquires d ins) (h : exitCode nproc d i k = some ins) :
    Steps nproc d c i k ins := by
  have hquiet {k' : Kpc} {op : Op Lock} := @Steps.quiet nproc d c i k k' op hd hc
  have ht := hd.table
  cases k <;> simp only [exitCode, reduceCtorEq] at h
  case exitLock status =>
    cases h
    exact hquiet hi rfl ⟨hok, fun x hx => absurd hx (Nat.not_lt_zero x), hfree .wait rfl⟩
  case reparent j status =>
    obtain ⟨hinit, hch, hlost⟩ := hok
    split_ifs at h with hj hp <;> cases h
    · have hij (x : ℕ) (e : x = j) : ((d.setProc j { d.proc j with parent := some initproc }).proc x).parent =
          some initproc := by rw [e, Data.setProc_self]
      refine Steps.slot hc hi rfl ?_
        (reparent_good hd hi hinit hp (.inl (by simp [Kpc.locks])) rfl) ?_
      · by_cases e : i = j
        · rw [e, Data.setProc_self]
        · rw [Data.setProc_ne e]
      · refine ⟨hinit, rfl, fun x hx => ?_, fun q x hq hx hz => ?_⟩
        · by_cases e : x = j
          · rw [hij x e]
            exact fun h => hinit (Option.some.inj h).symm
          · rw [Data.setProc_ne e]
            exact hch x (by omega)
        · have hq' : Asleep d q := by
            unfold Asleep at hq ⊢
            by_cases e : q = j
            · subst e
              rwa [Data.setProc_self] at hq
            · rwa [Data.setProc_ne e] at hq
          by_cases e : x = j
          · rw [hij x e] at hx
            exact ⟨(Option.some.inj hx).symm, Nat.zero_le _⟩
          · rw [Data.setProc_ne e] at hx hz
            exact absurd hz (hlost q x hq' hx)
    · refine hquiet hi rfl ⟨hinit, fun x hx => ?_, hlost⟩
      by_cases e : x = j
      · rwa [e]
      · exact hch x (by omega)
    · have hused : (d.proc i).state ≠ .unused := by rw [hi]; simp [Kpc.state]
      have hsome : (d.proc i).parent ≠ none := fun hnone => by
        have := (ht.parents i hinit hused hnone).1
        rw [hi] at this
        cases this
      obtain ⟨q, hq⟩ := Option.ne_none_iff_exists'.1 hsome
      refine hquiet hi rfl ⟨hinit, fun x hx => ?_, hlost, q, hq, by rw [hq]; rfl,
        fun h => absurd h (Nat.not_lt_zero q)⟩
      by_cases hxj : x < j
      · exact hch x hxj hx
      · exact ht.used_of_parent hx (ht.outside x (by omega))
  case exitSelf status =>
    obtain ⟨hinit, hch, hlost, hparent⟩ := hok
    cases h
    obtain ⟨hg, hgood⟩ := zombie_good (c := c) status
      ({ l | l ∈ (Kpc.exitSelf status).locks i } ∪ { l | l ∈ Kpc.exitSched.locks i })
      hd hi hinit hch (.inl (by simp [Kpc.locks])) (.inr (by simp [Kpc.locks])) rfl
    refine ⟨hg, hgood, ⟨hc, by simp [Kpc.state], ?_⟩, fun h => by cases h⟩
    intro q x hq hx hz
    have hqi : q ≠ i := fun e => by
      unfold Asleep at hq
      rw [Data.note_proc, e, Data.setProc_self] at hq
      cases hq.1
    have hq' : Asleep d q := by
      unfold Asleep at hq ⊢
      rwa [Data.note_proc, Data.setProc_ne hqi] at hq
    by_cases e : x = i
    · subst e
      rw [Data.note_proc, Data.setProc_self] at hx
      exact hparent q hx hq'
    · rw [Data.note_proc, Data.setProc_ne e] at hx hz
      exact hlost q x hq' hx hz
  case exitSched =>
    cases h
    exact ⟨Guarantee.refl d c _ _, hd, ⟨hc, by rw [hi]; simp [Kpc.state]⟩, fun _ => hok⟩
  case wakeup chan k after =>
    split_ifs at h with hk e <;> cases h
    · subst e
      exact hquiet hi rfl (After.Ok.skip hok hi)
    · exact Steps.slot hc hi rfl (by rw [Data.setProc_ne (Ne.symm e)])
        ((Mild.wake _ _).setProc hd (awake_of_running hi) (.inr (.inr (by simp [Kpc.locks])))) hok.woken
    · refine hquiet hi ?_ (hok.done ht (not_lt.1 hk))
      cases after <;> rfl
  case wakeupNext chan k after =>
    cases h
    exact hquiet hi rfl hok

/-! ## Wait -/

theorem steps_wait (hd : Good nproc d) (hc : d.cpu c = some i) (hi : (d.proc i).state = .running)
    (hok : k.Ok nproc d i) (hfree : Acquires d ins) (h : waitCode nproc d i ch k = some ins) :
    Steps nproc d c i k ins := by
  have hquiet {k' : Kpc} {op : Op Lock} := @Steps.quiet nproc d c i k k' op hd hc hi
  have ht := hd.table
  cases k <;> simp only [waitCode, reduceCtorEq] at h
  case waitLock addr =>
    cases h
    exact hquiet rfl ⟨hfree .wait rfl, fun x hx => absurd hx (Nat.not_lt_zero x)⟩
  case waitScan addr j havekids =>
    obtain ⟨hlost, hkids⟩ := hok
    -- at the end of the table every child has been looked at
    have hall (hj : ¬ j < nproc) (x : ℕ) (hx : (d.proc x).parent = some i) :
        (d.proc x).state ≠ .zombie := by
      by_cases hxj : x < j
      · exact hkids x hxj hx
      · exact absurd (ht.outside x (by omega)) (ht.used_of_parent hx)
    split_ifs at h with hj hp hz hkid
    · split at h
      case h_2 => cases h
      case h_1 ok =>
        split_ifs at h with hfail <;> cases h
        · exact hquiet rfl ⟨hlost, hp, hz⟩
        · have hij : i ≠ j := fun e => by
            rw [e, hz] at hi
            cases hi
          have hserial : ((reap d i j addr).proc i) = d.proc i := Function.update_of_ne hij _ _
          refine Steps.slot hc hi rfl (by rw [hserial])
            (reap_good hd hi hp hz (.inl (by simp [Kpc.locks])) (.inr (by simp [Kpc.locks])))
            ⟨NoLost.setProc hlost (by simp [freeproc]) (by simp [freeproc]), ?_⟩
          rw [hserial]
          exact ⟨addr, _, List.mem_append_right _ (List.mem_singleton_self _)⟩
    · cases h
      refine hquiet rfl ⟨hlost, fun x hx hxp => ?_⟩
      by_cases e : x = j
      · rwa [e]
      · exact hkids x (by omega) hxp
    · cases h
      refine hquiet rfl ⟨hlost, fun x hx hxp => ?_⟩
      by_cases e : x = j
      · rw [e] at hxp
        exact absurd hxp hp
      · exact hkids x (by omega) hxp
    · cases h
      exact hquiet rfl ⟨hlost, hall hj⟩
    · cases h
      exact hquiet rfl ⟨hlost, rfl⟩
  case waitNext addr j =>
    cases h
    exact hquiet rfl hok
  case waitReaped j pid child =>
    cases h
    exact hquiet rfl hok
  case waitFail j =>
    cases h
    exact hquiet rfl ⟨hok.1, rfl⟩
  case waitKilled addr killed =>
    cases h
    cases killed
    · exact hquiet rfl hok
    · exact hquiet rfl ⟨hok.1, rfl⟩
  case waitReturn pid child =>
    cases h
    exact Steps.slot hc hi rfl rfl (waited_good hd (awake_of_running hi) hok.2) trivial fun _ => hok.1

/-! ## Sleep, yield and kill -/

theorem steps_sleep (hd : Good nproc d) (hc : d.cpu c = some i) (hi : (d.proc i).state = .running)
    (hok : k.Ok nproc d i) (hfree : Acquires d ins) (h : sleepCode d i k = some ins) :
    Steps nproc d c i k ins := by
  have hquiet {k' : Kpc} {op : Op Lock} := @Steps.quiet nproc d c i k k' op hd hc hi
  cases k <;> simp only [sleepCode, reduceCtorEq] at h
  case sleepLock w =>
    cases h
    exact hquiet rfl (by cases w <;> exact hok)
  case sleepSched w =>
    cases h
    have hwait (hchan : some (w.chan i) = some (.proc i)) : Lock.wait ∈
        { l | l ∈ (Kpc.sleepSched w).locks i } ∪ { l | l ∈ (Pc.back i).locks } := by
      cases w with
      | wait addr => exact .inl (by simp [Kpc.locks, Sleeper.locks])
      | other n => cases hchan
    obtain ⟨hg, hgood⟩ := park_good (c := c) (k := .sleepWoken w) _ hd hi (.inl (by simp [Kpc.locks]))
      (.inr rfl) (fun _ => hwait) trivial rfl
    refine ⟨hg, hgood, ⟨hc, by simp⟩, fun hrel => ?_⟩
    cases w with
    | other n => cases hrel
    | wait addr =>
      obtain ⟨hlost, hkids⟩ := hok
      intro q x hq hx
      by_cases ex : x = i
      · rw [ex]
        simp
      · rw [Data.setProc_ne ex] at hx ⊢
        by_cases eq : q = i
        · exact hkids x (eq ▸ hx)
        · refine hlost q x ?_ hx
          unfold Asleep at hq ⊢
          rwa [Data.setProc_ne eq] at hq
  case sleepWoken w =>
    cases h
    exact Steps.slot hc hi rfl (by simp)
      ((Mild.of_running hi rfl).setProc hd (awake_of_running hi) (.inl rfl)) trivial
  case sleepRelock w =>
    cases h
    cases w with
    | wait addr =>
      exact hquiet rfl ⟨hfree .wait rfl, fun x hx => absurd hx (Nat.not_lt_zero x)⟩ (by simp [Sleeper.acquire])
    | other n => exact hquiet rfl trivial (by simp [Sleeper.acquire])
  case yield k =>
    cases h
    obtain ⟨hg, hgood⟩ := park_good (c := c) (k := .resume k)
      ({ l | l ∈ (Kpc.yield k).locks i } ∪ { l | l ∈ (Pc.back i).locks }) hd hi
      (.inr (by simp [Pc.locks])) (.inl rfl) (fun h => by cases h) hok rfl
    exact ⟨hg, hgood, ⟨hc, by simp⟩, fun h => by cases h⟩
  case resume k =>
    cases h
    have hk : k.state = .running := by
      cases k <;> first | rfl | exact absurd hok.1 (by simp [Kpc.locks])
    exact hquiet hk hok.2

theorem steps_kill (hd : Good nproc d) (hc : d.cpu c = some i) (hi : (d.proc i).state = .running)
    (h : killCode nproc d i k = some ins) : Steps nproc d c i k ins := by
  have hquiet {k' : Kpc} {op : Op Lock} := @Steps.quiet nproc d c i k k' op hd hc hi
  cases k <;> simp only [killCode, reduceCtorEq] at h
  case killScan pid k =>
    split_ifs at h <;> cases h
    · refine Steps.slot hc hi rfl ?_
        ((Mild.kill _).setProc_note hd (awake_of_running hi) (.inr (.inr (by simp [Kpc.locks]))) rfl (by simp))
        trivial
      by_cases e : i = k
      · subst e
        rw [Data.note_proc, Data.setProc_self, (Mild.kill _).running hi, hi]
      · rw [Data.note_proc, Data.setProc_ne e]
    · exact hquiet rfl trivial
    · exact hquiet rfl trivial
  case fault =>
    cases h
    exact Steps.slot hc hi rfl (by simp)
      ((Mild.of_running hi rfl).setProc_note hd (awake_of_running hi) (.inl rfl) rfl (by simp)) trivial
  all_goals
    cases h
    exact hquiet rfl trivial

theorem steps_kcode (hd : Good nproc d) (hc : d.cpu c = some i) (hi : (d.proc i).state = k.state)
    (hok : k.Ok nproc d i) (hfree : Acquires d ins) (h : kcode nproc d i ch k = some ins) :
    Steps nproc d c i k ins := by
  cases k <;> simp only [kcode] at h
  case user =>
    split at h
    case h_2 => cases h
    case h_1 call =>
      cases call <;> simp only [userCode] at h
      case exit status =>
        split_ifs at h with hinit
        cases h
        exact Steps.quiet hd hc hi rfl hinit
      case space sz pagetable =>
        cases h
        exact Steps.slot hc hi rfl (by simp)
          ((Mild.of_running hi rfl).setProc hd (awake_of_running hi) (.inl rfl)) trivial
      all_goals
        cases h
        exact Steps.quiet hd hc hi rfl trivial
  all_goals first
    | exact steps_fork hd hc hi hok hfree h
    | exact steps_exit hd hc hi hok hfree h
    | exact steps_wait hd hc hi hok hfree h
    | exact steps_sleep hd hc hi hok hfree h
    | exact steps_kill hd hc hi h

/-! ## The outline -/

/-- The process that a CPU at this point runs. -/
def Pc.me : Pc → Option ℕ
  | .run i _ => some i
  | _ => none

theorem Kpc.Saved.ok (h : k.Saved nproc d i) : k.Ok nproc d i ∧ k.state = .running := by
  cases k <;> first | exact ⟨h, rfl⟩ | exact h.elim

/-- What a step of CPU `c` achieves. -/
theorem code_steps (h : Enabled (code nproc) holds (Good nproc) Free (At nproc) d c pc ch ins) :
    Guarantee d ins.data c pc.me (holds c pc ∪ holds c ins.pc) ∧ Good nproc ins.data ∧
      At nproc ins.data c ins.pc ∧ (ins.op = .release .wait → NoLost ins.data) := by
  obtain ⟨hd, hat, hcode, hfree, hapart⟩ := h
  cases pc with
  | scan j =>
    simp only [code] at hcode
    split at hcode
    case h_1 n =>
      cases hcode
      exact ⟨Guarantee.refl d c _ _, hd, hat, fun h => by cases h⟩
    case h_2 =>
    split_ifs at hcode with hj hs <;> cases hcode
    · have hsaved := hd.table.saved j (.inl hs)
      have hlock : Lock.proc j ∈ holds c (.run j (d.proc j).context) := by
        simp [holds, Pc.locks, hsaved.locks]
      -- a CPU with this process would run it or hold its lock
      have hother (c' : ℕ) : d.cpu c' ≠ some j := fun hc' => by
        by_cases e : c' = c
        · have hnone : d.cpu c = none := hat
          rw [e, hnone] at hc'
          cases hc'
        obtain ⟨pc', hpc', huntouched⟩ := hapart c' e
        cases pc' with
        | run i k =>
          obtain ⟨hi, hstate, -⟩ := hpc'
          obtain rfl := Option.some.inj (hi.symm.trans hc')
          rw [hs] at hstate
          cases k <;> cases hstate
        | back i =>
          obtain rfl := Option.some.inj (hpc'.1.symm.trans hc')
          exact (huntouched (.proc i) (by simp [holds, Pc.locks])).2 hlock
        | _ =>
          have hnone : d.cpu c' = none := hpc'
          rw [hnone] at hc'
          cases hc'
      obtain ⟨hg, hgood⟩ := select_good (c := c) (holds c (.scan j) ∪ holds c (.run j (d.proc j).context)) hd hs
        (.inr hlock) hat hother rfl
      have hsaved' := hsaved.stable hg.toFrame (by simp) (by rw [hs]; simp)
      exact ⟨hg, hgood, ⟨by simp [Data.setCpu], by simp [Data.setCpu, hsaved.ok.2], hsaved'.ok.1⟩,
        fun h => by cases h⟩
    · exact ⟨Guarantee.refl d c _ _, hd, hat, fun h => by cases h⟩
    · exact ⟨Guarantee.refl d c _ _, hd, hat, fun h => by cases h⟩
  | skip j | wakeupNext n k j =>
    simp only [code] at hcode
    cases hcode
    exact ⟨Guarantee.refl d c _ _, hd, hat, fun h => by cases h⟩
  | back j =>
    simp only [code] at hcode
    cases hcode
    obtain ⟨hg, hgood⟩ := back_good hd hat.1 hat.2.2
    exact ⟨hg, hgood, by simp [At, Data.setCpu], fun h => by cases h⟩
  | wakeup n k j =>
    simp only [code] at hcode
    split_ifs at hcode <;> cases hcode
    · have hlock : Lock.proc k ∈ holds c (.wakeup n k j) ∪ holds c (.wakeupNext n k j) :=
        .inr (by simp [holds, Pc.locks])
      obtain ⟨hg, hgood⟩ := (Mild.wake (d.proc k) (some (.other n))).setProc (c := c) hd awake_none
        (.inr hlock)
      exact ⟨hg, hgood, hat, fun h => by cases h⟩
    · exact ⟨Guarantee.refl d c _ _, hd, hat, fun h => by cases h⟩
  | run i k =>
    simp only [code] at hcode
    obtain ⟨hc, hi, hok⟩ := hat
    split at hcode
    · split_ifs at hcode with hk
      cases hcode
      have hstate : k.state = .running := by
        cases k <;> first | rfl | exact absurd hk (by simp [Kpc.locks])
      exact ⟨Guarantee.refl d c _ _, hd, ⟨hc, hi.trans hstate, hk, hok⟩, fun h => by cases h⟩
    · have hsteps := steps_kcode hd hc hi hok hfree hcode
      exact ⟨hsteps.guarantee, hsteps.good, hsteps.point, hsteps.released⟩

theorem At.stable {d' : Data} {c' : ℕ} {pc' : Pc} {me : Option ℕ} {held : Set Lock} (ht : Table nproc d)
    (hg : Guarantee d d' c me held) (hme : ∀ i, me = some i → d.cpu c = some i) (hne : c' ≠ c)
    (h : At nproc d c' pc') (hl : ∀ l ∈ holds c' pc', l ∉ held) : At nproc d' c' pc' := by
  have hcpu := hg.cpu c' hne
  cases pc' with
  | run i k =>
    obtain ⟨hc, hi, hok⟩ := h
    have hmei : me ≠ some i := fun e => hne (ht.cpu c' c i hc (hme i e))
    have hused : (d.proc i).state ≠ .unused := by
      rw [hi]
      cases k <;> simp [Kpc.state]
    refine ⟨hcpu.trans hc, ?_, hok.stable hg.toFrame hmei hused hl⟩
    by_cases hk : k.state = .running
    · rw [hk] at hi ⊢
      exact hg.running i hmei hi
    · have hlock : Lock.proc i ∈ holds c' (.run i k) := by
        cases k <;> first | exact absurd rfl hk | exact List.mem_cons_self
      rw [hg.state i (hl _ hlock), hi]
  | back i =>
    refine ⟨hcpu.trans h.1, ?_⟩
    rw [hg.state i (hl _ (by simp [holds, Pc.locks]))]
    exact h.2
  | _ => exact hcpu.trans h

theorem outline (nproc : ℕ) : Outline (code nproc) holds (Good nproc) Free (At nproc) where
  locks hd hat hcode := disciplined_code hd hat hcode
  own hen := by
    obtain ⟨-, hgood, hat, hrel⟩ := code_steps hen
    refine ⟨hgood, hat, fun l hl => ?_⟩
    cases l with
    | wait => exact hrel hl
    | _ => trivial
  free hen hun hl := by
    obtain ⟨hg, -⟩ := code_steps hen
    rename_i l
    cases l with
    | wait => exact NoLost.stable hl hg.toFrame fun hm => hm.elim hun.1 hun.2
    | _ => trivial
  other hen hne hat hun := by
    obtain ⟨hg, -⟩ := code_steps hen
    refine hat.stable hen.data.table hg (fun i hi => ?_) hne fun l hl hm => ?_
    · have hpoint := hen.point
      rename_i pc _ _ _ _
      cases pc with
      | run i' k =>
        obtain rfl := Option.some.inj hi
        exact hpoint.1
      | _ => cases hi
    · exact hm.elim (hun l hl).1 (hun l hl).2

end Xv6.Procs
