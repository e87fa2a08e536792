import Xv6.Procs.Reaping

/-!
# The process table

Pids are counted by `allocpid` in an `int`, so they are positive and distinct as long as it has handed
out fewer than `2 ^ 31 - 1` of them.  A `fork` that fails for lack of memory uses up a pid, too.
`Moves` is the state diagram of a process.
-/

namespace Xv6.Procs

open Threads Runs

variable {nproc : ℕ} {s t : Machine}

theorem toInt_ofNat_pos {n : ℕ} (h0 : 0 < n) (hn : n < 2 ^ 31) : 0 < (BitVec.ofNat 32 n).toInt := by
  rw [BitVec.toInt_eq_toNat_of_lt] <;> rw [BitVec.toNat_ofNat, Nat.mod_eq_of_lt (by omega)] <;> omega

theorem ofNat_inj {n m : ℕ} (hn : n < 2 ^ 32) (hm : m < 2 ^ 32)
    (h : BitVec.ofNat 32 n = BitVec.ofNat 32 m) : n = m := by
  have := congrArg BitVec.toNat h
  rwa [BitVec.toNat_ofNat, BitVec.toNat_ofNat, Nat.mod_eq_of_lt hn, Nat.mod_eq_of_lt hm] at this

/-- The table in every run.  `next - 1` is the number of pids that `allocpid` has handed out, that of
the first process included. -/
theorem process_table {es : List (ℕ × Choice)} (hn : 0 < nproc) (h : s.Boot)
    (hrun : run (step (code nproc)) s es = some t) :
    (t.data.next - 1 < 2 ^ 31 - 1 →
      (∀ j, (t.data.proc j).state ≠ .unused → 0 < (t.data.proc j).pid.toInt) ∧
      ∀ j x, (t.data.proc j).state ≠ .unused → (t.data.proc x).state ≠ .unused →
        (t.data.proc j).pid = (t.data.proc x).pid → j = x) ∧
    -- a running process is `c->proc` of exactly one CPU, and no two CPUs have the same process
    (∀ i, (t.data.proc i).state = .running → ∃! c, t.data.cpu c = some i) ∧
    (∀ c c' i, t.data.cpu c = some i → t.data.cpu c' = some i → c = c') ∧
    (∀ j, (t.data.proc j).state = .unused → (t.data.proc j).trapframe = 0 ∧
      (t.data.proc j).pagetable = 0 ∧ (t.data.proc j).sz = 0 ∧ (t.data.proc j).pid = 0 ∧
      (t.data.proc j).parent = none) ∧
    -- outside the window of `fork` every process but the first has a live parent
    ∀ j, j ≠ initproc → (t.data.proc j).state ≠ .unused → (t.data.proc j).window = false →
      ∃ q, (t.data.proc j).parent = some q ∧ (t.data.proc q).state ≠ .unused ∧
        (t.data.proc q).state ≠ .zombie := by
  have ht := (inv_run hn h hrun).data.table
  refine ⟨fun hnext => ⟨fun j hj => ?_, fun j x hj hx hpid => ?_⟩, fun i hi => ?_, ht.cpu, fun j hj => ?_,
    fun j hinit hj hwindow => ?_⟩
  · obtain ⟨h0, hlt, hpid⟩ := ht.serial j hj
    rw [hpid]
    exact toInt_ofNat_pos h0 (by omega)
  · obtain ⟨-, hltj, hpidj⟩ := ht.serial j hj
    obtain ⟨-, hltx, hpidx⟩ := ht.serial x hx
    rw [hpidj, hpidx] at hpid
    exact ht.distinct j x hj hx (ofNat_inj (by omega) (by omega) hpid)
  · obtain ⟨c, hc⟩ := ht.running i hi
    exact ⟨c, hc, fun c' hc' => ht.cpu c' c i hc' hc⟩
  · have hclear := ht.cleared j hj
    rw [Cleared] at hclear
    rw [hclear]
    exact ⟨rfl, rfl, rfl, rfl, rfl⟩
  · have hsome : (t.data.proc j).parent ≠ none := fun hnone => by
      have := (ht.parents j hinit hj hnone).2
      rw [hwindow] at this
      cases this
    obtain ⟨q, hq⟩ := Option.ne_none_iff_exists'.1 hsome
    have hlive := ht.live j q hq
    exact ⟨q, hq, fun e => by rw [e] at hlive; exact hlive, fun e => by rw [e] at hlive; exact hlive⟩

/-- The first process makes a child. -/
def forkChild : List (ℕ × Choice) := forkExitWait.take 16

theorem process_table_forkChild :
    ∃ t, run (step (code 2)) booted forkChild = some t ∧
      (t.data.proc 1).state = .runnable ∧ (t.data.proc 1).pid = 2 ∧ 0 < (t.data.proc 1).pid.toInt := by
  have hend : (run (step (code 2)) booted forkChild).map
      (fun t => ((t.data.proc 1).state, (t.data.proc 1).pid, t.data.next)) = some (.runnable, 2, 3) := rfl
  obtain ⟨t, ht, e⟩ := Option.map_eq_some_iff.1 hend
  obtain ⟨hs, hpid, hnext⟩ : (t.data.proc 1).state = .runnable ∧ (t.data.proc 1).pid = 2 ∧
      t.data.next = 3 := by simpa using e
  refine ⟨t, ht, hs, hpid, ?_⟩
  exact ((process_table (by decide) booted_boot ht).1 (by rw [hnext]; norm_num)).1 1 (by rw [hs]; simp)

/-! ## The state diagram -/

/-- The arrows of the state diagram of slot `j`, with the process that takes the step, if any. -/
inductive Moves (p : Proc) (j : ℕ) : Option ℕ → ProcState → ProcState → Prop
  | allocproc {i : ℕ} : Moves p j (some i) .unused .used
  | freeproc {i : ℕ} (maker : p.maker = some i) : Moves p j (some i) .used .unused
  | fork {i : ℕ} (maker : p.maker = some i) : Moves p j (some i) .used .runnable
  | scheduler : Moves p j none .runnable .running
  | yield : Moves p j (some j) .running .runnable
  | sleep : Moves p j (some j) .running .sleeping
  | exit : Moves p j (some j) .running .zombie
  | wakeup {me : Option ℕ} : Moves p j me .sleeping .runnable
  | wait {i : ℕ} (parent : p.parent = some i) : Moves p j (some i) .zombie .unused

def Follows (me : Option ℕ) (j : ℕ) (p p' : Proc) : Prop := p'.state = p.state ∨ Moves p j me p.state p'.state

theorem code_follows {d : Data} {c : ℕ} {pc : Pc} {ch : Choice} {ins : Instr Lock Data Pc} (hat : At nproc d c pc)
    (h : code nproc d c pc ch = some ins) (j : ℕ) : Follows pc.me j (d.proc j) (ins.data.proc j) := by
  have hset {x : ℕ} {p : Proc} (hp : Follows pc.me x (d.proc x) p) :
      Follows pc.me j (d.proc j) ((d.setProc x p).proc j) := by
    by_cases e : j = x
    · rwa [e, Data.setProc_self]
    · exact .inl (by rw [Data.setProc_ne e])
  have hwake (x : ℕ) (chan : Option Chan) : Follows pc.me x (d.proc x) ((d.proc x).wake chan) := by
    unfold Proc.wake
    split_ifs with hs
    · exact .inr (hs.1 ▸ .wakeup)
    · exact .inl rfl
  have hkill (x : ℕ) : Follows pc.me x (d.proc x) (d.proc x).kill := by
    unfold Proc.kill
    split_ifs with hs
    · exact .inr (hs ▸ .wakeup)
    · exact .inl rfl
  cases pc with
  | run i k =>
    obtain ⟨-, hi, hok⟩ := hat
    have hfails {x : ℕ} (hm : Making d i x none) : Follows (some i) x (d.proc x) (freeproc (d.proc x)) :=
      .inr (hm.used ▸ .freeproc hm.maker)
    simp only [code] at h
    split at h
    · split_ifs at h
      cases h
      exact .inl rfl
    cases k <;> simp only [kcode, userCode, forkCode, exitCode, waitCode, sleepCode, killCode] at h
    all_goals (repeat' split at h) <;> cases h
    all_goals first
      | exact .inl rfl
      | exact hset (.inl rfl)
      | exact hset (hwake _ _)
      | exact hset (hkill _)
      | exact hset (hfails hok)
      | exact hset (hfails hok.1)
      | exact hset (.inr (hi ▸ .yield))
      | exact hset (.inr (hi ▸ .sleep))
      | exact hset (.inr (hi ▸ .exit))
      | exact hset (.inr (hok.2.1 ▸ .allocproc))
      | exact hset (.inr (hok.1.used ▸ .fork hok.1.maker))
      | exact hset (.inr (‹(d.proc _).state = .zombie› ▸ .wait ‹_›))
  | _ =>
    simp only [code] at h
    (repeat' split at h) <;> cases h
    all_goals first
      | exact .inl rfl
      | exact hset (hwake _ _)
      | exact hset (.inr (‹(d.proc _).state = .runnable› ▸ .scheduler))

/-- Every step of every run leaves the state of a slot or follows an arrow of the diagram. -/
theorem state_diagram {es : List (ℕ × Choice)} {e : ℕ × Choice} {u : Machine} (hn : 0 < nproc) (h : s.Boot)
    (hrun : run (step (code nproc)) s es = some t) (hstep : step (code nproc) t e = some u) (j : ℕ) :
    Follows (t.pc e.1).me j (t.data.proc j) (u.data.proc j) := by
  obtain ⟨ins, lock, hins, -, rfl⟩ := step_eq_some.1 hstep
  exact code_follows ((inv_run hn h hrun).point e.1) hins j

theorem state_diagram_fork : ∃ t u, run (step (code 2)) booted (forkChild.take 14) = some t ∧
    step (code 2) t (0, .go) = some u ∧ (t.data.proc 1).state = .used ∧ (u.data.proc 1).state = .runnable ∧
    Follows (t.pc 0).me 1 (t.data.proc 1) (u.data.proc 1) := by
  refine ⟨_, _, rfl, rfl, rfl, rfl, ?_⟩
  exact @state_diagram 2 booted _ (forkChild.take 14) (0, .go) _ Nat.zero_lt_two booted_boot rfl rfl 1

/-! ## Failed forks -/

/-- The number of processes that were created: the first one, and one for each `fork` that succeeded. -/
def created (notes : List Note) : ℕ :=
  1 + (notes.filter fun
    | .made _ => true
    | _ => false).length

/-- The first process is in user space and no other process exists; `fork` has failed so often that the
next process is number `n`. -/
structure Alone (n : ℕ) (t : Machine) : Prop where
  pc : t.pc 0 = .run 0 .user
  init : (t.data.proc 0).state ≠ .unused
  free : (t.data.proc 1).state = .unused
  lock : ∀ l, t.lock l = none
  nextpid : t.data.nextpid = BitVec.ofNat 32 n
  made : created t.data.notes = 1

/-- `allocproc` of the first process has claimed slot 1 for process `n`. -/
structure Claimed (n : ℕ) (t : Machine) : Prop where
  pc : t.pc 0 = .run 0 (.allocTrapframe 1)
  init : (t.data.proc 0).state ≠ .unused
  used : (t.data.proc 1).state = .used
  pid : (t.data.proc 1).pid = BitVec.ofNat 32 n
  lock : ∀ l, l ≠ .proc 1 → t.lock l = none
  nextpid : t.data.nextpid = BitVec.ofNat 32 (n + 1)
  made : created t.data.notes = 1

def forkStart : List (ℕ × Choice) :=
  [(0, .call .fork), (0, .go), (0, .go), (0, .go), (0, .go), (0, .go)]

theorem forkStart_run {n : ℕ} (h : Alone n t) :
    ∃ u, run (step (code 2)) t forkStart = some u ∧ Claimed n u := by
  have hinit := h.init
  have hmade := h.made
  simp only [forkStart, run, List.foldlM_cons, List.foldlM_nil, step, code, kcode, forkCode, userCode, h.pc,
    hinit, h.free, h.lock, Op.apply, Option.bind_some, Option.map_some, Option.isNone_none, if_true,
    Function.update_self, Nat.zero_lt_two, if_false, Option.bind_eq_bind, pure, Option.some.injEq,
    exists_eq_left', Nat.one_lt_two, Function.update_of_ne, ne_eq, reduceCtorEq, not_false_eq_true,
    Lock.proc.injEq, one_ne_zero, Nat.zero_add]
  constructor
  case lock =>
    intro l hl
    have hl' := h.lock l
    cases l with
    | wait => simp [hl']
    | pid => simp
    | proc j =>
      have hj : j ≠ 1 := fun e => hl (by rw [e])
      by_cases h0 : j = 0
      · simp [h0]
      · simp [hj, h0, hl']
  case made =>
    unfold created at hmade ⊢
    simpa [Data.note, Data.setProc] using hmade
  case nextpid =>
    simp only [Data.note, Data.setProc, h.nextpid, BitVec.ofNat_add]
    rfl
  all_goals simp [Data.note, Data.setProc, hinit, h.nextpid]

/-- The `kalloc` of `allocproc` finds no memory. -/
def forkNoMemory : List (ℕ × Choice) := [(0, .page 0), (0, .go)]

theorem forkNoMemory_run {n : ℕ} (h : Claimed n t) :
    ∃ u, run (step (code 2)) t forkNoMemory = some u ∧ Alone (n + 1) u := by
  have hinit := h.init
  have hmade := h.made
  simp only [forkNoMemory, run, List.foldlM_cons, List.foldlM_nil, step, code, kcode, forkCode, forkFails, h.pc,
    Op.apply, Option.bind_some, Option.map_some, if_true, Function.update_self, Option.bind_eq_bind, pure,
    Option.some.injEq, exists_eq_left']
  constructor
  case lock =>
    intro l
    by_cases e : l = .proc 1
    · simp [e]
    · simp [e, h.lock l e]
  case nextpid => exact h.nextpid
  case made => exact hmade
  all_goals simp [Data.setProc, freeproc, hinit]

theorem failed_forks (m : ℕ) : ∃ es t, run (step (code 2)) booted es = some t ∧ Alone (2 + m) t := by
  induction m with
  | zero =>
    refine ⟨[(0, .go), (0, .go)], _, rfl, rfl, by simp [booted, Data.setCpu, Data.setProc], rfl, fun l => ?_,
      rfl, rfl⟩
    by_cases e : l = .proc 0
    · simp [booted, e]
    · simp [booted, e]
  | succ m ih =>
    obtain ⟨es, t, ht, ha⟩ := ih
    obtain ⟨u, hu, hc⟩ := forkStart_run ha
    obtain ⟨v, hv, ha'⟩ := forkNoMemory_run hc
    refine ⟨es ++ (forkStart ++ forkNoMemory), v, ?_, ha'⟩
    rw [run_append, ht, Option.bind_some, run_append, hu, Option.bind_some, hv]

/-- After `2 ^ 31 - 2` failed forks the next one hands out a negative pid, though no process was created
since boot. -/
theorem failed_forks_use_up_pids : ∃ es t, run (step (code 2)) booted es = some t ∧
    created t.data.notes = 1 ∧ (t.data.proc 1).state = .used ∧ (t.data.proc 1).pid.toInt = -2 ^ 31 := by
  obtain ⟨es, t, ht, ha⟩ := failed_forks (2 ^ 31 - 2)
  obtain ⟨u, hu, hc⟩ := forkStart_run ha
  refine ⟨es ++ forkStart, u, ?_, hc.made, hc.used, ?_⟩
  · rw [run_append, ht, Option.bind_some, hu]
  · rw [hc.pid]
    decide

end Xv6.Procs
