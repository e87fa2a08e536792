import Xv6.Interrupts.Code

/-!
# The invariant of nested interrupt-off sections

`Good` is what holds of a CPU and the thread that runs on it: `noff` is the depth of that thread, the
locks that the CPU has taken are the thread's, and interrupts are off inside a section.  A thread that
does not run is `Parked` in `sched` or before `forkret`, or is a scheduler that waits for its process
(`Waiting`); both have a depth of one and hold exactly the lock of the process, so that `Good` passes
from one thread to the other at `swtch` with `noff` and the locks of the CPU as they are.
-/

namespace Xv6.Interrupts

open Procs (ProcState)

variable {Cpu Lock Proc : Type*}

/-- The calls left to a thread, with the one that it is in. -/
def rest : Pc Lock → List (Call Lock Proc) → List (Call Lock Proc)
  | .push _ none, cs => .pushOff :: cs
  | .push _ (some lk), cs | .test lk, cs | .spin lk, cs | .own lk, cs => .acquire lk :: cs
  | .check lk, cs => .release lk :: cs
  | _, cs => cs

/-- A lock that the thread has taken and that is not yet or no longer in `held`. -/
def Pc.taken : Pc Lock → List Lock
  | .own lk | .unlock lk => [lk]
  | _ => []

def Tcb.owns (T : Tcb Lock Proc) : List Lock := T.pc.taken ++ T.held

/-- The value that `intena` of the CPU has, or will have when `sched` returns. -/
def Pc.intena : Pc Lock → Bool → Bool
  | .resume i, _ => i
  | _, b => b

theorem depth_eq_zero {T : Tcb Lock Proc} : T.depth = 0 ↔ T.held = [] ∧ T.pushed = 0 ∧ T.pc.pending = 0 := by
  rw [Tcb.depth, ← List.length_eq_zero_iff]
  omega

theorem depth_pos_of_owns {T : Tcb Lock Proc} {lk : Lock} (h : lk ∈ T.owns) : 0 < T.depth := by
  by_contra h0
  obtain ⟨hheld, -, hpending⟩ := depth_eq_zero.1 (Nat.eq_zero_of_not_pos h0)
  rw [Tcb.owns, hheld, List.append_nil] at h
  cases hpc : T.pc <;> rw [hpc] at h hpending <;> cases h <;> cases hpending

variable [DecidableEq Lock] (plock : Proc → Lock)

/-- An interrupted point: outside every section. -/
def Interrupted (t : Thread Cpu Proc) (f : Pc Lock × List (Call Lock Proc)) : Prop :=
  (f.1 = .idle ∨ ∃ lk, f.1 = .push true lk) ∧ Matched plock t (rest f.1 f.2) [] 0 .running

/-- What holds of a CPU `k` that runs the thread `T`, with the locks that the CPU has taken and those
that name it in `cpu`. -/
structure Good (t : Thread Cpu Proc) (st : ProcState) (mine named : Lock → Prop) (k : Core)
    (T : Tcb Lock Proc) : Prop where
  noff : k.noff = T.depth
  off : 0 < T.depth → k.sie = false
  push : ∀ old lk, T.pc = .push old lk → k.sie = old
  mine : ∀ lk, mine lk ↔ lk ∈ T.owns
  nodup : T.owns.Nodup
  named : ∀ lk, named lk ↔ lk ∈ T.held
  matched : Matched plock t (rest T.pc T.todo) T.held T.pushed st
  outer : 0 < T.depth → ∀ b, T.outer = some b → T.pc.intena k.intena = b
  saved : ∀ f ∈ T.saved, Interrupted plock t f
  moved : st ≠ .running → ∃ lk ∈ T.held, ownLock plock t = some lk
  resume : ∀ i, T.pc = .resume i → T.held ≠ []
  panicked : k.panicked = none ∨ k.panicked = some "acquire"

/-- A thread that has been switched away from, with the lock of process `p` held. -/
structure Switched (t : Thread Cpu Proc) (p : Proc) (T : Tcb Lock Proc) : Prop where
  held : T.held = [plock p]
  pushed : T.pushed = 0
  matched : Matched plock t T.todo [plock p] 0 .running
  saved : ∀ f ∈ T.saved, Interrupted plock t f

/-- A scheduler whose process runs. -/
structure Waiting (c : Cpu) (p : Proc) (T : Tcb Lock Proc) : Prop extends
    Switched plock (.sched c) p T where
  pc : T.pc = .idle
  outer : T.outer = none

variable (Cpu) in
/-- A process that may run again. -/
structure Parked (p : Proc) (T : Tcb Lock Proc) : Prop extends
    Switched plock (.proc p : Thread Cpu Proc) p T where
  pc : T.pc = .idle ∨ ∃ i, T.pc = .resume i ∧ ∀ b, T.outer = some b → i = b

theorem Switched.depth_pos {plock : Proc → Lock} {t : Thread Cpu Proc} {p : Proc} {T : Tcb Lock Proc}
    (w : Switched plock t p T) : 0 < T.depth := by
  rw [Tcb.depth, w.held, List.length_singleton]
  omega

/-- The state of the process of a thread. -/
def State.own (s : State Cpu Lock Proc) : Thread Cpu Proc → ProcState
  | .sched _ => .running
  | .proc p => s.state p

/-- The process can be made to run: it is neither free nor a zombie. -/
def Alive (st : ProcState) : Prop := st = .used ∨ st = .sleeping ∨ st = .runnable

/-- `Good` of CPU `c`, when its core, its thread and the locks are as given. -/
abbrev GoodAt (s : State Cpu Lock Proc) (c : Cpu) (lock : Lock → SpinLock Cpu) (k : Core) (T : Tcb Lock Proc) : Prop :=
  Good plock (s.running c) (s.own (s.running c)) (fun lk => (lock lk).holder = some c)
    (fun lk => (lock lk).cpu = some c) k T

structure Inv (s : State Cpu Lock Proc) : Prop where
  locked : ∀ lk, (s.lock lk).locked = (s.lock lk).holder.isSome
  once : Function.Injective s.running
  sched : ∀ c d, s.running c = .sched d → d = c
  good : ∀ c, GoodAt plock s c s.lock (s.core c) (s.thread c)
  waiting : ∀ c p, s.running c = .proc p → Waiting plock c p (s.tcb (.sched c))
  parked : ∀ p, (∀ c, s.running c ≠ .proc p) → Alive (s.state p) →
    Parked Cpu plock p (s.tcb (.proc p))

/-- When the thread of process `p` has left its outermost section, interrupts are as they were before it. -/
def Ends (s u : State Cpu Lock Proc) : Prop :=
  ∀ p, 0 < (s.tcb (.proc p)).depth → (u.tcb (.proc p)).depth = 0 →
    ∃ c, s.running c = .proc p ∧ u.running c = .proc p ∧ ∀ b, (s.tcb (.proc p)).outer = some b → (u.core c).sie = b

omit [DecidableEq Lock] in
theorem ends_refl (s : State Cpu Lock Proc) : Ends s s := fun _ hpos hzero => absurd hzero hpos.ne'

/-! ## Steps of one thread -/

section Good

variable {plock} {t : Thread Cpu Proc} {st : ProcState} {mine named mine' named' : Lock → Prop} {k : Core}
  {T : Tcb Lock Proc} {lk : Lock} {pc : Pc Lock} {cs : List (Call Lock Proc)}

/-- A step to a point with the same depth, locks and calls left. -/
theorem Good.goto (g : Good plock t st mine named k T)
    (hpending : pc.pending = T.pc.pending) (htaken : pc.taken = T.pc.taken) (hrest : rest pc cs = rest T.pc T.todo)
    (hintena : pc.intena = T.pc.intena) (hpush : ∀ old lk, pc = .push old lk → k.sie = old)
    (hresume : ∀ i, pc ≠ .resume i) : Good plock t st mine named k { T with pc, todo := cs } := by
  have hdepth : ({ T with pc, todo := cs } : Tcb Lock Proc).depth = T.depth := by
    simp only [Tcb.depth, hpending]
  have howns : ({ T with pc, todo := cs } : Tcb Lock Proc).owns = T.owns := by simp only [Tcb.owns, htaken]
  exact
    { g with
      noff := g.noff.trans hdepth.symm
      off := fun h => g.off (hdepth ▸ h)
      push := hpush
      mine := fun lk => howns ▸ g.mine lk
      nodup := howns ▸ g.nodup
      matched := hrest ▸ g.matched
      outer := fun h b hb => by
        rw [← g.outer (hdepth ▸ h) b hb]
        exact congrFun hintena _
      resume := fun i hi => absurd hi (hresume i) }

/-- The start of a call that does nothing else yet. -/
theorem Good.begin (g : Good plock t st mine named k T) (hpc : T.pc = .idle)
    (htodo : T.todo = rest pc cs) (hpending : pc.pending = 0) (htaken : pc.taken = []) (hintena : pc.intena = id)
    (hpush : ∀ old lk, pc = .push old lk → k.sie = old) (hresume : ∀ i, pc ≠ .resume i) :
    Good plock t st mine named k { T with pc, todo := cs } :=
  g.goto (by rw [hpc]; exact hpending) (by rw [hpc]; exact htaken) (by rw [hpc, htodo]; rfl) (by rw [hpc]; exact hintena)
    hpush hresume

theorem Good.todo (g : Good plock t st mine named k T) (hpc : T.pc = .idle)
    (hmatched : Matched plock t cs T.held T.pushed st) : Good plock t st mine named k { T with todo := cs } :=
  { g with
    matched := by
      change Matched plock t (rest T.pc cs) T.held T.pushed st
      rw [hpc]
      exact hmatched }

theorem Good.beginPop (g : Good plock t st mine named k T) (hpc : T.pc = .idle)
    (htodo : T.todo = .popOff :: cs) :
    Good plock t st mine named k { T with pc := .pop, todo := cs, pushed := T.pushed - 1 } := by
  have hm := g.matched
  rw [hpc, htodo] at hm
  have hpos : 0 < T.pushed := hm.1
  have hdepth : ({ T with pc := .pop, todo := cs, pushed := T.pushed - 1 } : Tcb Lock Proc).depth = T.depth := by
    simp only [Tcb.depth, hpc, Pc.pending]
    omega
  have howns : T.owns = T.held := by rw [Tcb.owns, hpc]; rfl
  exact
    { g with
      noff := g.noff.trans hdepth.symm
      off := fun h => g.off (hdepth ▸ h)
      push := nofun
      mine := fun lk => (g.mine lk).trans (by rw [howns]; rfl)
      nodup := howns ▸ g.nodup
      matched := hm.2
      outer := fun h b hb => by
        have := g.outer (hdepth ▸ h) b hb
        rwa [hpc] at this
      resume := nofun }

/-- `push_off` is one level deeper, with interrupts off. -/
theorem Good.pushOff (g : Good plock t st mine named k T) {old : Bool} {lk : Option Lock} (hpc : T.pc = .push old lk) :
    Good plock t st mine named
      { k with sie := false, intena := if k.noff = 0 then old else k.intena, noff := k.noff + 1 }
      { T with
        pc := lk.elim .idle .test
        pushed := lk.elim (T.pushed + 1) fun _ => T.pushed
        outer := if T.depth = 0 then some k.sie else T.outer } := by
  have hm := g.matched
  have hnoff := g.noff
  have hmine := g.mine
  have hnodup := g.nodup
  have houter (b : Bool) (hb : (if T.depth = 0 then some k.sie else T.outer) = some b) :
      (if k.noff = 0 then old else k.intena) = b := by
    rw [g.noff]
    split_ifs at hb ⊢ with h0
    · rw [← g.push old lk hpc]
      exact Option.some.inj hb
    · have := g.outer (Nat.pos_of_ne_zero h0) b hb
      rwa [hpc] at this
  simp only [Tcb.depth, Tcb.owns, hpc, Pc.pending, Pc.taken] at hnoff hmine hnodup
  rw [hpc] at hm
  cases lk with
  | none =>
    exact ⟨by simp only [Tcb.depth, Option.elim, Pc.pending]; omega, fun _ => rfl, nofun, hmine, hnodup, g.named, hm, fun _ => houter,
      g.saved, g.moved, nofun, g.panicked⟩
  | some lk =>
    exact ⟨by simp only [Tcb.depth, Option.elim, Pc.pending]; omega, fun _ => rfl, nofun, hmine, hnodup, g.named, hm, fun _ => houter,
      g.saved, g.moved, nofun, g.panicked⟩

theorem Good.take (g : Good plock t st mine named k T) (hpc : T.pc = .spin lk) (hfree : ¬mine lk)
    (hmine : ∀ x, mine' x ↔ x = lk ∨ mine x) (hnamed : ∀ x, named' x ↔ named x) :
    Good plock t st mine' named' k { T with pc := .own lk } := by
  obtain ⟨hnoff, hoff, -, hm, hnodup, hn, hmatched, houter, hsaved, hmoved, -, hpanic⟩ := g
  simp only [Tcb.depth, Tcb.owns, hpc, Pc.pending, Pc.taken, List.nil_append] at hnoff hoff hm hnodup hmatched houter
  refine ⟨hnoff, hoff, nofun, fun x => ?_, ?_, fun x => (hnamed x).trans (hn x), hmatched, houter, hsaved, hmoved, nofun,
    hpanic⟩
  · rw [hmine, hm]
    exact List.mem_cons.symm
  · exact List.nodup_cons.2 ⟨fun h => hfree ((hm lk).2 h), hnodup⟩

/-- `lk->cpu = mycpu()` -/
theorem Good.name (g : Good plock t st mine named k T) (hpc : T.pc = .own lk) (hmine : ∀ x, mine' x ↔ mine x)
    (hnamed : ∀ x, named' x ↔ x = lk ∨ named x) :
    Good plock t st mine' named' k { T with pc := .idle, held := lk :: T.held } := by
  obtain ⟨hnoff, hoff, -, hm, hnodup, hn, hmatched, houter, hsaved, hmoved, -, hpanic⟩ := g
  have hdepth : ({ T with pc := .idle, held := lk :: T.held } : Tcb Lock Proc).depth = T.depth := by
    simp only [Tcb.depth, hpc, Pc.pending, List.length_cons]
    omega
  rw [← hdepth] at hnoff hoff houter
  rw [hpc] at hmatched houter
  simp only [Tcb.owns, hpc, Pc.taken, List.singleton_append] at hm hnodup
  refine ⟨hnoff, hoff, nofun, fun x => (hmine x).trans (hm x), hnodup, fun x => ?_, hmatched, houter, hsaved,
    fun h => ?_, nofun, hpanic⟩
  · rw [hnamed, hn]
    exact List.mem_cons.symm
  · obtain ⟨x, hx, e⟩ := hmoved h
    exact ⟨x, List.mem_cons_of_mem _ hx, e⟩

/-- `lk->cpu = 0` -/
theorem Good.unname (g : Good plock t st mine named k T) (hpc : T.pc = .check lk) (hmine : ∀ x, mine' x ↔ mine x)
    (hnamed : ∀ x, named' x ↔ x ≠ lk ∧ named x) :
    Good plock t st mine' named' k { T with pc := .unlock lk, held := T.held.erase lk } := by
  obtain ⟨hnoff, hoff, -, hm, hnodup, hn, hmatched, houter, hsaved, hmoved, -, hpanic⟩ := g
  rw [hpc] at hmatched houter
  obtain ⟨hlk, hrunning, hmatched⟩ := hmatched
  have hlength := List.length_erase_of_mem hlk
  have hpos := List.length_pos_of_mem hlk
  have hdepth : ({ T with pc := .unlock lk, held := T.held.erase lk } : Tcb Lock Proc).depth = T.depth := by
    simp only [Tcb.depth, hpc, Pc.pending]
    omega
  rw [← hdepth] at hnoff hoff houter
  simp only [Tcb.owns, hpc, Pc.taken, List.nil_append] at hm hnodup
  refine ⟨hnoff, hoff, nofun, fun x => ?_, ?_, fun x => ?_, hmatched, houter, hsaved, fun h => ?_, nofun, hpanic⟩
  · rw [hmine, hm]
    exact (List.perm_cons_erase hlk).mem_iff
  · exact (List.perm_cons_erase hlk).nodup_iff.1 hnodup
  · rw [hnamed, hn]
    exact (hnodup.mem_erase_iff).symm
  · obtain ⟨x, hx, e⟩ := hmoved h
    refine ⟨x, (List.mem_erase_of_ne ?_).2 hx, e⟩
    rintro rfl
    exact h (hrunning e)

theorem Good.drop (g : Good plock t st mine named k T) (hpc : T.pc = .unlock lk)
    (hmine : ∀ x, mine' x ↔ x ≠ lk ∧ mine x) (hnamed : ∀ x, named' x ↔ named x) :
    Good plock t st mine' named' k { T with pc := .pop } := by
  obtain ⟨hnoff, hoff, -, hm, hnodup, hn, hmatched, houter, hsaved, hmoved, -, hpanic⟩ := g
  simp only [Tcb.depth, Tcb.owns, hpc, Pc.pending, Pc.taken, List.singleton_append] at hnoff hoff hm hnodup hmatched houter
  obtain ⟨hnot, hnodup⟩ := List.nodup_cons.1 hnodup
  refine ⟨hnoff, hoff, nofun, fun x => ?_, hnodup, fun x => (hnamed x).trans (hn x), hmatched, houter, hsaved, hmoved, nofun,
    hpanic⟩
  rw [hmine, hm, List.mem_cons]
  constructor
  · rintro ⟨hne, rfl | hx⟩
    · exact absurd rfl hne
    · exact hx
  · exact fun hx => ⟨fun e => hnot (e ▸ hx), .inr hx⟩

/-- `pop_off` is one level up; at the top it restores what the outermost `push_off` found. -/
theorem Good.popOff (g : Good plock t st mine named k T) (hpc : T.pc = .pop) :
    Good plock t st mine named { k with sie := k.noff - 1 = 0 ∧ k.intena, noff := k.noff - 1 } { T with pc := .idle } := by
  obtain ⟨hnoff, hoff, -, hm, hnodup, hn, hmatched, houter, hsaved, hmoved, -, hpanic⟩ := g
  simp only [Tcb.depth, Tcb.owns, hpc, Pc.pending, Pc.taken, List.nil_append] at hnoff hm hnodup hmatched houter
  refine ⟨?_, fun h => ?_, nofun, hm, hnodup, hn, hmatched, fun h b hb => houter (Nat.succ_pos _) b hb, hsaved, hmoved,
    nofun, hpanic⟩
  · simp only [Tcb.depth, Pc.pending]
    omega
  · simp only [Tcb.depth, Pc.pending] at h
    rw [decide_eq_false]
    omega

theorem Good.resumed (g : Good plock t st mine named k T) {i : Bool} (hpc : T.pc = .resume i) :
    Good plock t st mine named { k with intena := i } { T with pc := .idle } := by
  obtain ⟨hnoff, hoff, -, hm, hnodup, hn, hmatched, houter, hsaved, hmoved, -, hpanic⟩ := g
  simp only [Tcb.depth, Tcb.owns, hpc, Pc.pending, Pc.taken, List.nil_append] at hnoff hoff hm hnodup hmatched houter
  exact ⟨hnoff, hoff, nofun, hm, hnodup, hn, hmatched, houter, hsaved, hmoved, nofun, hpanic⟩

/-- An interrupt comes outside every section only. -/
theorem Good.trap (g : Good plock t st mine named k T) (hsie : k.sie = true) :
    Good plock t st mine named { k with sie := false }
      { T with pc := .idle, todo := [], saved := (T.pc, T.todo) :: T.saved } := by
  have h0 : T.depth = 0 := by
    by_contra h
    rw [g.off (Nat.pos_of_ne_zero h)] at hsie
    cases hsie
  obtain ⟨hheld, hpushed, hpending⟩ := depth_eq_zero.1 h0
  have hst : st = .running := by
    by_contra h
    obtain ⟨x, hx, -⟩ := g.moved h
    rw [hheld] at hx
    cases hx
  have hm := g.matched
  rw [hheld, hpushed, hst] at hm
  have hpc : T.pc = .idle ∨ ∃ lk, T.pc = .push true lk := by
    cases hpc : T.pc with
    | idle => exact .inl rfl
    | push old lk => exact .inr ⟨lk, by rw [← g.push old lk hpc, hsie]⟩
    | check lk =>
      rw [hpc] at hm
      cases hm.1
    | resume i => exact absurd hheld (g.resume i hpc)
    | test lk | spin lk | own lk | unlock lk | pop =>
      rw [hpc] at hpending
      cases hpending
  have htaken : T.pc.taken = [] := by obtain h | ⟨lk, h⟩ := hpc <;> rw [h] <;> rfl
  have hdepth : ({ T with pc := .idle, todo := [], saved := (T.pc, T.todo) :: T.saved } : Tcb Lock Proc).depth = 0 :=
    depth_eq_zero.2 ⟨hheld, hpushed, rfl⟩
  have howns : T.owns = T.held := by rw [Tcb.owns, htaken]; rfl
  exact
    { g with
      noff := (g.noff.trans h0).trans hdepth.symm
      off := fun _ => rfl
      push := nofun
      mine := fun lk => howns ▸ g.mine lk
      nodup := howns ▸ g.nodup
      matched := hst
      outer := fun h => absurd h (by omega)
      saved := fun f hf => by
        obtain rfl | hf := List.mem_cons.1 hf
        · exact ⟨hpc, hm⟩
        · exact g.saved f hf
      resume := nofun }

theorem Good.intr (g : Good plock t st mine named k T) (hpc : T.pc = .idle) (h0 : T.depth = 0) (on : Bool) :
    Good plock t st mine named { k with sie := on } T :=
  { g with
    off := fun h => absurd h (by omega)
    push := fun old lk h => by rw [hpc] at h; cases h }

/-- A handler returns to a point outside every section. -/
theorem Good.sret (g : Good plock t st mine named k T) (hfree : T.Free) (h0 : T.depth = 0)
    {todo : List (Call Lock Proc)} {saved : List (Pc Lock × List (Call Lock Proc))} (hsaved : T.saved = (pc, todo) :: saved) :
    Good plock t st mine named { k with sie := true } { T with pc, todo, saved } := by
  obtain ⟨hheld, hpushed, -⟩ := depth_eq_zero.1 h0
  have hst := g.matched
  rw [hfree.1, hfree.2] at hst
  obtain ⟨hpc, hm⟩ : Interrupted plock t (pc, todo) := g.saved _ (by rw [hsaved]; exact List.mem_cons_self)
  change pc = .idle ∨ ∃ lk, pc = .push true lk at hpc
  have hzero : pc.pending = 0 ∧ pc.taken = [] := by obtain rfl | ⟨lk, rfl⟩ := hpc <;> exact ⟨rfl, rfl⟩
  have hdepth : ({ T with pc, todo, saved } : Tcb Lock Proc).depth = 0 := depth_eq_zero.2 ⟨hheld, hpushed, hzero.1⟩
  have howns : ({ T with pc, todo, saved } : Tcb Lock Proc).owns = T.owns := by
    rw [Tcb.owns, Tcb.owns, hzero.2, hfree.1]
    rfl
  exact
    { g with
      noff := (g.noff.trans h0).trans hdepth.symm
      off := fun h => absurd h (by omega)
      push := fun old lk h => by
        obtain e | ⟨lk', e⟩ := hpc
        · rw [e] at h
          cases h
        · rw [e] at h
          cases h
          rfl
      mine := fun lk => howns ▸ g.mine lk
      nodup := howns ▸ g.nodup
      matched := by
        change Matched plock t (rest pc todo) T.held T.pushed st
        rw [hheld, hpushed, show st = .running from hst]
        exact hm
      outer := fun h => absurd h (by omega)
      saved := fun f hf => g.saved f (by rw [hsaved]; exact List.mem_cons_of_mem _ hf)
      resume := fun i h => by obtain e | ⟨lk, e⟩ := hpc <;> rw [e] at h <;> cases h }

theorem Good.congr (g : Good plock t st mine named k T) (hmine : ∀ x, mine' x ↔ mine x) (hnamed : ∀ x, named' x ↔ named x) :
    Good plock t st mine' named' k T :=
  { g with
    mine := fun x => (hmine x).trans (g.mine x)
    named := fun x => (hnamed x).trans (g.named x) }

/-- A thread that has been switched to has a depth of one. -/
theorem Switched.good {p : Proc} (w : Switched plock t p T) (hpc : T.pc = pc)
    (hidle : pc = .idle ∨ ∃ i, pc = .resume i) (hnoff : k.noff = 1) (hsie : k.sie = false)
    (hmine : ∀ x, mine x ↔ x ∈ [plock p]) (hnamed : ∀ x, named x ↔ x ∈ [plock p])
    (houter : ∀ b, T.outer = some b → pc.intena k.intena = b)
    (hpanic : k.panicked = none ∨ k.panicked = some "acquire") : Good plock t .running mine named k T := by
  have hz : pc.pending = 0 ∧ pc.taken = [] ∧ rest pc T.todo = T.todo ∧ ∀ old lk, pc ≠ .push old lk := by
    obtain rfl | ⟨i, rfl⟩ := hidle <;> exact ⟨rfl, rfl, rfl, nofun⟩
  have hdepth : T.depth = 1 := by rw [Tcb.depth, w.held, w.pushed, hpc, hz.1]; rfl
  have howns : T.owns = [plock p] := by rw [Tcb.owns, hpc, hz.2.1, w.held]; rfl
  exact
    { noff := hnoff.trans hdepth.symm
      off := fun _ => hsie
      push := fun old lk e => absurd (hpc.symm.trans e) (hz.2.2.2 old lk)
      mine := fun x => howns ▸ hmine x
      nodup := howns ▸ List.nodup_singleton _
      named := fun x => w.held ▸ hnamed x
      matched := by
        rw [hpc, hz.2.2.1, w.held, w.pushed]
        exact w.matched
      outer := fun _ b hb => by
        rw [hpc]
        exact houter b hb
      saved := w.saved
      moved := fun e => absurd rfl e
      resume := fun _ _ => by
        rw [w.held]
        exact List.cons_ne_nil _ _
      panicked := hpanic }

variable {s : State Cpu Lock Proc} {c d : Cpu} {p : Proc}

theorem Inv.holder_of_cpu (h : Inv plock s) (hc : (s.lock lk).cpu = some c) :
    (s.lock lk).holder = some c :=
  ((h.good c).mine lk).2 (List.mem_append_right _ (((h.good c).named lk).1 hc))

theorem Inv.holding [DecidableEq Cpu] (h : Inv plock s) (hlk : lk ∈ (s.thread c).held) : s.holding c lk = true := by
  have hcpu := ((h.good c).named lk).2 hlk
  have hlocked := h.locked lk
  rw [h.holder_of_cpu hcpu] at hlocked
  rw [State.holding, hlocked]
  exact decide_eq_true hcpu

/-- A process whose state is not `RUNNING` and whose lock a thread holds runs there or not at all. -/
theorem Inv.runs_here (h : Inv plock s) (hlk : plock p ∈ (s.thread c).held) (hst : s.state p ≠ .running)
    (hd : s.running d = .proc p) : d = c := by
  have g := h.good d
  rw [GoodAt, hd] at g
  obtain ⟨x, hx, e⟩ := g.moved hst
  obtain rfl := Option.some.inj e
  have hholder := h.holder_of_cpu (((h.good c).named _).2 hlk)
  exact Option.some.inj ((h.holder_of_cpu ((g.named _).2 hx)).symm.trans hholder)

theorem Inv.not_running (h : Inv plock s) (hfree : (s.thread c).Free) (hlk : plock p ∈ (s.thread c).held)
    (hst : s.state p ≠ .running) (d : Cpu) : s.running d ≠ .proc p := fun hd => by
  obtain rfl := h.runs_here hlk hst hd
  have hm := (h.good d).matched
  rw [hfree.1, hfree.2, hd] at hm
  exact hst hm

theorem Initial.inv (h : Initial s) : Inv plock s := by
  have hthread (c : Cpu) : s.thread c = ⟨.idle, [], [], [], 0, none⟩ := by rw [State.thread, h.running, h.tcb]
  refine ⟨fun lk => by rw [h.lock]; rfl, fun c d e => ?_, fun c d e => ?_, fun c => ?_, fun c p e => ?_, fun p _ ha => ?_⟩
  · rw [h.running, h.running] at e
    exact Thread.sched.inj e
  · rw [h.running] at e
    exact (Thread.sched.inj e).symm
  · rw [hthread, GoodAt, h.running]
    refine ⟨(h.core c).1, nofun, nofun, fun lk => ?_, List.nodup_nil, fun lk => ?_, rfl, nofun, nofun, fun e => absurd rfl e,
      nofun, .inl (h.core c).2⟩
    · rw [h.lock]
      exact iff_of_false nofun List.not_mem_nil
    · rw [h.lock]
      exact iff_of_false nofun List.not_mem_nil
  · rw [h.running] at e
    cases e
  · rw [h.state] at ha
    obtain e | e | e := ha <;> cases e

end Good

end Xv6.Interrupts
