import Xv6.Lib.Runs

/-!
# Threads with locks

Threads run one program over shared data.  An instruction takes or releases at most one lock, changes
the data and goes to the next point of the program, in one step; which instruction a thread runs may
also depend on a choice from outside.  So the steps of a run are the stretches of code between lock
operations.

`Outline` is a proof outline of such a program: an assertion `A` at each point, an invariant `G` of the
data, and for each lock `l` an invariant `R l` that holds while nobody has the lock.  The assertions of
one thread have to survive the instructions of the others, which hold none of its locks.
-/

namespace Threads

open Runs

variable {ι κ D P C : Type*}

inductive Op (κ : Type*)
  | skip
  | acquire (l : κ)
  | release (l : κ)

structure Instr (κ D P : Type*) where
  op : Op κ
  data : D
  pc : P

structure State (ι κ D P : Type*) where
  data : D
  pc : ι → P
  lock : κ → Option ι

section Step

variable [DecidableEq κ]

/-- The owners of the locks after an operation of thread `i`.  A lock that is taken has to be free. -/
def Op.apply (i : ι) (lock : κ → Option ι) : Op κ → Option (κ → Option ι)
  | .skip => some lock
  | .acquire l => if (lock l).isNone then some (Function.update lock l (some i)) else none
  | .release l => some (Function.update lock l none)

variable [DecidableEq ι]

def step (code : D → ι → P → C → Option (Instr κ D P)) (s : State ι κ D P) (e : ι × C) :
    Option (State ι κ D P) :=
  (code s.data e.1 (s.pc e.1) e.2).bind fun ins =>
    (ins.op.apply e.1 s.lock).map fun lock => ⟨ins.data, Function.update s.pc e.1 ins.pc, lock⟩

theorem step_eq_some {code : D → ι → P → C → Option (Instr κ D P)} {s t : State ι κ D P} {e : ι × C} :
    step code s e = some t ↔ ∃ ins lock, code s.data e.1 (s.pc e.1) e.2 = some ins ∧
      ins.op.apply e.1 s.lock = some lock ∧ t = ⟨ins.data, Function.update s.pc e.1 ins.pc, lock⟩ := by
  simp only [step, Option.bind_eq_some_iff, Option.map_eq_some_iff, eq_comm (a := t)]
  constructor
  · rintro ⟨ins, hins, lock, hlock, h⟩
    exact ⟨ins, lock, hins, hlock, h⟩
  · rintro ⟨ins, lock, hins, hlock, h⟩
    exact ⟨ins, hins, lock, hlock, h⟩

end Step

/-! ## Proof outlines -/

/-- The locks that a thread has after an operation. -/
def Op.after (held : Set κ) : Op κ → Set κ
  | .skip => held
  | .acquire l => insert l held
  | .release l => held \ {l}

/-- A thread that has the locks `held` and then `held'` does not touch the lock. -/
def Untouched (l : κ) (held held' : Set κ) : Prop := l ∉ held ∧ l ∉ held'

/-- Every other thread is at a point where its assertion holds, and has none of the locks that thread
`i` has or takes. -/
def Apart (holds : ι → P → Set κ) (A : D → ι → P → Prop) (d : D) (i : ι) (held held' : Set κ) : Prop :=
  ∀ j ≠ i, ∃ pc, A d j pc ∧ ∀ l ∈ holds j pc, Untouched l held held'

/-- Thread `i` may run the instruction `ins`. -/
structure Enabled (code : D → ι → P → C → Option (Instr κ D P)) (holds : ι → P → Set κ) (G : D → Prop)
    (R : κ → D → Prop) (A : D → ι → P → Prop) (d : D) (i : ι) (pc : P) (c : C) (ins : Instr κ D P) :
    Prop where
  data : G d
  point : A d i pc
  code : code d i pc c = some ins
  free : ∀ l, ins.op = .acquire l → R l d
  apart : Apart holds A d i (holds i pc) (holds i ins.pc)

structure Outline (code : D → ι → P → C → Option (Instr κ D P)) (holds : ι → P → Set κ) (G : D → Prop)
    (R : κ → D → Prop) (A : D → ι → P → Prop) : Prop where
  locks : ∀ {d i pc c ins}, G d → A d i pc → code d i pc c = some ins →
    holds i ins.pc = ins.op.after (holds i pc) ∧ ∀ l, ins.op = .release l → l ∈ holds i pc
  own : ∀ {d i pc c ins}, Enabled code holds G R A d i pc c ins →
    G ins.data ∧ A ins.data i ins.pc ∧ ∀ l, ins.op = .release l → R l ins.data
  free : ∀ {d i pc c ins l}, Enabled code holds G R A d i pc c ins →
    Untouched l (holds i pc) (holds i ins.pc) → R l d → R l ins.data
  other : ∀ {d i pc c ins j pc'}, Enabled code holds G R A d i pc c ins → j ≠ i → A d j pc' →
    (∀ l ∈ holds j pc', Untouched l (holds i pc) (holds i ins.pc)) → A ins.data j pc'

structure Inv (holds : ι → P → Set κ) (G : D → Prop) (R : κ → D → Prop) (A : D → ι → P → Prop)
    (s : State ι κ D P) : Prop where
  owner : ∀ l i, s.lock l = some i ↔ l ∈ holds i (s.pc i)
  data : G s.data
  free : ∀ l, s.lock l = none → R l s.data
  point : ∀ i, A s.data i (s.pc i)

variable {code : D → ι → P → C → Option (Instr κ D P)} {holds : ι → P → Set κ} {G : D → Prop}
  {R : κ → D → Prop} {A : D → ι → P → Prop} {s t : State ι κ D P} {i j : ι} {l : κ}

/-- No two threads have the same lock. -/
theorem Inv.exclusive (h : Inv holds G R A s) (hi : l ∈ holds i (s.pc i)) (hj : l ∈ holds j (s.pc j)) :
    i = j :=
  Option.some.inj (((h.owner l i).2 hi).symm.trans ((h.owner l j).2 hj))

variable [DecidableEq κ]

/-- The lock of an instruction that takes one was free. -/
theorem Op.apply_acquire {lock : κ → Option ι} {lock' : κ → Option ι}
    (hop : (Op.acquire l).apply i lock = some lock') : lock l = none := by
  simp only [Op.apply, Option.ite_none_right_eq_some, Option.isNone_iff_eq_none] at hop
  exact hop.1

variable [DecidableEq ι]

/-- The owners after an operation are the owners before it, except for the lock of the operation. -/
theorem Op.apply_owner {op : Op κ} {lock : κ → Option ι} (held : ι → Set κ)
    (howner : ∀ l i, s.lock l = some i ↔ l ∈ held i) (hop : op.apply i s.lock = some lock)
    (hrelease : ∀ l, op = .release l → l ∈ held i) (l : κ) (j : ι) :
    lock l = some j ↔ l ∈ Function.update held i (op.after (held i)) j := by
  cases op with
  | skip =>
    obtain rfl := Option.some.inj hop
    rw [howner]
    by_cases e : j = i
    · subst e
      simp [Op.after]
    · rw [Function.update_of_ne e]
  | acquire k =>
    simp only [Op.apply, Option.ite_none_right_eq_some, Option.isNone_iff_eq_none] at hop
    obtain ⟨hfree, hop⟩ := hop
    obtain rfl := Option.some.inj hop
    by_cases e : j = i
    · subst e
      by_cases hl : l = k
      · simp [hl, Op.after]
      · simp [hl, Op.after, howner]
    · rw [Function.update_of_ne e]
      by_cases hl : l = k
      · subst hl
        rw [Function.update_self, ← howner, hfree]
        exact iff_of_false (fun h => e (Option.some.inj h).symm) (by simp)
      · rw [Function.update_of_ne hl, howner]
  | release k =>
    obtain rfl := Option.some.inj hop
    have hk := hrelease k rfl
    by_cases e : j = i
    · subst e
      by_cases hl : l = k
      · simp [hl, Op.after]
      · simp [hl, Op.after, howner]
    · rw [Function.update_of_ne e]
      by_cases hl : l = k
      · subst hl
        rw [Function.update_self, ← howner, (howner _ _).2 hk]
        exact iff_of_false (by simp) fun h => e (Option.some.inj h).symm
      · rw [Function.update_of_ne hl, howner]

/-- Every step keeps a proof outline. -/
theorem Outline.inv_step (ho : Outline code holds G R A) (h : Inv holds G R A s) {e : ι × C}
    (hstep : step code s e = some t) : Inv holds G R A t := by
  obtain ⟨i, c⟩ := e
  obtain ⟨ins, lock, hins, hlock, rfl⟩ := step_eq_some.1 hstep
  simp only at hins hlock
  have hA := h.point i
  obtain ⟨hafter, hrelease⟩ := ho.locks h.data hA hins
  have hacquire (l : κ) (hl : ins.op = .acquire l) : R l s.data := by
    rw [hl] at hlock
    exact h.free l (Op.apply_acquire hlock)
  have howner := Op.apply_owner (fun i => holds i (s.pc i)) h.owner hlock hrelease
  -- the locks after the step, by the points that the threads are at
  have howner' (l : κ) (j : ι) : lock l = some j ↔ l ∈ holds j (Function.update s.pc i ins.pc j) := by
    rw [howner]
    by_cases e : j = i
    · subst e
      rw [Function.update_self, Function.update_self, hafter]
    · rw [Function.update_of_ne e, Function.update_of_ne e]
  have hapart (j : ι) (e : j ≠ i) (l : κ) (hl : l ∈ holds j (s.pc j)) :
      Untouched l (holds i (s.pc i)) (holds i ins.pc) := by
    refine ⟨fun hm => e (h.exclusive hl hm), fun hm => ?_⟩
    have h1 := (howner' l j).2 (by rwa [Function.update_of_ne e])
    have h2 := (howner' l i).2 (by rwa [Function.update_self])
    exact e (Option.some.inj (h1.symm.trans h2))
  have hen : Enabled code holds G R A s.data i (s.pc i) c ins :=
    ⟨h.data, hA, hins, hacquire, fun j e => ⟨s.pc j, h.point j, hapart j e⟩⟩
  obtain ⟨hG, hown, hreleased⟩ := ho.own hen
  refine ⟨howner', hG, fun l hl => ?_, fun j => ?_⟩
  · by_cases hrel : ins.op = .release l
    · exact hreleased l hrel
    have hnot' : l ∉ holds i ins.pc := fun hm => by
      have := (howner' l i).2 (by rwa [Function.update_self])
      exact Option.some_ne_none _ (this.symm.trans hl)
    have hnot : l ∉ holds i (s.pc i) := fun hm => by
      rw [hafter] at hnot'
      cases hop : ins.op with
      | skip => exact hnot' (by rwa [hop])
      | acquire k => exact hnot' (by rw [hop]; exact .inr hm)
      | release k =>
        refine hnot' ?_
        rw [hop]
        refine ⟨hm, fun e => hrel ?_⟩
        rw [hop, Set.mem_singleton_iff.1 e]
    refine ho.free hen ⟨hnot, hnot'⟩ (h.free l ?_)
    -- the lock was free before: whoever had it would have it now
    by_contra hne
    obtain ⟨j, hj⟩ := Option.ne_none_iff_exists'.1 hne
    have hj' := (h.owner l j).1 hj
    have hji : j ≠ i := fun e => hnot (e ▸ hj')
    have := (howner' l j).2 (by rwa [Function.update_of_ne hji])
    exact Option.some_ne_none _ (this.symm.trans hl)
  · by_cases e : j = i
    · subst e
      simpa using hown
    · simp only [Function.update_of_ne e]
      exact ho.other hen e (h.point j) (hapart j e)

theorem Outline.inv_run (ho : Outline code holds G R A) (h : Inv holds G R A s) {es : List (ι × C)}
    (hrun : run (step code) s es = some t) : Inv holds G R A t :=
  run_induction (fun _ _ _ hi hs => ho.inv_step hi hs) h hrun

end Threads
