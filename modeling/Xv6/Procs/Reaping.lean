import Xv6.Procs.Steps

/-!
# Exit and wait

In every run from boot the proof outline holds, so no exit is missed by a `wait`, and every process is
reaped at most once, by its parent or by the first process.
-/

namespace Xv6.Procs

open Threads Runs

variable {nproc : ℕ} {s t : Machine} {c i j : ℕ}

/-! ## Boot -/

theorem inv_boot (hn : 0 < nproc) (h : s.Boot) : Inv holds (Good nproc) Free (At nproc) s := by
  have hinit (x : ℕ) (hx : (s.data.proc x).state ≠ .unused) : x = initproc := by
    by_contra e
    rw [h.unused x e] at hx
    exact hx rfl
  have hparent (x : ℕ) : (s.data.proc x).parent = none := by
    by_cases e : x = initproc
    · rw [e, h.init]
    · rw [h.unused x e]
      rfl
  have hstate : (s.data.proc initproc).state = .runnable := by rw [h.init]
  have hzombie (x : ℕ) : (s.data.proc x).state ≠ .zombie := fun hz => by
    have e := hinit x (by rw [hz]; simp)
    rw [e, hstate] at hz
    cases hz
  have htable : Table nproc s.data := by
    constructor
    case outside =>
      intro j hj
      by_contra hu
      have := hinit j hu
      rw [this, initproc] at hj
      omega
    case cleared =>
      intro j hj
      have e : j ≠ initproc := fun e => by
        rw [e, hstate] at hj
        cases hj
      rw [Cleared]
      conv_lhs => rw [h.unused j e]
      rw [h.unused j e]
      rfl
    case init =>
      rw [h.init]
      exact ⟨trivial, rfl⟩
    case nextpid => rw [h.nextpid.1, h.nextpid.2]; rfl
    case serial =>
      intro j hj
      rw [hinit j hj, h.init, h.nextpid.2]
      simp
    case distinct =>
      intro j x hj hx _
      rw [hinit j hj, hinit x hx]
    case maker =>
      intro j
      by_cases e : j = initproc
      · rw [e, h.init]
        simp
      · rw [h.unused j e]
        simp [freeproc]
    case forked =>
      intro j y q _ hq
      rw [hparent] at hq
      cases hq
    case parents => exact fun j e hj => absurd (hinit j hj) e
    case live =>
      intro j q hq
      rw [hparent] at hq
      cases hq
    case cpu =>
      intro c c' i hc
      rw [(h.cpu c).1] at hc
      cases hc
    case running =>
      intro i hi
      have e := hinit i (by rw [hi]; simp)
      rw [e, hstate] at hi
      cases hi
    case saved =>
      intro i hi
      have e := hinit i fun hu => by
        rw [hu] at hi
        simp at hi
      rw [e, h.init]
      exact ⟨rfl, trivial⟩
  have hlogged : Logged s.data := by
    constructor
    case exits => exact fun x hz => absurd hz (hzombie x)
    case born =>
      intro x q hq
      rw [hparent] at hq
      cases hq
    all_goals simp [h.notes, reaped]
  refine ⟨fun l i => ?_, ⟨htable, hlogged⟩, fun l _ => ?_, fun c => ?_⟩
  · rw [h.lock, (h.cpu i).2]
    simp [holds, Pc.locks]
  · cases l with
    | wait => exact fun q x _ _ => hzombie x
    | _ => trivial
  · rw [(h.cpu c).2]
    exact (h.cpu c).1

theorem inv_run {es : List (ℕ × Choice)} (hn : 0 < nproc) (h : s.Boot)
    (hrun : run (step (code nproc)) s es = some t) : Inv holds (Good nproc) Free (At nproc) t :=
  (outline nproc).inv_run (inv_boot hn h) hrun

/-! ## No exit is lost -/

theorem copyout_fails {addr : BitVec 64} {havekids : Bool} (hinv : Inv holds (Good nproc) Free (At nproc) t)
    (hpc : t.pc c = .run i (.waitScan addr j havekids)) (hp : (t.data.proc j).parent = some i)
    (hz : (t.data.proc j).state = .zombie) (haddr : addr ≠ 0) (hl : t.lock (.proc j) = none) :
    ∃ u, run (step (code nproc)) t [(c, .copied false), (c, .go), (c, .go)] = some u ∧
      u.data.proc = t.data.proc ∧
      u.data.notes = t.data.notes ++ [.waited (t.data.proc i).serial (-1) none] := by
  have hj : j < nproc := by
    by_contra hj
    exact hinv.data.table.used_of_parent hp (hinv.data.table.outside j (not_lt.1 hj))
  have h1 : step (code nproc) t (c, .copied false) = some ⟨t.data,
      Function.update t.pc c (.run i (.waitFail j)), Function.update t.lock (.proc j) (some c)⟩ := by
    refine step_eq_some.2 ⟨⟨.acquire (.proc j), t.data, .run i (.waitFail j)⟩, _, ?_, ?_, rfl⟩
    · simp only [hpc, code, kcode, waitCode, if_pos hj, if_pos hp, if_pos hz]
      rw [if_pos ⟨haddr, trivial⟩]
    · simp [Op.apply, hl]
  rw [run_cons, h1, Option.bind_some, run_cons]
  simp [step, code, kcode, waitCode, Op.apply, Data.note, run]

/-- A machine after `userinit`. -/
def booted : Machine where
  data :=
    { proc := fun j =>
        if j = initproc then
          { state := .runnable, chan := none, killed := false, xstate := 0, pid := 1, parent := none,
            sz := 4096, pagetable := 4096, trapframe := 8192, context := .resume .user, serial := 1,
            maker := none, window := false }
        else
          { state := .unused, chan := none, killed := false, xstate := 0, pid := 0, parent := none, sz := 0,
            pagetable := 0, trapframe := 0, context := .user, serial := 0, maker := none, window := false }
      cpu := fun _ => none
      nextpid := 2
      next := 2
      notes := [] }
  pc _ := .scan 0
  lock _ := none

theorem booted_boot : booted.Boot where
  init := rfl
  unused j hj := by
    simp only [booted, if_neg hj]
    rfl
  cpu _ := ⟨rfl, rfl⟩
  nextpid := ⟨rfl, rfl⟩
  notes := rfl
  lock _ := rfl

/-- The first process makes a child and sleeps in `wait`; the child exits with status 7, and the first
process reaps it. -/
def forkExitWait : List (ℕ × Choice) :=
  [.go, .go, .call .fork, .go, .go, .go, .go, .go, .page 1, .page 1, .copied true, .go, .go, .go, .go, .go,
    .call (.wait 8), .go, .go, .go, .go, .go, .go, .go, .go, .go, .go, .go, .call (.exit 7), .go, .go, .go,
    .go, .go, .go, .go, .go, .go, .go, .go, .go, .go, .go, .go, .go, .copied true, .go, .go].map (0, ·)

end Xv6.Procs
