import Xv6.Interrupts.Invariant

/-!
# Interrupts survive nesting and context switches

`Inv` holds along every run in which the calls of each thread are matched.  A step of one thread changes
`Good` of its CPU only (`Inv.update`); `swtch` hands the CPU over between a scheduler and a process.  A step
that takes a process out of its outermost section is one of its own `pop_off` (`Ends`).
-/

namespace Xv6.Interrupts

open Procs (ProcState)
open Runs

variable {Cpu Lock Proc : Type*} [DecidableEq Proc] {plock : Proc → Lock}
  {s u : State Cpu Lock Proc} {c d : Cpu} {p : Proc} {lk : Lock} {k : Core} {T : Tcb Lock Proc} {st : ProcState}
  {cs : List (Call Lock Proc)}

theorem setState_self : (s.setState p st).state p = st := Function.update_self ..

theorem setState_of_ne {q : Proc} (h : q ≠ p) : (s.setState p st).state q = s.state q := Function.update_of_ne h ..

variable [DecidableEq Cpu] [DecidableEq Lock]

/-! ## Steps of one thread -/

/-- A step of the thread on `c` that concerns locks of `c` only. -/
theorem Inv.update (h : Inv plock s) {lock : Lock → SpinLock Cpu}
    (hlocked : ∀ lk, (lock lk).locked = (lock lk).holder.isSome)
    (hother : ∀ d ≠ c, ∀ lk, ((lock lk).holder = some d ↔ (s.lock lk).holder = some d) ∧
      ((lock lk).cpu = some d ↔ (s.lock lk).cpu = some d))
    (hgood : GoodAt plock s c lock k T)
    (hends : k.noff = 0 → 0 < (s.core c).noff → ∀ b, (s.thread c).outer = some b → k.sie = b) :
    Inv plock { s.put c k T with lock } ∧ Ends s { s.put c k T with lock } := by
  have hcore : Function.update s.core c k c = k := Function.update_self ..
  have hself : Function.update s.tcb (s.running c) T (s.running c) = T := Function.update_self ..
  have hne (t : Thread Cpu Proc) (ht : t ≠ s.running c) : Function.update s.tcb (s.running c) T t = s.tcb t :=
    Function.update_of_ne ht _ _
  refine ⟨⟨hlocked, h.once, h.sched, fun d => ?_, fun d p hp => ?_, fun p hp ha => ?_⟩, fun p hpos hzero => ?_⟩
  · change GoodAt plock s d lock (Function.update s.core c k d) (Function.update s.tcb (s.running c) T (s.running d))
    by_cases hd : d = c
    · rw [hd, hcore, hself]
      exact hgood
    · rw [Function.update_of_ne hd, hne _ (h.once.ne hd)]
      exact (h.good d).congr (fun x => (hother d hd x).1) fun x => (hother d hd x).2
  · have hsched : Thread.sched d ≠ s.running c := fun e => by
      obtain rfl := h.sched c d e.symm
      exact absurd (e.trans hp) nofun
    change Waiting plock d p (Function.update s.tcb (s.running c) T (.sched d))
    rw [hne _ hsched]
    exact h.waiting d p hp
  · change Parked Cpu plock p (Function.update s.tcb (s.running c) T (.proc p))
    rw [hne (.proc p) fun e => hp c e.symm]
    exact h.parked p hp ha
  · change (Function.update s.tcb (s.running c) T (.proc p)).depth = 0 at hzero
    by_cases hr : s.running c = .proc p
    · rw [← hr, hself] at hzero
      rw [← hr] at hpos ⊢
      refine ⟨c, rfl, rfl, fun b hb => ?_⟩
      change (Function.update s.core c k c).sie = b
      rw [hcore]
      exact hends (hgood.noff.trans hzero) ((h.good c).noff ▸ hpos) b hb
    · rw [hne (.proc p) fun e => hr e.symm] at hzero
      omega

/-- A step that leaves the locks alone and leaves no section. -/
theorem Inv.put (h : Inv plock s) (hgood : GoodAt plock s c s.lock k T) (hnoff : (s.core c).noff ≤ k.noff) :
    Inv plock (s.put c k T) ∧ Ends s (s.put c k T) :=
  h.update h.locked (fun _ _ _ => ⟨Iff.rfl, Iff.rfl⟩) hgood fun h₀ h₁ => by omega

theorem Inv.putLock (h : Inv plock s) {l : SpinLock Cpu} (hold : ∀ d ≠ c, (s.lock lk).holder ≠ some d)
    (hnew : ∀ d ≠ c, l.holder ≠ some d ∧ l.cpu ≠ some d) (hlocked : l.locked = l.holder.isSome)
    (hgood : GoodAt plock s c (Function.update s.lock lk l) (s.core c) T) :
    Inv plock ((s.put c (s.core c) T).setLock lk l) ∧ Ends s ((s.put c (s.core c) T).setLock lk l) := by
  refine h.update (fun x => ?_) (fun d hd x => ?_) hgood fun h₀ h₁ => by omega
  · by_cases e : x = lk
    · rw [e, Function.update_self, hlocked]
    · rw [Function.update_of_ne e]
      exact h.locked x
  · by_cases e : x = lk
    · rw [e, Function.update_self]
      exact ⟨iff_of_false (hnew d hd).1 (hold d hd), iff_of_false (hnew d hd).2 fun hc => hold d hd (h.holder_of_cpu hc)⟩
    · rw [Function.update_of_ne e]
      exact ⟨Iff.rfl, Iff.rfl⟩

/-! ## Changes of `p->state` -/

theorem Inv.setState (h : Inv plock s)
    (hgood : ∀ c, s.running c = .proc p → Good plock (s.running c) st (fun lk => (s.lock lk).holder = some c)
      (fun lk => (s.lock lk).cpu = some c) (s.core c) (s.thread c))
    (hparked : (∀ c, s.running c ≠ .proc p) → Alive st → Parked Cpu plock p (s.tcb (.proc p))) :
    Inv plock (s.setState p st) where
  locked := h.locked
  once := h.once
  sched := h.sched
  good c := by
    have hown : s.running c ≠ .proc p → (s.setState p st).own (s.running c) = s.own (s.running c) := fun hr => by
      cases e : s.running c with
      | sched d => rfl
      | proc q => exact setState_of_ne fun hq => hr (hq ▸ e)
    change Good plock (s.running c) ((s.setState p st).own (s.running c)) _ _ (s.core c) (s.thread c)
    by_cases hr : s.running c = .proc p
    · rw [show (s.setState p st).own (s.running c) = st by rw [hr]; exact setState_self]
      exact hgood c hr
    · rw [hown hr]
      exact h.good c
  waiting := h.waiting
  parked q hq ha := by
    by_cases e : q = p
    · subst e
      rw [setState_self] at ha
      exact hparked hq ha
    · rw [setState_of_ne e] at ha
      exact h.parked q hq ha

/-! ## Context switches -/

/-- The CPU passes from its scheduler to process `p` or back, and nothing else changes. -/
theorem Inv.switch (h : Inv plock s) {t : Thread Cpu Proc} (ht : t = .sched c ∨ t = .proc p)
    (hold : s.running c = .sched c ∨ s.running c = .proc p) (haway : ∀ d ≠ c, s.running d ≠ .proc p)
    (hcore : u.core = s.core) (hlock : u.lock = s.lock) (hrunning : u.running = Function.update s.running c t)
    (htcb : ∀ x, x ≠ .sched c → x ≠ .proc p → u.tcb x = s.tcb x) (hstate : ∀ q ≠ p, u.state q = s.state q)
    (hgood : Good plock t (u.own t) (fun lk => (s.lock lk).holder = some c) (fun lk => (s.lock lk).cpu = some c)
      (s.core c) (u.tcb t))
    (hwaiting : t = .proc p → Waiting plock c p (u.tcb (.sched c)))
    (hparked : t = .sched c → Alive (u.state p) → Parked Cpu plock p (u.tcb (.proc p)))
    (hdepth : 0 < (u.tcb (.proc p)).depth) : Inv plock u ∧ Ends s u := by
  have hself : u.running c = t := by rw [hrunning, Function.update_self]
  have hother {d : Cpu} (hd : d ≠ c) : u.running d = s.running d := by rw [hrunning, Function.update_of_ne hd]
  have hsched {d : Cpu} (hd : d ≠ c) : s.running d ≠ .sched c := fun e => hd (h.sched d c e).symm
  have hne {d : Cpu} (hd : d ≠ c) : s.running d ≠ t := by
    obtain rfl | rfl := ht
    · exact hsched hd
    · exact haway d hd
  refine ⟨⟨fun lk => hlock ▸ h.locked lk, fun d e hde => ?_, fun d e hd => ?_, fun d => ?_, fun d q hd => ?_,
    fun q hq ha => ?_⟩, fun q hpos hzero => ?_⟩
  · by_cases h₁ : d = c <;> by_cases h₂ : e = c
    · rw [h₁, h₂]
    · rw [h₁, hself, hother h₂] at hde
      exact absurd hde.symm (hne h₂)
    · rw [h₂, hself, hother h₁] at hde
      exact absurd hde (hne h₁)
    · rw [hother h₁, hother h₂] at hde
      exact h.once hde
  · by_cases h₁ : d = c
    · subst h₁
      rw [hself] at hd
      obtain rfl | rfl := ht
      · exact (Thread.sched.inj hd).symm
      · cases hd
    · exact h.sched d e ((hother h₁).symm.trans hd)
  · by_cases h₁ : d = c
    · subst h₁
      rw [GoodAt, State.thread, hself, hcore, hlock]
      exact hgood
    · rw [GoodAt, State.thread, hother h₁, hcore, hlock, htcb _ (hsched h₁) (haway d h₁)]
      have hown : u.own (s.running d) = s.own (s.running d) := by
        cases e : s.running d with
        | sched _ => rfl
        | proc q => exact hstate q fun hq => haway d h₁ (hq ▸ e)
      rw [hown]
      exact h.good d
  · by_cases h₁ : d = c
    · subst h₁
      rw [hself] at hd
      obtain rfl | rfl := ht
      · cases hd
      · obtain rfl := Thread.proc.inj hd
        exact hwaiting rfl
    · rw [htcb (.sched d) (fun e => h₁ (Thread.sched.inj e)) (by simp)]
      exact h.waiting d q ((hother h₁).symm.trans hd)
  · by_cases hqp : q = p
    · subst hqp
      obtain rfl | rfl := ht
      · exact hparked rfl ha
      · exact absurd hself (hq c)
    · rw [htcb (.proc q) (by simp) (fun e => hqp (Thread.proc.inj e))]
      refine h.parked q (fun d e => ?_) (hstate q hqp ▸ ha)
      by_cases h₁ : d = c
      · rw [h₁] at e
        obtain h' | h' := hold <;> rw [h'] at e
        · cases e
        · exact hqp (Thread.proc.inj e).symm
      · exact hq d ((hother h₁).trans e)
  · by_cases hqp : q = p
    · rw [hqp] at hzero
      omega
    · rw [htcb (.proc q) (by simp) (fun e => hqp (Thread.proc.inj e))] at hzero
      omega

/-- The checks of `sched` pass. -/
theorem Inv.swtchToScheduler (h : Inv plock s) (hr : s.running c = .proc p) (hpc : (s.thread c).pc = .idle)
    (htodo : (s.thread c).todo = .sched :: cs) :
    Inv plock (swtchToScheduler plock s c p cs) ∧ Ends s (swtchToScheduler plock s c p cs) := by
  have g := h.good c
  have w := h.waiting c p hr
  have hthread : s.tcb (.proc p) = s.thread c := by rw [State.thread, hr]
  have hne : Thread.sched c ≠ Thread.proc p := by simp
  have hm := g.matched
  rw [hpc, htodo, hr] at hm
  obtain ⟨hheld, hpushed, hst, hm⟩ := hm
  replace hheld : (s.thread c).held = [plock p] := List.map_injective_iff.2 (Option.some_injective _) hheld
  rw [hheld, hpushed] at hm
  have hdepth : (s.thread c).depth = 1 := by rw [Tcb.depth, hheld, hpushed, hpc]; rfl
  have hnoff := g.noff.trans hdepth
  have hsie := g.off (by omega)
  have hholding : s.holding c (plock p) = true := h.holding (by rw [hheld]; exact List.mem_singleton_self _)
  change s.state p ≠ .running at hst
  rw [Interrupts.swtchToScheduler, if_neg (fun hn => hn hholding), if_neg (fun hn => hn hnoff), if_neg hst,
    if_neg (fun hn => Bool.false_ne_true (hsie.symm.trans hn))]
  have htcb : Function.update s.tcb (.proc p) { s.tcb (.proc p) with pc := .resume (s.core c).intena, todo := cs } (.proc p) =
      { s.thread c with pc := .resume (s.core c).intena, todo := cs } := by
    rw [Function.update_self, hthread]
  refine h.switch (t := .sched c) (.inl rfl) (.inr hr) (fun d hd e => hd (h.once (e.trans hr.symm))) rfl rfl rfl
    (fun x _ hx => Function.update_of_ne hx _ _) (fun _ _ => rfl) ?_ (by simp) (fun _ ha => ?_) ?_
  · change Good plock _ .running _ _ _
      (Function.update s.tcb (.proc p) { s.tcb (.proc p) with pc := .resume (s.core c).intena, todo := cs } (.sched c))
    rw [Function.update_of_ne hne]
    refine w.toSwitched.good w.pc (.inl rfl) hnoff hsie (fun x => ?_) (fun x => hheld ▸ g.named x) (fun b hb => ?_) g.panicked
    · rw [g.mine, Tcb.owns, hpc, hheld]
      rfl
    · rw [w.outer] at hb
      cases hb
  · refine (congrArg (Parked Cpu plock p) htcb).mpr ?_
    have hzombie : s.state p ≠ .zombie := by
      obtain e | e | e : Alive (s.state p) := ha <;> rw [e] <;> decide
    refine ⟨⟨hheld, hpushed, hm hzombie, hr ▸ g.saved⟩, .inr ⟨_, rfl, fun b hb => ?_⟩⟩
    have := g.outer (by omega) b hb
    rwa [hpc] at this
  · refine Nat.one_pos.trans_eq ((congrArg Tcb.depth htcb).trans ?_).symm
    rw [Tcb.depth, hheld, hpushed]
    rfl

theorem Inv.swtchToProc (h : Inv plock s) (hr : s.running c = .sched c) (hpc : (s.thread c).pc = .idle)
    (htodo : (s.thread c).todo = .dispatch p :: cs) (hst : s.state p = .runnable) :
    Inv plock (swtchToProc s c p cs) ∧ Ends s (swtchToProc s c p cs) := by
  have g := h.good c
  have hthread : s.tcb (.sched c) = s.thread c := by rw [State.thread, hr]
  have hm := g.matched
  rw [hpc, htodo, hr] at hm
  obtain ⟨-, hheld, hpushed, hm⟩ := hm
  rw [hheld, hpushed] at hm
  have hdepth : (s.thread c).depth = 1 := by rw [Tcb.depth, hheld, hpushed, hpc]; rfl
  have hnoff := g.noff.trans hdepth
  have haway (d : Cpu) : s.running d ≠ .proc p := fun hd => by
    obtain rfl := h.runs_here (by rw [hheld]; exact List.mem_singleton_self _) (by rw [hst]; decide) hd
    rw [hr] at hd
    cases hd
  have w := h.parked p haway (.inr (.inr hst))
  have htcb : (Interrupts.swtchToProc s c p cs).tcb (.proc p) = { s.tcb (.proc p) with
      outer := if (s.tcb (.proc p)).pc = .idle then (s.tcb (.sched c)).outer else (s.tcb (.proc p)).outer } :=
    Function.update_self ..
  rw [hthread] at htcb
  have w' : Switched plock (.proc p : Thread Cpu Proc) p ((Interrupts.swtchToProc s c p cs).tcb (.proc p)) := by
    rw [htcb]
    exact ⟨w.held, w.pushed, w.matched, w.saved⟩
  refine h.switch (t := .proc p) (.inr rfl) (.inl hr) (fun d _ => haway d) rfl rfl rfl (fun x hx hx' => ?_)
    (fun q hq => Function.update_of_ne hq _ _) ?_ (fun _ => ?_) (by simp) w'.depth_pos
  · exact (Function.update_of_ne hx' _ _).trans (Function.update_of_ne hx _ _)
  · have hown : (Interrupts.swtchToProc s c p cs).own (.proc p) = .running := Function.update_self ..
    have hpc' : ((Interrupts.swtchToProc s c p cs).tcb (.proc p)).pc = (s.tcb (.proc p)).pc := by rw [htcb]
    rw [hown]
    have hidle : (s.tcb (.proc p)).pc = .idle ∨ ∃ i, (s.tcb (.proc p)).pc = .resume i :=
      w.pc.imp id fun h => h.imp fun _ hi => hi.1
    refine w'.good hpc' hidle hnoff (g.off (by omega)) (fun x => ?_)
      (fun x => hheld ▸ g.named x) (fun b hb => ?_) g.panicked
    · rw [g.mine, Tcb.owns, hpc, hheld]
      rfl
    · -- `forkret` inherits the section of the scheduler, `sched` restores its own `intena`
      rw [htcb] at hb
      obtain hi | ⟨i, hi, hb'⟩ := w.pc
      · rw [if_pos hi] at hb
        have := g.outer (by omega) b hb
        rw [hpc] at this
        rw [hi]
        exact this
      · rw [if_neg (by simp [hi])] at hb
        rw [hi]
        exact hb' b hb
  · have hne : Thread.sched c ≠ Thread.proc p := by simp
    have htcb : (Interrupts.swtchToProc s c p cs).tcb (.sched c) = { s.tcb (.sched c) with todo := cs, outer := none } := by
      dsimp only [Interrupts.swtchToProc]
      rw [Function.update_of_ne hne, Function.update_self]
    rw [htcb, hthread]
    exact ⟨⟨hheld, hpushed, hm, hr ▸ g.saved⟩, hpc, rfl⟩

/-! ## Every step -/

theorem Inv.begin (h : Inv plock s) (hpc : (s.thread c).pc = .idle) {f : Call Lock Proc}
    (htodo : (s.thread c).todo = f :: cs) (hbegin : begin plock s c f cs = some u) : Inv plock u ∧ Ends s u := by
  have g := h.good c
  have hm := g.matched
  rw [hpc, htodo] at hm
  cases f with
  | acquire lk | pushOff =>
    cases hbegin
    exact h.put (g.begin hpc htodo rfl rfl rfl (fun _ _ e => (Pc.push.inj e).1) nofun) le_rfl
  | release lk =>
    cases hbegin
    exact h.put (g.begin hpc htodo rfl rfl rfl nofun nofun) le_rfl
  | popOff =>
    cases hbegin
    exact h.put (g.beginPop hpc htodo) le_rfl
  | setState st =>
    cases hr : s.running c with
    | sched d =>
      simp only [Interrupts.begin, hr] at hbegin
      cases hbegin
    | proc p =>
      simp only [Interrupts.begin, hr, Option.some.injEq] at hbegin
      obtain ⟨hlk, hne, hm⟩ := hm
      have h' : Inv plock (s.setState p st) := by
        refine h.setState (fun d hd => ?_) fun hno => absurd hr (hno c)
        obtain rfl := h.once (hd.trans hr.symm)
        exact { g with matched := by rw [hpc, htodo]; exact ⟨hlk, hne, hm⟩, moved := fun _ => hlk }
      have g' := h'.good c
      subst hbegin
      refine h'.put (g'.todo hpc ?_) le_rfl
      change Matched plock (s.running c) cs _ _ ((s.setState p st).own (s.running c))
      rw [show (s.setState p st).own (s.running c) = st by rw [hr]; exact setState_self]
      exact hm
  | sched =>
    cases hr : s.running c with
    | sched d =>
      rw [hr] at hm
      have hnone : none ∈ (s.thread c).held.map some := by
        rw [hm.1]
        exact List.mem_singleton_self _
      obtain ⟨x, -, hx⟩ := List.mem_map.1 hnone
      cases hx
    | proc p =>
      simp only [Interrupts.begin, hr, Option.some.injEq] at hbegin
      subst hbegin
      exact h.swtchToScheduler hr hpc htodo
  | dispatch p =>
    cases hr : s.running c with
    | proc q =>
      rw [hr] at hm
      exact absurd hm.1 nofun
    | sched d =>
      obtain rfl := h.sched c d hr
      simp only [Interrupts.begin] at hbegin
      split_ifs at hbegin with hst
      · obtain rfl := Option.some.inj hbegin
        exact h.swtchToProc hr hpc htodo hst
      · obtain rfl := Option.some.inj hbegin
        exact h.put (g.todo hpc hm.2.2.2) le_rfl
  | panic msg => exact hm.elim

theorem Inv.go (h : Inv plock s) (hgo : go plock s c = some u) : Inv plock u ∧ Ends s u := by
  have g := h.good c
  unfold Interrupts.go at hgo
  dsimp only at hgo
  split at hgo
  · next hpc =>
    split at hgo
    · cases hgo
    · next f cs htodo => exact h.begin hpc htodo hgo
  · next old lk hpc =>
    cases hgo
    exact h.put (g.pushOff hpc) (Nat.le_succ _)
  · next lk hpc =>
    split_ifs at hgo <;> cases hgo
    · exact h.put { g with panicked := .inr rfl } le_rfl
    · exact h.put (g.goto (by rw [hpc]; rfl) (by rw [hpc]; rfl) (by rw [hpc]; rfl) (by rw [hpc]; rfl) (by simp) (by simp)) le_rfl
  · next lk hpc =>
    split_ifs at hgo with hl <;> cases hgo
    · exact ⟨h, ends_refl s⟩
    have hnone : (s.lock lk).holder = none := by
      rw [h.locked] at hl
      exact Option.not_isSome_iff_eq_none.1 hl
    refine h.putLock (fun d _ => by simp [hnone]) (fun d hd => ⟨fun e => hd (Option.some.inj e).symm, fun e => ?_⟩) rfl
      (g.take hpc (by simp [hnone]) (fun x => ?_) fun x => ?_)
    · rw [h.holder_of_cpu e] at hnone
      cases hnone
    all_goals
      rw [Function.update_apply]
      split_ifs with e <;> simp [e]
  · next lk hpc =>
    cases hgo
    have hholder : (s.lock lk).holder = some c := (g.mine lk).2 (by rw [Tcb.owns, hpc]; exact List.mem_cons_self)
    have hlocked := h.locked lk
    have hother (d : Cpu) (hd : d ≠ c) : some c ≠ some d := fun e => hd (Option.some.inj e).symm
    refine h.putLock (fun d hd => by rw [hholder]; exact hother d hd) (fun d hd => ⟨?_, hother d hd⟩) hlocked
      (g.name hpc (fun x => ?_) fun x => ?_)
    · rw [hholder]
      exact hother d hd
    all_goals
      rw [Function.update_apply]
      split_ifs with e <;> simp [e]
  · next lk hpc =>
    have hlk : lk ∈ (s.thread c).held := by
      have hm := g.matched
      rw [hpc] at hm
      exact hm.1
    have hholder := h.holder_of_cpu ((g.named lk).2 hlk)
    have hother (d : Cpu) (hd : d ≠ c) : (s.lock lk).holder ≠ some d := fun e => hd (Option.some.inj (e.symm.trans hholder))
    rw [if_neg fun hn => hn (h.holding hlk)] at hgo
    cases hgo
    refine h.putLock hother (fun d hd => ⟨hother d hd, by simp⟩) (h.locked lk) (g.unname hpc (fun x => ?_) fun x => ?_)
    all_goals
      rw [Function.update_apply]
      split_ifs with e <;> simp [e]
  · next lk hpc =>
    cases hgo
    have hholder : (s.lock lk).holder = some c := (g.mine lk).2 (by rw [Tcb.owns, hpc]; exact List.mem_cons_self)
    have hother (d : Cpu) (hd : d ≠ c) : (s.lock lk).holder ≠ some d := fun e => hd (Option.some.inj (e.symm.trans hholder))
    refine h.putLock hother (fun d hd => ⟨by simp, fun e => hother d hd (h.holder_of_cpu e)⟩) rfl
      (g.drop hpc (fun x => ?_) fun x => ?_)
    all_goals
      rw [Function.update_apply]
      split_ifs with e <;> simp [e]
  · next hpc =>
    cases hgo
    have hpos : 0 < (s.thread c).depth := by rw [Tcb.depth, hpc]; exact Nat.succ_pos _
    have hnoff := g.noff
    rw [popOff, if_neg (by simp [g.off hpos]), if_neg (by omega)]
    refine h.update h.locked (fun _ _ _ => ⟨Iff.rfl, Iff.rfl⟩) (g.popOff hpc) fun h₀ _ b hb => ?_
    have hintena := g.outer hpos b hb
    rw [hpc] at hintena
    change decide ((s.core c).noff - 1 = 0 ∧ (s.core c).intena = true) = b
    rw [show (s.core c).intena = b from hintena, Bool.decide_and, decide_eq_true (show (s.core c).noff - 1 = 0 from h₀),
      Bool.true_and, Bool.decide_eq_true]
  · next i hpc =>
    cases hgo
    exact h.put (g.resumed hpc) le_rfl

theorem Inv.setState_of_free (h : Inv plock s) (hfree : (s.thread c).Free) (hlk : plock p ∈ (s.thread c).held)
    (hst : s.state p ≠ .running) (hparked : Alive st → Alive (s.state p)) :
    Inv plock (s.setState p st) ∧ Ends s (s.setState p st) := by
  have hno := h.not_running hfree hlk hst
  exact ⟨h.setState (fun d hd => absurd hd (hno d)) fun _ ha => h.parked p hno (hparked ha), ends_refl s⟩

/-- `allocproc` gives a free process a thread that starts in `forkret`. -/
theorem Inv.alloc (h : Inv plock s) (hno : ∀ d, s.running d ≠ .proc p) :
    Inv plock ((s.setTcb (.proc p) (forkret plock p)).setState p .used) ∧
      Ends s ((s.setTcb (.proc p) (forkret plock p)).setState p .used) := by
  have hself : (s.setTcb (.proc p) (forkret plock p)).tcb (.proc p) = forkret plock p := Function.update_self ..
  have hother (t : Thread Cpu Proc) (ht : t ≠ .proc p) : (s.setTcb (.proc p) (forkret plock p)).tcb t = s.tcb t :=
    Function.update_of_ne ht _ _
  have hparked : Parked Cpu plock p (forkret plock p) :=
    ⟨⟨rfl, rfl, ⟨List.mem_singleton_self _, fun _ => rfl, rfl⟩, by simp [forkret]⟩, .inl rfl⟩
  have h' : Inv plock (s.setTcb (.proc p) (forkret plock p)) := by
    refine ⟨h.locked, h.once, h.sched, fun c => ?_, fun c q hq => ?_, fun q hq ha => ?_⟩
    · have g := h.good c
      rw [State.thread, ← hother _ (hno c)] at g
      exact g
    · rw [hother (.sched c) (by simp)]
      exact h.waiting c q hq
    · by_cases e : q = p
      · rw [e, hself]
        exact hparked
      · rw [hother _ fun e' => e (Thread.proc.inj e')]
        exact h.parked q hq ha
  refine ⟨h'.setState (fun d hd => absurd hd (hno d)) fun _ _ => by rw [hself]; exact hparked, fun q hpos hzero => ?_⟩
  change ((s.setTcb (.proc p) (forkret plock p)).tcb (.proc q)).depth = 0 at hzero
  by_cases e : q = p
  · rw [e, hself] at hzero
    cases hzero
  · rw [hother _ fun e' => e (Thread.proc.inj e')] at hzero
    omega

theorem Inv.step (h : Inv plock s) {e : Cpu × Op Lock Proc} (hd : Disciplined plock s e) (hs : step plock s e = some u) :
    Inv plock u ∧ Ends s u := by
  obtain ⟨c, op⟩ := e
  have g := h.good c
  rw [Interrupts.step] at hs
  cases op with
  | go =>
    dsimp only at hs
    split_ifs at hs with hpanic
    exact h.go hs
  | trap =>
    dsimp only at hs
    split_ifs at hs with hpanic hsie
    obtain rfl := Option.some.inj hs
    exact h.put (g.trap hsie) le_rfl
  | call f =>
    dsimp only at hs
    split_ifs at hs with hpanic hfree
    obtain ⟨cs, hcs, rfl⟩ := Option.map_eq_some_iff.1 hs
    refine h.put (g.todo hfree.1 ?_) le_rfl
    have hst := g.matched
    rw [hfree.1, hfree.2] at hst
    rw [show s.own (s.running c) = .running from hst]
    exact hd cs hcs
  | intr on =>
    dsimp only at hs
    split_ifs at hs with hpanic hfree
    obtain rfl := Option.some.inj hs
    exact h.put (g.intr hfree.1 hd on) le_rfl
  | sret =>
    dsimp only at hs
    split_ifs at hs with hpanic hfree
    split at hs
    · cases hs
    · next pc todo saved hsaved =>
      obtain rfl := Option.some.inj hs
      exact h.put (g.sret hfree hd hsaved) le_rfl
  | alloc p =>
    dsimp only at hs
    split_ifs at hs with hpanic hfree hst
    · obtain rfl := Option.some.inj hs
      exact h.alloc (h.not_running hfree hd (by rw [hst]; decide))
    · exact Option.some.inj hs ▸ ⟨h, ends_refl s⟩
  | ready p =>
    dsimp only at hs
    split_ifs at hs with hpanic hfree
    obtain rfl := Option.some.inj hs
    exact h.setState_of_free hfree hd.1 (by rw [hd.2]; decide) fun _ => .inl hd.2
  | wake p =>
    dsimp only at hs
    split_ifs at hs with hpanic hfree hst
    · obtain rfl := Option.some.inj hs
      exact h.setState_of_free hfree hd (by rw [hst]; decide) fun _ => .inr (.inl hst)
    · exact Option.some.inj hs ▸ ⟨h, ends_refl s⟩
  | free p =>
    dsimp only at hs
    split_ifs at hs with hpanic hfree
    obtain rfl := Option.some.inj hs
    have hst : s.state p ≠ .running := by obtain e | e := hd.2 <;> rw [e] <;> decide
    refine h.setState_of_free hfree hd.1 hst fun ha => ?_
    obtain e | e | e := ha <;> cases e

/-- For any CPUs, locks and processes, and any interleaving of threads whose calls are matched: a CPU that has
taken a spinlock has its interrupts off; no panic is reachable but that of `acquire` for a lock that the CPU
holds already; and when the kernel thread of a process leaves its outermost section, on whichever CPU,
interrupts are on there iff they were on when the section began. -/
theorem interrupts_survive_nesting {s₀ : State Cpu Lock Proc} {es : List (Cpu × Op Lock Proc)} (h₀ : Initial s₀)
    (hok : StepsOk (step plock) (Disciplined plock) s₀ es) (hrun : run (step plock) s₀ es = some s) :
    (∀ c lk, s.holding c lk = true ∨ (s.lock lk).holder = some c → (s.core c).sie = false) ∧
    (∀ c, (s.core c).panicked = none ∨ (s.core c).panicked = some "acquire") ∧
    ∀ e u p, Disciplined plock s e → step plock s e = some u →
      0 < (s.tcb (.proc p)).depth → (u.tcb (.proc p)).depth = 0 →
      ∃ c, s.running c = .proc p ∧ u.running c = .proc p ∧
        ∀ b, (s.tcb (.proc p)).outer = some b → (u.core c).sie = b := by
  have h : Inv plock s := run_invariant (fun _ _ _ h hd hs => (h.step hd hs).1) h₀.inv hok hrun
  refine ⟨fun c lk hlk => ?_, fun c => (h.good c).panicked, fun e u p hd hs => (h.step hd hs).2 p⟩
  have hholder : (s.lock lk).holder = some c := by
    obtain hlk | hlk := hlk
    · exact h.holder_of_cpu (of_decide_eq_true (Bool.and_eq_true_iff.1 hlk).2)
    · exact hlk
  exact (h.good c).off (depth_pos_of_owns (((h.good c).mine lk).1 hholder))

/-- Two CPUs in their schedulers, with interrupts on; a lock that is not of a process is `none`. -/
def twoCpus : State Bool (Option Bool) Bool where
  core _ := ⟨true, 0, false, none⟩
  running := .sched
  tcb _ := ⟨.idle, [], [], [], 0, none⟩
  lock _ := ⟨false, none, none⟩
  state _ := .unused

/-- The first CPU makes a process and runs it up to `sched` in `yield`; the second CPU runs it from there up to the
last step of `yield`. -/
def migrate : List (Bool × Op (Option Bool) Bool) :=
  [(false, .call (.acquire (some false)))] ++ List.replicate 5 (false, .go) ++
  [(false, .alloc false), (false, .ready false), (false, .call (.release (some false)))] ++
  List.replicate 4 (false, .go) ++ [(false, .call (.schedule false))] ++ List.replicate 10 (false, .go) ++
  [(false, .call .yield)] ++ List.replicate 19 (false, .go) ++
  [(true, .call (.schedule false))] ++ List.replicate 10 (true, .go)

theorem interrupts_survive_migration : ∃ s u c, run (step some) twoCpus migrate = some s ∧
    step some s (true, .go) = some u ∧ u.running c = .proc false ∧ (u.core c).sie = true := by
  have hok : StepsOk (step some) (Disciplined some) twoCpus migrate := by decide +kernel
  have hend : ((run (step some) twoCpus migrate).bind fun s => (step some s (true, .go)).map fun u =>
      decide (0 < (s.tcb (.proc false)).depth ∧ (s.tcb (.proc false)).outer = some true ∧
        (u.tcb (.proc false)).depth = 0)) = some true := by decide +kernel
  obtain ⟨s, hs, hend⟩ := Option.bind_eq_some_iff.1 hend
  obtain ⟨u, hu, hend⟩ := Option.map_eq_some_iff.1 hend
  obtain ⟨hpos, houter, hzero⟩ := of_decide_eq_true hend
  have h₀ : Initial twoCpus := ⟨fun _ => ⟨rfl, rfl⟩, fun _ => rfl, fun _ => rfl, fun _ => rfl, fun _ => rfl⟩
  obtain ⟨c, -, hc, hsie⟩ := (interrupts_survive_nesting h₀ hok hs).2.2 (true, .go) u false trivial hu hpos hzero
  exact ⟨s, u, c, hs, hu, hc, hsie true houter⟩

/-- For any interleaving of threads whose calls are matched: two CPUs are never between the swap of `acquire` and the
end of `release` of one lock; `holding` is true of the locks that the running thread has, those it got at a context
switch included; no thread runs on two CPUs; and a CPU that runs a process whose `p->state` is not `RUNNING` has its
`p->lock`. -/
theorem spinlocks_exclude {s₀ : State Cpu Lock Proc} {es : List (Cpu × Op Lock Proc)} (h₀ : Initial s₀)
    (hok : StepsOk (step plock) (Disciplined plock) s₀ es) (hrun : run (step plock) s₀ es = some s) :
    (∀ c d lk, lk ∈ (s.thread c).owns → lk ∈ (s.thread d).owns → c = d) ∧
    (∀ c lk, s.holding c lk = true ↔ lk ∈ (s.thread c).held) ∧
    (∀ c d, s.running c = s.running d → c = d) ∧
    ∀ c p, s.running c = .proc p → s.state p ≠ .running → s.holding c (plock p) = true := by
  have h : Inv plock s := run_invariant (fun _ _ _ h hd hs => (h.step hd hs).1) h₀.inv hok hrun
  refine ⟨fun c d lk hc hd => ?_, fun c lk => ⟨fun hlk => ?_, h.holding⟩, fun c d e => h.once e, fun c p hr hst => ?_⟩
  · have hholder := ((h.good c).mine lk).2 hc
    exact Option.some.inj (hholder.symm.trans (((h.good d).mine lk).2 hd))
  · exact ((h.good c).named lk).1 (of_decide_eq_true (Bool.and_eq_true_iff.1 hlk).2)
  · have g := h.good c
    rw [GoodAt, hr] at g
    obtain ⟨lk, hlk, e⟩ := g.moved hst
    exact h.holding (Option.some.inj e ▸ hlk)

/-- The first CPU takes a lock. -/
def acquiring : List (Bool × Op (Option Bool) Bool) :=
  (false, .call (.acquire (some false))) :: List.replicate 5 (false, .go)

theorem spinlocks_exclude_acquire : ∃ s, run (step some) twoCpus acquiring = some s ∧
    s.holding false (some false) = true ∧ ∀ d, some false ∈ (s.thread d).owns → false = d := by
  have hok : StepsOk (step some) (Disciplined some) twoCpus acquiring := by decide +kernel
  have hend : (run (step some) twoCpus acquiring).map (fun s =>
      decide (some false ∈ (s.thread false).held)) = some true := by decide +kernel
  obtain ⟨s, hs, hmem⟩ := Option.map_eq_some_iff.1 hend
  have hheld := of_decide_eq_true hmem
  have h₀ : Initial twoCpus := ⟨fun _ => ⟨rfl, rfl⟩, fun _ => rfl, fun _ => rfl, fun _ => rfl, fun _ => rfl⟩
  obtain ⟨hone, hholding, -⟩ := spinlocks_exclude h₀ hok hs
  exact ⟨s, hs, (hholding _ _).2 hheld, fun d => hone _ d _ (List.mem_append_right _ hheld)⟩

end Xv6.Interrupts
