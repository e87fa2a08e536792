import Xv6.Procs.Changes

/-!
# What the steps do to the table

One lemma for each way in which the code changes the table: it keeps the invariants, and it leaves the
rest alone.
-/

namespace Xv6.Procs

open Threads

variable {nproc : ℕ} {d : Data} {c i j q : ℕ} {held : Set Lock} {p' : Proc} {parent me : Option ℕ}

theorem awake_of_running (h : (d.proc i).state = .running) : Awake d (some i) := by
  rintro x hx
  obtain rfl := Option.some.inj hx
  rw [h]
  simp

theorem awake_none : Awake d none := fun _ h => by cases h

theorem Table.used_of_parent (ht : Table nproc d) (h : (d.proc j).parent = some q) :
    (d.proc j).state ≠ .unused := fun hu => by
  have hc := ht.cleared j hu
  rw [Cleared] at hc
  rw [hc] at h
  cases h

theorem Table.maker_none (ht : Table nproc d) (h : (d.proc j).state ≠ .used) : (d.proc j).maker = none := by
  by_contra hm
  exact h ((ht.maker j).2 hm)

theorem Table.ne_init (ht : Table nproc d) (h : ¬ (d.proc j).state.Live) : j ≠ initproc :=
  fun e => h (e ▸ ht.init.1)

/-- Nobody makes a process in a slot whose process is complete. -/
theorem Touches.of_complete (ht : Table nproc d) (hu : (d.proc j).state ≠ .unused)
    (hm : (d.proc j).state ≠ .used) (hl : .proc j ∈ held) (hparent : p'.parent = (d.proc j).parent ∨ .wait ∈ held)
    (hzombie : p'.state = .zombie → .wait ∈ held)
    (hasleep : p'.state = .sleeping → p'.chan = some (.proc j) → .wait ∈ held)
    (hserial : p'.serial = (d.proc j).serial) : Touches j me held (d.proc j) p' := by
  refine ⟨.inr hl, hparent, fun hz => .inr (hzombie hz), fun hs hc => .inr (hasleep hs hc), fun _ => .inl hu,
    fun _ => hserial, fun y hy _ => ?_⟩
  rw [ht.maker_none hm] at hy
  cases hy

theorem fits_freeproc {d' : Data} {p : Proc} (hlive : ¬ (d.proc j).state.Live) (ht : Table nproc d) :
    Fits nproc d d' j (freeproc p) := by
  constructor
  case cleared => exact fun _ => rfl
  case maker => simp [freeproc]
  case children => exact fun hl => absurd hl hlive
  case init => exact fun e => absurd e (ht.ne_init hlive)
  all_goals simp [freeproc]

/-- A complete process that goes on, with its parent. -/
theorem Table.fits_live (ht : Table nproc d) {d' : Data} (hproc : d'.proc = Function.update d.proc j p')
    (hnext : d'.next = d.next) (hu : (d.proc j).state ≠ .unused)
    (hparents : (d.proc j).state = .used → (d.proc j).parent ≠ none)
    (hp' : p' = { d.proc j with chan := p'.chan, state := p'.state, context := p'.context, maker := none })
    (hlive : p'.state.Live) (hrunning : p'.state = .running → ∃ c, d'.cpu c = some j)
    (hsaved : p'.state = .runnable ∨ p'.state = .sleeping → p'.context.Saved nproc d' j) : Fits nproc d d' j p' := by
  have hparent : p'.parent = (d.proc j).parent := by rw [hp']
  have hserial : p'.serial = (d.proc j).serial := by rw [hp']
  have hmaker : p'.maker = none := by rw [hp']
  constructor
  case serial =>
    intro _
    rw [hserial, show p'.pid = (d.proc j).pid by rw [hp']]
    exact ht.serial_of_used hnext hu
  case cleared =>
    intro e
    rw [e] at hlive
    exact hlive.elim
  case maker =>
    refine iff_of_false (fun e => ?_) (not_not.2 hmaker)
    rw [e] at hlive
    exact hlive
  case forked =>
    intro y q hy
    rw [hmaker] at hy
    cases hy
  case parents =>
    intro hj _ hnone
    rw [hparent] at hnone
    exact absurd hnone (hparents (ht.parents j hj hu hnone).1)
  case parent =>
    intro q hq
    rw [hparent] at hq
    exact live_update hproc (fun _ => hlive) (ht.live j q hq)
  case children => exact fun _ => .inl hlive
  case init => exact fun e => ⟨hlive, hserial.trans (e ▸ ht.init.2)⟩
  case running => exact hrunning
  case saved => exact hsaved

/-! ## Fork -/

theorem Making.not_live (h : Making d i j parent) : ¬ (d.proc j).state.Live := by
  rw [h.used]
  exact id

theorem Making.used_ne (h : Making d i j parent) : (d.proc j).state ≠ .unused := by
  rw [h.used]
  decide

theorem Making.touches (h : Making d i j parent)
    (hstate : p'.state = (d.proc j).state ∨ .proc j ∈ held) (hparent : p'.parent = (d.proc j).parent ∨ .wait ∈ held)
    (hzombie : p'.state ≠ .zombie) (hasleep : p'.state ≠ .sleeping) (hserial : p'.serial = (d.proc j).serial) :
    Touches j (some i) held (d.proc j) p' := by
  refine ⟨hstate, hparent, fun hz => absurd hz hzombie, fun hs _ => absurd hs hasleep, fun _ => .inl h.used_ne,
    fun _ => hserial, fun y hy hne => ?_⟩
  rw [h.maker] at hy
  exact absurd hy hne

theorem Making.not_running {P : Prop} (h : Making d i j parent) :
    (d.proc j).state = .running → P := by
  rw [h.used]
  nofun

theorem Making.build (h : Making d i j parent) (hd : Good nproc d)
    (hi : (d.proc i).state = .running) (hstate : p'.state = .used) (hmaker : p'.maker = some i)
    (hserial : p'.serial = (d.proc j).serial) (hpid : p'.pid = (d.proc j).pid)
    (hparent : p'.parent = (d.proc j).parent ∧ p'.window = (d.proc j).window ∨
      p'.parent = some i ∧ .wait ∈ held) : Guarantee d (d.setProc j p') c (some i) held ∧ Good nproc (d.setProc j p') := by
  have hchild (q : ℕ) (hq : p'.parent = some q) : (d.proc j).parent = some q ∨ q = i := by
    obtain ⟨e, -⟩ | ⟨e, -⟩ := hparent
    · exact .inl (e ▸ hq)
    · exact .inr (Option.some.inj (hq.symm.trans e))
  have hfits : Fits nproc d (d.setProc j p') j p' := by
    constructor
    case serial =>
      intro _
      rw [hserial, hpid]
      exact hd.table.serial_of_used rfl h.used_ne
    case cleared => rw [hstate]; simp
    case maker => rw [hstate, hmaker]; simp
    case forked =>
      intro y q hy hq
      rw [hmaker] at hy
      obtain hq | rfl := hchild q hq
      · exact hd.table.forked j y q (h.maker.trans hy) hq
      · exact .inl (Option.some.inj hy)
    case parents =>
      intro hinit _ hnone
      obtain ⟨e, hwindow⟩ | ⟨e, -⟩ := hparent
      · rw [hwindow, hstate]
        exact ⟨rfl, (hd.table.parents j hinit h.used_ne (e ▸ hnone)).2⟩
      · rw [e] at hnone
        cases hnone
    case parent =>
      intro q hq
      refine live_update rfl (fun hl => absurd hl h.not_live) ?_
      obtain hq | rfl := hchild q hq
      · exact hd.table.live j q hq
      · rw [hi]; trivial
    case children => exact fun hl => absurd hl h.not_live
    case init => exact fun e => absurd e (hd.table.ne_init h.not_live)
    case running => rw [hstate]; simp
    case saved => rw [hstate]; simp
  refine (oneSlot_setProc d j p').good hd (awake_of_running hi) (h.touches (.inl (hstate.trans h.used.symm))
    (hparent.imp (·.1) (·.2)) (by rw [hstate]; decide) (by rw [hstate]; decide) hserial) (fun _ => hfits)
    (fun _ => h.not_running) (by rw [hstate]; simp) (fun hg q hq => ?_) fun _ => ?_
  · rw [hserial]
    obtain hq | rfl := hchild q hq
    · exact hd.logged.born_of_parent hd.table hg hq
    · rw [hg.serial q (by rw [hi]; simp)]
      exact .inr (hg.notes _ h.born)
  · rw [hserial]
    exact hd.logged.unreaped j h.used_ne

/-- `freeproc` of a slot without a parent, in a `fork` that fails. -/
theorem Making.fail (h : Making d i j none) (hd : Good nproc d) (hi : (d.proc i).state = .running)
    (hj : .proc j ∈ held) : Guarantee d (d.setProc j (freeproc (d.proc j))) c (some i) held ∧
      Good nproc (d.setProc j (freeproc (d.proc j))) :=
  (oneSlot_setProc d j _).good hd (awake_of_running hi)
    (h.touches (.inr hj) (.inl h.parent.symm) (by simp [freeproc]) (by simp [freeproc]) rfl)
    (fun _ => fits_freeproc h.not_live hd.table) (fun _ => h.not_running) (by simp [freeproc]) (by simp [freeproc])
    (by simp [freeproc])

/-- `np->state = RUNNABLE` -/
theorem Making.finish (h : Making d i j (some i)) (hcontext : (d.proc j).context = .resume .user)
    (hd : Good nproc d) (hi : (d.proc i).state = .running) (hj : .proc j ∈ held) {d' : Data}
    (hd' : d' = (d.setProc j { d.proc j with state := .runnable, maker := none }).note
      (.made (d.proc j).serial)) : Guarantee d d' c (some i) held ∧ Good nproc d' := by
  subst hd'
  refine (oneSlot_note rfl (by simp)).good hd (awake_of_running hi)
    (h.touches (.inr hj) (.inl rfl) (by simp) (by simp) rfl) (fun _ => ?_) (fun _ => h.not_running) (by simp)
    (fun hg q hq => hd.logged.born_of_parent hd.table hg hq) fun _ => hd.logged.unreaped j h.used_ne
  refine hd.table.fits_live rfl rfl h.used_ne (fun _ => by rw [h.parent]; simp) rfl trivial (by simp) fun _ => ?_
  rw [hcontext]
  exact ⟨rfl, trivial⟩

theorem allocpid_good (hd : Good nproc d) (hp : .pid ∈ held) {d' : Data}
    (hd' : d' = { d with nextpid := d.nextpid + 1, next := d.next + 1 }) (me : Option ℕ) (hme : Awake d me) :
    Guarantee d d' c me held ∧ Good nproc d' := by
  subst hd'
  have hg : Guarantee d { d with nextpid := d.nextpid + 1, next := d.next + 1 } c me held :=
    { state := fun _ _ => rfl
      parent := fun _ _ => rfl
      zombie := fun _ _ => id
      asleep := fun _ _ => id
      next := fun h => absurd hp h
      born := fun _ _ => id
      serial := fun _ _ => rfl
      making := fun _ _ h _ => ⟨rfl, h, rfl, rfl⟩
      running := fun _ _ => id
      cpu := fun _ _ => rfl
      notes := fun _ => id
      reaped := fun _ => .inl }
  have ht := hd.table
  have hl := hd.logged
  refine ⟨hg, ⟨ht.outside, ht.cleared, ht.init, ?_, fun j hj => ?_, ht.distinct, ht.maker, ht.forked,
    ht.parents, ht.live, ht.cpu, ht.running, fun i hi => ?_⟩,
    ⟨hl.exits, hl.born, hl.unreaped, fun n hn => ?_, hl.once, hl.reaps, hl.waited⟩⟩
  · rw [ht.nextpid, BitVec.ofNat_add]
    rfl
  · obtain ⟨h0, hlt, hpid⟩ := ht.serial j hj
    exact ⟨h0, Nat.lt_succ_of_lt hlt, hpid⟩
  · refine (ht.saved i hi).stable hg.toFrame (fun hm => ?_) fun hu => ?_
    · exact hi.elim (hme i hm).1 (hme i hm).2
    · rw [hu] at hi
      simp at hi
  · exact Nat.lt_succ_of_lt (hl.below n hn)

theorem born_good {pid : BitVec 32} (held : Set Lock) (hd : Good nproc d) (hi : (d.proc i).state = .running)
    (hok : (Kpc.allocPidDone j pid).Ok nproc d i) (hj : .proc j ∈ held) (hp : .pid ∈ held) {d' : Data}
    (hd' : d' = (d.setProc j { d.proc j with
      pid := pid, state := .used, serial := d.next - 1, maker := some i, window := true }).note
      (.born (d.next - 1) (d.proc i).serial)) :
    Guarantee d d' c (some i) held ∧ Good nproc d' ∧ Making d' i j none := by
  subst hd'
  obtain ⟨hlt, hunused, hnext, rfl, hserial, hreaped⟩ := hok
  have hclear : (d.proc j).parent = none ∧ (d.proc j).maker = none := by
    have := hd.table.cleared j hunused
    rw [Cleared] at this
    rw [this]
    exact ⟨rfl, rfl⟩
  have hij : i ≠ j := fun e => by
    rw [e, hunused] at hi
    cases hi
  have hlive : ¬ (d.proc j).state.Live := by
    rw [hunused]
    exact id
  obtain ⟨p', hp'⟩ : ∃ p', p' = { d.proc j with
      pid := BitVec.ofNat 32 (d.next - 1), state := .used, serial := d.next - 1, maker := some i,
      window := true } := ⟨_, rfl⟩
  have htouch : Touches j (some i) held (d.proc j) p' := by
    subst hp'
    refine ⟨.inr hj, .inl rfl, by simp, by simp, fun _ => .inr hp, fun hu => absurd hunused hu,
      fun y hy _ => ?_⟩
    rw [hclear.2] at hy
    cases hy
  rw [← hp']
  have hfits : Fits nproc d ((d.setProc j p').note (.born (d.next - 1) (d.proc i).serial)) j p' := by
    subst hp'
    constructor
    case serial =>
      refine fun _ => ⟨hlt, by simp only; omega, ?_, rfl, fun x _ hx => (hserial x hx).ne⟩
      simp only [Data.note, Data.setProc]
      omega
    case init => exact fun e => absurd e (hd.table.ne_init hlive)
    case children => exact fun hl => absurd hl hlive
    all_goals simp [hclear.1]
  have hs : OneSlot d _ j p' _ := oneSlot_note (n := .born (d.next - 1) (d.proc i).serial) rfl (by simp)
  obtain ⟨hg, hgood⟩ := hs.good (c := c) hd (awake_of_running hi) htouch
    (fun _ => hfits) (by rw [hunused]; simp) (by simp [hp']) (by simp [hp', hclear.1])
    (fun _ hm => absurd (hreaped _ (by rwa [hp'] at hm)) (lt_irrefl _))
  refine ⟨hg, hgood, ?_⟩
  have hself : ((d.setProc j p').note (.born (d.next - 1) (d.proc i).serial)).proc j = p' := by
    simp [Data.setProc, Data.note]
  have hother : ((d.setProc j p').note (.born (d.next - 1) (d.proc i).serial)).proc i = d.proc i := by
    simp [Data.setProc, Data.note, hij]
  refine ⟨?_, ?_, ?_, ?_⟩
  · rw [hself, hp']
  · rw [hself, hp']
  · rw [hself, hp']
    exact hclear.1
  · rw [hself, hother, hp']
    simp [Data.setProc, Data.note]

/-! ## Exit and wait -/

theorem reparent_good (hd : Good nproc d) (hi : (d.proc i).state = .running) (hinit : i ≠ initproc)
    (hparent : (d.proc j).parent = some i) (hw : .wait ∈ held) {d' : Data}
    (hd' : d' = d.setProc j { d.proc j with parent := some initproc }) :
    Guarantee d d' c (some i) held ∧ Good nproc d' := by
  subst hd'
  have ht := hd.table
  have hused := ht.used_of_parent hparent
  have htouch : Touches j (some i) held (d.proc j) { d.proc j with parent := some initproc } := by
    refine ⟨.inl rfl, .inr hw, fun h => .inl h, fun hs hc => .inl ⟨hs, hc⟩, fun _ => .inl hused,
      fun _ => rfl, fun y hy hne => ?_⟩
    obtain rfl | e := ht.forked j y i hy hparent
    · exact absurd rfl hne
    · exact absurd e hinit
  refine (oneSlot_setProc d j _).good hd (awake_of_running hi) htouch (fun hg => ?_) (fun _ h => h)
    (hd.logged.exits j) (fun _ q hq => .inl (Option.some.inj hq).symm)
    fun _ => hd.logged.unreaped j hused
  constructor
  case serial => exact fun _ => ht.serial_of_used rfl hused
  case cleared => exact fun hu => absurd hu hused
  case maker => exact ht.maker j
  case forked => exact fun y q _ hq => .inr (Option.some.inj hq).symm
  case parents => simp
  case parent =>
    intro q hq
    obtain rfl := Option.some.inj hq
    exact live_update rfl id ht.init.1
  case children => exact fun hl => .inl hl
  case init => exact fun e => e ▸ ht.init
  case running => exact ht.running j
  case saved =>
    intro hs
    refine (ht.saved j hs).stable hg (fun hm => ?_) hused
    obtain rfl := Option.some.inj hm
    rw [hi] at hs
    simp at hs

theorem zombie_good (status : BitVec 32) (held : Set Lock) (hd : Good nproc d) (hi : (d.proc i).state = .running)
    (hinit : i ≠ initproc) (hchild : ∀ x, (d.proc x).parent ≠ some i) (hw : .wait ∈ held)
    (hl : .proc i ∈ held) {d' : Data}
    (hd' : d' = (d.setProc i { d.proc i with xstate := status, state := .zombie }).note
      (.exit (d.proc i).serial status)) : Guarantee d d' c (some i) held ∧ Good nproc d' := by
  subst hd'
  have ht := hd.table
  have hused : (d.proc i).state ≠ .unused := by rw [hi]; simp
  have hne : (d.proc i).state ≠ .used := by rw [hi]; simp
  refine (oneSlot_note rfl (by simp)).good hd (awake_of_running hi)
    (.of_complete ht hused hne hl (.inl rfl) (fun _ => hw) (by simp) rfl) (fun _ => ?_) (fun h => absurd rfl h)
    (fun _ => List.mem_append_right _ (List.mem_singleton_self _))
    (fun hg q hq => hd.logged.born_of_parent ht hg hq) fun _ => hd.logged.unreaped i hused
  constructor
  case serial => exact fun _ => ht.serial_of_used rfl hused
  case parents => exact fun h _ hnone => absurd (ht.parents i h hused hnone).1 hne
  case parent =>
    intro q hq
    have hqi : q ≠ i := fun e => hchild i (e ▸ hq)
    simp only [Data.note, Data.setProc, Function.update_of_ne hqi]
    exact ht.live i q hq
  case children => exact fun _ => .inr hchild
  case init => exact fun e => absurd e hinit
  all_goals simp [ht.maker_none hne]

theorem reap_good {addr : BitVec 64} (hd : Good nproc d) (hi : (d.proc i).state = .running)
    (hparent : (d.proc j).parent = some i) (hz : (d.proc j).state = .zombie) (hw : .wait ∈ held)
    (hl : .proc j ∈ held) :
    Guarantee d (reap d i j addr) c (some i) held ∧ Good nproc (reap d i j addr) := by
  have ht := hd.table
  have hlog := hd.logged
  have hused : (d.proc j).state ≠ .unused := by rw [hz]; simp
  have hreaped : reaped (reap d i j addr).notes = reaped d.notes ++ [(d.proc j).serial] :=
    reaped_append _ _
  have hnotes (n : Note) (hn : n ∈ d.notes) : n ∈ (reap d i j addr).notes := List.mem_append_left _ hn
  have hlive : ¬ (d.proc j).state.Live := by
    rw [hz]
    exact id
  have hslot := @slot_cases d (reap d i j addr) j _ rfl
  have htouch : Touches j (some i) held (d.proc j) (freeproc (d.proc j)) :=
    .of_complete ht hused (by rw [hz]; simp) hl (.inr hw) (by simp [freeproc]) (by simp [freeproc]) rfl
  have hg : Frame d (reap d i j addr) (some i) held := by
    refine htouch.frame rfl rfl hnotes fun n hn => ?_
    rw [hreaped, List.mem_append, List.mem_singleton] at hn
    exact hn.imp id fun e => ⟨j, hused, e.symm⟩
  refine ⟨hg.guarantee rfl (fun _ _ => rfl) (by rw [hz]; simp), (fits_freeproc hlive ht).table ht hg
    (awake_of_running hi) rfl ⟨rfl, rfl⟩ ht.cpu fun x _ hx _ => hx, ?_⟩
  constructor
  case exits =>
    intro x hx
    obtain ⟨rfl, e⟩ | ⟨-, e⟩ := hslot x <;> rw [e] at hx ⊢
    · cases hx
    · exact hnotes _ (hlog.exits x hx)
  case born =>
    intro x q hx
    obtain ⟨rfl, e⟩ | ⟨-, e⟩ := hslot x <;> rw [e] at hx ⊢
    · cases hx
    · exact hlog.born_of_parent ht hg hx
  case unreaped =>
    intro x hx hm
    obtain ⟨rfl, e⟩ | ⟨hne, e⟩ := hslot x <;> rw [e] at hx
    · exact hx rfl
    · rw [e, hreaped, List.mem_append, List.mem_singleton] at hm
      obtain hm | hm := hm
      · exact hlog.unreaped x hx hm
      · exact hne (ht.distinct x j hx hused hm)
  case below =>
    intro n hn
    rw [hreaped, List.mem_append, List.mem_singleton] at hn
    obtain hn | rfl := hn
    · exact hlog.below n hn
    · exact (ht.serial j hused).2.1
  case once =>
    rw [hreaped]
    exact hlog.once.append (List.nodup_singleton _)
      (List.disjoint_singleton.2 (hlog.unreaped j hused))
  case reaps =>
    intro caller n addr' pid stored hm
    obtain hm | hm := List.mem_append.1 hm
    · obtain ⟨hpid, hcaller, status, hex, hst⟩ := hlog.reaps caller n addr' pid stored hm
      exact ⟨hpid, hcaller.imp id (hnotes _), status, hnotes _ hex, hst⟩
    · simp only [List.mem_singleton, Note.reap.injEq] at hm
      obtain ⟨rfl, rfl, rfl, rfl, rfl⟩ := hm
      refine ⟨(ht.serial j hused).2.2, ?_, (d.proc j).xstate, hnotes _ (hlog.exits j hz), rfl⟩
      obtain rfl | hb := hlog.born j i hparent
      · exact .inl ht.init.2
      · exact .inr (hnotes _ hb)
  case waited =>
    intro caller ret child hm
    obtain hm | hm := List.mem_append.1 hm
    · exact (hlog.waited caller ret child hm).mono hnotes
    · simp at hm

/-! ## The scheduler -/

theorem park_good {chan : Option Chan} {state : ProcState} {k : Kpc} (held : Set Lock)
    (hd : Good nproc d) (hi : (d.proc i).state = .running) (hl : .proc i ∈ held) (hstate : state = .runnable ∨ state = .sleeping)
    (hasleep : state = .sleeping → chan = some (.proc i) → .wait ∈ held) (hk : k.Saved nproc d i) {d' : Data}
    (hd' : d' = d.setProc i { d.proc i with chan := chan, state := state, context := k }) :
    Guarantee d d' c (some i) held ∧ Good nproc d' := by
  subst hd'
  have ht := hd.table
  have hused : (d.proc i).state ≠ .unused := by rw [hi]; simp
  have hne : (d.proc i).state ≠ .used := by rw [hi]; simp
  have hlive : state.Live ∧ state ≠ .running ∧ state ≠ .zombie := by
    obtain rfl | rfl := hstate <;> exact ⟨trivial, by decide, by decide⟩
  obtain ⟨p', hp'⟩ : ∃ p' : Proc, p' = { d.proc i with chan := chan, state := state, context := k } :=
    ⟨_, rfl⟩
  have hs : p'.state = state := by rw [hp']
  -- nobody is making a process in this slot, so whose step it is does not matter
  have htouch (me : Option ℕ) : Touches i me held (d.proc i) p' :=
    .of_complete ht hused hne hl (.inl (by rw [hp'])) (fun hz => absurd (hs.symm.trans hz) hlive.2.2)
      (fun h hc => hasleep (hs.symm.trans h) (by rw [← hc, hp'])) (by rw [hp'])
  rw [← hp']
  have hsaved : k.Saved nproc (d.setProc i p') i :=
    hk.stable ((htouch none).frame_notes (l := []) rfl rfl (by simp [Data.setProc]) rfl) (by simp) hused
  refine (oneSlot_setProc d i p').good hd (awake_of_running hi) (htouch _) (fun _ => ?_) (fun h => absurd rfl h)
    (fun hz => absurd (hs.symm.trans hz) hlive.2.2) (fun hg q hq => ?_) fun _ => ?_
  · refine ht.fits_live rfl rfl hused (fun e => absurd e hne) ?_ (hs ▸ hlive.1)
      (fun hr => absurd (hs.symm.trans hr) hlive.2.1) fun _ => ?_
    · rw [hp', ← ht.maker_none hne]
    · rw [show p'.context = k by rw [hp']]
      exact hsaved
  · subst hp'
    exact hd.logged.born_of_parent ht hg hq
  · rw [hp']
    exact hd.logged.unreaped i hused

/-- `scheduler` switches to a process that no other CPU runs. -/
theorem select_good (held : Set Lock) (hd : Good nproc d) (hj : (d.proc j).state = .runnable) (hl : .proc j ∈ held)
    (hc : d.cpu c = none) (hother : ∀ c', d.cpu c' ≠ some j) {d' : Data}
    (hd' : d' = (d.setProc j { d.proc j with state := .running }).setCpu c (some j)) :
    Guarantee d d' c none held ∧ Good nproc d' := by
  subst hd'
  have ht := hd.table
  have hused : (d.proc j).state ≠ .unused := by rw [hj]; simp
  have hne : (d.proc j).state ≠ .used := by rw [hj]; simp
  obtain ⟨p', hp'⟩ : ∃ p' : Proc, p' = { d.proc j with state := .running } := ⟨_, rfl⟩
  have hs : p'.state = .running := by rw [hp']
  have htouch : Touches j none held (d.proc j) p' :=
    .of_complete ht hused hne hl (.inl (by rw [hp'])) (by simp [hs]) (by simp [hs]) (by rw [hp'])
  rw [← hp']
  have hg : Frame d ((d.setProc j p').setCpu c (some j)) none held :=
    htouch.frame_notes (l := []) rfl rfl (by simp [Data.setProc, Data.setCpu]) rfl
  have hcpu (c' : ℕ) (e : c' ≠ c) : ((d.setProc j p').setCpu c (some j)).cpu c' = d.cpu c' :=
    Function.update_of_ne e _ _
  have hcpu' : ((d.setProc j p').setCpu c (some j)).cpu c = some j := Function.update_self _ _ _
  have hfits : Fits nproc d ((d.setProc j p').setCpu c (some j)) j p' :=
    ht.fits_live rfl rfl hused (fun e => absurd e hne) (by rw [hp', ← ht.maker_none hne]) (by rw [hs]; trivial)
      (fun _ => ⟨c, hcpu'⟩) (by simp [hs])
  refine ⟨hg.guarantee rfl hcpu fun _ _ => hs, hfits.table ht hg awake_none rfl ⟨rfl, rfl⟩ ?_ ?_,
    hd.logged.change (l := []) ht hg rfl (by simp [Data.setProc, Data.setCpu]) le_rfl rfl (by simp) (by simp [hs])
      (fun q hq => ?_) fun _ => ?_⟩
  · intro c₁ c₂ i h1 h2
    by_cases e1 : c₁ = c
    · by_cases e2 : c₂ = c
      · rw [e1, e2]
      · rw [e1, hcpu'] at h1
        rw [hcpu c₂ e2, ← h1] at h2
        exact absurd h2 (hother c₂)
    · rw [hcpu c₁ e1] at h1
      by_cases e2 : c₂ = c
      · rw [e2, hcpu'] at h2
        rw [← h2] at h1
        exact absurd h1 (hother c₁)
      · rw [hcpu c₂ e2] at h2
        exact ht.cpu c₁ c₂ i h1 h2
  · rintro x - ⟨c', hc'⟩ -
    refine ⟨c', ?_⟩
    rw [hcpu c' fun e => ?_, hc']
    rw [e, hc] at hc'
    cases hc'
  · subst hp'
    exact hd.logged.born_of_parent ht hg hq
  · rw [hp']
    exact hd.logged.unreaped j hused

/-- `c->proc = 0` -/
theorem back_good (hd : Good nproc d) (hc : d.cpu c = some i) (hi : (d.proc i).state ≠ .running) :
    Guarantee d (d.setCpu c none) c none held ∧ Good nproc (d.setCpu c none) := by
  have ht := hd.table
  have hl := hd.logged
  have hcpu (c' : ℕ) (e : c' ≠ c) : (d.setCpu c none).cpu c' = d.cpu c' := Function.update_of_ne e _ _
  have hg : Guarantee d (d.setCpu c none) c none held :=
    { state := fun _ _ => rfl
      parent := fun _ _ => rfl
      zombie := fun _ _ => id
      asleep := fun _ _ => id
      next := fun _ => rfl
      born := fun _ _ => id
      serial := fun _ _ => rfl
      making := fun _ _ h _ => ⟨rfl, h, rfl, rfl⟩
      running := fun _ _ => id
      cpu := hcpu
      notes := fun _ => id
      reaped := fun _ => .inl }
  refine ⟨hg, ⟨ht.outside, ht.cleared, ht.init, ht.nextpid, ht.serial, ht.distinct, ht.maker, ht.forked,
    ht.parents, ht.live, fun c₁ c₂ x h1 h2 => ?_, fun x hx => ?_, fun x hx => ?_⟩,
    ⟨hl.exits, hl.born, hl.unreaped, hl.below, hl.once, hl.reaps, hl.waited⟩⟩
  · have hne (c' : ℕ) (h : (d.setCpu c none).cpu c' = some x) : d.cpu c' = some x := by
      by_cases e : c' = c
      · simp only [e, Data.setCpu, Function.update_self] at h
        cases h
      · rwa [hcpu c' e] at h
    exact ht.cpu c₁ c₂ x (hne c₁ h1) (hne c₂ h2)
  · obtain ⟨c', hc'⟩ := ht.running x hx
    refine ⟨c', ?_⟩
    rw [hcpu c' fun e => ?_, hc']
    rw [e, hc] at hc'
    exact hi (Option.some.inj hc' ▸ hx)
  · refine (ht.saved x hx).stable hg.toFrame (by simp) fun hu => ?_
    change (d.proc x).state = _ ∨ (d.proc x).state = _ at hx
    rw [hu] at hx
    simp at hx

/-! ## Mild steps -/

theorem Mild.wake (p : Proc) (chan : Option Chan) : Mild p (p.wake chan) := by
  unfold Proc.wake
  split_ifs with h
  · exact ⟨rfl, rfl, rfl, rfl, rfl, rfl, rfl, .inr ⟨h.1, rfl⟩, (by simp), (by simp)⟩
  · exact ⟨rfl, rfl, rfl, rfl, rfl, rfl, rfl, .inl rfl, fun _ => rfl, fun _ h => h⟩

theorem Mild.kill (p : Proc) : Mild p p.kill := by
  unfold Proc.kill
  split_ifs with h
  · exact ⟨rfl, rfl, rfl, rfl, rfl, rfl, rfl, .inr ⟨h, rfl⟩, (by simp), (by simp)⟩
  · refine ⟨rfl, rfl, rfl, rfl, rfl, rfl, rfl, .inl rfl, fun _ => rfl, fun _ hc => ?_⟩
    rw [Cleared] at hc ⊢
    conv_lhs => rw [hc]
    rfl

/-- A change of fields of a running process that are its own. -/
theorem Mild.of_running {p p' : Proc} (hrun : p.state = .running)
    (h : p' = { p with
      chan := p'.chan, killed := p'.killed, sz := p'.sz, pagetable := p'.pagetable }) : Mild p p' := by
  rw [h]
  refine ⟨rfl, rfl, rfl, rfl, rfl, rfl, rfl, .inl rfl, fun hs => ?_, fun hu => ?_⟩
  · rw [hrun] at hs
    cases hs
  · rw [hrun] at hu
    cases hu

theorem Mild.refl (p : Proc) : Mild p p :=
  ⟨rfl, rfl, rfl, rfl, rfl, rfl, rfl, .inl rfl, fun _ => rfl, fun _ h => h⟩

theorem Mild.setProc (h : Mild (d.proc j) p') (hd : Good nproc d) (hme : Awake d me)
    (hheld : p'.state = (d.proc j).state ∨ .proc j ∈ held) :
    Guarantee d (d.setProc j p') c me held ∧ Good nproc (d.setProc j p') :=
  h.good (oneSlot_setProc d j p') hd hme hheld

/-- A mild change with a note of a `kill` or a fault. -/
theorem Mild.setProc_note {n : Note} (h : Mild (d.proc j) p') (hd : Good nproc d)
    (hme : Awake d me) (hheld : p'.state = (d.proc j).state ∨ .proc j ∈ held) (hn : reaped [n] = [])
    (hw : ∀ caller ret child, n ≠ .waited caller ret child) :
    Guarantee d ((d.setProc j p').note n) c me held ∧ Good nproc ((d.setProc j p').note n) :=
  h.good (oneSlot_note hn hw) hd hme hheld

theorem waited_good {caller : ℕ} {ret : BitVec 32} {child : Option ℕ} (hd : Good nproc d)
    (hme : Awake d me) (h : Returns d caller ret child) :
    Guarantee d (d.note (.waited caller ret child)) c me held ∧
      Good nproc (d.note (.waited caller ret child)) := by
  refine (Mild.refl (d.proc 0)).good ⟨(Function.update_eq_self 0 d.proc).symm, rfl, ⟨rfl, rfl⟩, rfl, rfl,
    fun _ _ _ hm => ?_⟩ hd hme (.inl rfl)
  obtain ⟨rfl, rfl, rfl⟩ := Note.waited.inj (List.mem_singleton.1 hm)
  exact h.mono fun n hn => List.mem_append_left _ hn

end Xv6.Procs
