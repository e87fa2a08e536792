import Xv6.Procs.Assertions

/-!
# Changes of one slot

Every step changes at most one slot of the table.  `Touches` says what a change of a slot means for the
other processes, and `Fits` that the new slot has its place in the table; together they carry the
invariants over a step.
-/

namespace Xv6.Procs

open Threads

variable {nproc : ℕ} {d d' : Data} {c i j q : ℕ} {me : Option ℕ} {held : Set Lock} {p p' : Proc}

theorem slot_cases (hproc : d'.proc = Function.update d.proc j p') (x : ℕ) :
    x = j ∧ d'.proc x = p' ∨ x ≠ j ∧ d'.proc x = d.proc x := by
  rw [hproc, Function.update_apply]
  split_ifs with e
  · exact .inl ⟨e, rfl⟩
  · exact .inr ⟨e, rfl⟩

/-- Slot `j` changes from `p` to `p'`, in a step with the locks `held`. -/
structure Touches (j : ℕ) (me : Option ℕ) (held : Set Lock) (p p' : Proc) : Prop where
  state : p'.state = p.state ∨ .proc j ∈ held
  parent : p'.parent = p.parent ∨ .wait ∈ held
  zombie : p'.state = .zombie → p.state = .zombie ∨ .wait ∈ held
  asleep : p'.state = .sleeping → p'.chan = some (.proc j) →
    p.state = .sleeping ∧ p.chan = some (.proc j) ∨ .wait ∈ held
  born : p'.state ≠ .unused → p.state ≠ .unused ∨ .pid ∈ held
  serial : p.state ≠ .unused → p'.serial = p.serial
  making : ∀ y, p.maker = some y → me ≠ some y → p'.state = p.state ∧ p'.maker = some y ∧
    p'.parent = p.parent ∧ p'.context = p.context

theorem Touches.frame (h : Touches j me held (d.proc j) p') (hproc : d'.proc = Function.update d.proc j p')
    (hnext : d'.next = d.next) (hnotes : ∀ n ∈ d.notes, n ∈ d'.notes) (hreaped : ∀ n ∈ reaped d'.notes, n ∈ reaped d.notes ∨
      ∃ x, (d.proc x).state ≠ .unused ∧ (d.proc x).serial = n) : Frame d d' me held := by
  have hslot := slot_cases hproc
  constructor
  case notes => exact hnotes
  case reaped => exact hreaped
  case next => exact fun _ => hnext
  case state =>
    intro x hx
    obtain ⟨rfl, e⟩ | ⟨-, e⟩ := hslot x <;> rw [e]
    exact h.state.resolve_right hx
  case parent =>
    intro hw x
    obtain ⟨rfl, e⟩ | ⟨-, e⟩ := hslot x <;> rw [e]
    exact h.parent.resolve_right hw
  case zombie =>
    intro hw x hx
    obtain ⟨rfl, e⟩ | ⟨-, e⟩ := hslot x <;> rw [e] at hx
    · exact (h.zombie hx).resolve_right hw
    · exact hx
  case asleep =>
    intro hw x hx
    unfold Asleep at hx ⊢
    obtain ⟨rfl, e⟩ | ⟨-, e⟩ := hslot x <;> rw [e] at hx
    · exact (h.asleep hx.1 hx.2).resolve_right hw
    · exact hx
  case born =>
    intro hp x hx
    obtain ⟨rfl, e⟩ | ⟨-, e⟩ := hslot x <;> rw [e] at hx
    · exact (h.born hx).resolve_right hp
    · exact hx
  case serial =>
    intro x hx
    obtain ⟨rfl, e⟩ | ⟨-, e⟩ := hslot x <;> rw [e]
    exact h.serial hx
  case making =>
    intro x y hx hy
    obtain ⟨rfl, e⟩ | ⟨-, e⟩ := hslot x <;> rw [e]
    · exact h.making y hx hy
    · exact ⟨rfl, hx, rfl, rfl⟩

/-- The processes that other CPUs run keep running. -/
theorem Frame.guarantee (h : Frame d d' me held) (hproc : d'.proc = Function.update d.proc j p')
    (hcpu : ∀ c' ≠ c, d'.cpu c' = d.cpu c')
    (hrun : me ≠ some j → (d.proc j).state = .running → p'.state = .running) :
    Guarantee d d' c me held := by
  refine ⟨h, fun x hx hr => ?_, hcpu⟩
  obtain ⟨rfl, e⟩ | ⟨-, e⟩ := slot_cases hproc x <;> rw [e]
  · exact hrun hx hr
  · exact hr

/-- The process that a CPU runs is not waiting for one. -/
def Awake (d : Data) (me : Option ℕ) : Prop :=
  ∀ i, me = some i → (d.proc i).state ≠ .runnable ∧ (d.proc i).state ≠ .sleeping

/-- The new contents of slot `j` have their place in the table. -/
structure Fits (nproc : ℕ) (d d' : Data) (j : ℕ) (p' : Proc) : Prop where
  serial : p'.state ≠ .unused → j < nproc ∧ 0 < p'.serial ∧ p'.serial < d'.next ∧
    p'.pid = BitVec.ofNat 32 p'.serial ∧
    ∀ x ≠ j, (d.proc x).state ≠ .unused → (d.proc x).serial ≠ p'.serial
  cleared : p'.state = .unused → Cleared p'
  maker : p'.state = .used ↔ p'.maker ≠ none
  forked : ∀ y q, p'.maker = some y → p'.parent = some q → q = y ∨ q = initproc
  parents : j ≠ initproc → p'.state ≠ .unused → p'.parent = none →
    p'.state = .used ∧ p'.window = true
  parent : ∀ q, p'.parent = some q → (d'.proc q).state.Live
  children : (d.proc j).state.Live → p'.state.Live ∨ ∀ x, (d.proc x).parent ≠ some j
  init : j = initproc → p'.state.Live ∧ p'.serial = 1
  running : p'.state = .running → ∃ c, d'.cpu c = some j
  saved : p'.state = .runnable ∨ p'.state = .sleeping → p'.context.Saved nproc d' j

theorem Fits.table (h : Fits nproc d d' j p') (ht : Table nproc d) (hg : Frame d d' me held)
    (hme : Awake d me) (hproc : d'.proc = Function.update d.proc j p') (hnext : d'.next = d.next ∧ d'.nextpid = d.nextpid)
    (hcpu : ∀ c c' i, d'.cpu c = some i → d'.cpu c' = some i → c = c')
    (hrun : ∀ x ≠ j, (∃ c, d.cpu c = some x) → (d.proc x).state = .running → ∃ c, d'.cpu c = some x) :
    Table nproc d' := by
  have hslot := slot_cases hproc
  constructor
  case outside =>
    intro x hx
    obtain ⟨rfl, e⟩ | ⟨-, e⟩ := hslot x <;> rw [e]
    · by_contra hu
      exact absurd (h.serial hu).1 (by omega)
    · exact ht.outside x hx
  case cleared =>
    intro x hx
    obtain ⟨rfl, e⟩ | ⟨-, e⟩ := hslot x <;> rw [e] at hx ⊢
    · exact h.cleared hx
    · exact ht.cleared x hx
  case init =>
    obtain ⟨e', e⟩ | ⟨-, e⟩ := hslot initproc <;> rw [e]
    · exact h.init e'.symm
    · exact ht.init
  case nextpid => rw [hnext.1, hnext.2, ht.nextpid]
  case serial =>
    intro x hx
    obtain ⟨rfl, e⟩ | ⟨-, e⟩ := hslot x <;> rw [e] at hx ⊢
    · obtain ⟨-, h0, hlt, hpid, -⟩ := h.serial hx
      exact ⟨h0, hlt, hpid⟩
    · rw [hnext.1]
      exact ht.serial x hx
  case distinct =>
    intro x y hx hy he
    obtain ⟨ex, e⟩ | ⟨ex, e⟩ := hslot x <;> obtain ⟨ey, e'⟩ | ⟨ey, e'⟩ := hslot y <;> rw [e] at hx he <;>
      rw [e'] at hy he
    · rw [ex, ey]
    · exact absurd he.symm ((h.serial hx).2.2.2.2 y ey hy)
    · exact absurd he ((h.serial hy).2.2.2.2 x ex hx)
    · exact ht.distinct x y hx hy he
  case maker =>
    intro x
    obtain ⟨rfl, e⟩ | ⟨-, e⟩ := hslot x <;> rw [e]
    · exact h.maker
    · exact ht.maker x
  case forked =>
    intro x y q hm hq
    obtain ⟨rfl, e⟩ | ⟨-, e⟩ := hslot x <;> rw [e] at hm hq
    · exact h.forked y q hm hq
    · exact ht.forked x y q hm hq
  case parents =>
    intro x hi hx hm
    obtain ⟨rfl, e⟩ | ⟨-, e⟩ := hslot x <;> rw [e] at hx hm ⊢
    · exact h.parents hi hx hm
    · exact ht.parents x hi hx hm
  case live =>
    intro x q hx
    obtain ⟨rfl, e⟩ | ⟨-, e⟩ := hslot x <;> rw [e] at hx
    · exact h.parent q hx
    · have hq := ht.live x q hx
      obtain ⟨rfl, e⟩ | ⟨-, e⟩ := hslot q <;> rw [e]
      · exact (h.children hq).resolve_right fun hc => hc x hx
      · exact hq
  case cpu => exact hcpu
  case running =>
    intro x hx
    obtain ⟨rfl, e⟩ | ⟨hne, e⟩ := hslot x <;> rw [e] at hx
    · exact h.running hx
    · exact hrun x hne (ht.running x hx) hx
  case saved =>
    intro x hx
    obtain ⟨rfl, e⟩ | ⟨-, e⟩ := hslot x <;> rw [e] at hx ⊢
    · exact h.saved hx
    · have hx' : (d.proc x).state ≠ .unused := by
        obtain hx | hx := hx <;> rw [hx] <;> simp
      refine (ht.saved x hx).stable hg (fun hm => ?_) hx'
      obtain ⟨h1, h2⟩ := hme x hm
      exact hx.elim h1 h2

/-! ## Notes -/

theorem reaped_append (l l' : List Note) : reaped (l ++ l') = reaped l ++ reaped l' :=
  List.filterMap_append

theorem mem_reaped {n : ℕ} {l : List Note} :
    n ∈ reaped l ↔ ∃ caller addr pid stored, .reap caller n addr pid stored ∈ l := by
  simp only [reaped, List.mem_filterMap]
  constructor
  · rintro ⟨x, hx, h⟩
    cases x with
    | reap caller m addr pid stored =>
      obtain rfl := Option.some.inj h
      exact ⟨caller, addr, pid, stored, hx⟩
    | _ => cases h
  · rintro ⟨caller, addr, pid, stored, h⟩
    exact ⟨_, h, rfl⟩

theorem Table.used_of_live (hl : (d.proc j).state.Live) : (d.proc j).state ≠ .unused := fun hu => by
  rw [hu] at hl
  exact hl

/-- The birth of a process that keeps its parent stays in the notes. -/
theorem Logged.born_of_parent (h : Logged d) (ht : Table nproc d) (hg : Frame d d' me held)
    (hq : (d.proc j).parent = some q) :
    q = initproc ∨ .born (d.proc j).serial (d'.proc q).serial ∈ d'.notes := by
  rw [hg.serial q (Table.used_of_live (ht.live j q hq))]
  exact (h.born j q hq).imp id (hg.notes _)

/-- The notes after a change of slot `j` in which no process is reaped. -/
theorem Logged.change {l : List Note} (h : Logged d) (ht : Table nproc d) (hg : Frame d d' me held)
    (hproc : d'.proc = Function.update d.proc j p') (hnotes : d'.notes = d.notes ++ l)
    (hnext : d.next ≤ d'.next) (hreaped : reaped l = [])
    (hwaited : ∀ caller ret child, .waited caller ret child ∈ l → Returns d' caller ret child)
    (hexits : p'.state = .zombie → .exit p'.serial p'.xstate ∈ d'.notes)
    (hborn : ∀ q, p'.parent = some q → q = initproc ∨ .born p'.serial (d'.proc q).serial ∈ d'.notes)
    (hunreaped : p'.state ≠ .unused → p'.serial ∉ reaped d.notes) : Logged d' := by
  have hslot := slot_cases hproc
  have hr : reaped d'.notes = reaped d.notes := by rw [hnotes, reaped_append, hreaped, List.append_nil]
  constructor
  case exits =>
    intro x hx
    obtain ⟨rfl, e⟩ | ⟨-, e⟩ := hslot x <;> rw [e] at hx ⊢
    · exact hexits hx
    · exact hg.notes _ (h.exits x hx)
  case born =>
    intro x q hx
    obtain ⟨rfl, e⟩ | ⟨-, e⟩ := hslot x <;> rw [e] at hx ⊢
    · exact hborn q hx
    · exact h.born_of_parent ht hg hx
  case unreaped =>
    intro x hx
    rw [hr]
    obtain ⟨rfl, e⟩ | ⟨-, e⟩ := hslot x <;> rw [e] at hx ⊢
    · exact hunreaped hx
    · exact h.unreaped x hx
  case below =>
    intro n hn
    rw [hr] at hn
    exact (h.below n hn).trans_le hnext
  case once => rw [hr]; exact h.once
  case reaps =>
    intro caller n addr pid stored hm
    rw [hnotes, List.mem_append] at hm
    obtain hm | hm := hm
    · obtain ⟨hpid, hcaller, status, hex, hst⟩ := h.reaps caller n addr pid stored hm
      exact ⟨hpid, hcaller.imp id (hg.notes _), status, hg.notes _ hex, hst⟩
    · have := mem_reaped.2 ⟨caller, addr, pid, stored, hm⟩
      rw [hreaped] at this
      cases this
  case waited =>
    intro caller ret child hm
    rw [hnotes, List.mem_append] at hm
    obtain hm | hm := hm
    · exact (h.waited caller ret child hm).mono hg.notes
    · exact hwaited caller ret child hm

theorem Touches.frame_notes {l : List Note} (h : Touches j me held (d.proc j) p')
    (hproc : d'.proc = Function.update d.proc j p') (hnext : d'.next = d.next)
    (hnotes : d'.notes = d.notes ++ l) (hreaped : reaped l = []) : Frame d d' me held := by
  refine h.frame hproc hnext (fun n hn => ?_) fun n hn => ?_
  · rw [hnotes]
    exact List.mem_append_left _ hn
  · rw [hnotes, reaped_append, hreaped, List.append_nil] at hn
    exact .inl hn

/-- Only slot `j` changes, and the notes `l` are added, which reap no process. -/
structure OneSlot (d d' : Data) (j : ℕ) (p' : Proc) (l : List Note) : Prop where
  proc : d'.proc = Function.update d.proc j p'
  cpu : d'.cpu = d.cpu
  next : d'.next = d.next ∧ d'.nextpid = d.nextpid
  notes : d'.notes = d.notes ++ l
  reaped : reaped l = []
  waited : ∀ caller ret child, .waited caller ret child ∈ l → Returns d' caller ret child

theorem oneSlot_setProc (d : Data) (j : ℕ) (p' : Proc) : OneSlot d (d.setProc j p') j p' [] :=
  ⟨rfl, rfl, ⟨rfl, rfl⟩, (List.append_nil _).symm, rfl, by simp⟩

theorem oneSlot_note {n : Note} (hn : reaped [n] = []) (hw : ∀ caller ret child, n ≠ .waited caller ret child) :
    OneSlot d ((d.setProc j p').note n) j p' [n] :=
  ⟨rfl, rfl, ⟨rfl, rfl⟩, rfl, hn, fun caller ret child hm => absurd (List.mem_singleton.1 hm).symm (hw caller ret child)⟩

theorem OneSlot.good {l : List Note} (hs : OneSlot d d' j p' l) (hd : Good nproc d) (hme : Awake d me)
    (h : Touches j me held (d.proc j) p') (hfits : Frame d d' me held → Fits nproc d d' j p')
    (hrun : me ≠ some j → (d.proc j).state = .running → p'.state = .running)
    (hexits : p'.state = .zombie → .exit p'.serial p'.xstate ∈ d'.notes)
    (hborn : Frame d d' me held → ∀ q, p'.parent = some q →
      q = initproc ∨ .born p'.serial (d'.proc q).serial ∈ d'.notes)
    (hunreaped : p'.state ≠ .unused → p'.serial ∉ Procs.reaped d.notes) :
    Guarantee d d' c me held ∧ Good nproc d' := by
  have hg := h.frame_notes hs.proc hs.next.1 hs.notes hs.reaped
  refine ⟨hg.guarantee hs.proc (fun _ _ => by rw [hs.cpu]) hrun, (hfits hg).table hd.table hg hme hs.proc hs.next
    (by rw [hs.cpu]; exact hd.table.cpu) fun x _ hx _ => by rwa [hs.cpu], ?_⟩
  exact hd.logged.change hd.table hg hs.proc hs.notes hs.next.1.ge hs.reaped hs.waited hexits (hborn hg) hunreaped

/-- A change that only concerns fields outside the invariants, or wakes the process. -/
structure Mild (p p' : Proc) : Prop where
  serial : p'.serial = p.serial
  pid : p'.pid = p.pid
  parent : p'.parent = p.parent
  maker : p'.maker = p.maker
  window : p'.window = p.window
  context : p'.context = p.context
  xstate : p'.xstate = p.xstate
  state : p'.state = p.state ∨ p.state = .sleeping ∧ p'.state = .runnable
  chan : p'.state = .sleeping → p'.chan = p.chan
  cleared : p'.state = .unused → Cleared p → Cleared p'

theorem Mild.touches (h : Mild p p') (hmaker : p.maker ≠ none → p.state = .used)
    (hheld : p'.state = p.state ∨ .proc j ∈ held) : Touches j me held p p' where
  state := hheld
  parent := .inl h.parent
  zombie hz := by
    obtain e | ⟨-, e⟩ := h.state
    · exact .inl (by rw [← e, hz])
    · rw [e] at hz
      cases hz
  asleep hs hc := by
    obtain e | ⟨-, e⟩ := h.state
    · exact .inl ⟨by rw [← e, hs], by rw [← h.chan hs, hc]⟩
    · rw [e] at hs
      cases hs
  born hu := by
    obtain e | ⟨e, -⟩ := h.state
    · exact .inl (by rwa [← e])
    · exact .inl (by rw [e]; simp)
  serial _ := h.serial
  making y hy _ := by
    have hused := hmaker (by rw [hy]; simp)
    obtain e | ⟨e, -⟩ := h.state
    · exact ⟨e, h.maker.trans hy, h.parent, h.context⟩
    · rw [hused] at e
      cases e

theorem Mild.running (h : Mild p p') (hr : p.state = .running) : p'.state = .running := by
  obtain e | ⟨e, -⟩ := h.state
  · rw [e, hr]
  · rw [e] at hr
    cases hr

theorem Mild.live (h : Mild p p') (hl : p.state.Live) : p'.state.Live := by
  obtain e | ⟨-, e⟩ := h.state
  · rwa [e]
  · rw [e]
    trivial

/-- The parents in the table stay alive when slot `j` does. -/
theorem live_update (hproc : d'.proc = Function.update d.proc j p')
    (hlive : (d.proc j).state.Live → p'.state.Live) (hq : (d.proc q).state.Live) :
    (d'.proc q).state.Live := by
  by_cases e : q = j
  · subst e
    rw [hproc, Function.update_self]
    exact hlive hq
  · rwa [hproc, Function.update_of_ne e]

/-- The place of a slot that keeps its process. -/
theorem Table.serial_of_used (ht : Table nproc d) (hnext : d'.next = d.next)
    (hu : (d.proc j).state ≠ .unused) : j < nproc ∧ 0 < (d.proc j).serial ∧ (d.proc j).serial < d'.next ∧
      (d.proc j).pid = BitVec.ofNat 32 (d.proc j).serial ∧
      ∀ x ≠ j, (d.proc x).state ≠ .unused → (d.proc x).serial ≠ (d.proc j).serial := by
  obtain ⟨h0, hlt, hpid⟩ := ht.serial j hu
  refine ⟨?_, h0, hnext ▸ hlt, hpid, fun x hx hux he => hx (ht.distinct x j hux hu he)⟩
  by_contra hj
  exact hu (ht.outside j (not_lt.1 hj))

theorem Mild.fits (h : Mild (d.proc j) p') (ht : Table nproc d) (hg : Frame d d' me held)
    (hme : Awake d me) (hproc : d'.proc = Function.update d.proc j p')
    (hnext : d'.next = d.next ∧ d'.nextpid = d.nextpid) (hcpu : d'.cpu = d.cpu) :
    Fits nproc d d' j p' where
  serial hu := by
    rw [h.serial, h.pid]
    refine ht.serial_of_used hnext.1 ?_
    obtain e | ⟨e, -⟩ := h.state
    · rwa [← e]
    · rw [e]
      simp
  cleared hu := by
    refine h.cleared hu (ht.cleared j ?_)
    obtain e | ⟨-, e⟩ := h.state
    · rwa [← e]
    · rw [e] at hu
      cases hu
  maker := by
    rw [h.maker, ← ht.maker j]
    obtain e | ⟨e, e'⟩ := h.state
    · rw [e]
    · rw [e, e']
      simp
  forked y q hm hq := by
    rw [h.maker] at hm
    rw [h.parent] at hq
    exact ht.forked j y q hm hq
  parents hi hu hm := by
    rw [h.parent] at hm
    rw [h.window]
    obtain e | ⟨e, -⟩ := h.state
    · rw [e] at hu ⊢
      exact ht.parents j hi hu hm
    · have := (ht.parents j hi (by rw [e]; simp) hm).1
      rw [e] at this
      cases this
  parent q hq := by
    rw [h.parent] at hq
    exact live_update hproc h.live (ht.live j q hq)
  children hl := .inl (h.live hl)
  init e := ⟨h.live (e ▸ ht.init.1), h.serial.trans (e ▸ ht.init.2)⟩
  running hr := by
    rw [hcpu]
    refine ht.running j ?_
    obtain e | ⟨-, e⟩ := h.state
    · rwa [← e]
    · rw [e] at hr
      cases hr
  saved hs := by
    have hold : (d.proc j).state = .runnable ∨ (d.proc j).state = .sleeping := by
      obtain e | ⟨e, -⟩ := h.state
      · rwa [← e]
      · exact .inr e
    rw [h.context]
    refine (ht.saved j hold).stable hg (fun hm => ?_) fun hu => ?_
    · exact hold.elim (hme j hm).1 (hme j hm).2
    · rw [hu] at hold
      simp at hold

theorem Mild.good {l : List Note} (h : Mild (d.proc j) p') (hs : OneSlot d d' j p' l) (hd : Good nproc d)
    (hme : Awake d me) (hheld : p'.state = (d.proc j).state ∨ .proc j ∈ held) :
    Guarantee d d' c me held ∧ Good nproc d' := by
  refine hs.good hd hme (h.touches (hd.table.maker j).2 hheld)
    (fun hg => h.fits hd.table hg hme hs.proc hs.next hs.cpu) (fun _ => h.running) (fun hz => ?_) (fun hg q hq => ?_)
    fun hu => ?_
  · rw [h.serial, h.xstate, hs.notes]
    refine List.mem_append_left _ (hd.logged.exits j ?_)
    obtain e | ⟨-, e⟩ := h.state
    · rwa [← e]
    · rw [e] at hz
      cases hz
  · rw [h.parent] at hq
    rw [h.serial]
    exact hd.logged.born_of_parent hd.table hg hq
  · rw [h.serial]
    refine hd.logged.unreaped j ?_
    obtain e | ⟨e, -⟩ := h.state
    · rwa [← e]
    · rw [e]
      simp

end Xv6.Procs
