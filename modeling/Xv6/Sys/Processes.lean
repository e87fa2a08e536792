import Xv6.Sys.Invariant

/-!
# Allocating and freeing processes

`freeproc` and `allocproc` keep `KernOk`.  They change one place of the process table, which is
`Unused` after `freeproc`.
-/

namespace Xv6.Sys

open Memory Kernel Kalloc Vm

variable {L : Image} {k k' : Kern} {s t u : Phys} {own own' own'' : Owners}
  {tabs tabs' : ℕ → Option Tree} {hand hand' : FileId → ℤ} {held held' : List ℕ} {r p q tf sz : ℕ}
  {T T' : Tree} {o : Owner} {i j : Slot} {f : FileId}

/-- A change of the fields of processes that the invariant does not mention. -/
theorem KernOk.congr_proc (h : KernOk L k own tabs hand held) (hphys : k'.phys = k.phys)
    (hproc : ∀ i, (k'.proc i).trapframe = (k.proc i).trapframe ∧
      (k'.proc i).pagetable = (k.proc i).pagetable ∧ (k'.proc i).sz = (k.proc i).sz ∧
      (k'.proc i).ofile = (k.proc i).ofile) (hfile : k'.file = k.file) (hpipe : k'.pipe = k.pipe)
    (hboot : k'.boot = k.boot) : KernOk L k' own tabs hand held where
  vm := by rw [hphys]; exact h.vm
  roles := h.roles.congr (SameKern.refl _) (fun i => (hproc i).1) hfile hboot
  spaces := h.spaces.congr fun i => ⟨(hproc i).2.1, (hproc i).2.2.1, .inl (hproc i).1⟩
  files := h.files.congr (fun i => (hproc i).2.2.2) hfile hpipe

/-- The same for a change of one process. -/
theorem KernOk.setProc (h : KernOk L k own tabs hand held) {x : Proc}
    (htf : x.trapframe = (k.proc i).trapframe) (hpt : x.pagetable = (k.proc i).pagetable)
    (hsz : x.sz = (k.proc i).sz) (hofile : x.ofile = (k.proc i).ofile) :
    KernOk L { k with proc := Function.update k.proc i x } own tabs hand held :=
  h.congr_proc rfl (fun j => ⟨update_field Proc.trapframe k.proc i j htf,
    update_field Proc.pagetable k.proc i j hpt, update_field Proc.sz k.proc i j hsz,
    update_field Proc.ofile k.proc i j hofile⟩) rfl rfl rfl

/-- The free list, and the pages of process `i` with table `r`. -/
def ProcPages (r : ℕ) (i : Slot) (x : ℕ) (o : Owner) : Prop := Space r 0 x o ∨ o = .trapframe i.val

theorem Frame.of_no_proc (hf : Frame (ProcPages r i) s own t own')
    (hs : ∀ x, own x ≠ some (.trapframe i.val)) (ht : ∀ x, own' x ≠ some (.trapframe i.val)) :
    Frame (Space r 0) s own t own' := by
  have key {own : Owners} (h : ∀ x, own x ≠ some (.trapframe i.val)) {x : ℕ} {o : Owner}
      (ho : ¬ Space r 0 x o) (hx : own x = some o) : ¬ ProcPages r i x o := by
    rintro (hc | rfl)
    · exact ho hc
    · exact h x hx
  exact ⟨fun x o ho hx => hf.keep x o (key hs ho hx) hx, fun x o ho hx => hf.back x o (key ht ho hx) hx⟩

theorem KernOk.no_trapframe (h : KernOk L k own tabs hand held) (h₀ : (k.proc i).trapframe = 0) (x : ℕ) :
    own x ≠ some (.trapframe i.val) := by
  intro hx
  obtain ⟨hne, a, ha, htf⟩ := (h.roles.trapframe _ _).1 hx
  obtain rfl : a = i := Fin.ext ha
  exact hne (htf.symm.trans h₀)

/-! ## `freeproc` -/

/-- A page of the kernel goes to the free list. -/
theorem VmOk.release (h : VmOk L.toLayout s own tabs) (hp : own p = some o) (ho : o.Opaque) :
    VmOk L.toLayout ⟨freed s p, p, false⟩ (Function.update own p (some .free)) tabs := by
  have h₁ := h.relabel hp ho .held ⟨by simp, rfl⟩
  have h₂ := h₁.kfree (Function.update_self _ _ _)
  rwa [Function.update_idem] at h₂

theorem Roles.freeTrapframe (h : Roles k own held) (hp : own p = some (.trapframe i.val)) :
    Roles { k with
      phys := t
      proc := Function.update k.proc i { k.proc i with trapframe := 0 } }
      (Function.update own p (some .free)) held where
  held := h.held.update hp
  trapframe j x := by
    obtain ⟨hp₀, i', hi', htf⟩ := (h.trapframe _ p).1 hp
    obtain rfl : i' = i := Fin.ext hi'
    by_cases e : x = p
    · rw [e, Function.update_self]
      refine iff_of_false (by simp) ?_
      rintro ⟨-, a, -, ha⟩
      by_cases ea : a = i'
      · subst ea
        simp only [Function.update_self] at ha
        exact hp₀ ha.symm
      · simp only [Function.update_of_ne ea] at ha
        have := (h.trapframe a.val p).2 ⟨hp₀, a, rfl, ha⟩
        rw [hp] at this
        exact ea (Fin.ext (by simpa using this.symm))
    · rw [Function.update_of_ne e, h.trapframe]
      refine and_congr_right fun hx => exists_congr fun a => and_congr_right fun _ => ?_
      by_cases ea : a = i'
      · subst ea
        simp only [Function.update_self]
        exact iff_of_false (fun e' => e (e'.symm.trans htf)) fun e' => hx e'.symm
      · simp only [Function.update_of_ne ea]
  pipe x := (update_iff hp x).trans (h.pipe x)
  boot x := (update_iff hp x).trans (h.boot x)

theorem freeTrapframe_spec (h : KernOk L k own tabs hand held) (i : Slot) (r : ℕ) :
    ∃ t own', freeTrapframe L i k = .ok ((), { k with phys := t }) ∧
      KernOk L { k with
        phys := t
        proc := Function.update k.proc i { k.proc i with trapframe := 0 } } own' tabs hand held ∧
      Frame (ProcPages r i) k.phys own t own' := by
  by_cases h₀ : (k.proc i).trapframe = 0
  · refine ⟨k.phys, own, ?_, h.setProc h₀.symm rfl rfl rfl, Frame.refl _ _ _⟩
    rw [freeTrapframe, run_bind (run_get k), if_pos h₀]
    rfl
  have hp : own (k.proc i).trapframe = some (.trapframe i.val) :=
    (h.roles.trapframe _ _).2 ⟨h₀, i, rfl, rfl⟩
  refine ⟨_, _, ?_, ⟨VmOk.release h.vm hp ⟨by simp, rfl⟩, h.roles.freeTrapframe hp, ?_, ?_⟩, ?_⟩
  · rw [freeTrapframe, run_bind (run_get k), if_neg h₀]
    exact run_vm (run_kfree h.vm hp (by simp))
  · refine h.spaces.congr fun j => ⟨update_field Proc.pagetable k.proc i j rfl,
      update_field Proc.sz k.proc i j rfl, ?_⟩
    by_cases e : j = i
    · exact .inr (by simp [e])
    · exact .inl (by simp [e])
  · exact h.files.congr (fun j => update_field Proc.ofile k.proc i j rfl) rfl rfl
  · have hframe : Frame (Also (ProcPages r i) (k.proc i).trapframe) k.phys own
        ⟨freed k.phys (k.proc i).trapframe, (k.proc i).trapframe, false⟩
        (Function.update own (k.proc i).trapframe (some .free)) :=
      frame_page (fun x a hx => h.vm.aligned hx) (freed_onlyPage _ (h.vm.aligned hp))
        fun x hx => Function.update_of_ne hx _ _
    exact hframe.close hp (.inr rfl) (Function.update_self _ _ _) (.inl (.inl rfl))

theorem VmOk.table_zero (h : VmOk L.toLayout s own tabs) : tabs 0 = none := by
  cases hT : tabs 0 with
  | none => rfl
  | some T => exact absurd rfl (h.ne_zero (h.table 0 T hT).root_own)

theorem freePagetable_spec (h : KernOk L k own tabs hand held) {x : Proc}
    (hx : x.pagetable = 0) (htf : x.trapframe = (k.proc i).trapframe)
    (hofile : x.ofile = (k.proc i).ofile) :
    ∃ t own', freePagetable L i k = .ok ((), { k with phys := t }) ∧
      KernOk L { k with phys := t, proc := Function.update k.proc i x } own'
        (Function.update tabs (k.proc i).pagetable none) hand held ∧
      Frame (Space (k.proc i).pagetable 0) k.phys own t own' := by
  have hself : (Function.update k.proc i x i).pagetable = 0 := by rw [Function.update_self, hx]
  by_cases h₀ : (k.proc i).pagetable = 0
  · have hnone : Function.update tabs (k.proc i).pagetable none = tabs := by
      rw [h₀, ← VmOk.table_zero h.vm, Function.update_eq_self]
    rw [hnone]
    refine ⟨k.phys, own, ?_, ⟨h.vm, h.roles.congr (SameKern.refl _)
      (fun j => update_field Proc.trapframe k.proc i j htf) rfl rfl, ?_,
      h.files.congr (fun j => update_field Proc.ofile k.proc i j hofile) rfl rfl⟩, Frame.refl _ _ _⟩
    · rw [freePagetable, run_bind (run_get k), if_pos h₀]
      rfl
    · exact h.spaces.set (i := i) (fun j hj => Function.update_of_ne hj _ _)
        (fun hne => absurd hself hne) (fun hne => absurd hself hne) (fun _ _ _ => rfl)
        fun hne => absurd (h₀.trans hself.symm) hne
  obtain ⟨T, tf, hT, hs, -⟩ := h.spaces.shape i h₀
  obtain ⟨t, own', hrun, hvm, hframe⟩ := procFreepagetable_spec h.vm hT hs
  refine ⟨t, own', ?_, ⟨hvm, h.roles.congr (Frame.sameKern hframe fun _ _ => space_not_opaque)
    (fun j => update_field Proc.trapframe k.proc i j htf) rfl rfl, ?_,
    h.files.congr (fun j => update_field Proc.ofile k.proc i j hofile) rfl rfl⟩, hframe⟩
  · rw [freePagetable, run_bind (run_get k), if_neg h₀]
    exact run_vm hrun
  · exact h.spaces.set (i := i) (fun j hj => Function.update_of_ne hj _ _)
      (fun hne => absurd hself hne) (fun hne => absurd hself hne)
      (fun r hr _ => Function.update_of_ne hr _ _) fun _ => Function.update_self _ _ _

/-- The place of the process table that `freeproc` leaves. -/
def freedProc (p : Proc) : Proc :=
  { p with
    pagetable := 0, sz := 0, pid := 0, parent := none, xstate := 0, state := .unused, trapframe := 0 }

theorem unused_freedProc {x : Proc} (h : ∀ fd, x.ofile fd = none) : Unused (freedProc x) :=
  ⟨rfl, rfl, rfl, rfl, h⟩

theorem freeproc_spec (h : KernOk L k own tabs hand held) (i : Slot) :
    ∃ t own', freeproc L i k = .ok ((), { k with
        phys := t
        proc := Function.update k.proc i (freedProc (k.proc i)) }) ∧
      KernOk L { k with
        phys := t
        proc := Function.update k.proc i (freedProc (k.proc i)) } own'
        (Function.update tabs (k.proc i).pagetable none) hand held ∧
      Frame (ProcPages (k.proc i).pagetable i) k.phys own t own' := by
  obtain ⟨t₁, own₁, hrun₁, h₁, hf₁⟩ := freeTrapframe_spec h i (k.proc i).pagetable
  obtain ⟨t₂, own₂, hrun₂, h₂, hf₂⟩ := freePagetable_spec (i := i) h₁
    (x := freedProc (k.proc i)) rfl (by simp [freedProc]) (by simp [freedProc])
  simp only [Function.update_idem, Function.update_self] at h₂ hf₂
  refine ⟨t₂, own₂, ?_, h₂, hf₁.trans (hf₂.mono fun _ _ => .inl)⟩
  rw [freeproc, run_bind hrun₁, run_bind (run_setProc _ _ _), run_bind hrun₂, run_setProc]
  simp [freedProc]


/-! ## `allocproc` -/

theorem Roles.newTrapframe (h : Roles k own held) (hfree : own p = some .free) (hp : p ≠ 0)
    (h₀ : (k.proc i).trapframe = 0) :
    Roles { k with
      phys := t
      proc := Function.update k.proc i { k.proc i with trapframe := p } }
      (Function.update own p (some (.trapframe i.val))) held where
  held := h.held.update hfree
  trapframe j x := by
    by_cases e : x = p
    · rw [e, Function.update_self, Option.some.injEq, Owner.trapframe.injEq]
      constructor
      · rintro rfl
        exact ⟨hp, i, rfl, by simp⟩
      · rintro ⟨-, a, rfl, ha⟩
        by_cases ea : a = i
        · rw [ea]
        · simp only [Function.update_of_ne ea] at ha
          have := (h.trapframe a.val p).2 ⟨hp, a, rfl, ha⟩
          rw [hfree] at this
          cases this
    · rw [Function.update_of_ne e, h.trapframe]
      refine and_congr_right fun hx => exists_congr fun a => and_congr_right fun _ => ?_
      by_cases ea : a = i
      · subst ea
        simp only [Function.update_self]
        exact iff_of_false (fun e' => hx (e'.symm.trans h₀)) fun e' => e e'.symm
      · simp only [Function.update_of_ne ea]
  pipe x := (update_iff hfree x).trans (h.pipe x)
  boot x := (update_iff hfree x).trans (h.boot x)

theorem KernOk.newTrapframe (h : KernOk L k own tabs hand held) (hfree : own p = some .free)
    (ht : VmOk L.toLayout t (Function.update own p (some .held)) tabs)
    (h₀ : (k.proc i).trapframe = 0) (h₁ : (k.proc i).pagetable = 0) :
    KernOk L { k with
      phys := t
      proc := Function.update k.proc i { k.proc i with trapframe := p } }
      (Function.update own p (some (.trapframe i.val))) tabs hand held where
  vm := by
    have := ht.relabel (Function.update_self _ _ _) ⟨by simp, rfl⟩ (.trapframe i.val)
      ⟨by simp, rfl⟩
    rwa [Function.update_idem] at this
  roles := h.roles.newTrapframe hfree (h.vm.ne_zero hfree) h₀
  spaces := by
    have hpt : (Function.update k.proc i { k.proc i with trapframe := p } i).pagetable = 0 := by
      rw [Function.update_self, h₁]
    exact h.spaces.set (i := i) (fun j hj => Function.update_of_ne hj _ _)
      (fun hne => absurd hpt hne) (fun hne => absurd hpt hne) (fun _ _ _ => rfl)
      fun hne => absurd (h₁.trans hpt.symm) hne
  files := h.files.congr (fun j => update_field Proc.ofile k.proc i j rfl) rfl rfl

theorem KernOk.newPagetable (h : KernOk L k own tabs hand held) (hnone : tabs r = none)
    (hframe : Frame (Space r 0) k.phys own t own')
    (ht : VmOk L.toLayout t own' (Function.update tabs r (some T)))
    (hs : Shape L (k.proc i).trapframe 0 T) (h₀ : (k.proc i).pagetable = 0)
    (hsz : (k.proc i).sz = 0) (hr : r ≠ 0) :
    KernOk L { k with
      phys := t
      proc := Function.update k.proc i { k.proc i with pagetable := r } }
      own' (Function.update tabs r (some T)) hand held where
  vm := ht
  roles := h.roles.congr (Frame.sameKern hframe fun _ _ => space_not_opaque)
    (fun j => update_field Proc.trapframe k.proc i j rfl) rfl rfl
  spaces := by
    have hpt : (Function.update k.proc i { k.proc i with pagetable := r } i).pagetable = r := by
      rw [Function.update_self]
    refine h.spaces.set (i := i) (fun j hj => Function.update_of_ne hj _ _) (fun _ => ?_)
      (fun _ j _ e => ?_) (fun x _ hx => ?_) fun _ => ?_
    · simp only [Function.update_self]
      exact ⟨T, _, rfl, by rwa [hsz], .inl rfl⟩
    · rw [hpt] at e
      obtain ⟨T', -, hT', -⟩ := h.spaces.shape j (by rw [e]; exact hr)
      rw [e, hnone] at hT'
      cases hT'
    · rw [hpt] at hx
      exact Function.update_of_ne hx _ _
    · rw [h₀, Function.update_of_ne hr.symm]
      exact VmOk.table_zero h.vm
  files := h.files.congr (fun j => update_field Proc.ofile k.proc i j rfl) rfl rfl

/-- A process as `allocproc` returns it. -/
structure Fresh (p : Proc) : Prop where
  sz : p.sz = 0
  pagetable : p.pagetable ≠ 0
  trapframe : p.trapframe ≠ 0
  ofile : ∀ fd, p.ofile fd = none

theorem Settled.unused {x : Proc} (h : Settled x) (hs : x.state = .unused) : Unused x := by
  rcases h with h | h
  · exact h
  · rcases h.state with e | e <;> rw [hs] at e <;> cases e

/-- Only the process table, memory and the next process number differ, and the places in use are the
same. -/
structure SameTables (k k' : Kern) : Prop where
  file : k'.file = k.file
  pipe : k'.pipe = k.pipe
  initproc : k'.initproc = k.initproc
  boot : k'.boot = k.boot

/-- What `allocproc` has done: nothing, or it has filled one place of the table. -/
def Allocated (k : Kern) (res : Option Slot) (k' : Kern) : Prop :=
  SameTables k k' ∧
    (res = none ∧ (∀ j, Settled (k'.proc j) ∧
        ((k.proc j).state ≠ .unused → k'.proc j = k.proc j)) ∨
      ∃ i, res = some i ∧ (k.proc i).state = .unused ∧ Fresh (k'.proc i) ∧
        ∀ j, j ≠ i → k'.proc j = k.proc j)

/-- A process was not made: only free pages and free places of the table have changed. -/
structure GivenUp (k : Kern) (own : Owners) (k' : Kern) (own' : Owners) : Prop where
  same : SameTables k k'
  settled : ∀ j, Settled (k'.proc j)
  used : ∀ j, (k.proc j).state ≠ .unused → k'.proc j = k.proc j
  unused : ∀ j, (k.proc j).state = .unused → (k'.proc j).state = .unused
  frame : Frame FreePages k.phys own k'.phys own'

/-- The pages and places that `allocproc` has used: none, or those of the new process. -/
def AllocatedPages (k : Kern) (own : Owners) (tabs : ℕ → Option Tree) (k' : Kern) (own' : Owners)
    (tabs' : ℕ → Option Tree) : Option Slot → Prop
  | none => tabs' = tabs ∧ GivenUp k own k' own'
  | some i => tabs (k'.proc i).pagetable = none ∧
      (∃ T, tabs' = Function.update tabs (k'.proc i).pagetable (some T)) ∧
      Frame (ProcPages (k'.proc i).pagetable i) k.phys own k'.phys own' ∧ (k'.proc i).pid = k.nextpid

/-- `freeproc` of a new process, from a state `x` in which only place `i` has been worked on. -/
theorem freeproc_giveUp {x : Kern} (h : KernOk L k own tabs hand held) (hset : ∀ i, Settled (k.proc i))
    (hu : Unused (k.proc i)) (hx : KernOk L x own' tabs' hand held) (hsame : SameTables k x)
    (hofile : (x.proc i).ofile = (k.proc i).ofile) (hne : ∀ j, j ≠ i → x.proc j = k.proc j)
    (htabs : Function.update tabs' (x.proc i).pagetable none = tabs)
    (hf : Frame (ProcPages (x.proc i).pagetable i) k.phys own x.phys own') :
    ∃ k' own'', freeproc L i x = .ok ((), k') ∧ KernOk L k' own'' tabs hand held ∧ GivenUp k own k' own'' := by
  obtain ⟨t, own'', hrun, hok, hf'⟩ := freeproc_spec hx i
  rw [htabs] at hok
  have hspace : Frame (Space (x.proc i).pagetable 0) k.phys own t own'' :=
    Frame.of_no_proc (hf.trans hf') (h.no_trapframe hu.trapframe)
      (hok.no_trapframe (by simp [freedProc]))
  have hnone : tabs (x.proc i).pagetable = none := by
    rw [← htabs]
    exact Function.update_self _ _ _
  have hfreed : Unused (freedProc (x.proc i)) :=
    unused_freedProc fun fd => by rw [hofile]; exact hu.ofile fd
  refine ⟨_, own'', hrun, hok, ⟨hsame.file, hsame.pipe, hsame.initproc, hsame.boot⟩, fun j => ?_,
    fun j hj => ?_, fun j hj => ?_, Frame.of_no_table hspace h.vm hok.vm hnone⟩
  · by_cases e : j = i
    · subst e
      simp only [Function.update_self]
      exact .inl hfreed
    · simp only [Function.update_of_ne e, hne j e]
      exact hset j
  · have e : j ≠ i := fun e => hj (e ▸ hu.state)
    simp only [Function.update_of_ne e, hne j e]
  · by_cases e : j = i
    · subst e
      simp only [Function.update_self]
      exact hfreed.state
    · simp only [Function.update_of_ne e, hne j e, hj]

theorem allocproc_fail {x : Kern} (h : KernOk L k own tabs hand held) (hset : ∀ i, Settled (k.proc i))
    (hu : Unused (k.proc i)) (hx : KernOk L x own' tabs hand held) (hsame : SameTables k x)
    (hofile : (x.proc i).ofile = (k.proc i).ofile) (hne : ∀ j, j ≠ i → x.proc j = k.proc j)
    (hpt : (x.proc i).pagetable = 0) (hf : Frame (ProcPages 0 i) k.phys own x.phys own') :
    ∃ res k' own'' tabs', (do
        freeproc L i
        pure none : KCode (Option Slot)) x = .ok (res, k') ∧ KernOk L k' own'' tabs' hand held ∧
      Allocated k res k' ∧ AllocatedPages k own tabs k' own'' tabs' res := by
  have htabs : Function.update tabs (x.proc i).pagetable none = tabs := by
    rw [hpt, ← VmOk.table_zero h.vm, Function.update_eq_self]
  obtain ⟨k', own'', hrun, hok, hgive⟩ :=
    freeproc_giveUp h hset hu hx hsame hofile hne htabs (by rw [hpt]; exact hf)
  exact ⟨none, k', own'', tabs, by rw [run_bind hrun]; rfl, hok,
    ⟨hgive.same, .inl ⟨rfl, fun j => ⟨hgive.settled j, hgive.used j⟩⟩⟩, rfl, hgive⟩

theorem allocproc_spec (h : KernOk L k own tabs hand held) (hset : ∀ i, Settled (k.proc i)) :
    ∃ res k' own' tabs', allocproc L k = .ok (res, k') ∧ KernOk L k' own' tabs' hand held ∧
      Allocated k res k' ∧ AllocatedPages k own tabs k' own' tabs' res := by
  rw [allocproc, run_bind (run_get k)]
  cases hfind : (List.finRange NPROC).find? fun i => (k.proc i).state = .unused with
  | none =>
    exact ⟨none, k, own, tabs, rfl, h, ⟨⟨rfl, rfl, rfl, rfl⟩,
      .inl ⟨rfl, fun j => ⟨hset j, fun _ => rfl⟩⟩⟩, rfl, ⟨rfl, rfl, rfl, rfl⟩, hset, fun _ _ => rfl,
      fun _ hj => hj, Frame.refl _ _ _⟩
  | some i =>
    have hi : (k.proc i).state = .unused := by simpa using List.find?_some hfind
    have hu := (hset i).unused hi
    -- The state after `p->state = USED`.
    obtain ⟨k₁, hk₁⟩ : ∃ k₁ : Kern, { k with
      proc := Function.update k.proc i { k.proc i with pid := k.nextpid, state := .used }
      nextpid := k.nextpid + 1 } = k₁ := ⟨_, rfl⟩
    have hproc₁ : k₁.proc i = { k.proc i with pid := k.nextpid, state := .used } := by
      rw [← hk₁]
      exact Function.update_self _ _ _
    have h₁ : KernOk L k₁ own tabs hand held := by
      rw [← hk₁]
      exact (h.setProc (i := i) (x := { k.proc i with pid := k.nextpid, state := .used }) rfl rfl rfl
        rfl).congr_proc rfl (fun _ => ⟨rfl, rfl, rfl, rfl⟩) rfl rfl rfl
    have hne₁ (j : Slot) (e : j ≠ i) : k₁.proc j = k.proc j := by
      rw [← hk₁]
      exact Function.update_of_ne e _ _
    have hsame₁ : SameTables k k₁ := by rw [← hk₁]; exact ⟨rfl, rfl, rfl, rfl⟩
    have hphys₁ : k₁.phys = k.phys := by rw [← hk₁]
    simp only []
    rw [run_bind (run_setProc _ _ _), run_bind (run_modify _ _), hk₁]
    obtain ⟨p, t, hrun, ⟨rfl, rfl⟩ | ⟨hp, hfree, -, -, hvm, honly⟩⟩ := kalloc_zero h₁.vm
    · rw [run_bind (run_vm hrun), run_bind (run_setProc _ _ _), if_pos rfl]
      have h₂ := h₁.setProc (i := i) (x := { k₁.proc i with trapframe := 0 })
        (by rw [hproc₁]; exact hu.trapframe.symm) rfl rfl rfl
      refine allocproc_fail h hset hu h₂ ⟨hsame₁.file, hsame₁.pipe, hsame₁.initproc, hsame₁.boot⟩ ?_
        (fun j e => ?_) ?_ ?_
      · simp [hproc₁]
      · simp [e, hne₁ j e]
      · simp [hproc₁, hu.pagetable]
      · rw [← hphys₁]
        exact Frame.refl _ _ _
    rw [run_bind (run_vm hrun), run_bind (run_setProc _ _ _), if_neg hp]
    have h₂ := h₁.newTrapframe (i := i) hfree hvm (by rw [hproc₁]; exact hu.trapframe)
      (by rw [hproc₁]; exact hu.pagetable)
    obtain ⟨k₂, hk₂⟩ : ∃ k₂ : Kern, { k₁ with
      phys := t
      proc := Function.update k₁.proc i { k₁.proc i with trapframe := p } } = k₂ := ⟨_, rfl⟩
    have hproc₂ : k₂.proc i = { k₁.proc i with trapframe := p } := by
      rw [← hk₂]
      exact Function.update_self _ _ _
    have hne₂ (j : Slot) (e : j ≠ i) : k₂.proc j = k.proc j := by
      rw [← hne₁ j e, ← hk₂]
      exact Function.update_of_ne e _ _
    have hsame₂ : SameTables k k₂ := by
      rw [← hk₂]
      exact ⟨hsame₁.file, hsame₁.pipe, hsame₁.initproc, hsame₁.boot⟩
    have hframe₂ (r : ℕ) : Frame (ProcPages r i) k.phys own k₂.phys
        (Function.update own p (some (.trapframe i.val))) := by
      rw [← hphys₁, ← hk₂]
      have : Frame (Also (ProcPages r i) p) k₁.phys own t (Function.update own p (some (.trapframe i.val))) :=
        frame_page (fun x a hx => h.vm.aligned hx) honly fun x hx => Function.update_of_ne hx _ _
      exact this.close hfree (.inl (.inl rfl)) (Function.update_self _ _ _) (.inr rfl)
    simp only [hk₂] at h₂ ⊢
    obtain ⟨r, t', own', hpt, ⟨rfl, hvm', hframe⟩ | ⟨hr, hnone, hframe, T, hvm', hs⟩⟩ :=
      procPagetable_spec h₂.vm (h.vm.aligned hfree) (h.vm.below hfree)
    · rw [run_bind (run_vm hpt), run_bind (run_setProc _ _ _), if_pos rfl]
      have h₃ := (h₂.phys hvm' (Frame.sameKern hframe fun _ _ => freePages_not_opaque)).setProc
        (i := i) (x := { k₂.proc i with pagetable := 0 }) rfl
        (by simp [hproc₂, hproc₁, hu.pagetable]) rfl rfl
      refine allocproc_fail h hset hu h₃ ⟨hsame₂.file, hsame₂.pipe, hsame₂.initproc, hsame₂.boot⟩ ?_
        (fun j e => ?_) ?_ ?_
      · simp [hproc₂, hproc₁]
      · simp [e, hne₂ j e]
      · simp
      · exact (hframe₂ 0).trans (hframe.mono fun _ _ hc => .inl (.inl hc))
    · rw [run_bind (run_vm hpt), run_bind (run_setProc _ _ _), if_neg hr]
      have h₃ := h₂.newPagetable (i := i) hnone hframe hvm' (by rw [hproc₂]; exact hs)
        (by rw [hproc₂, hproc₁]; exact hu.pagetable) (by rw [hproc₂, hproc₁]; exact hu.sz) hr
      refine ⟨some i, _, own', _, rfl, h₃,
        ⟨⟨hsame₂.file, hsame₂.pipe, hsame₂.initproc, hsame₂.boot⟩, .inr ⟨i, rfl, hi, ?_, fun j e => ?_⟩⟩, ?_⟩
      · simp only [Function.update_self, hproc₂, hproc₁]
        exact ⟨hu.sz, hr, hp, hu.ofile⟩
      · simp [e, hne₂ j e]
      · simp only [AllocatedPages, Function.update_self]
        exact ⟨hnone, ⟨T, rfl⟩, (hframe₂ r).trans (hframe.mono fun _ _ => .inl), by rw [hproc₂, hproc₁]⟩

end Xv6.Sys
