import Xv6.Sys.Image

/-!
# The invariant of the kernel's tables

`KernOk` ties the owners of the pages to the process table, the file table and the pipes.  `hand`
counts the references to open files that running code has taken and not yet stored in a descriptor,
and `held` lists its pages; between system calls there are none.
-/

namespace Xv6.Sys

open Memory Kernel Kalloc Vm

/-! ## References to open files -/

/-- The number of descriptors of file `f`. -/
def refs (k : Kern) (f : FileId) : ℕ :=
  (Finset.univ.filter fun x : Slot × Fin NOFILE => (k.proc x.1).ofile x.2 = some f).card

/-- Whether the end of a pipe is open. -/
def Pipe.isOpen (p : Pipe) (writable : Bool) : Bool := if writable then p.writeopen else p.readopen

/-- File `f` is an end of the pipe in page `pi`. -/
def IsEnd (k : Kern) (f : FileId) (pi : ℕ) (writable : Bool) : Prop :=
  (k.file f).type = .pipe ∧ (k.file f).pipe = pi ∧ (k.file f).writable = writable

structure Files (k : Kern) (hand : FileId → ℤ) : Prop where
  ref : ∀ f, ((k.file f).ref : ℤ) = refs k f + hand f
  closed : ∀ f, (k.file f).ref = 0 → (k.file f).type = .none
  single : ∀ f g pi w, IsEnd k f pi w → IsEnd k g pi w → f = g
  opened : ∀ f pi w, IsEnd k f pi w → ∀ w', (k.pipe pi).isOpen w' = true ↔ ∃ g, IsEnd k g pi w'

/-! ## Owners -/

/-- The owners agree on pages outside address spaces and the free list. -/
def SameKern (own own' : Owners) : Prop :=
  ∀ p o, o.Opaque → (own' p = some o ↔ own p = some o)

structure Roles (k : Kern) (own : Owners) (held : List ℕ) : Prop where
  held : Holds own held
  trapframe : ∀ j p, own p = some (.trapframe j) ↔
    p ≠ 0 ∧ ∃ i : Slot, i.val = j ∧ (k.proc i).trapframe = p
  pipe : ∀ p, own p = some .pipe ↔ ∃ f w, IsEnd k f p w
  boot : ∀ p, own p = some .boot ↔ p ∈ k.boot

structure Spaces (L : Image) (k : Kern) (tabs : ℕ → Option Tree) : Prop where
  shape : ∀ i, (k.proc i).pagetable ≠ 0 → ∃ T tf, tabs (k.proc i).pagetable = some T ∧
    Shape L tf (k.proc i).sz T ∧ ((k.proc i).trapframe = tf ∨ (k.proc i).trapframe = 0)
  owner : ∀ r, (tabs r).isSome → ∃ i, (k.proc i).pagetable = r
  inj : ∀ i j, (k.proc i).pagetable = (k.proc j).pagetable → (k.proc i).pagetable ≠ 0 → i = j

structure KernOk (L : Image) (k : Kern) (own : Owners) (tabs : ℕ → Option Tree)
    (hand : FileId → ℤ) (held : List ℕ) : Prop where
  vm : VmOk L.toLayout k.phys own tabs
  roles : Roles k own held
  spaces : Spaces L k tabs
  files : Files k hand

/-- A free place of the process table. -/
structure Unused (p : Proc) : Prop where
  state : p.state = .unused
  sz : p.sz = 0
  pagetable : p.pagetable = 0
  trapframe : p.trapframe = 0
  ofile : ∀ fd, p.ofile fd = none

/-- A process between system calls. -/
structure Live (p : Proc) : Prop where
  state : p.state = .runnable ∨ p.state = .zombie
  pagetable : p.pagetable ≠ 0
  trapframe : p.trapframe ≠ 0
  ofile : p.state = .zombie → ∀ fd, p.ofile fd = none

def Settled (p : Proc) : Prop := Unused p ∨ Live p

/-- The invariant between system calls. -/
def Good (L : Image) (k : Kern) : Prop :=
  (∃ own tabs, KernOk L k own tabs (fun _ => 0) []) ∧ ∀ i, Settled (k.proc i)

variable {L : Image} {k k' : Kern} {s t u : Phys} {own own' own'' : Owners}
  {tabs tabs' : ℕ → Option Tree} {hand hand' : FileId → ℤ} {held held' : List ℕ} {r p q tf sz : ℕ}
  {T T' : Tree} {o : Owner} {i j : Slot} {f : FileId}

/-! ## What each part depends on -/

theorem SameKern.refl (own : Owners) : SameKern own own := fun _ _ _ => Iff.rfl

theorem SameKern.trans (h : SameKern own own') (h' : SameKern own' own'') : SameKern own own'' :=
  fun p o ho => (h' p o ho).trans (h p o ho)

theorem Frame.sameKern {C : ℕ → Owner → Prop} (h : Frame C s own t own')
    (hC : ∀ x o, C x o → ¬ o.Opaque) : SameKern own own' := fun p o ho =>
  ⟨h.back p o fun hc => hC p o hc ho, fun hp => (h.keep p o (fun hc => hC p o hc ho) hp).1⟩

theorem space_not_opaque {n x : ℕ} (h : Space r n x o) : ¬ o.Opaque := by
  rintro ⟨hfree, htab⟩
  obtain e | ⟨e, -⟩ | ⟨v, -, rfl⟩ := h
  · exact hfree e
  · rw [htab] at e
    cases e
  · cases htab

theorem freePages_not_opaque {x : ℕ} (h : FreePages x o) : ¬ o.Opaque := fun ho => ho.1 h

theorem Roles.congr (h : Roles k own held) (hs : SameKern own own')
    (htf : ∀ i, (k'.proc i).trapframe = (k.proc i).trapframe) (hfile : k'.file = k.file)
    (hboot : k'.boot = k.boot) : Roles k' own' held where
  held := ⟨h.held.nodup, fun p => (hs p .held ⟨by simp, rfl⟩).trans (h.held.mem_iff p)⟩
  trapframe j p := by
    rw [hs p _ ⟨by simp, rfl⟩, h.trapframe]
    simp only [htf]
  pipe p := by
    rw [hs p _ ⟨by simp, rfl⟩, h.pipe]
    simp only [IsEnd, hfile]
  boot p := by rw [hs p _ ⟨by simp, rfl⟩, h.boot, hboot]

theorem refs_congr (h : ∀ i, (k'.proc i).ofile = (k.proc i).ofile) (f : FileId) :
    refs k' f = refs k f := by
  simp only [refs, h]

theorem Files.congr (h : Files k hand) (hofile : ∀ i, (k'.proc i).ofile = (k.proc i).ofile)
    (hfile : k'.file = k.file) (hpipe : k'.pipe = k.pipe) : Files k' hand where
  ref f := by rw [hfile, refs_congr hofile]; exact h.ref f
  closed f := by rw [hfile]; exact h.closed f
  single f g pi w := by
    simp only [IsEnd, hfile]
    exact h.single f g pi w
  opened f pi w := by
    simp only [IsEnd, hfile, hpipe]
    exact h.opened f pi w

theorem Spaces.congr (h : Spaces L k tabs)
    (hproc : ∀ i, (k'.proc i).pagetable = (k.proc i).pagetable ∧ (k'.proc i).sz = (k.proc i).sz ∧
      ((k'.proc i).trapframe = (k.proc i).trapframe ∨ (k'.proc i).trapframe = 0)) :
    Spaces L k' tabs where
  shape i hi := by
    obtain ⟨hpt, hsz, htf⟩ := hproc i
    rw [hpt] at hi
    obtain ⟨T, tf, hT, hs, htf'⟩ := h.shape i hi
    refine ⟨T, tf, by rw [hpt]; exact hT, by rw [hsz]; exact hs, ?_⟩
    rcases htf with e | e
    · rwa [e]
    · exact .inr e
  owner r hr := by
    obtain ⟨i, hi⟩ := h.owner r hr
    exact ⟨i, (hproc i).1.trans hi⟩
  inj i j hij hi := by
    rw [(hproc i).1] at hij hi
    rw [(hproc j).1] at hij
    exact h.inj i j hij hi

/-- Process `i` changes its page table. -/
theorem Spaces.set (h : Spaces L k tabs) (hne : ∀ j, j ≠ i → k'.proc j = k.proc j)
    (hnew : (k'.proc i).pagetable ≠ 0 → ∃ T tf, tabs' (k'.proc i).pagetable = some T ∧
      Shape L tf (k'.proc i).sz T ∧ ((k'.proc i).trapframe = tf ∨ (k'.proc i).trapframe = 0))
    (hfresh : (k'.proc i).pagetable ≠ 0 → ∀ j, j ≠ i →
      (k.proc j).pagetable ≠ (k'.proc i).pagetable)
    (hother : ∀ r, r ≠ (k.proc i).pagetable → r ≠ (k'.proc i).pagetable → tabs' r = tabs r)
    (hold : (k.proc i).pagetable ≠ (k'.proc i).pagetable → tabs' (k.proc i).pagetable = none) :
    Spaces L k' tabs' where
  shape j hj := by
    by_cases e : j = i
    · subst e
      exact hnew hj
    · rw [hne j e] at hj ⊢
      have h₁ : (k.proc j).pagetable ≠ (k.proc i).pagetable := fun e' => e (h.inj j i e' hj)
      have h₂ : (k.proc j).pagetable ≠ (k'.proc i).pagetable := fun e' =>
        hfresh (e' ▸ hj) j e e'
      rw [hother _ h₁ h₂]
      exact h.shape j hj
  owner r hr := by
    by_cases e' : r = (k'.proc i).pagetable
    · exact ⟨i, e'.symm⟩
    · have e : r ≠ (k.proc i).pagetable := fun e => by
        rw [e, hold (e ▸ e')] at hr
        cases hr
      rw [hother r e e'] at hr
      obtain ⟨j, hj⟩ := h.owner r hr
      have hji : j ≠ i := fun e'' => e (by rw [← hj, e''])
      exact ⟨j, by rw [hne j hji]; exact hj⟩
  inj a b hab ha := by
    by_cases ea : a = i
    · by_cases eb : b = i
      · rw [ea, eb]
      · rw [ea] at hab ha
        rw [hne b eb] at hab
        exact absurd hab.symm (hfresh ha b eb)
    · rw [hne a ea] at hab ha
      by_cases eb : b = i
      · rw [eb] at hab
        exact absurd hab (hfresh (hab ▸ ha) a ea)
      · rw [hne b eb] at hab
        exact h.inj a b hab ha

/-! ## Runs of the basic operations -/

theorem run_vm {α : Type} {c : K α} {a : α} (h : c k.phys = .ok (a, t)) :
    vm c k = .ok (a, { k with phys := t }) := run_zoom h

theorem run_setProc (i : Slot) (f : Proc → Proc) (k : Kern) :
    setProc i f k = .ok ((), { k with proc := Function.update k.proc i (f (k.proc i)) }) := rfl

theorem run_setFile (f : FileId) (g : File → File) (k : Kern) :
    setFile f g k = .ok ((), { k with file := Function.update k.file f (g (k.file f)) }) := rfl

theorem update_field {α : Type} (π : Proc → α) (g : Slot → Proc) (i j : Slot) {x : Proc}
    (h : π x = π (g i)) : π (Function.update g i x j) = π (g j) := by
  by_cases e : j = i
  · rw [e, Function.update_self, h]
  · rw [Function.update_of_ne e]

/-- Code that works on memory and keeps all address spaces. -/
theorem KernOk.phys (h : KernOk L k own tabs hand held) (hvm : VmOk L.toLayout t own' tabs)
    (hs : SameKern own own') : KernOk L { k with phys := t } own' tabs hand held where
  vm := hvm
  roles := h.roles.congr hs (fun _ => rfl) rfl rfl
  spaces := h.spaces.congr fun _ => ⟨rfl, rfl, .inl rfl⟩
  files := h.files.congr (fun _ => rfl) rfl rfl

/-- Code that changes the table of process `i`, and then its size. -/
theorem KernOk.resize (h : KernOk L k own tabs hand held) (hi : (k.proc i).pagetable ≠ 0)
    (sz : ℕ) (hvm : VmOk L.toLayout t own' (Function.update tabs (k.proc i).pagetable (some T')))
    (hs : SameKern own own') {tf : ℕ} (hshape : Shape L tf sz T')
    (htf : (k.proc i).trapframe = tf ∨ (k.proc i).trapframe = 0) :
    KernOk L { k with phys := t, proc := Function.update k.proc i { k.proc i with sz := sz } } own'
      (Function.update tabs (k.proc i).pagetable (some T')) hand held where
  vm := hvm
  roles := h.roles.congr hs (fun j => update_field Proc.trapframe k.proc i j rfl) rfl rfl
  spaces := by
    have hpt : (Function.update k.proc i { k.proc i with sz := sz } i).pagetable =
        (k.proc i).pagetable := by rw [Function.update_self]
    refine h.spaces.set (i := i) (fun j hj => Function.update_of_ne hj _ _) (fun _ => ?_)
      (fun _ j hj e => hj (h.spaces.inj j i (e.trans hpt) (by rw [e, hpt]; exact hi)))
      (fun r hr _ => Function.update_of_ne hr _ _) fun e => absurd hpt.symm e
    simp only [Function.update_self]
    exact ⟨T', tf, rfl, hshape, htf⟩
  files := h.files.congr (fun j => update_field Proc.ofile k.proc i j rfl) rfl rfl

end Xv6.Sys
