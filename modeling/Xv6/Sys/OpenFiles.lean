import Xv6.Sys.Processes

/-!
# Open files and pipes keep the invariant

Each function moves references between descriptors and the hands of the running call: `hand` grows
with `filealloc` and `filedup`, and shrinks with `fdalloc` and `fileclose`.  The page of a pipe is
freed with its second end.
-/

namespace Xv6.Sys

open Memory Kernel Kalloc Vm

variable {L : Image} {k k' : Kern} {s t u : Phys} {own own' own'' : Owners}
  {tabs tabs' : ℕ → Option Tree} {hand hand' : FileId → ℤ} {held held' : List ℕ} {r p q : ℕ}
  {T T' : Tree} {o : Owner} {i j : Slot} {f g : FileId} {fd : Fin NOFILE}

/-- `d` more references to `f` in hand. -/
def bump (hand : FileId → ℤ) (f : FileId) (d : ℤ) : FileId → ℤ := fun g =>
  hand g + if g = f then d else 0

/-- The references in a descriptor. -/
def single (b : Option FileId) (f : FileId) : ℤ := if b = some f then 1 else 0

theorem card_update {ι α : Type} [Fintype ι] [DecidableEq ι] [DecidableEq α] (g : ι → Option α)
    (x : ι) (b : Option α) (a : α) :
    ((Finset.univ.filter fun y => Function.update g x b y = some a).card : ℤ) =
      (Finset.univ.filter fun y => g y = some a).card + (if b = some a then 1 else 0) -
        (if g x = some a then 1 else 0) := by
  have hsplit (h : ι → Option α) : ((Finset.univ.filter fun y => h y = some a).card : ℤ) =
      (if h x = some a then 1 else 0) + ∑ y ∈ Finset.univ.erase x, if h y = some a then 1 else 0 := by
    rw [Finset.card_filter, Nat.cast_sum, ← Finset.add_sum_erase _ _ (Finset.mem_univ x)]
    simp
  rw [hsplit, hsplit g, Function.update_self]
  have hrest : ∑ y ∈ Finset.univ.erase x, (if Function.update g x b y = some a then (1 : ℤ) else 0) =
      ∑ y ∈ Finset.univ.erase x, if g y = some a then 1 else 0 := by
    refine Finset.sum_congr rfl fun y hy => ?_
    rw [Function.update_of_ne (Finset.ne_of_mem_erase hy)]
  rw [hrest]
  ring

/-- The kernel after a store to a descriptor. -/
def withFd (k : Kern) (i : Slot) (fd : Fin NOFILE) (b : Option FileId) : Kern :=
  { k with
    proc := Function.update k.proc i
      { k.proc i with ofile := Function.update (k.proc i).ofile fd b } }

theorem run_setFd (i : Slot) (fd : Fin NOFILE) (b : Option FileId) (k : Kern) :
    setFd i fd b k = .ok ((), withFd k i fd b) := rfl

theorem refs_withFd (k : Kern) (i : Slot) (fd : Fin NOFILE) (b : Option FileId) (f : FileId) :
    (refs (withFd k i fd b) f : ℤ) = refs k f + single b f - single ((k.proc i).ofile fd) f := by
  have hfun : (fun x : Slot × Fin NOFILE => ((withFd k i fd b).proc x.1).ofile x.2) =
      Function.update (fun x : Slot × Fin NOFILE => (k.proc x.1).ofile x.2) (i, fd) b := by
    funext ⟨a, c⟩
    by_cases ha : a = i
    · subst ha
      by_cases hc : c = fd
      · simp [withFd, hc]
      · simp [withFd, hc]
    · simp [withFd, ha]
  have := card_update (fun x : Slot × Fin NOFILE => (k.proc x.1).ofile x.2) (i, fd) b f
  rw [← hfun] at this
  exact this

theorem KernOk.setFd (h : KernOk L k own tabs hand held) (i : Slot) (fd : Fin NOFILE)
    (b : Option FileId) :
    KernOk L (withFd k i fd b) own tabs
      (fun f => hand f + single ((k.proc i).ofile fd) f - single b f) held where
  vm := h.vm
  roles := h.roles.congr (SameKern.refl _) (fun j => update_field Proc.trapframe k.proc i j rfl) rfl rfl
  spaces := h.spaces.congr fun j => ⟨update_field Proc.pagetable k.proc i j rfl,
    update_field Proc.sz k.proc i j rfl, .inl (update_field Proc.trapframe k.proc i j rfl)⟩
  files :=
    { ref := fun f => by
        rw [refs_withFd]
        have := h.files.ref f
        change ((k.file f).ref : ℤ) = _
        omega
      closed := h.files.closed
      single := h.files.single
      opened := h.files.opened }

/-- A file that is no end of a pipe, before and after, changes nothing but its count. -/
theorem KernOk.setFile (h : KernOk L k own tabs hand held) {x : File} {d : ℤ}
    (hpipe : (k.file f).type = .pipe → x.type = .pipe ∧ x.pipe = (k.file f).pipe ∧
      x.writable = (k.file f).writable)
    (hpipe' : x.type = .pipe → (k.file f).type = .pipe) (hclosed : x.ref = 0 → x.type = .none)
    (href : (x.ref : ℤ) = (k.file f).ref + d) :
    KernOk L { k with file := Function.update k.file f x } own tabs (bump hand f d) held := by
  have hend (g : FileId) (pi : ℕ) (w : Bool) :
      IsEnd { k with file := Function.update k.file f x } g pi w ↔ IsEnd k g pi w := by
    by_cases e : g = f
    · subst e
      simp only [IsEnd, Function.update_self]
      constructor
      · rintro ⟨h₁, h₂, h₃⟩
        obtain ⟨-, h₄, h₅⟩ := hpipe (hpipe' h₁)
        exact ⟨hpipe' h₁, h₄.symm.trans h₂, h₅.symm.trans h₃⟩
      · rintro ⟨h₁, h₂, h₃⟩
        obtain ⟨h₄, h₅, h₆⟩ := hpipe h₁
        exact ⟨h₄, h₅.trans h₂, h₆.trans h₃⟩
    · simp only [IsEnd, Function.update_of_ne e]
  exact
    { vm := h.vm
      roles :=
        { held := h.roles.held
          trapframe := h.roles.trapframe
          pipe := fun p => by simp only [hend]; exact h.roles.pipe p
          boot := h.roles.boot }
      spaces := h.spaces.congr fun _ => ⟨rfl, rfl, .inl rfl⟩
      files :=
        { ref := fun g => by
            have := h.files.ref g
            have hr : refs { k with file := Function.update k.file f x } g = refs k g :=
              refs_congr (fun _ => rfl) g
            rw [hr]
            by_cases e : g = f
            · subst e
              simp only [Function.update_self, bump, if_true]
              omega
            · simp only [Function.update_of_ne e, bump, if_neg e, add_zero]
              exact this
          closed := fun g hg => by
            by_cases e : g = f
            · subst e
              simp only [Function.update_self] at hg ⊢
              exact hclosed hg
            · simp only [Function.update_of_ne e] at hg ⊢
              exact h.files.closed g hg
          single := fun a b pi w => by simp only [hend]; exact h.files.single a b pi w
          opened := fun a pi w => by simp only [hend]; exact h.files.opened a pi w } }

/-! ## The functions of `file.c` -/

theorem filealloc_spec (h : KernOk L k own tabs hand held) :
    filealloc k = .ok (none, k) ∨ ∃ f, (k.file f).ref = 0 ∧
      filealloc k = .ok (some f,
        { k with file := Function.update k.file f { k.file f with ref := 1 } }) ∧
      KernOk L { k with file := Function.update k.file f { k.file f with ref := 1 } } own tabs
        (bump hand f 1) held := by
  rw [filealloc, run_bind (run_get k)]
  cases hfind : (List.finRange NFILE).find? fun f => (k.file f).ref = 0 with
  | none => exact .inl rfl
  | some f =>
    have hf : (k.file f).ref = 0 := by simpa using List.find?_some hfind
    have htype := h.files.closed f hf
    refine .inr ⟨f, hf, rfl, h.setFile (fun e => ?_) (fun e => e) (fun e => by cases e) ?_⟩
    · rw [htype] at e
      cases e
    · rw [hf]
      rfl

theorem filedup_spec (h : KernOk L k own tabs hand held) (hf : 1 ≤ (k.file f).ref) :
    filedup f k = .ok ((), { k with
        file := Function.update k.file f { k.file f with ref := (k.file f).ref + 1 } }) ∧
      KernOk L { k with
        file := Function.update k.file f { k.file f with ref := (k.file f).ref + 1 } } own tabs
        (bump hand f 1) held := by
  refine ⟨?_, h.setFile (fun e => ⟨e, rfl, rfl⟩) (fun e => e) (fun e => by cases e) ?_⟩
  · rw [filedup, run_bind (run_get k), if_neg (by omega)]
    rfl
  · push_cast
    rfl

theorem Files.one_le_ref (h : Files k hand) (hh : 0 ≤ hand f) (hfd : (k.proc i).ofile fd = some f) :
    1 ≤ (k.file f).ref := by
  have hpos : 1 ≤ refs k f := Finset.card_pos.2 ⟨(i, fd), by simp [hfd]⟩
  have := h.ref f
  omega


/-! ## Closing an end of a pipe -/

/-- A pipe with one end closed. -/
def Pipe.close (p : Pipe) (writable : Bool) : Pipe :=
  if writable then { p with writeopen := false } else { p with readopen := false }

theorem Pipe.isOpen_close (p : Pipe) (w w' : Bool) :
    (p.close w).isOpen w' = if w' = w then false else p.isOpen w' := by
  cases w <;> cases w' <;> rfl

theorem Pipe.close_shut (p : Pipe) (w : Bool) :
    (!(p.close w).readopen && !(p.close w).writeopen) = !p.isOpen (!w) := by
  cases w <;> simp [Pipe.close, Pipe.isOpen]

/-- The kernel after the last `fileclose` of an end of a pipe, before its page is freed. -/
def closedEnd (k : Kern) (f : FileId) : Kern :=
  { k with
    file := Function.update k.file f { k.file f with ref := 0, type := .none }
    pipe := Function.update k.pipe (k.file f).pipe
      ((k.pipe (k.file f).pipe).close (k.file f).writable) }

theorem isEnd_closedEnd {pi : ℕ} {w : Bool} :
    IsEnd (closedEnd k f) g pi w ↔ IsEnd k g pi w ∧ g ≠ f := by
  by_cases e : g = f
  · subst e
    simp [IsEnd, closedEnd]
  · simp [IsEnd, closedEnd, e]

theorem Files.closedEnd (h : Files k hand) (hf : (k.file f).type = .pipe) (href : (k.file f).ref = 1) :
    Files (closedEnd k f) (bump hand f (-1)) where
  ref g := by
    have := h.ref g
    have hr : refs (Sys.closedEnd k f) g = refs k g := refs_congr (fun _ => rfl) g
    rw [hr]
    by_cases e : g = f
    · subst e
      simp only [Sys.closedEnd, Function.update_self, bump, if_true]
      omega
    · simp only [Sys.closedEnd, Function.update_of_ne e, bump, if_neg e, add_zero]
      exact this
  closed g hg := by
    by_cases e : g = f
    · subst e
      simp [Sys.closedEnd]
    · simp only [Sys.closedEnd, Function.update_of_ne e] at hg ⊢
      exact h.closed g hg
  single a b pi w ha hb := h.single a b pi w (isEnd_closedEnd.1 ha).1 (isEnd_closedEnd.1 hb).1
  opened a pi w ha w' := by
    obtain ⟨ha, haf⟩ := isEnd_closedEnd.1 ha
    have hend : IsEnd k f (k.file f).pipe (k.file f).writable := ⟨hf, rfl, rfl⟩
    simp only [isEnd_closedEnd]
    by_cases e : pi = (k.file f).pipe
    · subst e
      simp only [Sys.closedEnd, Function.update_self, Pipe.isOpen_close]
      split_ifs with hw
      · refine iff_of_false (by simp) ?_
        rintro ⟨b, hb, hbf⟩
        exact hbf (h.single b f _ _ hb (hw ▸ hend))
      · rw [h.opened a _ w ha w']
        refine exists_congr fun b => ⟨fun hb => ⟨hb, fun e' => ?_⟩, fun hb => hb.1⟩
        subst e'
        exact hw hb.2.2.symm
    · have hpipe : (Sys.closedEnd k f).pipe pi = k.pipe pi := Function.update_of_ne e _ _
      rw [hpipe, h.opened a pi w ha w']
      refine exists_congr fun b => ⟨fun hb => ⟨hb, fun e' => ?_⟩, fun hb => hb.1⟩
      subst e'
      exact e hb.2.1.symm

theorem exists_isEnd_closedEnd (hp : p ≠ (k.file f).pipe) :
    (∃ g w, IsEnd (closedEnd k f) g p w) ↔ ∃ g w, IsEnd k g p w := by
  simp only [isEnd_closedEnd]
  refine exists_congr fun g => exists_congr fun w => ⟨fun h => h.1, fun h => ⟨h, ?_⟩⟩
  rintro rfl
  exact hp h.2.1.symm

theorem KernOk.closedEnd (h : KernOk L k own tabs hand held) (hf : (k.file f).type = .pipe)
    (href : (k.file f).ref = 1)
    (hother : (k.pipe (k.file f).pipe).isOpen (!(k.file f).writable) = true) :
    KernOk L (closedEnd k f) own tabs (bump hand f (-1)) held where
  vm := h.vm
  roles :=
    { held := h.roles.held
      trapframe := h.roles.trapframe
      pipe := fun p => by
        by_cases e : p = (k.file f).pipe
        · have hend : IsEnd k f p (k.file f).writable := ⟨hf, e.symm, rfl⟩
          refine iff_of_true ((h.roles.pipe p).2 ⟨f, _, hend⟩) ?_
          obtain ⟨g, hg⟩ := (h.files.opened f _ _ hend _).1 (e ▸ hother)
          refine ⟨g, _, isEnd_closedEnd.2 ⟨hg, ?_⟩⟩
          rintro rfl
          have := hg.2.2
          cases hw : (k.file g).writable <;> rw [hw] at this <;> cases this
        · rw [exists_isEnd_closedEnd e]
          exact h.roles.pipe p
      boot := h.roles.boot }
  spaces := h.spaces.congr fun _ => ⟨rfl, rfl, .inl rfl⟩
  files := h.files.closedEnd hf href

/-- Both ends are closed, and the page of the pipe is free. -/
theorem KernOk.closedPipe (h : KernOk L k own tabs hand held) (hf : (k.file f).type = .pipe)
    (href : (k.file f).ref = 1)
    (hother : (k.pipe (k.file f).pipe).isOpen (!(k.file f).writable) = false) :
    KernOk L { Sys.closedEnd k f with
      phys := ⟨freed k.phys (k.file f).pipe, (k.file f).pipe, false⟩ }
      (Function.update own (k.file f).pipe (some .free)) tabs (bump hand f (-1)) held := by
  have hend : IsEnd k f (k.file f).pipe (k.file f).writable := ⟨hf, rfl, rfl⟩
  have hown : own (k.file f).pipe = some .pipe := (h.roles.pipe _).2 ⟨f, _, hend⟩
  exact
    { vm := VmOk.release h.vm hown ⟨by simp, rfl⟩
      roles :=
        { held := h.roles.held.update hown
          trapframe := fun j x => (update_iff hown x).trans (h.roles.trapframe j x)
          pipe := fun p => by
            by_cases e : p = (k.file f).pipe
            · rw [e, Function.update_self]
              refine iff_of_false (by simp) ?_
              rintro ⟨g, w, hg⟩
              obtain ⟨hg, hgf⟩ := (isEnd_closedEnd (k := k)).1 hg
              by_cases hw : w = (k.file f).writable
              · exact hgf (h.files.single g f _ w hg (hw ▸ hend))
              · have hw' : w = !(k.file f).writable := by
                  cases w <;> cases hc : (k.file f).writable <;> simp_all
                have := (h.files.opened f _ _ hend w).2 ⟨g, hg⟩
                rw [hw', hother] at this
                cases this
            · rw [Function.update_of_ne e]
              exact (h.roles.pipe p).trans (exists_isEnd_closedEnd e).symm
          boot := fun x => (update_iff hown x).trans (h.roles.boot x) }
      spaces := h.spaces.congr fun _ => ⟨rfl, rfl, .inl rfl⟩
      files := (h.files.closedEnd hf href).congr (fun _ => rfl) rfl rfl }

/-- The process table, and what else `file.c` does not touch. -/
structure SameProcs (k k' : Kern) : Prop where
  proc : k'.proc = k.proc
  initproc : k'.initproc = k.initproc
  boot : k'.boot = k.boot

theorem SameProcs.refl (k : Kern) : SameProcs k k := ⟨rfl, rfl, rfl⟩

theorem SameProcs.trans {k'' : Kern} (h : SameProcs k k') (h' : SameProcs k' k'') :
    SameProcs k k'' :=
  ⟨h'.proc.trans h.proc, h'.initproc.trans h.initproc, h'.boot.trans h.boot⟩

theorem fileclose_spec (h : KernOk L k own tabs hand held) (hf : 1 ≤ (k.file f).ref) :
    ∃ k' own', fileclose L f k = .ok ((), k') ∧ KernOk L k' own' tabs (bump hand f (-1)) held ∧
      SameProcs k k' ∧ ∀ g, g ≠ f → k'.file g = k.file g := by
  have hother (x : File) (g : FileId) (e : g ≠ f) : Function.update k.file f x g = k.file g :=
    Function.update_of_ne e _ _
  by_cases hone : (k.file f).ref > 1
  · refine ⟨_, own, ?_, h.setFile (x := { k.file f with ref := (k.file f).ref - 1 })
      (fun e => ⟨e, rfl, rfl⟩) (fun e => e) (fun e => ?_) ?_, ⟨rfl, rfl, rfl⟩, hother _⟩
    · simp only [fileclose]
      rw [run_bind (run_get k), if_neg (by omega), if_pos hone]
      rfl
    · have : (k.file f).ref - 1 = 0 := e
      omega
    · simp only []
      omega
  have href : (k.file f).ref = 1 := by omega
  simp only [fileclose]
  rw [run_bind (run_get k), if_neg (by omega), if_neg hone, run_bind (run_setFile _ _ _)]
  by_cases hpipe : (k.file f).type = .pipe
  · simp only [if_pos hpipe, pipeclose]
    rw [run_bind (run_get _), run_bind (run_modify _ _)]
    have hrun : (if (k.file f).writable = true then
        { k.pipe (k.file f).pipe with writeopen := false }
        else { k.pipe (k.file f).pipe with readopen := false } : Pipe) =
        (k.pipe (k.file f).pipe).close (k.file f).writable := rfl
    simp only [hrun, Pipe.close_shut]
    cases ho : (k.pipe (k.file f).pipe).isOpen (!(k.file f).writable) with
    | true => exact ⟨_, own, rfl, h.closedEnd hpipe href ho, ⟨rfl, rfl, rfl⟩, hother _⟩
    | false =>
      have hown : own (k.file f).pipe = some .pipe :=
        (h.roles.pipe _).2 ⟨f, (k.file f).writable, hpipe, rfl, rfl⟩
      exact ⟨_, _, run_vm (run_kfree h.vm hown (by simp)), h.closedPipe hpipe href ho,
        ⟨rfl, rfl, rfl⟩, hother _⟩
  · rw [if_neg hpipe]
    refine ⟨_, own, rfl, h.setFile (x := { k.file f with ref := 0, type := .none })
      (fun e => absurd e hpipe) (fun e => by cases e) (fun _ => rfl) ?_, ⟨rfl, rfl, rfl⟩, hother _⟩
    rw [href]
    rfl

/-! ## New pipes -/

/-- The kernel with a new pipe in page `pi` between the files `f` and `g`. -/
def withPipe (k : Kern) (t : Phys) (f g : FileId) (pi : ℕ) : Kern :=
  { k with
    phys := t
    pipe := Function.update k.pipe pi ⟨true, true⟩
    file := Function.update
      (Function.update k.file f
        { k.file f with type := .pipe, readable := true, writable := false, pipe := pi }) g
      { k.file g with type := .pipe, readable := false, writable := true, pipe := pi } }

theorem isEnd_withPipe (hfg : f ≠ g) (hf : (k.file f).type = .none) (hg : (k.file g).type = .none)
    {x : FileId} {pi q : ℕ} {w : Bool} : IsEnd (withPipe k t f g pi) x q w ↔
      IsEnd k x q w ∨ q = pi ∧ x = if w then g else f := by
  by_cases eg : x = g
  · subst eg
    cases w
    · simp [IsEnd, withPipe, hg, hfg.symm]
    · simpa [IsEnd, withPipe, hg] using eq_comm
  · by_cases ef : x = f
    · subst ef
      cases w
      · simpa [IsEnd, withPipe, hf, hfg] using eq_comm
      · simp [IsEnd, withPipe, hf, hfg]
    · cases w <;> simp [IsEnd, withPipe, eg, ef]

theorem Files.withPipe (h : Files k hand) (hfg : f ≠ g) (hf : (k.file f).type = .none)
    (hg : (k.file g).type = .none) (hf' : (k.file f).ref ≠ 0) (hg' : (k.file g).ref ≠ 0) {pi : ℕ}
    (hpi : ∀ x w, ¬ IsEnd k x pi w) : Files (withPipe k t f g pi) hand where
  ref x := by
    have hr : refs (Sys.withPipe k t f g pi) x = refs k x := refs_congr (fun _ => rfl) x
    rw [hr, ← h.ref x]
    by_cases eg : x = g
    · subst eg
      simp [Sys.withPipe]
    · by_cases ef : x = f
      · subst ef
        simp [Sys.withPipe, eg]
      · simp [Sys.withPipe, eg, ef]
  closed x hx := by
    by_cases eg : x = g
    · subst eg
      simp [Sys.withPipe, hg'] at hx
    · by_cases ef : x = f
      · subst ef
        simp [Sys.withPipe, eg, hf'] at hx
      · simp only [Sys.withPipe, Function.update_of_ne eg, Function.update_of_ne ef] at hx ⊢
        exact h.closed x hx
  single a b q w ha hb := by
    rw [isEnd_withPipe hfg hf hg] at ha hb
    obtain ha | ⟨rfl, rfl⟩ := ha
    · obtain hb | ⟨rfl, rfl⟩ := hb
      · exact h.single a b q w ha hb
      · exact absurd ha (hpi a w)
    · obtain hb | ⟨-, rfl⟩ := hb
      · exact absurd hb (hpi b w)
      · rfl
  opened a q w ha w' := by
    simp only [isEnd_withPipe hfg hf hg] at ha ⊢
    by_cases e : q = pi
    · subst e
      have hopen : ((Sys.withPipe k t f g q).pipe q).isOpen w' = true := by
        cases w' <;> simp [Sys.withPipe, Pipe.isOpen]
      exact iff_of_true hopen ⟨_, .inr ⟨rfl, rfl⟩⟩
    · have hpipe : (Sys.withPipe k t f g pi).pipe q = k.pipe q := Function.update_of_ne e _ _
      rw [hpipe, h.opened a q w (ha.resolve_right fun h' => e h'.1) w']
      exact exists_congr fun b => ⟨.inl, fun hb => hb.resolve_right fun h' => e h'.1⟩

theorem KernOk.withPipe (h : KernOk L k own tabs hand held) (hfree : own p = some .free)
    (ht : VmOk L.toLayout t (Function.update own p (some .held)) tabs) (hfg : f ≠ g)
    (hf : (k.file f).type = .none) (hg : (k.file g).type = .none) (hf' : (k.file f).ref ≠ 0)
    (hg' : (k.file g).ref ≠ 0) :
    KernOk L (withPipe k t f g p) (Function.update own p (some .pipe)) tabs hand held := by
  have hpi (x : FileId) (w : Bool) : ¬ IsEnd k x p w := fun hx => by
    rw [(h.roles.pipe p).2 ⟨x, w, hx⟩] at hfree
    cases hfree
  exact
    { vm := by
        have := ht.relabel (Function.update_self _ _ _) ⟨by simp, rfl⟩ .pipe ⟨by simp, rfl⟩
        rwa [Function.update_idem] at this
      roles :=
        { held := h.roles.held.update hfree
          trapframe := fun j x => (update_iff hfree x).trans (h.roles.trapframe j x)
          pipe := fun q => by
            simp only [isEnd_withPipe hfg hf hg]
            by_cases e : q = p
            · rw [e, Function.update_self]
              exact iff_of_true rfl ⟨_, false, .inr ⟨rfl, rfl⟩⟩
            · rw [Function.update_of_ne e, h.roles.pipe]
              exact exists_congr fun x => exists_congr fun w =>
                ⟨.inl, fun hx => hx.resolve_right fun h' => e h'.1⟩
          boot := fun x => (update_iff hfree x).trans (h.roles.boot x) }
      spaces := h.spaces.congr fun _ => ⟨rfl, rfl, .inl rfl⟩
      files := h.files.withPipe hfg hf hg hf' hg' hpi }

theorem bump_bump (hand : FileId → ℤ) (f : FileId) : bump (bump hand f 1) f (-1) = hand := by
  funext g
  simp only [bump]
  split_ifs <;> omega

theorem bump_comm (hand : FileId → ℤ) (f g : FileId) (c d : ℤ) :
    bump (bump hand f c) g d = bump (bump hand g d) f c := by
  funext x
  simp only [bump]
  omega

/-- `pipealloc` fails without a trace, or returns the two ends of a new pipe. -/
theorem pipealloc_spec (h : KernOk L k own tabs hand held) :
    ∃ res k' own', pipealloc L k = .ok (res, k') ∧ SameProcs k k' ∧
      (res = none ∧ KernOk L k' own' tabs hand held ∨
        ∃ f g, res = some (f, g) ∧ f ≠ g ∧
          KernOk L k' own' tabs (bump (bump hand f 1) g 1) held) := by
  rw [pipealloc]
  obtain hf | ⟨f, hf₀, hf, hkf⟩ := filealloc_spec h
  · rw [run_bind hf]
    exact ⟨none, k, own, rfl, SameProcs.refl k, .inl ⟨rfl, h⟩⟩
  rw [run_bind hf]
  obtain ⟨k₁, hk₁⟩ : ∃ k₁ : Kern, { k with
    file := Function.update k.file f { k.file f with ref := 1 } } = k₁ := ⟨_, rfl⟩
  have hsame₁ : SameProcs k k₁ := by rw [← hk₁]; exact ⟨rfl, rfl, rfl⟩
  have hfile₁ : k₁.file f = { k.file f with ref := 1 } := by rw [← hk₁]; exact Function.update_self _ _ _
  rw [hk₁] at hkf
  simp only [hk₁]
  obtain hg | ⟨g, hg₀, hg, hkg⟩ := filealloc_spec hkf
  · rw [run_bind hg]
    obtain ⟨k₂, own₂, hrun, hk₂, hsame₂, -⟩ := fileclose_spec hkf (f := f) (by rw [hfile₁])
    rw [bump_bump] at hk₂
    exact ⟨none, k₂, own₂, by simp only [run_bind hrun]; rfl, hsame₁.trans hsame₂, .inl ⟨rfl, hk₂⟩⟩
  rw [run_bind hg]
  have hfg : f ≠ g := by
    rintro rfl
    rw [hfile₁] at hg₀
    cases hg₀
  obtain ⟨k₂, hk₂⟩ : ∃ k₂ : Kern, { k₁ with
    file := Function.update k₁.file g { k₁.file g with ref := 1 } } = k₂ := ⟨_, rfl⟩
  have hsame₂ : SameProcs k k₂ := hsame₁.trans (by rw [← hk₂]; exact ⟨rfl, rfl, rfl⟩)
  have hfile₂ : k₂.file g = { k₁.file g with ref := 1 } := by rw [← hk₂]; exact Function.update_self _ _ _
  have hfile₂' : k₂.file f = { k.file f with ref := 1 } := by
    rw [← hk₂, ← hfile₁]
    exact Function.update_of_ne hfg _ _
  rw [hk₂] at hkg
  simp only [hk₂]
  obtain ⟨p, t, hrun, ⟨rfl, rfl⟩ | ⟨hp, hfree, -, -, hvm, -⟩⟩ := kalloc_zero hkg.vm
  · rw [run_bind (run_vm hrun), if_pos rfl]
    obtain ⟨k₃, own₃, hrun₃, hk₃, hsame₃, hfile₃⟩ := fileclose_spec hkg (f := f) (by rw [hfile₂'])
    rw [bump_comm, bump_bump] at hk₃
    obtain ⟨k₄, own₄, hrun₄, hk₄, hsame₄, -⟩ := fileclose_spec hk₃ (f := g)
      (by rw [hfile₃ g hfg.symm, hfile₂])
    rw [bump_bump] at hk₄
    refine ⟨none, k₄, own₄, ?_, (hsame₂.trans hsame₃).trans hsame₄, .inl ⟨rfl, hk₄⟩⟩
    rw [run_bind hrun₃, run_bind hrun₄]
    rfl
  · rw [run_bind (run_vm hrun), if_neg hp, run_bind (run_modify _ _), run_bind (run_setFile _ _ _),
      run_bind (run_setFile _ _ _)]
    have hf_none : (k₂.file f).type = .none := by
      rw [hfile₂']
      exact h.files.closed f hf₀
    have hg_none : (k₂.file g).type = .none := by
      rw [hfile₂]
      exact hkf.files.closed g hg₀
    have hk₃ := hkg.withPipe hfree hvm hfg hf_none hg_none (by rw [hfile₂']; simp)
      (by rw [hfile₂]; simp)
    refine ⟨some (f, g), withPipe k₂ t f g p, _, ?_, hsame₂.trans ⟨rfl, rfl, rfl⟩,
      .inr ⟨f, g, rfl, hfg, hk₃⟩⟩
    simp only [withPipe, Function.update_of_ne hfg.symm]
    rfl

end Xv6.Sys
