import Xv6.Files.Invariant

/-!
# The steps of the open-file table

Every step of a process is an `Effect`, so the invariant holds in every run.
-/

namespace Xv6.Files

open Shares

variable {nproc nfile nofile : ℕ} {s s' : State nproc nfile nofile} {i j : Fin nproc} {f : Fin nfile}
  {pc pc₀ : Pc nproc nfile nofile}

/-! ## Updates -/

namespace State

variable (s : State nproc nfile nofile) (i : Fin nproc) (p : Proc nproc nfile nofile)

@[simp] theorem setProc_self : (s.setProc i p).proc i = p := Function.update_self _ _ _

@[simp] theorem setProc_ne (h : j ≠ i) : (s.setProc i p).proc j = s.proc j := Function.update_of_ne h _ _

@[simp] theorem setPc_self : (s.setPc i pc).proc i = { s.proc i with pc := pc } := setProc_self _ _ _

@[simp] theorem setPc_ne (h : j ≠ i) : (s.setPc i pc).proc j = s.proc j := setProc_ne _ _ _ h

@[simp] theorem setPc_file : (s.setPc i pc).file = s.file := rfl

@[simp] theorem setFd_self (fd : Fin nofile) (x : Option (Fin nfile)) :
    (s.setFd i fd x).proc i = { s.proc i with ofile := Function.update (s.proc i).ofile fd x } :=
  setProc_self _ _ _

@[simp] theorem setFd_ne (fd : Fin nofile) (x : Option (Fin nfile)) (h : j ≠ i) :
    (s.setFd i fd x).proc j = s.proc j := setProc_ne _ _ _ h

@[simp] theorem setState_self (x : ProcState) : (s.setState i x).proc i = { s.proc i with state := x } :=
  setProc_self _ _ _

@[simp] theorem setState_ne (x : ProcState) (h : j ≠ i) : (s.setState i x).proc j = s.proc j :=
  setProc_ne _ _ _ h

@[simp] theorem setFile_proc (x : File) : (s.setFile f x).proc = s.proc := rfl

@[simp] theorem setFile_self (x : File) : (s.setFile f x).file f = x := Function.update_self _ _ _

@[simp] theorem setFile_ne {g : Fin nfile} (x : File) (h : g ≠ f) : (s.setFile f x).file g = s.file g :=
  Function.update_of_ne h _ _

@[simp] theorem addRef_proc (ip : ℕ) (n : ℤ) : (s.addRef ip n).proc = s.proc := rfl

end State

/-! ## Effects -/

/-- A step that changes neither pipes nor other processes. -/
theorem effect_files (h : Inv s) (hstop : s'.stop = s.stop) (hpipe : s'.pipe = s.pipe)
    (hnotes : s'.notes = s.notes) (hproc : ∀ y, y ≠ i → s'.proc y = s.proc y)
    (hfiles : ∀ f, FileTouch s s' i f) (hbal : s'.excess = 0) (hown : ProcOk s' (s'.proc i)) :
    Effect s s' i where
  stop := hstop.trans h.stop
  balanced := hbal
  files := hfiles
  procs y hy := .inl (hproc y hy)
  own := hown
  pages pi := by
    rw [hpipe, hnotes]
    exact h.pages pi

theorem ProcOk.of_live {p : Proc nproc nfile nofile} (hl : p.state = .live) (ht : Typed s p)
    (hok : p.pc.Ok s p) (hcwd : p.cwd ≠ none) : ProcOk s p := by
  rw [ProcOk, hl]
  exact ⟨ht, hok, fun _ => hcwd⟩

/-- The descriptors stay set up when a file keeps its type and no descriptor is new. -/
theorem Typed.mono {p p' : Proc nproc nfile nofile} (h : Typed s p)
    (htype : ∀ g, (s.file g).type ≠ .none → (s'.file g).type ≠ .none)
    (hslot : ∀ fd g, p'.ofile fd = some g → p'.pc.stale ≠ some fd → p.ofile fd = some g ∧ p.pc.stale ≠ some fd) :
    Typed s' p' := by
  intro fd g hg hst
  obtain ⟨hg', hst'⟩ := hslot fd g hg hst
  exact htype g (h fd g hg' hst')

/-- A process that a step finds at a point with its current directory open. -/
structure Running (s : State nproc nfile nofile) (i : Fin nproc) (pc : Pc nproc nfile nofile) : Prop where
  live : (s.proc i).state = .live
  pc_eq : (s.proc i).pc = pc
  cwd : (s.proc i).cwd ≠ none

theorem Running.ok (h : Inv s) (hr : Running s i pc) : pc.Ok s (s.proc i) := by
  have := (h.proc i).pc_ok
  rwa [hr.pc_eq] at this

theorem Running.one_le (h : Inv s) (hr : Running s i pc) {r : Resource nproc nfile} (hm : r ∈ pc.holds) :
    1 ≤ (s.proc i).share r :=
  (h.proc i).one_le_of_holds (by rwa [hr.pc_eq])

theorem Running.procOk {t : State nproc nfile nofile} {o : Fin nofile → Option (Fin nfile)}
    (hr : Running s i pc₀) (ht : Typed t { s.proc i with ofile := o, pc := pc })
    (hok : pc.Ok t { s.proc i with ofile := o }) : ProcOk t { s.proc i with ofile := o, pc := pc } :=
  ProcOk.of_live hr.live ht (by cases pc <;> exact hok) hr.cwd

theorem effect_own {o : Fin nofile → Option (Fin nfile)} (h : Inv s)
    (hr : Running s i pc₀) (hstop : s'.stop = s.stop) (hfile : s'.file = s.file)
    (hproc : ∀ y, y ≠ i → s'.proc y = s.proc y) (hself : s'.proc i = { s.proc i with ofile := o })
    (hbal : s'.excess + pc.balance = pc₀.balance)
    (htyped : ∀ fd g, o fd = some g → pc.stale ≠ some fd →
      (s.proc i).ofile fd = some g ∧ pc₀.stale ≠ some fd ∨ (s.file g).type ≠ .none)
    (hok : pc.Ok (s'.setPc i pc) { s.proc i with ofile := o })
    (hnotes : ∀ x, s'.notes.count (.alloc x) = s'.notes.count (.free x) +
      if (s'.pipe x).allocated then 1 else 0) : Effect s (s'.setPc i pc) i where
  stop := hstop.trans h.stop
  balanced := by rw [State.excess_setPc, hself, hr.pc_eq, hbal, sub_self]
  files g := .inl (by rw [State.setPc_file, hfile])
  procs y hy := .inl (by rw [State.setPc_ne _ _ hy, hproc y hy])
  own := by
    rw [State.setPc_self, hself]
    refine hr.procOk (fun fd g hg hst => ?_) hok
    rw [State.setPc_file, hfile]
    obtain ⟨hg', hst'⟩ | hg' := htyped fd g hg hst
    · exact (h.proc i).typed fd g hg' (by rwa [hr.pc_eq])
    · exact hg'
  pages := hnotes

theorem effect_pipe (h : Inv s) (hr : Running s i pc₀)
    (hstop : s'.stop = s.stop) (hfile : s'.file = s.file) (hproc : s'.proc = s.proc)
    (hbal : s'.excess + pc.balance = pc₀.balance) (hok : pc.Ok (s'.setPc i pc) (s.proc i))
    (hnotes : ∀ x, s'.notes.count (.alloc x) = s'.notes.count (.free x) +
      if (s'.pipe x).allocated then 1 else 0)
    (hstale : ∀ fd, pc₀.stale = some fd → pc.stale = some fd := by simp) : Effect s (s'.setPc i pc) i :=
  effect_own h hr hstop hfile (fun _ _ => by rw [hproc]) (by rw [hproc]) hbal
    (fun fd _ hg hst => .inl ⟨hg, fun e => hst (hstale fd e)⟩) hok hnotes

theorem effect_setPc (h : Inv s) (hr : Running s i pc₀)
    (hbal : pc.balance = pc₀.balance) (hok : pc.Ok (s.setPc i pc) (s.proc i))
    (hstale : ∀ fd, pc₀.stale = some fd → pc.stale = some fd := by simp) : Effect s (s.setPc i pc) i :=
  effect_pipe h hr rfl rfl rfl (by rw [h.balanced, hbal, zero_add]) hok h.pages hstale

theorem effect_file {x : File} (h : Inv s) (hr : Running s i pc₀)
    (htouch : ((s.file f).ref = 0 ∧ x = { s.file f with ref := 1 }) ∨
      (1 ≤ (s.proc i).share (.file f) ∧ (x.ref = 0 → x.type = .none) ∧
        ((s.file f).ref = 1 ∨ x.type = (s.file f).type)))
    (hbal : units x.holds + pc.balance =
      units (s.file f).holds + pc₀.balance + (x.ref - (s.file f).ref) • unit (.file f))
    (htyped : Typed (s.setFile f x) { s.proc i with pc := pc })
    (hok : pc.Ok ((s.setFile f x).setPc i pc) (s.proc i)) : Effect s ((s.setFile f x).setPc i pc) i := by
  refine effect_files h rfl rfl rfl (fun y hy => State.setPc_ne _ i hy) (fun g => ?_) ?_ ?_
  · by_cases hg : g = f
    · subst hg
      rw [FileTouch, State.setPc_file, State.setFile_self]
      exact .inr htouch
    · exact .inl (by rw [State.setPc_file, State.setFile_ne _ _ hg])
  · rw [State.excess_setPc, State.excess_setFile, h.balanced, State.setFile_proc, hr.pc_eq]
    calc _ = units x.holds + pc.balance - (units (s.file f).holds + pc₀.balance +
          (x.ref - (s.file f).ref) • unit (.file f)) := by abel
      _ = 0 := by rw [hbal, sub_self]
  · rw [State.setPc_self]
    exact hr.procOk htyped hok

theorem typed_setFile {x : File} (h : Inv s) (hr : Running s i pc₀)
    (hx : x.type = (s.file f).type) (hstale : ∀ fd, pc₀.stale = some fd → pc.stale = some fd := by simp) :
    Typed (s.setFile f x) { s.proc i with pc := pc } := by
  refine (h.proc i).typed.mono (fun g hg => ?_) fun fd g hg hst => ⟨hg, ?_⟩
  · by_cases e : g = f
    · subst e
      rw [State.setFile_self, hx]
      exact hg
    · rwa [State.setFile_ne _ _ e]
  · rw [hr.pc_eq]
    exact fun e => hst (hstale fd e)

theorem filealloc_spec (hf : filealloc s = some f) : (s.file f).ref = 0 := by
  simpa using List.find?_some hf

theorem fdalloc_spec {ofile : Fin nofile → Option (Fin nfile)} {fd : Fin nofile}
    (h : fdalloc ofile = some fd) : ofile fd = none := by
  simpa using List.find?_some h

theorem argfd_spec {p : Proc nproc nfile nofile} {n : ℤ} {fd : Fin nofile}
    (h : argfd p n = some (fd, f)) : p.ofile fd = some f := by
  unfold argfd at h
  split_ifs at h
  obtain ⟨g, hg, e⟩ := Option.map_eq_some_iff.1 h
  cases e
  exact hg

theorem filealloc_effect (h : Inv s) (hr : Running s i pc₀)
    (hf : filealloc s = some f) (hbal : pc.balance = pc₀.balance + unit (.file f))
    (hok : ∀ t : State nproc nfile nofile, Fresh t f → (∀ g, Fresh s g → Fresh t g) → pc.Ok t (s.proc i))
    (hstale : ∀ fd, pc₀.stale = some fd → pc.stale = some fd := by simp) :
    Effect s ((s.setFile f { s.file f with ref := 1 }).setPc i pc) i := by
  have href := filealloc_spec hf
  refine effect_file h hr (.inl ⟨href, rfl⟩) ?_ (typed_setFile h hr rfl hstale) (hok _ ?_ fun g hg => ?_)
  · simp only [href, sub_zero, one_smul, hbal]
    rw [add_assoc]
    rfl
  · rw [Fresh, State.setPc_file, State.setFile_self]
    exact ⟨rfl, h.closed f href⟩
  · have hne : g ≠ f := by
      rintro rfl
      rw [hg.1] at href
      cases href
    rw [Fresh, State.setPc_file, State.setFile_ne _ _ hne]
    exact hg

theorem filedup_effect (h : Inv s) (hr : Running s i pc₀)
    (hshare : 1 ≤ (s.proc i).share (.file f)) (hbal : pc.balance = pc₀.balance + unit (.file f))
    (hok : ∀ t : State nproc nfile nofile, (∀ y, y ≠ i → t.proc y = s.proc y) → pc.Ok t (s.proc i))
    (hstale : ∀ fd, pc₀.stale = some fd → pc.stale = some fd := by simp) :
    Effect s (filedup s i f pc) i := by
  have href : 1 ≤ (s.file f).ref := hshare.trans (h.share_le i (.file f))
  rw [filedup, if_neg (by omega)]
  refine effect_file h hr (.inr ⟨hshare, fun e => ?_, .inr rfl⟩) ?_ (typed_setFile h hr rfl hstale)
    (hok _ fun y hy => State.setPc_ne _ i hy)
  · simp only at e
    omega
  · simp only [add_sub_cancel_left, one_smul, hbal]
    rw [add_assoc]
    rfl

/-! ## Closing -/

theorem After.pc_stale (k : After nfile nofile) : (k.pc : Pc nproc nfile nofile).stale = k.stale := by
  cases k <;> rfl

theorem After.pc_ok {k : After nfile nofile} {p : Proc nproc nfile nofile} (h : k.Ok p.ofile) :
    k.pc.Ok s p := by
  cases k with
  | exit fd f => exact h
  | _ => trivial

theorem fileclose_effect {after : After nfile nofile} (h : Inv s) (hr : Running s i (.close f after)) :
    Effect s (fileclose s i f after) i := by
  have hi := h.proc i
  have hok : after.Ok (s.proc i).ofile := hr.ok h
  have hmem : .file f ∈ (s.proc i).pc.holds := by simp [hr.pc_eq, Pc.holds]
  have hshare := hi.one_le_of_holds hmem
  have hle : (s.proc i).share (.file f) ≤ (s.file f).ref := h.share_le i (.file f)
  unfold fileclose
  simp only [show ¬ (s.file f).ref < 1 by omega, if_false]
  split_ifs with hmore
  · refine effect_file h hr (.inr ⟨hshare, fun e => ?_, .inr rfl⟩) ?_ (typed_setFile h hr rfl ?_)
      (After.pc_ok hok)
    · simp only at e
      omega
    · have hholds : File.holds { s.file f with ref := (s.file f).ref - 1 } =
          ((s.file f).holds : List (Resource nproc nfile)) := rfl
      simp only [hholds, Pc.balance_close, sub_sub_cancel_left, neg_smul, one_smul]
      abel
    · intro fd e
      rwa [After.pc_stale]
  · have hone : (s.file f).ref = 1 := by omega
    -- the last reference: no descriptor of this process counts beside it
    have htyped {pc : Pc nproc nfile nofile} (hst : pc.stale = after.stale) :
        Typed (s.setFile f { s.file f with ref := 0, type := .none }) { s.proc i with pc := pc } := by
      intro fd g hg hstale
      simp only [hst] at hstale
      have hne : g ≠ f := by
        rintro rfl
        have hslot := hi.slot_le hg fun _ => by rw [hr.pc_eq]; exact hstale
        have hunits : 1 ≤ units (s.proc i).pc.holds (.file g) := by
          rw [units_apply]
          exact_mod_cast List.count_pos_iff.2 hmem
        omega
      rw [State.setFile_ne _ _ hne]
      exact hi.typed fd g hg (by rw [hr.pc_eq]; exact hstale)
    have hlast {pc : Pc nproc nfile nofile} (hst : pc.stale = after.stale)
        (hbal : pc.balance = units (s.file f).holds + after.pc.balance)
        (hpc : ∀ t, pc.Ok t (s.proc i)) :
        Effect s ((s.setFile f { s.file f with ref := 0, type := .none }).setPc i pc) i := by
      refine effect_file h hr (.inr ⟨hshare, fun _ => rfl, .inl hone⟩) ?_ (htyped hst) (hpc _)
      simp only [hbal, hone, Pc.balance_close, File.holds, units_nil, zero_sub, neg_smul, one_smul]
      abel
    cases htype : (s.file f).type with
    | none => exact hlast (After.pc_stale after) (by simp [File.holds, htype]) fun t => After.pc_ok hok
    | pipe =>
      exact hlast rfl (by simp [File.holds, htype, Pc.balance_closePipe]) fun t => hok
    | inode | device =>
      exact hlast rfl (by simp [File.holds, htype, Pc.balance_iput]) fun t => hok

theorem Pipe.count_pipeEnd (p : Pipe) (pi : ℕ) (w : Bool) :
    p.count pi (.pipeEnd pi w : Resource nproc nfile) = if p.isOpen w then 1 else 0 := by
  cases w <;> cases hr : p.readopen <;> cases hw : p.writeopen <;> cases ha : p.allocated <;>
    simp [Pipe.count, Pipe.isOpen, hr, hw, ha, unit_apply]

theorem Pipe.count_page (p : Pipe) (pi : ℕ) :
    p.count pi (.page pi : Resource nproc nfile) =
      (if p.allocated then 1 else 0) - if p.readopen ∨ p.writeopen then 1 else 0 := by
  cases hr : p.readopen <;> cases hw : p.writeopen <;> cases ha : p.allocated <;>
    simp [Pipe.count, hr, hw, ha, unit_apply]

theorem Inv.allocated_of_open (h : Inv s) {pi : ℕ} {w : Bool} (ho : (s.pipe pi).isOpen w = true) :
    (s.pipe pi).allocated = true := by
  have hpage := h.count_nonneg (.page pi)
  have hor : (s.pipe pi).readopen = true ∨ (s.pipe pi).writeopen = true := by
    cases w
    · exact .inl ho
    · exact .inr ho
  simp only [State.count, Pipe.count_page, if_pos hor] at hpage
  by_contra hna
  simp [hna] at hpage

theorem pipeclose_effect {pi : ℕ} {w : Bool} {after : After nfile nofile} (h : Inv s)
    (hr : Running s i (.closePipe pi w after)) : Effect s (pipeclose s i pi w after) i := by
  have hok : after.Ok (s.proc i).ofile := hr.ok h
  have hopen : (s.pipe pi).isOpen w = true := by
    have hshare := (hr.one_le h List.mem_cons_self).trans (h.share_le i (.pipeEnd pi w))
    by_contra hno
    simp [State.count, Pipe.count_pipeEnd, hno] at hshare
  have hall := h.allocated_of_open hopen
  have hpages (x : ℕ) : (s.setPipe pi ((s.pipe pi).close w)).notes.count (.alloc x) =
      (s.setPipe pi ((s.pipe pi).close w)).notes.count (.free x) +
      if ((s.setPipe pi ((s.pipe pi).close w)).pipe x).allocated then 1 else 0 := by
    have hsame : ((s.setPipe pi ((s.pipe pi).close w)).pipe x).allocated = (s.pipe x).allocated := by
      by_cases e : x = pi
      · subst e
        cases w <;> simp [State.setPipe, Pipe.close]
      · simp [State.setPipe, e]
    rw [hsame]
    exact h.pages x
  rw [pipeclose, if_neg (by simp [hall])]
  refine effect_pipe h hr rfl rfl rfl ?_ ?_ hpages ?_
  · rw [State.excess_setPipe, h.balanced, Pc.balance_closePipe]
    cases w <;> simp only [Pipe.isOpen, if_true, Bool.false_eq_true, if_false] at hopen
    · cases hw : (s.pipe pi).writeopen
      · simp [Pipe.count, Pipe.close, hopen, hall, hw, Pc.balance_closeFree]
        abel
      · simp [Pipe.count, Pipe.close, hopen, hall, hw]
    · cases hro : (s.pipe pi).readopen
      · simp [Pipe.count, Pipe.close, hopen, hall, hro, Pc.balance_closeFree]
        abel
      · simp [Pipe.count, Pipe.close, hopen, hall, hro]
  · split_ifs
    · exact hok
    · exact After.pc_ok hok
  · intro fd e
    split_ifs
    · exact e
    · rwa [After.pc_stale]

theorem kfree_effect {pi : ℕ} {after : After nfile nofile} (h : Inv s) (hr : Running s i (.closeFree pi after)) :
    Effect s (kfree s i pi after) i := by
  have hok : after.Ok (s.proc i).ofile := hr.ok h
  have hpage := (hr.one_le h List.mem_cons_self).trans (h.share_le i (.page pi))
  rw [State.count, Pipe.count_page] at hpage
  obtain ⟨hall, hclosed⟩ : (s.pipe pi).allocated = true ∧
      ¬ ((s.pipe pi).readopen = true ∨ (s.pipe pi).writeopen = true) := by
    split_ifs at hpage <;> simp_all
  simp only [not_or, Bool.not_eq_true] at hclosed
  rw [kfree, if_neg (by simp [hall])]
  refine effect_pipe h hr rfl rfl rfl ?_ (After.pc_ok hok) (fun x => ?_) fun fd e => by rwa [After.pc_stale]
  · rw [State.excess_note, State.excess_setPipe, h.balanced, Pc.balance_closeFree]
    simp [Pipe.count, hall, hclosed.1, hclosed.2]
  · have := h.pages x
    by_cases e : x = pi
    · subst e
      simp [State.note, State.setPipe, hall] at this ⊢
      omega
    · simp [State.note, State.setPipe, e, Ne.symm e] at this ⊢
      exact this

theorem effect_addRef {ip : ℕ} {n : ℤ} (h : Inv s) (hr : Running s i pc₀)
    (hbal : pc.balance = pc₀.balance + n • unit (.inode ip)) (hok : pc.Ok ((s.addRef ip n).setPc i pc) (s.proc i))
    (hstale : ∀ fd, pc₀.stale = some fd → pc.stale = some fd := by simp) : Effect s ((s.addRef ip n).setPc i pc) i := by
  refine effect_pipe h hr rfl rfl rfl ?_ hok h.pages hstale
  rw [State.excess_addRef, h.balanced, hbal]
  abel

/-! ## Opening -/

attribute [local simp] Pc.balance Pc.holds Pc.debt Pc.stale After.holds After.debt After.stale

/-- A file that the process alone holds is set up. -/
theorem setup_effect {x : File} (h : Inv s) (hr : Running s i pc₀)
    (hfresh : Fresh s f) (hshare : 1 ≤ (s.proc i).share (.file f)) (href : x.ref = 1) (hx : x.type ≠ .none)
    (hbal : units x.holds + pc.balance = pc₀.balance)
    (hok : ∀ t : State nproc nfile nofile, t.file = Function.update s.file f x → pc.Ok t (s.proc i))
    (hstale : ∀ fd, pc₀.stale = some fd → (s.proc i).ofile fd = some f := by simp) :
    Effect s ((s.setFile f x).setPc i pc) i := by
  refine effect_file h hr (.inr ⟨hshare, fun e => ?_, .inl hfresh.1⟩) ?_ ?_ (hok _ rfl)
  · rw [href] at e
    cases e
  · rw [hbal, href, hfresh.1, File.holds, hfresh.2]
    simp
  · intro fd g hg hst
    by_cases e : g = f
    · rw [e, State.setFile_self]
      exact hx
    · rw [State.setFile_ne _ _ e]
      refine (h.proc i).typed fd g hg ?_
      rw [hr.pc_eq]
      intro hst'
      rw [hstale fd hst'] at hg
      exact e (Option.some.inj hg).symm

theorem open_effect {c : Choice nproc} (h : Inv s) (hr : Running s i pc) (hs : openCode s i c pc = some s') :
    Effect s s' i := by
  have hok := hr.ok h
  cases pc <;> simp only [openCode, reduceCtorEq] at hs
  case openPath omode =>
    split at hs
    · cases hs
      exact effect_setPc h hr rfl trivial
    · rename_i ip inode
      have hput : Effect s ((s.addRef ip 1).setPc i (.iput ip .ret)) i :=
        effect_addRef h hr (by simp) trivial
      split_ifs at hs <;> cases hs
      · exact hput
      · exact hput
      · exact effect_addRef h hr (by simp) trivial
    · cases hs
  case openAlloc omode ip inode =>
    split at hs <;> cases hs
    case h_1 =>
      exact effect_setPc h hr (by simp) trivial
    case h_2 f hf =>
      exact filealloc_effect h hr hf (by simp [add_comm]) fun t ht _ => ht
  case openFd omode ip inode f =>
    split at hs <;> cases hs
    case h_1 =>
      exact effect_setPc h hr (by simp) trivial
    case h_2 fd hfd =>
      have hnone := fdalloc_spec hfd
      refine effect_own h hr rfl rfl (fun y hy => s.setFd_ne i fd (some f) hy) (s.setFd_self i fd (some f)) ?_
        (fun x g hg hst => ?_) ⟨hok, Function.update_self _ _ _⟩ h.pages
      · rw [State.excess_setFd, h.balanced, hnone]
        simp
      · have hx : x ≠ fd := fun e => hst (by rw [e]; rfl)
        rw [Function.update_of_ne hx] at hg
        exact .inl ⟨hg, by simp⟩
  case openSet omode ip inode f fd =>
    cases hs
    refine setup_effect h hr hok.1 ((h.proc i).one_le_of_slot hok.2 fun e => ?_) hok.1.1 ?_ ?_
      (fun t ht => trivial) fun x e => ?_
    · rw [hr.pc_eq] at e
      cases e
    · simp only [opened]
      split_ifs <;> simp
    · simp only [opened, File.holds]
      split_ifs <;> simp
    · cases e
      exact hok.2

theorem pipePage_effect {f0 f1 : Fin nfile} {pi : ℕ} (h : Inv s) (hr : Running s i (.pipePage f0 f1))
    (hna : (s.pipe pi).allocated = false) :
    Effect s (((s.setPipe pi ⟨true, true, true⟩).note (.alloc pi)).setPc i (.pipeRead f0 f1 pi)) i := by
  have hclosed (w : Bool) : (s.pipe pi).isOpen w = false := by
    by_contra ho
    rw [h.allocated_of_open (Bool.not_eq_false _ ▸ ho)] at hna
    cases hna
  have hro : (s.pipe pi).readopen = false := hclosed false
  have hwo : (s.pipe pi).writeopen = false := hclosed true
  refine effect_pipe h hr rfl rfl rfl ?_ (hr.ok h) fun x => ?_
  · rw [State.excess_note, State.excess_setPipe, h.balanced]
    simp only [Pipe.count, hro, hwo, hna]
    simp
    abel
  · have := h.pages x
    by_cases e : x = pi
    · subst e
      simp [State.note, State.setPipe, hna] at this ⊢
      exact this
    · simp [State.note, State.setPipe, e, Ne.symm e] at this ⊢
      exact this

theorem pipe_effect {c : Choice nproc} (h : Inv s) (hr : Running s i pc) (hs : pipeCode s i c pc = some s') :
    Effect s s' i := by
  have hok := hr.ok h
  have hi := h.proc i
  cases pc <;> simp only [pipeCode, reduceCtorEq] at hs
  case pipeFirst =>
    split at hs <;> cases hs
    case h_1 => exact effect_setPc h hr rfl trivial
    case h_2 f hf =>
      exact filealloc_effect h hr hf (by simp)
        fun t ht _ => ht
  case pipeSecond f0 =>
    split at hs <;> cases hs
    case h_1 =>
      exact effect_setPc h hr (by simp) trivial
    case h_2 f hf =>
      exact filealloc_effect h hr hf (by simp)
        fun t ht hold => ⟨hold f0 hok, ht⟩
  case pipePage f0 f1 =>
    split at hs
    · cases hs
      exact effect_setPc h hr (by simp) trivial
    · split_ifs at hs with hna
      cases hs
      exact pipePage_effect h hr (Bool.not_eq_true _ ▸ hna)
    · cases hs
  case pipeRead f0 f1 pi =>
    cases hs
    refine setup_effect h hr hok.1 (hr.one_le h (by simp)) hok.1.1 (by simp)
      (by simp [File.holds]; abel) fun t ht => ?_
    have hne : f1 ≠ f0 := by
      -- the two references are more than the count of one file
      rintro rfl
      have hunits := (hi.units_le (.file f1)).trans (h.share_le i (.file f1))
      simp [hr.pc_eq, Pc.holds, unit_apply, State.count, hok.1.1] at hunits
    rw [Pc.Ok, Fresh, ht, Function.update_self, Function.update_of_ne hne]
    exact ⟨rfl, hok.2⟩
  case pipeWrite f0 f1 pi =>
    cases hs
    refine setup_effect h hr hok.2 (hr.one_le h (by simp)) hok.2.1 (by simp)
      (by simp [File.holds]; abel) fun t ht => ?_
    have hne : f0 ≠ f1 := by
      rintro rfl
      exact absurd (hok.1.symm.trans hok.2.2) (by simp)
    rw [Pc.Ok, ht, Function.update_self, Function.update_of_ne hne]
    exact ⟨hok.1, rfl⟩
  case pipeFds f0 f1 =>
    split at hs
    · cases hs
      exact effect_setPc h hr (by simp) trivial
    · rename_i fd0 hfd0
      have hnone0 := fdalloc_spec hfd0
      split at hs <;> cases hs
      case h_1 =>
        refine effect_own h hr rfl rfl (fun y hy => by simp [hy]) (o := (s.proc i).ofile) ?_ ?_
          (fun x g hg _ => .inl ⟨hg, by simp⟩) trivial h.pages
        · simp only [State.setFd_self, Function.update_idem, ← hnone0, Function.update_eq_self]
        · rw [State.excess_setFd, State.excess_setFd, h.balanced, hnone0]
          simp
      case h_2 fd1 hfd1 =>
        have hnone1 := fdalloc_spec hfd1
        have hne : fd0 ≠ fd1 := by
          rintro rfl
          simp at hnone1
        refine effect_own h hr rfl rfl (fun y hy => by simp [hy]) (by rw [State.setFd_self, State.setFd_self]) ?_
          (fun x g hg hst => ?_) ⟨?_, ?_, hne⟩ h.pages
        · rw [State.excess_setFd, State.excess_setFd, h.balanced, hnone0, hnone1]
          simp
        · simp only [Function.update_apply] at hg
          split_ifs at hg
          · cases hg
            simp [hok.2]
          · cases hg
            simp [hok.1]
          · exact .inl ⟨hg, by simp⟩
        · simp [hne]
        · simp
  case pipeCopy f0 f1 fd0 fd1 =>
    split at hs
    · split_ifs at hs <;> cases hs
      · exact effect_setPc h hr rfl trivial
      · refine effect_own h hr rfl rfl (fun y hy => by simp [hy]) (by rw [State.setFd_self, State.setFd_self]) ?_
          (fun x g hg hst => .inl ⟨?_, by simp⟩) trivial h.pages
        · rw [State.excess_setFd, State.excess_setFd, h.balanced, State.setFd_self, hok.1]
          simp [Ne.symm hok.2.2, hok.2.1]
        · simp only [Function.update_apply] at hg
          split_ifs at hg
          exact hg
    · cases hs

/-! ## Processes -/

theorem ne_of_used (hr : Running s i pc) (hj : (s.proc j).state ≠ .live) : j ≠ i := by
  rintro rfl
  exact hj hr.live

theorem effect_child (h : Inv s) (hr : Running s i pc₀)
    (hj : (s.proc j).state = .unused ∨ (s.proc j).state = .used ∧ .child j ∈ pc₀.holds)
    (hstop : s'.stop = s.stop) (hfile : s'.file = s.file) (hpipe : s'.pipe = s.pipe)
    (hnotes : s'.notes = s.notes) (hproc : ∀ y, y ≠ j → s'.proc y = s.proc y)
    (hbal : s'.excess + pc.balance = pc₀.balance)
    (hok : ∀ t : State nproc nfile nofile, t.proc j = s'.proc j → pc.Ok t (s.proc i))
    (hchild : ProcOk (s'.setPc i pc) (s'.proc j))
    (hstale : ∀ fd, pc₀.stale = some fd → pc.stale = some fd := by simp) : Effect s (s'.setPc i pc) i := by
  have hlive : (s.proc j).state ≠ .live := by
    obtain e | ⟨e, -⟩ := hj <;> rw [e] <;> decide
  have hij := ne_of_used hr hlive
  refine ⟨hstop.trans h.stop, ?_, fun g => .inl (by rw [State.setPc_file, hfile]), fun y hy => ?_, ?_, fun pi => ?_⟩
  · rw [State.excess_setPc, hproc i hij.symm, hr.pc_eq, hbal, sub_self]
  · rw [State.setPc_ne _ _ hy]
    by_cases e : y = j
    · subst e
      refine .inr ⟨hlive, fun e => ?_, hchild⟩
      obtain e' | ⟨-, hm⟩ := hj
      · rw [e'] at e
        cases e
      · exact hr.one_le h hm
    · exact .inl (hproc y e)
  · rw [State.setPc_self, hproc i hij.symm]
    refine hr.procOk ((h.proc i).typed.mono (fun g hg => ?_) fun fd g hg hst => ⟨hg, ?_⟩)
      (hok _ (State.setPc_ne _ _ hij))
    · rwa [State.setPc_file, hfile]
    · rw [hr.pc_eq]
      exact fun e => hst (hstale fd e)
  · have hp : (s'.setPc i pc).pipe = s.pipe := hpipe
    have hn : (s'.setPc i pc).notes = s.notes := hnotes
    rw [hp, hn]
    exact h.pages pi

theorem State.excess_setState (s : State nproc nfile nofile) (j : Fin nproc) (x : ProcState) :
    (s.setState j x).excess = s.excess - ((if x = .used then unit (.child j) else 0) -
      if (s.proc j).state = .used then unit (.child j) else 0) := by
  rw [State.setState, State.excess_setProc]
  simp only [Proc.share, Proc.count]
  abel

theorem ProcOk.dead (h : ProcOk s (s.proc j)) (hj : (s.proc j).state = .unused ∨ (s.proc j).state = .zombie) :
    (s.proc j).pc = .user ∧ (∀ fd, (s.proc j).ofile fd = none) ∧ (s.proc j).cwd = none := by
  unfold ProcOk at h
  obtain e | e := hj <;> rwa [e] at h

theorem ProcOk.used (h : ProcOk s (s.proc j)) (hj : (s.proc j).state = .used) :
    (s.proc j).pc = .user ∧ Typed s (s.proc j) := by
  unfold ProcOk at h
  rwa [hj] at h

theorem fork_effect {c : Choice nproc} (h : Inv s) (hr : Running s i pc) (hs : forkCode s i c pc = some s') :
    Effect s s' i := by
  have hok := hr.ok h
  have hi := h.proc i
  cases pc <;> simp only [forkCode, reduceCtorEq] at hs
  case fork =>
    split at hs
    · cases hs
      exact effect_setPc h hr rfl trivial
    · rename_i j
      split_ifs at hs with hj
      cases hs
      obtain ⟨hpc, hofile, hcwd⟩ := (h.proc j).dead (.inl hj)
      refine effect_child h hr (.inl hj) rfl rfl rfl rfl (fun y hy => s.setState_ne j .used hy) ?_ (fun t ht => ?_) ?_
      · rw [State.excess_setState, h.balanced, hj]
        simp
      · rw [Pc.Ok, Child, ht, State.setState_self]
        exact ⟨rfl, hcwd, fun x _ => hofile x⟩
      · rw [State.setState_self]
        exact ⟨hpc, fun fd g hg => by simp [hofile fd] at hg⟩
    · cases hs
  case forkCopy j =>
    split at hs
    · split_ifs at hs <;> cases hs
      · refine effect_setPc h hr rfl ?_
        rw [Pc.Ok, Child, State.setPc_ne _ _ (ne_of_used hr (by rw [hok.1]; simp))]
        exact hok
      · refine effect_child h hr (.inr ⟨hok.1, by simp⟩) rfl rfl rfl rfl (fun y hy => s.setState_ne j .unused hy) ?_
          (fun _ _ => trivial) ?_
        · rw [State.excess_setState, h.balanced, hok.1]
          simp
        · rw [State.setState_self]
          exact ⟨((h.proc j).used hok.1).1, fun x => hok.2.2 x (Nat.zero_le _), hok.2.1⟩
    · cases hs
  case forkDup j fd =>
    have hij : j ≠ i := ne_of_used hr (by rw [hok.1]; simp)
    split_ifs at hs with hfd
    · split at hs <;> cases hs
      case h_1 hnone =>
        refine effect_setPc h hr rfl ?_
        rw [Pc.Ok, Child, State.setPc_ne _ _ hij]
        exact ⟨hok.1, hok.2.1, fun x hx => hok.2.2 x (by omega)⟩
      case h_2 f hf =>
        refine filedup_effect h hr (hi.one_le_of_slot hf fun e => ?_) ?_ fun t ht => ?_
        · rw [hr.pc_eq] at e
          cases e
        · simp [add_comm]
        · rw [Pc.Ok, Child, ht j hij]
          exact ⟨hok, hf⟩
    · cases hs
      refine effect_setPc h hr rfl ?_
      rw [Pc.Ok, Child, State.setPc_ne _ _ hij]
      exact ⟨hok.1, hok.2.1, fun x hx => hok.2.2 x (by omega)⟩
  case forkSet j fd f =>
    cases hs
    obtain ⟨⟨hused, hcwd, hnone⟩, hf⟩ := hok
    obtain ⟨hpc, htyped⟩ := (h.proc j).used hused
    refine effect_child h hr (.inr ⟨hused, by simp⟩) rfl rfl rfl rfl (fun y hy => s.setFd_ne j fd (some f) hy) ?_
      (fun t ht => ?_) ?_
    · rw [State.excess_setFd, h.balanced, hnone fd le_rfl]
      simp
    · rw [Pc.Ok, Child, ht, State.setFd_self]
      refine ⟨hused, hcwd, fun x hx => ?_⟩
      have hne : x ≠ fd := by
        rintro rfl
        omega
      simp only [Function.update_of_ne hne]
      exact hnone x (by omega)
    · rw [State.setFd_self, ProcOk]
      simp only [hused]
      refine ⟨hpc, fun x g hg hst => ?_⟩
      simp only [Function.update_apply] at hg
      split_ifs at hg
      · cases hg
        exact hi.typed fd f hf (by rw [hr.pc_eq]; simp)
      · exact htyped x g hg hst
  case forkCwd j =>
    split at hs
    case h_1 hnone => exact absurd hnone hr.cwd
    case h_2 ip hip =>
      cases hs
      obtain ⟨hpc, htyped⟩ := (h.proc j).used hok.1
      refine effect_child h hr (.inr ⟨hok.1, by simp⟩) rfl rfl rfl rfl
        (fun y hy => State.setProc_ne _ j { s.proc j with cwd := some ip } hy) ?_ (fun t ht => ?_) ?_
      · rw [State.excess_setProc, State.excess_addRef, h.balanced]
        have hused : (s.proc j).state = .used := hok.1
        simp [Proc.share, Proc.count, hused, hok.2.1]
      · rw [Pc.Ok, ht, State.setProc_self]
        exact ⟨hok.1, by simp⟩
      · rw [State.setProc_self, ProcOk]
        simp only [hok.1]
        exact ⟨hpc, htyped⟩
  case forkRun j =>
    cases hs
    obtain ⟨hpc, htyped⟩ := (h.proc j).used hok.1
    refine effect_child h hr (.inr ⟨hok.1, by simp⟩) rfl rfl rfl rfl (fun y hy => s.setState_ne j .live hy) ?_
      (fun _ _ => trivial) ?_
    · rw [State.excess_setState, h.balanced, hok.1]
      simp
    · rw [State.setState_self]
      refine ProcOk.of_live rfl htyped ?_ hok.2
      simp only [hpc]
      trivial

theorem exit_effect (h : Inv s) (hr : Running s i pc) (hs : exitCode s i pc = some s') : Effect s s' i := by
  have hok := hr.ok h
  have hi := h.proc i
  cases pc <;> simp only [exitCode, reduceCtorEq] at hs
  case exitScan fd =>
    split_ifs at hs with hfd
    · split at hs <;> cases hs
      case h_1 hnone =>
        refine effect_setPc h hr rfl fun x hx => ?_
        obtain hlt | heq := Nat.lt_succ_iff_lt_or_eq.1 hx
        · exact hok x hlt
        · rwa [show x = ⟨fd, hfd⟩ from Fin.ext heq]
      case h_2 f hf =>
        exact effect_setPc h hr (by simp) ⟨hf, fun x hx => hok x hx⟩
    · cases hs
      exact effect_setPc h hr rfl fun x => hok x (by omega)
  case exitClear fd f =>
    cases hs
    refine effect_own h hr rfl rfl (fun y hy => s.setFd_ne i fd none hy) (s.setFd_self i fd none) ?_
      (fun x g hg hst => ?_) (fun x hx => ?_) h.pages
    · rw [State.excess_setFd, h.balanced, hok.1]
      simp
    · have hne : x ≠ fd := by
        rintro rfl
        simp at hg
      rw [Function.update_of_ne hne] at hg
      exact .inl ⟨hg, fun e => hne (Option.some.inj e).symm⟩
    · by_cases e : x = fd
      · simp [e]
      · simp only [Function.update_of_ne e]
        have hval : x.val ≠ fd.val := fun e' => e (Fin.ext e')
        exact hok.2 x (Fin.lt_def.2 (by omega))
  case exitCwd =>
    split at hs
    case h_1 hnone => exact absurd hnone hr.cwd
    case h_2 ip hip =>
      cases hs
      refine effect_files h rfl rfl rfl (fun y hy => by simp [hy]) (fun f => .inl rfl) ?_ ?_
      · rw [State.excess_setProc, State.excess_addRef, h.balanced]
        simp [Proc.share, Proc.count, hr.pc_eq, hr.live, hip]
      · rw [State.setProc_self, ProcOk]
        simp only [hr.live]
        exact ⟨fun x g hg => by simp [hok x] at hg, ⟨hok, rfl⟩, fun e => absurd rfl e⟩
  case exitZombie =>
    exact absurd hok.2 hr.cwd

theorem exitZombie_effect (h : Inv s) (hl : (s.proc i).state = .live) (hpc : (s.proc i).pc = .exitZombie) :
    Effect s ((s.setState i .zombie).setPc i .user) i := by
  have hok := (h.proc i).pc_ok
  rw [hpc] at hok
  refine effect_files h rfl rfl rfl (fun y hy => by simp [hy]) (fun f => .inl rfl) ?_ ?_
  · rw [State.excess_setPc, State.excess_setState, h.balanced, hl]
    simp [hpc]
  · simp only [State.setPc_self, State.setState_self]
    exact ⟨rfl, hok.1, hok.2⟩

theorem effect_refl (h : Inv s) : Effect s s i :=
  effect_files h rfl rfl rfl (fun _ _ => rfl) (fun _ => .inl rfl) h.balanced (h.proc i)

theorem call_effect {call : Call nproc} (h : Inv s) (hr : Running s i .user) (hs : callCode s i call = some s') :
    Effect s s' i := by
  have hi := h.proc i
  have htyped {fd : Fin nofile} {f : Fin nfile} (hf : (s.proc i).ofile fd = some f) :
      (s.file f).type ≠ .none :=
    hi.typed fd f hf (by rw [hr.pc_eq]; simp)
  cases call <;> simp only [callCode] at hs
  case «open» omode | pipe | fork =>
    cases hs
    exact effect_setPc h hr rfl trivial
  case dup n =>
    split at hs
    · cases hs
      exact effect_refl h
    · rename_i a f ha
      replace ha := argfd_spec ha
      split at hs <;> cases hs
      case h_1 => exact effect_refl h
      case h_2 b hb =>
        replace hb := fdalloc_spec hb
        have hab : a ≠ b := by
          rintro rfl
          rw [ha] at hb
          cases hb
        refine effect_own h hr rfl rfl (fun y hy => s.setFd_ne i b (some f) hy) (s.setFd_self i b (some f)) ?_
          (fun x g hg hst => ?_) ⟨a, b, hab, ?_, ?_⟩ h.pages
        · rw [State.excess_setFd, h.balanced, hb]
          simp
        · simp only [Function.update_apply] at hg
          split_ifs at hg
          · cases hg
            exact .inr (htyped ha)
          · exact .inr (htyped hg)
        · simp [hab, ha]
        · simp
  case close n =>
    split at hs <;> cases hs
    case h_1 => exact effect_refl h
    case h_2 fd f hfd =>
      replace hfd := argfd_spec hfd
      refine effect_own h hr rfl rfl (fun y hy => s.setFd_ne i fd none hy) (s.setFd_self i fd none) ?_
        (fun x g hg hst => ?_) trivial h.pages
      · rw [State.excess_setFd, h.balanced, hfd]
        simp
      · simp only [Function.update_apply] at hg
        split_ifs at hg
        exact .inr (htyped hg)
  case exit =>
    split_ifs at hs
    cases hs
    exact effect_setPc h hr rfl fun x hx => absurd hx (Nat.not_lt_zero _)
  case read n | write n =>
    split at hs
    · cases hs
      exact effect_refl h
    · rename_i fd f hfd
      split_ifs at hs with hr hn
      · cases hs
        exact effect_refl h
      · exact absurd hn (htyped (argfd_spec hfd))
      · cases hs
        exact effect_refl h
  case wait j =>
    split_ifs at hs with hj
    cases hs
    obtain ⟨hpc, hofile, hcwd⟩ := (h.proc j).dead (.inr hj)
    have hij : j ≠ i := ne_of_used hr (by rw [hj]; simp)
    refine
      { stop := h.stop
        balanced := ?_
        files := fun f => .inl rfl
        procs := fun y hy => ?_
        own := ?_
        pages := h.pages }
    · rw [State.excess_setState, h.balanced, hj]
      simp
    · by_cases e : y = j
      · subst e
        refine .inr ⟨by rw [hj]; simp, (fun e => by rw [hj] at e; cases e), ?_⟩
        rw [State.setState_self]
        exact ⟨hpc, hofile, hcwd⟩
      · exact .inl (State.setState_ne _ _ _ e)
    · rw [State.setState_ne _ _ _ hij.symm]
      refine ProcOk.of_live hr.live hi.typed ?_ hr.cwd
      rw [hr.pc_eq]
      trivial

/-! ## Runs -/

theorem step_effect {e : Fin nproc × Choice nproc} (h : Inv s) (hs : step s e = some s') :
    Effect s s' e.1 ∧ (s.proc e.1).state = .live := by
  obtain ⟨i, c⟩ := e
  unfold step at hs
  split_ifs at hs with hl
  refine ⟨?_, hl.2⟩
  obtain ⟨-, hl⟩ := hl
  simp only at hs hl ⊢
  by_cases hz : (s.proc i).pc = .exitZombie
  · rw [hz] at hs
    cases hs
    exact exitZombie_effect h hl hz
  have hcwd := ((h.proc i).live hl).2.2 hz
  cases hpc : (s.proc i).pc <;> rw [hpc] at hs <;> simp only [code] at hs <;>
    have hr : Running s i _ := ⟨hl, hpc, hcwd⟩
  case user =>
    split at hs
    · exact call_effect h hr hs
    · cases hs
  case dup f =>
    cases hs
    obtain ⟨a, b, hab, ha, hb⟩ := hr.ok h
    refine filedup_effect h hr ?_ (by simp)
      fun t _ => trivial
    exact (h.proc i).one_le_of_slot ha fun _ => by rw [hpc]; simp
  case close f after =>
    cases hs
    exact fileclose_effect h hr
  case closePipe pi w after =>
    cases hs
    exact pipeclose_effect h hr
  case closeFree pi after =>
    cases hs
    exact kfree_effect h hr
  case iput ip after =>
    cases hs
    refine effect_addRef h hr ?_ (After.pc_ok (hr.ok h)) fun fd e => by rwa [After.pc_stale]
    rw [Pc.balance_iput]
    simp
  case exitZombie => exact absurd hpc hz
  all_goals first
    | exact open_effect h hr hs
    | exact pipe_effect h hr hs
    | exact fork_effect h hr hs
    | exact exit_effect h hr hs

theorem inv_step {e : Fin nproc × Choice nproc} (h : Inv s) (hs : step s e = some s') : Inv s' :=
  (step_effect h hs).1.inv h (step_effect h hs).2

end Xv6.Files
