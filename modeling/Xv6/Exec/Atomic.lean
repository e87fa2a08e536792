import Xv6.Exec.Code
import Xv6.Sys.UserSpace

/-!
# `exec` is safe and atomic

`exec` runs one transaction and has the inode locked only inside it (`run_close`).  Every `goto bad` frees
a table that belongs to no process yet, so afterwards only free pages have changed (`Undone`).
-/

namespace Xv6.Exec

open Memory Kernel Vm Sys Runs Stack
open Kalloc (PGSIZE)

variable {L : Image} {st st' : State} {k : Kern} {s t u : Phys} {own own' own'' : Owners}
  {tabs tabs' : ℕ → Option Tree} {hand : FileId → ℤ} {held : List ℕ} {r sz tf ip : ℕ} {T : Tree} {i j : Slot}

/-! ## The transaction -/

/-- The state after `ilock`. -/
def opened (st : State) (ip : ℕ) (k : Kern) : State where
  kern := k
  name := st.name
  iref := Function.update st.iref ip (st.iref ip + 1)
  ilocked := Function.update st.ilocked ip true
  log := st.log ++ [.beginOp]

theorem opened_kern (st : State) (ip : ℕ) (k : Kern) : (opened st ip k).kern = k := rfl

/-- The state after `end_op`. -/
def closed (st : State) (k : Kern) : State := { st with kern := k, log := st.log ++ [.beginOp, .endOp] }

theorem run_close {α : Type} (h : st.ilocked ip = false) (k : Kern) (c : X α) :
    (do
      iunlockput ip
      logCall .endOp
      c : X α) (opened st ip k) = c (closed st k) := by
  have hlock : iunlock ip (opened st ip k) = .ok ((), { opened st ip k with ilocked := st.ilocked }) := by
    have hil : (opened st ip k).ilocked ip = true := Function.update_self _ _ _
    have hir : (opened st ip k).iref ip = st.iref ip + 1 := Function.update_self _ _ _
    rw [iunlock, run_bind (run_get _), hil, hir, if_neg (by simp)]
    refine congrArg (fun x => Except.ok ((), x)) ?_
    simp only [opened, State.mk.injEq, true_and, and_true]
    rw [Function.update_idem, ← h, Function.update_eq_self]
  have hput : iunlockput ip (opened st ip k) =
      .ok ((), { opened st ip k with ilocked := st.ilocked, iref := st.iref }) := by
    rw [iunlockput, run_bind hlock, iput, run_modify]
    refine congrArg (fun x => Except.ok ((), x)) ?_
    simp only [opened, State.mk.injEq, true_and, and_true]
    rw [Function.update_self, Function.update_idem, Nat.add_sub_cancel, Function.update_eq_self]
  rw [run_bind hput, logCall, run_bind (run_modify _ _)]
  simp [opened, closed]

/-- `exec` opens the file and goes on with the ELF header. -/
theorem exec_opened (path : List (BitVec 8)) (argv : List ℕ) {f : File} (hlock : st.ilocked f.ip = false) :
    exec L i path (some f) argv st = load L i path f argv (opened st f.ip st.kern) := by
  have hname : namei (some f) { st with log := st.log ++ [.beginOp] } = .ok (some f,
      { st with
        iref := Function.update st.iref f.ip (st.iref f.ip + 1)
        log := st.log ++ [.beginOp] }) := rfl
  have hilock : ilock f.ip { st with
      iref := Function.update st.iref f.ip (st.iref f.ip + 1)
      log := st.log ++ [.beginOp] } = .ok ((), opened st f.ip st.kern) := by
    rw [ilock, run_bind (run_get _), if_neg (by simp), if_neg (by simp [hlock])]
    rfl
  rw [exec, logCall, run_bind (run_modify _ _), run_bind hname]
  simp only []
  rw [run_bind hilock]

theorem run_phys_opened {α : Type} {c : K α} {a : α} (h : c t = .ok (a, u)) :
    phys c (opened st ip { k with phys := t }) = .ok (a, opened st ip { k with phys := u }) := run_zoom h

theorem run_phys_closed {α : Type} {c : K α} {a : α} (h : c t = .ok (a, u)) :
    phys c (closed st { k with phys := t }) = .ok (a, closed st { k with phys := u }) := run_zoom h

/-- Only memory has changed, and there only free pages. -/
structure Undone (k : Kern) (own : Owners) (k' : Kern) (own' : Owners) : Prop where
  kern : k' = { k with phys := k'.phys }
  frame : Frame FreePages k.phys own k'.phys own'

theorem Undone.refl (k : Kern) (own : Owners) : Undone k own k own := ⟨rfl, Frame.refl _ _ _⟩

/-- The outcome of a call: the inode table is as before, `calls` lists its calls of `begin_op` and `end_op`,
and only free pages have changed when it returns -1. -/
structure Outcome (L : Image) (tabs : ℕ → Option Tree) (own : Owners) (held : List ℕ) (calls : List LogCall)
    (st : State) (res : ℤ) (st' : State) : Prop where
  iref : st'.iref = st.iref
  ilocked : st'.ilocked = st.ilocked
  log : st'.log = st.log ++ calls
  settled : ∀ j, Settled (st'.kern.proc j)
  kern : ∃ own' tabs', KernOk L st'.kern own' tabs' (fun _ => 0) held ∧
    (res = -1 → st'.name = st.name ∧ tabs' = tabs ∧ Undone st.kern own st'.kern own')

/-! ## The new stack -/

/-- The user of process `i` finds the byte `b` at `x`. -/
def Finds (k : Kern) (i : Slot) (x : ℕ) (b : BitVec 8) : Prop :=
  leafAt k.phys.mem (k.proc i).pagetable (x / PGSIZE) &&& PTE_U ≠ 0 ∧ userByte k i x = b

/-- The stack of process `i` holds the strings, below them the pointers `ps` to them, and `sp` is in its
registers; the page below the stack is closed to the user. -/
structure Stacked (k : Kern) (i : Slot) (strs : List (List (BitVec 8))) (ps : List ℕ) (sp : ℕ) : Prop where
  pushed : Pushed 16 (Finds k i) (k.proc i).sz (strs ++ [words (ps ++ [0])]) (ps ++ [sp]) sp
  base : (k.proc i).sz - USERSTACK * PGSIZE ≤ sp
  size : (USERSTACK + 1) * PGSIZE ≤ (k.proc i).sz ∧ (k.proc i).sz % PGSIZE = 0 ∧ (k.proc i).sz < 2 ^ 64
  guard : leafAt k.phys.mem (k.proc i).pagetable (((k.proc i).sz - (USERSTACK + 1) * PGSIZE) / PGSIZE) &&&
    PTE_U = 0
  entered : Entered (k.proc i).trapframe sp k.phys.mem

theorem stacked_of_argStack {argv ps : List ℕ} {sp : ℕ} (hk : KernOk L k own tabs hand held)
    (hT : tabs (k.proc i).pagetable = some T) (hs : Shape L tf (k.proc i).sz T)
    (h : ArgStack s t T argv (k.proc i).sz ps sp) (he : Entered (k.proc i).trapframe sp k.phys.mem)
    (hsame : ∀ v, UserPage T v → SamePage t.mem k.phys.mem (pte2pa (T.leaf v))) :
    Stacked k i (strings s.mem argv) ps sp := by
  have hsz : (k.proc i).sz < 2 ^ 26 * 4096 := by
    have hle := hs.mapped.le
    have hu : UTOP < 2 ^ 26 := by decide
    unfold npages at hle
    omega
  refine ⟨h.pushed.imp fun x b _ hx => ?_, h.base, ⟨h.size.1, h.size.2, by omega⟩, ?_, he⟩
  · have hlt : x / 4096 < 2 ^ 27 := hx.1.1.trans (by decide)
    have hleaf := hk.leafAt hT hlt
    refine ⟨?_, ?_⟩
    · change leafAt k.phys.mem (k.proc i).pagetable (x / 4096) &&& PTE_U ≠ 0
      rw [hleaf]
      exact hx.1.2.2
    · change k.phys.mem (pte2pa (leafAt k.phys.mem (k.proc i).pagetable (x / 4096)) + x % 4096) = b
      rw [hleaf, hsame _ hx.1 _ (by omega) (by omega)]
      exact hx.2
  · rw [hk.leafAt hT]
    · exact h.guard
    · unfold USERSTACK PGSIZE
      omega

/-- What `exec` of the arguments does to the stack, when it succeeds. -/
def StackOutcome (st : State) (i : Slot) (own : Owners) (argv : List ℕ) (res : ℤ) (st' : State) : Prop :=
  res = -1 ∨ (Args st.kern.phys.mem own argv → argv.length < MAXARG →
    res = argv.length ∧ ∃ ps sp, Stacked st'.kern i (strings st.kern.phys.mem argv) ps sp)

/-! ## `exec` -/

section Exec

variable (hk : KernOk L st.kern own tabs (fun _ => 0) held) (hset : ∀ j, Settled (st.kern.proc j))
  (hi : (st.kern.proc i).state = .runnable)

include hk hset

theorem Outcome.failed (hvm : VmOk L.toLayout t own' tabs) (hf : Frame FreePages st.kern.phys own t own') :
    Outcome L tabs own held [.beginOp, .endOp] st (-1) (closed st { st.kern with phys := t }) :=
  ⟨rfl, rfl, rfl, hset, own', tabs,
    hk.phys hvm (Frame.sameKern hf fun _ _ => freePages_not_opaque), fun _ => ⟨rfl, rfl, rfl, hf⟩⟩

/-- The image is given up. -/
theorem Outcome.discard (hb : Building L st.kern own tabs r (st.kern.proc i).trapframe sz t own' T) :
    ∃ u, procFreepagetable L r sz t = .ok ((), u) ∧
      Outcome L tabs own held [.beginOp, .endOp] st (-1) (closed st { st.kern with phys := u }) := by
  obtain ⟨u, own'', hrun, hvm, hframe⟩ :=
    procFreepagetable_spec hb.vm (Function.update_self _ _ _) hb.shape
  rw [Function.update_idem, ← hb.fresh, Function.update_eq_self] at hvm
  exact ⟨u, hrun, Outcome.failed hk hset hvm
    (Frame.of_no_table (hb.frame.trans hframe) hk.vm hvm hb.fresh)⟩

include hi

theorem finish_spec (path : List (BitVec 8)) (argv : List ℕ) (entry : ℕ) (hr : r ≠ 0)
    (hb : Building L st.kern own tabs r (st.kern.proc i).trapframe sz t own' T) :
    ∃ res st', finish L i path argv entry r sz (closed st { st.kern with phys := t }) = .ok (res, st') ∧
      Outcome L tabs own held [.beginOp, .endOp] st res st' ∧ StackOutcome st i own argv res st' := by
  have hl := (hset i).live (by rw [hi]; simp)
  obtain ⟨res, sz', t₂, own₂, T₂, hpush, he, hs₂, hstack⟩ :=
    pushStack_spec argv hb.vm (Function.update_self _ _ _) hb.shape
  have hb₂ : Building L st.kern own tabs r (st.kern.proc i).trapframe sz' t₂ own₂ T₂ :=
    ⟨by simpa using he.vm, hb.frame.trans he.frame, hb.fresh, hs₂⟩
  rw [finish, run_bind (run_phys_closed hpush)]
  cases res with
  | none =>
    obtain ⟨u, hfree, h⟩ := Outcome.discard hk hset hb₂
    refine ⟨-1, _, ?_, h, .inl rfl⟩
    simp only [bad, if_neg hr]
    rw [run_bind (run_phys_closed hfree)]
    rfl
  | some res =>
    obtain ⟨sp, argc⟩ := res
    obtain ⟨m', u, own₃, tabs₃, hset₃, hfree, hk₃, hT₃, hentered, hsame⟩ :=
      hb₂.commit hk hl.pagetable hl.trapframe sp entry
    have hm : m' = store 8 (store 8 (store 8 t₂.mem ((st.kern.proc i).trapframe + a1Off) sp)
        ((st.kern.proc i).trapframe + epcOff) entry) ((st.kern.proc i).trapframe + spOff) sp := by
      cases hset₃
      rfl
    let k' : Kern := { st.kern with
      phys := { t₂ with mem := m' }
      proc := Function.update st.kern.proc i { st.kern.proc i with pagetable := r, sz := sz' } }
    let st' : State := { closed st k' with
      name := Function.update st.name i ((lastLoop path path).take 15) }
    have hlast : phys (procFreepagetable L (st.kern.proc i).pagetable (st.kern.proc i).sz) st' =
        .ok ((), { st' with kern := { k' with phys := u } }) := run_zoom hfree
    refine ⟨(argc : ℤ), { st' with kern := { k' with phys := u } }, ?_, ⟨rfl, rfl, rfl,
      settled_commit hset hi hr, own₃, tabs₃, hk₃, fun h => by omega⟩, .inr fun hargs hlen => ?_⟩
    swap
    · have hheld {x : ℕ} (hx : x ∈ argv) := hb.frame.keep x .held
        (by simp [Space, Owner.IsTable, Owner.table]) (hargs x hx).1
      have hmem : ∀ x ∈ argv, SamePage st.kern.phys.mem t.mem x := fun x hx => (hheld hx).2
      obtain ⟨rfl, ps, hps⟩ := hstack
        (hargs.congr (fun x hx => (hheld hx).1.trans (hargs x hx).1.symm) hmem) hlen sp argc rfl
      refine ⟨rfl, ps, sp, ?_⟩
      rw [← strings_congr hmem]
      have hproc : k'.proc i = { st.kern.proc i with pagetable := r, sz := sz' } := Function.update_self _ _ _
      have hshape : Shape L (st.kern.proc i).trapframe (k'.proc i).sz T₂ := by
        rw [hproc]
        exact hs₂
      refine stacked_of_argStack (t := t₂) hk₃ ?_ hshape ?_ ?_ fun v hv => ?_
      · change tabs₃ (k'.proc i).pagetable = some T₂
        rw [hproc, hT₃]
      · change ArgStack t t₂ T₂ argv (k'.proc i).sz ps sp
        rw [hproc]
        exact hps
      · change Entered (k'.proc i).trapframe sp u.mem
        rw [hproc]
        exact hentered
      · have hlt : v < UTOP := by
          by_contra hge
          exact hv.2.2 (hs₂.not_user v (by omega))
        have hok := (hb₂.vm.table r T₂ (Function.update_self _ _ _)).leaf_ok v fun e => hv.2.1 (by rw [e]; rfl)
        exact hsame _ v (hok.owner hlt)
    simp only []
    rw [run_bind (run_get _)]
    subst hm
    -- The stores before the old table is freed are unconditional.
    change (phys (procFreepagetable L (st.kern.proc i).pagetable (st.kern.proc i).sz) >>=
      fun _ => pure (argc : ℤ)) st' = _
    rw [run_bind hlast]
    rfl

theorem load_spec (path : List (BitVec 8)) (f : File) (argv : List ℕ) (hlock : st.ilocked f.ip = false) :
    ∃ res st', load L i path f argv (opened st f.ip st.kern) = .ok (res, st') ∧
      Outcome L tabs own held [.beginOp, .endOp] st res st' ∧ StackOutcome st i own argv res st' := by
  have hl := (hset i).live (by rw [hi]; simp)
  have hbad {u : Phys} {own' : Owners} (hvm : VmOk L.toLayout u own' tabs)
      (hf : Frame FreePages st.kern.phys own u own') :
      ∃ res st', bad L 0 0 (some f.ip) (opened st f.ip { st.kern with phys := u }) = .ok (res, st') ∧
        Outcome L tabs own held [.beginOp, .endOp] st res st' ∧ StackOutcome st i own argv res st' := by
    refine ⟨-1, _, ?_, Outcome.failed hk hset hvm hf, .inl rfl⟩
    simp only [bad, if_true]
    rw [run_close hlock]
    rfl
  simp only [load]
  split_ifs with h₁ h₂
  · exact hbad hk.vm (Frame.refl _ _ _)
  · exact hbad hk.vm (Frame.refl _ _ _)
  obtain ⟨elf, helf⟩ : ∃ elf, f.read.read 0 64 = elf := ⟨_, rfl⟩
  have htf : own (st.kern.proc i).trapframe = some (.trapframe i.val) :=
    (hk.roles.trapframe _ _).2 ⟨hl.trapframe, i, rfl, rfl⟩
  rw [helf, run_bind (run_get _), opened_kern]
  obtain ⟨r, t, own₁, hrun, ⟨rfl, hvm, hframe⟩ | ⟨hr, hnone, hframe, T, hvm, hs⟩⟩ :=
    procPagetable_spec hk.vm (hk.vm.aligned htf) (hk.vm.below htf)
  · have hpt : phys _ (opened st f.ip st.kern) = _ := run_phys_opened hrun
    rw [run_bind hpt, if_pos rfl]
    exact hbad hvm hframe
  have hpt : phys _ (opened st f.ip st.kern) = _ := run_phys_opened hrun
  rw [run_bind hpt, if_neg hr]
  obtain ⟨ok, sz, t₂, own₂, T₂, hload, he, hs₂, -⟩ := loadLoop_spec f.read (field elf 56 2)
    (field elf 32 8 % 2 ^ 32) hvm (Function.update_self _ _ _) hs (fun v hv => by
      rw [npages_zero] at hv
      omega)
  have hb : Building L st.kern own tabs r (st.kern.proc i).trapframe sz t₂ own₂ T₂ :=
    ⟨by simpa using he.vm, hframe.trans he.frame, hnone, hs₂⟩
  rw [run_bind (run_phys_opened hload)]
  cases ok with
  | true =>
    simp only [if_true]
    rw [run_close hlock]
    exact finish_spec hk hset hi path argv _ hr hb
  | false =>
    obtain ⟨u, hfree, h⟩ := Outcome.discard hk hset hb
    refine ⟨-1, _, ?_, h, .inl rfl⟩
    simp only [bad, if_neg hr, Bool.false_eq_true, if_false]
    rw [run_bind (run_phys_opened hfree), run_close hlock]
    rfl

theorem exec_spec (path : List (BitVec 8)) (file : Option File) (argv : List ℕ)
    (hlock : ∀ f ∈ file, st.ilocked f.ip = false) :
    ∃ res st', exec L i path file argv st = .ok (res, st') ∧
      Outcome L tabs own held [.beginOp, .endOp] st res st' ∧ StackOutcome st i own argv res st' := by
  cases file with
  | none =>
    refine ⟨-1, _, ?_, Outcome.failed hk hset hk.vm (Frame.refl _ _ _), .inl rfl⟩
    rw [exec, logCall, run_bind (run_modify _ _), namei, run_bind (run_pure _ _)]
    simp only [logCall]
    rw [run_bind (run_modify _ _), run_pure, List.append_assoc]
    rfl
  | some f =>
    obtain ⟨res, st', hrun, h⟩ := load_spec hk hset hi path f argv (hlock f rfl)
    exact ⟨res, st', by rw [exec_opened path argv (hlock f rfl), hrun], h⟩

end Exec

/-! ## `sys_exec` -/

theorem Frame.of_none_held (hf : Frame SparePages s own t own') (h : Holds own []) (h' : Holds own' []) :
    Frame FreePages s own t own' := by
  have key {own : Owners} (h : Holds own []) {x : ℕ} {o : Owner} (ho : ¬ FreePages x o)
      (hx : own x = some o) : ¬ SparePages x o := by
    rintro (e | rfl)
    · exact ho e
    · exact List.not_mem_nil ((h.mem_iff x).1 hx)
  exact ⟨fun x o ho hx => hf.keep x o (key h ho hx) hx, fun x o ho hx => hf.back x o (key h' ho hx) hx⟩

theorem Frame.sparePages (hf : Frame FreePages s own t own') : Frame SparePages s own t own' :=
  ⟨fun x o ho => hf.keep x o fun e => ho (.inl e), fun x o ho => hf.back x o fun e => ho (.inl e)⟩

theorem sysExec_spec (path : Option (List (BitVec 8))) (file : Option File)
    (args : List (Option (List (BitVec 8)))) (last : Bool)
    (hk : KernOk L st.kern own tabs (fun _ => 0) []) (hset : ∀ j, Settled (st.kern.proc j))
    (hi : (st.kern.proc i).state = .runnable) (hlock : ∀ f ∈ file, st.ilocked f.ip = false) :
    ∃ res st' calls, sysExec L i path file args last st = .ok (res, st') ∧
      (calls = [] ∨ calls = [.beginOp, .endOp]) ∧ Outcome L tabs own [] calls st res st' := by
  cases path with
  | none =>
    exact ⟨-1, st, [], rfl, .inl rfl, rfl, rfl, by simp, hset, own, tabs, hk,
      fun _ => ⟨rfl, rfl, Undone.refl _ _⟩⟩
  | some path =>
    obtain ⟨ok, argv, t, own₁, hfetch, hvm₁, hl₁, hframe₁⟩ :=
      fetchArgs_spec last args hk.vm hk.roles.held
    let st₁ : State := { st with kern := { st.kern with phys := t } }
    have hk₁ : KernOk L st₁.kern own₁ tabs (fun _ => 0) argv := hk.hold hvm₁ hl₁ hframe₁
    have hexec : ∃ res st₂ calls, (if ok then exec L i path file argv else pure (-1) : X ℤ) st₁ =
        .ok (res, st₂) ∧ (calls = [] ∨ calls = [.beginOp, .endOp]) ∧
        Outcome L tabs own₁ argv calls st₁ res st₂ := by
      split_ifs
      · obtain ⟨res, st₂, hrun, h, -⟩ := exec_spec hk₁ hset hi path file argv hlock
        exact ⟨res, st₂, _, hrun, .inr rfl, h⟩
      · exact ⟨-1, st₁, [], rfl, .inl rfl, rfl, rfl, by simp, hset, own₁, tabs, hk₁,
          fun _ => ⟨rfl, rfl, Undone.refl _ _⟩⟩
    obtain ⟨res, st₂, calls, hrun₂, hcalls, h₂⟩ := hexec
    obtain ⟨own₂, tabs₂, hk₂, hun⟩ := h₂.kern
    obtain ⟨u, own₃, hfree, hvm₃, hl₃, hframe₃⟩ := freeAll_held hk₂.vm hk₂.roles.held
    refine ⟨res, { st₂ with kern := { st₂.kern with phys := u } }, calls, ?_, hcalls, h₂.iref, h₂.ilocked,
      h₂.log, h₂.settled, own₃, tabs₂, hk₂.hold hvm₃ hl₃ hframe₃, fun hres => ?_⟩
    · have hfetch' : phys (fetchArgs last args []) st = .ok ((ok, argv), st₁) := run_zoom hfetch
      have hfree' : phys (freeAll L.toLayout argv) st₂ = _ := run_zoom hfree
      rw [sysExec, run_bind hfetch']
      simp only []
      rw [run_bind hrun₂, run_bind hfree']
      rfl
    · obtain ⟨hname, htabs, hundone⟩ := hun hres
      refine ⟨hname, htabs, ?_, Frame.of_none_held ?_ hk.roles.held hl₃⟩
      · simp only []
        rw [hundone.kern]
      · exact (hframe₁.trans (Frame.sparePages hundone.frame)).trans hframe₃

/-- In every state that calls reach from boot, `sys_exec` of any path, file and arguments returns; it
calls `begin_op` and `end_op` in pairs and leaves the references and locks of inodes; and when it returns
-1 no process, no name, no byte of user memory or of a trapframe has changed, and the same pages are
free. -/
theorem exec_atomic {es : List Event} {x : Machine} (hboot : Booted L k)
    (hrun : run (step L) ⟨k, none⟩ es = some x) (st : State) (hst : st.kern = x.kern) (i : Slot)
    (hi : (st.kern.proc i).state = .runnable) (path : Option (List (BitVec 8))) (file : Option File)
    (hlock : ∀ f ∈ file, st.ilocked f.ip = false) (args : List (Option (List (BitVec 8)))) (last : Bool) :
    ∃ res st' calls, sysExec L i path file args last st = .ok (res, st') ∧
      st'.log = st.log ++ calls ∧ (calls = [] ∨ calls = [.beginOp, .endOp]) ∧
      st'.iref = st.iref ∧ st'.ilocked = st.ilocked ∧
      (res = -1 → st'.name = st.name ∧ st'.kern = { st.kern with phys := st'.kern.phys } ∧
        (∀ j, (st.kern.proc j).state ≠ .unused → SameSpace st.kern st'.kern j ∧ ∀ a < PGSIZE,
          st'.kern.phys.mem ((st.kern.proc j).trapframe + a) =
            st.kern.phys.mem ((st.kern.proc j).trapframe + a)) ∧
        ∀ p, Plays st'.kern p .free ↔ Plays st.kern p .free) := by
  obtain ⟨⟨own, tabs, hk⟩, hset⟩ := (sound_run hboot hrun).good
  rw [← hst] at hk hset
  obtain ⟨res, st', calls, hexec, hcalls, h⟩ := sysExec_spec path file args last hk hset hi hlock
  refine ⟨res, st', calls, hexec, h.log, hcalls, h.iref, h.ilocked, fun hres => ?_⟩
  obtain ⟨own', tabs', hk', hfail⟩ := h.kern
  obtain ⟨hname, rfl, hu⟩ := hfail hres
  refine ⟨hname, hu.kern, fun j hj => ⟨?_, fun a ha => ?_⟩, free_iff_of_frame hk hk' hu.frame⟩
  · exact sameSpace_of_frame hk hk' hu.frame (by rw [hu.kern]) ((hset j).live hj).pagetable rfl
      fun x v => by simp [FreePages]
  · exact trapframe_byte_of_frame hk hu.frame ((hset j).live hj).trapframe (fun x => by simp [FreePages]) ha

/-- A file that is not an ELF file. -/
def scriptFile : File where
  ip := 3
  read := fun _ n => List.replicate n 0x23

/-- The state of the extended model with nothing open. -/
def idle (k : Kern) : State := ⟨k, fun _ => [], fun _ => 0, fun _ => false, []⟩

/-- Process 0 of the small machine executes that file. -/
def scriptExec (x : Machine) : Except String (ℤ × State) :=
  sysExec smallImage ⟨0, by decide⟩ (some [47, 97]) (some scriptFile) [some [97]] true (idle x.kern)

/-- It can run, and fails in one transaction. -/
def scriptExecFails (x : Machine) : Bool :=
  decide ((x.kern.proc ⟨0, by decide⟩).state = .runnable) &&
    match scriptExec x with
    | .ok (res, st') => decide (res = -1 ∧ st'.log = [.beginOp, .endOp])
    | .error _ => false

/-- `exec` gives up after an argument page was taken. -/
theorem exec_atomic_scriptFile : ∃ k x st', Booted smallImage k ∧
    run (step smallImage) ⟨k, none⟩ [] = some x ∧ scriptExec x = .ok (-1, st') ∧
    st'.log = [.beginOp, .endOp] ∧ SameSpace x.kern st'.kern ⟨0, by decide⟩ ∧
    ∀ p, Plays st'.kern p .free ↔ Plays x.kern p .free := by
  obtain ⟨k, x, hk, hrun, hP⟩ := exists_of_smallRun [] scriptExecFails (by decide +kernel)
  simp only [scriptExecFails, Bool.and_eq_true, decide_eq_true_eq] at hP
  obtain ⟨hi, hres⟩ := hP
  obtain ⟨res, st', calls, hexec, -, -, -, -, h⟩ := exec_atomic hk hrun (idle x.kern) rfl ⟨0, by decide⟩
    hi (some [47, 97]) (some scriptFile) (fun _ _ => rfl) [some [97]] true
  rw [scriptExec, hexec] at hres
  simp only [decide_eq_true_eq] at hres
  obtain ⟨rfl, hlog⟩ := hres
  obtain ⟨-, -, hsame, hplays⟩ := h rfl
  have hne : (x.kern.proc ⟨0, by decide⟩).state ≠ .unused := by
    rw [hi]
    decide
  exact ⟨k, x, st', hk, hrun, hexec, hlog, (hsame _ hne).1, hplays⟩

end Xv6.Exec
