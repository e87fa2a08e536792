import Xv6.Sys.Calls

/-!
# `fork` and `exec` keep the invariant
-/

namespace Xv6.Sys

open Memory Kernel Kalloc Vm

variable {L : Image} {k k' : Kern} {s t u : Phys} {m m' : Mem} {own own' own'' : Owners}
  {tabs tabs' : ℕ → Option Tree} {hand hand' : FileId → ℤ} {held held' : List ℕ} {r p q tf sz : ℕ}
  {T T' : Tree} {o : Owner} {i j : Slot} {f g : FileId} {fd : Fin NOFILE}

/-! ## Writing to a trapframe -/

theorem onlyPage_store {a w : ℕ} (hp : p % 4096 = 0) (ha : a + 8 ≤ 4096) :
    OnlyPage p m (store 8 m (p + a) w) :=
  onlyPage_of_eqOutside (store_eqOutside _ _ _ _) hp (by omega) (by omega)

theorem KernOk.writeTrapframe (h : KernOk L k own tabs hand held) (hi : (k.proc i).trapframe ≠ 0)
    (hm : OnlyPage (k.proc i).trapframe k.phys.mem m') :
    KernOk L { k with phys := { k.phys with mem := m' } } own tabs hand held := by
  have hp : own (k.proc i).trapframe = some (.trapframe i.val) :=
    (h.roles.trapframe _ _).2 ⟨hi, i, rfl, rfl⟩
  exact h.phys (h.vm.write_page hp (by simp) (fun r hr => by cases hr.1) hm) (SameKern.refl own)

theorem KernOk.trapframe_aligned (h : KernOk L k own tabs hand held) (hi : (k.proc i).trapframe ≠ 0) :
    (k.proc i).trapframe % 4096 = 0 :=
  h.vm.aligned ((h.roles.trapframe i.val _).2 ⟨hi, i, rfl, rfl⟩)

/-- The copy of a trapframe differs from it in `a0`, which is 0. -/
structure CopiedTrapframe (src dst : ℕ) (m m' : Mem) : Prop where
  same : ∀ x < trapframeSize, ¬ (a0Off ≤ x ∧ x < a0Off + 8) → m' (dst + x) = m (src + x)
  a0 : load 8 m' (dst + a0Off) = 0

theorem copyTrapframe_spec (src : ℕ) (hp : p % 4096 = 0) :
    ∃ m', copyTrapframe src p s = .ok ((), { s with mem := m' }) ∧ OnlyPage p s.mem m' ∧
      CopiedTrapframe src p s.mem m' := by
  refine ⟨_, rfl, (onlyPage_of_eqOutside (copy_eqOutside s.mem p src trapframeSize) hp le_rfl
    (by unfold trapframeSize; omega)).trans (onlyPage_store hp (by decide)), fun x hx ha => ?_, ?_⟩
  · have h₁ : store 8 (Memory.copy s.mem p src trapframeSize) (p + a0Off) 0 (p + x) =
        Memory.copy s.mem p src trapframeSize (p + x) := store_eqOutside 8 _ _ _ _ (by omega)
    have h₂ : Memory.copy s.mem p src trapframeSize (p + x) = s.mem (src + (p + x - p)) :=
      if_pos (by omega)
    rw [h₁, h₂, Nat.add_sub_cancel_left]
  · rw [load_store_self]
    rfl

/-- The registers that `exec` sets. -/
structure Entered (tf sp : ℕ) (m : Mem) : Prop where
  a1 : load 8 m (tf + a1Off) = sp % 2 ^ 64
  sp : load 8 m (tf + spOff) = sp % 2 ^ 64

theorem Entered.of_samePage (h : Entered p sz m) (hs : SamePage m m' p) : Entered p sz m' := by
  constructor
  · rw [← h.a1]
    exact load_congr fun i hi => hs _ (by omega) (by unfold a1Off; omega)
  · rw [← h.sp]
    exact load_congr fun i hi => hs _ (by omega) (by unfold spOff; omega)

theorem setEntry_spec (sp entry : ℕ) (hp : p % 4096 = 0) :
    ∃ m', setEntry p sp entry s = .ok ((), { s with mem := m' }) ∧ OnlyPage p s.mem m' ∧ Entered p sp m' := by
  refine ⟨_, rfl, ((onlyPage_store hp (by decide)).trans (onlyPage_store hp (by decide))).trans
    (onlyPage_store hp (by decide)), ?_, load_store_self _ _ _ _⟩
  have h₁ : p + a1Off + 8 ≤ p + spOff ∨ p + spOff + 8 ≤ p + a1Off := by
    unfold a1Off spOff
    omega
  have h₂ : p + a1Off + 8 ≤ p + epcOff ∨ p + epcOff + 8 ≤ p + a1Off := by
    unfold a1Off epcOff
    omega
  rw [load_store_of_disjoint _ _ _ _ h₁, load_store_of_disjoint _ _ _ _ h₂, load_store_self]
  rfl

/-! ## `fork` -/

/-- The state after the loop of `fork` over the descriptors `fds`. -/
def withFiles (k : Kern) (i j : Slot) (fds : List (Fin NOFILE)) : Kern :=
  { k with
    proc := Function.update k.proc j { k.proc j with
      ofile := fun fd => if fd ∈ fds then (k.proc i).ofile fd else (k.proc j).ofile fd }
    file := fun f => { k.file f with
      ref := (k.file f).ref + fds.countP fun fd => (k.proc i).ofile fd = some f } }

theorem withFiles_nil (k : Kern) (i j : Slot) : withFiles k i j [] = k := by
  simp [withFiles]

theorem withFiles_cons_none {fds : List (Fin NOFILE)} (hi : (k.proc i).ofile fd = none)
    (hj : (k.proc j).ofile fd = none) : withFiles k i j (fd :: fds) = withFiles k i j fds := by
  have hofile : (fun x => if x ∈ fd :: fds then (k.proc i).ofile x else (k.proc j).ofile x) =
      fun x => if x ∈ fds then (k.proc i).ofile x else (k.proc j).ofile x := by
    funext x
    by_cases e : x = fd
    · rw [e, hi, hj, ite_self, ite_self]
    · simp only [List.mem_cons, e, false_or]
  simp only [withFiles, hofile, List.countP_cons, hi, reduceCtorEq, decide_false, Bool.false_eq_true, if_false,
    Nat.add_zero]

theorem withFiles_cons_some {fds : List (Fin NOFILE)} (hij : i ≠ j) (hfd : fd ∉ fds)
    (hi : (k.proc i).ofile fd = some f) : withFiles k i j (fd :: fds) =
      withFiles (withFd { k with
        file := Function.update k.file f { k.file f with ref := (k.file f).ref + 1 } } j fd (some f))
        i j fds := by
  simp only [withFiles, withFd, Function.update_self, Function.update_of_ne hij, Function.update_idem,
    Kern.mk.injEq, true_and, and_true]
  constructor
  · congr 2
    funext x
    by_cases e : x = fd
    · rw [e, if_pos List.mem_cons_self, if_neg hfd, Function.update_self, hi]
    · simp only [List.mem_cons, e, false_or, Function.update_of_ne e]
  · funext g
    by_cases e : g = f
    · rw [e, Function.update_self, List.countP_cons_of_pos (by simpa using hi)]
      simp only [File.mk.injEq, true_and, and_true]
      omega
    · have hne : ¬ f = g := fun h => e h.symm
      rw [Function.update_of_ne e, List.countP_cons_of_neg (by simp [hi, hne])]

/-- The loop of `fork` over the descriptors gives the child those it passes. -/
theorem dupFiles_spec (fds : List (Fin NOFILE)) (h : KernOk L k own tabs hand held)
    (hh : ∀ f, 0 ≤ hand f) (hij : i ≠ j) (hnd : fds.Nodup)
    (hnone : ∀ fd ∈ fds, (k.proc j).ofile fd = none) :
    dupFiles i j fds k = .ok ((), withFiles k i j fds) ∧
      KernOk L (withFiles k i j fds) own tabs hand held := by
  induction fds generalizing k with
  | nil =>
    rw [withFiles_nil]
    exact ⟨rfl, h⟩
  | cons fd fds ih =>
    obtain ⟨hfd', hnd'⟩ := List.nodup_cons.1 hnd
    rw [dupFiles, run_bind (run_get k)]
    cases hfd : (k.proc i).ofile fd with
    | none =>
      rw [withFiles_cons_none hfd (hnone fd List.mem_cons_self)]
      exact ih h hnd' fun x hx => hnone x (List.mem_cons_of_mem _ hx)
    | some f =>
      simp only []
      obtain ⟨hrun₁, hk₁⟩ := filedup_spec h (h.files.one_le_ref (hh f) hfd)
      rw [withFiles_cons_some hij hfd' hfd]
      obtain ⟨k₁, he⟩ : ∃ k₁ : Kern, { k with
        file := Function.update k.file f { k.file f with ref := (k.file f).ref + 1 } } = k₁ := ⟨_, rfl⟩
      have hproc₁ : k₁.proc = k.proc := by rw [← he]
      rw [he] at hrun₁ hk₁ ⊢
      have hj : (k₁.proc j).ofile fd = none := by
        rw [hproc₁]
        exact hnone fd List.mem_cons_self
      have hk₂ : KernOk L (withFd k₁ j fd (some f)) own tabs hand held :=
        (hk₁.setFd j fd (some f)).congr_hand fun g => by
          simp only [bump, single, hj]
          by_cases e : g = f
          · simp [e]
          · simp [e, Ne.symm e]
      rw [run_bind hrun₁, run_bind (run_setFd _ _ _ _)]
      exact ih hk₂ hnd' fun x hx => by
        rw [ofile_withFd_of_ne (fun e : x = fd => hfd' (e ▸ hx)), hproc₁]
        exact hnone x (List.mem_cons_of_mem _ hx)

theorem npages_zero : npages 0 = 0 := rfl

/-- The part of `fork` after the memory is copied. -/
theorem forkTail_spec (hk : KernOk L k own tabs (fun _ => 0) []) (hij : i ≠ j)
    (hofile : ∀ fd, (k.proc j).ofile fd = none) (htf : (k.proc j).trapframe ≠ 0) (pid : ℤ) :
    ∃ m' k', (do
        vm (copyTrapframe (k.proc i).trapframe (k.proc j).trapframe)
        dupFiles i j (List.finRange NOFILE)
        setProc j fun p => { p with parent := some i }
        setProc j fun p => { p with state := .runnable }
        pure pid : KCode ℤ) k = .ok (pid, k') ∧ KernOk L k' own tabs (fun _ => 0) [] ∧
      OnlyPage (k.proc j).trapframe k.phys.mem m' ∧
      CopiedTrapframe (k.proc i).trapframe (k.proc j).trapframe k.phys.mem m' ∧
      k' = { k with
        phys := { k.phys with mem := m' }
        proc := Function.update k.proc j { k.proc j with
          ofile := (k.proc i).ofile, parent := some i, state := .runnable }
        file := fun f => { k.file f with
          ref := (k.file f).ref + (List.finRange NOFILE).countP fun fd => (k.proc i).ofile fd = some f } } := by
  obtain ⟨m', hcopy, honly, htrap⟩ := copyTrapframe_spec (s := k.phys) (k.proc i).trapframe
    (hk.trapframe_aligned htf)
  obtain ⟨hdup, hk₁⟩ := dupFiles_spec (List.finRange NOFILE) (hk.writeTrapframe htf honly)
    (fun _ => le_rfl) hij (List.nodup_finRange NOFILE) fun fd _ => hofile fd
  obtain ⟨k₁, he⟩ : ∃ k₁ : Kern,
      withFiles { k with phys := { k.phys with mem := m' } } i j (List.finRange NOFILE) = k₁ := ⟨_, rfl⟩
  rw [he] at hdup hk₁
  have hk₂ := hk₁.setProc (i := j) (x := { k₁.proc j with parent := some i, state := .runnable })
    rfl rfl rfl rfl
  refine ⟨m', _, ?_, hk₂, honly, htrap, ?_⟩
  · rw [run_bind (run_vm hcopy), run_bind hdup, run_bind (run_setProc _ _ _),
      run_bind (run_setProc _ _ _), run_pure]
    simp
  · rw [← he]
    simp [withFiles]

/-- Process `j` is the child of process `i` that `fork` has made. -/
structure Forked (i j : Slot) (k : Kern) (own : Owners) (tabs : ℕ → Option Tree) (k' : Kern) (own' : Owners)
    (tabs' : ℕ → Option Tree) (T T' : Tree) : Prop where
  unused : (k.proc j).state = .unused
  other : ∀ x, x ≠ j → k'.proc x = k.proc x
  state : (k'.proc j).state = .runnable
  pid : (k'.proc j).pid = k.nextpid
  parent : (k'.proc j).parent = some i
  sz : (k'.proc j).sz = (k.proc i).sz
  ofile : (k'.proc j).ofile = (k.proc i).ofile
  file : ∀ f, k'.file f = { k.file f with
    ref := (k.file f).ref + (List.finRange NOFILE).countP fun fd => (k.proc i).ofile fd = some f }
  fresh : tabs (k'.proc j).pagetable = none
  tabs : tabs' = Function.update tabs (k'.proc j).pagetable (some T')
  frame : Frame (ProcPages (k'.proc j).pagetable j) k.phys own k'.phys own'
  copied : ∀ v < npages (k.proc i).sz, Copied k.phys.mem k'.phys.mem (T.leaf v) (T'.leaf v)
  trapframe : CopiedTrapframe (k.proc i).trapframe (k'.proc j).trapframe k.phys.mem k'.phys.mem

theorem not_procPages_user {x v : ℕ} (h : q ≠ r) : ¬ ProcPages r j x (.user q v) := by
  simp [ProcPages, Space, Owner.IsTable, Owner.table, h]

theorem not_procPages_trapframe {x : ℕ} (h : i ≠ j) : ¬ ProcPages r j x (.trapframe i.val) := by
  simp [ProcPages, Space, Owner.IsTable, Owner.table, Fin.val_inj, h]

theorem CopiedTrapframe.of_samePage {src dst : ℕ} {m₀ : Mem} (h : CopiedTrapframe src dst m m')
    (hs : SamePage m₀ m src) : CopiedTrapframe src dst m₀ m' :=
  ⟨fun x hx ha => by
    rw [h.same x hx ha, hs _ (by omega) (by unfold trapframeSize at hx; omega)], h.a0⟩

theorem VmOk.user_page {n v : ℕ} (h : VmOk L.toLayout s own tabs) (hT : tabs r = some T) (hm : Mapped T n)
    (hv : v < n) : own (pte2pa (T.leaf v)) = some (.user r v) := by
  have hu := hv.trans_le hm.le
  exact ((h.table r T hT).leaf_ok v ((hm.leaf v hu).2 hv)).owner hu

/-- `fork` gives up, or makes a child. -/
theorem fork_cases (hk : KernOk L k own tabs (fun _ => 0) []) (hset : ∀ x, Settled (k.proc x))
    (hi : (k.proc i).state = .runnable) (hT : tabs (k.proc i).pagetable = some T) :
    ∃ res k' own' tabs', fork L i k = .ok (res, k') ∧ KernOk L k' own' tabs' (fun _ => 0) [] ∧
      (∀ x, Settled (k'.proc x)) ∧
      (res = -1 ∧ tabs' = tabs ∧ GivenUp k own k' own' ∨
        res = k.nextpid ∧ ∃ j T' k₁, allocproc L k = .ok (some j, k₁) ∧
          Forked i j k own tabs k' own' tabs' T T') := by
  rw [fork]
  obtain ⟨res, k₁, own₁, tabs₁, hrun, hk₁, ⟨hsame, ⟨rfl, -⟩ | ⟨j, rfl, hj, hfresh, hne⟩⟩, hpages⟩ :=
    allocproc_spec hk hset
  · rw [run_bind hrun]
    exact ⟨-1, k₁, own₁, tabs₁, rfl, hk₁, hpages.2.settled, .inl ⟨rfl, hpages⟩⟩
  obtain ⟨hnone, ⟨Tj, rfl⟩, hframe₁, hpid⟩ := hpages
  rw [run_bind hrun]
  simp only []
  rw [run_bind (run_get k₁)]
  have hij : i ≠ j := by
    rintro rfl
    rw [hi] at hj
    cases hj
  have hpi : (k₁.proc i).pagetable ≠ 0 := by
    rw [hne i hij]
    exact (hset i).pagetable_ne hi
  have hpij : (k₁.proc i).pagetable ≠ (k₁.proc j).pagetable := fun e => hij (hk₁.spaces.inj i j e hpi)
  have hTi : Function.update tabs (k₁.proc j).pagetable (some Tj) (k₁.proc i).pagetable = some T := by
    rw [Function.update_of_ne hpij, hne i hij, hT]
  obtain ⟨Ti, tfi, hTi', hsi, -⟩ := hk₁.spaces.shape i hpi
  obtain rfl : T = Ti := Option.some.inj (hTi.symm.trans hTi')
  obtain ⟨Tj', tfj, hTj, hsj, htfj⟩ := hk₁.spaces.shape j hfresh.pagetable
  have hmj : Mapped Tj' 0 := by
    have := hsj.mapped
    rwa [hfresh.sz] at this
  obtain ⟨c, t, own₂, T₂, hcopy, he, hkeep, hres⟩ := uvmcopy_spec hpij hk₁.vm hTi hTj hsi.mapped hmj
  have hown := Frame.sameKern he.frame fun _ _ => space_not_opaque
  have hframe₂ := hframe₁.trans (he.frame.mono fun _ _ => .inl)
  rw [run_bind (run_vm hcopy)]
  obtain ⟨rfl, hm⟩ | ⟨rfl, hm, hcopied⟩ := hres
  · rw [if_pos (by decide)]
    have hk₂ := hk₁.resize hfresh.pagetable (k₁.proc j).sz he.vm hown
      (hsj.keeps (by rw [hfresh.sz]; exact hm) hkeep) htfj
    rw [show Function.update k₁.proc j { k₁.proc j with sz := (k₁.proc j).sz } = k₁.proc from
      Function.update_eq_self _ _] at hk₂
    have hu := (hset j).unused hj
    obtain ⟨k₃, own₃, hfree, hk₃, hgive⟩ := freeproc_giveUp hk hset hu hk₂
      ⟨hsame.file, hsame.pipe, hsame.initproc, hsame.boot⟩
      (funext fun fd => (hfresh.ofile fd).trans (hu.ofile fd).symm) hne (by
        rw [Function.update_idem, Function.update_idem, ← hnone, Function.update_eq_self]) hframe₂
    exact ⟨-1, k₃, own₃, tabs, by rw [run_bind hfree]; rfl, hk₃, hgive.settled, .inl ⟨rfl, rfl, hgive⟩⟩
  rw [if_neg (by decide), run_bind (run_setProc _ _ _)]
  have hk₂ := hk₁.resize hfresh.pagetable _ he.vm hown (hsj.keeps hm hkeep) htfj
  obtain ⟨k₂, he₂⟩ : ∃ k₂ : Kern, { k₁ with
    phys := t
    proc := Function.update k₁.proc j { k₁.proc j with sz := (k₁.proc i).sz } } = k₂ := ⟨_, rfl⟩
  have hphys₂ : k₂.phys = t := by rw [← he₂]
  have hfile₂ : k₂.file = k.file := by rw [← he₂, ← hsame.file]
  have hpj : k₂.proc j = { k₁.proc j with sz := (k₁.proc i).sz } := by
    rw [← he₂]
    exact Function.update_self _ _ _
  have hne₂ (x : Slot) (e : x ≠ j) : k₂.proc x = k.proc x := by
    rw [← hne x e, ← he₂]
    exact Function.update_of_ne e _ _
  simp only [he₂] at hk₂ ⊢
  obtain ⟨m', k₃, htail, hk₃, honly, htrap, he₃⟩ := forkTail_spec hk₂ hij
    (by rw [hpj]; exact hfresh.ofile) (by rw [hpj]; exact hfresh.trapframe) (k₁.proc j).pid
  rw [show (k₁.proc i).trapframe = (k₂.proc i).trapframe by rw [hne₂ i hij, hne i hij],
    show (k₁.proc j).trapframe = (k₂.proc j).trapframe by rw [hpj]]
  have htfj : own₂ (k₂.proc j).trapframe = some (.trapframe j.val) :=
    (hk₂.roles.trapframe _ _).2 ⟨by rw [hpj]; exact hfresh.trapframe, j, rfl, rfl⟩
  have hframe₃ : Frame (ProcPages (k₁.proc j).pagetable j) k₂.phys own₂ k₃.phys own₂ := by
    rw [he₃]
    exact frame_write (fun x a hx => hk₂.vm.aligned hx) honly htfj (.inr rfl)
  have hother (x : Slot) (e : x ≠ j) : k₃.proc x = k.proc x := by
    rw [← hne₂ x e, he₃]
    exact Function.update_of_ne e _ _
  have hchild : k₃.proc j = { k₁.proc j with
      sz := (k.proc i).sz, ofile := (k.proc i).ofile, parent := some i, state := .runnable } := by
    rw [he₃]
    simp only [Function.update_self, hpj, hne₂ i hij, hne i hij]
  refine ⟨_, k₃, own₂, _, htail, hk₃, fun x => ?_, .inr ⟨by rw [hpid], j, T₂, k₁, hrun, ?_⟩⟩
  · by_cases e : x = j
    · rw [e, hchild]
      exact .inr ⟨.inl rfl, hfresh.pagetable, hfresh.trapframe, fun hz => by cases hz⟩
    · rw [hother x e]
      exact hset x
  · rw [hphys₂] at hframe₃
    constructor
    case unused => exact hj
    case other => exact hother
    case file => exact fun f => by rw [he₃, hne₂ i hij, hfile₂]
    case copied =>
      intro v hv
      rw [hne i hij] at hm hsi hcopied
      have hold := VmOk.user_page hk.vm hT hsi.mapped hv
      have hnew := VmOk.user_page he.vm (Function.update_self _ _ _) hm hv
      rw [hne i hij] at hpij
      have hne' : pte2pa (T₂.leaf v) ≠ (k₂.proc j).trapframe := fun e => by
        rw [e, htfj] at hnew
        cases hnew
      have hsame₃ := honly _ (he.vm.aligned hnew) hne'
      rw [hphys₂] at hsame₃
      rw [he₃]
      exact (hcopied v hv).of_samePage (hframe₁.keep _ _ (not_procPages_user hpij) hold).2 hsame₃
    case trapframe =>
      have hold : own (k.proc i).trapframe = some (.trapframe i.val) :=
        (hk.roles.trapframe _ _).2 ⟨((hset i).live (by rw [hi]; simp)).trapframe, i, rfl, rfl⟩
      rw [hne₂ i hij, hpj, hphys₂] at htrap
      rw [hchild, he₃]
      exact htrap.of_samePage (hframe₂.keep _ _ (not_procPages_trapframe hij) hold).2
    all_goals simp only [hchild]
    case pid => exact hpid
    case fresh => exact hnone
    case tabs => exact Function.update_idem _ _ _
    case frame => exact hframe₂.trans hframe₃

theorem fork_spec (h : Good L k) (hi : (k.proc i).state = .runnable) :
    ∃ res k', fork L i k = .ok (res, k') ∧ Good L k' := by
  obtain ⟨⟨own, tabs, hk⟩, hset⟩ := h
  obtain ⟨T, -, hT, -⟩ := hk.spaces.shape i ((hset i).pagetable_ne hi)
  obtain ⟨res, k', own', tabs', hrun, hk', hset', -⟩ := fork_cases hk hset hi hT
  exact ⟨res, k', hrun, ⟨own', tabs', hk'⟩, hset'⟩

/-! ## `exec` -/

/-- An image in the making: memory holds a table that belongs to no process yet. -/
structure Building (L : Image) (k : Kern) (own : Owners) (tabs : ℕ → Option Tree) (r tf sz : ℕ)
    (t : Phys) (own' : Owners) (T : Tree) : Prop where
  vm : VmOk L.toLayout t own' (Function.update tabs r (some T))
  frame : Frame (Space r 0) k.phys own t own'
  fresh : tabs r = none
  shape : Shape L tf sz T

theorem Building.discard (h : KernOk L k own tabs hand held)
    (hb : Building L k own tabs r tf sz t own' T) :
    ∃ u own'', procFreepagetable L r sz t = .ok ((), u) ∧
      KernOk L { k with phys := u } own'' tabs hand held := by
  obtain ⟨u, own'', hrun, hvm, hframe⟩ :=
    procFreepagetable_spec hb.vm (Function.update_self _ _ _) hb.shape
  rw [Function.update_idem, ← hb.fresh, Function.update_eq_self] at hvm
  have hfree := Frame.of_no_table (hb.frame.trans hframe) h.vm hvm hb.fresh
  exact ⟨u, own'', hrun, h.phys hvm (Frame.sameKern hfree fun _ _ => freePages_not_opaque)⟩

/-- `exec` commits to an image: it stores the entry point, changes the page table and frees the old
one. -/
theorem Building.commit (h : KernOk L k own tabs hand held) (hi : (k.proc i).pagetable ≠ 0)
    (htf : (k.proc i).trapframe ≠ 0)
    (hb : Building L k own tabs r (k.proc i).trapframe sz t own' T) (sp entry : ℕ) :
    ∃ m' u own'' tabs', setEntry (k.proc i).trapframe sp entry t = .ok ((), { t with mem := m' }) ∧
      procFreepagetable L (k.proc i).pagetable (k.proc i).sz { t with mem := m' } = .ok ((), u) ∧
      KernOk L { k with
        phys := u
        proc := Function.update k.proc i { k.proc i with pagetable := r, sz := sz } }
        own'' tabs' hand held ∧
      tabs' r = some T ∧ Entered (k.proc i).trapframe sp u.mem ∧
      ∀ x v, own' x = some (.user r v) → SamePage t.mem u.mem x := by
  have hown := Frame.sameKern hb.frame fun _ _ => space_not_opaque
  have hp : own' (k.proc i).trapframe = some (.trapframe i.val) :=
    (hown _ _ ⟨by simp, rfl⟩).2 ((h.roles.trapframe _ _).2 ⟨htf, i, rfl, rfl⟩)
  obtain ⟨m', hset, honly, hentered⟩ := setEntry_spec (s := t) sp entry (hb.vm.aligned hp)
  have hvm := hb.vm.write_page hp (by simp) (fun r hr => by cases hr.1) honly
  obtain ⟨T₀, tf₀, hT₀, hs₀, -⟩ := h.spaces.shape i hi
  have hne : (k.proc i).pagetable ≠ r := fun e => by
    rw [e, hb.fresh] at hT₀
    cases hT₀
  obtain ⟨u, own'', hfree, hvm', hframe⟩ := procFreepagetable_spec hvm
    (r := (k.proc i).pagetable) (by rw [Function.update_of_ne hne]; exact hT₀) hs₀
  have hr : r ≠ 0 := by
    rintro rfl
    have := VmOk.table_zero hb.vm
    rw [Function.update_self] at this
    cases this
  refine ⟨m', u, own'', _, hset, hfree, ⟨hvm', h.roles.congr
    (hown.trans (Frame.sameKern hframe fun _ _ => space_not_opaque))
    (fun j => update_field Proc.trapframe k.proc i j rfl) rfl rfl, ?_,
    h.files.congr (fun j => update_field Proc.ofile k.proc i j rfl) rfl rfl⟩,
    by rw [Function.update_of_ne hne.symm, Function.update_self],
    hentered.of_samePage (hframe.keep _ _ (fun hc => space_not_opaque hc ⟨by simp, rfl⟩) hp).2,
    fun x v hx => ?_⟩
  swap
  · have hxp : x ≠ (k.proc i).trapframe := fun e => by
      rw [e, hp] at hx
      cases hx
    have hkeep := (hframe.keep x _ (by simp [Space, Owner.IsTable, Owner.table, hne.symm]) hx).2
    exact (honly x (hb.vm.aligned hx) hxp).trans hkeep
  have hpt : (Function.update k.proc i { k.proc i with pagetable := r, sz := sz } i).pagetable = r := by
    rw [Function.update_self]
  refine h.spaces.set (i := i) (fun j hj => Function.update_of_ne hj _ _) (fun _ => ?_)
    (fun _ j _ e => ?_) (fun x hx hx' => ?_) fun _ => Function.update_self _ _ _
  · simp only [Function.update_self]
    rw [Function.update_of_ne hne.symm, Function.update_self]
    exact ⟨T, _, rfl, hb.shape, .inl rfl⟩
  · rw [hpt] at e
    obtain ⟨T', -, hT', -⟩ := h.spaces.shape j (by rw [e]; exact hr)
    rw [e, hb.fresh] at hT'
    cases hT'
  · rw [hpt] at hx'
    rw [Function.update_of_ne hx, Function.update_of_ne hx']

theorem settled_commit (hset : ∀ j, Settled (k.proc j)) (hi : (k.proc i).state = .runnable)
    (hr : r ≠ 0) (j : Slot) :
    Settled (Function.update k.proc i { k.proc i with pagetable := r, sz := sz } j) := by
  by_cases e : j = i
  · subst e
    rw [Function.update_self]
    have hl := (hset j).live (by rw [hi]; simp)
    exact .inr ⟨hl.state, hr, hl.trapframe, hl.ofile⟩
  · rw [Function.update_of_ne e]
    exact hset j

theorem exec_spec (hk : KernOk L k own tabs hand held) (hset : ∀ j, Settled (k.proc j))
    (hi : (k.proc i).state = .runnable) (file : Option Reader) (argv : List ℕ) :
    ∃ res k' own' tabs', exec L i file argv k = .ok (res, k') ∧ KernOk L k' own' tabs' hand held ∧
      ∀ j, Settled (k'.proc j) := by
  have hl := (hset i).live (by rw [hi]; simp)
  cases file with
  | none => exact ⟨-1, k, own, tabs, rfl, hk, hset⟩
  | some rd =>
    simp only [exec]
    split_ifs with h₁ h₂
    · exact ⟨-1, k, own, tabs, rfl, hk, hset⟩
    · exact ⟨-1, k, own, tabs, rfl, hk, hset⟩
    obtain ⟨elf, helf⟩ : ∃ elf, rd.read 0 64 = elf := ⟨_, rfl⟩
    rw [helf, run_bind (run_get k)]
    have htf : own (k.proc i).trapframe = some (.trapframe i.val) :=
      (hk.roles.trapframe _ _).2 ⟨hl.trapframe, i, rfl, rfl⟩
    obtain ⟨r, t, own₁, hrun, ⟨rfl, hvm, hframe⟩ | ⟨hr, hnone, hframe, T, hvm, hs⟩⟩ :=
      procPagetable_spec hk.vm (hk.vm.aligned htf) (hk.vm.below htf)
    · rw [run_bind (run_vm hrun)]
      exact ⟨-1, _, own₁, tabs, rfl,
        hk.phys hvm (Frame.sameKern hframe fun _ _ => freePages_not_opaque), hset⟩
    rw [run_bind (run_vm hrun), if_neg hr]
    obtain ⟨res, sz, t₂, own₂, T₂, hload, he, hs₂⟩ := loadImage_spec rd elf argv hvm
      (Function.update_self _ _ _) hs
    have hb : Building L k own tabs r (k.proc i).trapframe sz t₂ own₂ T₂ :=
      ⟨by simpa using he.vm, hframe.trans he.frame, hnone, hs₂⟩
    rw [run_bind (run_vm (k := { k with phys := t }) hload)]
    cases res with
    | none =>
      obtain ⟨u, own₃, hfree, hk₃⟩ := hb.discard hk
      simp only []
      rw [run_bind (run_vm (k := { k with phys := t₂ }) hfree)]
      exact ⟨-1, _, own₃, tabs, rfl, hk₃, hset⟩
    | some res =>
      obtain ⟨sp, argc⟩ := res
      obtain ⟨m', u, own₃, tabs₃, hset₃, hfree, hk₃, -⟩ :=
        hb.commit hk hl.pagetable hl.trapframe sp (field elf 24 8)
      simp only []
      rw [run_bind (run_vm (k := { k with phys := t₂ }) hset₃), run_bind (run_setProc _ _ _)]
      exact ⟨_, _, own₃, tabs₃, by rw [run_bind (run_vm hfree)]; rfl, hk₃,
        settled_commit hset hi hr⟩

theorem KernOk.hold (hk : KernOk L k own tabs hand held) (hvm : VmOk L.toLayout t own' tabs)
    (hl : Holds own' held') (hf : Frame SparePages k.phys own t own') :
    KernOk L { k with phys := t } own' tabs hand held' := by
  have hkeep {x : ℕ} {o : Owner} (ho : ¬ SparePages x o) : own' x = some o ↔ own x = some o :=
    ⟨hf.back x o ho, fun hx => (hf.keep x o ho hx).1⟩
  exact
    { vm := hvm
      roles :=
        { held := hl
          trapframe := fun j x => (hkeep (by simp [SparePages])).trans (hk.roles.trapframe j x)
          pipe := fun x => (hkeep (by simp [SparePages])).trans (hk.roles.pipe x)
          boot := fun x => (hkeep (by simp [SparePages])).trans (hk.roles.boot x) }
      spaces := hk.spaces.congr fun _ => ⟨rfl, rfl, .inl rfl⟩
      files := hk.files.congr (fun _ => rfl) rfl rfl }

theorem freeAll_held (h : VmOk L.toLayout s own tabs) (hl : Holds own held) :
    ∃ t own', freeAll L.toLayout held s = .ok ((), t) ∧ VmOk L.toLayout t own' tabs ∧ Holds own' [] ∧
      Frame SparePages s own t own' := by
  obtain ⟨t, own', hrun, hvm, hfr⟩ := freeAll_spec h hl.nodup fun p hp => (hl.mem_iff p).2 hp
  have hother {x : ℕ} {o : Owner} (ho : ¬ SparePages x o) (hx : own x = some o) : x ∉ held := fun hm => by
    rw [(hl.mem_iff x).2 hm] at hx
    exact ho (.inr (Option.some.inj hx).symm)
  refine ⟨t, own', hrun, hvm, ⟨List.nodup_nil, fun x => ?_⟩, fun x o ho hx => ?_, fun x o ho hx => ?_⟩
  · refine iff_of_false (fun hx => ?_) (by simp)
    by_cases hm : x ∈ held
    · rw [hfr.free x hm] at hx
      cases hx
    · rw [hfr.other x hm, hl.mem_iff] at hx
      exact hm hx
  · have hm := hother ho hx
    exact ⟨(hfr.other x hm).trans hx, hfr.same x hm (h.aligned hx)⟩
  · by_cases hm : x ∈ held
    · rw [hfr.free x hm] at hx
      exact absurd (.inl (Option.some.inj hx).symm) ho
    · rwa [hfr.other x hm] at hx

/-- The argument pages of `sys_exec` are taken before `exec` and freed after it. -/
theorem sysExec_spec (h : Good L k) (hi : (k.proc i).state = .runnable) (file : Option Reader)
    (args : List (Option (List (BitVec 8)))) (last : Bool) :
    ∃ res k', sysExec L i file args last k = .ok (res, k') ∧ Good L k' := by
  obtain ⟨⟨own, tabs, hk⟩, hset⟩ := h
  obtain ⟨ok, argv, t, own₁, hfetch, hvm₁, hl₁, hframe₁⟩ :=
    fetchArgs_spec last args hk.vm hk.roles.held
  have hk₁ := hk.hold hvm₁ hl₁ hframe₁
  have hexec : ∃ res k' own' tabs', (if ok then exec L i file argv else pure (-1) : KCode ℤ)
      { k with phys := t } = .ok (res, k') ∧ KernOk L k' own' tabs' (fun _ => 0) argv ∧
      ∀ j, Settled (k'.proc j) := by
    split_ifs
    · exact exec_spec hk₁ hset hi file argv
    · exact ⟨-1, _, own₁, tabs, rfl, hk₁, hset⟩
  obtain ⟨res, k₂, own₂, tabs₂, hrun₂, hk₂, hset₂⟩ := hexec
  obtain ⟨u, own₃, hfree, hvm₃, hl₃, hframe₃⟩ := freeAll_held hk₂.vm hk₂.roles.held
  refine ⟨res, { k₂ with phys := u }, ?_, ⟨own₃, tabs₂, hk₂.hold hvm₃ hl₃ hframe₃⟩, hset₂⟩
  rw [sysExec, run_bind (run_vm hfetch)]
  simp only []
  rw [run_bind hrun₂, run_bind (run_vm hfree)]
  rfl

/-! ## Every call -/

/-- A call of a runnable process returns in a good state, or it is the exit of the first process. -/
theorem syscall_spec (h : Good L k) (hi : (k.proc i).state = .runnable) (c : Call) :
    syscall L i c k = .error "init exiting" ∨
      ∃ res k', syscall L i c k = .ok (res, k') ∧ Good L k' := by
  have hmap {x : KCode ℤ} (hx : ∃ res k', x k = .ok (res, k') ∧ Good L k') :
      ∃ res k', (some <$> x : KCode (Option ℤ)) k = .ok (res, k') ∧ Good L k' := by
    obtain ⟨res, k', hrun, hgood⟩ := hx
    refine ⟨some res, k', ?_, hgood⟩
    rw [map_eq_pure_bind, run_bind hrun]
    rfl
  cases c with
  | fork => exact .inr (hmap (fork_spec h hi))
  | exec file args last => exact .inr (hmap (sysExec_spec h hi file args last))
  | sbrk n => exact .inr (hmap (sysSbrk_spec h hi n.toInt))
  | exit status =>
    obtain hrun | ⟨k', hrun, hgood⟩ := exit_spec h hi status
    · left
      change (exit L i status k >>= fun x => _) = _
      rw [hrun]
      rfl
    · exact .inr ⟨none, k', by rw [syscall, run_bind hrun]; rfl, hgood⟩
  | wait addr => exact .inr (wait_spec h hi addr)
  | pipe fdarray => exact .inr (hmap (sysPipe_spec h hi fdarray))
  | close fd => exact .inr (hmap (sysClose_spec h hi fd))
  | dup fd => exact .inr (hmap (sysDup_spec h hi fd))
  | openInode device readable writable =>
    refine .inr (hmap (openInode_spec h hi ?_ readable writable))
    cases device
    · exact .inl rfl
    · exact .inr rfl
  | store va bytes => exact .inr (hmap (storeUser_spec h hi va bytes))

end Xv6.Sys
