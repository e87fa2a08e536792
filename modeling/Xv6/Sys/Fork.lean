import Xv6.Sys.UserSpace

/-!
# `fork` copies a process exactly or not at all

The model of the kernel with the current directories, which are references to inodes.  `fork` runs as in
`Sys` and takes one more reference to the directory of the parent.  All pages that it touches are the
child's: taken from the free list, or back on it when `fork` fails.
-/

namespace Xv6.Fork

open Memory Kernel Kalloc Vm Sys Runs

structure State where
  kern : Kern
  /-- `p->cwd`, as a place of the inode table. -/
  cwd : Slot → ℕ
  /-- The reference counts of the inode table. -/
  iref : ℕ → ℕ

abbrev F := Code String State

/-- Code that works on the kernel without inodes. -/
def kern {α : Type} (c : KCode α) : F α := zoom State.kern (fun st k => { st with kern := k }) c

def idup (ip : ℕ) : F ℕ := do
  modify fun st => { st with iref := Function.update st.iref ip (st.iref ip + 1) }
  pure ip

def setCwd (i : Slot) (ip : ℕ) : F Unit := modify fun st => { st with cwd := Function.update st.cwd i ip }

def fork (L : Image) (i : Slot) : F ℤ := do
  match ← kern (allocproc L) with
  | none => pure (-1)
  | some j => do
    let st ← get
    let p := st.kern.proc i
    let np := st.kern.proc j
    let r ← kern (vm (uvmcopy L.toLayout p.pagetable np.pagetable p.sz))
    if r < 0 then do
      kern (freeproc L j)
      pure (-1)
    else do
      kern (setProc j fun x => { x with sz := p.sz })
      kern (vm (copyTrapframe p.trapframe np.trapframe))
      kern (dupFiles i j (List.finRange NOFILE))
      let ip ← idup (st.cwd i)
      setCwd j ip
      kern (setProc j fun x => { x with parent := some i })
      kern (setProc j fun x => { x with state := .runnable })
      pure (np.pid : ℤ)

/-- Nothing that a process can see has changed, and the same places and pages are free. -/
structure Unchanged (st st' : State) : Prop where
  space : ∀ x, (st.kern.proc x).state ≠ .unused → SameSpace st.kern st'.kern x
  trapframe : ∀ x, (st.kern.proc x).state ≠ .unused → ∀ a < PGSIZE,
    st'.kern.phys.mem ((st.kern.proc x).trapframe + a) = st.kern.phys.mem ((st.kern.proc x).trapframe + a)
  used : ∀ x, (st'.kern.proc x).state ≠ .unused ↔ (st.kern.proc x).state ≠ .unused
  file : st'.kern.file = st.kern.file
  pipe : st'.kern.pipe = st.kern.pipe
  cwd : st'.cwd = st.cwd
  iref : st'.iref = st.iref
  free : ∀ p, Plays st'.kern p .free ↔ Plays st.kern p .free

/-- The page of entry `w'` in `k'` was free in `k` and copies that of entry `w`. -/
structure PageCopied (k k' : Kern) (w w' : ℕ) : Prop where
  flags : pteFlags w' = pteFlags w
  fresh : Plays k (pte2pa w') .free
  same : ∀ x < PGSIZE, k'.phys.mem (pte2pa w' + x) = k.phys.mem (pte2pa w + x)

/-- Process `j` is a copy of process `i`, made between the two states. -/
structure IsCopy (st : State) (i : Slot) (st' : State) (j : Slot) : Prop where
  unused : (st.kern.proc j).state = .unused
  state : (st'.kern.proc j).state = .runnable
  parent : (st'.kern.proc j).parent = some i
  sz : (st'.kern.proc j).sz = (st.kern.proc i).sz
  page : ∀ v, v * PGSIZE < pgroundup (st.kern.proc i).sz → PageCopied st.kern st'.kern
    (leafAt st.kern.phys.mem (st.kern.proc i).pagetable v)
    (leafAt st'.kern.phys.mem (st'.kern.proc j).pagetable v)
  registers : CopiedTrapframe (st.kern.proc i).trapframe (st'.kern.proc j).trapframe st.kern.phys.mem
    st'.kern.phys.mem
  ofile : (st'.kern.proc j).ofile = (st.kern.proc i).ofile
  /-- One more reference for each descriptor. -/
  file : ∀ f, st'.kern.file f = { st.kern.file f with
    ref := (st.kern.file f).ref +
      (List.finRange NOFILE).countP fun fd => (st.kern.proc i).ofile fd = some f }
  cwd : st'.cwd = Function.update st.cwd j (st.cwd i)
  iref : st'.iref = Function.update st.iref (st.cwd i) (st.iref (st.cwd i) + 1)
  other : ∀ x, (st.kern.proc x).state ≠ .unused → SameSpace st.kern st'.kern x

variable {L : Image} {st st' : State} {k k' : Kern} {own own' : Owners} {tabs tabs' : ℕ → Option Tree}
  {T T' : Tree} {i j : Slot} {res : ℤ} {r p v : ℕ}

/-! ## The run -/

theorem run_kern {α : Type} {c : KCode α} {a : α} (h : c st.kern = .ok (a, k)) :
    kern c st = .ok (a, { st with kern := k }) := run_zoom h

theorem run_idup (ip : ℕ) (st : State) :
    idup ip st = .ok (ip, { st with iref := Function.update st.iref ip (st.iref ip + 1) }) := rfl

theorem run_setCwd (i : Slot) (ip : ℕ) (st : State) :
    setCwd i ip st = .ok ((), { st with cwd := Function.update st.cwd i ip }) := rfl

/-- `fork` does to the kernel what it does there, and takes a reference for the child. -/
theorem fork_of_sys (h : Sys.fork L i st.kern = .ok (res, k')) :
    fork L i st = .ok (res, { st with kern := k' }) ∧ res = -1 ∨
      0 ≤ res ∧ ∃ j k₁, allocproc L st.kern = .ok (some j, k₁) ∧ fork L i st = .ok (res, {
        kern := k'
        cwd := Function.update st.cwd j (st.cwd i)
        iref := Function.update st.iref (st.cwd i) (st.iref (st.cwd i) + 1) }) := by
  rw [Sys.fork] at h
  obtain ⟨a, k₁, halloc, h⟩ := run_bind_eq_ok h
  rw [fork, run_bind (run_kern halloc)]
  cases a with
  | none =>
    obtain ⟨rfl, rfl⟩ := Prod.mk.inj (Except.ok.inj h)
    exact .inl ⟨rfl, rfl⟩
  | some j =>
    simp only [] at h ⊢
    rw [run_bind (run_get _)] at h ⊢
    obtain ⟨c, k₂, hcopy, h⟩ := run_bind_eq_ok h
    rw [run_bind (run_kern hcopy)]
    by_cases hc : c < 0
    · rw [if_pos hc] at h ⊢
      obtain ⟨_, k₃, hfree, h⟩ := run_bind_eq_ok h
      obtain ⟨rfl, rfl⟩ := Prod.mk.inj (Except.ok.inj h)
      rw [run_bind (run_kern hfree)]
      exact .inl ⟨rfl, rfl⟩
    · rw [if_neg hc] at h ⊢
      obtain ⟨_, k₃, hsz, h⟩ := run_bind_eq_ok h
      obtain ⟨_, k₄, htf, h⟩ := run_bind_eq_ok h
      obtain ⟨_, k₅, hdup, h⟩ := run_bind_eq_ok h
      obtain ⟨_, k₆, hparent, h⟩ := run_bind_eq_ok h
      obtain ⟨_, k₇, hstate, h⟩ := run_bind_eq_ok h
      obtain ⟨rfl, rfl⟩ := Prod.mk.inj (Except.ok.inj h)
      refine .inr ⟨Int.natCast_nonneg _, j, k₁, halloc, ?_⟩
      rw [run_bind (run_kern hsz), run_bind (run_kern htf), run_bind (run_kern hdup),
        run_bind (run_idup _ _), run_bind (run_setCwd _ _ _), run_bind (run_kern hparent),
        run_bind (run_kern hstate)]
      rfl

/-! ## The two outcomes -/

theorem unchanged_of_givenUp (hk : KernOk L st.kern own tabs (fun _ => 0) [])
    (hk' : KernOk L k' own' tabs (fun _ => 0) []) (hset : ∀ x, Settled (st.kern.proc x))
    (h : GivenUp st.kern own k' own') : Unchanged st { st with kern := k' } where
  space x hx := sameSpace_of_frame hk hk' h.frame (h.used x hx) ((hset x).live hx).pagetable rfl
    fun p v => by simp [FreePages]
  trapframe x hx a ha := trapframe_byte_of_frame hk h.frame ((hset x).live hx).trapframe
    (fun p => by simp [FreePages]) ha
  used x := by
    by_cases hx : (st.kern.proc x).state = .unused
    · simp [hx, h.unused x hx]
    · simp [h.used x hx]
  file := h.same.file
  pipe := h.same.pipe
  cwd := rfl
  iref := rfl
  free := free_iff_of_frame hk hk' h.frame

theorem Forked.page_free (h : Forked i j k own tabs k' own' tabs' T T')
    (hk : KernOk L k own tabs (fun _ => 0) []) (hk' : KernOk L k' own' tabs' (fun _ => 0) [])
    (hset : ∀ x, Settled (k.proc x)) (hp : own' p = some (.user (k'.proc j).pagetable v)) :
    own p = some .free := by
  have hsome : (own p).isSome := (hk.vm.pages p).2 ((hk'.vm.pages p).1 (by rw [hp]; rfl))
  obtain ⟨o, ho⟩ := Option.isSome_iff_exists.1 hsome
  have hno {o : Owner} (ho : own p = some o) : o.table ≠ some (k'.proc j).pagetable := by
    intro e
    have := hk.vm.rooted p o _ ho e
    rw [h.fresh] at this
    cases this
  by_cases hC : ProcPages (k'.proc j).pagetable j p o
  · obtain (rfl | ⟨e, -⟩ | ⟨v, -, rfl⟩) | rfl := hC
    · exact ho
    · exact absurd e (hno ho)
    · exact absurd rfl (hno ho)
    · exact absurd ho (hk.no_trapframe ((hset j).unused h.unused).trapframe p)
  · have := (h.frame.keep p o hC ho).1
    rw [hp] at this
    exact absurd (.inl (.inr (.inr ⟨v, Nat.zero_le v, (Option.some.inj this).symm⟩))) hC

theorem isCopy_of_forked (hk : KernOk L st.kern own tabs (fun _ => 0) [])
    (hk' : KernOk L k' own' tabs' (fun _ => 0) []) (hset : ∀ x, Settled (st.kern.proc x))
    (hT : tabs (st.kern.proc i).pagetable = some T) (hi : (st.kern.proc i).pagetable ≠ 0)
    (h : Forked i j st.kern own tabs k' own' tabs' T T') (hpt : (k'.proc j).pagetable ≠ 0) :
    IsCopy st i {
      kern := k'
      cwd := Function.update st.cwd j (st.cwd i)
      iref := Function.update st.iref (st.cwd i) (st.iref (st.cwd i) + 1) } j where
  unused := h.unused
  state := h.state
  parent := h.parent
  sz := h.sz
  registers := h.trapframe
  ofile := h.ofile
  file := h.file
  cwd := rfl
  iref := rfl
  page v hv := by
    have hT' : tabs' (k'.proc j).pagetable = some T' := by
      rw [h.tabs]
      exact Function.update_self _ _ _
    obtain ⟨Ti, _, hTi, hsi, -⟩ := hk.spaces.shape i hi
    obtain rfl : T = Ti := Option.some.inj (hT.symm.trans hTi)
    obtain ⟨Tj, _, hTj, hsj, -⟩ := hk'.spaces.shape j hpt
    obtain rfl : T' = Tj := Option.some.inj (hT'.symm.trans hTj)
    rw [mul_lt_pgroundup_iff hsi.mapped] at hv
    have hbig : v < 2 ^ 27 := (hv.trans_le hsi.mapped.le).trans (by decide)
    have hnew : v < npages (k'.proc j).sz := by rwa [h.sz]
    have hcopy := h.copied v hv
    simp only [hk.leafAt hT hbig, hk'.leafAt hT' hbig]
    refine ⟨hcopy.1, (plays_free_iff hk.vm.free).2 ?_, hcopy.2⟩
    exact Forked.page_free h hk hk' hset (VmOk.user_page hk'.vm hT' hsj.mapped hnew)
  other x hx := by
    have hxj : x ≠ j := fun e => hx (e ▸ h.unused)
    have hptx := ((hset x).live hx).pagetable
    have hne : (st.kern.proc x).pagetable ≠ (k'.proc j).pagetable := by
      rw [← h.other x hxj] at hptx ⊢
      exact fun e => hxj (hk'.spaces.inj x j e hptx)
    refine sameSpace_of_frame hk hk' h.frame (h.other x hxj) hptx ?_ fun p v => not_procPages_user hne
    rw [h.tabs, Function.update_of_ne hne]

/-- `fork` returns; it makes an exact copy of the process, or returns -1 and leaves everything as it
was. -/
theorem fork_exact (st : State) (i : Slot) (hgood : Good L st.kern) (hi : (st.kern.proc i).state = .runnable) :
    ∃ res st', fork L i st = .ok (res, st') ∧ Good L st'.kern ∧
      (res = -1 ∧ Unchanged st st' ∨ ∃ j, res = (st'.kern.proc j).pid ∧ IsCopy st i st' j) := by
  obtain ⟨⟨own, tabs, hk⟩, hset⟩ := hgood
  have hpi := (hset i).pagetable_ne hi
  obtain ⟨T, -, hT, -⟩ := hk.spaces.shape i hpi
  obtain ⟨res, k', own', tabs', hrun, hk', hset', hres⟩ := fork_cases hk hset hi hT
  have hgood' : Good L k' := ⟨⟨own', tabs', hk'⟩, hset'⟩
  obtain ⟨rfl, rfl, hgive⟩ | ⟨rfl, j, T', k₁, halloc, hf⟩ := hres
  · obtain ⟨hfork, -⟩ | ⟨h₀, -⟩ := fork_of_sys hrun
    · exact ⟨-1, _, hfork, hgood', .inl ⟨rfl, unchanged_of_givenUp hk hk' hset hgive⟩⟩
    · omega
  · obtain ⟨-, e⟩ | ⟨-, j', k₁', halloc', hfork⟩ := fork_of_sys hrun
    · omega
    · rw [halloc] at halloc'
      obtain ⟨hj, -⟩ := Prod.mk.inj (Except.ok.inj halloc')
      obtain rfl : j = j' := Option.some.inj hj
      refine ⟨_, _, hfork, hgood', .inr ⟨j, by rw [hf.pid], ?_⟩⟩
      exact isCopy_of_forked hk hk' hset hT hpi hf ((hset' j).pagetable_ne hf.state)

/-- The state of the extended model in which every process is in the root directory. -/
def inRoot (k : Kern) : State := ⟨k, fun _ => 0, fun _ => 1⟩

/-- The first process forks twice. -/
def forkTwice (k : Kern) : Except String (ℤ × ℤ) :=
  match fork smallImage ⟨0, nproc_pos⟩ (inRoot k) with
  | .ok (res, st) => (fork smallImage ⟨0, nproc_pos⟩ st).map fun x => (res, x.1)
  | .error e => .error e

/-- The small machine has memory for one child and not for a second. -/
theorem fork_exact_small : ∃ k st₁ st₂ j, Booted smallImage k ∧
    fork smallImage ⟨0, by decide⟩ (inRoot k) = .ok (2, st₁) ∧ IsCopy (inRoot k) ⟨0, by decide⟩ st₁ j ∧
    fork smallImage ⟨0, by decide⟩ st₁ = .ok (-1, st₂) ∧ Unchanged st₁ st₂ := by
  obtain ⟨k, x, hk, hrun, hP⟩ := exists_of_smallRun [] (fun x =>
    decide ((x.kern.proc ⟨0, by decide⟩).state = .runnable) &&
      match forkTwice x.kern with
      | .ok res => decide (res = (2, -1))
      | .error _ => false) (by decide +kernel)
  obtain rfl : (⟨k, none⟩ : Machine) = x := Option.some.inj hrun
  simp only [Bool.and_eq_true, decide_eq_true_eq] at hP
  obtain ⟨hi, hres⟩ := hP
  have hgood := (sound_run hk hrun).good
  obtain ⟨res₁, st₁, hfork₁, hgood₁, h₁⟩ := fork_exact (inRoot k) _ hgood hi
  have hi₁ : (st₁.kern.proc ⟨0, by decide⟩).state = .runnable := by
    have hne : ((inRoot k).kern.proc ⟨0, by decide⟩).state ≠ .unused := by
      change (k.proc ⟨0, by decide⟩).state ≠ .unused
      rw [hi]
      decide
    obtain ⟨-, h⟩ | ⟨j, -, h⟩ := h₁
    · rw [(h.space _ hne).proc]
      exact hi
    · rw [(h.other _ hne).proc]
      exact hi
  obtain ⟨res₂, st₂, hfork₂, -, h₂⟩ := fork_exact st₁ _ hgood₁ hi₁
  simp only [forkTwice, hfork₁, hfork₂, Except.map, decide_eq_true_eq, Prod.mk.injEq] at hres
  obtain ⟨rfl, rfl⟩ := hres
  obtain ⟨e, -⟩ | ⟨j, -, hcopy⟩ := h₁
  · cases e
  obtain ⟨-, hsame⟩ | ⟨j', e, -⟩ := h₂
  · exact ⟨k, st₁, st₂, j, hk, hfork₁, hcopy, hfork₂, hsame⟩
  · omega

end Xv6.Fork
