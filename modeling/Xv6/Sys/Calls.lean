import Xv6.Sys.OpenFiles

/-!
# System calls keep the invariant

From a `Good` state every system call of a runnable process returns (it does not panic), in a `Good`
state; only `exit` of the first process panics, as it must.
-/

namespace Xv6.Sys

open Memory Kernel Kalloc Vm

variable {L : Image} {k k' : Kern} {s t u : Phys} {own own' own'' : Owners}
  {tabs tabs' : ℕ → Option Tree} {hand hand' : FileId → ℤ} {held held' : List ℕ} {r p q : ℕ}
  {T T' : Tree} {o : Owner} {i j : Slot} {f g : FileId} {fd : Fin NOFILE}

theorem KernOk.congr_hand (h : KernOk L k own tabs hand held) (e : ∀ f, hand' f = hand f) :
    KernOk L k own tabs hand' held := by
  rwa [show hand' = hand from funext e]

theorem Files.one_le_of_hand (h : Files k hand) (hf : 1 ≤ hand f) : 1 ≤ (k.file f).ref := by
  have := h.ref f
  omega

/-- A runnable process stays one when a descriptor changes. -/
theorem settled_withFd (hset : ∀ j, Settled (k.proc j)) (hi : (k.proc i).state = .runnable)
    (b : Option FileId) (j : Slot) : Settled ((withFd k i fd b).proc j) := by
  by_cases e : j = i
  · subst e
    rcases hset j with hu | hl
    · rw [hu.state] at hi
      cases hi
    · refine .inr ⟨?_, ?_, ?_, fun hz => ?_⟩
      · simpa [withFd] using hl.state
      · simpa [withFd] using hl.pagetable
      · simpa [withFd] using hl.trapframe
      · simp [withFd, hi] at hz
  · rw [show (withFd k i fd b).proc j = k.proc j from Function.update_of_ne e _ _]
    exact hset j

theorem state_withFd (b : Option FileId) : ((withFd k i fd b).proc j).state = (k.proc j).state :=
  update_field Proc.state k.proc i j rfl

theorem fdalloc_spec (h : KernOk L k own tabs hand held) (i : Slot) (f : FileId) :
    fdalloc i f k = .ok (none, k) ∨ ∃ fd, (k.proc i).ofile fd = none ∧
      fdalloc i f k = .ok (some fd, withFd k i fd (some f)) ∧
      KernOk L (withFd k i fd (some f)) own tabs (bump hand f (-1)) held := by
  rw [fdalloc, run_bind (run_get k)]
  cases hfind : (List.finRange NOFILE).find? fun fd => (k.proc i).ofile fd = none with
  | none => exact .inl rfl
  | some fd =>
    have hfd : (k.proc i).ofile fd = none := by simpa using List.find?_some hfind
    refine .inr ⟨fd, hfd, rfl, (h.setFd i fd (some f)).congr_hand fun g => ?_⟩
    simp only [bump, single, hfd]
    by_cases e : g = f
    · simp [e]
      omega
    · simp [e, Ne.symm e]

/-! ## Descriptors -/

theorem sysClose_spec (h : Good L k) (hi : (k.proc i).state = .runnable) (fd : Fin NOFILE) :
    ∃ res k', sysClose L i fd k = .ok (res, k') ∧ Good L k' := by
  obtain ⟨⟨own, tabs, hk⟩, hset⟩ := h
  rw [sysClose, run_bind (run_get k)]
  cases hfd : (k.proc i).ofile fd with
  | none => exact ⟨-1, k, rfl, ⟨own, tabs, hk⟩, hset⟩
  | some f =>
    simp only []
    rw [run_bind (run_setFd _ _ _ _)]
    have hk₁ : KernOk L (withFd k i fd none) own tabs (bump (fun _ => 0) f 1) [] :=
      (hk.setFd i fd none).congr_hand fun g => by
      simp only [bump, single, hfd]
      by_cases e : g = f
      · simp [e]
      · simp [e, Ne.symm e]
    obtain ⟨k₂, own₂, hrun, hk₂, hsame, -⟩ := fileclose_spec hk₁ (f := f)
      (hk₁.files.one_le_of_hand (by simp [bump]))
    rw [bump_bump] at hk₂
    refine ⟨0, k₂, by rw [run_bind hrun]; rfl, ⟨own₂, tabs, hk₂⟩, fun j => ?_⟩
    rw [hsame.proc]
    exact settled_withFd hset hi none j

theorem sysDup_spec (h : Good L k) (hi : (k.proc i).state = .runnable) (fd : Fin NOFILE) :
    ∃ res k', sysDup i fd k = .ok (res, k') ∧ Good L k' := by
  obtain ⟨⟨own, tabs, hk⟩, hset⟩ := h
  rw [sysDup, run_bind (run_get k)]
  cases hfd : (k.proc i).ofile fd with
  | none => exact ⟨-1, k, rfl, ⟨own, tabs, hk⟩, hset⟩
  | some f =>
    have href := hk.files.one_le_ref le_rfl hfd
    simp only []
    obtain hrun | ⟨fd', -, hrun, hk₁⟩ := fdalloc_spec hk i f
    · rw [run_bind hrun]
      exact ⟨-1, k, rfl, ⟨own, tabs, hk⟩, hset⟩
    rw [run_bind hrun]
    obtain ⟨hrun₂, hk₂⟩ := filedup_spec (f := f) hk₁ href
    refine ⟨_, _, by simp only [run_bind hrun₂]; rfl, ⟨own, tabs, hk₂.congr_hand fun g => ?_⟩, fun j => ?_⟩
    · simp only [bump]
      split_ifs <;> omega
    · exact settled_withFd hset hi (some f) j

theorem openInode_spec (h : Good L k) (hi : (k.proc i).state = .runnable) {type : FileType}
    (htype : type = .inode ∨ type = .device) (readable writable : Bool) :
    ∃ res k', openInode L i type readable writable k = .ok (res, k') ∧ Good L k' := by
  obtain ⟨⟨own, tabs, hk⟩, hset⟩ := h
  rw [openInode]
  obtain hrun | ⟨f, hf₀, hrun, hk₁⟩ := filealloc_spec hk
  · rw [run_bind hrun]
    exact ⟨-1, k, rfl, ⟨own, tabs, hk⟩, hset⟩
  rw [run_bind hrun]
  obtain ⟨k₁, he₁⟩ : ∃ k₁ : Kern, { k with
    file := Function.update k.file f { k.file f with ref := 1 } } = k₁ := ⟨_, rfl⟩
  have hproc₁ : k₁.proc = k.proc := by rw [← he₁]
  have hfile₁ : k₁.file f = { k.file f with ref := 1 } := by
    rw [← he₁]
    exact Function.update_self _ _ _
  rw [he₁] at hk₁
  simp only [he₁]
  have hset₁ : ∀ j, Settled (k₁.proc j) := by rw [hproc₁]; exact hset
  obtain hfd | ⟨fd, -, hfd, hk₂⟩ := fdalloc_spec hk₁ i f
  · rw [run_bind hfd]
    obtain ⟨k₂, own₂, hclose, hk₂, hsame, -⟩ := fileclose_spec hk₁ (f := f) (by rw [hfile₁])
    rw [bump_bump] at hk₂
    refine ⟨-1, k₂, by simp only [run_bind hclose]; rfl, ⟨own₂, tabs, hk₂⟩, fun j => ?_⟩
    rw [hsame.proc]
    exact hset₁ j
  · rw [run_bind hfd]
    simp only []
    have hnone : ((withFd k₁ i fd (some f)).file f).type = .none := by
      change (k₁.file f).type = _
      rw [hfile₁]
      exact hk.files.closed f hf₀
    have hk₃ := hk₂.setFile (f := f) (x := { (withFd k₁ i fd (some f)).file f with
        type := type, readable := readable, writable := writable }) (d := 0)
      (fun e => by rw [hnone] at e; cases e) (fun e => by rcases htype with rfl | rfl <;> cases e)
      (fun e => by
        have : (k₁.file f).ref = 0 := e
        rw [hfile₁] at this
        cases this) (add_zero _).symm
    refine ⟨(fd : ℕ), _, by rw [run_bind (run_setFile _ _ _)]; rfl,
      ⟨own, tabs, hk₃.congr_hand fun g => ?_⟩, fun j => ?_⟩
    · simp only [bump]
      split_ifs <;> omega
    · exact settled_withFd hset₁ (by rw [hproc₁]; exact hi) (some f) j

theorem closeBoth (hk : KernOk L k own tabs (bump (bump (fun _ => 0) f 1) g 1) [])
    (hset : ∀ j, Settled (k.proc j)) (hfg : f ≠ g) :
    ∃ res k', (do
        fileclose L f
        fileclose L g
        pure (-1) : KCode ℤ) k = .ok (res, k') ∧ Good L k' := by
  obtain ⟨k₁, own₁, hrun₁, hk₁, hsame₁, hfile⟩ := fileclose_spec hk (f := f)
    (hk.files.one_le_of_hand (by simp [bump, hfg]))
  rw [bump_comm, bump_bump] at hk₁
  obtain ⟨k₂, own₂, hrun₂, hk₂, hsame₂, -⟩ := fileclose_spec hk₁ (f := g)
    (hk₁.files.one_le_of_hand (by simp [bump]))
  rw [bump_bump] at hk₂
  refine ⟨-1, k₂, by rw [run_bind hrun₁, run_bind hrun₂]; rfl, ⟨own₂, tabs, hk₂⟩, fun j => ?_⟩
  rw [hsame₂.proc, hsame₁.proc]
  exact hset j


theorem KernOk.copyout (h : KernOk L k own tabs hand held) (hi : (k.proc i).pagetable ≠ 0) (va : ℕ)
    (bytes : List (BitVec 8)) :
    ∃ res t, Vm.copyout (k.proc i).pagetable va bytes k.phys = .ok (res, t) ∧
      KernOk L { k with phys := t } own tabs hand held := by
  obtain ⟨T, tf, hT, hs, -⟩ := h.spaces.shape i hi
  obtain ⟨res, t, hrun, -, hvm, -⟩ := copyout_spec va bytes h.vm hT hs.not_user
  exact ⟨res, t, hrun, h.phys hvm (SameKern.refl own)⟩

theorem Settled.live {x : Proc} (h : Settled x) (hs : x.state ≠ .unused) : Live x :=
  h.resolve_left fun hu => hs hu.state

theorem Settled.pagetable_ne {x : Proc} (h : Settled x) (hs : x.state = .runnable) :
    x.pagetable ≠ 0 := (h.live (by rw [hs]; simp)).pagetable

theorem copyoutFds_spec (h : KernOk L k own tabs hand held) (hi : (k.proc i).pagetable ≠ 0)
    (fdarray fd0 fd1 : ℕ) :
    ∃ res t, copyoutFds (k.proc i).pagetable fdarray fd0 fd1 k.phys = .ok (res, t) ∧
      KernOk L { k with phys := t } own tabs hand held := by
  obtain ⟨res, t, hrun, hk⟩ := h.copyout hi fdarray (bytes4 fd0)
  rw [copyoutFds, run_bind hrun]
  split_ifs with hr
  · exact ⟨-1, t, rfl, hk⟩
  · exact hk.copyout (i := i) hi ((fdarray + 4) % 2 ^ 64) (bytes4 fd1)

/-- A descriptor of a file in hand is given up again. -/
theorem KernOk.dropFd (h : KernOk L k own tabs hand held) (fd : Fin NOFILE)
    (hfd : (k.proc i).ofile fd = some f) :
    KernOk L (withFd k i fd none) own tabs (bump hand f 1) held :=
  (h.setFd i fd none).congr_hand fun g => by
    simp only [bump, single, hfd]
    by_cases e : g = f
    · simp [e]
    · simp [e, Ne.symm e]

theorem ofile_withFd (b : Option FileId) : ((withFd k i fd b).proc i).ofile fd = b := by
  simp [withFd]

theorem ofile_withFd_of_ne {fd' : Fin NOFILE} (h : fd' ≠ fd) (b : Option FileId) :
    ((withFd k i fd b).proc i).ofile fd' = (k.proc i).ofile fd' := by
  simp [withFd, h]

theorem sysPipe_spec (h : Good L k) (hi : (k.proc i).state = .runnable) (fdarray : ℕ) :
    ∃ res k', sysPipe L i fdarray k = .ok (res, k') ∧ Good L k' := by
  obtain ⟨⟨own, tabs, hk⟩, hset⟩ := h
  rw [sysPipe]
  obtain ⟨res, k₁, own₁, hrun, hsame, ⟨rfl, hk₁⟩ | ⟨f, g, rfl, hfg, hk₁⟩⟩ := pipealloc_spec hk
  · rw [run_bind hrun]
    exact ⟨-1, k₁, rfl, ⟨own₁, tabs, hk₁⟩, fun j => by rw [hsame.proc]; exact hset j⟩
  rw [run_bind hrun]
  have hset₁ : ∀ j, Settled (k₁.proc j) := by rw [hsame.proc]; exact hset
  have hi₁ : (k₁.proc i).state = .runnable := by rw [hsame.proc]; exact hi
  obtain hfd | ⟨fd0, -, hfd, hk₂⟩ := fdalloc_spec hk₁ i f
  · simp only [run_bind hfd]
    exact closeBoth hk₁ hset₁ hfg
  simp only [run_bind hfd]
  have hset₂ : ∀ j, Settled ((withFd k₁ i fd0 (some f)).proc j) := settled_withFd hset₁ hi₁ (some f)
  have hi₂ : ((withFd k₁ i fd0 (some f)).proc i).state = .runnable := (state_withFd _).trans hi₁
  obtain hfd' | ⟨fd1, hnone, hfd', hk₃⟩ := fdalloc_spec hk₂ i g
  · simp only [run_bind hfd']
    rw [run_bind (run_setFd _ _ _ _)]
    refine closeBoth ((hk₂.dropFd _ (ofile_withFd _)).congr_hand fun x => ?_)
      (settled_withFd hset₂ hi₂ none) hfg
    simp only [bump]
    split_ifs <;> omega
  simp only [run_bind hfd']
  have hset₃ : ∀ j, Settled ((withFd (withFd k₁ i fd0 (some f)) i fd1 (some g)).proc j) :=
    settled_withFd hset₂ hi₂ (some g)
  have hi₃ : ((withFd (withFd k₁ i fd0 (some f)) i fd1 (some g)).proc i).state = .runnable :=
    (state_withFd _).trans hi₂
  rw [run_bind (run_get _)]
  obtain ⟨r, t, hcopy, hk₄⟩ := copyoutFds_spec hk₃ ((hset₃ i).pagetable_ne hi₃) fdarray fd0 fd1
  rw [run_bind (run_vm hcopy)]
  split_ifs with hr
  · rw [run_bind (run_setFd _ _ _ _), run_bind (run_setFd _ _ _ _)]
    have hne : fd0 ≠ fd1 := by
      rintro rfl
      rw [ofile_withFd] at hnone
      cases hnone
    have hk₅ := hk₄.dropFd (i := i) (f := f) fd0
      ((ofile_withFd_of_ne hne _).trans (ofile_withFd _))
    have hk₆ := hk₅.dropFd (i := i) (f := g) fd1
      ((ofile_withFd_of_ne hne.symm _).trans (ofile_withFd (k := withFd k₁ i fd0 (some f)) (some g)))
    refine closeBoth (hk₆.congr_hand fun x => ?_) (settled_withFd (settled_withFd hset₃ hi₃ none)
      ((state_withFd (k := withFd (withFd k₁ i fd0 (some f)) i fd1 (some g)) none).trans hi₃) none) hfg
    simp only [bump]
    split_ifs <;> omega
  · refine ⟨0, _, rfl, ⟨own₁, tabs, hk₄.congr_hand fun x => ?_⟩, hset₃⟩
    simp only [bump]
    split_ifs <;> omega

/-! ## `sbrk` -/

theorem settled_resize (hset : ∀ j, Settled (k.proc j)) (hi : (k.proc i).state ≠ .unused) (sz : ℕ)
    (j : Slot) : Settled (Function.update k.proc i { k.proc i with sz := sz } j) := by
  by_cases e : j = i
  · subst e
    rw [Function.update_self]
    have hl := (hset j).live hi
    exact .inr ⟨hl.state, hl.pagetable, hl.trapframe, hl.ofile⟩
  · rw [Function.update_of_ne e]
    exact hset j

/-- `growproc` changes the size and the pages above the smaller of the two sizes, or nothing. -/
theorem growproc_spec (h : KernOk L k own tabs hand held) (hi : (k.proc i).pagetable ≠ 0)
    (hT : tabs (k.proc i).pagetable = some T) {tf : ℕ} (hs : Shape L tf (k.proc i).sz T)
    (htf : (k.proc i).trapframe = tf ∨ (k.proc i).trapframe = 0) (n : ℤ) :
    ∃ res t own' T' sz, growproc L i n k = .ok (res, { k with
        phys := t
        proc := Function.update k.proc i { k.proc i with sz := sz } }) ∧
      (res = -1 ∧ sz = (k.proc i).sz ∨ res = 0) ∧
      KernOk L { k with
        phys := t
        proc := Function.update k.proc i { k.proc i with sz := sz } } own'
        (Function.update tabs (k.proc i).pagetable (some T')) hand held ∧
      Frame (Space (k.proc i).pagetable (npages (min (k.proc i).sz sz))) k.phys own t own' ∧
      Keeps (npages (min (k.proc i).sz sz)) T T' := by
  have hsame : Function.update k.proc i { k.proc i with sz := (k.proc i).sz } = k.proc :=
    Function.update_eq_self _ _
  simp only [growproc]
  rw [run_bind (run_get k)]
  obtain ⟨newsz, hnewsz⟩ : ∃ x, (((k.proc i).sz + n : ℤ) % 2 ^ 64).toNat = x := ⟨_, rfl⟩
  simp only [hnewsz]
  by_cases hpos : n > 0
  · rw [if_pos hpos]
    obtain ⟨res, t, own', T', hrun, he, hkeep, hres⟩ := uvmalloc_spec newsz PTE_W
      h.vm hT hs.mapped (by decide)
    have hown := Frame.sameKern he.frame fun _ _ => space_not_opaque
    rw [run_bind (run_vm hrun)]
    by_cases hz : res = 0
    · have hm : Mapped T' (npages (k.proc i).sz) := by
        obtain ⟨-, hm⟩ | ⟨e, hm, -⟩ := hres
        · exact hm
        · have : (k.proc i).sz = 0 := by omega
          rwa [← e, hz, ← this] at hm
      refine ⟨-1, t, own', T', (k.proc i).sz, ?_, .inl ⟨rfl, rfl⟩,
        h.resize hi _ he.vm hown (hs.keeps hm hkeep) htf, ?_⟩
      · rw [if_pos hz, hsame]
        rfl
      · rw [Nat.min_self]
        exact ⟨he.frame, hkeep⟩
    · obtain ⟨e, -⟩ | ⟨e, hm, -⟩ := hres
      · exact absurd e hz
      rw [← e] at hm
      refine ⟨0, t, own', T', res, ?_, .inr rfl, h.resize hi _ he.vm hown (hs.keeps hm hkeep) htf, ?_⟩
      · rw [if_neg hz, run_bind (run_setProc _ _ _)]
        rfl
      · rw [Nat.min_eq_left (by omega)]
        exact ⟨he.frame, hkeep⟩
  rw [if_neg hpos]
  by_cases hneg : n < 0
  · rw [if_pos hneg]
    obtain ⟨t, own', T', hrun, he, hm, hkeep⟩ := uvmdealloc_spec _ newsz h.vm hT hs.mapped
    have hle : npages (min (k.proc i).sz newsz) ≤ npages newsz := npages_mono (Nat.min_le_right _ _)
    refine ⟨0, t, own', T', min (k.proc i).sz newsz, ?_, .inr rfl,
      h.resize hi _ he.vm (Frame.sameKern he.frame fun _ _ => space_not_opaque) (hs.keeps hm hkeep) htf,
      ?_⟩
    · rw [run_bind (run_vm hrun), run_bind (run_setProc _ _ _)]
      rfl
    · rw [← Nat.min_assoc, Nat.min_self]
      exact ⟨he.frame.mono fun _ _ => Space.mono hle, hkeep.mono hle⟩
  · rw [if_neg hneg]
    refine ⟨0, k.phys, own, T, (k.proc i).sz, by rw [hsame]; rfl, .inr rfl, ?_, Frame.refl _ _ _,
      Keeps.refl _ _⟩
    rw [hsame, ← hT, Function.update_eq_self]
    exact h

theorem sysSbrk_spec (h : Good L k) (hi : (k.proc i).state = .runnable) (n : ℤ) :
    ∃ res k', sysSbrk L i n k = .ok (res, k') ∧ Good L k' := by
  obtain ⟨⟨own, tabs, hk⟩, hset⟩ := h
  have hpt := (hset i).pagetable_ne hi
  obtain ⟨T, tf, hT, hs, htf⟩ := hk.spaces.shape i hpt
  obtain ⟨res, t, own', T', sz, hrun, -, hk', -⟩ := growproc_spec hk hpt hT hs htf n
  rw [sysSbrk, run_bind (run_get k), run_bind hrun]
  have hgood : Good L { k with
      phys := t
      proc := Function.update k.proc i { k.proc i with sz := sz } } :=
    ⟨⟨own', _, hk'⟩, settled_resize hset (by rw [hi]; simp) sz⟩
  split_ifs
  · exact ⟨-1, _, rfl, hgood⟩
  · exact ⟨_, _, rfl, hgood⟩


theorem storeUser_spec (h : Good L k) (hi : (k.proc i).state = .runnable) (va : ℕ)
    (bytes : List (BitVec 8)) : ∃ res k', storeUser i va bytes k = .ok (res, k') ∧ Good L k' := by
  obtain ⟨⟨own, tabs, hk⟩, hset⟩ := h
  obtain ⟨res, t, hrun, hk'⟩ := hk.copyout ((hset i).pagetable_ne hi) va bytes
  exact ⟨res, _, by rw [storeUser, run_bind (run_get k), run_vm hrun], ⟨own, tabs, hk'⟩, hset⟩

/-! ## `exit` and `wait` -/

theorem closeFiles_spec (fds : List (Fin NOFILE)) (h : KernOk L k own tabs hand held)
    (hh : ∀ f, 0 ≤ hand f) :
    ∃ k' own' ofile, closeFiles L i fds k = .ok ((), k') ∧ KernOk L k' own' tabs hand held ∧
      k'.proc = Function.update k.proc i { k.proc i with ofile := ofile } ∧
      k'.initproc = k.initproc ∧ (∀ fd ∈ fds, ofile fd = none) ∧
      ∀ fd, (k.proc i).ofile fd = none → ofile fd = none := by
  induction fds generalizing k own with
  | nil =>
    refine ⟨k, own, (k.proc i).ofile, rfl, h, ?_, rfl, by simp, fun _ h => h⟩
    exact (Function.update_eq_self i k.proc).symm
  | cons fd fds ih =>
    rw [closeFiles, run_bind (run_get k)]
    cases hfd : (k.proc i).ofile fd with
    | none =>
      obtain ⟨k', own', ofile, hrun, hk, hproc, hinit, hnone, hkeep⟩ := ih h
      refine ⟨k', own', ofile, hrun, hk, hproc, hinit, fun x hx => ?_, hkeep⟩
      rcases List.mem_cons.1 hx with rfl | hx
      · exact hkeep x hfd
      · exact hnone x hx
    | some f =>
      simp only []
      obtain ⟨k₁, own₁, hrun₁, hk₁, hsame, -⟩ := fileclose_spec h (h.files.one_le_ref (hh f) hfd)
      have hk₂ : KernOk L (withFd k₁ i fd none) own₁ tabs hand held :=
        (hk₁.dropFd (i := i) (f := f) fd (by rw [hsame.proc]; exact hfd)).congr_hand fun g => by
          simp only [bump]
          split_ifs <;> omega
      obtain ⟨k', own', ofile, hrun, hk, hproc, hinit, hnone, hkeep⟩ := ih hk₂
      have hself : ((withFd k₁ i fd none).proc i) =
          { k.proc i with ofile := Function.update (k.proc i).ofile fd none } := by
        simp [withFd, hsame.proc]
      refine ⟨k', own', ofile, by rw [run_bind hrun₁, run_bind (run_setFd _ _ _ _)]; exact hrun, hk, ?_,
        hinit.trans hsame.initproc, fun x hx => ?_, fun x hx => hkeep x ?_⟩
      · rw [hproc, hself]
        simp [withFd, hsame.proc]
      · rcases List.mem_cons.1 hx with rfl | hx
        · exact hkeep x (by rw [hself]; simp)
        · exact hnone x hx
      · rw [hself]
        by_cases e : x = fd
        · simp [e]
        · simpa [e] using hx

/-- `exit` of the first process panics, that of any other succeeds. -/
theorem exit_spec (h : Good L k) (hi : (k.proc i).state = .runnable) (status : ℕ) :
    exit L i status k = .error "init exiting" ∨
      ∃ k', exit L i status k = .ok ((), k') ∧ Good L k' := by
  obtain ⟨⟨own, tabs, hk⟩, hset⟩ := h
  rw [exit, run_bind (run_get k)]
  split_ifs with hinit
  · exact .inl rfl
  obtain ⟨k₁, own₁, ofile, hrun, hk₁, hproc, -, hnone, -⟩ :=
    closeFiles_spec (i := i) (List.finRange NOFILE) hk fun _ => le_rfl
  have hl := (hset i).live (by rw [hi]; simp)
  obtain ⟨k₂, he⟩ : ∃ k₂ : Kern, { k₁ with
      proc := fun j => if (k₁.proc j).parent = some i then
        { k₁.proc j with parent := k₁.initproc } else k₁.proc j } = k₂ := ⟨_, rfl⟩
  have hsame (j : Slot) : (k₂.proc j).state = (k₁.proc j).state ∧
      (k₂.proc j).trapframe = (k₁.proc j).trapframe ∧
      (k₂.proc j).pagetable = (k₁.proc j).pagetable ∧ (k₂.proc j).sz = (k₁.proc j).sz ∧
      (k₂.proc j).ofile = (k₁.proc j).ofile := by
    rw [← he]
    simp only []
    split_ifs <;> exact ⟨rfl, rfl, rfl, rfl, rfl⟩
  have hk₂ : KernOk L k₂ own₁ tabs (fun _ => 0) [] :=
    hk₁.congr_proc (by rw [← he]) (fun j => (hsame j).2) (by rw [← he]) (by rw [← he]) (by rw [← he])
  right
  refine ⟨_, ?_, ⟨own₁, tabs, hk₂.setProc (i := i)
    (x := { k₂.proc i with xstate := status, state := .zombie }) rfl rfl rfl rfl⟩, fun j => ?_⟩
  · rw [run_bind hrun, reparent, run_bind (run_modify _ _), he, run_setProc]
  · obtain ⟨h₁, h₂, h₃, h₄, h₅⟩ := hsame j
    by_cases e : j = i
    · subst e
      simp only [Function.update_self]
      rw [hproc, Function.update_self] at h₂ h₃ h₅
      exact .inr ⟨.inr rfl, by rw [h₃]; exact hl.pagetable, by rw [h₂]; exact hl.trapframe,
        fun _ fd => by rw [h₅]; exact hnone fd (List.mem_finRange fd)⟩
    · simp only [Function.update_of_ne e]
      rw [hproc, Function.update_of_ne e] at h₁ h₂ h₃ h₄ h₅
      rcases hset j with hu | hl
      · exact .inl ⟨h₁.trans hu.state, h₄.trans hu.sz, h₃.trans hu.pagetable, h₂.trans hu.trapframe,
          fun fd => by rw [h₅]; exact hu.ofile fd⟩
      · exact .inr ⟨by rw [h₁]; exact hl.state, by rw [h₃]; exact hl.pagetable,
          by rw [h₂]; exact hl.trapframe, fun hz fd => by rw [h₅]; exact hl.ofile (h₁.symm.trans hz) fd⟩

theorem freeproc_good (hk : KernOk L k own tabs (fun _ => 0) []) (hset : ∀ j, j ≠ i → Settled (k.proc j))
    (hofile : ∀ fd, (k.proc i).ofile fd = none) :
    ∃ k', freeproc L i k = .ok ((), k') ∧ Good L k' := by
  obtain ⟨t, own', hrun, hk', -⟩ := freeproc_spec hk i
  refine ⟨_, hrun, ⟨own', _, hk'⟩, fun j => ?_⟩
  by_cases e : j = i
  · subst e
    simp only [Function.update_self]
    exact .inl (unused_freedProc hofile)
  · simp only [Function.update_of_ne e]
    exact hset j e

theorem wait_spec (h : Good L k) (hi : (k.proc i).state = .runnable) (addr : ℕ) :
    ∃ res k', wait L i addr k = .ok (res, k') ∧ Good L k' := by
  have hgood := h
  obtain ⟨⟨own, tabs, hk⟩, hset⟩ := h
  rw [wait, run_bind (run_get k)]
  cases hfind : (List.finRange NPROC).find? fun j =>
      (k.proc j).parent = some i ∧ (k.proc j).state = .zombie with
  | none =>
    simp only []
    split_ifs
    · exact ⟨_, k, rfl, hgood⟩
    · exact ⟨_, k, rfl, hgood⟩
  | some j =>
    have hz : (k.proc j).state = .zombie := by
      have := List.find?_some hfind
      simp only [decide_eq_true_eq] at this
      exact this.2
    have hcopy : ∃ r t, (if addr = 0 then pure 0
        else vm (Vm.copyout (k.proc i).pagetable addr (bytes4 (k.proc j).xstate)) : KCode ℤ) k =
        .ok (r, { k with phys := t }) ∧ KernOk L { k with phys := t } own tabs (fun _ => 0) [] := by
      split_ifs
      · exact ⟨0, k.phys, rfl, hk⟩
      · obtain ⟨r, t, hrun, hk'⟩ := hk.copyout ((hset i).pagetable_ne hi) addr
          (bytes4 (k.proc j).xstate)
        exact ⟨r, t, run_vm hrun, hk'⟩
    obtain ⟨r, t, hrun, hk'⟩ := hcopy
    simp only []
    rw [run_bind hrun]
    split_ifs
    · exact ⟨_, _, rfl, ⟨own, tabs, hk'⟩, hset⟩
    · have hl := (hset j).live (by rw [hz]; simp)
      obtain ⟨k', hfree, hgood'⟩ := freeproc_good (i := j) hk' (fun x _ => hset x) (hl.ofile hz)
      exact ⟨_, k', by rw [run_bind hfree]; rfl, hgood'⟩

end Xv6.Sys
