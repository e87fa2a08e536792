import Xv6.Files.Balance

/-!
# The invariant of the open-file table

What is held is what is counted, and each process is in a state that fits the point it has reached.  A
step of one process leaves the others as they are, and does to the files only what their other holders
can bear (`Effect`); the invariant follows from that (`Effect.inv`).
-/

namespace Xv6.Files

open Shares

variable {nproc nfile nofile : ℕ} {s s' : State nproc nfile nofile} {i j : Fin nproc} {f : Fin nfile}

/-! ## Processes -/

/-- A file that `filealloc` has returned and nobody has set up yet. -/
def Fresh (s : State nproc nfile nofile) (f : Fin nfile) : Prop :=
  (s.file f).ref = 1 ∧ (s.file f).type = .none

/-- The slot `j` in the hands of a `fork` that has come to the descriptor `fd`. -/
def Child (s : State nproc nfile nofile) (j : Fin nproc) (fd : ℕ) : Prop :=
  (s.proc j).state = .used ∧ (s.proc j).cwd = none ∧ ∀ x : Fin nofile, fd ≤ x → (s.proc j).ofile x = none

def After.Ok (ofile : Fin nofile → Option (Fin nfile)) : After nfile nofile → Prop
  | .exit fd f => ofile fd = some f ∧ ∀ x < fd, ofile x = none
  | _ => True

def Pc.Ok (s : State nproc nfile nofile) (p : Proc nproc nfile nofile) : Pc nproc nfile nofile → Prop
  | .dup f => ∃ a b, a ≠ b ∧ p.ofile a = some f ∧ p.ofile b = some f
  | .openFd _ _ _ f | .pipeSecond f => Fresh s f
  | .openSet _ _ _ f fd => Fresh s f ∧ p.ofile fd = some f
  | .pipePage f0 f1 | .pipeRead f0 f1 _ => Fresh s f0 ∧ Fresh s f1
  | .pipeWrite f0 f1 _ => (s.file f0).type = .pipe ∧ Fresh s f1
  | .pipeFds f0 f1 => (s.file f0).type = .pipe ∧ (s.file f1).type = .pipe
  | .pipeCopy f0 f1 fd0 fd1 => p.ofile fd0 = some f0 ∧ p.ofile fd1 = some f1 ∧ fd0 ≠ fd1
  | .close _ after | .closePipe _ _ after | .closeFree _ after | .iput _ after => after.Ok p.ofile
  | .forkCopy j => Child s j 0
  | .forkDup j fd => Child s j fd
  | .forkSet j fd f => Child s j fd ∧ p.ofile fd = some f
  | .forkCwd j => Child s j nofile
  | .forkRun j => (s.proc j).state = .used ∧ (s.proc j).cwd ≠ none
  | .exitScan fd => ∀ x : Fin nofile, x < fd → p.ofile x = none
  | .exitClear fd f => After.Ok p.ofile (.exit fd f)
  | .exitCwd => ∀ x, p.ofile x = none
  | .exitZombie => (∀ x, p.ofile x = none) ∧ p.cwd = none
  | _ => True

/-- The descriptor that `exit` has closed and not cleared yet. -/
def After.stale : After nfile nofile → Option (Fin nofile)
  | .exit fd _ => some fd
  | _ => none

/-- The descriptor whose file need not be set up: `open` is about to do it, or `exit` is closing it. -/
def Pc.stale : Pc nproc nfile nofile → Option (Fin nofile)
  | .openSet _ _ _ _ fd | .exitClear fd _ => some fd
  | .close _ after | .closePipe _ _ after | .closeFree _ after | .iput _ after => after.stale
  | _ => none

def Typed (s : State nproc nfile nofile) (p : Proc nproc nfile nofile) : Prop :=
  ∀ fd f, p.ofile fd = some f → p.pc.stale ≠ some fd → (s.file f).type ≠ .none

def ProcOk (s : State nproc nfile nofile) (p : Proc nproc nfile nofile) : Prop :=
  match p.state with
  | .unused | .zombie => p.pc = .user ∧ (∀ fd, p.ofile fd = none) ∧ p.cwd = none
  | .used => p.pc = .user ∧ Typed s p
  | .live => Typed s p ∧ p.pc.Ok s p ∧ (p.pc ≠ .exitZombie → p.cwd ≠ none)

/-! ## Shares -/

theorem slots_apply (ofile : Fin nofile → Option (Fin nfile)) (r : Resource nproc nfile) :
    slots ofile r = ∑ fd, held ((ofile fd).map .file) r := by
  rw [slots, Finset.sum_apply]

theorem slots_nonneg (ofile : Fin nofile → Option (Fin nfile)) (r : Resource nproc nfile) :
    0 ≤ slots ofile r :=
  sum_nonneg (fun _ r => held_nonneg _ r) r

theorem one_le_slots {ofile : Fin nofile → Option (Fin nfile)} {fd : Fin nofile} (h : ofile fd = some f) :
    1 ≤ slots ofile (.file f : Resource nproc nfile) := by
  have := le_sum (f := fun fd => held ((ofile fd).map (Resource.file : _ → Resource nproc nfile)))
    (fun _ r => held_nonneg _ r) fd (.file f)
  simpa [slots_apply, h] using this

theorem two_le_slots {ofile : Fin nofile → Option (Fin nfile)} {a b : Fin nofile} (hab : a ≠ b)
    (ha : ofile a = some f) (hb : ofile b = some f) : 2 ≤ slots ofile (.file f : Resource nproc nfile) := by
  have := add_le_sum (f := fun fd => held ((ofile fd).map (Resource.file : _ → Resource nproc nfile)))
    (fun _ r => held_nonneg _ r) hab (.file f)
  simpa [slots_apply, ha, hb] using this

variable {p : Proc nproc nfile nofile}

/-- A descriptor that is not counted is there, and is the stale one or there is another one. -/
theorem debt_slot (h : p.pc.Ok s p) (hf : p.pc.debt = some f) :
    ∃ a, p.ofile a = some f ∧ (p.pc.stale = some a ∨ ∃ b, a ≠ b ∧ p.ofile b = some f) := by
  have hafter {k : After nfile nofile} (hk : k.Ok p.ofile) (hf : k.debt = some f) :
      ∃ a, p.ofile a = some f ∧ k.stale = some a := by
    cases k <;> simp only [After.debt, reduceCtorEq, Option.some.injEq] at hf
    case exit fd g =>
      subst hf
      exact ⟨fd, hk.1, rfl⟩
  cases hpc : p.pc <;> rw [hpc] at h hf <;> simp only [Pc.debt, reduceCtorEq, Option.some.injEq] at hf
  case dup g =>
    subst hf
    obtain ⟨a, b, hab, ha, hb⟩ := h
    exact ⟨a, ha, .inr ⟨b, hab, hb⟩⟩
  case exitClear fd g =>
    subst hf
    exact ⟨fd, h.1, .inl rfl⟩
  all_goals
    obtain ⟨a, ha, hs⟩ := hafter h hf
    exact ⟨a, ha, .inl hs⟩

theorem ProcOk.live (h : ProcOk s (s.proc i)) (hl : (s.proc i).state = .live) :
    Typed s (s.proc i) ∧ (s.proc i).pc.Ok s (s.proc i) ∧
      ((s.proc i).pc ≠ .exitZombie → (s.proc i).cwd ≠ none) := by
  rw [ProcOk, hl] at h
  exact h

/-- The point of a process fits, whatever its state. -/
theorem ProcOk.pc_ok (h : ProcOk s p) : p.pc.Ok s p := by
  unfold ProcOk at h
  split at h
  · rw [h.1]; trivial
  · rw [h.1]; trivial
  · rw [h.1]; trivial
  · exact h.2.1

theorem ProcOk.typed (h : ProcOk s p) : Typed s p := by
  unfold ProcOk at h
  split at h
  · intro fd f hf
    simp [h.2.1 fd] at hf
  · intro fd f hf
    simp [h.2.1 fd] at hf
  · exact h.2
  · exact h.1

/-- What a process holds at its point is part of its share. -/
theorem ProcOk.units_le (h : ProcOk s p) (r : Resource nproc nfile) :
    units p.pc.holds r ≤ p.share r := by
  have hcwd := held_nonneg (p.cwd.map (Resource.inode : _ → Resource nproc nfile)) r
  have hslots := slots_nonneg p.ofile r
  simp only [Proc.share, Pc.balance, Pi.add_apply, Pi.sub_apply]
  cases hd : p.pc.debt with
  | none => simp only [Option.map_none, held_none, Pi.zero_apply]; omega
  | some f =>
    rw [Option.map_some, held_some, unit_apply]
    split_ifs with hr
    · subst hr
      obtain ⟨a, ha, -⟩ := debt_slot h.pc_ok hd
      have : 1 ≤ slots p.ofile (.file f : Resource nproc nfile) := one_le_slots ha
      omega
    · omega

theorem ProcOk.share_nonneg (h : ProcOk s p) (r : Resource nproc nfile) :
    0 ≤ p.share r :=
  (units_nonneg _ r).trans (h.units_le r)

theorem ProcOk.one_le_of_holds (h : ProcOk s p) {r : Resource nproc nfile}
    (hr : r ∈ p.pc.holds) : 1 ≤ p.share r := by
  refine le_trans ?_ (h.units_le r)
  rw [units_apply]
  exact_mod_cast List.count_pos_iff.2 hr

/-- A descriptor counts beside what is held at the point, unless `exit` is about to clear it. -/
theorem ProcOk.slot_le (h : ProcOk s p) {fd : Fin nofile}
    (hf : p.ofile fd = some f) (hs : p.pc.debt = some f → p.pc.stale ≠ some fd) :
    1 + units p.pc.holds (.file f) ≤ p.share (.file f) := by
  have hcwd := held_nonneg (p.cwd.map (Resource.inode : _ → Resource nproc nfile)) (.file f)
  simp only [Proc.share, Pc.balance, Pi.add_apply, Pi.sub_apply]
  have hone : 1 ≤ slots p.ofile (.file f : Resource nproc nfile) := one_le_slots hf
  cases hd : p.pc.debt with
  | none => simp only [Option.map_none, held_none, Pi.zero_apply]; omega
  | some g =>
    rw [Option.map_some, held_some, unit_apply]
    split_ifs with hr
    · cases hr
      have htwo : 2 ≤ slots p.ofile (.file f : Resource nproc nfile) := by
        obtain ⟨a, ha, hst | ⟨b, hab, hb⟩⟩ := debt_slot h.pc_ok hd
        · have hne : a ≠ fd := fun e => hs hd (e ▸ hst)
          exact two_le_slots hne ha hf
        · exact two_le_slots hab ha hb
      omega
    · omega

theorem ProcOk.one_le_of_slot (h : ProcOk s p) {fd : Fin nofile}
    (hf : p.ofile fd = some f) (hs : p.pc.debt = some f → p.pc.stale ≠ some fd) :
    1 ≤ p.share (.file f) := by
  have := h.slot_le hf hs
  have hunits := units_nonneg p.pc.holds (.file f)
  omega

/-! ## The invariant -/

structure Inv (s : State nproc nfile nofile) : Prop where
  stop : s.stop = none
  balanced : s.excess = 0
  closed : ∀ f, (s.file f).ref = 0 → (s.file f).type = .none
  proc : ∀ i, ProcOk s (s.proc i)
  pages : ∀ pi, s.notes.count (.alloc pi) = s.notes.count (.free pi) +
    if (s.pipe pi).allocated then 1 else 0

theorem Inv.count_eq (h : Inv s) (r : Resource nproc nfile) :
    s.count r = (∑ i, (s.proc i).share) r + (∑ f, units (s.file f).holds) r := by
  have := congrFun h.balanced r
  simp only [State.excess, Pi.sub_apply, Pi.add_apply, Pi.zero_apply] at this
  omega

theorem Inv.files_nonneg (r : Resource nproc nfile) : 0 ≤ (∑ f, units (s.file f).holds) r :=
  sum_nonneg (fun _ r => units_nonneg _ r) r

theorem Inv.share_le (h : Inv s) (i : Fin nproc) (r : Resource nproc nfile) : (s.proc i).share r ≤ s.count r := by
  have hsum := le_sum (fun i r => (h.proc i).share_nonneg r) i r
  have hfiles := Inv.files_nonneg (s := s) r
  rw [h.count_eq]
  omega

theorem Inv.add_le (h : Inv s) (hij : i ≠ j) (r : Resource nproc nfile) :
    (s.proc i).share r + (s.proc j).share r ≤ s.count r := by
  have hsum := add_le_sum (fun i r => (h.proc i).share_nonneg r) hij r
  have hfiles := Inv.files_nonneg (s := s) r
  rw [h.count_eq]
  omega

theorem Inv.count_nonneg (h : Inv s) (r : Resource nproc nfile) : 0 ≤ s.count r := by
  have hsum := sum_nonneg (fun i r => (h.proc i).share_nonneg r) r
  have hfiles := Inv.files_nonneg (s := s) r
  rw [h.count_eq]
  omega

/-! ## Steps -/

/-- What a step of process `i` may do to a file: allocate it when it is free, and when `i` holds it,
change its count or, if nobody else holds it, anything. -/
def FileTouch (s s' : State nproc nfile nofile) (i : Fin nproc) (f : Fin nfile) : Prop :=
  s'.file f = s.file f ∨
  ((s.file f).ref = 0 ∧ s'.file f = { s.file f with ref := 1 }) ∨
  (1 ≤ (s.proc i).share (.file f) ∧ ((s'.file f).ref = 0 → (s'.file f).type = .none) ∧
    ((s.file f).ref = 1 ∨ (s'.file f).type = (s.file f).type))

/-- A step of process `i`. -/
structure Effect (s s' : State nproc nfile nofile) (i : Fin nproc) : Prop where
  stop : s'.stop = none
  balanced : s'.excess = 0
  files : ∀ f, FileTouch s s' i f
  procs : ∀ y, y ≠ i → s'.proc y = s.proc y ∨ ((s.proc y).state ≠ .live ∧
    ((s.proc y).state = .used → 1 ≤ (s.proc i).share (.child y)) ∧ ProcOk s' (s'.proc y))
  own : ProcOk s' (s'.proc i)
  pages : ∀ pi, s'.notes.count (.alloc pi) = s'.notes.count (.free pi) +
    if (s'.pipe pi).allocated then 1 else 0

/-- The type of a file that another process holds stays. -/
theorem FileTouch.type_eq (h : Inv s) (ht : FileTouch s s' i f) (hij : i ≠ j)
    (hj : 1 ≤ (s.proc j).share (.file f)) : (s'.file f).type = (s.file f).type := by
  obtain e | ⟨-, e⟩ | ⟨hi, -, hone | e⟩ := ht
  · rw [e]
  · rw [e]
  · have hle := h.add_le hij (.file f)
    simp only [State.count, hone] at hle
    omega
  · exact e

/-- A file that another process is setting up stays. -/
theorem FileTouch.file_eq (h : Inv s) (ht : FileTouch s s' i f) (hij : i ≠ j) (hfresh : Fresh s f)
    (hj : 1 ≤ (s.proc j).share (.file f)) : s'.file f = s.file f := by
  obtain e | ⟨hzero, -⟩ | ⟨hi, -, -⟩ := ht
  · exact e
  · rw [hfresh.1] at hzero
    cases hzero
  · have hle := h.add_le hij (.file f)
    simp only [State.count, hfresh.1] at hle
    omega

theorem Fresh.stable (h : Inv s) (e : Effect s s' i) (hij : i ≠ j) (hf : Fresh s f)
    (hj : 1 ≤ (s.proc j).share (.file f)) : Fresh s' f := by
  rw [Fresh, (e.files f).file_eq h hij hf hj]
  exact hf

/-- A slot in the hands of another `fork` stays. -/
theorem Effect.child_eq (h : Inv s) (e : Effect s s' i) (hi : (s.proc i).state = .live) (hij : i ≠ j)
    {y : Fin nproc} (hy : (s.proc y).state = .used) (hj : 1 ≤ (s.proc j).share (.child y)) :
    s'.proc y = s.proc y := by
  have hyi : y ≠ i := by
    rintro rfl
    rw [hi] at hy
    cases hy
  obtain hp | ⟨-, hown, -⟩ := e.procs y hyi
  · exact hp
  · have hle := h.add_le hij (.child y)
    have := hown hy
    simp only [State.count, Proc.count, hy, if_true, unit_self] at hle
    omega

theorem Typed.stable (h : Inv s) (e : Effect s s' i) (hij : i ≠ j) : Typed s' (s.proc j) := by
  intro fd f hf hs
  rw [(e.files f).type_eq h hij ((h.proc j).one_le_of_slot hf fun _ => hs)]
  exact (h.proc j).typed fd f hf hs

theorem Pc.Ok.stable (h : Inv s) (e : Effect s s' i) (hi : (s.proc i).state = .live) (hij : i ≠ j) :
    (s.proc j).pc.Ok s' (s.proc j) := by
  have hj := h.proc j
  have hok := hj.pc_ok
  have hfresh {f : Fin nfile} (hf : Fresh s f) (hm : .file f ∈ (s.proc j).pc.holds) : Fresh s' f :=
    hf.stable h e hij (hj.one_le_of_holds hm)
  have htype {f : Fin nfile} (hf : (s.file f).type = .pipe) (hm : .file f ∈ (s.proc j).pc.holds) :
      (s'.file f).type = .pipe :=
    ((e.files f).type_eq h hij (hj.one_le_of_holds hm)).trans hf
  have hchild {y : Fin nproc} (hy : (s.proc y).state = .used) (hm : .child y ∈ (s.proc j).pc.holds) :
      s'.proc y = s.proc y :=
    e.child_eq h hi hij hy (hj.one_le_of_holds hm)
  cases hpc : (s.proc j).pc <;> rw [hpc] at hok hfresh htype hchild
  case openFd omode ip inode f => exact hfresh hok (by simp [Pc.holds])
  case openSet omode ip inode f fd =>
    refine ⟨hok.1.stable h e hij (hj.one_le_of_slot hok.2 fun hd => ?_), hok.2⟩
    rw [hpc] at hd
    cases hd
  case pipeSecond f0 => exact hfresh hok (by simp [Pc.holds])
  case pipePage f0 f1 | pipeRead f0 f1 pi =>
    exact ⟨hfresh hok.1 (by simp [Pc.holds]), hfresh hok.2 (by simp [Pc.holds])⟩
  case pipeWrite f0 f1 pi => exact ⟨htype hok.1 (by simp [Pc.holds]), hfresh hok.2 (by simp [Pc.holds])⟩
  case pipeFds f0 f1 => exact ⟨htype hok.1 (by simp [Pc.holds]), htype hok.2 (by simp [Pc.holds])⟩
  case forkCopy y | forkDup y fd | forkCwd y =>
    rw [Pc.Ok, Child, hchild hok.1 (by simp [Pc.holds])]
    exact hok
  case forkSet y fd f =>
    rw [Pc.Ok, Child, hchild hok.1.1 (by simp [Pc.holds])]
    exact hok
  case forkRun y =>
    rw [Pc.Ok, hchild hok.1 (by simp [Pc.holds])]
    exact hok
  all_goals exact hok

theorem Effect.inv (h : Inv s) (hi : (s.proc i).state = .live) (e : Effect s s' i) : Inv s' where
  stop := e.stop
  balanced := e.balanced
  closed f hf := by
    obtain he | ⟨-, he⟩ | ⟨-, hclosed, -⟩ := e.files f
    · rw [he] at hf ⊢
      exact h.closed f hf
    · rw [he] at hf
      cases hf
    · exact hclosed hf
  proc j := by
    by_cases hij : i = j
    · exact hij ▸ e.own
    · obtain he | ⟨-, -, hok⟩ := e.procs j (Ne.symm hij)
      · rw [he]
        have hj := h.proc j
        have htyped := Typed.stable h e hij
        unfold ProcOk at hj ⊢
        split at hj
        · exact hj
        · exact hj
        · exact ⟨hj.1, htyped⟩
        · exact ⟨htyped, Pc.Ok.stable h e hi hij, hj.2.2⟩
      · exact hok
  pages := e.pages

end Xv6.Files
