import Xv6.Files.Steps

/-!
# References to open files

In every run the kernel does not stop, and while no process is in a system call the counts are the
numbers of descriptors, of files and of current directories, and a pipe has its page as long as one of
its ends is referenced.
-/

namespace Xv6.Files

open Shares Runs

variable {nproc nfile nofile : ℕ} {s t : State nproc nfile nofile}

theorem share_of_idle {p : Proc nproc nfile nofile} (hpc : p.pc = .user) :
    p.share = slots p.ofile + held (p.cwd.map .inode) := by
  rw [Proc.share, hpc]
  simp [Pc.balance, Pc.holds, Pc.debt]

/-! ## Boot -/

theorem State.Boot.share (h : s.Boot) (i : Fin nproc) :
    (s.proc i).share = held ((s.proc i).cwd.map .inode) := by
  obtain ⟨hpc, hofile, -⟩ := h.proc i
  rw [share_of_idle hpc, slots]
  simp [hofile]

theorem State.Boot.excess (h : s.Boot) : s.excess = 0 := by
  have hfile (f : Fin nfile) : ((s.file f).holds : List (Resource nproc nfile)) = [] := by
    rw [File.holds, (h.file f).2]
  funext r
  simp only [State.excess, h.share, hfile, units_nil, Finset.sum_const_zero, add_zero, Pi.sub_apply,
    Finset.sum_apply, Pi.zero_apply, sub_eq_zero, held_apply]
  cases r with
  | inode ip =>
    rw [State.count, h.iref]
    split_ifs with hex
    · obtain ⟨i, hi⟩ := hex
      rw [Finset.sum_eq_single i]
      · simp [hi]
      · intro j _ hj
        -- only the first process has a current directory
        have hzero {k : Fin nproc} (hk : k.val ≠ 0) : (s.proc k).cwd = none := by
          have := (h.proc k).2.2
          rw [if_neg hk] at this
          exact this.2
        have hi0 : i.val = 0 := by
          by_contra hne
          rw [hzero hne] at hi
          cases hi
        rw [hzero fun hj0 => hj (Fin.ext (hj0.trans hi0.symm))]
        simp
      · simp
    · simp only [not_exists] at hex
      exact Finset.sum_eq_zero fun i _ => by simp [hex i]
  | file f =>
    rw [State.count, (h.file f).1]
    exact Finset.sum_eq_zero fun i _ => by cases (s.proc i).cwd <;> simp
  | pipeEnd pi w =>
    rw [State.count, h.pipe, Pipe.count_pipeEnd]
    exact (Finset.sum_eq_zero fun i _ => by cases (s.proc i).cwd <;> simp).trans (by cases w <;> simp [Pipe.isOpen])
  | page pi =>
    rw [State.count, h.pipe, Pipe.count_page]
    exact Finset.sum_eq_zero fun i _ => by cases (s.proc i).cwd <;> simp
  | child j =>
    have hj : (s.proc j).state ≠ .used := by
      have := (h.proc j).2.2
      split_ifs at this <;> simp [this.1]
    rw [State.count, Proc.count, if_neg hj]
    exact Finset.sum_eq_zero fun i _ => by cases (s.proc i).cwd <;> simp

theorem inv_boot (h : s.Boot) : Inv s where
  stop := h.stop
  balanced := h.excess
  closed f _ := (h.file f).2
  proc i := by
    obtain ⟨hpc, hofile, hcwd⟩ := h.proc i
    have htyped : Typed s (s.proc i) := fun fd f hf => by simp [hofile fd] at hf
    split_ifs at hcwd
    · refine ProcOk.of_live hcwd.1 htyped ?_ hcwd.2
      rw [hpc]
      trivial
    · rw [ProcOk, hcwd.1]
      exact ⟨hpc, hofile, hcwd.2⟩
  pages pi := by simp [h.notes, h.pipe]

theorem inv_run {es : List (Fin nproc × Choice nproc)} (h : s.Boot) (hrun : run step s es = some t) : Inv t :=
  run_induction (fun _ _ _ hs hst => inv_step hs hst) (inv_boot h) hrun

/-! ## Counts -/

theorem Inv.open_of_file (h : Inv t) {f : Fin nfile} (hf : (t.file f).type = .pipe) :
    (t.pipe (t.file f).pipe).isOpen (t.file f).writable = true := by
  have hsum := sum_nonneg (fun i r => (h.proc i).share_nonneg r) (.pipeEnd (t.file f).pipe (t.file f).writable)
  have hfile := le_sum (f := fun f => units ((t.file f).holds : List (Resource nproc nfile)))
    (fun f r => units_nonneg _ r) f (.pipeEnd (t.file f).pipe (t.file f).writable)
  have hcount := h.count_eq (.pipeEnd (t.file f).pipe (t.file f).writable)
  rw [State.count, Pipe.count_pipeEnd] at hcount
  rw [File.holds, hf, units_apply] at hfile
  simp only [List.count_singleton_self, Nat.cast_one] at hfile
  by_contra ho
  rw [if_neg ho] at hcount
  omega

theorem ref_of_idle (h : Inv t) (hidle : ∀ i, (t.proc i).pc = .user) (f : Fin nfile) :
    (t.file f).ref = (Finset.univ.filter fun x : Fin nproc × Fin nofile => (t.proc x.1).ofile x.2 = some f).card := by
  have hfiles : (∑ g, units (t.file g).holds) (.file f : Resource nproc nfile) = 0 := by
    rw [Finset.sum_apply]
    refine Finset.sum_eq_zero fun g _ => ?_
    cases htype : (t.file g).type <;> simp [File.holds, htype, units_apply]
  have hcount := h.count_eq (.file f)
  rw [State.count, hfiles, add_zero, Finset.sum_apply] at hcount
  rw [hcount, Finset.card_filter, Fintype.sum_prod_type]
  push_cast
  refine Finset.sum_congr rfl fun i _ => ?_
  rw [share_of_idle (hidle i), Pi.add_apply, slots_apply, held_apply]
  have hcwd : (t.proc i).cwd.map Resource.inode ≠ some (.file f : Resource nproc nfile) := by
    cases (t.proc i).cwd <;> simp
  rw [if_neg hcwd, add_zero]
  refine Finset.sum_congr rfl fun fd _ => ?_
  cases (t.proc i).ofile fd <;> simp [unit_apply, eq_comm]

theorem iref_of_idle (h : Inv t) (hidle : ∀ i, (t.proc i).pc = .user) (ip : ℕ) :
    t.iref ip = (Finset.univ.filter fun f => ((t.file f).type = .inode ∨ (t.file f).type = .device) ∧
      (t.file f).ip = ip).card + (Finset.univ.filter fun i => (t.proc i).cwd = some ip).card := by
  have hcount := h.count_eq (.inode ip)
  rw [State.count, Finset.sum_apply, Finset.sum_apply] at hcount
  rw [hcount, add_comm, Finset.card_filter, Finset.card_filter]
  push_cast
  congr 1
  · refine Finset.sum_congr rfl fun f _ => ?_
    cases htype : (t.file f).type <;> simp [File.holds, htype, unit_apply, eq_comm]
  · refine Finset.sum_congr rfl fun i _ => ?_
    have hslots : slots (t.proc i).ofile (.inode ip : Resource nproc nfile) = 0 := by
      rw [slots_apply]
      exact Finset.sum_eq_zero fun fd _ => by cases (t.proc i).ofile fd <;> simp [unit_apply]
    rw [share_of_idle (hidle i), Pi.add_apply, hslots, zero_add]
    cases (t.proc i).cwd <;> simp [unit_apply, eq_comm]

/-- The page of a pipe belongs to it while a file is one of its ends, and between system calls only then. -/
theorem allocated_of_idle (h : Inv t) (hidle : ∀ i, (t.proc i).pc = .user) {pi : ℕ}
    (ha : (t.pipe pi).allocated = true) : ∃ f, (t.file f).type = .pipe ∧ (t.file f).pipe = pi := by
  by_contra hno
  simp only [not_exists, not_and] at hno
  have hshare (r : Resource nproc nfile) (hfile : ∀ f, r ≠ .file f) (hinode : ∀ ip, r ≠ .inode ip) :
      (∑ i, (t.proc i).share) r = 0 := by
    rw [Finset.sum_apply]
    refine Finset.sum_eq_zero fun i _ => ?_
    have hslots : slots (t.proc i).ofile r = 0 := by
      rw [slots_apply]
      refine Finset.sum_eq_zero fun fd _ => ?_
      cases (t.proc i).ofile fd <;> simp [unit_of_ne (hfile _)]
    rw [share_of_idle (hidle i), Pi.add_apply, hslots, zero_add]
    cases (t.proc i).cwd <;> simp [unit_of_ne (hinode _)]
  have hclosed (w : Bool) : (t.pipe pi).isOpen w = false := by
    have hcount := h.count_eq (.pipeEnd pi w)
    have hfiles : (∑ f, units (t.file f).holds) (.pipeEnd pi w : Resource nproc nfile) = 0 := by
      rw [Finset.sum_apply]
      refine Finset.sum_eq_zero fun f _ => ?_
      cases htype : (t.file f).type with
      | pipe =>
        simp only [File.holds, htype, units_cons, units_nil, add_zero]
        exact unit_of_ne fun e => hno f htype (Resource.pipeEnd.inj e).1.symm
      | _ => simp [File.holds, htype, units_apply]
    rw [State.count, Pipe.count_pipeEnd, hshare _ (by simp) (by simp), hfiles] at hcount
    by_contra ho
    simp [ho] at hcount
  have hcount := h.count_eq (.page pi)
  have hfiles : (∑ f, units (t.file f).holds) (.page pi : Resource nproc nfile) = 0 := by
    rw [Finset.sum_apply]
    refine Finset.sum_eq_zero fun f _ => ?_
    cases htype : (t.file f).type <;> simp [File.holds, htype, units_apply]
  have hro : (t.pipe pi).readopen = false := hclosed false
  have hwo : (t.pipe pi).writeopen = false := hclosed true
  rw [State.count, Pipe.count_page, hshare _ (by simp) (by simp), hfiles, ha, hro, hwo] at hcount
  simp at hcount

/-- The references to open files in every run. -/
theorem open_files {es : List (Fin nproc × Choice nproc)} (h : s.Boot) (hrun : run step s es = some t) :
    -- no panic, no page freed twice or used after it was freed
    t.stop = none ∧
    (∀ f, (t.file f).ref = 0 → (t.file f).type = .none) ∧
    -- a page is freed once for each time it was allocated, and not while a file is an end of its pipe
    (∀ pi, t.notes.count (.alloc pi) = t.notes.count (.free pi) + if (t.pipe pi).allocated then 1 else 0) ∧
    (∀ f, (t.file f).type = .pipe → (t.pipe (t.file f).pipe).allocated = true) ∧
    -- between system calls
    ((∀ i, (t.proc i).pc = .user) →
      (∀ f, (t.file f).ref =
        (Finset.univ.filter fun x : Fin nproc × Fin nofile => (t.proc x.1).ofile x.2 = some f).card) ∧
      (∀ ip, t.iref ip = (Finset.univ.filter fun f => ((t.file f).type = .inode ∨ (t.file f).type = .device) ∧
        (t.file f).ip = ip).card + (Finset.univ.filter fun i => (t.proc i).cwd = some ip).card) ∧
      ∀ pi, (t.pipe pi).allocated = true ↔
        ∃ f, (t.file f).type = .pipe ∧ (t.file f).pipe = pi ∧ 0 < (t.file f).ref) := by
  have hinv := inv_run h hrun
  have hpipe (f : Fin nfile) (hf : (t.file f).type = .pipe) : (t.pipe (t.file f).pipe).allocated = true :=
    hinv.allocated_of_open (hinv.open_of_file hf)
  refine ⟨hinv.stop, hinv.closed, hinv.pages, hpipe, fun hidle => ⟨ref_of_idle hinv hidle,
    iref_of_idle hinv hidle, fun pi => ⟨fun ha => ?_, ?_⟩⟩⟩
  · obtain ⟨f, hf, e⟩ := allocated_of_idle hinv hidle ha
    refine ⟨f, hf, e, lt_of_le_of_ne (hinv.count_nonneg (.file f)) fun hzero => ?_⟩
    have := hinv.closed f hzero.symm
    rw [hf] at this
    cases this
  · rintro ⟨f, hf, rfl, -⟩
    exact hpipe f hf

/-- The first process of two after boot, with the inode 0 as its current directory. -/
def booted : State 2 2 3 where
  proc i := ⟨if i = 0 then .live else .unused, fun _ => none, if i = 0 then some 0 else none, .user⟩
  file _ := ⟨.none, 0, false, false, 0, 0, 0⟩
  pipe _ := ⟨false, false, false⟩
  iref ip := if ip = 0 then 1 else 0
  stop := none
  notes := []

theorem booted_boot : booted.Boot where
  stop := rfl
  proc i := ⟨rfl, fun _ => rfl, by fin_cases i <;> simp [booted]⟩
  file _ := ⟨rfl, rfl⟩
  pipe _ := rfl
  iref ip := by
    by_cases h : ip = 0
    · simp [booted, h]
    · simp [booted, h, Ne.symm h]
  notes := rfl

/-- The first process makes a pipe, duplicates its read end and forks; then it closes all but one
descriptor while the child exits. -/
def pipeForkExit : List (Fin 2 × Choice 2) :=
  List.flatten [
    [.call .pipe, .go, .go, .page (some 5), .go, .go, .go, .copied true, .call (.dup 0), .go, .call .fork,
      .slot (some 1), .copied true, .go, .go, .go, .go, .go, .go, .go, .go, .go, .call (.close 1)].map (Prod.mk 0),
    [.call .exit, .go].map (Prod.mk 1),
    [.go, .call (.close 2)].map (Prod.mk 0),
    [.go, .go, .go, .go, .go, .go, .go, .go, .go, .go, .go, .go].map (Prod.mk 1),
    [.go].map (Prod.mk 0)]

theorem open_files_pipeForkExit : ∃ t, run step booted pipeForkExit = some t ∧ t.stop = none ∧
    (t.file 0).ref = 1 ∧ (t.file 1).type = .none ∧ (t.pipe 5).allocated = true ∧
    (t.file 0).ref = (Finset.univ.filter fun x : Fin 2 × Fin 3 => (t.proc x.1).ofile x.2 = some 0).card := by
  have hend : (run step booted pipeForkExit).map (fun t => ((t.file 0).ref, (t.file 1).type,
      (t.pipe 5).allocated, (t.proc 0).pc, (t.proc 1).pc)) = some (1, .none, true, .user, .user) := rfl
  obtain ⟨t, ht, e⟩ := Option.map_eq_some_iff.1 hend
  simp only [Prod.mk.injEq] at e
  obtain ⟨href, htype, hpage, hpc0, hpc1⟩ := e
  obtain ⟨hstop, -, -, -, hidle⟩ := open_files booted_boot ht
  have huser (i : Fin 2) : (t.proc i).pc = .user := by
    fin_cases i
    · exact hpc0
    · exact hpc1
  exact ⟨t, ht, hstop, href, htype, hpage, (hidle huser).1 0⟩

end Xv6.Files
