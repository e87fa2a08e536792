import Xv6.Fs.Path

/-!
# System calls give back what they take

`link`, `unlink`, `mkdir` and `mknod` return with the transactions, the references to inodes and the locks that
were held before the call, on every path and for every content of the disk.  The rule of a function says how
it changes `held` when it returns.
-/

namespace Xv6.Fs

open Memory Std.Do

set_option mvcgen.warning false

/-- `log.outstanding`, and for every entry of the inode table its `ref` and whether it is locked. -/
abbrev Held := ℕ × (Fin NINODE → ℕ × Bool)

variable {U α : Type} {sb : Superblock} {h : Held} {s : State U} {e f : Fin NINODE}

def State.held (s : State U) : Held := (s.outstanding, fun e => ((s.inode e).ref, (s.inode e).locked))

theorem held_setInode (x : Inode) :
    (s.setInode e x).held = (s.held.1, Function.update s.held.2 e (x.ref, x.locked)) := by
  ext f
  · rfl
  all_goals by_cases hf : f = e <;> simp [State.held, State.setInode, hf]

theorem held_mk (d m : Mem) (i : Fin NINODE → Inode) (o : ℕ) (l : Log) (u : U) :
    (⟨d, i, o, l, m, u⟩ : State U).held = (o, fun e => ((i e).ref, (i e).locked)) := rfl

theorem outstanding_eq : s.outstanding = s.held.1 := rfl

theorem ref_eq : (s.inode e).ref = (s.held.2 e).1 := rfl

theorem locked_eq : (s.inode e).locked = (s.held.2 e).2 := rfl

attribute [local simp] held_setInode held_mk outstanding_eq ref_eq locked_eq State.setDisk State.setCopy

/-- When code that starts with `h` returns `r`, it holds `g r`. -/
abbrev Gives (h : Held) (c : F U α) (g : α → Held) : Prop :=
  ⦃fun s => ⌜s.held = h⌝⦄ c ⦃⇓? r s => ⌜s.held = g r⌝⦄

abbrev Restores (h : Held) (c : F U α) : Prop := Gives h c fun _ => h

@[spec high] theorem throw_held (p : Panic) {Q : α → Assertion (.arg (State U) (.except Panic .pure))} :
    ⦃⌜True⌝⦄ (throw p : F U α) ⦃PostCond.mayThrow Q⦄ := fun _ _ => trivial

/-! ## Blocks and inodes -/

attribute [local spec] logWrite bzero bfree

@[spec] theorem iupdate_restores : Restores h (iupdate sb e : F U _) := by
  mvcgen [iupdate]

@[spec] theorem modifyCopy_restores (f : Dinode → Dinode) : Restores h (modifyCopy e f : F U _) := by
  mvcgen [modifyCopy]
  simp_all +zetaDelta

@[spec] theorem balloc_restores : Restores h (balloc sb : F U _) := by
  mvcgen [balloc]

@[spec] theorem bmap_restores (bn : ℕ) : Restores h (bmap sb e bn : F U _) := by
  mvcgen [bmap, bmap.indirect, bmap.entry] <;> simp_all +zetaDelta

@[spec] theorem truncDirect_restores (k i : ℕ) : Restores h (truncDirect sb e k i : F U _) := by
  induction k generalizing i with
  | zero => mvcgen [truncDirect]
  | succ k ih =>
    mvcgen [truncDirect, ih]
    simp_all

@[spec] theorem truncEntries_restores (b k j : ℕ) : Restores h (truncEntries sb b k j : F U _) := by
  induction k generalizing j with
  | zero => mvcgen [truncEntries]
  | succ k ih => mvcgen [truncEntries, ih]

@[spec] theorem itrunc_restores : Restores h (itrunc sb e : F U _) := by
  mvcgen [itrunc, truncIndirect] <;> simp_all +zetaDelta

/-! ## References and locks -/

def Held.ref (h : Held) (e : Fin NINODE) : Held := (h.1, Function.update h.2 e ((h.2 e).1 + 1, (h.2 e).2))

def Held.unref (h : Held) (e : Fin NINODE) : Held := (h.1, Function.update h.2 e ((h.2 e).1 - 1, (h.2 e).2))

def Held.lock (h : Held) (e : Fin NINODE) (b : Bool) : Held := (h.1, Function.update h.2 e ((h.2 e).1, b))

theorem Held.lock_self {b : Bool} (hb : (h.2 e).2 = b) : h.lock e b = h := by
  subst hb
  exact congrArg (h.1, ·) (Function.update_eq_self e h.2)

@[simp] theorem Held.lock_lock {b c : Bool} : (h.lock e b).lock e c = h.lock e c := by
  simp [Held.lock]

@[simp] theorem Held.ref_unref : (h.ref e).unref e = h := by
  simp [Held.ref, Held.unref]

@[simp] theorem Held.ref_locked : ((h.ref e).2 e).2 = (h.2 e).2 := by
  simp [Held.ref]

@[simp] theorem Held.unlocked_iff : (((h.ref e).lock e true).2 f).2 = false ↔ f ≠ e ∧ (h.2 f).2 = false := by
  by_cases hfe : f = e <;> simp [Held.ref, Held.lock, hfe]

/-- A lock and a reference that are given back after a reference to `f` has been taken. -/
theorem Held.step (he : (h.2 e).2 = false) : ((((h.ref e).lock e true).ref f).lock e false).unref e = h.ref f := by
  by_cases hfe : f = e
  · simp [Held.ref, Held.unref, Held.lock, hfe, he]
  · simp [Held.ref, Held.unref, Held.lock, Function.update_comm hfe, Function.update_of_ne, hfe, Ne.symm hfe, ← he]

theorem Held.cross (he : (h.2 e).2 = false) (hfe : f ≠ e) :
    (((((h.ref e).lock e true).ref f).lock f true).lock e false).unref e = (h.ref f).lock f true := by
  simp [Held.ref, Held.unref, Held.lock, Function.update_comm hfe, Function.update_of_ne, hfe, Ne.symm hfe, ← he]

@[spec] theorem iget_gives (i : ℕ) : Gives h (iget i : F U _) h.ref := by
  mvcgen [iget]
  · simp_all [Held.ref]
  · next s _ _ e hfind =>
    have := List.find?_some hfind
    simp_all [Held.ref]

@[spec] theorem ilock_gives :
    ⦃fun s => ⌜s.held = h⌝⦄ (ilock sb e : F U _) ⦃⇓? _ s => ⌜s.held = h.lock e true ∧ (h.2 e).2 = false⌝⦄ := by
  mvcgen [ilock, acquiresleep] <;> simp_all [Held.lock]

@[spec] theorem iunlock_gives : Gives h (iunlock e : F U _) fun _ => h.lock e false := by
  mvcgen [iunlock]
  simp_all [Held.lock]

@[spec] theorem ifree_restores : Restores h (ifree sb e : F U _) := by
  mvcgen [ifree, acquiresleep]
  simp_all +zetaDelta
  exact Held.lock_self ‹_›

@[spec] theorem iput_gives : Gives h (iput sb e : F U _) fun _ => h.unref e := by
  mvcgen [iput] <;> simp_all +zetaDelta [Held.unref]

/-- A reference to the inode that a function returns. -/
def Held.found (h : Held) (r : Option (Fin NINODE)) : Held := r.elim h h.ref

@[spec] theorem beginOp_gives : Gives h (beginOp : F U _) fun _ => (h.1 + 1, h.2) := by
  mvcgen [beginOp]
  subst_vars
  rfl

@[spec] theorem endOp_gives : Gives h (endOp : F U _) fun _ => (h.1 - 1, h.2) := by
  mvcgen [endOp] <;> simp_all

@[spec] theorem ialloc_gives (type : BitVec 16) : Gives h (ialloc sb type : F U _) h.found := by
  mvcgen [ialloc]
  simp_all [Held.found]

/-! ## Content and directories -/

variable [UserMemory U]

@[spec] theorem eitherCopyout_restores (dst : Dest) (tot : ℕ) (bytes : List (BitVec 8)) :
    Restores h (eitherCopyout dst tot bytes : F U _) := by
  mvcgen [eitherCopyout]

@[spec] theorem readLoop_restores (dst : Dest) (n fuel tot off : ℕ) (out : List (BitVec 8)) :
    Restores h (readLoop sb e dst n fuel tot off out : F U _) := by
  induction fuel generalizing tot off out with
  | zero => mvcgen [readLoop]
  | succ fuel ih => mvcgen [readLoop, ih] <;> simp_all

@[spec] theorem writeLoop_restores (src : Source) (n fuel tot off : ℕ) :
    Restores h (writeLoop sb e src n fuel tot off : F U _) := by
  induction fuel generalizing tot off with
  | zero => mvcgen [writeLoop]
  | succ fuel ih => mvcgen [writeLoop, ih] <;> simp_all

@[spec] theorem writei_restores (src : Source) (off n : ℕ) : Restores h (writei sb e src off n : F U _) := by
  mvcgen [writei]
  simp_all

attribute [local spec] readi readDirent iunlockput nameiparent

@[spec] theorem dirlookupLoop_gives (name : List (BitVec 8)) (fuel off : ℕ) :
    Gives h (dirlookupLoop sb e name fuel off : F U _) fun r => h.found (r.map Prod.fst) := by
  induction fuel generalizing off with
  | zero => mvcgen [dirlookupLoop]
  | succ fuel ih => mvcgen [dirlookupLoop, ih] <;> simp_all [Held.found]

@[spec] theorem dirlinkLoop_restores (fuel off : ℕ) : Restores h (dirlinkLoop sb e fuel off : F U _) := by
  induction fuel generalizing off with
  | zero => mvcgen [dirlinkLoop]
  | succ fuel ih => mvcgen [dirlinkLoop, ih] <;> simp_all

attribute [local spec] dirlookup

@[spec] theorem dirlink_restores (name : List (BitVec 8)) (i : ℕ) : Restores h (dirlink sb e name i : F U _) := by
  mvcgen [dirlink] <;> simp_all [Held.found]

@[spec] theorem isdiremptyLoop_restores (fuel off : ℕ) : Restores h (isdiremptyLoop sb e fuel off : F U _) := by
  induction fuel generalizing off with
  | zero => mvcgen [isdiremptyLoop]
  | succ fuel ih => mvcgen [isdiremptyLoop, ih] <;> simp_all

/-! ## Paths and system calls -/

theorem namexLoop_gives (parent : Bool) (fuel : ℕ) (path : List (BitVec 8)) (hfuel : path.length < fuel) :
    Gives (h.ref e) (namexLoop sb parent fuel e path : F U _) fun r => h.found (r.map Prod.fst) := by
  induction fuel generalizing e path with
  | zero => omega
  | succ fuel ih =>
    mvcgen [namexLoop, ih]
    all_goals simp_all [Held.found, Held.lock_self, Held.step]
    have := (skipelem_eq_some ‹_›).2.1
    omega

@[spec] theorem namex_gives (cwd : Fin NINODE) (path : List (BitVec 8)) (parent : Bool) :
    Gives h (namex sb cwd path parent : F U _) fun r => h.found (r.map Prod.fst) := by
  have hloop := @namexLoop_gives U sb h
  mvcgen [namex, idup, hloop] <;> simp_all [Held.ref]

@[spec] theorem create_gives (cwd : Fin NINODE) (path : List (BitVec 8)) (type major minor : BitVec 16) :
    ⦃fun s => ⌜s.held = h⌝⦄ (create sb cwd path type major minor : F U _)
    ⦃⇓? r s => ⌜s.held = r.elim h (fun e => (h.ref e).lock e true) ∧ ∀ e ∈ r, (h.2 e).2 = false⌝⦄ := by
  mvcgen [create, create.dots, create.fail]
  all_goals simp_all [Held.found, Held.lock_self, Held.step, Held.cross]

/-- `link`, `unlink`, `mkdir` and `mknod` leave no transaction open, no inode locked and no reference behind. -/
theorem calls_give_back (h : Held) (cwd : Fin NINODE) :
    (∀ old new, Restores h (link sb cwd old new : F U _)) ∧ (∀ path, Restores h (unlink sb cwd path : F U _)) ∧
    (∀ path, Restores h (mkdir sb cwd path : F U _)) ∧
    ∀ path major minor, Restores h (mknod sb cwd path major minor : F U _) := by
  have hmkinode (path) (type major minor) : Restores h (mkinode sb cwd path type major minor : F U _) := by
    mvcgen [mkinode] <;> simp_all [Held.lock_self]
  refine ⟨fun old new => ?_, fun path => ?_, fun path => hmkinode path T_DIR 0 0,
    fun path => hmkinode path T_DEVICE⟩
  · mvcgen [link, link.bad, namei]
    all_goals simp_all [Held.found, Held.lock_self]
  · mvcgen [unlink, unlink.bad, unlink.clear, unlink.drop, isdirempty]
    all_goals simp_all [Held.found, Held.lock_self, Held.cross]

example : ((mkdir smallSb 0 (some [0x2f, 0x61]) : F UserSpace ℤ) (smallRoot false ⟨16, 0, false, false, .fresh 0⟩)).map
    Prod.fst = .ok 0 := by decide +kernel

end Xv6.Fs
