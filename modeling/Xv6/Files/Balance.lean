import Xv6.Files.Code
import Xv6.Lib.Shares

/-!
# Who holds what

Every count of the model is compared with the references that are held: `f->ref` with the descriptors,
`ip->ref` with the files and the current directories, the open ends of a pipe with the files of that
pipe, the page of a pipe whose ends are closed and a slot of the process table in the hands of `fork`
with the process that is about to free or finish them.  A process in a system call holds what it is
about to install or to give back (`Pc.holds`), and may have a descriptor that is not counted
(`Pc.debt`): `dup` sets the descriptor before it counts it, and `exit` clears it after `fileclose`.

`State.excess` is what is held beyond what is counted.  Each update of the state changes it by what is
said here, so that the balance of a step is a sum.
-/

namespace Xv6.Files

open Shares

variable {nproc nfile nofile : ℕ}

/-- What can be held and is counted. -/
inductive Resource (nproc nfile : ℕ)
  /-- A reference to a file. -/
  | file (f : Fin nfile)
  /-- A reference to an entry of the inode table. -/
  | inode (ip : ℕ)
  /-- An open end of a pipe. -/
  | pipeEnd (pi : ℕ) (writable : Bool)
  /-- The page of a pipe with no open end. -/
  | page (pi : ℕ)
  /-- A slot of the process table that is being made. -/
  | child (j : Fin nproc)
  deriving DecidableEq

def After.holds : After nfile nofile → List (Resource nproc nfile)
  | .ret | .exit _ _ => []
  | .next f => [.file f]
  | .iput ip => [.inode ip]

def After.debt : After nfile nofile → Option (Fin nfile)
  | .exit _ f => some f
  | _ => none

def Pc.holds : Pc nproc nfile nofile → List (Resource nproc nfile)
  | .openAlloc _ ip _ | .openSet _ ip _ _ _ => [.inode ip]
  | .openFd _ ip _ f => [.file f, .inode ip]
  | .pipeSecond f0 => [.file f0]
  | .pipePage f0 f1 | .pipeFds f0 f1 => [.file f0, .file f1]
  | .pipeRead f0 f1 pi => [.file f0, .file f1, .pipeEnd pi false, .pipeEnd pi true]
  | .pipeWrite f0 f1 pi => [.file f0, .file f1, .pipeEnd pi true]
  | .close f after => .file f :: after.holds
  | .closePipe pi writable after => .pipeEnd pi writable :: after.holds
  | .closeFree pi after => .page pi :: after.holds
  | .iput ip after => .inode ip :: after.holds
  | .forkCopy j | .forkDup j _ | .forkCwd j | .forkRun j => [.child j]
  | .forkSet j _ f => [.file f, .child j]
  | _ => []

def Pc.debt : Pc nproc nfile nofile → Option (Fin nfile)
  | .dup f | .exitClear _ f => some f
  | .close _ after | .closePipe _ _ after | .closeFree _ after | .iput _ after => after.debt
  | _ => none

def Pc.balance (pc : Pc nproc nfile nofile) : Resource nproc nfile → ℤ :=
  units pc.holds - held (pc.debt.map .file)

def slots (ofile : Fin nofile → Option (Fin nfile)) : Resource nproc nfile → ℤ :=
  ∑ fd, held ((ofile fd).map .file)

def Proc.share (p : Proc nproc nfile nofile) : Resource nproc nfile → ℤ :=
  slots p.ofile + held (p.cwd.map .inode) + p.pc.balance

def File.holds (x : File) : List (Resource nproc nfile) :=
  match x.type with
  | .none => []
  | .pipe => [.pipeEnd x.pipe x.writable]
  | .inode | .device => [.inode x.ip]

def Pipe.count (p : Pipe) (pi : ℕ) : Resource nproc nfile → ℤ :=
  (if p.readopen then unit (.pipeEnd pi false) else 0) + (if p.writeopen then unit (.pipeEnd pi true) else 0) +
    ((if p.allocated then 1 else 0) - if p.readopen ∨ p.writeopen then 1 else 0 : ℤ) • unit (.page pi)

def Proc.count (p : Proc nproc nfile nofile) (i : Fin nproc) : Resource nproc nfile → ℤ :=
  if p.state = .used then unit (.child i) else 0

def State.count (s : State nproc nfile nofile) : Resource nproc nfile → ℤ
  | .file f => (s.file f).ref
  | .inode ip => s.iref ip
  | .pipeEnd pi writable => (s.pipe pi).count pi (.pipeEnd pi writable : Resource nproc nfile)
  | .page pi => (s.pipe pi).count pi (.page pi : Resource nproc nfile)
  | .child j => (s.proc j).count j (.child j)

/-- What is held beyond what is counted. -/
def State.excess (s : State nproc nfile nofile) : Resource nproc nfile → ℤ :=
  ∑ i, (s.proc i).share + ∑ f, units (s.file f).holds - s.count

/-! ## Updates -/

theorem After.pc_balance (k : After nfile nofile) :
    (k.pc : Pc nproc nfile nofile).balance = units k.holds - held (k.debt.map .file) := by
  cases k <;> simp [After.pc, Pc.balance, Pc.holds, Pc.debt, After.holds, After.debt]

theorem Pc.balance_close (f : Fin nfile) (k : After nfile nofile) :
    (Pc.close f k : Pc nproc nfile nofile).balance = unit (.file f) + k.pc.balance := by
  rw [After.pc_balance, Pc.balance, Pc.holds, Pc.debt, units_cons, add_sub_assoc]

theorem Pc.balance_closePipe (pi : ℕ) (w : Bool) (k : After nfile nofile) :
    (Pc.closePipe pi w k : Pc nproc nfile nofile).balance = unit (.pipeEnd pi w) + k.pc.balance := by
  rw [After.pc_balance, Pc.balance, Pc.holds, Pc.debt, units_cons, add_sub_assoc]

theorem Pc.balance_closeFree (pi : ℕ) (k : After nfile nofile) :
    (Pc.closeFree pi k : Pc nproc nfile nofile).balance = unit (.page pi) + k.pc.balance := by
  rw [After.pc_balance, Pc.balance, Pc.holds, Pc.debt, units_cons, add_sub_assoc]

theorem Pc.balance_iput (ip : ℕ) (k : After nfile nofile) :
    (Pc.iput ip k : Pc nproc nfile nofile).balance = unit (.inode ip) + k.pc.balance := by
  rw [After.pc_balance, Pc.balance, Pc.holds, Pc.debt, units_cons, add_sub_assoc]

theorem slots_update (ofile : Fin nofile → Option (Fin nfile)) (fd : Fin nofile) (x : Option (Fin nfile)) :
    (slots (Function.update ofile fd x) : Resource nproc nfile → ℤ) =
      slots ofile - held ((ofile fd).map .file) + held (x.map .file) :=
  sum_comp_update (fun o : Option (Fin nfile) => held (o.map Resource.file)) ofile fd x

variable (s : State nproc nfile nofile)

theorem State.count_setProc (i : Fin nproc) (p : Proc nproc nfile nofile) :
    (s.setProc i p).count = s.count + (p.count i - (s.proc i).count i) := by
  have hzero (q : Proc nproc nfile nofile) {r : Resource nproc nfile} (hr : r ≠ .child i) :
      q.count i r = 0 := by
    unfold Proc.count
    split_ifs
    · exact unit_of_ne hr
    · rfl
  funext r
  cases r with
  | child j =>
    by_cases h : j = i
    · subst h
      simp [State.count, State.setProc]
    · simp [State.count, State.setProc, h, hzero]
  | _ => simp [State.count, State.setProc, hzero]

theorem State.excess_setProc (i : Fin nproc) (p : Proc nproc nfile nofile) :
    (s.setProc i p).excess =
      s.excess + (p.share - (s.proc i).share) - (p.count i - (s.proc i).count i) := by
  have hsum : ∑ j, ((s.setProc i p).proc j).share = ∑ j, (s.proc j).share - (s.proc i).share + p.share :=
    sum_comp_update Proc.share s.proc i p
  rw [State.excess, State.excess, hsum, State.count_setProc]
  simp only [State.setProc]
  abel

theorem State.excess_setPc (i : Fin nproc) (pc : Pc nproc nfile nofile) :
    (s.setPc i pc).excess = s.excess + pc.balance - (s.proc i).pc.balance := by
  rw [State.setPc, State.excess_setProc]
  simp only [Proc.share, Proc.count]
  abel

theorem State.excess_setFd (i : Fin nproc) (fd : Fin nofile) (f : Option (Fin nfile)) :
    (s.setFd i fd f).excess =
      s.excess + held (f.map .file) - held (((s.proc i).ofile fd).map .file) := by
  rw [State.setFd, State.excess_setProc]
  simp only [Proc.share, Proc.count, slots_update]
  abel

theorem State.excess_setFile (f : Fin nfile) (x : File) :
    (s.setFile f x).excess = s.excess + (units x.holds - units (s.file f).holds) -
      (x.ref - (s.file f).ref) • unit (.file f) := by
  have hsum : ∑ g, units ((s.setFile f x).file g).holds =
      (∑ g, units (s.file g).holds - units (s.file f).holds + units x.holds : Resource nproc nfile → ℤ) :=
    sum_comp_update (fun y : File => units y.holds) s.file f x
  have hcount : (s.setFile f x).count = s.count + (x.ref - (s.file f).ref) • unit (.file f) := by
    funext r
    cases r with
    | file g =>
      by_cases h : g = f
      · subst h
        simp [State.count, State.setFile]
      · simp [State.count, State.setFile, h, unit_apply]
    | _ => simp [State.count, State.setFile, unit_apply]
  rw [State.excess, State.excess, hsum, hcount]
  simp only [State.setFile]
  abel

theorem State.excess_addRef (ip : ℕ) (n : ℤ) :
    (s.addRef ip n).excess = s.excess - n • unit (.inode ip) := by
  have hcount : (s.addRef ip n).count = s.count + n • unit (.inode ip) := by
    funext r
    cases r with
    | inode x =>
      by_cases h : x = ip
      · subst h
        simp [State.count, State.addRef]
      · simp [State.count, State.addRef, h, unit_apply]
    | _ => simp [State.count, State.addRef, unit_apply]
  rw [State.excess, State.excess, hcount]
  simp only [State.addRef]
  abel

theorem State.excess_setPipe (pi : ℕ) (p : Pipe) :
    (s.setPipe pi p).excess = s.excess - (p.count pi - (s.pipe pi).count pi) := by
  have hzero (q : Pipe) {r : Resource nproc nfile} (hr : ∀ w, r ≠ .pipeEnd pi w) (hr' : r ≠ .page pi) :
      q.count pi r = 0 := by
    unfold Pipe.count
    split_ifs <;> simp [unit_of_ne (hr _), unit_of_ne hr']
  have hcount : (s.setPipe pi p).count = s.count + (p.count pi - (s.pipe pi).count pi) := by
    funext r
    cases r with
    | pipeEnd x w =>
      by_cases h : x = pi
      · subst h
        simp [State.count, State.setPipe]
      · simp [State.count, State.setPipe, h, hzero]
    | page x =>
      by_cases h : x = pi
      · subst h
        simp [State.count, State.setPipe]
      · simp [State.count, State.setPipe, h, hzero]
    | _ => simp [State.count, State.setPipe, hzero]
  rw [State.excess, State.excess, hcount]
  simp only [State.setPipe]
  abel

theorem State.excess_note (x : Note) : (s.note x).excess = s.excess := rfl

end Xv6.Files
