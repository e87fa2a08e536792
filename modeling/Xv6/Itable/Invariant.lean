import Xv6.Itable.Code
import Xv6.Lib.Shares

/-!
# The invariant of the inode table

For each entry the references that are out and those in the hands of `iput` make up its count, and no
two entries in use are for the same inode.  What holds of the copy in an entry depends on who has its
sleep-lock and how far that process is (`EntryOk`); a step changes one entry at most, and the others
keep what holds of them (`EntryOk.frame`).
-/

namespace Xv6.Itable

open Fs Shares

variable {nproc ninode : ℕ} {s s' : State nproc ninode} {i j : Fin nproc} {e x : Fin ninode}

/-! ## References -/

/-- The references in the hands of `iput`. -/
def State.drops (s : State nproc ninode) : Fin ninode → ℤ := ∑ i, held (s.pc i).drops

theorem drops_nonneg (s : State nproc ninode) (e : Fin ninode) : 0 ≤ s.drops e :=
  sum_nonneg (fun _ e => held_nonneg _ e) e

theorem one_le_drops (h : (s.pc i).drops = some e) : 1 ≤ s.drops e := by
  have := le_sum (f := fun i => held (s.pc i).drops) (fun _ e => held_nonneg _ e) i e
  simp only [h, held_some, unit_self] at this
  exact this

theorem two_le_drops (hij : i ≠ j) (hi : (s.pc i).drops = some e) (hj : (s.pc j).drops = some e) :
    2 ≤ s.drops e := by
  have := add_le_sum (f := fun i => held (s.pc i).drops) (fun _ e => held_nonneg _ e) hij e
  simp only [hi, hj, held_some, unit_self] at this
  exact this

theorem drops_setPc (s : State nproc ninode) (i : Fin nproc) (pc : Pc ninode) :
    (s.setPc i pc).drops = s.drops - held (s.pc i).drops + held pc.drops :=
  sum_comp_update (fun pc : Pc ninode => held pc.drops) s.pc i pc

/-! ## Entries -/

/-- The entry that a process has locked in `ilock` or `iput`. -/
def Pc.about : Pc ninode → Option (Fin ninode)
  | .load e | .trunc e | .truncUpdate e | .freeType e | .freeUpdate e | .invalidate e | .unlock e => some e
  | _ => none

/-- The entry whose inode `iput` is freeing, as long as its block has the type. -/
def Pc.truncates : Pc ninode → Option (Fin ninode)
  | .trunc e | .truncUpdate e | .freeType e | .freeUpdate e => some e
  | _ => none

/-- What the process at `pc` that frees the entry knows of its copy. -/
def Pc.Copied (pc : Pc ninode) (copy dinode : Dinode) : Prop :=
  match pc with
  | .trunc _ | .freeType _ => copy = dinode
  | .truncUpdate _ => dinode.type = copy.type
  | _ => True

structure EntryOk (s : State nproc ninode) (e : Fin ninode) : Prop where
  owner : ∀ i, (s.pc i).about = some e → s.lock e = some i
  invalid : ∀ i, s.pc i = .load e ∨ s.pc i = .unlock e → (s.entry e).valid = false
  valid : ∀ i, s.lock e = some i → (s.pc i).about ≠ some e → (s.entry e).valid = true
  dirty : s.dirty e = true → ∃ i, s.lock e = some i ∧ (s.pc i).about ≠ some e
  clean : 0 < (s.entry e).ref → s.dirty e = true → s.new (s.entry e).dev (s.entry e).inum = none
  truncates : 0 < (s.entry e).ref → ∀ i, (s.pc i).truncates = some e →
    (s.entry e).valid = true ∧ s.new (s.entry e).dev (s.entry e).inum = none ∧ (s.dinode e).type ≠ 0 ∧
      (s.pc i).Copied (s.entry e).copy (s.dinode e)
  free : 0 < (s.entry e).ref → (s.entry e).valid = true → s.lock e = none →
    (s.entry e).copy = s.dinode e ∧ (s.dinode e).type ≠ 0
  held : 0 < (s.entry e).ref → ∀ i, s.lock e = some i → (s.pc i).about ≠ some e →
    (s.dinode e).type = (s.entry e).copy.type ∧ (s.dinode e).type ≠ 0 ∧
      (s.dirty e = false → (s.entry e).copy = s.dinode e)

structure Inv (s : State nproc ninode) : Prop where
  balanced : ∀ e, (s.entry e).ref = s.pool e + s.drops e
  unique : ∀ e x, 0 < (s.entry e).ref → 0 < (s.entry x).ref → (s.entry e).dev = (s.entry x).dev →
    (s.entry e).inum = (s.entry x).inum → e = x
  used : ∀ e, s.Used e → 1 ≤ s.pool e
  entries : ∀ e, EntryOk s e
  new : ∀ dev inum t, s.new dev inum = some t → t ≠ 0 ∧ s.disk dev inum = Dinode.fresh t

theorem frees_about {pc : Pc ninode} (h : pc.frees = some e) : pc.about = some e := by
  cases pc <;> first | exact h | cases h

theorem truncates_frees {pc : Pc ninode} (h : pc.truncates = some e) : pc.frees = some e := by
  cases pc <;> first | exact h | cases h

theorem frees_drops {pc : Pc ninode} (h : pc.frees = some e) : pc.drops = some e := by
  cases pc <;> first | exact h | cases h

/-- A process that steps on another entry. -/
structure Elsewhere (s s' : State nproc ninode) (i : Fin nproc) (x : Fin ninode) : Prop where
  others : ∀ j, j ≠ i → s'.pc j = s.pc j
  before : (s.pc i).about ≠ some x
  after : (s'.pc i).about ≠ some x

theorem Elsewhere.about_iff (h : Elsewhere s s' i x) {p : Pc ninode → Prop}
    (hp : ∀ pc, p pc → pc.about = some x) (j : Fin nproc) : p (s'.pc j) ↔ p (s.pc j) := by
  by_cases e : j = i
  · subst e
    exact iff_of_false (fun hj => h.after (hp _ hj)) fun hj => h.before (hp _ hj)
  · rw [h.others j e]

theorem Elsewhere.eq (h : Elsewhere s s' i x) (hj : (s.pc j).about = some x) : s'.pc j = s.pc j := by
  refine h.others j ?_
  rintro rfl
  exact h.before hj

/-- An entry of which a step changes no more than the count keeps what holds of it. -/
theorem EntryOk.frame (h : EntryOk s x) (hpc : Elsewhere s s' i x)
    (hentry : s'.entry x = { s.entry x with ref := (s'.entry x).ref })
    (href : 0 < (s'.entry x).ref → 0 < (s.entry x).ref) (hlock : s'.lock x = s.lock x)
    (hdirty : s'.dirty x = s.dirty x)
    (hdisk : 0 < (s.entry x).ref → s'.disk (s.entry x).dev (s.entry x).inum = s.dinode x ∧
      (s'.new (s.entry x).dev (s.entry x).inum = none ∨
        s'.new (s.entry x).dev (s.entry x).inum = s.new (s.entry x).dev (s.entry x).inum)) :
    EntryOk s' x := by
  have habout (j : Fin nproc) : (s'.pc j).about = some x ↔ (s.pc j).about = some x :=
    hpc.about_iff (p := fun pc => pc.about = some x) (fun pc e => e) j
  have hinvalid (j : Fin nproc) : (s'.pc j = .load x ∨ s'.pc j = .unlock x) ↔
      (s.pc j = .load x ∨ s.pc j = .unlock x) :=
    hpc.about_iff (p := fun pc => pc = .load x ∨ pc = .unlock x)
      (fun pc e => by obtain e | e := e <;> rw [e] <;> rfl) j
  have htrunc (j : Fin nproc) : (s'.pc j).truncates = some x ↔ (s.pc j).truncates = some x :=
    hpc.about_iff (p := fun pc => pc.truncates = some x) (fun pc e => frees_about (truncates_frees e)) j
  have hdev : (s'.entry x).dev = (s.entry x).dev := by rw [hentry]
  have hinum : (s'.entry x).inum = (s.entry x).inum := by rw [hentry]
  have hvalid : (s'.entry x).valid = (s.entry x).valid := by rw [hentry]
  have hcopy : (s'.entry x).copy = (s.entry x).copy := by rw [hentry]
  have hdinode (hr : 0 < (s'.entry x).ref) : s'.dinode x = s.dinode x := by
    rw [State.dinode, hdev, hinum, (hdisk (href hr)).1]
  have hnone (hr : 0 < (s'.entry x).ref) (hn : s.new (s.entry x).dev (s.entry x).inum = none) :
      s'.new (s'.entry x).dev (s'.entry x).inum = none := by
    rw [hdev, hinum]
    obtain hn' | hn' := (hdisk (href hr)).2
    · exact hn'
    · rw [hn', hn]
  constructor
  case owner =>
    intro j hj
    rw [hlock]
    exact h.owner j ((habout j).1 hj)
  case invalid =>
    intro j hj
    rw [hvalid]
    exact h.invalid j ((hinvalid j).1 hj)
  case valid =>
    intro j hl hj
    rw [hvalid]
    exact h.valid j (by rwa [← hlock]) fun e => hj ((habout j).2 e)
  case dirty =>
    intro hd
    obtain ⟨j, hl, hj⟩ := h.dirty (by rwa [← hdirty])
    exact ⟨j, by rw [hlock, hl], fun e => hj ((habout j).1 e)⟩
  case clean =>
    intro hr hd
    exact hnone hr (h.clean (href hr) (by rwa [← hdirty]))
  case truncates =>
    intro hr j hj
    rw [htrunc] at hj
    obtain ⟨hv, hn, ht, hc⟩ := h.truncates (href hr) j hj
    rw [hdinode hr, hvalid, hcopy, hpc.eq (frees_about (truncates_frees hj))]
    exact ⟨hv, hnone hr hn, ht, hc⟩
  case free =>
    intro hr hv hl
    rw [hdinode hr, hcopy]
    exact h.free (href hr) (by rwa [← hvalid]) (by rwa [← hlock])
  case held =>
    intro hr j hl hj
    rw [hdinode hr, hcopy, hdirty]
    exact h.held (href hr) j (by rwa [← hlock]) fun e => hj ((habout j).2 e)

/-! ## Counts -/

theorem Inv.pool_le (h : Inv s) (e : Fin ninode) : (s.pool e : ℤ) ≤ (s.entry e).ref := by
  have := drops_nonneg s e
  rw [h.balanced e]
  omega

theorem Inv.ref_pos_of_drops (h : Inv s) (hi : (s.pc i).drops = some e) : 0 < (s.entry e).ref := by
  have := one_le_drops hi
  rw [h.balanced e]
  omega

theorem Inv.ref_pos_of_used (h : Inv s) (hu : s.Used e) : 0 < (s.entry e).ref := by
  have := h.used e hu
  have := h.pool_le e
  omega

theorem Inv.ref_pos_of_held (h : Inv s) (hl : s.lock e = some i) : 0 < (s.entry e).ref := by
  by_cases hf : (s.pc i).frees = some e
  · exact h.ref_pos_of_drops (frees_drops hf)
  · exact h.ref_pos_of_used ⟨i, .inr (.inr ⟨hl, hf⟩)⟩

/-- Nobody has a free entry locked. -/
theorem Inv.unlocked_of_free (h : Inv s) (hr : (s.entry e).ref = 0) : s.lock e = none := by
  by_contra hl
  obtain ⟨i, hl⟩ := Option.ne_none_iff_exists'.1 hl
  have := h.ref_pos_of_held hl
  omega

theorem EntryOk.unlocked (h : EntryOk s e) (hl : s.lock e = none) :
    s.dirty e = false ∧ ∀ i, (s.pc i).about ≠ some e := by
  refine ⟨?_, fun i hi => ?_⟩
  · by_contra hd
    obtain ⟨i, hi, -⟩ := h.dirty (Bool.not_eq_false _ ▸ hd)
    rw [hl] at hi
    cases hi
  · rw [h.owner i hi] at hl
    cases hl

/-- Only the holder of the sleep-lock is in a call that has it. -/
theorem EntryOk.about_eq (h : EntryOk s e) (hl : s.lock e = some i) (hj : (s.pc j).about = some e) : j = i := by
  have := h.owner j hj
  rw [hl] at this
  exact (Option.some.inj this).symm

/-- When the reference in the hands of `iput` is the only one, nobody else uses the entry. -/
theorem Inv.alone (h : Inv s) (hi : s.pc i = .iput e) (hr : (s.entry e).ref = 1) :
    s.pool e = 0 ∧ s.lock e = none ∧ ∀ j, j ≠ i → (s.pc j).drops ≠ some e := by
  have hdrop : (s.pc i).drops = some e := by rw [hi]; rfl
  have hone := one_le_drops hdrop
  have hb := h.balanced e
  have hpool : s.pool e = 0 := by omega
  have hothers (j : Fin nproc) (hj : j ≠ i) : (s.pc j).drops ≠ some e := by
    intro hd
    have := two_le_drops hj.symm hdrop hd
    omega
  refine ⟨hpool, ?_, hothers⟩
  by_contra hl
  obtain ⟨j, hl⟩ := Option.ne_none_iff_exists'.1 hl
  by_cases hf : (s.pc j).frees = some e
  · have hj : j ≠ i := by
      rintro rfl
      rw [hi] at hf
      cases hf
    exact hothers j hj (frees_drops hf)
  · have := h.used e ⟨j, .inr (.inr ⟨hl, hf⟩)⟩
    omega

end Xv6.Itable
