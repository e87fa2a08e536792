import Xv6.Itable.Steps

/-!
# Coherence of the inode table

`ialloc` writes to the block of an inode that the table may still have an entry for, that of the `iput`
that freed it; `iget` gives a free entry to another inode.  With these every step keeps the invariant,
and what the table promises to its users holds in every run.
-/

namespace Xv6.Itable

open Fs Shares

variable {nproc ninode ninodes : ℕ} {s s' : State nproc ninode} {i j : Fin nproc} {e x : Fin ninode}

/-! ## `ialloc` and `iget` -/

/-- An entry whose inode is free on the disk is that of an `iput` at its end, or has no copy. -/
theorem Inv.entryOk_of_free (h : Inv s) (hpos : 0 < (s.entry x).ref) (ht : (s.dinode x).type = 0)
    (hpc : Elsewhere s s' i x) (hentry : s'.entry x = s.entry x) (hlock : s'.lock x = s.lock x)
    (hdirty : s'.dirty x = s.dirty x) : EntryOk s' x := by
  have hok := h.entries x
  have habout (j : Fin nproc) : (s'.pc j).about = some x ↔ (s.pc j).about = some x :=
    hpc.about_iff (p := fun pc => pc.about = some x) (fun pc e => e) j
  by_cases hl : s.lock x = none
  · obtain ⟨hclean, hnobody⟩ := hok.unlocked hl
    refine EntryOk.of_free (by rw [hlock, hl]) (fun j hj => hnobody j ((habout j).1 hj)) (by rw [hdirty, hclean])
      fun _ hv => ?_
    rw [hentry] at hv
    exact absurd ht (hok.free hpos hv hl).2
  · obtain ⟨j, hl⟩ := Option.ne_none_iff_exists'.1 hl
    have ha : (s.pc j).about = some x := by
      by_contra hna
      exact (hok.held hpos j hl hna).2.1 ht
    have hsame : s'.pc j = s.pc j := hpc.eq ha
    refine EntryOk.of_owner (by rw [hlock, hl]) (fun k hk hka => hk (hok.about_eq hl ((habout k).1 hka))) ?_
      (fun hna => ?_) (fun hd => ?_) (fun htr => ?_) fun hna => ?_
    · rw [hsame, hentry]
      exact hok.invalid j
    · rw [hsame] at hna
      exact absurd ha hna
    · rw [hdirty] at hd
      exact absurd hd (hok.clean_of_about ha)
    · rw [hsame] at htr
      exact absurd ht (hok.truncates hpos j htr).2.2.1
    · rw [hsame] at hna
      exact absurd ha hna

theorem Inv.ialloc {dev inum : ℕ} {t : BitVec 16} (h : Inv s) (hi : s.pc i = .ialloc dev t inum) (ht : t ≠ 0)
    (hfree : (s.disk dev inum).type = 0) :
    Inv (((s.setDisk dev inum (Dinode.fresh t)).setNew dev inum (some t)).setPc i (.iget dev inum)) := by
  have hpc (x : Fin ninode) : Elsewhere s
      (((s.setDisk dev inum (Dinode.fresh t)).setNew dev inum (some t)).setPc i (.iget dev inum)) i x :=
    elsewhere_setPc s rfl (by rw [hi]; simp [Pc.about]) (by simp [Pc.about])
  constructor
  case balanced =>
    intro x
    have hb := h.balanced x
    rw [drops_setPc]
    have hp : (((s.setDisk dev inum (Dinode.fresh t)).setNew dev inum (some t)).pc i).drops = none := by
      change (s.pc i).drops = none
      rw [hi]
      rfl
    rw [hp]
    simpa [State.setPc, State.setNew, State.setDisk, Pc.drops, State.drops] using hb
  case unique => exact h.unique
  case used =>
    intro x hx
    refine h.used x (Used.of_setPc hx rfl rfl (by simp) (by simp) fun _ _ => ?_)
    rw [hi]
    simp [Pc.frees]
  case entries =>
    intro x
    by_cases hk : 0 < (s.entry x).ref ∧ dev = (s.entry x).dev ∧ inum = (s.entry x).inum
    · obtain ⟨hpos, rfl, rfl⟩ := hk
      exact h.entryOk_of_free hpos hfree (hpc x) rfl rfl rfl
    · refine (h.entries x).frame (hpc x) rfl id rfl rfl fun hr => ?_
      have hne : ¬ (dev = (s.entry x).dev ∧ inum = (s.entry x).inum) := fun hsame => hk ⟨hr, hsame⟩
      exact ⟨setDisk_of_ne s _ hne, .inr (setNew_of_ne _ _ hne)⟩
  case new =>
    intro dev' inum' t' ht'
    by_cases hk : dev = dev' ∧ inum = inum'
    · obtain ⟨rfl, rfl⟩ := hk
      have hnew : some t = some t' := (setNew_self _ _ _ _).symm.trans ht'
      cases hnew
      exact ⟨ht, setDisk_self _ _ _ _⟩
    · have hnew : s.new dev' inum' = some t' := (setNew_of_ne _ _ hk).symm.trans ht'
      obtain ⟨ht₀, hfresh⟩ := h.new dev' inum' t' hnew
      exact ⟨ht₀, (setDisk_of_ne s _ hk).trans hfresh⟩

/-- `iget` gives a free entry to an inode that has none. -/
theorem Inv.recycle {dev inum : ℕ} (h : Inv s) (hr : (s.entry e).ref = 0)
    (hnone : ∀ x, ¬ (0 < (s.entry x).ref ∧ (s.entry x).dev = dev ∧ (s.entry x).inum = inum)) (i : Fin nproc)
    (hi : ∀ x, (s.pc i).about ≠ some x) :
    Inv ((s.setEntry e { s.entry e with dev := dev, inum := inum, ref := 1, valid := false }).setPool e
      (s.pool e + 1)) := by
  have hl := h.unlocked_of_free hr
  have hpool : s.pool e = 0 := by
    have := h.pool_le e
    omega
  have hpc (x : Fin ninode) : Elsewhere s ((s.setEntry e
      { s.entry e with dev := dev, inum := inum, ref := 1, valid := false }).setPool e (s.pool e + 1)) i x :=
    elsewhere_refl s rfl (hi x)
  obtain ⟨hclean, hnobody⟩ := (h.entries e).unlocked hl
  constructor
  case balanced =>
    intro x
    have hb := h.balanced x
    by_cases hx : x = e
    · subst hx
      simp only [State.setPool, State.setEntry, Function.update_self, State.drops] at hb ⊢
      push_cast
      omega
    · simpa [State.setPool, State.setEntry, hx, State.drops] using hb
  case unique =>
    intro y x
    by_cases hy : y = e
    · by_cases hx : x = e
      · exact fun _ _ _ _ => hy.trans hx.symm
      · subst hy
        simp only [State.setPool, State.setEntry, Function.update_self, Function.update_of_ne hx]
        exact fun _ hpos hd hn => absurd ⟨hpos, hd.symm, hn.symm⟩ (hnone x)
    · by_cases hx : x = e
      · subst hx
        simp only [State.setPool, State.setEntry, Function.update_self, Function.update_of_ne hy]
        exact fun hpos _ hd hn => absurd ⟨hpos, hd, hn⟩ (hnone y)
      · simp only [State.setPool, State.setEntry, Function.update_of_ne hy, Function.update_of_ne hx]
        exact h.unique y x
  case used =>
    intro x hx
    have hu : 1 ≤ s.pool x := h.used x hx
    by_cases hxe : x = e
    · subst hxe
      simp [State.setPool]
    · simpa [State.setPool, State.setEntry, hxe] using hu
  case entries =>
    intro x
    by_cases hx : x = e
    · subst hx
      refine EntryOk.of_free hl hnobody hclean fun _ hv => ?_
      simp [State.setPool, State.setEntry] at hv
    · refine (h.entries x).frame (hpc x) ?_ ?_ rfl rfl fun _ => ⟨rfl, .inr rfl⟩
      · simp [State.setPool, State.setEntry, hx]
      · simp [State.setPool, State.setEntry, hx]
  case new => exact h.new

theorem Inv.iget {dev inum : ℕ} (h : Inv s) (hi : ∀ x, (s.pc i).about ≠ some x)
    (hs : iget s dev inum = some s') : Inv s' := by
  unfold Itable.iget at hs
  split at hs
  · rename_i e he
    have hpos := List.find?_some he
    simp only [decide_eq_true_eq] at hpos
    exact h.addRef hi hpos.1 hs
  · rename_i hnone
    split at hs
    · cases hs
    · rename_i e he
      have hr := List.find?_some he
      simp only [decide_eq_true_eq] at hr
      cases hs
      refine h.recycle hr (fun x hx => ?_) i hi
      have := List.find?_eq_none.1 hnone x (List.mem_finRange x)
      simp only [decide_eq_true_eq] at this
      exact this hx

/-! ## Steps -/

theorem Inv.call {c : Choice ninode} (h : Inv s) (hi : s.pc i = .idle) (hs : callCode s i c = some s') :
    Inv s' := by
  have hna (x : Fin ninode) : (s.pc i).about ≠ some x := by rw [hi]; simp [Pc.about]
  cases c with
  | go => cases hs
  | iget dev inum =>
    cases hs
    exact h.setPc hna (by simp [Pc.about]) (by rw [hi]; rfl) (by simp)
  | idup e =>
    simp only [callCode] at hs
    split_ifs at hs with hp
    have := h.pool_le e
    exact h.addRef hna (by omega) hs
  | ilock e =>
    simp only [callCode] at hs
    split_ifs at hs with hp
    cases hs
    refine h.setPc hna (by simp [Pc.about]) (by rw [hi]; rfl) fun x hx => ?_
    cases hx
    exact hp.1
  | modify e d =>
    simp only [callCode] at hs
    split_ifs at hs with hp
    cases hs
    exact h.modify hi hp.1 hp.2
  | iupdate e =>
    simp only [callCode] at hs
    split_ifs at hs with hp
    cases hs
    exact h.iupdate hi hp
  | iunlock e =>
    simp only [callCode] at hs
    split_ifs at hs with hp
    cases hs
    exact h.iunlock hi hp.1 hp.2.2
  | iput e =>
    simp only [callCode] at hs
    split_ifs at hs with hp
    cases hs
    exact h.beginPut hi hp.1 hp.2
  | ialloc dev t =>
    simp only [callCode] at hs
    split_ifs at hs
    cases hs
    exact h.setPc hna (by simp [Pc.about]) (by rw [hi]; rfl) (by simp)

theorem iput_cases (hs : iput s i e = some s') :
    ((s.entry e).ref = 1 ∧ (s.entry e).valid = true ∧ (s.entry e).copy.nlink = 0 ∧
      s' = ((s.setLock e (some i)).setNew (s.entry e).dev (s.entry e).inum none).setPc i (.trunc e)) ∨
    s' = (s.setEntry e { s.entry e with ref := (s.entry e).ref - 1 }).setPc i .idle := by
  simp only [iput] at hs
  split at hs
  · rename_i hfree
    split_ifs at hs
    exact .inl ⟨hfree.1, hfree.2.1, hfree.2.2, (Option.some.inj hs).symm⟩
  · exact .inr (Option.some.inj hs).symm

/-- `ialloc` is called with a type. -/
def Typed (s : State nproc ninode) : Prop := ∀ i dev t inum, s.pc i = .ialloc dev t inum → t ≠ 0

theorem Typed.update (h : Typed s) {pc : Pc ninode} (hs : s'.pc = Function.update s.pc i pc)
    (hpc : ∀ dev t inum, pc = .ialloc dev t inum → t ≠ 0) : Typed s' := by
  intro j dev t inum hj
  rw [hs] at hj
  by_cases e : j = i
  · rw [e, Function.update_self] at hj
    exact hpc dev t inum hj
  · rw [Function.update_of_ne e] at hj
    exact h j dev t inum hj

theorem addRef_pc (hs : addRef s e = some s') : s'.pc = s.pc := by
  unfold addRef at hs
  split_ifs at hs
  cases hs
  rfl

theorem iget_pc {dev inum : ℕ} (hs : iget s dev inum = some s') : s'.pc = s.pc := by
  unfold iget at hs
  split at hs
  · exact addRef_pc hs
  · split at hs
    · cases hs
    · cases hs
      rfl

theorem Typed.call {c : Choice ninode} (h : Typed s) (hs : callCode s i c = some s') : Typed s' := by
  cases c <;> simp only [callCode] at hs
  case go => cases hs
  case iget => cases hs; exact h.update rfl (by simp)
  case idup => split_ifs at hs; intro j; rw [addRef_pc hs]; exact h j
  case ilock => split_ifs at hs; cases hs; exact h.update rfl (by simp)
  case modify => split_ifs at hs; cases hs; exact h
  case iupdate => split_ifs at hs; cases hs; exact h
  case iunlock => split_ifs at hs; cases hs; exact h
  case iput => split_ifs at hs; cases hs; exact h.update rfl (by simp)
  case ialloc dev t =>
    split_ifs at hs with ht
    cases hs
    refine h.update rfl fun dev' t' inum' e => ?_
    cases e
    exact ht

theorem Typed.step {x : Fin nproc × Choice ninode} (h : Typed s) (hs : step ninodes s x = some s') : Typed s' := by
  obtain ⟨i, c⟩ := x
  simp only [Itable.step] at hs
  cases hpc : s.pc i <;> rw [hpc] at hs <;> simp only [code] at hs
  case idle => exact h.call hs
  case ialloc dev t inum =>
    split_ifs at hs <;> cases hs
    · exact h.update rfl (by simp)
    · refine h.update rfl fun dev' t' inum' e => ?_
      cases e
      exact h i _ _ _ hpc
    · exact h.update rfl (by simp)
  case iget dev inum =>
    have hpc' : _ = Function.update s.pc i .idle := iget_pc hs
    exact h.update hpc' (by simp)
  case ilock e =>
    split_ifs at hs <;> cases hs <;> exact h.update rfl (by simp)
  case load e => split_ifs at hs; cases hs; exact h.update rfl (by simp)
  case iput e =>
    obtain ⟨-, -, -, rfl⟩ | rfl := iput_cases hs <;> exact h.update rfl (by simp)
  all_goals
    cases hs
    exact h.update rfl (by simp)

theorem Inv.step {x : Fin nproc × Choice ninode} (h : Inv s) (ht : Typed s) (hs : step ninodes s x = some s') :
    Inv s' := by
  obtain ⟨i, c⟩ := x
  simp only [Itable.step] at hs
  cases hpc : s.pc i <;> rw [hpc] at hs <;> simp only [code] at hs
  case idle => exact h.call hpc hs
  case ialloc dev t inum =>
    have hna (x : Fin ninode) : (s.pc i).about ≠ some x := by rw [hpc]; simp [Pc.about]
    split_ifs at hs with hn hfree <;> cases hs
    · exact h.ialloc hpc (ht i _ _ _ hpc) hfree
    · exact h.setPc hna (by simp [Pc.about]) (by rw [hpc]; rfl) (by simp)
    · exact h.setPc hna (by simp [Pc.about]) (by rw [hpc]; rfl) (by simp)
  case iget dev inum =>
    have hinv : Inv (s.setPc i .idle) :=
      h.setPc (by rw [hpc]; simp [Pc.about]) (by simp [Pc.about]) (by rw [hpc]; rfl) (by simp)
    exact hinv.iget (i := i) (by simp [State.setPc, Pc.about]) hs
  case ilock e =>
    split_ifs at hs with hl hv <;> cases hs
    · have := h.ilock hpc hl
      rwa [if_pos hv] at this
    · have := h.ilock hpc hl
      rwa [if_neg hv] at this
  case load e =>
    split_ifs at hs with htype
    cases hs
    exact h.load hpc htype
  case iput e =>
    obtain ⟨hr, hv, -, rfl⟩ | rfl := iput_cases hs
    · exact h.beginFree hpc hr hv
    · exact h.dropRef (by rw [hpc]; rfl) (by rw [hpc]; simp [Pc.about])
  case trunc e => cases hs; exact h.trunc hpc
  case truncUpdate e => cases hs; exact h.truncUpdate hpc
  case freeType e => cases hs; exact h.freeType hpc
  case freeUpdate e => cases hs; exact h.freeUpdate hpc
  case invalidate e => cases hs; exact h.invalidate hpc
  case unlock e => cases hs; exact h.unlock hpc
  case drop e => cases hs; exact h.dropRef (by rw [hpc]; rfl) (by rw [hpc]; simp [Pc.about])

/-! ## Runs -/

theorem inv_boot (h : s.Boot) : Inv s ∧ Typed s := by
  have hna (i : Fin nproc) (e : Fin ninode) : (s.pc i).about ≠ some e := by rw [h.pc i]; simp [Pc.about]
  refine ⟨?_, fun i dev t inum hi => by rw [h.pc i] at hi; cases hi⟩
  constructor
  case balanced =>
    intro e
    have hdrops : s.drops = 0 := Finset.sum_eq_zero fun i _ => by rw [h.pc i]; rfl
    rw [h.entry e, h.pool e, hdrops]
    rfl
  case unique =>
    intro e x he
    rw [h.entry e] at he
    cases he
  case used =>
    rintro e ⟨i, hi⟩
    rw [h.pc i, h.lock e] at hi
    simp at hi
  case entries =>
    intro e
    refine EntryOk.of_free (h.lock e) (fun i => hna i e) (h.dirty e) fun hr => ?_
    rw [h.entry e] at hr
    cases hr
  case new =>
    intro dev inum t ht
    rw [h.new dev inum] at ht
    cases ht

theorem inv_run {es : List (Fin nproc × Choice ninode)} (h : s.Boot)
    (hrun : Runs.run (step ninodes) s es = some s') : Inv s' ∧ Typed s' := by
  have hstep (s : State nproc ninode) (x : Fin nproc × Choice ninode) (s' : State nproc ninode)
      (h : Inv s ∧ Typed s) (hs : step ninodes s x = some s') : Inv s' ∧ Typed s' :=
    ⟨h.1.step h.2 hs, h.2.step hs⟩
  exact Runs.run_induction hstep (inv_boot h) hrun

/-- The processes in `iput` that still have their reference. -/
def State.putting (s : State nproc ninode) (e : Fin ninode) : Finset (Fin nproc) :=
  Finset.univ.filter fun i => (s.pc i).drops = some e

theorem drops_eq_card (s : State nproc ninode) (e : Fin ninode) : s.drops e = (s.putting e).card := by
  rw [State.putting, Finset.card_filter, State.drops, Finset.sum_apply]
  push_cast
  refine Finset.sum_congr rfl fun i _ => ?_
  cases hd : (s.pc i).drops with
  | none => simp
  | some x => simp [unit_apply, eq_comm]

/-- In every run: no two entries in use are for the same inode; the count of an entry is the number of
references to it; the copy in an entry in use that is valid and not locked is that in the inode block;
`iput` begins to free an inode only when its own reference is the only one and the inode has no links;
and whoever locks an inode made by `ialloc` that nobody has modified or freed since finds it as `ialloc`
has initialised it. -/
theorem inode_table {s₀ s : State nproc ninode} {es : List (Fin nproc × Choice ninode)} (h₀ : s₀.Boot)
    (hrun : Runs.run (step ninodes) s₀ es = some s) :
    (∀ e x, 0 < (s.entry e).ref → 0 < (s.entry x).ref → (s.entry e).dev = (s.entry x).dev →
      (s.entry e).inum = (s.entry x).inum → e = x) ∧
    (∀ e, (s.entry e).ref = s.pool e + (s.putting e).card) ∧
    (∀ e, 0 < (s.entry e).ref → (s.entry e).valid = true → s.lock e = none → (s.entry e).copy = s.dinode e) ∧
    (∀ e i c s', step ninodes s (i, c) = some s' → s.pc i = .iput e → s'.pc i = .trunc e →
      s.pool e = 0 ∧ s.putting e = {i} ∧ (s.entry e).copy.nlink = 0 ∧ (s.dinode e).nlink = 0) ∧
    (∀ e i t, s.new (s.entry e).dev (s.entry e).inum = some t → s.lock e = some i → (s.pc i).about ≠ some e →
      (s.entry e).copy = Dinode.fresh t) := by
  obtain ⟨h, -⟩ := inv_run h₀ hrun
  refine ⟨h.unique, fun e => ?_, fun e hr hv hl => ((h.entries e).free hr hv hl).1, fun e i c s' hs hi hi' => ?_,
    fun e i t ht hl hna => ?_⟩
  · rw [h.balanced e, drops_eq_card]
  · simp only [step, hi, code] at hs
    obtain ⟨hr, hv, hn, rfl⟩ | rfl := iput_cases hs
    · obtain ⟨hpool, hl, hothers⟩ := h.alone hi hr
      have hcopy := ((h.entries e).free (by omega) hv hl).1
      refine ⟨hpool, ?_, hn, by rw [← hcopy]; exact hn⟩
      ext j
      simp only [State.putting, Finset.mem_filter, Finset.mem_univ, true_and, Finset.mem_singleton]
      refine ⟨fun hj => ?_, ?_⟩
      · by_contra hne
        exact hothers j hne hj
      · rintro rfl
        rw [hi]
        rfl
    · simp [State.setPc] at hi'
  · have hpos := h.ref_pos_of_held hl
    have hclean : s.dirty e = false := by
      by_contra hd
      rw [(h.entries e).clean hpos (Bool.not_eq_false _ ▸ hd)] at ht
      cases ht
    rw [((h.entries e).held hpos i hl hna).2.2 hclean]
    exact (h.new _ _ t ht).2

/-- Two processes and two entries after `iinit`, with the inode `d` under every number. -/
def booted (d : Dinode) : State 2 2 where
  entry _ := ⟨0, 0, 0, false, Dinode.fresh 0⟩
  lock _ := none
  disk _ _ := d
  pc _ := .idle
  pool _ := 0
  dirty _ := false
  new _ _ := none

theorem booted_boot (d : Dinode) : (booted d).Boot where
  entry _ := rfl
  lock _ := rfl
  pc _ := rfl
  pool _ := rfl
  dirty _ := rfl
  new _ _ := rfl

theorem neZero_two : NeZero 2 := ⟨by decide⟩

attribute [local instance] neZero_two

/-- A process makes an inode, locks and unlocks it and puts it, which frees it; when `iput` is about to
clear `valid`, the other process makes an inode with the same number and locks it after `iput` is done. -/
def allocWhileFreeing : List (Fin 2 × Choice 2) :=
  List.flatten [
    [.ialloc 1 2, .go, .go, .ilock 0, .go, .go, .iunlock 0, .iput 0, .go, .go, .go, .go, .go].map (Prod.mk 0),
    [.ialloc 1 3, .go, .go, .ilock 0].map (Prod.mk 1), [.go, .go, .go].map (Prod.mk 0), [.go, .go].map (Prod.mk 1)]

theorem inode_table_allocWhileFreeing :
    ∃ s, Runs.run (step 2) (booted (Dinode.fresh 0)) allocWhileFreeing = some s ∧
      (s.entry 0).copy = Dinode.fresh 3 ∧ (s.entry 0).ref = s.pool 0 + (s.putting 0).card := by
  have hend : (Runs.run (step 2) (booted (Dinode.fresh 0)) allocWhileFreeing).map (fun s =>
      (s.new (s.entry 0).dev (s.entry 0).inum, s.lock 0, s.pc 1)) = some (some 3, some 1, .idle) := rfl
  obtain ⟨s, hs, e⟩ := Option.map_eq_some_iff.1 hend
  simp only [Prod.mk.injEq] at e
  obtain ⟨hnew, hlock, hpc⟩ := e
  obtain ⟨-, hcount, -, -, hfresh⟩ := inode_table (booted_boot _) hs
  exact ⟨s, hs, hfresh 0 1 3 hnew hlock (by rw [hpc]; simp [Pc.about]), hcount 0⟩

/-- A regular file with one link. -/
def oneLink : Dinode := { Dinode.fresh 2 with nlink := 1 }

/-- Inode 2 is got in entry 1 while entry 0 is in use, loaded and put, and then got again in entry 0,
modified and written. -/
def gotInAnotherEntry : List (Fin 2 × Choice 2) :=
  [.iget 1 1, .go, .iget 1 2, .go, .ilock 1, .go, .go, .iunlock 1, .iput 1, .go, .iput 0, .go, .iget 1 2, .go,
    .ilock 0, .go, .go, .modify 0 { oneLink with nlink := 2 }, .iupdate 0, .iunlock 0].map (Prod.mk 0)

/-- A process gets the inode that another has just made and modifies it before the other has locked it. -/
def modifiedBeforeLock : List (Fin 2 × Choice 2) :=
  List.flatten [
    [.ialloc 1 2, .go].map (Prod.mk 0),
    [.iget 1 1, .go, .ilock 0, .go, .go, .modify 0 oneLink, .iupdate 0, .iunlock 0].map (Prod.mk 1),
    [.go, .ilock 0, .go].map (Prod.mk 0)]

/-- A valid entry whose lock is free may differ from the inode block when its count is 0, and an inode
made by `ialloc` is not always found as it was initialised. -/
theorem stale_free_entry_and_modified_new_inode :
    (∃ s, Runs.run (step 2) (booted oneLink) gotInAnotherEntry = some s ∧
      (s.entry 1).valid = true ∧ s.lock 1 = none ∧ (s.entry 1).copy.nlink ≠ (s.dinode 1).nlink) ∧
    ∃ s, Runs.run (step 2) (booted (Dinode.fresh 0)) modifiedBeforeLock = some s ∧
      (s.entry 0).inum = 1 ∧ s.pc 0 = .idle ∧ s.lock 0 = some 0 ∧ (s.entry 0).copy ≠ Dinode.fresh 2 := by
  constructor
  · have hend : (Runs.run (step 2) (booted oneLink) gotInAnotherEntry).map (fun s =>
        ((s.entry 1).valid, s.lock 1, (s.entry 1).copy.nlink, (s.dinode 1).nlink)) = some (true, none, 1, 2) := rfl
    obtain ⟨s, hs, e⟩ := Option.map_eq_some_iff.1 hend
    simp only [Prod.mk.injEq] at e
    obtain ⟨hv, hl, hc, hd⟩ := e
    exact ⟨s, hs, hv, hl, by rw [hc, hd]; decide⟩
  · have hend : (Runs.run (step 2) (booted (Dinode.fresh 0)) modifiedBeforeLock).map (fun s =>
        ((s.entry 0).inum, s.pc 0, s.lock 0, (s.entry 0).copy.nlink)) = some (1, .idle, some 0, 1) := rfl
    obtain ⟨s, hs, e⟩ := Option.map_eq_some_iff.1 hend
    simp only [Prod.mk.injEq] at e
    obtain ⟨hn, hpc, hl, hc⟩ := e
    refine ⟨s, hs, hn, hpc, hl, fun hfresh => ?_⟩
    rw [hfresh] at hc
    exact absurd hc (by decide)

end Xv6.Itable
