import Xv6.Itable.Invariant

/-!
# The steps of the inode table

Each step touches one entry (`Inv.touch`) or only counts (`Inv.count`), and keeps the invariant.
-/

namespace Xv6.Itable

open Fs Shares

variable {nproc ninode : ℕ} {s s' : State nproc ninode} {i j : Fin nproc} {e x : Fin ninode} {pc : Pc ninode}

/-- Only the inode of the entry `e` may differ, on disk and as `ialloc` has left it. -/
def SameInodes (s s' : State nproc ninode) (e : Fin ninode) : Prop :=
  ∀ dev inum, ¬ ((s.entry e).dev = dev ∧ (s.entry e).inum = inum) →
    s'.disk dev inum = s.disk dev inum ∧ s'.new dev inum = s.new dev inum

/-- An inode that nobody has changed since `ialloc` is as `ialloc` has left it. -/
def NewFresh (s : State nproc ninode) (dev inum : ℕ) : Prop :=
  ∀ t, s.new dev inum = some t → t ≠ 0 ∧ s.disk dev inum = Dinode.fresh t

/-! ## Kinds of steps -/

theorem Inv.touch (h : Inv s) (hpos : 0 < (s.entry e).ref) (hpc : ∀ x, x ≠ e → Elsewhere s s' i x)
    (hentry : ∀ x, x ≠ e → s'.entry x = s.entry x) (hlock : ∀ x, x ≠ e → s'.lock x = s.lock x)
    (hdirty : ∀ x, x ≠ e → s'.dirty x = s.dirty x)
    (hkey : (s'.entry e).dev = (s.entry e).dev ∧ (s'.entry e).inum = (s.entry e).inum)
    (hdisk : SameInodes s s' e)
    (hbal : ∀ x, (s'.entry x).ref = s'.pool x + s'.drops x) (hused : ∀ x, s'.Used x → 1 ≤ s'.pool x)
    (hnew : NewFresh s' (s.entry e).dev (s.entry e).inum)
    (hok : EntryOk s' e) : Inv s' := by
  -- no other entry in use is for the same inode
  have hother (x : Fin ninode) (hx : x ≠ e) (hr : 0 < (s.entry x).ref) :
      ¬ ((s.entry e).dev = (s.entry x).dev ∧ (s.entry e).inum = (s.entry x).inum) :=
    fun hsame => hx (h.unique e x hpos hr hsame.1 hsame.2).symm
  have hsame (x : Fin ninode) : (s'.entry x).dev = (s.entry x).dev ∧ (s'.entry x).inum = (s.entry x).inum := by
    by_cases hx : x = e
    · rw [hx]
      exact hkey
    · rw [hentry x hx]
      exact ⟨rfl, rfl⟩
  have hinuse (x : Fin ninode) (hr : 0 < (s'.entry x).ref) : 0 < (s.entry x).ref := by
    by_cases hx : x = e
    · rw [hx]
      exact hpos
    · rwa [← hentry x hx]
  constructor
  case balanced => exact hbal
  case unique =>
    intro y x hy hx hd hn
    rw [(hsame y).1, (hsame x).1] at hd
    rw [(hsame y).2, (hsame x).2] at hn
    exact h.unique y x (hinuse y hy) (hinuse x hx) hd hn
  case used => exact hused
  case entries =>
    intro x
    by_cases hx : x = e
    · rw [hx]
      exact hok
    · refine (h.entries x).frame (hpc x hx) (by rw [hentry x hx]) (hinuse x) (hlock x hx) (hdirty x hx)
        fun hr => ?_
      obtain ⟨hd, hn⟩ := hdisk _ _ (hother x hx hr)
      exact ⟨hd, .inr hn⟩
  case new =>
    intro dev inum t ht
    by_cases hk : (s.entry e).dev = dev ∧ (s.entry e).inum = inum
    · obtain ⟨rfl, rfl⟩ := hk
      exact hnew t ht
    · rw [(hdisk dev inum hk).2] at ht
      rw [(hdisk dev inum hk).1]
      exact h.new dev inum t ht

/-- A step that changes at most the counts of entries in use. -/
theorem Inv.count (h : Inv s) (hpc : ∀ x, Elsewhere s s' i x)
    (hentry : ∀ x, s'.entry x = { s.entry x with ref := (s'.entry x).ref })
    (href : ∀ x, 0 < (s'.entry x).ref → 0 < (s.entry x).ref) (hlock : s'.lock = s.lock)
    (hdirty : s'.dirty = s.dirty) (hdisk : s'.disk = s.disk) (hnew : s'.new = s.new)
    (hbal : ∀ x, (s'.entry x).ref = s'.pool x + s'.drops x) (hused : ∀ x, s'.Used x → 1 ≤ s'.pool x) :
    Inv s' where
  balanced := hbal
  unique y x hy hx hd hn := by
    rw [hentry y, hentry x] at hd hn
    exact h.unique y x (href y hy) (href x hx) hd hn
  used := hused
  entries x := (h.entries x).frame (hpc x) (hentry x) (href x) (by rw [hlock]) (by rw [hdirty]) fun _ =>
    ⟨by rw [hdisk]; rfl, .inr (by rw [hnew])⟩
  new := by
    rw [hnew, hdisk]
    exact h.new

theorem elsewhere_setPc (s : State nproc ninode) (hs : s'.pc = Function.update s.pc i pc)
    (hb : (s.pc i).about ≠ some x) (ha : pc.about ≠ some x) : Elsewhere s s' i x where
  others j hj := by rw [hs, Function.update_of_ne hj]
  before := hb
  after := by rwa [hs, Function.update_self]

theorem elsewhere_refl (s : State nproc ninode) (hs : s'.pc = s.pc) (hb : (s.pc i).about ≠ some x) :
    Elsewhere s s' i x where
  others j _ := by rw [hs]
  before := hb
  after := by rwa [hs]

/-- Who uses an entry after a step of process `i` that keeps the lock. -/
theorem Used.of_setPc (h : s'.Used x) (hs : s'.pc = Function.update s.pc i pc) (hlock : s'.lock x = s.lock x)
    (hi : pc ≠ .ilock x) (hl : pc ≠ .load x)
    (hf : s.lock x = some i → pc.frees ≠ some x → (s.pc i).frees ≠ some x) : s.Used x := by
  obtain ⟨j, hj⟩ := h
  rw [hs, hlock] at hj
  by_cases e : j = i
  · subst e
    rw [Function.update_self] at hj
    obtain hj | hj | ⟨hj, hfj⟩ := hj
    · exact absurd hj hi
    · exact absurd hj hl
    · exact ⟨j, .inr (.inr ⟨hj, hf hj hfj⟩)⟩
  · rw [Function.update_of_ne e] at hj
    exact ⟨j, hj⟩

/-! ## Counts -/

/-- `ip->ref++` of an entry in use. -/
theorem Inv.addRef (h : Inv s) (hi : ∀ x, (s.pc i).about ≠ some x) (hpos : 0 < (s.entry e).ref)
    (hs : addRef s e = some s') : Inv s' := by
  unfold Itable.addRef at hs
  split_ifs at hs
  cases hs
  refine h.count (i := i) (fun x => elsewhere_refl s rfl (hi x)) (fun x => ?_) (fun x => ?_) rfl rfl rfl rfl
    (fun x => ?_) fun x hx => ?_
  · by_cases hx : x = e
    · subst hx
      simp [State.setPool, State.setEntry]
    · simp [State.setPool, State.setEntry, hx]
  · by_cases hx : x = e
    · subst hx
      exact fun _ => hpos
    · simp [State.setPool, State.setEntry, hx]
  · have hb := h.balanced x
    have hd : ((s.setEntry e { s.entry e with ref := (s.entry e).ref + 1 }).setPool e (s.pool e + 1)).drops =
        s.drops := rfl
    rw [hd]
    by_cases hx : x = e
    · subst hx
      simp only [State.setPool, State.setEntry, Function.update_self]
      push_cast
      omega
    · simpa [State.setPool, State.setEntry, hx] using hb
  · have hu : s.Used x := hx
    have := h.used x hu
    by_cases hxe : x = e
    · simp [State.setPool, hxe]
    · simpa [State.setPool, State.setEntry, hxe] using this

theorem Inv.setPc (h : Inv s) (hi : ∀ x, (s.pc i).about ≠ some x) (hpc : ∀ x, pc.about ≠ some x)
    (hdrops : pc.drops = (s.pc i).drops) (hlock : ∀ x, pc = .ilock x → 1 ≤ s.pool x) : Inv (s.setPc i pc) := by
  refine h.count (i := i) (fun x => elsewhere_setPc s rfl (hi x) (hpc x)) (fun x => rfl) (fun x hx => hx) rfl
    rfl rfl rfl (fun x => ?_) fun x hx => ?_
  · rw [drops_setPc, hdrops]
    have hb := h.balanced x
    simp only [State.setPc, Pi.add_apply, Pi.sub_apply]
    omega
  · by_cases hil : pc = .ilock x
    · exact hlock x hil
    · refine h.used x (Used.of_setPc hx rfl rfl hil (fun e => hpc x (by rw [e]; rfl)) fun _ _ hf => ?_)
      exact hi x (frees_about hf)

theorem Inv.beginPut (h : Inv s) (hi : s.pc i = .idle) (hpool : 1 ≤ s.pool e)
    (hused : s.pool e = 1 → ¬ s.Used e) : Inv ((s.setPool e (s.pool e - 1)).setPc i (.iput e)) := by
  refine h.count (i := i) (fun x => elsewhere_setPc s rfl (by rw [hi]; simp [Pc.about]) (by simp [Pc.about]))
    (fun x => rfl) (fun x hx => hx) rfl rfl rfl rfl (fun x => ?_) fun x hx => ?_
  · rw [drops_setPc]
    have hb := h.balanced x
    have hp : (s.setPool e (s.pool e - 1)).pc i = .idle := hi
    rw [hp]
    by_cases hx : x = e
    · subst hx
      simp only [State.setPc, State.setPool, Function.update_self, Pi.add_apply, Pi.sub_apply, Pc.drops, held_none,
        held_some, unit_self, Pi.zero_apply, State.drops] at hb ⊢
      omega
    · simp only [State.setPc, State.setPool, Function.update_of_ne hx, Pi.add_apply, Pi.sub_apply, Pc.drops,
        held_none, held_some, unit_of_ne hx, Pi.zero_apply, State.drops] at hb ⊢
      omega
  · have hu : s.Used x := Used.of_setPc hx rfl rfl (by simp) (by simp) fun _ _ hf => by
      rw [hi] at hf
      cases hf
    have := h.used x hu
    by_cases hxe : x = e
    · subst hxe
      have hne : s.pool x ≠ 1 := fun e1 => hused e1 hu
      simp only [State.setPc, State.setPool, Function.update_self]
      omega
    · simpa [State.setPc, State.setPool, hxe] using this

/-- `ip->ref--` at the end of `iput`. -/
theorem Inv.dropRef (h : Inv s) (hd : (s.pc i).drops = some e) (ha : ∀ x, (s.pc i).about ≠ some x) :
    Inv ((s.setEntry e { s.entry e with ref := (s.entry e).ref - 1 }).setPc i .idle) := by
  have hpos := h.ref_pos_of_drops hd
  refine h.count (i := i) (fun x => elsewhere_setPc s rfl (ha x) (by simp [Pc.about])) (fun x => ?_)
    (fun x => ?_) rfl rfl rfl rfl (fun x => ?_) fun x hx => ?_
  · by_cases hx : x = e
    · subst hx
      simp [State.setPc, State.setEntry]
    · simp [State.setPc, State.setEntry, hx]
  · by_cases hx : x = e
    · subst hx
      exact fun _ => hpos
    · simp [State.setPc, State.setEntry, hx]
  · rw [drops_setPc]
    have hb := h.balanced x
    have hp : ((s.setEntry e { s.entry e with ref := (s.entry e).ref - 1 }).pc i).drops = some e := hd
    rw [hp]
    by_cases hx : x = e
    · subst hx
      simp only [State.setPc, State.setEntry, Function.update_self, Pi.add_apply, Pi.sub_apply, Pc.drops, held_none,
        held_some, unit_self, Pi.zero_apply, State.drops] at hb ⊢
      omega
    · simp only [State.setPc, State.setEntry, Function.update_of_ne hx, Pi.add_apply, Pi.sub_apply, Pc.drops,
        held_none, held_some, unit_of_ne hx, Pi.zero_apply, State.drops] at hb ⊢
      omega
  · exact h.used x (Used.of_setPc hx rfl rfl (by simp) (by simp) fun _ _ hf => ha x (frees_about hf))

/-! ## The sleep-lock -/

/-- A step of process `i` on the entry `e` that changes no count. -/
theorem Inv.at (h : Inv s) (hpos : 0 < (s.entry e).ref) (hs : s'.pc = Function.update s.pc i pc)
    (hb : ∀ x, x ≠ e → (s.pc i).about ≠ some x) (ha : ∀ x, x ≠ e → pc.about ≠ some x)
    (hil : ∀ x, pc ≠ .ilock x) (hdrops : pc.drops = (s.pc i).drops)
    (hentry : ∀ x, x ≠ e → s'.entry x = s.entry x) (hlock : ∀ x, x ≠ e → s'.lock x = s.lock x)
    (hdirty : ∀ x, x ≠ e → s'.dirty x = s.dirty x) (href : (s'.entry e).ref = (s.entry e).ref)
    (hkey : (s'.entry e).dev = (s.entry e).dev ∧ (s'.entry e).inum = (s.entry e).inum)
    (hpool : s'.pool = s.pool)
    (hdisk : SameInodes s s' e)
    (hused : s'.Used e → s.Used e)
    (hnew : NewFresh s' (s.entry e).dev (s.entry e).inum)
    (hok : EntryOk s' e) : Inv s' := by
  have hsum : s'.drops = s.drops := by
    have := drops_setPc s i pc
    rw [hdrops, sub_add_cancel] at this
    rw [← this]
    unfold State.drops
    rw [hs]
    rfl
  refine h.touch hpos (fun x hx => elsewhere_setPc s hs (hb x hx) (ha x hx)) hentry hlock hdirty hkey hdisk
    (fun x => ?_) (fun x hx => ?_) hnew hok
  · rw [hsum, hpool, ← h.balanced x]
    by_cases hx : x = e
    · rw [hx, href]
    · rw [hentry x hx]
  · rw [hpool]
    refine h.used x ?_
    by_cases hxe : x = e
    · subst hxe
      exact hused hx
    · exact Used.of_setPc hx hs (hlock x hxe) (hil x) (fun e' => ha x hxe (by rw [e']; rfl))
        fun _ _ hf => hb x hxe (frees_about hf)

/-- What holds of the inode of an entry in use, as `new` is concerned, when its block is not written. -/
theorem Inv.new_same (h : Inv s) (hnew : s'.new (s.entry e).dev (s.entry e).inum = none ∨
      s'.new (s.entry e).dev (s.entry e).inum = s.new (s.entry e).dev (s.entry e).inum)
    (hdisk : s'.disk (s.entry e).dev (s.entry e).inum = s.disk (s.entry e).dev (s.entry e).inum) :
    NewFresh s' (s.entry e).dev (s.entry e).inum := by
  intro t ht
  obtain hn | hn := hnew
  · rw [hn] at ht
    cases ht
  · rw [hn] at ht
    rw [hdisk]
    exact h.new _ _ t ht

/-- What has to be known of an entry that process `i` has locked. -/
theorem EntryOk.of_owner (hl : s.lock e = some i) (hothers : ∀ j, j ≠ i → (s.pc j).about ≠ some e)
    (hinv : s.pc i = .load e ∨ s.pc i = .unlock e → (s.entry e).valid = false)
    (hval : (s.pc i).about ≠ some e → (s.entry e).valid = true)
    (hdirty : s.dirty e = true → (s.pc i).about ≠ some e ∧ s.new (s.entry e).dev (s.entry e).inum = none)
    (htrunc : (s.pc i).truncates = some e → (s.entry e).valid = true ∧
      s.new (s.entry e).dev (s.entry e).inum = none ∧ (s.dinode e).type ≠ 0 ∧
      (s.pc i).Copied (s.entry e).copy (s.dinode e))
    (hheld : (s.pc i).about ≠ some e → (s.dinode e).type = (s.entry e).copy.type ∧ (s.dinode e).type ≠ 0 ∧
      (s.dirty e = false → (s.entry e).copy = s.dinode e)) : EntryOk s e := by
  have howner {j : Fin nproc} (hj : (s.pc j).about = some e) : j = i := by
    by_contra hne
    exact hothers j hne hj
  have hlocked {j : Fin nproc} (hj : s.lock e = some j) : j = i := by
    rw [hl] at hj
    exact (Option.some.inj hj).symm
  constructor
  case owner =>
    intro j hj
    rw [howner hj, hl]
  case invalid =>
    intro j hj
    have hji : j = i := howner (by obtain hj | hj := hj <;> rw [hj] <;> rfl)
    rw [hji] at hj
    exact hinv hj
  case valid =>
    intro j hj hna
    rw [hlocked hj] at hna
    exact hval hna
  case dirty => exact fun hd => ⟨i, hl, (hdirty hd).1⟩
  case clean => exact fun _ hd => (hdirty hd).2
  case truncates =>
    intro _ j hj
    have hji : j = i := howner (frees_about (truncates_frees hj))
    rw [hji] at hj ⊢
    exact htrunc hj
  case free =>
    intro _ _ hn
    rw [hl] at hn
    cases hn
  case held =>
    intro _ j hj hna
    rw [hlocked hj] at hna
    exact hheld hna

/-- What has to be known of an entry that nobody has locked. -/
theorem EntryOk.of_free (hl : s.lock e = none) (hnobody : ∀ j, (s.pc j).about ≠ some e)
    (hdirty : s.dirty e = false) (hfree : 0 < (s.entry e).ref → (s.entry e).valid = true →
      (s.entry e).copy = s.dinode e ∧ (s.dinode e).type ≠ 0) : EntryOk s e := by
  have hclean : ¬ s.dirty e = true := by rw [hdirty]; simp
  have hlocked {j : Fin nproc} : s.lock e ≠ some j := by rw [hl]; simp
  constructor
  case owner => exact fun j hj => absurd hj (hnobody j)
  case invalid =>
    intro j hj
    have habout : (s.pc j).about = some e := by obtain hj | hj := hj <;> rw [hj] <;> rfl
    exact absurd habout (hnobody j)
  case valid => exact fun j hj => absurd hj hlocked
  case dirty => exact fun hd => absurd hd hclean
  case clean => exact fun _ hd => absurd hd hclean
  case truncates => exact fun _ j hj => absurd (frees_about (truncates_frees hj)) (hnobody j)
  case free => exact fun hr hv _ => hfree hr hv
  case held => exact fun _ j hj => absurd hj hlocked

theorem Inv.ilock (h : Inv s) (hi : s.pc i = .ilock e) (hl : s.lock e = none) :
    Inv ((s.setLock e (some i)).setPc i (if (s.entry e).valid then .idle else .load e)) := by
  have hused : s.Used e := ⟨i, .inl hi⟩
  have hpos := h.ref_pos_of_used hused
  have hok := h.entries e
  obtain ⟨hclean, hnobody⟩ := hok.unlocked hl
  refine h.at hpos rfl (fun x _ => by rw [hi]; simp [Pc.about]) (fun x hx => ?_) (fun x => ?_) ?_
    (fun x _ => rfl) (fun x hx => Function.update_of_ne hx _ _) (fun x _ => rfl) rfl ⟨rfl, rfl⟩ rfl
    (fun _ _ _ => ⟨rfl, rfl⟩) (fun _ => hused) (h.new_same (.inr rfl) rfl) ?_
  · split_ifs
    · simp [Pc.about]
    · simpa [Pc.about] using Ne.symm hx
  · split_ifs <;> simp
  · rw [hi]
    split_ifs <;> rfl
  refine EntryOk.of_owner (i := i) (Function.update_self _ _ _) (fun j hj => ?_) ?_ ?_ (fun hd => ?_) ?_ ?_
  · simp only [State.setPc, State.setLock, Function.update_of_ne hj]
    exact hnobody j
  · simp only [State.setPc, State.setLock, Function.update_self]
    cases hv : (s.entry e).valid <;> simp
  · simp only [State.setPc, State.setLock, Function.update_self]
    cases hv : (s.entry e).valid <;> simp [Pc.about]
  · rw [show s.dirty e = true from hd] at hclean
    cases hclean
  · simp only [State.setPc, State.setLock, Function.update_self]
    cases hv : (s.entry e).valid <;> simp [Pc.truncates]
  · simp only [State.setPc, State.setLock, Function.update_self]
    cases hv : (s.entry e).valid with
    | false => simp [Pc.about]
    | true =>
      obtain ⟨hc, ht⟩ := hok.free hpos hv hl
      exact fun _ => ⟨congrArg Dinode.type hc.symm, ht, fun _ => hc⟩

/-- A step of the process that has the entry locked, to the point `pc` and with `ip` as the entry. -/
theorem Inv.owned {ip : Entry} (h : Inv s) (hl : s.lock e = some i) (hs : s'.pc = Function.update s.pc i pc)
    (hb : ∀ x, x ≠ e → (s.pc i).about ≠ some x) (ha : ∀ x, x ≠ e → pc.about ≠ some x)
    (hil : pc ≠ .ilock e ∧ pc ≠ .load e ∧ ∀ x, pc ≠ .ilock x) (hdrops : pc.drops = (s.pc i).drops)
    (hfrees : pc.frees ≠ some e → (s.pc i).frees ≠ some e) (hentry : s'.entry = Function.update s.entry e ip)
    (href : ip.ref = (s.entry e).ref) (hkey : ip.dev = (s.entry e).dev ∧ ip.inum = (s.entry e).inum)
    (hlock : s'.lock = s.lock) (hpool : s'.pool = s.pool) (hdirty : ∀ x, x ≠ e → s'.dirty x = s.dirty x)
    (hdisk : SameInodes s s' e) (hnew : NewFresh s' (s.entry e).dev (s.entry e).inum)
    (hinv : pc = .unlock e → ip.valid = false) (hval : pc.about ≠ some e → ip.valid = true)
    (hd : s'.dirty e = true → pc.about ≠ some e ∧ s'.new (s.entry e).dev (s.entry e).inum = none)
    (htrunc : pc.truncates = some e → ip.valid = true ∧ s'.new (s.entry e).dev (s.entry e).inum = none ∧
      (s'.disk (s.entry e).dev (s.entry e).inum).type ≠ 0 ∧
      pc.Copied ip.copy (s'.disk (s.entry e).dev (s.entry e).inum))
    (hheld : pc.about ≠ some e → (s'.disk (s.entry e).dev (s.entry e).inum).type = ip.copy.type ∧
      (s'.disk (s.entry e).dev (s.entry e).inum).type ≠ 0 ∧
      (s'.dirty e = false → ip.copy = s'.disk (s.entry e).dev (s.entry e).inum)) : Inv s' := by
  have hpc : s'.pc i = pc := by rw [hs, Function.update_self]
  have hip : s'.entry e = ip := by rw [hentry, Function.update_self]
  have hdinode : s'.dinode e = s'.disk (s.entry e).dev (s.entry e).inum := by
    rw [State.dinode, hip, hkey.1, hkey.2]
  refine h.at (h.ref_pos_of_held hl) hs hb ha hil.2.2 hdrops (fun x hx => by rw [hentry, Function.update_of_ne hx])
    (fun x _ => by rw [hlock]) hdirty (by rw [hip, href]) (by rw [hip]; exact hkey) hpool hdisk
    (fun hu => Used.of_setPc hu hs (by rw [hlock]) hil.1 hil.2.1 fun _ => hfrees) hnew ?_
  refine EntryOk.of_owner (by rw [hlock, hl]) (fun j hj hja => ?_) ?_ ?_ ?_ ?_ ?_
  · rw [hs, Function.update_of_ne hj] at hja
    exact hj ((h.entries e).about_eq hl hja)
  · rw [hpc, hip]
    rintro (hpc | hpc)
    · exact absurd hpc hil.2.1
    · exact hinv hpc
  · rw [hpc, hip]
    exact hval
  · rw [hpc, hip, hkey.1, hkey.2]
    exact hd
  · rw [hpc, hdinode, hip, hkey.1, hkey.2]
    exact htrunc
  · rw [hpc, hdinode, hip]
    exact hheld

/-- While a process is in `ilock` or `iput` with the lock, the entry is not dirty. -/
theorem EntryOk.clean_of_about (h : EntryOk s e) (ha : (s.pc i).about = some e) : s.dirty e ≠ true := by
  intro hd
  obtain ⟨j, hj, hna⟩ := h.dirty hd
  rw [h.owner i ha] at hj
  cases hj
  exact hna ha

theorem Inv.load (h : Inv s) (hi : s.pc i = .load e) (ht : (s.dinode e).type ≠ 0) :
    Inv ((s.setEntry e { s.entry e with copy := s.dinode e, valid := true }).setPc i .idle) := by
  have ha : (s.pc i).about = some e := by rw [hi]; rfl
  refine h.owned ((h.entries e).owner i ha) rfl (fun x hx => by rw [ha]; simpa using Ne.symm hx)
    (fun x _ => by simp [Pc.about]) (by simp) (by rw [hi]; rfl) (fun _ => by rw [hi]; simp [Pc.frees]) rfl rfl
    ⟨rfl, rfl⟩ rfl rfl (fun _ _ => rfl) (fun _ _ _ => ⟨rfl, rfl⟩) (h.new_same (.inr rfl) rfl) (by simp)
    (fun _ => rfl) (fun hd => absurd hd ((h.entries e).clean_of_about ha)) (by simp [Pc.truncates])
    fun _ => ⟨rfl, ht, fun _ => rfl⟩

theorem setDisk_of_ne {dev inum dev' inum' : ℕ} (s : State nproc ninode) (d : Dinode)
    (h : ¬ (dev = dev' ∧ inum = inum')) : (s.setDisk dev inum d).disk dev' inum' = s.disk dev' inum' := by
  by_cases hd : dev' = dev
  · subst hd
    simp only [State.setDisk, Function.update_self]
    exact Function.update_of_ne (fun hn => h ⟨rfl, hn.symm⟩) _ _
  · simp only [State.setDisk, Function.update_of_ne hd]

theorem setNew_of_ne {dev inum dev' inum' : ℕ} (s : State nproc ninode) (t : Option (BitVec 16))
    (h : ¬ (dev = dev' ∧ inum = inum')) : (s.setNew dev inum t).new dev' inum' = s.new dev' inum' := by
  by_cases hd : dev' = dev
  · subst hd
    simp only [State.setNew, Function.update_self]
    exact Function.update_of_ne (fun hn => h ⟨rfl, hn.symm⟩) _ _
  · simp only [State.setNew, Function.update_of_ne hd]

@[simp] theorem setDisk_self (s : State nproc ninode) (dev inum : ℕ) (d : Dinode) :
    (s.setDisk dev inum d).disk dev inum = d := by
  simp [State.setDisk]

@[simp] theorem setNew_self (s : State nproc ninode) (dev inum : ℕ) (t : Option (BitVec 16)) :
    (s.setNew dev inum t).new dev inum = t := by
  simp [State.setNew]

/-! ## The holder of the lock -/

theorem Inv.modify {d : Dinode} (h : Inv s) (hi : s.pc i = .idle) (hl : s.lock e = some i)
    (ht : d.type = (s.entry e).copy.type) :
    Inv (((s.setCopy e d).setDirty e true).setNew (s.entry e).dev (s.entry e).inum none) := by
  have hna : (s.pc i).about ≠ some e := by rw [hi]; simp [Pc.about]
  obtain ⟨htype, hne, -⟩ := (h.entries e).held (h.ref_pos_of_held hl) i hl hna
  refine h.owned hl (Function.update_eq_self i s.pc).symm (fun x _ => by rw [hi]; simp [Pc.about])
    (fun x _ => by rw [hi]; simp [Pc.about]) (by rw [hi]; simp) rfl id rfl rfl ⟨rfl, rfl⟩ rfl rfl
    (fun x hx => Function.update_of_ne hx _ _) (fun dev inum hk => ⟨rfl, setNew_of_ne _ _ hk⟩)
    (fun t hnew => by rw [setNew_self] at hnew; cases hnew) (fun hu => by rw [hi] at hu; cases hu)
    (fun _ => (h.entries e).valid i hl hna) (fun _ => ⟨hna, setNew_self _ _ _ _⟩)
    (fun hu => by rw [hi] at hu; cases hu) fun _ => ⟨?_, hne, fun hd => ?_⟩
  · exact htype.trans ht.symm
  · have hd' : Function.update s.dirty e true e = false := hd
    rw [Function.update_self] at hd'
    cases hd'

theorem Inv.iupdate (h : Inv s) (hi : s.pc i = .idle) (hl : s.lock e = some i) :
    Inv ((s.iupdate e).setDirty e false) := by
  have hna : (s.pc i).about ≠ some e := by rw [hi]; simp [Pc.about]
  have hpos := h.ref_pos_of_held hl
  obtain ⟨htype, hne, hcopy⟩ := (h.entries e).held hpos i hl hna
  have hdisk : ((s.iupdate e).setDirty e false).disk (s.entry e).dev (s.entry e).inum = (s.entry e).copy :=
    setDisk_self _ _ _ _
  refine h.owned hl (Function.update_eq_self i s.pc).symm (fun x _ => by rw [hi]; simp [Pc.about])
    (fun x _ => by rw [hi]; simp [Pc.about]) (by rw [hi]; simp) rfl id (Function.update_eq_self e s.entry).symm rfl
    ⟨rfl, rfl⟩ rfl rfl (fun x hx => Function.update_of_ne hx _ _) (fun dev inum hk => ⟨setDisk_of_ne _ _ hk, rfl⟩)
    (fun t hnew => ?_) (fun hu => by rw [hi] at hu; cases hu) (fun _ => (h.entries e).valid i hl hna) (fun hd => ?_)
    (fun hu => by rw [hi] at hu; cases hu) fun _ => ?_
  · have hnew' : s.new (s.entry e).dev (s.entry e).inum = some t := hnew
    have hclean : s.dirty e = false := by
      by_contra hd
      rw [(h.entries e).clean hpos (Bool.not_eq_false _ ▸ hd)] at hnew'
      cases hnew'
    obtain ⟨ht, hfresh⟩ := h.new _ _ t hnew'
    rw [hdisk, hcopy hclean]
    exact ⟨ht, hfresh⟩
  · have hd' : Function.update s.dirty e false e = true := hd
    rw [Function.update_self] at hd'
    cases hd'
  · rw [hdisk]
    exact ⟨rfl, by rwa [← htype], fun _ => rfl⟩

theorem Inv.release (h : Inv s) (hl : s.lock e = some i) (hs : s'.pc = Function.update s.pc i pc)
    (hb : ∀ x, x ≠ e → (s.pc i).about ≠ some x) (ha : ∀ x, pc.about ≠ some x) (hil : ∀ x, pc ≠ .ilock x)
    (hdrops : pc.drops = (s.pc i).drops) (hentry : s'.entry = s.entry)
    (hlock : s'.lock = Function.update s.lock e none) (hpool : s'.pool = s.pool) (hdirty : s'.dirty = s.dirty)
    (hdisk : s'.disk = s.disk) (hnew : s'.new = s.new) (hclean : s.dirty e = false)
    (hfree : (s.entry e).valid = true → (s.entry e).copy = s.dinode e ∧ (s.dinode e).type ≠ 0) : Inv s' := by
  have hunlocked : s'.lock e = none := by rw [hlock, Function.update_self]
  have hdinode : s'.dinode e = s.dinode e := by rw [State.dinode, hentry, hdisk, State.dinode]
  refine h.at (h.ref_pos_of_held hl) hs hb (fun x _ => ha x) hil hdrops (fun x _ => by rw [hentry])
    (fun x hx => by rw [hlock, Function.update_of_ne hx]) (fun x _ => by rw [hdirty]) (by rw [hentry])
    (by rw [hentry]; exact ⟨rfl, rfl⟩) hpool (fun _ _ _ => by rw [hdisk, hnew]; exact ⟨rfl, rfl⟩) ?_
    (h.new_same (.inr (by rw [hnew])) (by rw [hdisk])) ?_
  · rintro ⟨j, hj⟩
    rw [hunlocked, hs] at hj
    by_cases hji : j = i
    · subst hji
      rw [Function.update_self] at hj
      obtain hj | hj | ⟨hj, -⟩ := hj
      · exact absurd hj (hil e)
      · exact absurd (by rw [hj]; rfl) (ha e)
      · cases hj
    · rw [Function.update_of_ne hji] at hj
      obtain hj | hj | ⟨hj, -⟩ := hj
      · exact ⟨j, .inl hj⟩
      · exact ⟨j, .inr (.inl hj)⟩
      · cases hj
  · refine EntryOk.of_free hunlocked (fun j hj => ?_) (by rw [hdirty, hclean]) fun _ hv => ?_
    · rw [hs] at hj
      by_cases hji : j = i
      · rw [hji, Function.update_self] at hj
        exact ha e hj
      · rw [Function.update_of_ne hji] at hj
        exact hji ((h.entries e).about_eq hl hj)
    · rw [hdinode, hentry]
      exact hfree (by rwa [← hentry])

theorem Inv.iunlock (h : Inv s) (hi : s.pc i = .idle) (hl : s.lock e = some i) (hd : s.dirty e = false) :
    Inv (s.setLock e none) := by
  have hna (x : Fin ninode) : (s.pc i).about ≠ some x := by rw [hi]; simp [Pc.about]
  obtain ⟨-, hne, hcopy⟩ := (h.entries e).held (h.ref_pos_of_held hl) i hl (hna e)
  exact h.release hl (Function.update_eq_self i s.pc).symm (fun x _ => hna x) hna (fun x => by rw [hi]; simp) rfl
    rfl rfl rfl rfl rfl rfl hd fun _ => ⟨hcopy hd, hne⟩

/-! ## `iput` frees an inode -/

theorem Inv.beginFree (h : Inv s) (hi : s.pc i = .iput e) (hr : (s.entry e).ref = 1)
    (hv : (s.entry e).valid = true) :
    Inv (((s.setLock e (some i)).setNew (s.entry e).dev (s.entry e).inum none).setPc i (.trunc e)) := by
  have hok := h.entries e
  obtain ⟨-, hl, -⟩ := h.alone hi hr
  obtain ⟨hcopy, ht⟩ := hok.free (by omega) hv hl
  obtain ⟨hclean, hnobody⟩ := hok.unlocked hl
  refine h.at (by omega) rfl (fun x _ => by rw [hi]; simp [Pc.about])
    (fun x hx => by simpa [Pc.about] using Ne.symm hx) (fun x => by simp) (by rw [hi]; rfl) (fun x _ => rfl)
    (fun x hx => Function.update_of_ne hx _ _) (fun x _ => rfl) rfl ⟨rfl, rfl⟩ rfl
    (fun dev inum hk => ⟨rfl, setNew_of_ne _ _ hk⟩) ?_ (h.new_same (.inl (setNew_self _ _ _ _)) rfl) ?_
  · rintro ⟨j, hj⟩
    simp only [State.setPc, State.setNew, State.setLock, Function.update_self] at hj
    by_cases hji : j = i
    · subst hji
      simp [Pc.frees] at hj
    · rw [Function.update_of_ne hji] at hj
      obtain hj | hj | ⟨hj, -⟩ := hj
      · exact ⟨j, .inl hj⟩
      · exact ⟨j, .inr (.inl hj)⟩
      · exact absurd (Option.some.inj hj).symm hji
  · refine EntryOk.of_owner (i := i) (Function.update_self _ _ _) (fun j hj => ?_) ?_ ?_ (fun hd => ?_) ?_ ?_
    · simp only [State.setPc, State.setNew, State.setLock, Function.update_of_ne hj]
      exact hnobody j
    · simp [State.setPc, State.setNew, State.setLock]
    · simp [State.setPc, State.setNew, State.setLock, Pc.about]
    · rw [show s.dirty e = true from hd] at hclean
      cases hclean
    · simp only [State.setPc, Function.update_self]
      exact fun _ => ⟨hv, setNew_self _ _ _ _, ht, hcopy⟩
    · simp [State.setPc, State.setNew, State.setLock, Pc.about]

/-- A step of `iput` with the lock, from the point `pc₀` to `pc`. -/
theorem Inv.freeing {ip : Entry} {pc₀ : Pc ninode} (h : Inv s) (hi : s.pc i = pc₀) (hpc₀ : pc₀.frees = some e)
    (hpc : pc.frees = some e) (hs : s'.pc = Function.update s.pc i pc)
    (hentry : s'.entry = Function.update s.entry e ip) (href : ip.ref = (s.entry e).ref)
    (hkey : ip.dev = (s.entry e).dev ∧ ip.inum = (s.entry e).inum)
    (hlock : s'.lock = s.lock) (hpool : s'.pool = s.pool) (hdirty : s'.dirty = s.dirty)
    (hdisk : SameInodes s s' e) (hnew : NewFresh s' (s.entry e).dev (s.entry e).inum)
    (hinv : pc = .unlock e → ip.valid = false)
    (htrunc : pc.truncates = some e → ip.valid = true ∧ s'.new (s.entry e).dev (s.entry e).inum = none ∧
      (s'.disk (s.entry e).dev (s.entry e).inum).type ≠ 0 ∧
      pc.Copied ip.copy (s'.disk (s.entry e).dev (s.entry e).inum)) : Inv s' := by
  have ha₀ : (s.pc i).about = some e := by rw [hi]; exact frees_about hpc₀
  have ha : pc.about = some e := frees_about hpc
  have hne (x : Fin ninode) (hx : x ≠ e) : some e ≠ some x := by simpa using Ne.symm hx
  refine h.owned ((h.entries e).owner i ha₀) hs (fun x hx => by rw [ha₀]; exact hne x hx)
    (fun x hx => by rw [ha]; exact hne x hx) ⟨?_, ?_, ?_⟩ (by rw [frees_drops hpc, hi, frees_drops hpc₀])
    (fun hf => absurd hpc hf) hentry href hkey hlock hpool (fun x _ => by rw [hdirty]) hdisk hnew hinv
    (fun hf => absurd ha hf) (fun hd => ?_) htrunc fun hf => absurd ha hf
  · rintro rfl
    cases hpc
  · rintro rfl
    cases hpc
  · rintro x rfl
    cases hpc
  · rw [hdirty] at hd
    exact absurd hd ((h.entries e).clean_of_about ha₀)

theorem Inv.freed_facts (h : Inv s) (hi : (s.pc i).truncates = some e) :
    (s.entry e).valid = true ∧ s.new (s.entry e).dev (s.entry e).inum = none ∧ (s.dinode e).type ≠ 0 ∧
      (s.pc i).Copied (s.entry e).copy (s.dinode e) :=
  (h.entries e).truncates (h.ref_pos_of_drops (frees_drops (truncates_frees hi))) i hi

theorem Inv.trunc (h : Inv s) (hi : s.pc i = .trunc e) :
    Inv ((s.setCopy e { (s.entry e).copy with size := 0, addrs := fun _ => 0 }).setPc i (.truncUpdate e)) := by
  obtain ⟨hv, hnew, ht, hc⟩ := h.freed_facts (i := i) (e := e) (by rw [hi]; rfl)
  rw [hi] at hc
  have hc' : (s.entry e).copy = s.dinode e := hc
  refine h.freeing hi rfl rfl rfl rfl rfl ⟨rfl, rfl⟩ rfl rfl rfl (fun _ _ _ => ⟨rfl, rfl⟩)
    (h.new_same (.inr rfl) rfl) (by simp) fun _ => ⟨hv, hnew, ht, ?_⟩
  exact (congrArg Dinode.type hc').symm

theorem Inv.freeingUpdate {pc₀ : Pc ninode} (h : Inv s) (hi : s.pc i = pc₀) (hpc₀ : pc₀.truncates = some e)
    (hpc : pc.frees = some e) (hun : pc ≠ .unlock e)
    (hcopied : pc.truncates = some e → (s.entry e).copy.type ≠ 0 ∧ pc.Copied (s.entry e).copy (s.entry e).copy) :
    Inv ((s.iupdate e).setPc i pc) := by
  obtain ⟨hv, hnew, -, -⟩ := h.freed_facts (i := i) (e := e) (by rw [hi]; exact hpc₀)
  have hdisk : ((s.iupdate e).setPc i pc).disk (s.entry e).dev (s.entry e).inum = (s.entry e).copy :=
    setDisk_self _ _ _ _
  refine h.freeing hi (truncates_frees hpc₀) hpc rfl (Function.update_eq_self e s.entry).symm rfl ⟨rfl, rfl⟩ rfl
    rfl rfl (fun dev inum hk => ⟨setDisk_of_ne _ _ hk, rfl⟩) (fun t ht => ?_) (fun hu => absurd hu hun) fun ht => ?_
  · have ht' : s.new (s.entry e).dev (s.entry e).inum = some t := ht
    rw [hnew] at ht'
    cases ht'
  · rw [hdisk]
    exact ⟨hv, hnew, hcopied ht⟩

theorem Inv.truncUpdate (h : Inv s) (hi : s.pc i = .truncUpdate e) : Inv ((s.iupdate e).setPc i (.freeType e)) := by
  obtain ⟨-, -, ht, hc⟩ := h.freed_facts (i := i) (e := e) (by rw [hi]; rfl)
  rw [hi] at hc
  have hc' : (s.dinode e).type = (s.entry e).copy.type := hc
  exact h.freeingUpdate hi rfl rfl (by simp) fun _ => ⟨by rwa [← hc'], rfl⟩

/-- `ip->type = 0` -/
theorem Inv.freeType (h : Inv s) (hi : s.pc i = .freeType e) :
    Inv ((s.setCopy e { (s.entry e).copy with type := 0 }).setPc i (.freeUpdate e)) := by
  obtain ⟨hv, hnew, ht, -⟩ := h.freed_facts (i := i) (e := e) (by rw [hi]; rfl)
  exact h.freeing hi rfl rfl rfl rfl rfl ⟨rfl, rfl⟩ rfl rfl rfl (fun _ _ _ => ⟨rfl, rfl⟩)
    (h.new_same (.inr rfl) rfl) (by simp) fun _ => ⟨hv, hnew, ht, trivial⟩

theorem Inv.freeUpdate (h : Inv s) (hi : s.pc i = .freeUpdate e) :
    Inv ((s.iupdate e).setPc i (.invalidate e)) :=
  h.freeingUpdate hi rfl rfl (by simp) fun ht => by cases ht

/-- `ip->valid = 0`; from the last `iupdate` on, `ialloc` may have handed out the inode again. -/
theorem Inv.invalidate (h : Inv s) (hi : s.pc i = .invalidate e) :
    Inv ((s.setEntry e { s.entry e with valid := false }).setPc i (.unlock e)) :=
  h.freeing hi rfl rfl rfl rfl rfl ⟨rfl, rfl⟩ rfl rfl rfl (fun _ _ _ => ⟨rfl, rfl⟩)
    (h.new_same (.inr rfl) rfl) (fun _ => rfl) fun ht => by cases ht

theorem Inv.unlock (h : Inv s) (hi : s.pc i = .unlock e) : Inv ((s.setLock e none).setPc i (.drop e)) := by
  have ha : (s.pc i).about = some e := by rw [hi]; rfl
  have hok := h.entries e
  refine h.release (hok.owner i ha) rfl (fun x hx => by rw [ha]; simpa using Ne.symm hx)
    (fun x => by simp [Pc.about]) (fun x => by simp) (by rw [hi]; rfl) rfl rfl rfl rfl rfl rfl
    (by simpa using hok.clean_of_about ha) fun hv => ?_
  rw [hok.invalid i (.inr hi)] at hv
  cases hv

end Xv6.Itable
