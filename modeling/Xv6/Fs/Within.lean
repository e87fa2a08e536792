import Xv6.Fs.Tree

/-!
# The inode table in a system call

`Within sb c T H L B s` is what is known about the state `s` in a system call that was in state `c` when its
transaction began: the disk stands for the tree `T`, the references to the inode table are those in `H`,
all processes together, the inodes in `L` are locked, and only blocks in `B` have been added to the log.

For each function there is one rule that says how `T`, `H`, `L` and `B` change.  The rules hold for any set
`E` of panics that contains those that the function may end in.

`iput` frees an inode without links when its last reference goes away.  An inode that is `Anchored` by the
references that remain is not freed, so that the references which a system call takes for itself can be given
back without such an effect.
-/

namespace Xv6.Fs

open Kernel Memory

variable {U : Type} {sb : Superblock} {c s t : State U} {T T' : Tree} {H H' P : Multiset (Fin NINODE)}
  {L L' : Finset (Fin NINODE)} {B B' X : Set ℕ} {m m' : Mem} {d : Dinode} {l : Log} {e f : Fin NINODE} {i : ℕ}
  {x : Inode} {n : Node} {E : Panic → Prop}

/-- An entry of the inode table that is referred to: if it is valid it is a copy of an inode on the disk. -/
def Entry (sb : Superblock) (m : Mem) (x : Inode) : Prop :=
  x.valid = true → x.copy = dinode sb m x.inum ∧ Live sb (dinode sb m) x.inum

theorem Entry.of_sameBut (h : Entry sb m x) (hsame : SameBut sb i m m') (hne : x.inum ≠ i) : Entry sb m' x := by
  intro hv
  obtain ⟨hcopy, hlive⟩ := h hv
  rw [hsame.inodes _ hlive.1 hne, hsame.live_iff hne]
  exact ⟨hcopy, hlive⟩

structure Within (sb : Superblock) (c : State U) (T : Tree) (H : Multiset (Fin NINODE)) (L : Finset (Fin NINODE))
    (B : Set ℕ) (s : State U) : Prop where
  sound : Sound sb s.disk
  tree_eq : tree sb s.disk = T
  ref : ∀ e, (s.inode e).ref = H.count e
  unique : ∀ e ∈ H, ∀ f ∈ H, (s.inode e).inum = (s.inode f).inum → e = f
  entry : ∀ e ∈ H, Entry sb s.disk (s.inode e)
  locked : ∀ e, (s.inode e).locked = true ↔ e ∈ L
  valid : ∀ e ∈ L, e ∈ H ∧ (s.inode e).valid = true
  log : Logs sb B c.log s.log
  outstanding : s.outstanding = c.outstanding
  committed : s.committed = c.committed
  user : s.user = c.user

/-- The references in `P` still refer to the same inodes. -/
def Kept (P : Multiset (Fin NINODE)) (s t : State U) : Prop :=
  ∀ e ∈ P, (t.inode e).inum = (s.inode e).inum ∧ ((s.inode e).valid = true → (t.inode e).valid = true)

theorem kept_refl (P : Multiset (Fin NINODE)) (s : State U) : Kept P s s := fun _ _ => ⟨rfl, id⟩

theorem Kept.trans {u : State U} (h : Kept P s t) (h' : Kept P t u) : Kept P s u :=
  fun e he => ⟨(h' e he).1.trans (h e he).1, fun hv => (h' e he).2 ((h e he).2 hv)⟩

theorem Kept.mono (h : Kept H s t) (hle : P ≤ H) : Kept P s t := fun e he => h e (Multiset.mem_of_le hle he)

/-- If inode `i` has no links there is a reference to it in `P`. -/
def Anchored (P : Multiset (Fin NINODE)) (T : Tree) (s : State U) (i : ℕ) : Prop :=
  ∀ n, T i = some n → n.nlink = 0 → ∃ e ∈ P, (s.inode e).inum = i ∧ (s.inode e).valid = true

theorem Anchored.of_kept (h : Anchored P T s i) (hk : Kept P s t) : Anchored P T t i := by
  intro n hi hn
  obtain ⟨e, he, hinum, hv⟩ := h n hi hn
  exact ⟨e, he, (hk e he).1.trans hinum, (hk e he).2 hv⟩

/-! ## What is known about an inode -/

theorem Within.mem_iff (h : Within sb c T H L B s) : e ∈ H ↔ 0 < (s.inode e).ref := by
  rw [h.ref, Multiset.count_pos]

theorem Within.mem_of_locked (h : Within sb c T H L B s) (he : e ∈ L) : e ∈ H := (h.valid e he).1

theorem Within.tree_of_valid (h : Within sb c T H L B s) (he : e ∈ H) (hv : (s.inode e).valid = true) :
    T (s.inode e).inum = some (node s.disk (s.inode e).copy) := by
  rw [← h.tree_eq, tree_of_live (h.entry e he hv).2, (h.entry e he hv).1]

theorem Within.node_eq (h : Within sb c T H L B s) (he : e ∈ L) :
    T (s.inode e).inum = some (node s.disk (s.inode e).copy) :=
  h.tree_of_valid (h.valid e he).1 (h.valid e he).2

theorem Within.live (h : Within sb c T H L B s) (he : e ∈ L) : Live sb (dinode sb s.disk) (s.inode e).inum :=
  (h.entry e (h.valid e he).1 (h.valid e he).2).2

theorem Within.copy_eq (h : Within sb c T H L B s) (he : e ∈ L) :
    (s.inode e).copy = dinode sb s.disk (s.inode e).inum :=
  (h.entry e (h.valid e he).1 (h.valid e he).2).1

theorem Within.update_copy (h : Within sb c T H L B s) (he : e ∈ L) :
    Function.update (dinode sb s.disk) (s.inode e).inum (s.inode e).copy = dinode sb s.disk := by
  rw [h.copy_eq he, Function.update_eq_self]

theorem Within.mapping (h : Within sb c T H L B s) (he : e ∈ L) : Mapping sb (dinode sb s.disk) e s := by
  refine ⟨(h.live he).1, ?_, ?_⟩
  · rw [h.copy_eq he]
    exact (h.live he).2
  · rw [h.update_copy he]
    exact h.sound.consistent

theorem Within.full (h : Within sb c T H L B s) (he : e ∈ L) : Full s.disk (s.inode e).copy := by
  rw [h.copy_eq he]
  exact h.sound.full _ (h.live he)

theorem Within.inum_ne (h : Within sb c T H L B s) (he : e ∈ H) (hf : f ∈ H) (hne : f ≠ e) :
    (s.inode f).inum ≠ (s.inode e).inum := fun heq => hne (h.unique f hf e he heq)

theorem Within.mono (h : Within sb c T H L B s) (hB : B ⊆ B') : Within sb c T H L B' s :=
  { h with log := h.log.mono hB }

/-! ## Changes of one entry -/

theorem State.setInode_self (s : State U) (e : Fin NINODE) (x : Inode) : (s.setInode e x).inode e = x :=
  Function.update_self _ _ _

theorem Within.change (h : Within sb c T H L B s) (hinode : t.inode = Function.update s.inode e x)
    (hs : Sound sb t.disk) (htree : tree sb t.disk = T') (hothers : ∀ f ∈ H, f ≠ e → Entry sb t.disk (s.inode f))
    (hcount : ∀ f ≠ e, H'.count f = H.count f) (hlocks : ∀ f ≠ e, f ∈ L' ↔ f ∈ L)
    (href : x.ref = H'.count e) (hlocked : x.locked = true ↔ e ∈ L')
    (hentry : e ∈ H' → Entry sb t.disk x ∧ ∀ f ∈ H, f ≠ e → (s.inode f).inum ≠ x.inum)
    (hvalid : e ∈ L' → e ∈ H' ∧ x.valid = true) (hlog : Logs sb B' c.log t.log)
    (houtstanding : t.outstanding = s.outstanding) (hcommitted : t.committed = s.committed) (huser : t.user = s.user) :
    Within sb c T' H' L' B' t := by
  have hself : t.inode e = x := by rw [hinode, Function.update_self]
  have hne {f : Fin NINODE} (hf : f ≠ e) : t.inode f = s.inode f := by rw [hinode, Function.update_of_ne hf]
  have hmem {f : Fin NINODE} (hf : f ≠ e) : f ∈ H' ↔ f ∈ H := by
    rw [← Multiset.count_pos, ← Multiset.count_pos, hcount f hf]
  refine ⟨hs, htree, fun f => ?_, fun f hf g hg heq => ?_, fun f hf => ?_, fun f => ?_, fun f hf => ?_, hlog,
    houtstanding.trans h.outstanding, hcommitted.trans h.committed, huser.trans h.user⟩
  · by_cases hfe : f = e
    · rw [hfe, hself, href]
    · rw [hne hfe, hcount f hfe, h.ref]
  · by_cases hfe : f = e <;> by_cases hge : g = e
    · rw [hfe, hge]
    · subst hfe
      rw [hself, hne hge] at heq
      exact absurd heq.symm ((hentry hf).2 g ((hmem hge).1 hg) hge)
    · subst hge
      rw [hself, hne hfe] at heq
      exact absurd heq ((hentry hg).2 f ((hmem hfe).1 hf) hfe)
    · rw [hne hfe, hne hge] at heq
      exact h.unique f ((hmem hfe).1 hf) g ((hmem hge).1 hg) heq
  · by_cases hfe : f = e
    · subst hfe
      rw [hself]
      exact (hentry hf).1
    · rw [hne hfe]
      exact hothers f ((hmem hfe).1 hf) hfe
  · by_cases hfe : f = e
    · rw [hfe, hself]
      exact hlocked
    · rw [hne hfe, hlocks f hfe]
      exact h.locked f
  · by_cases hfe : f = e
    · subst hfe
      rw [hself]
      exact hvalid hf
    · rw [hne hfe, hmem hfe]
      exact h.valid f ((hlocks f hfe).1 hf)

theorem Within.setInode (h : Within sb c T H L B s)
    (hcount : ∀ f ≠ e, H'.count f = H.count f) (hlocks : ∀ f ≠ e, f ∈ L' ↔ f ∈ L)
    (href : x.ref = H'.count e) (hlocked : x.locked = true ↔ e ∈ L')
    (hentry : e ∈ H' → Entry sb s.disk x ∧ ∀ f ∈ H, f ≠ e → (s.inode f).inum ≠ x.inum)
    (hvalid : e ∈ L' → e ∈ H' ∧ x.valid = true) : Within sb c T H' L' B (s.setInode e x) :=
  h.change (e := e) (x := x) rfl h.sound h.tree_eq (fun f hf _ => h.entry f hf) hcount hlocks href hlocked hentry hvalid
    h.log rfl rfl rfl

theorem kept_update (hinode : t.inode = Function.update s.inode e x)
    (hx : e ∈ P → x.inum = (s.inode e).inum ∧ ((s.inode e).valid = true → x.valid = true)) : Kept P s t := by
  intro f hf
  by_cases hfe : f = e
  · subst hfe
    rw [hinode, Function.update_self]
    exact hx hf
  · rw [hinode, Function.update_of_ne hfe]
    exact ⟨rfl, id⟩

/-- A change of a locked inode, with its copy, that keeps it allocated. -/
theorem Within.put (h : Within sb c T H L B s) (he : e ∈ L) (hsame : SameBut sb (s.inode e).inum s.disk m)
    (hs : Sound sb m) (hd : dinode sb m (s.inode e).inum = d) (ht : d.type ≠ 0) (hl : Logs sb X s.log l) :
    Within sb c (Function.update T (s.inode e).inum (some (node m d))) H L (B ∪ X) (s.put e m d l) ∧
      Kept H s (s.put e m d l) := by
  have heH := h.mem_of_locked he
  have hlive : Live sb (dinode sb m) (s.inode e).inum := ⟨(h.live he).1, by rwa [hd]⟩
  refine ⟨h.change (e := e) (x := { s.inode e with copy := d }) rfl hs ?_ (fun f hf hne => ?_) (fun _ _ => rfl)
    (fun _ _ => Iff.rfl) (h.ref e) (h.locked e) (fun _ => ⟨fun _ => ⟨hd.symm, hlive⟩, fun f hf hne => ?_⟩)
    (fun _ => h.valid e he) ((h.log.mono Set.subset_union_left).trans (hl.mono Set.subset_union_right)) rfl rfl rfl,
    kept_update (x := { s.inode e with copy := d }) rfl fun _ => ⟨rfl, id⟩⟩
  · rw [State.put_disk, hsame.tree_eq h.sound, h.tree_eq, tree_of_live hlive, hd]
  · exact Entry.of_sameBut (h.entry f hf) hsame (h.inum_ne heH hf hne)
  · exact h.inum_ne heH hf hne

/-! ## References -/

theorem iget_within (h : Within sb c T H L B s) (i : ℕ) (hE : (∀ e, e ∈ H) → E .igetNoInodes) :
    Ensures (iget i) s (fun e t => Within sb c T (e ::ₘ H) L B t ∧ (t.inode e).inum = i ∧ Kept H s t ∧ t.disk = s.disk ∧
      (e ∈ H ∨ (t.inode e).valid = false)) E := by
  apply ensures_get_bind
  split
  · rename_i e hfind
    have hfound : 0 < (s.inode e).ref ∧ (s.inode e).inum = i := by simpa using List.find?_some hfind
    have he : e ∈ H := h.mem_iff.2 hfound.1
    apply ensures_set_bind
    refine ensures_pure ⟨h.setInode (fun f hf => Multiset.count_cons_of_ne hf H) (fun _ _ => Iff.rfl) ?_ (h.locked e)
      (fun _ => ⟨h.entry e he, fun f hf hne => h.inum_ne he hf hne⟩) ?_, ?_, ?_, rfl,
      .inl he⟩
    · rw [Multiset.count_cons_self, ← h.ref]
    · exact fun hL => ⟨Multiset.mem_cons_self e H, (h.valid e hL).2⟩
    · rw [State.setInode_self]
      exact hfound.2
    · exact kept_update rfl fun _ => ⟨rfl, id⟩
  · rename_i hnone
    split
    · rename_i hfull
      refine ensures_throw (hE fun e => ?_)
      have := List.find?_eq_none.1 hfull e (List.mem_finRange e)
      rw [h.mem_iff]
      simp only [decide_eq_true_eq] at this
      omega
    · rename_i e hfind
      have href : (s.inode e).ref = 0 := by simpa using List.find?_some hfind
      have he : e ∉ H := by
        rw [h.mem_iff]
        omega
      apply ensures_set_bind
      refine ensures_pure ⟨h.setInode (fun f hf => Multiset.count_cons_of_ne hf H) (fun _ _ => Iff.rfl) ?_ (h.locked e)
        (fun _ => ⟨(fun hv => by cases hv), fun f hf hne heq => ?_⟩) (fun hL => absurd (h.valid e hL).1 he), ?_, ?_, rfl,
        .inr ?_⟩
      · rw [Multiset.count_cons_self, Multiset.count_eq_zero_of_notMem he]
      · have := List.find?_eq_none.1 hnone f (List.mem_finRange f)
        exact this (decide_eq_true ⟨h.mem_iff.1 hf, heq⟩)
      · rw [State.setInode_self]
      · exact kept_update rfl fun heH => absurd heH he
      · rw [State.setInode_self]

theorem idup_within (h : Within sb c T H L B s) (he : e ∈ H) :
    Ensures (idup e) s (fun r t => r = e ∧ Within sb c T (e ::ₘ H) L B t ∧ Kept (e ::ₘ H) s t ∧ t.disk = s.disk) E := by
  apply ensures_get_bind
  apply ensures_set_bind
  refine ensures_pure ⟨rfl, h.setInode (fun f hf => Multiset.count_cons_of_ne hf H) (fun _ _ => Iff.rfl) ?_ (h.locked e)
    (fun _ => ⟨h.entry e he, fun f hf hne => h.inum_ne he hf hne⟩) ?_, ?_, rfl⟩
  · rw [Multiset.count_cons_self, ← h.ref]
  · exact fun hL => ⟨Multiset.mem_cons_self e H, (h.valid e hL).2⟩
  · exact kept_update rfl fun _ => ⟨rfl, id⟩

/-! ## Locks -/

theorem ilock_within (h : Within sb c T H L B s) (he : e ∈ H) (hlt : (s.inode e).inum < sb.ninodes) (hdead : e ∈ L → E .deadlock)
    (hno : T (s.inode e).inum = none → E .ilockNoType) :
    Ensures (ilock sb e) s (fun _ t => Within sb c T H (insert e L) B t ∧ e ∉ L ∧ Kept H s t ∧ t.disk = s.disk) E := by
  have hpos := h.mem_iff.1 he
  have hentry := h.entry e he
  apply ensures_get_bind
  rw [if_neg (by omega)]
  unfold acquiresleep
  simp only [bind_assoc]
  apply ensures_get_bind
  by_cases hlocked : (s.inode e).locked = true
  · rw [if_pos hlocked]
    exact ensures_throw (hdead ((h.locked e).1 hlocked))
  · rw [if_neg hlocked]
    have hnot : e ∉ L := mt (h.locked e).2 hlocked
    have hlocks (f : Fin NINODE) (hf : f ≠ e) : f ∈ insert e L ↔ f ∈ L := by
      rw [Finset.mem_insert, or_iff_right hf]
    have hself : e ∈ insert e L := Finset.mem_insert_self e L
    apply ensures_set_bind
    apply ensures_get_bind
    rw [State.setInode_self]
    dsimp only
    split_ifs with hv hzero
    · exact ensures_pure ⟨h.setInode (fun _ _ => rfl) hlocks (h.ref e) (iff_of_true rfl hself)
        (fun _ => ⟨hentry, fun f hf hne => h.inum_ne he hf hne⟩) (fun _ => ⟨he, hv⟩), hnot,
        kept_update rfl fun _ => ⟨rfl, id⟩, rfl⟩
    · -- The inode on the disk is free.
      apply ensures_set_bind
      refine ensures_throw (hno ?_)
      rw [← h.tree_eq, tree_eq_none_iff]
      exact fun hl => hl.2 hzero
    · apply ensures_set_bind
      have hput : (s.setInode e { s.inode e with locked := true }).setInode e
          { s.inode e with locked := true, valid := true, copy := dinode sb s.disk (s.inode e).inum } =
          s.setInode e { s.inode e with locked := true, valid := true, copy := dinode sb s.disk (s.inode e).inum } := by
        unfold State.setInode
        rw [Function.update_idem]
      refine ensures_pure ?_
      change Within sb c T H (insert e L) B ((s.setInode e { s.inode e with locked := true }).setInode e
          { s.inode e with locked := true, valid := true, copy := dinode sb s.disk (s.inode e).inum }) ∧ _ ∧
        Kept H s ((s.setInode e { s.inode e with locked := true }).setInode e
          { s.inode e with locked := true, valid := true, copy := dinode sb s.disk (s.inode e).inum }) ∧ _
      rw [hput]
      exact ⟨h.setInode (fun _ _ => rfl) hlocks (h.ref e) (iff_of_true rfl hself)
        (fun _ => ⟨fun _ => ⟨rfl, hlt, hzero⟩, fun f hf hne => h.inum_ne he hf hne⟩) (fun _ => ⟨he, rfl⟩), hnot,
        kept_update rfl fun _ => ⟨rfl, fun _ => rfl⟩, rfl⟩

theorem iunlock_within (h : Within sb c T H L B s) (he : e ∈ L) :
    Ensures (iunlock e) s (fun _ t => Within sb c T H (L.erase e) B t ∧ Kept H s t ∧ t.disk = s.disk) E := by
  have heH := h.mem_of_locked he
  have hentry := h.entry e heH
  apply ensures_get_bind
  rw [if_pos ⟨(h.locked e).2 he, h.mem_iff.1 heH⟩]
  refine ensures_set ⟨h.setInode (fun _ _ => rfl) (fun f hf => ?_) (h.ref e) ?_
    (fun _ => ⟨hentry, fun f hf hne => h.inum_ne heH hf hne⟩) ?_,
    kept_update rfl fun _ => ⟨rfl, id⟩, rfl⟩
  · rw [Finset.mem_erase, and_iff_right hf]
  · exact iff_of_false (by simp) (Finset.notMem_erase e L)
  · exact fun hL => absurd hL (Finset.notMem_erase e L)

/-! ## `iput` -/

/-- `iput` will free the inode. -/
def Frees (s : State U) (e : Fin NINODE) : Prop :=
  (s.inode e).ref = 1 ∧ (s.inode e).valid = true ∧ (s.inode e).copy.nlink = 0

/-- A reference among others, or to an inode that has links. -/
theorem iput_keeps (h : Within sb c T H L B s) (he : e ∈ H) (hL : e ∈ L → e ∈ H.erase e) (hn : ¬ Frees s e) :
    Ensures (iput sb e) s (fun _ t => Within sb c T (H.erase e) L B t ∧ Kept (H.erase e) s t ∧ t.disk = s.disk) E := by
  have hentry := h.entry e he
  unfold Frees at hn
  apply ensures_get_bind
  rw [if_neg hn]
  apply ensures_modify
  refine ⟨h.setInode (fun f hf => Multiset.count_erase_of_ne hf H) (fun _ _ => Iff.rfl) ?_ (h.locked e)
    (fun _ => ⟨hentry, fun f hf hne => h.inum_ne he hf hne⟩) (fun heL => ⟨hL heL, (h.valid e heL).2⟩),
    kept_update rfl fun _ => ⟨rfl, id⟩, rfl⟩
  rw [Multiset.count_erase_self, ← h.ref]

/-- An inode that is referred to otherwise if it has no links is not freed. -/
theorem Within.not_frees (h : Within sb c T (e ::ₘ P) L B s) (hA : Anchored P T s (s.inode e).inum) : ¬ Frees s e := by
  rintro ⟨href, hv, hnlink⟩
  have he : e ∈ e ::ₘ P := Multiset.mem_cons_self e P
  obtain ⟨f, hf, hinum, -⟩ := hA _ (h.tree_of_valid he hv) hnlink
  have hfe : f = e := h.unique f (Multiset.mem_cons_of_mem hf) e he hinum
  rw [h.ref, Multiset.count_cons_self] at href
  have := Multiset.count_pos.2 (hfe ▸ hf)
  omega

/-- Neither is one that has just been looked up. -/
theorem Within.not_frees_of_new (h : Within sb c T (e ::ₘ P) L B s) (hnew : e ∈ P ∨ (s.inode e).valid = false) :
    ¬ Frees s e := by
  rintro ⟨href, hv, -⟩
  obtain he | he := hnew
  · rw [h.ref, Multiset.count_cons_self] at href
    have := Multiset.count_pos.2 he
    omega
  · rw [he] at hv
    cases hv

theorem iput_anchored (h : Within sb c T (e ::ₘ P) L B s) (hA : Anchored P T s (s.inode e).inum) (hL : e ∈ L → e ∈ P) :
    Ensures (iput sb e) s (fun _ t => Within sb c T P L B t ∧ Kept P s t ∧ t.disk = s.disk) E := by
  have hP : (e ::ₘ P).erase e = P := Multiset.erase_cons_head e P
  have := iput_keeps (E := E) h (Multiset.mem_cons_self e P) (by rwa [hP]) (h.not_frees hA)
  rwa [hP] at this

theorem iunlockput_anchored (h : Within sb c T (e ::ₘ P) L B s) (hA : Anchored P T s (s.inode e).inum) (he : e ∈ L) :
    Ensures (iunlockput sb e) s (fun _ t => Within sb c T P (L.erase e) B t ∧ Kept P s t ∧ t.disk = s.disk) E := by
  apply (iunlock_within h he).bind (fun _ => id)
  rintro _ u ⟨hu, hk, hdisk⟩
  have hkP : Kept P s u := hk.mono (Multiset.le_cons_self P e)
  have hA' : Anchored P T u (u.inode e).inum := by
    rw [(hk e (Multiset.mem_cons_self e P)).1]
    exact hA.of_kept hkP
  apply (iput_anchored hu hA' fun hL => absurd hL (Finset.notMem_erase e L)).mono _ (fun _ => id)
  rintro _ t ⟨ht, hk', hdisk'⟩
  exact ⟨ht, hkP.trans hk', hdisk'.trans hdisk⟩

/-! ## Changes of the disk -/

variable [UserMemory U]

theorem WriteDone.within {src : Source} {off k : ℕ} {r : ℤ} (h : Within sb c T H L B s) (he : e ∈ L)
    (hr : ¬ Refused (s.inode e).copy off k) (hdone : WriteDone sb (dinode sb s.disk) e src off k s r t) :
    Within sb c (Function.update T (s.inode e).inum
      (some { node s.disk (s.inode e).copy with data := content t.disk (t.inode e).copy })) H L
      (B ∪ insert (sb.iblock (s.inode e).inum)
        (Touched sb s.disk (s.inode e).copy t.disk (t.inode e).copy (rangeSlots off k))) t ∧ Kept H s t := by
  have hfull := (hdone.size (h.full he) hr).2.2.2
  obtain ⟨m, d, l, n, P, rfl, rfl, -, hw, hd, hself, hothers, hl, -, -⟩ := hdone
  rw [s.put_inode] at hfull ⊢
  dsimp only [State.put_disk] at hfull ⊢
  have hsame := hw.sameBut hothers
  have htype : d.type = (s.inode e).copy.type := by rw [hd]
  have hsound : Sound sb m := by
    refine hsame.sound h.sound (hw.consistent.congr fun j hj => hsame.update_eq hself hj) fun _ => ?_
    rw [hself]
    exact hfull
  have hnode : node m d = { node s.disk (s.inode e).copy with data := content m d } := by
    rw [hd]
    rfl
  rw [← hnode]
  exact h.put he hsame hsound hself (htype ▸ (h.mapping he).live) hl

theorem writei_within {src : Source} {off k : ℕ} (h : Within sb c T H L B s) (he : e ∈ L) (ho : 0 < c.outstanding)
    (hsrc : src.Has k) (hoff : off < 2 ^ 32) (hk : k < 2 ^ 32) :
    Ensures (writei sb e src off k) s (fun r t => Refused (s.inode e).copy off k ∧ r = -1 ∧ t = s ∨
      ¬ Refused (s.inode e).copy off k ∧ WriteDone sb (dinode sb s.disk) e src off k s r t ∧
      Within sb c (Function.update T (s.inode e).inum
        (some { node s.disk (s.inode e).copy with data := content t.disk (t.inode e).copy })) H L
        (B ∪ insert (sb.iblock (s.inode e).inum)
          (Touched sb s.disk (s.inode e).copy t.disk (t.inode e).copy (rangeSlots off k))) t ∧ Kept H s t) E := by
  apply (writei_spec (h.mapping he) (by rw [h.outstanding]; exact ho) hsrc hoff hk).mono _ (fun _ => False.elim)
  rintro r t (hr | ⟨hr, hdone⟩)
  · exact .inl hr
  · exact .inr ⟨hr, hdone, hdone.within h he hr⟩

/-! ## The small file system -/

/-- A transaction in which there is a reference to the root directory.  The entries of the inode table other than
the first are those of `others`, with different inode numbers. -/
def smallRoot (locked : Bool) (others : Inode) : State UserSpace :=
  { smallState with inode := fun e =>
      if e = 0 then ⟨ROOTINO, 1, locked, true, dinode smallSb smallDisk ROOTINO⟩
      else { others with inum := others.inum + e } }

theorem smallRoot_live : Live smallSb (dinode smallSb smallDisk) ROOTINO := smallDisk_live.2 (.inl rfl)

/-- The other entries are all free, or all in use for inodes that do not exist. -/
theorem smallRoot_within (locked : Bool) {others : Inode} (hH : ∀ e, H.count e = if e = 0 then 1 else others.ref)
    (hunlocked : others.locked = false) (hinvalid : others.valid = false) (hinum : 16 ≤ others.inum) :
    Within smallSb (smallRoot locked others) (tree smallSb smallDisk) H (if locked then {0} else ∅) ∅
      (smallRoot locked others) := by
  have hother {e : Fin NINODE} (he : e ≠ 0) :
      (smallRoot locked others).inode e = { others with inum := others.inum + e } := if_neg he
  have hmem : 0 ∈ H := by
    rw [← Multiset.count_pos, hH, if_pos rfl]
    exact Nat.one_pos
  refine ⟨⟨smallDisk_consistent, smallDisk_full⟩, rfl, fun e => ?_, fun e he f hf heq => ?_, fun e he hv => ?_, fun e => ?_,
    fun e he => ?_, logs_refl _ _, rfl, rfl, rfl⟩
  · rw [hH]
    by_cases h : e = 0
    · rw [h]
      rfl
    · rw [hother h, if_neg h]
  · by_cases h₁ : e = 0 <;> by_cases h₂ : f = 0
    · rw [h₁, h₂]
    · rw [h₁, hother h₂] at heq
      change 1 = others.inum + f at heq
      omega
    · rw [h₂, hother h₁] at heq
      change others.inum + e = 1 at heq
      omega
    · rw [hother h₁, hother h₂] at heq
      change others.inum + e = others.inum + f at heq
      exact Fin.ext (by omega)
  · by_cases h : e = 0
    · rw [h]
      exact ⟨rfl, smallRoot_live⟩
    · rw [hother h] at hv
      exact absurd hv (by rw [hinvalid]; decide)
  · by_cases h : e = 0
    · rw [h]
      cases locked
      · exact iff_of_false Bool.false_ne_true (Finset.notMem_empty 0)
      · exact iff_of_true rfl (Finset.mem_singleton_self 0)
    · rw [hother h]
      refine iff_of_false (by rw [hunlocked]; decide) fun he => ?_
      cases locked
      · exact Finset.notMem_empty e he
      · exact h (Finset.mem_singleton.1 he)
  · cases locked
    · exact absurd he (Finset.notMem_empty e)
    · obtain rfl := Finset.mem_singleton.1 he
      exact ⟨hmem, rfl⟩

end Xv6.Fs
