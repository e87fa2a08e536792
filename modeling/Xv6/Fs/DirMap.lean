import Xv6.Fs.Directory

/-!
# A directory is a finite map

For a directory with distinct names, `dirlookup` finds the binding of a name, `dirlink` adds one, clearing
an entry as `sys_unlink` does removes one, and `isdirempty` tells whether there is a binding outside the first
two entries.  `iget` panics when all entries of the inode table are in use, so that there has to be a free one.
-/

namespace Xv6.Fs

open Kernel

def Node.bindings (n : Node) : List (BitVec 8) → Option ℕ := Slots.get (slots n.data)

variable {U : Type} {sb : Superblock} {c s t : State U} {T : Tree} {H : Multiset (Fin NINODE)}
  {L : Finset (Fin NINODE)} {B : Set ℕ} {dp : Fin NINODE} {n : Node} {name : List (BitVec 8)} {k i inum : ℕ}

/-- The directory `dp` is locked and has the content `n`, in which no name occurs twice. -/
structure Opened (sb : Superblock) (c : State U) (H : Multiset (Fin NINODE)) (L : Finset (Fin NINODE)) (dp : Fin NINODE)
    (n : Node) (s : State U) : Prop where
  within : ∃ T B, Within sb c T H L B s ∧ T (s.inode dp).inum = some n
  locked : dp ∈ L
  dir : IsDir n
  distinct : Slots.Distinct (slots n.data)

theorem opened_of_kept (hw : Within sb c T H L B t) (hk : Kept H s t) (hn : T (s.inode dp).inum = some n) (hdp : dp ∈ L)
    (hdir : IsDir n) (hd : Slots.Distinct (slots n.data)) : Opened sb c H L dp n t := by
  refine ⟨⟨T, B, hw, ?_⟩, hdp, hdir, hd⟩
  rwa [(hk dp (hw.mem_of_locked hdp)).1]

/-- The binding that `dirlink` adds, as a number of 16 bits. -/
theorem Opened.distinct_link (h : Opened sb c H L dp n s) (hfind : Slots.find (key name) (slots n.data) = none) (inum : ℕ) :
    Slots.Distinct (slots (n.link name inum).data) := by
  have hle := Slots.free_le (slots n.data)
  rw [slots_link h.dir]
  split_ifs
  · exact h.distinct.unbind hle
  · apply h.distinct.bind _ hle
    rw [Slots.get, hfind]
    rfl

theorem Opened.distinct_clear (h : Opened sb c H L dp n s) (hk : k < (slots n.data).length) :
    Slots.Distinct (slots (n.clear k).data) := by
  rw [slots_clear h.dir hk]
  exact h.distinct.unbind hk.le

/-- `isdirempty` finds a binding that is not in the first two slots. -/
theorem Opened.empty_iff (h : Opened sb c H L dp n s) : ((slots n.data).drop 2).all Option.isNone = true ↔
    ∀ name i, n.bindings name = some i → ∃ k < 2, (slots n.data)[k]? = some (some (name, i)) := by
  rw [List.all_eq_true]
  constructor
  · intro hall name i hbind
    rw [Node.bindings, h.distinct.get_eq_some_iff, List.mem_iff_getElem?] at hbind
    obtain ⟨k, hk⟩ := hbind
    refine ⟨k, ?_, hk⟩
    by_contra hlt
    have hmem : some (name, i) ∈ (slots n.data).drop 2 := by
      rw [List.mem_iff_getElem?]
      refine ⟨k - 2, ?_⟩
      rwa [List.getElem?_drop, Nat.add_sub_cancel' (by omega)]
    exact absurd (hall _ hmem) (by simp)
  · intro hall x hx
    rw [List.mem_iff_getElem?] at hx
    obtain ⟨k, hk⟩ := hx
    rw [List.getElem?_drop] at hk
    cases x with
    | none => rfl
    | some p =>
      have hbind : n.bindings p.1 = some p.2 := by
        rw [Node.bindings, h.distinct.get_eq_some_iff]
        exact List.mem_of_getElem? hk
      obtain ⟨k', hlt, hk'⟩ := hall p.1 p.2 hbind
      have := h.distinct _ _ _ _ _ hk hk'
      omega

variable [UserMemory U]

section Operations

variable (h : Opened sb c H L dp n s) (hroom : ∃ e, e ∉ H)

include h hroom

theorem dirlookup_opened (name : List (BitVec 8)) :
    Ensures (dirlookup sb dp name) s (fun r t => match Slots.find (key name) (slots n.data) with
      | none => r = none ∧ t = s
      | some (k, i) => ∃ ip, r = some (ip, k * 16) ∧ (t.inode ip).inum = i ∧ Opened sb c (ip ::ₘ H) L dp n t ∧
          Ensures (iput sb ip) t (fun _ u => Opened sb c H L dp n u) NoPanic) NoPanic := by
  obtain ⟨T, B, hw, hn⟩ := h.within
  obtain ⟨e, he⟩ := hroom
  apply (dirlookup_within hw h.locked hn h.dir fun hall => absurd (hall e) he).mono _ (fun _ => id)
  intro r t hr
  cases hfind : Slots.find (key name) (slots n.data) with
  | none => rwa [hfind] at hr
  | some x =>
    rw [hfind] at hr
    obtain ⟨ip, rfl, ht, hinum, hk, -, hnew⟩ := hr
    have hdp := hw.mem_of_locked h.locked
    have hsame : (t.inode dp).inum = (s.inode dp).inum := (hk dp hdp).1
    refine ⟨ip, rfl, hinum, ⟨⟨T, B, ht, by rwa [hsame]⟩, h.locked, h.dir, h.distinct⟩, ?_⟩
    have hput := iput_keeps (E := NoPanic) ht (Multiset.mem_cons_self ip H)
      (fun hip => by rw [Multiset.erase_cons_head]; exact hw.mem_of_locked hip) (ht.not_frees_of_new hnew)
    rw [Multiset.erase_cons_head] at hput
    apply hput.mono _ (fun _ => id)
    rintro _ u ⟨hu, hk', -⟩
    exact opened_of_kept hu (hk.trans hk') hn h.locked h.dir h.distinct

theorem dirlink_opened (ho : 0 < c.outstanding) (name : List (BitVec 8)) (inum : ℕ) :
    Ensures (dirlink sb dp name inum) s (fun r t =>
      r = -1 ∧ Opened sb c H L dp n t ∧ (Slots.find (key name) (slots n.data) = none →
        Slots.free (slots n.data) = (slots n.data).length ∧ (MAXFILE * BSIZE < n.data.length + 16 ∨ DiskFull sb t.disk)) ∨
      r = 0 ∧ Slots.find (key name) (slots n.data) = none ∧ Opened sb c H L dp (n.link name inum) t) NoPanic := by
  obtain ⟨T, B, hw, hn⟩ := h.within
  obtain ⟨e, he⟩ := hroom
  apply (dirlink_within hw h.locked ho hn h.dir fun hall => absurd (hall e) he).mono _ (fun _ => id)
  rintro r t ⟨hk, x, y, ⟨rfl, hfind, ht⟩ | ⟨rfl, hwhy, ht⟩⟩
  · exact .inr ⟨rfl, hfind, opened_of_kept ht hk (Function.update_self _ _ _) h.locked (h.dir.link name inum)
      (h.distinct_link hfind inum)⟩
  · exact .inl ⟨rfl, opened_of_kept ht hk hn h.locked h.dir h.distinct, hwhy⟩

end Operations

theorem clear_opened (h : Opened sb c H L dp n s) (ho : 0 < c.outstanding) (hk : k < (slots n.data).length) :
    Ensures (unlink.clear sb dp (k * 16)) s (fun _ t => Opened sb c H L dp (n.clear k) t) NoPanic := by
  obtain ⟨T, B, hw, hn⟩ := h.within
  apply (clear_within hw h.locked ho hn h.dir hk).mono _ (fun _ => id)
  rintro _ t ⟨hkept, x, y, ht⟩
  exact opened_of_kept ht hkept (Function.update_self _ _ _) h.locked (h.dir.clear hk) (h.distinct_clear hk)

/-! ## Runs -/

/-- The operations on a directory. -/
inductive DirOp
  | lookup (name : List (BitVec 8))
  | link (name : List (BitVec 8)) (inum : ℕ)
  | unlink (name : List (BitVec 8))
  | isempty

/-- A reference that `dirlookup` returns is given back. -/
def DirOp.run (sb : Superblock) (dp : Fin NINODE) : DirOp → F U Unit
  | lookup name => do
    match ← dirlookup sb dp name with
    | none => pure ()
    | some (ip, _) => iput sb ip
  | link name inum => do
    let _ ← dirlink sb dp name inum
    pure ()
  | unlink name => do
    match ← dirlookup sb dp name with
    | none => pure ()
    | some (ip, off) => do
      iput sb ip
      Fs.unlink.clear sb dp off
  | isempty => do
    let _ ← isdirempty sb dp
    pure ()

theorem dirOp_opened (h : Opened sb c H L dp n s) (hroom : ∃ e, e ∉ H) (ho : 0 < c.outstanding) (op : DirOp) :
    Ensures (op.run sb dp) s (fun _ t => ∃ n', Opened sb c H L dp n' t) NoPanic := by
  cases op with
  | lookup name =>
    apply (dirlookup_opened h hroom name).bind (fun _ => id)
    intro r t hr
    cases hfind : Slots.find (key name) (slots n.data) with
    | none =>
      rw [hfind] at hr
      obtain ⟨rfl, rfl⟩ := hr
      exact ensures_pure ⟨n, h⟩
    | some x =>
      rw [hfind] at hr
      obtain ⟨ip, rfl, -, -, hput⟩ := hr
      exact hput.mono (fun _ u hu => ⟨n, hu⟩) (fun _ => id)
  | link name inum =>
    apply (dirlink_opened h hroom ho name inum).bind (fun _ => id)
    rintro r t (⟨-, ht, -⟩ | ⟨-, -, ht⟩)
    · exact ensures_pure ⟨_, ht⟩
    · exact ensures_pure ⟨_, ht⟩
  | unlink name =>
    apply (dirlookup_opened h hroom name).bind (fun _ => id)
    intro r t hr
    cases hfind : Slots.find (key name) (slots n.data) with
    | none =>
      rw [hfind] at hr
      obtain ⟨rfl, rfl⟩ := hr
      exact ensures_pure ⟨n, h⟩
    | some x =>
      rw [hfind] at hr
      obtain ⟨ip, rfl, -, -, hput⟩ := hr
      apply hput.bind (fun _ => id)
      intro _ u hu
      exact (clear_opened hu ho (Slots.lt_of_find hfind)).mono (fun _ v hv => ⟨_, hv⟩) (fun _ => id)
  | isempty =>
    obtain ⟨T, B, hw, hn⟩ := h.within
    exact (ensures_of_eq (isdirempty_run hw h.locked hn h.dir) (Q := fun _ t => t = s) rfl).bind (fun _ => id)
      fun _ t ht => ensures_pure ⟨n, ht ▸ h⟩

/-- Distinctness holds after every run of the operations. -/
theorem dirOps_opened (hroom : ∃ e, e ∉ H) (ho : 0 < c.outstanding) (ops : List DirOp) (h : Opened sb c H L dp n s) :
    Ensures (ops.forM (DirOp.run sb dp)) s (fun _ t => ∃ n', Opened sb c H L dp n' t) NoPanic := by
  induction ops generalizing n s with
  | nil => exact ensures_pure ⟨n, h⟩
  | cons op ops ih =>
    change Ensures (op.run sb dp >>= fun _ => ops.forM (DirOp.run sb dp)) s _ _
    apply (dirOp_opened h hroom ho op).bind (fun _ => id)
    rintro _ t ⟨n', ht⟩
    exact ih ht

/-! ## The map -/

/-- On a disk on which every block has one owner and no file has a hole, a directory with distinct names that is
locked in a transaction is a finite map, as long as the inode table has a free entry: `dirlookup` returns the
binding of a name and its offset; `dirlink` fails if the name is bound, or if there is no free entry and the
directory cannot grow, and otherwise binds it in the first free entry; clearing an entry removes its binding;
`isdirempty` finds a binding outside the first two entries; and the names stay distinct. -/
theorem directory_is_map (h : Opened sb c H L dp n s) (ho : 0 < c.outstanding) (hroom : ∃ e, e ∉ H) :
    (∀ name, Ensures (dirlookup sb dp name) s (fun r t => match n.bindings (key name) with
      | none => r = none ∧ t = s
      | some i => ∃ ip k, r = some (ip, k * DESIZE) ∧ (slots n.data)[k]? = some (some (key name, i)) ∧
          (t.inode ip).inum = i ∧ Opened sb c (ip ::ₘ H) L dp n t) NoPanic) ∧
    (∀ name inum, 0 < inum → inum < 2 ^ 16 → Ensures (dirlink sb dp name inum) s (fun r t =>
      r = -1 ∧ Opened sb c H L dp n t ∧ (n.bindings (key name) = none →
        Slots.free (slots n.data) = (slots n.data).length ∧ (MAXFILE * BSIZE < n.data.length + DESIZE ∨ DiskFull sb t.disk)) ∨
      r = 0 ∧ n.bindings (key name) = none ∧ ∃ n', Opened sb c H L dp n' t ∧
        n'.bindings = Function.update n.bindings (key name) (some inum) ∧
        slots n'.data = Slots.put (slots n.data) (Slots.free (slots n.data)) (some (key name, inum))) NoPanic) ∧
    (∀ name k i, (slots n.data)[k]? = some (some (key name, i)) → Ensures (unlink.clear sb dp (k * DESIZE)) s (fun _ t =>
      ∃ n', Opened sb c H L dp n' t ∧ n'.bindings = Function.update n.bindings (key name) none) NoPanic) ∧
    (∃ b, isdirempty sb dp s = .ok (b, s) ∧
      (b = true ↔ ∀ name i, n.bindings name = some i → ∃ k < 2, (slots n.data)[k]? = some (some (name, i)))) ∧
    ∀ ops : List DirOp, Ensures (ops.forM (DirOp.run sb dp)) s (fun _ t => ∃ n', Opened sb c H L dp n' t) NoPanic := by
  have hnone {name : List (BitVec 8)} : n.bindings (key name) = none ↔ Slots.find (key name) (slots n.data) = none :=
    Option.map_eq_none_iff
  refine ⟨fun name => ?_, fun name inum hpos hlt => ?_, fun name k i hk => ?_, ?_, fun ops => dirOps_opened hroom ho ops h⟩
  · apply (dirlookup_opened h hroom name).mono _ (fun _ => id)
    intro r t hr
    rw [Node.bindings, Slots.get]
    cases hfind : Slots.find (key name) (slots n.data) with
    | none => rwa [hfind] at hr
    | some x =>
      rw [hfind] at hr
      obtain ⟨ip, rfl, hinum, ht, -⟩ := hr
      exact ⟨ip, x.1, rfl, Slots.getElem?_of_find hfind, hinum, ht⟩
  · apply (dirlink_opened h hroom ho name inum).mono _ (fun _ => id)
    rintro r t (⟨rfl, ht, hwhy⟩ | ⟨rfl, hfind, ht⟩)
    · exact .inl ⟨rfl, ht, fun hb => hwhy (hnone.1 hb)⟩
    · have hb := hnone.2 hfind
      have hslots := slots_link h.dir name inum
      rw [Nat.mod_eq_of_lt hlt, if_neg (by omega)] at hslots
      refine .inr ⟨rfl, hb, _, ht, ?_, hslots⟩
      rw [Node.bindings, hslots]
      exact Slots.get_bind h.distinct hb inum
  · have hlt := (List.getElem?_eq_some_iff.1 hk).1
    apply (clear_opened h ho hlt).mono _ (fun _ => id)
    intro _ t ht
    refine ⟨_, ht, ?_⟩
    rw [Node.bindings, slots_clear h.dir hlt]
    exact Slots.get_unbind h.distinct hk
  · obtain ⟨T, B, hw, hn⟩ := h.within
    exact ⟨_, isdirempty_run hw h.locked hn h.dir, h.empty_iff⟩

def smallRootNode : Node := node smallDisk (dinode smallSb smallDisk ROOTINO)

theorem smallRootNode_reads : ((slots smallRootNode.data).filterMap fun x => x.map Prod.fst).Nodup ∧
    (smallRootNode.type = T_DIR ∧ DESIZE ∣ smallRootNode.data.length) ∧
    smallRootNode.bindings (key [0x66]) = some 2 ∧ (slots smallRootNode.data)[2]? = some (some (key [0x66], 2)) := by
  decide +kernel

theorem smallRootNode_distinct : Slots.Distinct (slots smallRootNode.data) :=
  Slots.distinct_of_nodup smallRootNode_reads.1

theorem smallRoot_opened {H : Multiset (Fin NINODE)} {others : Inode} (hH : ∀ e, H.count e = if e = 0 then 1 else others.ref)
    (hunlocked : others.locked = false) (hinvalid : others.valid = false) (hinum : 16 ≤ others.inum) :
    Opened smallSb (smallRoot true others) H {0} 0 smallRootNode (smallRoot true others) :=
  ⟨⟨_, _, smallRoot_within true hH hunlocked hinvalid hinum, tree_of_live smallRoot_live⟩, Finset.mem_singleton_self 0,
    ⟨smallRootNode_reads.2.1.1, smallRootNode_reads.2.1.2⟩, smallRootNode_distinct⟩

/-- The file is found in the root directory. -/
theorem directory_is_map_small : Ensures (dirlookup smallSb 0 [0x66]) (smallRoot true ⟨16, 0, false, false, .fresh 0⟩)
    (fun r t => ∃ ip, r = some (ip, 32) ∧ (t.inode ip).inum = 2) NoPanic := by
  have hopened : Opened smallSb (smallRoot true ⟨16, 0, false, false, .fresh 0⟩) {0} {0} 0 smallRootNode
      (smallRoot true ⟨16, 0, false, false, .fresh 0⟩) :=
    smallRoot_opened (by decide) rfl rfl le_rfl
  obtain ⟨-, -, hbind, hslot⟩ := smallRootNode_reads
  apply ((directory_is_map hopened Nat.one_pos ⟨1, by decide⟩).1 [0x66]).mono _ (fun _ => id)
  intro r t hr
  rw [hbind] at hr
  obtain ⟨ip, k, rfl, hk, hinum, -⟩ := hr
  obtain rfl : k = 2 := smallRootNode_distinct k 2 _ _ 2 hk hslot
  exact ⟨ip, rfl, hinum⟩

/-- When all entries of the inode table are in use, looking up a name that is there is a panic. -/
theorem lookup_panics_when_table_full :
    Opened smallSb (smallRoot true ⟨16, 1, false, false, .fresh 0⟩) Finset.univ.val {0} 0 smallRootNode
      (smallRoot true ⟨16, 1, false, false, .fresh 0⟩) ∧
    smallRootNode.bindings (key [0x66]) = some 2 ∧
    dirlookup smallSb 0 [0x66] (smallRoot true ⟨16, 1, false, false, .fresh 0⟩) = .error .igetNoInodes := by
  refine ⟨smallRoot_opened (by decide) rfl rfl le_rfl, smallRootNode_reads.2.2.1, error_of_panics ?_⟩
  decide +kernel

end Xv6.Fs
