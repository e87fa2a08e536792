import Xv6.Fs.Directory

/-!
# Path names

`components path` are the elements of a path, and `resolve T i names` follows them in the tree `T` from inode
`i` on.  `namex` computes this: it has one reference at a time, to the inode that it has reached, and when it
returns an inode that reference is all that has changed.

What `namex` needs of the inodes that it reaches is `Passable`: they are in the range of the inode blocks, are
allocated unless `E` has the panic that follows otherwise, have whole entries if they are directories, and
are not freed when the reference to them is given up.
-/

namespace Xv6.Fs

open Kernel

/-! ## Elements of a path -/

/-- The maximal parts of a path without a slash, cut to the length of a name. -/
def components (path : List (BitVec 8)) : List (List (BitVec 8)) :=
  ((path.splitOn slash).filter (· ≠ [])).map (List.take DIRSIZ)

variable {path rest name : List (BitVec 8)} {names : List (List (BitVec 8))}

theorem components_cons_slash (path : List (BitVec 8)) : components (slash :: path) = components path := by
  unfold components
  rw [List.splitOn, List.splitOnP_cons_eq_if_modifyHead, if_pos (beq_self_eq_true slash), List.filter_cons_of_neg (by simp)]
  rfl

theorem components_dropWhile (path : List (BitVec 8)) : components (path.dropWhile (· == slash)) = components path := by
  induction path with
  | nil => rfl
  | cons a path ih =>
    rw [List.dropWhile_cons]
    split_ifs with h
    · rw [ih, eq_of_beq h, components_cons_slash]
    · rfl

theorem components_nil : components [] = [] := by decide

/-- An element, and what is behind it. -/
theorem components_append (hne : name ≠ []) (hname : ∀ a ∈ name, a ≠ slash) (hrest : ∀ a r, rest = a :: r → a = slash) :
    components (name ++ rest) = name.take DIRSIZ :: components rest := by
  have hp : ∀ a ∈ name, (a == slash) = false := fun a ha => beq_false_of_ne (hname a ha)
  have hkeep : decide (name ≠ []) = true := decide_eq_true hne
  cases rest with
  | nil =>
    rw [List.append_nil, components_nil, components, List.splitOn, List.splitOnP_eq_singleton hp,
      List.filter_cons_of_pos (p := fun x => decide (x ≠ [])) hkeep]
    rfl
  | cons a r =>
    obtain rfl := hrest a r rfl
    rw [components_cons_slash, components, List.splitOn, List.splitOnP_append_cons_of_forall_mem hp _ (beq_self_eq_true slash),
      List.filter_cons_of_pos (p := fun x => decide (x ≠ [])) hkeep]
    rfl

theorem head_dropWhile_slash {a : BitVec 8} {r : List (BitVec 8)} (h : path.dropWhile (· == slash) = a :: r) : a ≠ slash := by
  have := List.head_dropWhile_not (· == slash) (l := path) (by rw [h]; exact List.cons_ne_nil a r)
  simp only [h, List.head_cons] at this
  exact fun heq => absurd this (by rw [heq]; decide)

theorem skipelem_eq_none (h : skipelem path = none) : components path = [] := by
  unfold skipelem at h
  dsimp only at h
  split_ifs at h with hnil
  · rw [← components_dropWhile, hnil, components_nil]

theorem skipelem_eq_some (h : skipelem path = some (rest, name)) :
    components path = name :: components rest ∧ rest.length < path.length ∧ rest.dropWhile (· == slash) = rest := by
  unfold skipelem at h
  dsimp only at h
  split_ifs at h with hnil
  rw [Option.some_inj, Prod.mk.injEq] at h
  obtain ⟨p, hp⟩ : ∃ p, path.dropWhile (· == slash) = p := ⟨_, rfl⟩
  rw [hp] at hnil h
  have hdrop : p.drop (p.takeWhile (· != slash)).length = p.dropWhile (· != slash) := by
    nth_rewrite 2 [← List.takeWhile_append_dropWhile (p := (· != slash)) (l := p)]
    exact List.drop_left
  rw [hdrop] at h
  have hlen : p.length ≤ path.length := by
    rw [← hp]
    exact (List.dropWhile_sublist _).length_le
  obtain ⟨a, r, rfl⟩ := List.exists_cons_of_ne_nil hnil
  have ha : (a != slash) = true := bne_iff_ne.2 (head_dropWhile_slash hp)
  have helem : (a :: r).takeWhile (· != slash) ≠ [] := by
    rw [List.takeWhile_cons, if_pos ha]
    exact List.cons_ne_nil _ _
  have hsplit := List.takeWhile_append_dropWhile (p := (· != slash)) (l := a :: r)
  refine ⟨?_, ?_, ?_⟩
  · rw [← components_dropWhile path, hp, ← h.1, ← h.2, components_dropWhile]
    conv_lhs => rw [← hsplit]
    refine components_append helem (fun b hb => bne_iff_ne.1 (List.mem_takeWhile_imp (p := (· != slash)) hb)) fun b q hq => ?_
    have := List.head_dropWhile_not (· != slash) (l := a :: r) (by rw [hq]; exact List.cons_ne_nil b q)
    simp only [hq, List.head_cons] at this
    simpa using this
  · rw [← h.1]
    have h₁ := (List.dropWhile_sublist (· == slash) (l := (a :: r).dropWhile (· != slash))).length_le
    have h₂ := congrArg List.length hsplit
    rw [List.length_append] at h₂
    have h₃ := List.length_pos_iff.2 helem
    omega
  · rw [← h.1, List.dropWhile_idempotent]

/-- Nothing is left of a path iff no element is left. -/
theorem eq_nil_iff_components (h : rest.dropWhile (· == slash) = rest) : rest = [] ↔ components rest = [] := by
  refine ⟨fun hr => by rw [hr, components_nil], fun hc => ?_⟩
  by_contra hne
  have hskip : skipelem rest ≠ none := by
    unfold skipelem
    dsimp only
    rw [h, if_neg hne]
    simp
  cases hs : skipelem rest with
  | none => exact hskip hs
  | some x =>
    rw [(skipelem_eq_some hs).1] at hc
    cases hc

/-! ## Walks in the tree -/

/-- What a name means in a directory. -/
def Tree.lookup (T : Tree) (i : ℕ) (name : List (BitVec 8)) : Option ℕ :=
  (T i).bind fun n => if n.type = T_DIR then Slots.get (slots n.data) (key name) else none

/-- The inode that is reached from `i` by looking up the names in turn. -/
def Tree.resolve (T : Tree) (i : ℕ) (names : List (List (BitVec 8))) : Option ℕ := names.foldlM T.lookup i

/-- The inode and the name that `namex` returns. -/
def Tree.walk (T : Tree) (parent : Bool) : ℕ → List (List (BitVec 8)) → Option (ℕ × List (BitVec 8))
  | i, [] => if parent then none else some (i, [])
  | i, name :: names => (T i).bind fun n =>
    if n.type ≠ T_DIR then none
    else if parent ∧ names = [] then some (i, name)
    else (Slots.get (slots n.data) (key name)).bind fun j => Tree.walk T parent j names

variable {T : Tree} {i j : ℕ}

theorem Tree.resolve_cons (T : Tree) (i : ℕ) (name : List (BitVec 8)) (names : List (List (BitVec 8))) :
    T.resolve i (name :: names) = (T.lookup i name).bind fun j => T.resolve j names := List.foldlM_cons

/-- The walk goes on from an element of the path that is not the last one of `nameiparent`. -/
theorem Tree.walk_cons (T : Tree) {parent : Bool} (i : ℕ) (name : List (BitVec 8)) {names : List (List (BitVec 8))}
    (h : ¬ (parent = true ∧ names = [])) :
    T.walk parent i (name :: names) = (T.lookup i name).bind fun j => T.walk parent j names := by
  rw [Tree.walk, Tree.lookup]
  cases T i with
  | none => rfl
  | some n =>
    simp only [Option.bind_some]
    by_cases hd : n.type = T_DIR
    · rw [if_neg (not_not_intro hd), if_neg h, if_pos hd]
    · rw [if_pos hd, if_neg hd]
      rfl

theorem Tree.walk_false (T : Tree) (i : ℕ) (names : List (List (BitVec 8))) :
    T.walk false i names = (T.resolve i names).map fun j => (j, []) := by
  induction names generalizing i with
  | nil => rfl
  | cons name names ih =>
    rw [T.walk_cons i name (by simp), Tree.resolve_cons]
    cases T.lookup i name with
    | none => rfl
    | some j => exact ih j

theorem Tree.walk_true (T : Tree) (i : ℕ) (name : List (BitVec 8)) (names : List (List (BitVec 8))) :
    T.walk true i (name :: names) = (T.resolve i (name :: names).dropLast).bind fun j =>
      (T j).bind fun n => if n.type = T_DIR then some (j, (name :: names).getLastD []) else none := by
  induction names generalizing i name with
  | nil =>
    rw [Tree.walk]
    cases hi : T i with
    | none => simp [Tree.resolve, hi]
    | some n => simp [Tree.resolve, hi]
  | cons name' names ih =>
    rw [T.walk_cons i name (by simp), List.dropLast_cons_cons, Tree.resolve_cons]
    cases T.lookup i name with
    | none => rfl
    | some j => exact ih j name'

/-! ## `namex` -/

variable {U : Type} {sb : Superblock} {c s t : State U} {H : Multiset (Fin NINODE)} {B : Set ℕ} {ip cwd : Fin NINODE}
  {E : Panic → Prop} {n : Node}

/-- What `namex` needs of an inode that it reaches. -/
structure Passable (sb : Superblock) (E : Panic → Prop) (T : Tree) (H : Multiset (Fin NINODE)) (s : State U) (j : ℕ) :
    Prop where
  inum_lt : j < sb.ninodes
  allocated : T j = none → E .ilockNoType
  whole : ∀ n, T j = some n → n.type = T_DIR → 16 ∣ n.data.length
  anchored : Anchored H T s j

theorem Passable.of_kept (h : Passable sb E T H s j) (hk : Kept H s t) : Passable sb E T H t j :=
  ⟨h.inum_lt, h.allocated, h.whole, h.anchored.of_kept hk⟩

/-- The result of a walk, with a reference to the inode. -/
def Walked (sb : Superblock) (c : State U) (T : Tree) (H : Multiset (Fin NINODE)) (B : Set ℕ)
    (w : Option (ℕ × List (BitVec 8))) (r : Option (Fin NINODE × List (BitVec 8))) (t : State U) : Prop :=
  match w with
  | none => r = none ∧ Within sb c T H ∅ B t
  | some (j, name) => ∃ e, r = some (e, name) ∧ (t.inode e).inum = j ∧ Within sb c T (e ::ₘ H) ∅ B t

/-- The references are those before and one to the result, and no inode is locked. -/
structure OneMore (r : Option (Fin NINODE)) (s t : State U) : Prop where
  ref : ∀ f, (t.inode f).ref = (s.inode f).ref + if r = some f then 1 else 0
  inum : ∀ f, 0 < (s.inode f).ref → (t.inode f).inum = (s.inode f).inum
  unlocked : ∀ f, (t.inode f).locked = false

theorem Walked.oneMore {w : Option (ℕ × List (BitVec 8))} {r : Option (Fin NINODE × List (BitVec 8))}
    (h : Within sb c T H ∅ B s) (hw : Walked sb c T H B w r t) (hk : Kept H s t) : OneMore (r.map Prod.fst) s t := by
  have hinum (f : Fin NINODE) (hf : 0 < (s.inode f).ref) : (t.inode f).inum = (s.inode f).inum :=
    (hk f (h.mem_iff.2 hf)).1
  have hunlocked {H' : Multiset (Fin NINODE)} (ht : Within sb c T H' ∅ B t) (f : Fin NINODE) : (t.inode f).locked = false := by
    simpa using mt (ht.locked f).1 (Finset.notMem_empty f)
  cases w with
  | none =>
    obtain ⟨rfl, ht⟩ := hw
    exact ⟨fun f => by rw [ht.ref, h.ref]; rfl, hinum, hunlocked ht⟩
  | some x =>
    obtain ⟨e, rfl, -, ht⟩ := hw
    refine ⟨fun f => ?_, hinum, hunlocked ht⟩
    rw [ht.ref, h.ref, Multiset.count_cons, Option.map_some]
    simp only [Option.some_inj, eq_comm]

/-- An inode that a path leads to is allocated, if it is a directory it has whole entries, and if it has no links
it is referred to in memory. -/
def Reachable (T : Tree) (H : Multiset (Fin NINODE)) (s : State U) (j : ℕ) : Prop :=
  ∃ n, T j = some n ∧ (n.type = T_DIR → DESIZE ∣ n.data.length) ∧ Anchored H T s j

theorem Reachable.passable (h : Within sb c T H ∅ B s) (hj : Reachable T H s j) : Passable sb E T H s j := by
  obtain ⟨n, hn, hdir, hA⟩ := hj
  refine ⟨?_, fun hnone => ?_, fun n' hn' => ?_, hA⟩
  · rw [← h.tree_eq] at hn
    exact (tree_eq_some hn).1.1
  · rw [hn] at hnone
    cases hnone
  · rw [hn, Option.some_inj] at hn'
    subst hn'
    exact hdir

variable [UserMemory U]

theorem namexLoop_within (parent : Bool) (hE : ∀ e, (∀ f, f ∈ e ::ₘ H) → E .igetNoInodes) :
    ∀ (fuel : ℕ) (path : List (BitVec 8)) (ip : Fin NINODE) (s : State U), path.length < fuel →
      Within sb c T (ip ::ₘ H) ∅ B s →
      (∀ k j, T.resolve (s.inode ip).inum ((components path).take k) = some j → Passable sb E T H s j) →
      Ensures (namexLoop sb parent fuel ip path) s (fun r t => Kept H s t ∧
        Walked sb c T H B (T.walk parent (s.inode ip).inum (components path)) r t) E
  | 0, _, _, _, hlen, _, _ => absurd hlen (Nat.not_lt_zero _)
  | fuel + 1, path, ip, s, hlen, h, hpass => by
    have hip : ip ∈ ip ::ₘ H := Multiset.mem_cons_self ip H
    have hleH : H ≤ ip ::ₘ H := Multiset.le_cons_self H ip
    have hhere : Passable sb E T H s (s.inode ip).inum := hpass 0 _ rfl
    rw [namexLoop]
    cases hskip : skipelem path with
    | none =>
      rw [skipelem_eq_none hskip, Tree.walk]
      dsimp only
      cases parent with
      | true =>
        rw [if_pos rfl, if_pos rfl]
        apply (iput_anchored h hhere.anchored (fun hL => absurd hL (Finset.notMem_empty ip))).bind (fun _ => id)
        rintro _ t ⟨ht, hk, -⟩
        exact ensures_pure ⟨hk, rfl, ht⟩
      | false => exact ensures_pure ⟨kept_refl H s, ip, rfl, rfl, h⟩
    | some x =>
      obtain ⟨rest, name⟩ := x
      obtain ⟨hcomp, hlt, hrest⟩ := skipelem_eq_some hskip
      rw [hcomp] at hpass ⊢
      apply (ilock_within h hip hhere.inum_lt (fun hL => absurd hL (Finset.notMem_empty ip)) hhere.allocated).bind (fun _ => id)
      rintro _ t ⟨ht, -, hk, -⟩
      apply ensures_get_bind
      have hkH : Kept H s t := hk.mono hleH
      have hinum : (t.inode ip).inum = (s.inode ip).inum := (hk ip hip).1
      have hlock : ip ∈ insert ip (∅ : Finset (Fin NINODE)) := Finset.mem_insert_self ip ∅
      have hempty : (insert ip (∅ : Finset (Fin NINODE))).erase ip = ∅ :=
        Finset.erase_insert (Finset.notMem_empty ip)
      have hA : Anchored H T t (t.inode ip).inum := by
        rw [hinum]
        exact (hhere.of_kept hkH).anchored
      have hn := ht.node_eq hlock
      -- Giving up the inode without having found anything.
      have hfail {u : State U} (hu : Within sb c T (ip ::ₘ H) (insert ip ∅) B u) (hku : Kept H s u)
          (hAu : Anchored H T u (u.inode ip).inum) :
          Ensures (do
            iunlockput sb ip
            pure none : F U (Option (Fin NINODE × List (BitVec 8)))) u
            (fun r v => Kept H s v ∧ r = none ∧ Within sb c T H ∅ B v) E := by
        apply (iunlockput_anchored hu hAu hlock).bind (fun _ => id)
        rintro _ v ⟨hv, hk', -⟩
        rw [hempty] at hv
        exact ensures_pure ⟨hku.trans hk', rfl, hv⟩
      rw [hinum] at hn
      rw [Tree.walk, hn, Option.bind_some]
      by_cases hdir : (t.inode ip).copy.type = T_DIR
      · have hdir' : (node t.disk (t.inode ip).copy).type = T_DIR := hdir
        rw [if_neg (not_not_intro hdir), if_neg (not_not_intro hdir')]
        by_cases hlast : parent = true ∧ rest = []
        · have hlast' : parent = true ∧ components rest = [] := ⟨hlast.1, (eq_nil_iff_components hrest).1 hlast.2⟩
          rw [if_pos hlast, if_pos hlast']
          apply (iunlock_within ht hlock).bind (fun _ => id)
          rintro _ u ⟨hu, hk', -⟩
          rw [hempty] at hu
          exact ensures_pure ⟨hkH.trans (hk'.mono hleH), ip, rfl, (hk' ip hip).1.trans hinum, hu⟩
        · have hlast' : ¬ (parent = true ∧ components rest = []) :=
            fun hl => hlast ⟨hl.1, (eq_nil_iff_components hrest).2 hl.2⟩
          rw [if_neg hlast, if_neg hlast']
          have hn' : T (t.inode ip).inum = some (node t.disk (t.inode ip).copy) := ht.node_eq hlock
          have hisdir : IsDir (node t.disk (t.inode ip).copy) := ⟨hdir, hhere.whole _ hn hdir⟩
          apply (dirlookup_within ht hlock hn' hisdir (hE ip)).bind (fun _ => id)
          intro r u hr
          rw [Slots.get]
          cases hfind : Slots.find (key name) (slots (node t.disk (t.inode ip).copy).data) with
          | none =>
            rw [hfind] at hr
            obtain ⟨rfl, rfl⟩ := hr
            exact hfail ht hkH hA
          | some x =>
            rw [hfind] at hr
            obtain ⟨next, rfl, hu, hnext, hku, -, -⟩ := hr
            have hkHu : Kept H s u := hkH.trans (hku.mono hleH)
            have hinumu : (u.inode ip).inum = (s.inode ip).inum := (hku ip hip).1.trans hinum
            -- The reference to the directory is given up, the one to the next inode is kept.
            rw [Multiset.cons_swap] at hu
            have hAu : Anchored (next ::ₘ H) T u (u.inode ip).inum := by
              rw [hinumu]
              intro n hi h0
              obtain ⟨e, he, hrest⟩ := (hhere.of_kept hkHu).anchored n hi h0
              exact ⟨e, Multiset.mem_cons_of_mem he, hrest⟩
            apply (iunlockput_anchored hu hAu hlock).bind (fun _ => id)
            rintro _ v ⟨hv, hkv, -⟩
            rw [hempty] at hv
            have hkHv : Kept H s v := hkHu.trans (hkv.mono (Multiset.le_cons_self H next))
            have hnextv : (v.inode next).inum = x.2 := (hkv next (Multiset.mem_cons_self next H)).1.trans hnext
            have hlookup : T.lookup (s.inode ip).inum name = some x.2 := by
              rw [Tree.lookup, hn, Option.bind_some, if_pos hdir', Slots.get, hfind]
              rfl
            have hrec := namexLoop_within parent hE fuel rest next v (by omega) hv fun k j hj => by
              rw [hnextv] at hj
              apply (hpass (k + 1) j _).of_kept hkHv
              rw [List.take_succ_cons, Tree.resolve_cons, hlookup]
              exact hj
            apply hrec.mono _ (fun _ => id)
            rintro r w ⟨hkw, hwalked⟩
            rw [hnextv] at hwalked
            exact ⟨hkHv.trans hkw, hwalked⟩
      · have hdir' : (node t.disk (t.inode ip).copy).type ≠ T_DIR := hdir
        rw [if_pos hdir, if_pos hdir']
        exact hfail ht hkH hA

/-- The inode at which a path begins. -/
def startInum (s : State U) (cwd : Fin NINODE) (path : List (BitVec 8)) : ℕ :=
  if path.head? = some slash then ROOTINO else (s.inode cwd).inum

theorem namex_within (h : Within sb c T H ∅ B s) (hcwd : cwd ∈ H) (parent : Bool)
    (hE : ∀ e, (∀ f, f ∈ e ::ₘ H) → E .igetNoInodes)
    (hpass : ∀ k j, T.resolve (startInum s cwd path) ((components path).take k) = some j → Passable sb E T H s j) :
    Ensures (namex sb cwd path parent) s (fun r t => Kept H s t ∧
      Walked sb c T H B (T.walk parent (startInum s cwd path) (components path)) r t) E := by
  have hloop {ip : Fin NINODE} {t : State U} (ht : Within sb c T (ip ::ₘ H) ∅ B t)
      (hinum : (t.inode ip).inum = startInum s cwd path) (hk : Kept H s t) :
      Ensures (namexLoop sb parent (path.length + 1) ip path) t (fun r t => Kept H s t ∧
        Walked sb c T H B (T.walk parent (startInum s cwd path) (components path)) r t) E := by
    apply (namexLoop_within parent hE _ path ip t (Nat.lt_succ_self _) ht fun k j hj => ?_).mono _ (fun _ => id)
    · rintro r u ⟨hku, hwalked⟩
      rw [hinum] at hwalked
      exact ⟨hk.trans hku, hwalked⟩
    · rw [hinum] at hj
      exact (hpass k j hj).of_kept hk
  unfold namex
  unfold startInum at hloop ⊢
  by_cases hslash : path.head? = some slash
  · rw [if_pos hslash] at hloop
    rw [if_pos hslash, if_pos hslash]
    have hfull (hall : ∀ f, f ∈ H) : E .igetNoInodes := hE cwd fun f => Multiset.mem_cons_of_mem (hall f)
    apply (iget_within h ROOTINO hfull).bind (fun _ => id)
    rintro ip t ⟨ht, hinum, hk, -⟩
    exact hloop ht hinum hk
  · rw [if_neg hslash] at hloop
    rw [if_neg hslash, if_neg hslash]
    apply (idup_within h hcwd).bind (fun _ => id)
    rintro ip t ⟨rfl, ht, hk, -⟩
    exact hloop ht (hk ip (Multiset.mem_cons_self ip H)).1 (hk.mono (Multiset.le_cons_self H ip))

/-! ## Path resolution -/

/-- Path resolution, if two entries of the inode table are free: `namei` returns the inode that is reached by looking
up the elements of the path from the root or from the current directory on, and none iff a lookup fails;
`nameiparent` returns the inode that is reached by the elements before the last one, if it is a directory, and the
last element.  The only change of the references is one more to the inode that is returned, no inode is locked,
and the files are the same. -/
theorem path_resolution (h : Within sb c T H ∅ B s) (hcwd : cwd ∈ H) (hroom : ∃ a b, a ≠ b ∧ a ∉ H ∧ b ∉ H)
    (hreach : ∀ k j, T.resolve (startInum s cwd path) ((components path).take k) = some j → Reachable T H s j) :
    Ensures (namei sb cwd path) s (fun r t => OneMore r s t ∧ tree sb t.disk = T ∧
      r.map (fun e => (t.inode e).inum) = T.resolve (startInum s cwd path) (components path)) NoPanic ∧
    Ensures (nameiparent sb cwd path) s (fun r t => OneMore (r.map Prod.fst) s t ∧ tree sb t.disk = T ∧
      r.map (fun x => ((t.inode x.1).inum, x.2)) = if components path = [] then none else
        (T.resolve (startInum s cwd path) (components path).dropLast).bind fun j =>
          (T j).bind fun n => if n.type = T_DIR then some (j, (components path).getLastD []) else none) NoPanic := by
  obtain ⟨a, b, hab, ha, hb⟩ := hroom
  have hE (e : Fin NINODE) (hall : ∀ f, f ∈ e ::ₘ H) : NoPanic .igetNoInodes := by
    have h₁ := Multiset.mem_cons.1 (hall a)
    have h₂ := Multiset.mem_cons.1 (hall b)
    exact hab ((h₁.resolve_right ha).trans (h₂.resolve_right hb).symm)
  have hnamex (parent : Bool) := namex_within h hcwd parent hE fun k j hj => (hreach k j hj).passable h
  have hresult {w : Option (ℕ × List (BitVec 8))} {r : Option (Fin NINODE × List (BitVec 8))} {t : State U}
      (hw : Walked sb c T H B w r t) : tree sb t.disk = T ∧ r.map (fun x => ((t.inode x.1).inum, x.2)) = w := by
    cases w with
    | none =>
      obtain ⟨rfl, ht⟩ := hw
      exact ⟨ht.tree_eq, rfl⟩
    | some x =>
      obtain ⟨e, rfl, hinum, ht⟩ := hw
      exact ⟨ht.tree_eq, by rw [Option.map_some, hinum]⟩
  constructor
  · apply (hnamex false).bind (fun _ => id)
    rintro r t ⟨hk, hw⟩
    obtain ⟨htree, heq⟩ := hresult hw
    refine ensures_pure ⟨hw.oneMore h hk, htree, ?_⟩
    rw [Tree.walk_false] at heq
    have := congrArg (Option.map Prod.fst) heq
    simpa only [Option.map_map, Function.comp_def, Option.map_id'] using this
  · apply (hnamex true).mono _ (fun _ => id)
    rintro r t ⟨hk, hw⟩
    obtain ⟨htree, heq⟩ := hresult hw
    refine ⟨hw.oneMore h hk, htree, ?_⟩
    rw [heq]
    cases hcomp : components path with
    | nil => rfl
    | cons name names => rw [if_neg (List.cons_ne_nil _ _), Tree.walk_true]

/-- The file "/f" of the small file system. -/
theorem path_resolution_small : Ensures (namei smallSb 0 [0x2f, 0x66]) (smallRoot false ⟨16, 0, false, false, .fresh 0⟩)
    (fun r t => r.map (fun e => (t.inode e).inum) = some 2) NoPanic := by
  have hcomp : components [0x2f, 0x66] = [[0x66]] := by decide
  have hroot : startInum (smallRoot false ⟨16, 0, false, false, .fresh 0⟩) 0 [0x2f, 0x66] = ROOTINO := rfl
  have hresolve : (tree smallSb smallDisk).resolve ROOTINO [[0x66]] = some 2 := by decide +kernel
  have hlinks : ∀ j < 16, ∀ n, tree smallSb smallDisk j = some n → n.nlink ≠ 0 := by decide +kernel
  have hwithin : Within smallSb _ (tree smallSb smallDisk) {0} ∅ ∅ (smallRoot false ⟨16, 0, false, false, .fresh 0⟩) :=
    smallRoot_within false (by decide) rfl rfl le_rfl
  have hreach (j : ℕ) (hj : j < 16) (hlive : ∃ n, tree smallSb smallDisk j = some n ∧ (n.type = T_DIR → DESIZE ∣ n.data.length)) :
      Reachable (tree smallSb smallDisk) {0} (smallRoot false ⟨16, 0, false, false, .fresh 0⟩) j := by
    obtain ⟨n, hn, hdir⟩ := hlive
    exact ⟨n, hn, hdir, fun n' hn' h0 => absurd h0 (hlinks j hj n' hn')⟩
  refine (path_resolution hwithin (Multiset.mem_singleton_self 0) ⟨1, 2, by decide, by decide, by decide⟩ fun k j hj => ?_).1.mono
    (fun r t ht => ?_) (fun _ => id)
  · rw [hcomp, hroot] at hj
    cases k with
    | zero =>
      obtain rfl : ROOTINO = j := Option.some_inj.1 hj
      exact hreach _ (by decide) (by decide +kernel)
    | succ k =>
      rw [List.take_succ_cons, List.take_nil, hresolve, Option.some_inj] at hj
      subst hj
      exact hreach _ (by decide) (by decide +kernel)
  · rw [ht.2.2, hcomp, hroot, hresolve]

/-- When all entries of the inode table are in use, looking up a file that is there is a panic. -/
theorem namei_panics_when_table_full :
    Within smallSb (smallRoot false ⟨16, 1, false, false, .fresh 0⟩) (tree smallSb smallDisk) Finset.univ.val ∅ ∅
      (smallRoot false ⟨16, 1, false, false, .fresh 0⟩) ∧
    (tree smallSb smallDisk).resolve ROOTINO (components [0x2f, 0x66]) = some 2 ∧
    namei smallSb 0 [0x2f, 0x66] (smallRoot false ⟨16, 1, false, false, .fresh 0⟩) = .error .igetNoInodes := by
  refine ⟨smallRoot_within false (by decide) rfl rfl le_rfl, by decide +kernel, error_of_panics ?_⟩
  decide +kernel

end Xv6.Fs
