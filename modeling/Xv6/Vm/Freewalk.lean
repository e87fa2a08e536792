import Xv6.Vm.Space

/-!
# Freeing a page table

`freewalk` frees the tables of a page table that has no leaves left.  `HeldTree m d p S` describes
the memory it works on: a tree of tables of depth `d` at page `p`, in the pages of `S`, each of them
reached once.  All these pages are held by the kernel at the start, and free at the end.
-/

namespace Xv6.Vm

open Memory Kernel Kalloc

/-- Entry `i` of a table leads to the tables in the pages of `S`. -/
def HeldTree (m : Mem) : ℕ → ℕ → Set ℕ → Prop
  | 0, _, _ => False
  | d + 1, p, S => ∃ (c : ℕ → Option ℕ) (Ss : ℕ → Set ℕ),
      (∀ i < 512, load 8 m (p + 8 * i) = ptr (c i)) ∧
      (∀ i < 512, ∀ q, c i = some q → q % 4096 = 0 ∧ HeldTree m d q (Ss i)) ∧
      (∀ i < 512, c i = none → Ss i = ∅) ∧
      (∀ i < 512, ∀ j < 512, ∀ x, x ∈ Ss i → x ∈ Ss j → i = j) ∧
      (∀ i < 512, p ∉ Ss i) ∧
      ∀ x, x ∈ S ↔ x = p ∨ ∃ i < 512, x ∈ Ss i

variable {L : Layout} {s t u : Phys} {m m' : Mem} {own own' own'' : Owners}
  {tabs : ℕ → Option Tree} {r p q : ℕ} {T T' : Tree} {o : Owner} {S S' : Set ℕ}

theorem HeldTree.congr {d : ℕ} (h : HeldTree m d p S) (hm : ∀ x ∈ S, SamePage m m' x) :
    HeldTree m' d p S := by
  induction d generalizing p S with
  | zero => exact h
  | succ d ih =>
    obtain ⟨c, Ss, hc, hsome, hnone, hdisj, hp, hS⟩ := h
    have hroot : SamePage m m' p := hm p ((hS p).2 (.inl rfl))
    refine ⟨c, Ss, fun i hi => (hroot.load hi).trans (hc i hi), fun i hi q hq => ?_, hnone, hdisj, hp,
      hS⟩
    exact ⟨(hsome i hi q hq).1,
      ih (hsome i hi q hq).2 fun x hx => hm x ((hS x).2 (.inr ⟨i, hi, hx⟩))⟩

/-- The pages of `S` have gone to the free list. -/
structure Freed (S : Set ℕ) (s : Phys) (own : Owners) (t : Phys) (own' : Owners) : Prop where
  free : ∀ x ∈ S, own' x = some .free
  other : ∀ x, x ∉ S → own' x = own x
  same : ∀ x, x ∉ S → x % 4096 = 0 → SamePage s.mem t.mem x

/-- What one table of depth `d` needs of `freewalk`. -/
def Freewalks (L : Layout) (tabs : ℕ → Option Tree) (free : ℕ → K Unit) (d : ℕ) : Prop :=
  ∀ (p : ℕ) (S : Set ℕ) (s : Phys) (own : Owners), VmOk L s own tabs → HeldTree s.mem d p S →
    (∀ x ∈ S, own x = some .held) →
    ∃ t own', free p s = .ok ((), t) ∧ VmOk L t own' tabs ∧ Freed S s own t own'

/-- The loop of `freewalk` over the entries `is`: `hbefore` says what memory holds for them. -/
theorem freeEntries_spec {free : ℕ → K Unit} {d : ℕ} (hfree : Freewalks L tabs free d)
    {c : ℕ → Option ℕ} {Ss : ℕ → Set ℕ}
    (hdisj : ∀ i < 512, ∀ j < 512, ∀ x, x ∈ Ss i → x ∈ Ss j → i = j)
    (hp : ∀ i < 512, p ∉ Ss i) (hnone : ∀ i < 512, c i = none → Ss i = ∅) (is : List ℕ)
    (his : ∀ i ∈ is, i < 512) (hnd : is.Nodup) (h : VmOk L s own tabs) (hheld : own p = some .held)
    (hc : ∀ i ∈ is, load 8 s.mem (p + 8 * i) = ptr (c i))
    (hsub : ∀ i ∈ is, ∀ q, c i = some q → q % 4096 = 0 ∧ HeldTree s.mem d q (Ss i))
    (hown : ∀ i ∈ is, ∀ x ∈ Ss i, own x = some .held) :
    ∃ t own', freeEntries free p is s = .ok ((), t) ∧ VmOk L t own' tabs ∧ own' p = some .held ∧
      (∀ i ∈ is, ∀ x ∈ Ss i, own' x = some .free) ∧
      (∀ x, (∀ i ∈ is, x ∉ Ss i) → own' x = own x) ∧
      ∀ x, (∀ i ∈ is, x ∉ Ss i) → x ≠ p → x % 4096 = 0 → SamePage s.mem t.mem x := by
  induction is generalizing s own with
  | nil => exact ⟨s, own, rfl, h, hheld, by simp, fun _ _ => rfl, fun _ _ _ _ => SamePage.refl _ _⟩
  | cons i is ih =>
    have hi : i < 512 := his i List.mem_cons_self
    have his' : ∀ j ∈ is, j < 512 := fun j hj => his j (List.mem_cons_of_mem _ hj)
    obtain ⟨hi', hnd'⟩ := List.nodup_cons.1 hnd
    have hload := hc i List.mem_cons_self
    cases hci : c i with
    | none =>
      rw [hci] at hload
      have hempty := hnone i hi hci
      obtain ⟨t, own', hrun, hvm, hheld', hfr, hoth, hsame⟩ := ih his' hnd' h hheld
        (fun j hj => hc j (List.mem_cons_of_mem _ hj))
        (fun j hj => hsub j (List.mem_cons_of_mem _ hj))
        (fun j hj => hown j (List.mem_cons_of_mem _ hj))
      refine ⟨t, own', ?_, hvm, hheld', fun j hj => ?_,
        fun x hx => hoth x fun j hj => hx j (List.mem_cons_of_mem _ hj),
        fun x hx => hsame x fun j hj => hx j (List.mem_cons_of_mem _ hj)⟩
      · rw [freeEntries, run_bind (run_getWord _ _), hload]
        exact hrun
      · rcases List.mem_cons.1 hj with rfl | hj
        · rw [hempty]
          exact fun x hx => hx.elim
        · exact hfr j hj
    | some q =>
      rw [hci] at hload
      obtain ⟨hq, htree⟩ := hsub i List.mem_cons_self q hci
      obtain ⟨t₁, own₁, hrun₁, hvm₁, hfr₁⟩ := hfree q (Ss i) s own h htree
        (hown i List.mem_cons_self)
      have hpheld : own₁ p = some .held := (hfr₁.other p (hp i hi)).trans hheld
      have hpal := h.aligned hheld
      have honly : OnlyPage p t₁.mem (store 8 t₁.mem (p + 8 * i) 0) :=
        onlyPage_of_eqOutside (store_eqOutside _ _ _ _) hpal (by omega) (by omega)
      have hvm₂ : VmOk L { t₁ with mem := store 8 t₁.mem (p + 8 * i) 0 } own₁ tabs :=
        hvm₁.write_page hpheld (by simp) (fun r hr => by cases hr.1) honly
      have hout {j x : ℕ} (hj : j ∈ is) (hx : x ∈ Ss j) : x ∉ Ss i := fun hx' =>
        hi' (hdisj j (his' j hj) i hi x hx hx' ▸ hj)
      have hkeep {j x : ℕ} (hj : j ∈ is) (hx : x ∈ Ss j) :
          SamePage s.mem (store 8 t₁.mem (p + 8 * i) 0) x := by
        have hal := h.aligned (hown j (List.mem_cons_of_mem _ hj) x hx)
        have hxp : x ≠ p := fun e => hp j (his' j hj) (e ▸ hx)
        exact (hfr₁.same x (hout hj hx) hal).trans (honly x hal hxp)
      obtain ⟨t, own', hrun, hvm, hheld', hfr, hoth, hsame⟩ := ih his' hnd' hvm₂ hpheld
        (fun j hj => by
          rw [load_store_entry hpal hpal hi (his' j hj) (by norm_num),
            if_neg fun e : p = p ∧ j = i => hi' (e.2 ▸ hj)]
          exact ((hfr₁.same p (hp i hi) hpal).load (his' j hj)).trans
            (hc j (List.mem_cons_of_mem _ hj)))
        (fun j hj q' hq' => by
          obtain ⟨h₁, h₂⟩ := hsub j (List.mem_cons_of_mem _ hj) q' hq'
          exact ⟨h₁, h₂.congr fun x hx => hkeep hj hx⟩)
        (fun j hj x hx => (hfr₁.other x (hout hj hx)).trans
          (hown j (List.mem_cons_of_mem _ hj) x hx))
      refine ⟨t, own', ?_, hvm, hheld', fun j hj x hx => ?_, fun x hx => ?_, fun x hx hxp hal => ?_⟩
      · have hv : ptr (some q) &&& PTE_V ≠ 0 := (ptr_and_V (some q)).2 rfl
        rw [freeEntries, run_bind (run_getWord _ _), hload, if_pos ⟨hv, ptr_rwx _⟩, ptr,
          pte2pa_mkPte hq (by decide), run_bind hrun₁, run_bind (run_setWord _ _ _)]
        exact hrun
      · rcases List.mem_cons.1 hj with rfl | hj
        · rw [hoth x fun k hk hxk => hi' (hdisj _ (his' k hk) _ hi x hxk hx ▸ hk)]
          exact hfr₁.free x hx
        · exact hfr j hj x hx
      · rw [hoth x fun j hj => hx j (List.mem_cons_of_mem _ hj)]
        exact hfr₁.other x (hx i List.mem_cons_self)
      · exact ((hfr₁.same x (hx i List.mem_cons_self) hal).trans (honly x hal hxp)).trans
          (hsame x (fun j hj => hx j (List.mem_cons_of_mem _ hj)) hxp hal)

theorem freewalk_spec (L : Layout) (tabs : ℕ → Option Tree) (d : ℕ) :
    Freewalks L tabs (freewalk L d) d := by
  induction d with
  | zero => exact fun p S s own _ h => h.elim
  | succ d ih =>
    intro p S s own h ⟨c, Ss, hc, hsome, hnone, hdisj, hp, hS⟩ hheld
    obtain ⟨t, own', hrun, hvm, hpheld, hfr, hoth, hsame⟩ := freeEntries_spec ih hdisj hp hnone
      (List.range 512) (fun i hi => List.mem_range.1 hi) List.nodup_range h
      (hheld p ((hS p).2 (.inl rfl))) (fun i hi => hc i (List.mem_range.1 hi))
      (fun i hi => hsome i (List.mem_range.1 hi))
      fun i hi x hx => hheld x ((hS x).2 (.inr ⟨i, List.mem_range.1 hi, hx⟩))
    have hout {x : ℕ} (hx : x ∉ S) : x ≠ p ∧ ∀ i ∈ List.range 512, x ∉ Ss i :=
      ⟨fun e => hx ((hS x).2 (.inl e)),
        fun i hi hxi => hx ((hS x).2 (.inr ⟨i, List.mem_range.1 hi, hxi⟩))⟩
    refine ⟨_, _, ?_, hvm.kfree hpheld, ⟨fun x hx => ?_, fun x hx => ?_, fun x hx hal => ?_⟩⟩
    · rw [freewalk, run_bind hrun, run_kfree hvm hpheld (by simp)]
    · by_cases e : x = p
      · rw [e, Function.update_self]
      · rw [Function.update_of_ne e]
        obtain ⟨i, hi, hxi⟩ := ((hS x).1 hx).resolve_left e
        exact hfr i (List.mem_range.2 hi) x hxi
    · rw [Function.update_of_ne (hout hx).1]
      exact hoth x (hout hx).2
    · exact (hsame x (hout hx).2 (hout hx).1 hal).trans
        (freed_onlyPage t (hvm.aligned hpheld) x hal (hout hx).1)


/-! ## A whole address space -/

/-- The pages of the address space `r`. -/
def ofTable (own : Owners) (r : ℕ) : Set ℕ := { x | ∃ o, own x = some o ∧ o.table = some r }

open Classical in
/-- The owners when the pages of the address space `r` have come into the hands of the kernel. -/
noncomputable def dropped (own : Owners) (r : ℕ) : Owners := fun x =>
  if x ∈ ofTable own r then some .held else own x

theorem dropped_of_mem (h : p ∈ ofTable own r) : dropped own r p = some .held := if_pos h

theorem dropped_of_not_mem (h : p ∉ ofTable own r) : dropped own r p = own p := if_neg h

theorem dropped_eq_iff (ho : o ≠ .held) (ho' : o.table ≠ some r) :
    dropped own r p = some o ↔ own p = some o := by
  by_cases h : p ∈ ofTable own r
  · rw [dropped_of_mem h]
    obtain ⟨a, ha, hr⟩ := h
    rw [ha]
    constructor
    · exact fun e => absurd (Option.some.inj e).symm ho
    · exact fun e => absurd (Option.some.inj e ▸ hr) ho'
  · rw [dropped_of_not_mem h]

/-- The kernel gives up a page table: its pages are in its hands now. -/
theorem VmOk.dropTable (h : VmOk L s own tabs) (r : ℕ) :
    VmOk L s (dropped own r) (Function.update tabs r none) where
  pages p := by
    rw [← h.pages p]
    by_cases hp : p ∈ ofTable own r
    · rw [dropped_of_mem hp]
      obtain ⟨o, ho, -⟩ := hp
      rw [ho]
      exact Iff.rfl
    · rw [dropped_of_not_mem hp]
  free := h.free.congr (fun _ _ => SamePage.refl _ _) fun p => dropped_eq_iff (by simp) (by simp [Owner.table])
  table r' T hT := by
    by_cases e : r' = r
    · rw [e, Function.update_self] at hT
      cases hT
    · rw [Function.update_of_ne e] at hT
      refine (h.table r' T hT).congr (fun _ _ _ _ => SamePage.refl _ _) fun p a ha => ?_
      refine dropped_eq_iff (fun e' => ?_) fun e' => e ?_
      · rw [e'] at ha
        cases ha
      · rw [ha] at e'
        exact Option.some.inj e'
  rooted p o r' hp ho := by
    by_cases hp' : p ∈ ofTable own r
    · rw [dropped_of_mem hp'] at hp
      cases hp
      cases ho
    · rw [dropped_of_not_mem hp'] at hp
      have e : r' ≠ r := fun e => hp' ⟨o, hp, e ▸ ho⟩
      rw [Function.update_of_ne e]
      exact h.rooted p o r' hp ho
  refreed := h.refreed

theorem TableOk.heldTree (ht : TableOk m own r T) (hal : ∀ x a, own x = some a → x % 4096 = 0)
    (hleaf : ∀ v, T.leaf v = 0) : HeldTree m 3 r (ofTable own r) := by
  have hlow {i j q : ℕ} (hq : T.low i j = some q) :
      HeldTree m 1 q { x | own x = some (.low r i j) } := by
    refine ⟨fun _ => none, fun _ => ∅, fun k hk => ?_, by simp, by simp, by simp, by simp, fun x => ?_⟩
    · rw [ht.low_entry i j q hq k hk, hleaf]
      rfl
    · simp only [Set.mem_ofPred_eq, Set.mem_empty_iff_false, and_false, exists_false, or_false]
      constructor
      · intro hx
        exact Option.some.inj ((ht.own_low x i j hx).symm.trans hq)
      · rintro rfl
        exact (ht.low_own i j x hq).2.2
  have hmid {i p : ℕ} (hp : T.mid i = some p) :
      HeldTree m 2 p { x | own x = some (.mid r i) ∨ ∃ j, own x = some (.low r i j) } := by
    refine ⟨T.low i, fun j => { x | own x = some (.low r i j) }, fun j hj => ht.mid_entry i p hp j hj,
      fun j hj q hq => ⟨hal q _ (ht.low_own i j q hq).2.2, hlow hq⟩, fun j hj hn => ?_,
      fun j hj k hk x hx hx' => ?_, fun j hj hx => ?_, fun x => ?_⟩
    · ext x
      simp only [Set.mem_ofPred_eq, Set.mem_empty_iff_false, iff_false]
      intro hx
      rw [ht.own_low x i j hx] at hn
      cases hn
    · cases hx.symm.trans hx'
      rfl
    · cases (ht.mid_own i p hp).2.symm.trans hx
    · refine or_congr ⟨fun hx => ?_, ?_⟩ ⟨?_, ?_⟩
      · exact Option.some.inj ((ht.own_mid x i hx).symm.trans hp)
      · rintro rfl
        exact (ht.mid_own i x hp).2
      · rintro ⟨j, hx⟩
        exact ⟨j, (ht.low_own i j x (ht.own_low x i j hx)).1, hx⟩
      · rintro ⟨j, -, hx⟩
        exact ⟨j, hx⟩
  refine ⟨T.mid, fun i => { x | own x = some (.mid r i) ∨ ∃ j, own x = some (.low r i j) },
    ht.root_entry, fun i hi p hp => ⟨hal p _ (ht.mid_own i p hp).2, hmid hp⟩, fun i hi hn => ?_,
    fun i hi k hk x hx hx' => ?_, fun i hi hx => ?_, fun x => ⟨?_, ?_⟩⟩
  · ext x
    simp only [Set.mem_ofPred_eq, Set.mem_empty_iff_false, iff_false]
    rintro (hx | ⟨j, hx⟩)
    · rw [ht.own_mid x i hx] at hn
      cases hn
    · have := (ht.low_own i j x (ht.own_low x i j hx)).2.1
      rw [hn] at this
      cases this
  · rcases hx with hx | ⟨j, hx⟩ <;> rcases hx' with hx' | ⟨j', hx'⟩ <;> cases hx.symm.trans hx' <;> rfl
  · rcases hx with hx | ⟨j, hx⟩ <;> cases ht.root_own.symm.trans hx
  · rintro ⟨o, ho, hr⟩
    cases o with
    | root r' =>
      obtain rfl := Option.some.inj hr
      exact .inl (ht.own_root x ho)
    | mid r' i =>
      obtain rfl := Option.some.inj hr
      exact .inr ⟨i, (ht.mid_own i x (ht.own_mid x i ho)).1, .inl ho⟩
    | low r' i j =>
      obtain rfl := Option.some.inj hr
      have := (ht.low_own i j x (ht.own_low x i j ho)).2.1
      obtain ⟨p, hp⟩ := Option.isSome_iff_exists.1 this
      exact .inr ⟨i, (ht.mid_own i p hp).1, .inr ⟨j, ho⟩⟩
    | user r' v =>
      obtain rfl := Option.some.inj hr
      exact absurd (hleaf v) (ht.own_user x v ho).2.1
    | _ => cases hr
  · rintro (rfl | ⟨i, -, hx | ⟨j, hx⟩⟩)
    · exact ⟨_, ht.root_own, rfl⟩
    · exact ⟨_, hx, rfl⟩
    · exact ⟨_, hx, rfl⟩

theorem space_zero_iff {x : ℕ} : Space r 0 x o ↔ o = .free ∨ o.table = some r := by
  refine or_congr Iff.rfl ⟨?_, fun h => ?_⟩
  · rintro (h | ⟨v, -, rfl⟩)
    · exact h.1
    · rfl
  · by_cases hu : ∃ v, o = .user r v
    · obtain ⟨v, rfl⟩ := hu
      exact .inr ⟨v, Nat.zero_le v, rfl⟩
    · exact .inl ⟨h, fun v e => hu ⟨v, e⟩⟩

theorem freewalk_table (h : VmOk L s own tabs) (hT : tabs r = some T) (hleaf : ∀ v, T.leaf v = 0) :
    ∃ t own', freewalk L 3 r s = .ok ((), t) ∧ VmOk L t own' (Function.update tabs r none) ∧
      Frame (Space r 0) s own t own' := by
  have htree := (h.table r T hT).heldTree (fun x a hx => h.aligned hx) hleaf
  obtain ⟨t, own', hrun, hvm, hfr⟩ := freewalk_spec L _ 3 r _ s _ (h.dropTable r) htree
    fun x hx => dropped_of_mem hx
  have hout {x : ℕ} {o : Owner} (ho : ¬ Space r 0 x o) (hx : own x = some o) : x ∉ ofTable own r := by
    rintro ⟨a, ha, hr⟩
    rw [hx] at ha
    exact ho (space_zero_iff.2 (.inr (Option.some.inj ha ▸ hr)))
  refine ⟨t, own', hrun, hvm, fun x o ho hx => ?_, fun x o ho hx => ?_⟩
  · rw [hfr.other x (hout ho hx), dropped_of_not_mem (hout ho hx)]
    exact ⟨hx, hfr.same x (hout ho hx) (h.aligned hx)⟩
  · by_cases hm : x ∈ ofTable own r
    · rw [hfr.free x hm] at hx
      exact absurd (.inl (Option.some.inj hx).symm) ho
    · rwa [hfr.other x hm, dropped_of_not_mem hm] at hx

theorem uvmfree_unmap (h : VmOk L s own tabs) (hT : tabs r = some T) {sz : ℕ}
    (hm : Mapped T (npages sz)) :
    ∃ t own' T', uvmfree L r sz s = freewalk L 3 r t ∧ Effect L (Space r 0) r s own tabs t own' T' ∧
      ∀ v, T'.leaf v = if v < npages sz then 0 else T.leaf v := by
  rw [uvmfree]
  by_cases hsz : sz > 0
  · have hmle := hm.le
    have hpages : pgroundup sz / PGSIZE = npages sz := by
      rw [pgroundup_eq hm.le, PGSIZE]
      omega
    obtain ⟨t, own', T', hrun, he, hl⟩ := uvmunmap_spec 0 (n := npages sz) h hT rfl
      (by omega) fun v _ hv => (hm.leaf v (by omega)).2 (by omega)
    refine ⟨t, own', T', ?_, he, fun v => by simpa using hl v⟩
    rw [if_pos hsz, hpages, run_bind hrun]
  · have hpages : npages sz = 0 := by
      unfold npages
      omega
    refine ⟨s, own, T, by rw [if_neg hsz], Effect.refl h hT, fun v => ?_⟩
    rw [if_neg (by omega)]

/-- `uvmfree` frees an address space from which the special pages have been unmapped. -/
theorem uvmfree_spec (sz : ℕ) (h : VmOk L s own tabs) (hT : tabs r = some T)
    (hm : Mapped T (npages sz)) (hspecial : ∀ v, UTOP ≤ v → T.leaf v = 0) :
    ∃ t own', uvmfree L r sz s = .ok ((), t) ∧ VmOk L t own' (Function.update tabs r none) ∧
      Frame (Space r 0) s own t own' := by
  obtain ⟨t, own₁, T₁, hrun, he, hl⟩ := uvmfree_unmap h hT hm
  have hzero (v : ℕ) : T₁.leaf v = 0 := by
    rw [hl]
    split_ifs with hv
    · rfl
    · by_contra hne
      by_cases hu : v < UTOP
      · exact hv ((hm.leaf v hu).1 hne)
      · exact hne (hspecial v (by omega))
  obtain ⟨u, own₂, hrun', hvm, hframe⟩ := freewalk_table he.vm (Function.update_self _ _ _) hzero
  exact ⟨u, own₂, hrun.trans hrun', by simpa using hvm, he.frame.trans hframe⟩

end Xv6.Vm
