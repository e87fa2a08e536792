import Xv6.Vm.Ownership

/-!
# Walking, mapping and unmapping

One specification for each function of `vm.c` that reads or writes a page table: in a state that
satisfies `VmOk` it returns (it does not panic), `VmOk` holds afterwards with a changed page table,
and all pages outside the table it works on and the free list keep owner and content (`Frame`).
-/

namespace Xv6.Vm

open Memory Kernel Kalloc LinkedList

/-- Pages outside `C`, a set of pages with their owners, keep owner and content. -/
structure Frame (C : ℕ → Owner → Prop) (s : Phys) (own : Owners) (s' : Phys) (own' : Owners) :
    Prop where
  keep : ∀ p o, ¬ C p o → own p = some o → own' p = some o ∧ SamePage s.mem s'.mem p
  back : ∀ p o, ¬ C p o → own' p = some o → own p = some o

/-- The free list and the tables of `r`. -/
def Tables (r : ℕ) (_ : ℕ) (o : Owner) : Prop := o = .free ∨ o.IsTable r

/-- The free list, the tables of `r`, and its user pages from number `n` on. -/
def Space (r n : ℕ) (_ : ℕ) (o : Owner) : Prop :=
  o = .free ∨ o.IsTable r ∨ ∃ v, n ≤ v ∧ o = .user r v

/-- The pages of `C`, and the page `p`. -/
def Also (C : ℕ → Owner → Prop) (p : ℕ) (x : ℕ) (o : Owner) : Prop := C x o ∨ x = p

variable {L : Layout} {s t u : Phys} {m m' : Mem} {own own' own'' : Owners}
  {tabs : ℕ → Option Tree} {r p q va : ℕ} {T T' : Tree} {o : Owner} {C D : ℕ → Owner → Prop}

theorem Frame.refl (C : ℕ → Owner → Prop) (s : Phys) (own : Owners) : Frame C s own s own :=
  ⟨fun _ _ _ h => ⟨h, SamePage.refl _ _⟩, fun _ _ _ h => h⟩

theorem Frame.trans (h : Frame C s own t own') (h' : Frame C t own' u own'') :
    Frame C s own u own'' := by
  refine ⟨fun p o ho hp => ?_, fun p o ho hp => h.back p o ho (h'.back p o ho hp)⟩
  obtain ⟨h₁, h₂⟩ := h.keep p o ho hp
  obtain ⟨h₃, h₄⟩ := h'.keep p o ho h₁
  exact ⟨h₃, h₂.trans h₄⟩

theorem Frame.mono (h : Frame C s own t own') (hCD : ∀ x o, C x o → D x o) :
    Frame D s own t own' :=
  ⟨fun p o ho => h.keep p o fun hc => ho (hCD p o hc),
    fun p o ho => h.back p o fun hc => ho (hCD p o hc)⟩

theorem Frame.also (h : Frame C s own t own') (p : ℕ) : Frame (Also C p) s own t own' :=
  h.mono fun _ _ => .inl

theorem Frame.close (h : Frame (Also C p) s own t own') (hp : own p = some o) (hC : C p o)
    {o' : Owner} (hp' : own' p = some o') (hC' : C p o') : Frame C s own t own' := by
  have key {x : ℕ} {a b : Owner} {f : Owners} (hf : f p = some a) (ha : C p a) (hb : ¬ C x b)
      (hx : f x = some b) : ¬ Also C p x b := by
    rintro (hc | rfl)
    · exact hb hc
    · rw [hf] at hx
      exact hb (Option.some.inj hx ▸ ha)
  exact ⟨fun x b hb hx => h.keep x b (key hp hC hb hx) hx,
    fun x b hb hx => h.back x b (key hp' hC' hb hx) hx⟩

theorem frame_page (hal : ∀ x a, own x = some a → x % 4096 = 0) (hm : OnlyPage p s.mem t.mem)
    (hown : ∀ x, x ≠ p → own' x = own x) : Frame (Also C p) s own t own' := by
  refine ⟨fun x b hb hx => ?_, fun x b hb hx => ?_⟩
  · have hxp : x ≠ p := fun e => hb (.inr e)
    exact ⟨(hown x hxp).trans hx, hm x (hal x b hx) hxp⟩
  · exact (hown x fun e => hb (.inr e)).symm.trans hx

theorem frame_write (hal : ∀ x a, own x = some a → x % 4096 = 0) (hm : OnlyPage p s.mem t.mem)
    (hp : own p = some o) (hC : C p o) : Frame C s own t own :=
  (frame_page hal hm fun _ _ => rfl).close hp hC hp hC

theorem tables_space {r x : ℕ} {o : Owner} (n : ℕ) (h : Tables r x o) : Space r n x o :=
  h.imp id .inl

theorem Space.mono {r n n' x : ℕ} {o : Owner} (hn : n ≤ n') (h : Space r n' x o) : Space r n x o :=
  h.imp id fun h => h.imp id fun ⟨v, hv, e⟩ => ⟨v, hn.trans hv, e⟩

/-- The table `r` has changed to `T'`, and only pages of `C` are concerned. -/
structure Effect (L : Layout) (C : ℕ → Owner → Prop) (r : ℕ) (s : Phys) (own : Owners)
    (tabs : ℕ → Option Tree) (t : Phys) (own' : Owners) (T' : Tree) : Prop where
  vm : VmOk L t own' (Function.update tabs r (some T'))
  frame : Frame C s own t own'

theorem Effect.refl (h : VmOk L s own tabs) (hT : tabs r = some T) :
    Effect L C r s own tabs s own T :=
  ⟨by rw [← hT, Function.update_eq_self]; exact h, Frame.refl _ _ _⟩

theorem Effect.trans {T'' : Tree} (h : Effect L C r s own tabs t own' T')
    (h' : Effect L C r t own' (Function.update tabs r (some T')) u own'' T'') :
    Effect L C r s own tabs u own'' T'' :=
  ⟨by simpa using h'.vm, h.frame.trans h'.frame⟩

theorem Effect.mono (h : Effect L C r s own tabs t own' T') (hCD : ∀ x o, C x o → D x o) :
    Effect L D r s own tabs t own' T' := ⟨h.vm, h.frame.mono hCD⟩

theorem OnlyPage.refl (p : ℕ) (m : Mem) : OnlyPage p m m := fun _ _ _ => SamePage.refl _ _

/-! ## Single steps -/

theorem run_getWord (a : ℕ) (s : Phys) : getWord a s = .ok (load 8 s.mem a, s) := rfl

theorem run_setWord (a v : ℕ) (s : Phys) :
    setWord a v s = .ok ((), { s with mem := store 8 s.mem a v }) := rfl

theorem run_memset (p : ℕ) (c : BitVec 8) (s : Phys) :
    memset p c s = .ok ((), { s with mem := fill s.mem p PGSIZE c }) := rfl

theorem zeroPage_fill (m : Mem) (p : ℕ) : ZeroPage (fill m p PGSIZE 0) p :=
  fun k hk => load_fill_zero (by omega) (by unfold PGSIZE; omega)

theorem VmOk.memset (h : VmOk L s own tabs) (hp : own p = some .held) (c : BitVec 8) :
    VmOk L { s with mem := fill s.mem p PGSIZE c } own tabs :=
  h.write_page hp (by simp) (fun r hr => by cases hr.1)
    (onlyPage_of_eqOutside (fill_eqOutside _ _ _ _) (h.aligned hp) le_rfl le_rfl)

/-- `kalloc` and `memset`: no memory, or a held page of zeros. -/
theorem kalloc_zero (h : VmOk L s own tabs) : ∃ p t, kalloc s = .ok (p, t) ∧
    (p = 0 ∧ t = s ∨ p ≠ 0 ∧ own p = some .free ∧
      VmOk L { t with mem := fill t.mem p PGSIZE 0 } (Function.update own p (some .held)) tabs ∧
      OnlyPage p s.mem (fill t.mem p PGSIZE 0) ∧
      VmOk L t (Function.update own p (some .held)) tabs ∧ OnlyPage p s.mem t.mem) := by
  obtain ⟨p, t, hk, h' | ⟨hfree, honly, hvm⟩⟩ := kalloc_spec h
  · exact ⟨p, t, hk, .inl h'⟩
  · have hheld : Function.update own p (some Owner.held) p = some .held := Function.update_self _ _ _
    refine ⟨p, t, hk, .inr ⟨h.ne_zero hfree, hfree, hvm.memset hheld 0, ?_, hvm, honly⟩⟩
    exact honly.trans
      (onlyPage_of_eqOutside (fill_eqOutside _ _ _ _) (h.aligned hfree) le_rfl le_rfl)

/-! ## `walk` -/

theorem walkLevel_valid {pt level : ℕ} {alloc : Bool} (hp : p % 4096 = 0)
    (he : load 8 s.mem (pt + 8 * px level va) = ptr (some p)) :
    walkLevel pt va level alloc s = .ok (some p, s) := by
  have hv : load 8 s.mem (pt + 8 * px level va) &&& PTE_V ≠ 0 := by
    rw [he, ptr_and_V]
    rfl
  rw [walkLevel, run_bind (run_getWord _ _), if_pos hv, he, ptr, pte2pa_mkPte hp (by decide)]
  rfl

theorem walkLevel_none {pt level : ℕ} (he : load 8 s.mem (pt + 8 * px level va) = 0) :
    walkLevel pt va level false s = .ok (none, s) := by
  rw [walkLevel, run_bind (run_getWord _ _), he]
  rfl

theorem walkLevel_alloc (h : VmOk L s own tabs) (va : ℕ) {pt level : ℕ}
    (he : load 8 s.mem (pt + 8 * px level va) = 0) :
    ∃ o t, walkLevel pt va level true s = .ok (o, t) ∧ (o = none ∧ t = s ∨
      ∃ p t', o = some p ∧ own p = some .free ∧ VmOk L t' (Function.update own p (some .held)) tabs ∧
        ZeroPage t'.mem p ∧ OnlyPage p s.mem t'.mem ∧
        t = { t' with mem := store 8 t'.mem (pt + 8 * px level va) (mkPte p PTE_V) }) := by
  obtain ⟨p, t, hk, ⟨rfl, rfl⟩ | ⟨hp, hfree, hvm, honly, -⟩⟩ := kalloc_zero h
  · refine ⟨none, t, ?_, .inl ⟨rfl, rfl⟩⟩
    rw [walkLevel, run_bind (run_getWord _ _), he]
    simp only [Nat.zero_and, ne_eq, not_true_eq_false, if_false, Bool.not_true, Bool.false_eq_true]
    rw [run_bind hk]
    rfl
  · refine ⟨some p, _, ?_, .inr ⟨p, _, rfl, hfree, hvm, zeroPage_fill _ _, honly, rfl⟩⟩
    rw [walkLevel, run_bind (run_getWord _ _), he]
    simp only [Nat.zero_and, ne_eq, not_true_eq_false, if_false, Bool.not_true, Bool.false_eq_true]
    rw [run_bind hk, if_neg hp, run_bind (run_memset _ _ _), run_bind (run_setWord _ _ _)]
    rfl

/-- The address of the leaf entry of `va`, `0` when its table does not exist. -/
def Tree.pte (T : Tree) (va : ℕ) : ℕ :=
  match T.low (px 2 va) (px 1 va) with
  | none => 0
  | some q => q + 8 * px 0 va

/-- `walk` without `alloc` reads the tables of the address. -/
theorem walk_tables (hva : va < MAXVA) (hroot : load 8 s.mem (r + 8 * px 2 va) = ptr (T.mid (px 2 va)))
    (hmid : ∀ p, T.mid (px 2 va) = some p → p % 4096 = 0 ∧
      load 8 s.mem (p + 8 * px 1 va) = ptr (T.low (px 2 va) (px 1 va)))
    (hlow : ∀ p, T.low (px 2 va) (px 1 va) = some p → p % 4096 = 0 ∧ (T.mid (px 2 va)).isSome) :
    walk r va false s = .ok (T.pte va, s) := by
  rw [walk, if_neg (by omega)]
  cases hm : T.mid (px 2 va) with
  | none =>
    rw [hm] at hroot
    have hl : T.low (px 2 va) (px 1 va) = none := by
      by_contra hne
      obtain ⟨x, hx⟩ := Option.ne_none_iff_exists'.1 hne
      have := (hlow x hx).2
      rw [hm] at this
      cases this
    rw [run_bind (walkLevel_none hroot), Tree.pte, hl]
    rfl
  | some mid =>
    rw [hm] at hroot
    obtain ⟨hal, he⟩ := hmid mid hm
    rw [run_bind (walkLevel_valid hal hroot)]
    cases hl : T.low (px 2 va) (px 1 va) with
    | none =>
      rw [hl] at he
      simp only [run_bind (walkLevel_none he), Tree.pte, hl]
      rfl
    | some low =>
      rw [hl] at he
      simp only [run_bind (walkLevel_valid (hlow low hl).1 he), Tree.pte, hl]
      rfl

theorem walk_spec (h : VmOk L s own tabs) (hT : tabs r = some T) (hva : va < MAXVA) :
    walk r va false s = .ok (T.pte va, s) := by
  have ht := h.table r T hT
  refine walk_tables hva (ht.root_entry _ (px_lt _ _)) (fun p hp => ?_) fun p hp => ?_
  · exact ⟨h.aligned (ht.mid_own _ _ hp).2, ht.mid_entry _ _ hp _ (px_lt _ _)⟩
  · exact ⟨h.aligned (ht.low_own _ _ _ hp).2.2, (ht.low_own _ _ _ hp).2.1⟩

theorem frame_link (h : VmOk L s own tabs) (hp : own p = some .free) (hm : OnlyPage p s.mem m)
    {a o' : Owner} (hq : own q = some a) (ha : a.IsTable r) (hm' : OnlyPage q m t.mem)
    (ho' : o'.IsTable r) : Frame (Tables r) s own t (Function.update own p (some o')) := by
  have hpq : q ≠ p := by
    rintro rfl
    rw [hp] at hq
    cases Option.some.inj hq
    cases ha.1
  have h₁ : Frame (Also (Tables r) p) s own { t with mem := m } own :=
    frame_page (fun x a hx => h.aligned hx) hm fun _ _ => rfl
  have h₂ : Frame (Tables r) { t with mem := m } own t own :=
    frame_write (fun x a hx => h.aligned hx) hm' hq (.inr ha)
  have h₃ : Frame (Also (Tables r) p) t own t (Function.update own p (some o')) :=
    frame_page (fun x a hx => h.aligned hx) (OnlyPage.refl _ _) fun x hx => Function.update_of_ne hx _ _
  exact ((h₁.trans (h₂.also p)).trans h₃).close hp (.inl rfl) (Function.update_self _ _ _) (.inr ho')

theorem walkLevel_root (va : ℕ) (h : VmOk L s own tabs) (hT : tabs r = some T) :
    ∃ o t own' T', walkLevel r va 2 true s = .ok (o, t) ∧ Effect L (Tables r) r s own tabs t own' T' ∧
      T'.leaf = T.leaf ∧ ∀ p, o = some p → T'.mid (px 2 va) = some p := by
  have ht := h.table r T hT
  have he := ht.root_entry (px 2 va) (px_lt _ _)
  cases hm : T.mid (px 2 va) with
  | some p =>
    rw [hm] at he
    have hp := h.aligned (ht.mid_own _ _ hm).2
    refine ⟨some p, s, own, T, walkLevel_valid hp he, Effect.refl h hT, rfl, fun x hx => hm.trans hx⟩
  | none =>
    rw [hm] at he
    obtain ⟨o, t, hrun, ⟨rfl, rfl⟩ | ⟨p, t', rfl, hfree, hvm, hz, honly, rfl⟩⟩ :=
      walkLevel_alloc h va he
    · exact ⟨none, t, own, T, hrun, Effect.refl h hT, rfl, by simp⟩
    · have hheld : Function.update own p (some Owner.held) p = some .held := by simp
      have hadd := hvm.addMid hT hheld hz (px_lt 2 va) hm
      rw [Function.update_idem] at hadd
      refine ⟨some p, _, _, _, hrun, ⟨hadd, ?_⟩, rfl, by simp⟩
      have hstore : OnlyPage r t'.mem (store 8 t'.mem (r + 8 * px 2 va) (mkPte p PTE_V)) :=
        onlyPage_of_eqOutside (store_eqOutside _ _ _ _) (h.aligned ht.root_own) (by omega)
          (by have := px_lt 2 va; omega)
      exact frame_link h hfree honly ht.root_own (isTable_root r) hstore (isTable_mid r _)

theorem walkLevel_mid (va : ℕ) (h : VmOk L s own tabs) (hT : tabs r = some T)
    (hm : T.mid (px 2 va) = some q) :
    ∃ o t own' T', walkLevel q va 1 true s = .ok (o, t) ∧ Effect L (Tables r) r s own tabs t own' T' ∧
      T'.leaf = T.leaf ∧ ∀ p, o = some p → T'.low (px 2 va) (px 1 va) = some p := by
  have ht := h.table r T hT
  have he := ht.mid_entry _ _ hm (px 1 va) (px_lt _ _)
  have hq := (ht.mid_own _ _ hm).2
  cases hl : T.low (px 2 va) (px 1 va) with
  | some p =>
    rw [hl] at he
    have hp := h.aligned (ht.low_own _ _ _ hl).2.2
    refine ⟨some p, s, own, T, walkLevel_valid hp he, Effect.refl h hT, rfl, fun x hx => hl.trans hx⟩
  | none =>
    rw [hl] at he
    obtain ⟨o, t, hrun, ⟨rfl, rfl⟩ | ⟨p, t', rfl, hfree, hvm, hz, honly, rfl⟩⟩ :=
      walkLevel_alloc h va he
    · exact ⟨none, t, own, T, hrun, Effect.refl h hT, rfl, by simp⟩
    · have hheld : Function.update own p (some Owner.held) p = some .held := by simp
      have hadd := hvm.addLow hT hheld hz hm (px_lt 1 va) hl
      rw [Function.update_idem] at hadd
      refine ⟨some p, _, _, _, hrun, ⟨hadd, ?_⟩, rfl, by simp⟩
      have hstore : OnlyPage q t'.mem (store 8 t'.mem (q + 8 * px 1 va) (mkPte p PTE_V)) :=
        onlyPage_of_eqOutside (store_eqOutside _ _ _ _) (h.aligned hq) (by omega)
          (by have := px_lt 1 va; omega)
      exact frame_link h hfree honly hq (isTable_mid r _) hstore (isTable_low r _ _)

/-- `walk` with `alloc` fails, or finds or makes the leaf table of the address. -/
theorem walk_alloc_spec (h : VmOk L s own tabs) (hT : tabs r = some T) (hva : va < MAXVA) :
    ∃ a t own' T', walk r va true s = .ok (a, t) ∧ Effect L (Tables r) r s own tabs t own' T' ∧
      T'.leaf = T.leaf ∧ (a = 0 ∨ ∃ q, T'.low (px 2 va) (px 1 va) = some q ∧ a = q + 8 * px 0 va) := by
  rw [walk, if_neg (by omega)]
  obtain ⟨o, t₁, own₁, T₁, hrun₁, he₁, hleaf₁, hmid⟩ := walkLevel_root va h hT
  rw [run_bind hrun₁]
  cases o with
  | none => exact ⟨0, t₁, own₁, T₁, rfl, he₁, hleaf₁, .inl rfl⟩
  | some m =>
    obtain ⟨o, t₂, own₂, T₂, hrun₂, he₂, hleaf₂, hlow⟩ :=
      walkLevel_mid va he₁.vm (Function.update_self _ _ _) (hmid m rfl)
    simp only [run_bind hrun₂]
    have hleaf : T₂.leaf = T.leaf := hleaf₂.trans hleaf₁
    cases o with
    | none => exact ⟨0, t₂, own₂, T₂, rfl, he₁.trans he₂, hleaf, .inl rfl⟩
    | some q => exact ⟨_, t₂, own₂, T₂, rfl, he₁.trans he₂, hleaf, .inr ⟨q, hlow q rfl, rfl⟩⟩


/-! ## `mappages` -/

theorem run_mappages (va pa perm : ℕ) (hva : va % 4096 = 0) :
    mappages r va PGSIZE pa perm = mapLoop r perm 1 va pa := by
  rw [mappages, if_neg (by unfold PGSIZE; omega), if_neg (by decide), if_neg (by decide)]
  rfl

theorem lt_maxva_of_lt_utop (hv : va / 4096 < UTOP) : va < MAXVA := by
  unfold UTOP TRAPFRAME TRAMPOLINE MAXVA PGSIZE at hv
  unfold MAXVA
  omega

/-- The word that `walk` finds for a mapped or unmapped address. -/
theorem TableOk.entry (ht : TableOk m own r T) (hva : va < MAXVA)
    (hl : T.low (px 2 va) (px 1 va) = some q) :
    load 8 m (q + 8 * px 0 va) = T.leaf (va / 4096) := by
  rw [ht.low_entry _ _ _ hl _ (px_lt _ _), vpn_px hva]

/-- Mapping one page at an unmapped address: no memory for the tables, or a store to the entry. -/
theorem mappages_walk (h : VmOk L s own tabs) (hT : tabs r = some T) (hva : va % 4096 = 0)
    (hlt : va < MAXVA) (hnone : T.leaf (va / 4096) = 0) (pa perm : ℕ) :
    ∃ t own' T', Effect L (Tables r) r s own tabs t own' T' ∧ T'.leaf = T.leaf ∧
      (mappages r va PGSIZE pa perm s = .ok (-1, t) ∨
        ∃ q, T'.low (px 2 va) (px 1 va) = some q ∧ mappages r va PGSIZE pa perm s =
          .ok (0, { t with mem := store 8 t.mem (q + 8 * px 0 va) (mkPte pa (perm ||| PTE_V)) })) := by
  obtain ⟨a, t, own', T', hrun, he, hleaf, rfl | ⟨q, hl, rfl⟩⟩ := walk_alloc_spec h hT hlt
  · refine ⟨t, own', T', he, hleaf, .inl ?_⟩
    rw [run_mappages _ _ _ hva, mapLoop, run_bind hrun, if_pos rfl]
    rfl
  · have ht := he.vm.table r T' (Function.update_self _ _ _)
    have hq := he.vm.ne_zero (ht.low_own _ _ _ hl).2.2
    have hentry : load 8 t.mem (q + 8 * px 0 va) = 0 := by
      rw [ht.entry hlt hl, hleaf, hnone]
    refine ⟨t, own', T', he, hleaf, .inr ⟨q, hl, ?_⟩⟩
    rw [run_mappages _ _ _ hva, mapLoop, run_bind hrun, if_neg (by omega),
      run_bind (run_getWord _ _), hentry, if_neg (by simp), run_bind (run_setWord _ _ _), mkPte_lor]
    rfl

theorem lor_valid {perm : ℕ} (hperm : perm < 1024) (hR : perm &&& PTE_R ≠ 0) :
    perm ||| PTE_V < 1024 ∧ (perm ||| PTE_V) % 2 = 1 ∧ (perm ||| PTE_V) &&& PTE_R ≠ 0 := by
  refine ⟨Nat.or_lt_two_pow (n := 10) hperm (by decide), ?_, ?_⟩
  · rw [← Nat.and_one_is_mod, PTE_V, Nat.and_or_distrib_right]
    have := Nat.and_one_is_mod perm
    rcases Nat.mod_two_eq_zero_or_one perm with h₀ | h₀ <;> rw [this, h₀] <;> rfl
  · rw [Nat.and_or_distrib_right]
    exact fun e => hR (Nat.or_eq_zero_iff.1 e).1

theorem mappages_user_spec (h : VmOk L s own tabs) (hT : tabs r = some T) (hva : va % 4096 = 0)
    (hv : va / 4096 < UTOP) (hnone : T.leaf (va / 4096) = 0) (hp : own p = some .held) {perm : ℕ}
    (hperm : perm < 1024) (hR : perm &&& PTE_R ≠ 0) :
    ∃ res t own' T', mappages r va PGSIZE p perm s = .ok (res, t) ∧
      (res = -1 ∧ Effect L (Tables r) r s own tabs t own' T' ∧ T'.leaf = T.leaf ∨
        res = 0 ∧ Effect L (Also (Tables r) p) r s own tabs t own' T' ∧
          own' p = some (.user r (va / 4096)) ∧ SamePage s.mem t.mem p ∧
          T'.leaf = Function.update T.leaf (va / 4096) (mkPte p (perm ||| PTE_V))) := by
  have hlt := lt_maxva_of_lt_utop hv
  obtain ⟨t, own', T', he, hleaf, hrun | ⟨q, hl, hrun⟩⟩ := mappages_walk h hT hva hlt hnone p perm
  · exact ⟨-1, t, own', T', hrun, .inl ⟨rfl, he, hleaf⟩⟩
  obtain ⟨hp', hsame⟩ := he.frame.keep p .held (by simp [Tables, Owner.IsTable, Owner.table]) hp
  obtain ⟨hf, hf₁, hf₂⟩ := lor_valid hperm hR
  have hT' : Function.update tabs r (some T') r = some T' := Function.update_self _ _ _
  have hpx := vpn_px hlt
  have hqo := ((he.vm.table r T' hT').low_own _ _ _ hl).2.2
  have hvm := he.vm.mapUser hT' hl (px_lt 0 va) hp' (hpx ▸ hv) (by rw [hpx, hleaf, hnone]) hf hf₁ hf₂
  have honly := store_leaf_onlyPage he.vm hT' hl (px_lt 0 va) (mkPte p (perm ||| PTE_V))
  have hpq : p ≠ q := by
    rintro rfl
    rw [hp'] at hqo
    cases hqo
  rw [hpx, Function.update_idem] at hvm
  refine ⟨0, _, _, _, hrun, .inr ⟨rfl, ⟨hvm, ?_⟩, Function.update_self _ _ _, ?_, ?_⟩⟩
  · have hst : Frame (Tables r) t own'
        { t with mem := store 8 t.mem (q + 8 * px 0 va) (mkPte p (perm ||| PTE_V)) } own' :=
      frame_write (fun x a hx => he.vm.aligned hx) honly hqo (.inr (isTable_low r _ _))
    exact ((he.frame.trans hst).also p).trans (frame_page (fun x a hx => he.vm.aligned hx)
      (OnlyPage.refl _ _) fun x hx => Function.update_of_ne hx _ _)
  · exact hsame.trans (honly p (he.vm.aligned hp') hpq)
  · rw [Tree.setLeaf, hleaf]

theorem mappages_other_spec (va perm : ℕ) {pa : ℕ} (h : VmOk L s own tabs) (hT : tabs r = some T)
    (hva : va % 4096 = 0) (hv : UTOP ≤ va / 4096) (hlt : va < MAXVA) (hnone : T.leaf (va / 4096) = 0)
    (hpa : pa % 4096 = 0) (hpa' : pa < PHYSTOP) (hperm : perm < 1024) (hR : perm &&& PTE_R ≠ 0) :
    ∃ res t own' T', mappages r va PGSIZE pa perm s = .ok (res, t) ∧
      Effect L (Tables r) r s own tabs t own' T' ∧
      (res = -1 ∧ T'.leaf = T.leaf ∨
        res = 0 ∧ T'.leaf = Function.update T.leaf (va / 4096) (mkPte pa (perm ||| PTE_V))) := by
  obtain ⟨t, own', T', he, hleaf, hrun | ⟨q, hl, hrun⟩⟩ := mappages_walk h hT hva hlt hnone pa perm
  · exact ⟨-1, t, own', T', hrun, he, .inl ⟨rfl, hleaf⟩⟩
  obtain ⟨hf, hf₁, hf₂⟩ := lor_valid hperm hR
  have hT' : Function.update tabs r (some T') r = some T' := Function.update_self _ _ _
  have hqo := ((he.vm.table r T' hT').low_own _ _ _ hl).2.2
  have hpte : pte2pa (mkPte pa (perm ||| PTE_V)) = pa := pte2pa_mkPte hpa hf
  have hok : LeafOk own' r (vpn (px 2 va) (px 1 va) (px 0 va)) (mkPte pa (perm ||| PTE_V)) :=
    { flags := ⟨_, hf, by rw [hpte], hf₁, hf₂⟩
      aligned := by rw [hpte]; exact hpa
      below := by rw [hpte]; exact hpa'
      owner := fun hu => by rw [vpn_px hlt] at hu; omega }
  have hne : mkPte pa (perm ||| PTE_V) ≠ 0 := by
    rw [mkPte_eq hf]
    omega
  have hvm := he.vm.mapOther hT' hl (px_lt 0 va) hne (mkPte_lt hpa' hf) hok
    (fun hu => by rw [vpn_px hlt] at hu; omega)
  rw [vpn_px hlt, Function.update_idem] at hvm
  refine ⟨0, _, _, _, hrun, ⟨hvm, he.frame.trans ?_⟩, .inr ⟨rfl, by rw [Tree.setLeaf, hleaf]⟩⟩
  exact frame_write (fun x a hx => he.vm.aligned hx) (store_leaf_onlyPage he.vm hT' hl (px_lt 0 va) _)
    hqo (.inr (isTable_low r _ _))


/-! ## `uvmunmap` -/

theorem TableOk.mapped (ht : TableOk m own r T) (hlt : va < MAXVA) (hleaf : T.leaf (va / 4096) ≠ 0) :
    ∃ q, T.low (px 2 va) (px 1 va) = some q ∧ T.pte va = q + 8 * px 0 va ∧
      own q = some (.low r (px 2 va) (px 1 va)) := by
  rw [← vpn_px hlt] at hleaf
  obtain ⟨q, hq⟩ := Option.isSome_iff_exists.1 (ht.leaf_low _ _ _ (px_lt _ _) (px_lt _ _) hleaf)
  exact ⟨q, hq, by rw [Tree.pte, hq], (ht.low_own _ _ _ hq).2.2⟩

theorem LeafOk.valid {v w : ℕ} (h : LeafOk own r v w) : w &&& PTE_V ≠ 0 := by
  obtain ⟨f, hf, hw, hf₁, -⟩ := h.flags
  rw [hw, mkPte_and hf (by decide), and_PTE_V, hf₁]
  exact one_ne_zero

theorem LeafOk.isLeaf {v w : ℕ} (h : LeafOk own r v w) : pteFlags w ≠ PTE_V := by
  obtain ⟨f, hf, hw, -, hf₂⟩ := h.flags
  rw [hw, pteFlags_mkPte hf]
  rintro rfl
  exact hf₂ rfl

theorem LeafOk.rwx {v w : ℕ} (h : LeafOk own r v w) : w &&& (PTE_R ||| PTE_W ||| PTE_X) ≠ 0 := by
  obtain ⟨f, hf, hw, -, hf₂⟩ := h.flags
  rw [hw, mkPte_and hf (by decide), Nat.and_or_distrib_left, Nat.and_or_distrib_left]
  exact fun e => hf₂ (Nat.or_eq_zero_iff.1 (Nat.or_eq_zero_iff.1 e).1).1

theorem run_unmapLoop (h : VmOk L s own tabs) (hT : tabs r = some T) (hlt : va < MAXVA)
    (hleaf : T.leaf (va / 4096) ≠ 0) (hl : T.low (px 2 va) (px 1 va) = some q) (doFree : Bool)
    (n : ℕ) : unmapLoop L r doFree (n + 1) va s =
      (do
        if doFree then kfree L (pte2pa (T.leaf (va / 4096))) else pure ()
        setWord (q + 8 * px 0 va) 0
        unmapLoop L r doFree n (va + PGSIZE) : K Unit) s := by
  have ht := h.table r T hT
  have hok := ht.leaf_ok _ hleaf
  have hq := h.ne_zero (ht.low_own _ _ _ hl).2.2
  have hpte : T.pte va = q + 8 * px 0 va := by rw [Tree.pte, hl]
  rw [unmapLoop, run_bind (walk_spec h hT hlt), hpte, if_neg (by omega), run_bind (run_getWord _ _),
    ht.entry hlt hl, if_neg hok.valid, if_neg hok.isLeaf]

/-- `kfree` of a page and a store to another one commute. -/
theorem freed_store {k w : ℕ} (hp : p % 4096 = 0) (hq : q % 4096 = 0) (hpq : p ≠ q) (hk : k < 512) :
    store 8 (freed s p) (q + 8 * k) w =
      freed { s with mem := store 8 s.mem (q + 8 * k) w } p := by
  unfold freed PGSIZE
  rw [store_comm _ _ _ _ _ (by omega), fill_store_comm _ _ _ _ (by omega)]

theorem unmapLoop_user (h : VmOk L s own tabs) (hT : tabs r = some T) (hv : va / 4096 < UTOP)
    (hleaf : T.leaf (va / 4096) ≠ 0) :
    ∃ t own' T', Effect L (Space r (va / 4096)) r s own tabs t own' T' ∧
      T'.leaf = Function.update T.leaf (va / 4096) 0 ∧
      ∀ n, unmapLoop L r true (n + 1) va s = unmapLoop L r true n (va + PGSIZE) t := by
  have hlt := lt_maxva_of_lt_utop hv
  have ht := h.table r T hT
  obtain ⟨q, hl, -, hqo⟩ := ht.mapped hlt hleaf
  have hpo := (ht.leaf_ok _ hleaf).owner hv
  obtain ⟨p, hp⟩ : ∃ p, pte2pa (T.leaf (va / 4096)) = p := ⟨_, rfl⟩
  rw [hp] at hpo
  have hpq : p ≠ q := by
    rintro e
    rw [e, hqo] at hpo
    cases hpo
  have hpx := vpn_px hlt
  have hun := h.unmapUser hT hl (px_lt 0 va) (hpx ▸ hv) (hpx ▸ hleaf)
  rw [hpx, hp] at hun
  have hvm := hun.kfree (Function.update_self _ _ _)
  rw [Function.update_idem, ← freed_store (h.aligned hpo) (h.aligned hqo) hpq (px_lt 0 va)] at hvm
  refine ⟨_, _, _, ⟨hvm, ?_⟩, rfl, fun n => ?_⟩
  · have h₁ : Frame (Also (Space r (va / 4096)) p) s own ⟨freed s p, p, false⟩
        (Function.update own p (some .free)) :=
      frame_page (fun x a hx => h.aligned hx) (freed_onlyPage s (h.aligned hpo))
        fun x hx => Function.update_of_ne hx _ _
    have h₂ := h₁.close hpo (.inr (.inr ⟨_, le_rfl, rfl⟩)) (Function.update_self _ _ _) (.inl rfl)
    have honly : OnlyPage q (freed s p) (store 8 (freed s p) (q + 8 * px 0 va) 0) :=
      onlyPage_of_eqOutside (store_eqOutside _ _ _ _) (h.aligned hqo) (by omega)
        (by have := px_lt 0 va; omega)
    exact h₂.trans (frame_write (fun x a hx => hvm.aligned hx) honly
      ((Function.update_of_ne hpq.symm _ _).trans hqo) (.inr (.inl (isTable_low r _ _))))
  · rw [run_unmapLoop h hT hlt hleaf hl, if_pos rfl, hp, run_bind (run_kfree h hpo (by simp))]
    exact run_bind (run_setWord _ _ _)

theorem unmapLoop_other (h : VmOk L s own tabs) (hT : tabs r = some T) (hv : UTOP ≤ va / 4096)
    (hlt : va < MAXVA) (hleaf : T.leaf (va / 4096) ≠ 0) :
    ∃ t T', Effect L (Tables r) r s own tabs t own T' ∧
      T'.leaf = Function.update T.leaf (va / 4096) 0 ∧
      ∀ n, unmapLoop L r false (n + 1) va s = unmapLoop L r false n (va + PGSIZE) t := by
  have ht := h.table r T hT
  obtain ⟨q, hl, -, hqo⟩ := ht.mapped hlt hleaf
  have hvm := h.unmapOther hT hl (px_lt 0 va) (vpn_px hlt ▸ hv)
  rw [vpn_px hlt] at hvm
  refine ⟨_, _, ⟨hvm, ?_⟩, rfl, fun n => ?_⟩
  · exact frame_write (fun x a hx => h.aligned hx) (store_leaf_onlyPage h hT hl (px_lt 0 va) _)
      hqo (.inr (isTable_low r _ _))
  · rw [run_unmapLoop h hT hlt hleaf hl, if_neg (by simp)]
    exact run_bind (run_setWord _ _ _)

theorem uvmunmap_spec (va : ℕ) {n : ℕ} (h : VmOk L s own tabs) (hT : tabs r = some T)
    (hva : va % 4096 = 0) (hn : va / 4096 + n ≤ UTOP) (hleaf : ∀ v, va / 4096 ≤ v → v < va / 4096 + n → T.leaf v ≠ 0) :
    ∃ t own' T', uvmunmap L r va n true s = .ok ((), t) ∧
      Effect L (Space r (va / 4096)) r s own tabs t own' T' ∧
      ∀ v, T'.leaf v = if va / 4096 ≤ v ∧ v < va / 4096 + n then 0 else T.leaf v := by
  rw [uvmunmap, if_neg (by unfold PGSIZE; omega)]
  induction n generalizing va s own tabs T with
  | zero => exact ⟨s, own, T, rfl, Effect.refl h hT, fun v => by rw [if_neg (by omega)]⟩
  | succ n ih =>
    obtain ⟨t, own₁, T₁, he, hl, hrun⟩ :=
      unmapLoop_user h hT (by omega) (hleaf (va / 4096) le_rfl (by omega))
    have hnext : (va + PGSIZE) / 4096 = va / 4096 + 1 := by
      unfold PGSIZE
      omega
    obtain ⟨u, own₂, T₂, hrun', he', hl'⟩ := ih (va + PGSIZE) he.vm
      (Function.update_self _ _ _) (by unfold PGSIZE; omega) (by omega) (fun v h₁ h₂ => by
        rw [hl, Function.update_of_ne (by omega)]
        exact hleaf v (by omega) (by omega))
    refine ⟨u, own₂, T₂, (hrun n).trans hrun', he.trans (he'.mono fun x o =>
      Space.mono (by omega)), fun v => ?_⟩
    rw [hl', hl, hnext]
    by_cases e : v = va / 4096
    · rw [e, Function.update_self, if_neg (by omega), if_pos (by omega)]
    · rw [Function.update_of_ne e]
      refine if_congr ?_ rfl rfl
      omega

theorem uvmunmap_other_spec (va : ℕ) (h : VmOk L s own tabs) (hT : tabs r = some T)
    (hva : va % 4096 = 0) (hv : UTOP ≤ va / 4096) (hlt : va < MAXVA) (hleaf : T.leaf (va / 4096) ≠ 0) :
    ∃ t T', uvmunmap L r va 1 false s = .ok ((), t) ∧ Effect L (Tables r) r s own tabs t own T' ∧
      T'.leaf = Function.update T.leaf (va / 4096) 0 := by
  rw [uvmunmap, if_neg (by unfold PGSIZE; omega)]
  obtain ⟨t, T', he, hl, hrun⟩ := unmapLoop_other h hT hv hlt hleaf
  exact ⟨t, T', hrun 0, he, hl⟩

end Xv6.Vm
