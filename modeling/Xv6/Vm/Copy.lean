import Xv6.Vm.Freewalk

/-!
# New address spaces and their contents

`uvmcreate`, `uvmcopy`, `uvmclear` and the functions that write to user memory.
-/

namespace Xv6.Vm

open Memory Kernel Kalloc

variable {L : Layout} {s t u : Phys} {m m' : Mem} {own own' own'' : Owners}
  {tabs : ℕ → Option Tree} {r p q va : ℕ} {T T' : Tree} {o : Owner}

theorem uvmcreate_spec (h : VmOk L s own tabs) :
    ∃ p t, uvmcreate s = .ok (p, t) ∧ (p = 0 ∧ t = s ∨ p ≠ 0 ∧ tabs p = none ∧
      ∃ own', VmOk L t own' (Function.update tabs p (some .empty)) ∧
        Frame (Space p 0) s own t own') := by
  obtain ⟨p, t, hrun, ⟨rfl, rfl⟩ | ⟨hp, hfree, hvm, honly, -⟩⟩ := kalloc_zero h
  · refine ⟨0, t, ?_, .inl ⟨rfl, rfl⟩⟩
    rw [uvmcreate, run_bind hrun]
    rfl
  have hheld : Function.update own p (some Owner.held) p = some .held := Function.update_self _ _ _
  have hnew := hvm.newTable hheld (zeroPage_fill _ _)
  rw [Function.update_idem] at hnew
  refine ⟨p, _, ?_, .inr ⟨hp, h.no_table hfree (by simp), _, hnew, ?_⟩⟩
  · rw [uvmcreate, run_bind hrun, if_neg hp, run_bind (run_memset _ _ _)]
    rfl
  · have hframe : Frame (Also (Space p 0) p) s own { t with mem := fill t.mem p PGSIZE 0 }
        (Function.update own p (some (.root p))) :=
      frame_page (fun x a hx => h.aligned hx) honly fun x hx => Function.update_of_ne hx _ _
    exact hframe.close hfree (.inl rfl) (Function.update_self _ _ _) (.inr (.inl (isTable_root p)))

/-! ## `uvmcopy` -/

/-- The page of entry `w'` is a copy of the page of entry `w`, with the same flags. -/
def Copied (m m' : Mem) (w w' : ℕ) : Prop :=
  pteFlags w' = pteFlags w ∧ ∀ x < 4096, m' (pte2pa w' + x) = m (pte2pa w + x)

theorem Copied.of_samePage {m₀ m₁ : Mem} {w w' : ℕ} (h : Copied m m' w w')
    (h₀ : SamePage m₀ m (pte2pa w)) (h₁ : SamePage m' m₁ (pte2pa w')) : Copied m₀ m₁ w w' := by
  refine ⟨h.1, fun x hx => ?_⟩
  rw [h₁ _ (by omega) (by omega), h.2 x hx, h₀ _ (by omega) (by omega)]

/-- The flags of an entry are those of the copy that `uvmcopy` makes. -/
theorem LeafOk.copy_flags {v w : ℕ} (h : LeafOk own r v w) :
    pteFlags w < 1024 ∧ pteFlags w &&& PTE_R ≠ 0 ∧ pteFlags w ||| PTE_V = pteFlags w := by
  obtain ⟨f, hf, hw, hf₁, hf₂⟩ := h.flags
  rw [hw, pteFlags_mkPte hf]
  refine ⟨hf, hf₂, ?_⟩
  refine Nat.eq_of_testBit_eq fun i => ?_
  rw [Nat.testBit_or]
  cases i with
  | zero => simp [hf₁]
  | succ i => simp [PTE_V, Nat.testBit_succ]

theorem uvmcopy_undo {k : ℕ} (h : VmOk L s own tabs) (hT : tabs r = some T) (hm : Mapped T k) :
    ∃ t own' T', uvmunmap L r 0 k true s = .ok ((), t) ∧
      Effect L (Space r 0) r s own tabs t own' T' ∧ Mapped T' 0 ∧ Keeps 0 T T' := by
  have hle := hm.le
  obtain ⟨t, own', T', hrun, he, hl⟩ := uvmunmap_spec 0 (n := k) h hT rfl
    (by omega) fun v _ hv => (hm.leaf v (by omega)).2 (by omega)
  refine ⟨t, own', T', hrun, he, ⟨Nat.zero_le _, fun v hv => ?_⟩, fun v hv => ?_⟩
  · rw [hl v]
    have := hm.leaf v hv
    split_ifs with hc
    · simp
    · rw [this]
      omega
  · rw [hl v, if_neg (by omega)]

theorem run_copyLoop {old new n k : ℕ} (h : VmOk L s own tabs) (hT : tabs old = some T)
    (hk : k < UTOP) (hleaf : T.leaf k ≠ 0) : copyLoop L old new (n + 1) (4096 * k) s =
      (do
        let mem ← kalloc
        if mem = 0 then do
          uvmunmap L new 0 k true
          pure (-1)
        else do
          modify fun s => { s with mem := copy s.mem mem (pte2pa (T.leaf k)) PGSIZE }
          let r ← mappages new (4096 * k) PGSIZE mem (pteFlags (T.leaf k))
          if r ≠ 0 then do
            kfree L mem
            uvmunmap L new 0 k true
            pure (-1)
          else copyLoop L old new n (4096 * (k + 1)) : K ℤ) s := by
  have hdiv : 4096 * k / 4096 = k := by omega
  have hlt : 4096 * k < MAXVA := lt_maxva_of_lt_utop (by omega)
  have ht := h.table old T hT
  obtain ⟨q, hl, hpte, hqo⟩ := ht.mapped hlt (by rwa [hdiv])
  have hentry := ht.entry hlt hl
  have hqne := h.ne_zero hqo
  rw [hdiv] at hentry
  rw [copyLoop, run_bind (walk_spec h hT hlt), hpte, if_neg (by omega), run_bind (run_getWord _ _),
    hentry, if_neg (ht.leaf_ok k hleaf).valid, show 4096 * k / PGSIZE = k from hdiv,
    show 4096 * k + PGSIZE = 4096 * (k + 1) by unfold PGSIZE; omega]

theorem copy_fresh {pa : ℕ} (h : VmOk L s own tabs) (hpa : own pa = some o) (hne : pa ≠ p)
    (hp : own p = some .free) (ht : VmOk L t (Function.update own p (some .held)) tabs)
    (honly : OnlyPage p s.mem t.mem) :
    VmOk L { t with mem := copy t.mem p pa PGSIZE } (Function.update own p (some .held)) tabs ∧
      OnlyPage p s.mem (copy t.mem p pa PGSIZE) ∧
      ∀ x < 4096, copy t.mem p pa PGSIZE (p + x) = s.mem (pa + x) := by
  have honly' : OnlyPage p t.mem (copy t.mem p pa PGSIZE) :=
    onlyPage_of_eqOutside (copy_eqOutside _ _ _ _) (h.aligned hp) le_rfl le_rfl
  refine ⟨ht.write_page (Function.update_self _ _ _) (by simp) (fun r hr => by cases hr.1) honly',
    honly.trans honly', fun x hx => ?_⟩
  rw [copy, if_pos ⟨by omega, by unfold PGSIZE; omega⟩, Nat.add_sub_cancel_left]
  exact honly pa (h.aligned hpa) hne (pa + x) (by omega) (by omega)

theorem copyLoop_spec {old new n k : ℕ} {To : Tree} (hne : old ≠ new) (h : VmOk L s own tabs)
    (hTo : tabs old = some To) (hT : tabs new = some T) (hmo : Mapped To (k + n)) (hm : Mapped T k) :
    ∃ res t own' T', copyLoop L old new n (4096 * k) s = .ok (res, t) ∧
      (res = -1 ∧ Effect L (Space new 0) new s own tabs t own' T' ∧ Mapped T' 0 ∧ Keeps 0 T T' ∨
        res = 0 ∧ Effect L (Space new k) new s own tabs t own' T' ∧ Mapped T' (k + n) ∧
          Keeps k T T' ∧
          ∀ v, k ≤ v → v < k + n → Copied s.mem t.mem (To.leaf v) (T'.leaf v)) := by
  induction n generalizing k s own tabs T with
  | zero =>
    exact ⟨0, s, own, T, rfl, .inr ⟨rfl, Effect.refl h hT, hm, Keeps.refl _ _,
      fun v h₁ h₂ => absurd h₂ (by omega)⟩⟩
  | succ n ih =>
    have hk := h.mapped_lt hT hm
    have hdiv : 4096 * k / 4096 = k := by omega
    have huser {v : ℕ} (hv : v < k + (n + 1)) : own (pte2pa (To.leaf v)) = some (.user old v) := by
      have hu := hv.trans_le hmo.le
      exact ((h.table old To hTo).leaf_ok v ((hmo.leaf v hu).2 hv)).owner hu
    have hleaf : To.leaf k ≠ 0 := (hmo.leaf k hk).2 (by omega)
    have hold := huser (show k < k + (n + 1) by omega)
    rw [run_copyLoop h hTo hk hleaf]
    obtain ⟨p, t, hrun, ⟨rfl, rfl⟩ | ⟨hp, hfree, -, -, hvm, honly⟩⟩ := kalloc_zero h
    · obtain ⟨u, own', T', hrun', he, hm', hkeep⟩ := uvmcopy_undo h hT hm
      refine ⟨-1, u, own', T', ?_, .inl ⟨rfl, he, hm', hkeep⟩⟩
      rw [run_bind hrun, if_pos rfl, run_bind hrun']
      rfl
    have hpne : pte2pa (To.leaf k) ≠ p := fun e => by
      rw [e, hfree] at hold
      cases hold
    obtain ⟨hvm₁, honly₁, hcopy⟩ := copy_fresh h hold hpne hfree hvm honly
    have hok := (h.table old To hTo).leaf_ok k hleaf
    obtain ⟨hperm, hR, hV⟩ := hok.copy_flags
    have hnone : T.leaf k = 0 := by
      by_contra h₀
      exact lt_irrefl k ((hm.leaf k hk).1 h₀)
    obtain ⟨res, u, own', T', hmap, ⟨rfl, u', hkfree, he, hl⟩ | ⟨rfl, he, hown, hsame, hl⟩⟩ :=
      mapFresh (4096 * k) h hT (by omega) (by omega) (by rwa [hdiv]) hfree hvm₁ honly₁ hperm hR
    · obtain ⟨v, own'', T'', hrun', he', hm', hkeep⟩ :=
        uvmcopy_undo he.vm (Function.update_self _ _ _) (hm.congr hl)
      refine ⟨-1, v, own'', T'', ?_, .inl ⟨rfl, (he.mono fun x o => tables_space 0).trans he', hm',
        fun x hx => by rw [hkeep x hx, hl]⟩⟩
      rw [run_bind hrun, if_neg hp, run_bind (run_modify _ _), run_bind hmap, if_pos (by decide),
        run_bind hkfree, run_bind hrun']
      rfl
    · rw [hdiv] at he hl hown
      rw [hV] at hl
      have hT' : Function.update tabs new (some T') old = some To := by
        rw [Function.update_of_ne hne, hTo]
      obtain ⟨res, v, own'', T'', hrun', hres⟩ := ih he.vm hT' (Function.update_self _ _ _)
        (by rwa [show k + 1 + n = k + (n + 1) by omega])
        (hm.succ hk (mkPte_ne_zero he.vm hown _) hl)
      refine ⟨res, v, own'', T'', ?_, ?_⟩
      · rw [run_bind hrun, if_neg hp, run_bind (run_modify _ _), run_bind hmap, if_neg (by simp)]
        exact hrun'
      obtain ⟨rfl, he', hm', hkeep⟩ | ⟨rfl, he', hm', hkeep, hcop⟩ := hres
      · refine .inl ⟨rfl, (he.mono fun x o => Space.mono (Nat.zero_le k)).trans he', hm',
          fun x hx => ?_⟩
        rw [hkeep x hx, hl, Function.update_of_ne (by omega)]
      · refine .inr ⟨rfl, he.trans (he'.mono fun x o => Space.mono (by omega)),
          by rwa [show k + (n + 1) = k + 1 + n by omega], fun x hx => ?_, fun x h₁ h₂ => ?_⟩
        · rw [hkeep x (by omega), hl, Function.update_of_ne (by omega)]
        · by_cases e : x = k
          · have hpo : ¬ Space new (k + 1) p (.user new k) := by
              simp [Space, Owner.IsTable, Owner.table]
            have hsame' := (he'.frame.keep p _ hpo hown).2
            have hpte : T''.leaf x = mkPte p (pteFlags (To.leaf k)) := by
              rw [hkeep x (by omega), hl, e, Function.update_self]
            have hpa : pte2pa (T''.leaf x) = p := by
              rw [hpte, pte2pa_mkPte (h.aligned hfree) hperm]
            refine ⟨by rw [hpte, pteFlags_mkPte hperm, e], fun y hy => ?_⟩
            rw [hpa, hsame' _ (by omega) (by omega), hsame _ (by omega) (by omega), e]
            exact hcopy y hy
          · have hxo : ¬ Space new k (pte2pa (To.leaf x)) (.user old x) := by
              simp [Space, Owner.IsTable, Owner.table, hne]
            have hsame' := (he.frame.keep _ _ hxo (huser (by omega))).2
            exact (hcop x (by omega) (by omega)).of_samePage hsame' (SamePage.refl _ _)

/-- `uvmcopy` gives the new address space copies of all pages of the old one, or nothing. -/
theorem uvmcopy_spec {old new sz : ℕ} {To : Tree} (hne : old ≠ new) (h : VmOk L s own tabs)
    (hTo : tabs old = some To) (hT : tabs new = some T) (hmo : Mapped To (npages sz))
    (hm : Mapped T 0) :
    ∃ res t own' T', uvmcopy L old new sz s = .ok (res, t) ∧
      Effect L (Space new 0) new s own tabs t own' T' ∧ Keeps 0 T T' ∧
      (res = -1 ∧ Mapped T' 0 ∨ res = 0 ∧ Mapped T' (npages sz) ∧
          ∀ v < npages sz, Copied s.mem t.mem (To.leaf v) (T'.leaf v)) := by
  obtain ⟨res, t, own', T', hrun, hres⟩ := copyLoop_spec (n := npages sz) (k := 0) hne h hTo hT
    (by rwa [Nat.zero_add]) hm
  refine ⟨res, t, own', T', hrun, ?_⟩
  rw [Nat.zero_add] at hres
  obtain ⟨rfl, he, hm', hkeep⟩ | ⟨rfl, he, hm', hkeep, hcop⟩ := hres
  · exact ⟨he, hkeep, .inl ⟨rfl, hm'⟩⟩
  · exact ⟨he, hkeep, .inr ⟨rfl, hm', fun v hv => hcop v (Nat.zero_le v) hv⟩⟩

/-! ## `uvmclear` -/

theorem and_not_PTE_U {pa f : ℕ} (hf : f < 1024) (hpa : pa < PHYSTOP) :
    mkPte pa f &&& (2 ^ 64 - 1 - PTE_U) = mkPte pa (f &&& (1023 - PTE_U)) := by
  have hlt : mkPte pa f < 2 ^ 64 := mkPte_lt hpa hf
  have hlow (i : ℕ) (hi : 10 ≤ i) : f.testBit i = false :=
    Nat.testBit_eq_false_of_lt (hf.trans_le (Nat.pow_le_pow_right (n := 2) (by norm_num) hi))
  have hhigh (i : ℕ) (hi : i < 10) : (pa2pte pa).testBit i = false := by
    rw [pa2pte, Nat.testBit_shiftLeft]
    simp [hi]
  refine Nat.eq_of_testBit_eq fun i => ?_
  rw [Nat.testBit_and, show 2 ^ 64 - 1 - PTE_U = 2 ^ 64 - (16 + 1) from rfl,
    Nat.testBit_two_pow_sub_succ (by norm_num), mkPte, mkPte, Nat.testBit_or, Nat.testBit_or,
    Nat.testBit_and, show 1023 - PTE_U = 2 ^ 10 - (16 + 1) from rfl,
    Nat.testBit_two_pow_sub_succ (by norm_num)]
  by_cases hi : i < 10
  · rw [hhigh i hi]
    simp [hi, show i < 64 by omega]
  · rw [hlow i (by omega)]
    by_cases hi' : i < 64
    · have h16 : (16 : ℕ).testBit i = false :=
        Nat.testBit_eq_false_of_lt (lt_of_lt_of_le (by norm_num : 16 < 2 ^ 10)
          (Nat.pow_le_pow_right (by norm_num) (by omega)))
      simp [hi', h16]
    · have hbig : (pa2pte pa).testBit i = false := by
        refine Nat.testBit_eq_false_of_lt (lt_of_le_of_lt Nat.left_le_or (hlt.trans_le ?_))
        exact Nat.pow_le_pow_right (by norm_num) (by omega)
      rw [hbig]
      simp

theorem uvmclear_spec (va : ℕ) (h : VmOk L s own tabs) (hT : tabs r = some T) (hv : va / 4096 < UTOP)
    (hleaf : T.leaf (va / 4096) ≠ 0) :
    ∃ t T' w, uvmclear r va s = .ok ((), t) ∧ Effect L (Tables r) r s own tabs t own T' ∧
      T'.leaf = Function.update T.leaf (va / 4096) w ∧ w ≠ 0 ∧
      pte2pa w = pte2pa (T.leaf (va / 4096)) ∧ w &&& PTE_U = 0 := by
  have hlt := lt_maxva_of_lt_utop hv
  have ht := h.table r T hT
  obtain ⟨q, hl, hpte, hqo⟩ := ht.mapped hlt hleaf
  have hok := ht.leaf_ok _ hleaf
  obtain ⟨f, hf, hw, hf₁, hf₂⟩ := hok.flags
  have hqne := h.ne_zero hqo
  obtain ⟨pa, hpa⟩ : ∃ pa, pte2pa (T.leaf (va / 4096)) = pa := ⟨_, rfl⟩
  rw [hpa] at hw
  have hal : pa % 4096 = 0 := hpa ▸ hok.aligned
  have hbelow : pa < PHYSTOP := hpa ▸ hok.below
  have hf' : f &&& (1023 - PTE_U) < 1024 := lt_of_le_of_lt Nat.and_le_left hf
  have hf₁' : (f &&& (1023 - PTE_U)) % 2 = 1 := by
    rw [← Nat.and_one_is_mod, Nat.land_assoc, show (1023 - PTE_U) &&& 1 = 1 from rfl,
      Nat.and_one_is_mod, hf₁]
  have hf₂' : f &&& (1023 - PTE_U) &&& PTE_R ≠ 0 := by
    rwa [Nat.land_assoc, show (1023 - PTE_U) &&& PTE_R = PTE_R from rfl]
  have hpte' : pte2pa (mkPte pa (f &&& (1023 - PTE_U))) = pa := pte2pa_mkPte hal hf'
  have hne : mkPte pa (f &&& (1023 - PTE_U)) ≠ 0 := by
    rw [mkPte_eq hf']
    omega
  have hvm := h.mapOther hT hl (px_lt 0 va) hne (mkPte_lt hbelow hf')
    { flags := ⟨_, hf', by rw [hpte'], hf₁', hf₂'⟩
      aligned := by rwa [hpte']
      below := by rwa [hpte']
      owner := fun hu => by rw [hpte', ← hpa, vpn_px hlt]; exact hok.owner hv }
    fun _ => by rw [vpn_px hlt, hpte']; exact ⟨hleaf, hpa⟩
  rw [vpn_px hlt] at hvm
  refine ⟨_, _, _, ?_, ⟨hvm, ?_⟩, rfl, hne, hpte'.trans hpa.symm, ?_⟩
  · rw [uvmclear, run_bind (walk_spec h hT hlt), hpte, if_neg (by omega), run_bind (run_getWord _ _),
      ht.entry hlt hl, hw, and_not_PTE_U hf hbelow, run_setWord]
  · exact frame_write (fun x a hx => h.aligned hx) (store_leaf_onlyPage h hT hl (px_lt 0 va) _)
      hqo (.inr (isTable_low r _ _))
  · rw [mkPte_and hf' (by decide), Nat.land_assoc, show (1023 - PTE_U) &&& PTE_U = 0 from rfl,
      Nat.and_zero]

/-! ## Writing to user memory -/

/-- The user pages of `r`. -/
def UserPages (r : ℕ) (_ : ℕ) (o : Owner) : Prop := ∃ v, o = .user r v

theorem VmOk.writeUser {v : ℕ} (h : VmOk L s own tabs) (hp : own p = some (.user r v))
    (hm : OnlyPage p s.mem m') : VmOk L { s with mem := m' } own tabs ∧
      Frame (UserPages r) s own { s with mem := m' } own := by
  refine ⟨h.write_page hp (by simp) (fun r' hr => ?_) hm, ?_⟩
  · obtain rfl := Option.some.inj hr.1
    exact hr.2 v rfl
  · exact frame_write (fun x a hx => h.aligned hx) hm hp ⟨v, rfl⟩

/-- The entry that `walk` finds for an address, if there is one. -/
theorem walk_entry (h : VmOk L s own tabs) (hT : tabs r = some T) (hlt : va < MAXVA) :
    T.pte va = 0 ∨ T.pte va ≠ 0 ∧ load 8 s.mem (T.pte va) = T.leaf (va / 4096) := by
  have ht := h.table r T hT
  rw [Tree.pte]
  cases hl : T.low (px 2 va) (px 1 va) with
  | none => exact .inl rfl
  | some q =>
    have hq := h.ne_zero (ht.low_own _ _ _ hl).2.2
    exact .inr ⟨by simp only []; omega, ht.entry hlt hl⟩

theorem copyoutLoop_spec {n : ℕ} (dstva : ℕ) (src : List (BitVec 8)) (h : VmOk L s own tabs)
    (hT : tabs r = some T) (hU : ∀ v, UTOP ≤ v → T.leaf v &&& PTE_U = 0) :
    ∃ res t, copyoutLoop r n dstva src s = .ok (res, t) ∧ (res = 0 ∨ res = -1) ∧
      VmOk L t own tabs ∧ Frame (UserPages r) s own t own := by
  induction n generalizing s dstva src with
  | zero => exact ⟨0, s, rfl, .inl rfl, h, Frame.refl _ _ _⟩
  | succ n ih =>
    simp only [copyoutLoop]
    split_ifs with hsrc hva
    · exact ⟨0, s, rfl, .inl rfl, h, Frame.refl _ _ _⟩
    · exact ⟨-1, s, rfl, .inr rfl, h, Frame.refl _ _ _⟩
    rw [run_bind (walk_spec h hT (by omega)), run_bind (run_getWord _ _)]
    obtain h₀ | ⟨h₀, hw⟩ := walk_entry h hT (show pgrounddown dstva < MAXVA by omega)
    · exact ⟨-1, s, by rw [if_pos (.inl h₀)]; rfl, .inr rfl, h, Frame.refl _ _ _⟩
    rw [hw]
    split_ifs with hbad
    · exact ⟨-1, s, rfl, .inr rfl, h, Frame.refl _ _ _⟩
    simp only [not_or] at hbad
    obtain ⟨-, hV, hU', -⟩ := hbad
    have hleaf : T.leaf (pgrounddown dstva / 4096) ≠ 0 := fun e => hV (by rw [e]; rfl)
    have hv : pgrounddown dstva / 4096 < UTOP := by
      by_contra hge
      exact hU' (hU _ (by omega))
    have hpo := ((h.table r T hT).leaf_ok _ hleaf).owner hv
    have hoff : dstva - pgrounddown dstva < 4096 := by
      unfold pgrounddown PGSIZE
      omega
    obtain ⟨hvm, hframe⟩ := h.writeUser hpo (onlyPage_of_eqOutside (write_eqOutside s.mem
      (pte2pa (T.leaf (pgrounddown dstva / 4096)) + (dstva - pgrounddown dstva))
      (src.take (min (PGSIZE - (dstva - pgrounddown dstva)) src.length))) (h.aligned hpo)
      (by omega) (by rw [List.length_take]; unfold PGSIZE; omega))
    obtain ⟨res, t, hrun, hres, hvm', hframe'⟩ := ih (pgrounddown dstva + PGSIZE)
      (src.drop (min (PGSIZE - (dstva - pgrounddown dstva)) src.length)) hvm
    refine ⟨res, t, ?_, hres, hvm', hframe.trans hframe'⟩
    rw [run_bind (run_modify _ _)]
    exact hrun

theorem copyout_spec (dstva : ℕ) (src : List (BitVec 8)) (h : VmOk L s own tabs)
    (hT : tabs r = some T) (hU : ∀ v, UTOP ≤ v → T.leaf v &&& PTE_U = 0) :
    ∃ res t, copyout r dstva src s = .ok (res, t) ∧ (res = 0 ∨ res = -1) ∧
      VmOk L t own tabs ∧ Frame (UserPages r) s own t own :=
  copyoutLoop_spec dstva src h hT hU

end Xv6.Vm
