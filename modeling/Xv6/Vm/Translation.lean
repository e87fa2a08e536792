import Xv6.Vm.Radix

/-!
# Page tables are finite maps

The leaves of the tree are the map from virtual pages to entries.  `mappages` sets a range of them and
`uvmunmap` clears a range; both leave the others alone.  A table is made by `uvmcreate` and then changed
by calls of `walk`, `mappages` and `uvmunmap`, between which other code may change all memory but the
pages of the table.
-/

namespace Xv6.Vm

open Memory Kernel Kalloc LinkedList

variable {L : Layout} {s t : Phys} {m m' : Mem} {r p q va i j k w : ℕ} {T T' : Tree} {x y : Place}

/-! ## `mappages` -/

theorem page_setLeaf (T : Tree) (r v w : ℕ) : (T.setLeaf v w).page r = T.page r := by
  funext x
  cases x <;> rfl

theorem Spare.store (h : Spare s r T) (hT : Holds s.mem r T) (hx : T.page r x = some p) (hk : k < 512) (v w : ℕ) :
    Spare { s with mem := Memory.store 8 s.mem (p + 8 * k) w } r (T.setLeaf v w) := by
  obtain ⟨l, hpool, hspare⟩ := h
  refine ⟨l, hpool.congr rfl fun a ha => ?_, fun a ha z hz => ?_⟩
  · exact onlyPage_of_eqOutside (store_eqOutside _ _ _ _) (hT.page x p hx).aligned (by omega) (by omega) a
      (hpool.page a ha).aligned fun e => hspare a ha x (e ▸ hx)
  · rw [page_setLeaf] at hz
    exact hspare a ha z hz

/-- The entry that `mappages` stores. -/
def newPte (pa perm : ℕ) : ℕ := (pa2pte pa ||| perm ||| PTE_V) % 256 ^ 8

theorem newPte_lt (pa perm : ℕ) : newPte pa perm < 256 ^ 8 := Nat.mod_lt _ (by norm_num)

/-- The loop of `mappages` maps a prefix of the range, all of it when it returns 0; it panics only when
the range leaves the address space or a page is mapped already. -/
theorem Holds.mapLoop (h : Holds s.mem r T) (hf : Spare s r T) (perm n a pa : ℕ) :
    (∃ msg, Vm.mapLoop r perm n a pa s = .error msg ∧
      ∃ j < n, MAXVA ≤ a + j * 4096 ∨ T.leaf (a / 4096 + j) &&& PTE_V ≠ 0) ∨
    ∃ res t T' k, Vm.mapLoop r perm n a pa s = .ok (res, t) ∧ Holds t.mem r T' ∧ Spare t r T' ∧
      (res = 0 ∧ k = n ∨ res = -1 ∧ k < n) ∧
      ∀ v, T'.leaf v =
        if a / 4096 ≤ v ∧ v < a / 4096 + k then newPte (pa + (v - a / 4096) * 4096) perm else T.leaf v := by
  induction n generalizing a pa s T with
  | zero =>
    refine .inr ⟨0, s, T, 0, rfl, h, hf, .inl ⟨rfl, rfl⟩, fun v => ?_⟩
    rw [if_neg (by omega)]
  | succ n ih =>
    by_cases hva : a < MAXVA
    swap
    · refine .inl ⟨"walk", ?_, 0, by omega, .inl (by omega)⟩
      rw [Vm.mapLoop, Vm.walk, if_pos (by omega)]
      rfl
    obtain ⟨b, t, T₁, hrun, h₁, hf₁, hleaf, rfl | ⟨q, hl, rfl⟩⟩ := h.walk_alloc hf hva
    · refine .inr ⟨-1, t, T₁, 0, ?_, h₁, hf₁, .inr ⟨rfl, by omega⟩, fun v => ?_⟩
      · rw [Vm.mapLoop, run_bind hrun, if_pos rfl]
        rfl
      · rw [if_neg (by omega), hleaf]
    have hne := (h₁.pte_pos hl).2
    have hword := h₁.load_leaf hva hl
    rw [hleaf] at hword
    by_cases hv : T.leaf (a / 4096) &&& PTE_V ≠ 0
    · refine .inl ⟨"mappages: remap", ?_, 0, by omega, .inr hv⟩
      rw [Vm.mapLoop, run_bind hrun, if_neg hne, run_bind (run_getWord _ _), hword, if_pos hv]
      rfl
    -- the entry is stored, and the loop goes on with the next page
    have h₂ := h₁.setLeaf hl (px_lt 1 a) (px_lt 0 a) (newPte_lt pa perm)
    have hf₂ := hf₁.store (x := .low _ _) h₁ hl (px_lt 0 a) (vpn (px 2 a) (px 1 a) (px 0 a)) (newPte pa perm)
    rw [vpn_px hva] at h₂ hf₂
    have hrun₂ : Vm.mapLoop r perm (n + 1) a pa s = Vm.mapLoop r perm n (a + PGSIZE) (pa + PGSIZE)
        { t with mem := store 8 t.mem (q + 8 * px 0 a) (newPte pa perm) } := by
      rw [Vm.mapLoop, run_bind hrun, if_neg hne, run_bind (run_getWord _ _), hword, if_neg hv, newPte, store_mod]
      exact run_bind (run_setWord _ _ _)
    have hnext : (a + PGSIZE) / 4096 = a / 4096 + 1 := by
      unfold PGSIZE
      omega
    have hleaf₂ (v : ℕ) (hv : v ≠ a / 4096) : (T₁.setLeaf (a / 4096) (newPte pa perm)).leaf v = T.leaf v := by
      rw [Tree.setLeaf_leaf, if_neg hv, hleaf]
    rw [hrun₂]
    obtain ⟨msg, hmsg, j, hj, hbad⟩ | ⟨res, u, T₃, k, hres, h₃, hf₃, hk, hleaf₃⟩ :=
      ih (s := { t with mem := store 8 t.mem (q + 8 * px 0 a) (newPte pa perm) }) h₂ hf₂ (a + PGSIZE) (pa + PGSIZE)
    · refine .inl ⟨msg, hmsg, j + 1, by omega, ?_⟩
      rw [hnext, hleaf₂ _ (by omega), add_right_comm (a / 4096)] at hbad
      rw [← add_assoc]
      refine hbad.imp_left fun hb => ?_
      unfold PGSIZE at hb
      omega
    · refine .inr ⟨res, u, T₃, k + 1, hres, h₃, hf₃, by omega, fun v => ?_⟩
      rw [hleaf₃ v, hnext]
      by_cases e : v = a / 4096
      · subst e
        rw [if_neg (by omega), if_pos (by omega), Tree.setLeaf_leaf, if_pos rfl, Nat.sub_self]
        rfl
      · rw [hleaf₂ v e]
        by_cases hin : a / 4096 + 1 ≤ v ∧ v < a / 4096 + 1 + k
        · rw [if_pos hin, if_pos (by omega)]
          congr 1
          unfold PGSIZE
          omega
        · rw [if_neg hin, if_neg (by omega)]

theorem newPte_eq {pa perm : ℕ} (hpa : pa < 2 ^ 56) (hperm : perm < 1024) :
    newPte pa perm = mkPte pa (perm ||| PTE_V) := by
  have hf : perm ||| PTE_V < 1024 := Nat.or_lt_two_pow (n := 10) hperm (by decide)
  rw [newPte, mkPte_lor]
  refine Nat.mod_eq_of_lt ?_
  rw [mkPte_eq hf]
  omega

/-! ## `uvmunmap` -/

/-- The word in `uvmunmap`'s way: no leaf entry, or a page that `kfree` does not take. -/
def Unmappable (L : Layout) (doFree : Bool) (w : ℕ) : Prop :=
  w &&& PTE_V ≠ 0 ∧ pteFlags w ≠ PTE_V ∧ (doFree = true → kfreePanics L (pte2pa w) = false)

theorem unmapLoop_succ (doFree : Bool) (n a : ℕ) : Vm.unmapLoop L r doFree (n + 1) a =
    Vm.walk r a false >>= fun pte => if pte = 0 then throw "uvmunmap: walk"
    else getWord pte >>= fun w => if w &&& PTE_V = 0 then throw "uvmunmap: not mapped"
    else if pteFlags w = PTE_V then throw "uvmunmap: not a leaf"
    else (if doFree then kfree L (pte2pa w) else pure ()) >>= fun _ =>
      setWord pte 0 >>= fun _ => Vm.unmapLoop L r doFree n (a + PGSIZE) := by
  cases doFree <;> rfl

theorem Holds.kfree (h : Holds s.mem r T) {doFree : Bool} (hp : p % 4096 = 0)
    (hout : doFree = true → ∀ x, T.page r x ≠ some p) :
    (∃ u : Phys, (if doFree then Vm.kfree L p else pure () : K Unit) s = .ok ((), u) ∧ Holds u.mem r T) ∨
    ∃ msg, (if doFree then Vm.kfree L p else pure () : K Unit) s = .error msg ∧ doFree = true ∧
      kfreePanics L p = true := by
  cases doFree with
  | false => exact .inl ⟨s, rfl, h⟩
  | true =>
    rw [if_pos rfl, Vm.kfree]
    by_cases hpanic : kfreePanics L p = true
    · rw [if_pos hpanic]
      exact .inr ⟨"kfree", rfl, rfl, hpanic⟩
    · rw [if_neg hpanic]
      refine .inl ⟨_, rfl, h.congr fun x a ha => ?_⟩
      exact freed_onlyPage s hp a (h.page x a ha).aligned fun e => hout rfl x (e ▸ ha)

/-- The loop of `uvmunmap` clears its range; it panics only when the range leaves the address space or
something is in its way. -/
theorem Holds.unmapLoop (h : Holds s.mem r T) (doFree : Bool) (n a : ℕ)
    (hout : doFree = true → ∀ j < n, ∀ x, T.page r x ≠ some (pte2pa (T.leaf (a / 4096 + j)))) :
    (∃ msg, Vm.unmapLoop L r doFree n a s = .error msg ∧
      ∃ j < n, MAXVA ≤ a + j * 4096 ∨ ¬ Unmappable L doFree (T.leaf (a / 4096 + j))) ∨
    ∃ t T', Vm.unmapLoop L r doFree n a s = .ok ((), t) ∧ Holds t.mem r T' ∧
      ∀ v, T'.leaf v = if a / 4096 ≤ v ∧ v < a / 4096 + n then 0 else T.leaf v := by
  induction n generalizing a s T with
  | zero =>
    refine .inr ⟨s, T, rfl, h, fun v => ?_⟩
    rw [if_neg (by omega)]
  | succ n ih =>
    rw [unmapLoop_succ]
    by_cases hva : a < MAXVA
    swap
    · refine .inl ⟨"walk", run_bind_error ?_, 0, by omega, .inl (by omega)⟩
      rw [Vm.walk, if_pos (by omega)]
      rfl
    rw [run_bind (h.walk hva)]
    cases hl : T.low (px 2 a) (px 1 a) with
    | none =>
      have hzero := h.leaf_zero hl (px_lt 1 a) (px_lt 0 a)
      rw [vpn_px hva] at hzero
      refine .inl ⟨"uvmunmap: walk", ?_, 0, by omega, .inr fun hu => hu.1 ?_⟩
      · rw [Tree.pte, hl]
        rfl
      · rw [add_zero, hzero, Nat.zero_and]
    | some q =>
      obtain ⟨hpte, hne⟩ := h.pte_pos hl
      rw [hpte, if_neg hne, run_bind (run_getWord _ _), h.load_leaf hva hl]
      by_cases hv : T.leaf (a / 4096) &&& PTE_V = 0
      · rw [if_pos hv]
        exact .inl ⟨_, rfl, 0, by omega, .inr fun hu => hu.1 hv⟩
      rw [if_neg hv]
      by_cases hflags : pteFlags (T.leaf (a / 4096)) = PTE_V
      · rw [if_pos hflags]
        exact .inl ⟨_, rfl, 0, by omega, .inr fun hu => hu.2.1 hflags⟩
      rw [if_neg hflags]
      have hal : pte2pa (T.leaf (a / 4096)) % 4096 = 0 := by
        rw [pte2pa_eq]
        omega
      obtain ⟨u, hfree, hu⟩ | ⟨msg, hmsg, hd, hpanic⟩ :=
        h.kfree (L := L) hal fun hd => hout hd 0 (Nat.succ_pos n)
      swap
      · refine .inl ⟨msg, run_bind_error hmsg, 0, by omega, .inr fun hu => ?_⟩
        have := hu.2.2 hd
        rw [add_zero, hpanic] at this
        cases this
      -- the entry is cleared, and the loop goes on with the next page
      rw [run_bind hfree, run_bind (run_setWord _ _ _)]
      have h₂ := hu.setLeaf hl (px_lt 1 a) (px_lt 0 a) (w := 0) (by norm_num)
      rw [vpn_px hva] at h₂
      have hnext : (a + PGSIZE) / 4096 = a / 4096 + 1 := by
        unfold PGSIZE
        omega
      have hleaf₂ (v : ℕ) (hv : v ≠ a / 4096) : (T.setLeaf (a / 4096) 0).leaf v = T.leaf v := by
        rw [Tree.setLeaf_leaf, if_neg hv]
      have hout₂ (hd : doFree = true) (j : ℕ) (hj : j < n) (x : Place) : (T.setLeaf (a / 4096) 0).page r x ≠
          some (pte2pa ((T.setLeaf (a / 4096) 0).leaf ((a + PGSIZE) / 4096 + j))) := by
        rw [hnext, hleaf₂ _ (by omega), page_setLeaf, add_assoc, add_comm 1]
        exact hout hd (j + 1) (by omega) x
      obtain ⟨msg, hmsg, j, hj, hbad⟩ | ⟨t, T₃, ht, h₃, hleaf₃⟩ :=
        ih (s := { u with mem := store 8 u.mem (q + 8 * px 0 a) 0 }) h₂ (a + PGSIZE) hout₂
      · refine .inl ⟨msg, hmsg, j + 1, by omega, ?_⟩
        rw [hnext, hleaf₂ _ (by omega), add_right_comm (a / 4096)] at hbad
        rw [← add_assoc]
        refine hbad.imp_left fun hb => ?_
        unfold PGSIZE at hb
        omega
      · refine .inr ⟨t, T₃, ht, h₃, fun v => ?_⟩
        rw [hleaf₃ v, hnext]
        by_cases e : v = a / 4096
        · subst e
          rw [if_neg (by omega), if_pos (by omega), Tree.setLeaf_leaf, if_pos rfl]
        · rw [hleaf₂ v e]
          refine if_congr ?_ rfl rfl
          omega

/-! ## Runs -/

/-- The free list is a list of pages that are not in use as tables of `r`. -/
def Unused (s : Phys) (r : ℕ) : Prop := ∃ l, Pool s l ∧ ∀ p ∈ l, ¬ Visits s.mem r p

theorem Holds.spare_iff (h : Holds s.mem r T) : Spare s r T ↔ Unused s r := by
  simp only [Spare, Unused, h.visits_iff, not_exists, ne_eq]

inductive TableCall
  | walk (va : ℕ) (alloc : Bool)
  | mappages (va size pa perm : ℕ)
  | uvmunmap (va npages : ℕ) (doFree : Bool)
  /-- Other code runs, up to the state `t`. -/
  | other (t : Phys)

/-- The state after code that has returned. -/
def returned {α : Type} (c : K α) (s : Phys) : Option Phys :=
  match c s with
  | .ok (_, t) => some t
  | .error _ => none

def tableStep (L : Layout) (r : ℕ) (s : Phys) : TableCall → Option Phys
  | .walk va alloc => returned (Vm.walk r va alloc) s
  | .mappages va size pa perm => returned (mappages r va size pa perm) s
  | .uvmunmap va npages doFree => returned (uvmunmap L r va npages doFree) s
  | .other t => some t

/-- `kalloc` has only pages that are not in use, `uvmunmap` is not made to free a table, and other code
leaves the tables alone. -/
def Careful (r : ℕ) (s : Phys) : TableCall → Prop
  | .walk _ alloc => alloc = true → Unused s r
  | .mappages _ _ _ _ => Unused s r
  | .uvmunmap va npages doFree =>
    doFree = true → ∀ k < npages, ¬ Visits s.mem r (pte2pa (pteOf s r (va + k * PGSIZE)))
  | .other t => ∀ p, Visits s.mem r p → SamePage s.mem t.mem p

theorem returned_eq_some {α : Type} {c : K α} (h : returned c s = some t) : ∃ a, c s = .ok (a, t) := by
  unfold returned at h
  split at h
  · rename_i a u hc
    cases h
    exact ⟨a, hc⟩
  · cases h

theorem page_add (k : ℕ) (hva : va % PGSIZE = 0) : (va + k * PGSIZE) / 4096 = va / 4096 + k := by
  unfold PGSIZE at *
  omega

theorem mappages_eq {size : ℕ} (pa perm : ℕ) (hva : va % PGSIZE = 0) (hsize : size % PGSIZE = 0)
    (hpos : 0 < size) : mappages r va size pa perm = Vm.mapLoop r perm (size / PGSIZE) va pa := by
  rw [mappages, if_neg (by simpa using hva), if_neg (by simpa using hsize), if_neg (by omega)]

theorem uvmunmap_eq (npages : ℕ) (doFree : Bool) (hva : va % PGSIZE = 0) :
    uvmunmap L r va npages doFree = Vm.unmapLoop L r doFree npages va := by
  rw [uvmunmap, if_neg (by simpa using hva)]

/-- A page that `uvmunmap` frees is not a table, in terms of the tree. -/
theorem Holds.freed_not_table (h : Holds s.mem r T) (hva : va % PGSIZE = 0) (hlt : va + j * PGSIZE < MAXVA)
    (hok : ¬ Visits s.mem r (pte2pa (pteOf s r (va + j * PGSIZE)))) (x : Place) :
    T.page r x ≠ some (pte2pa (T.leaf (va / 4096 + j))) := by
  intro hx
  rw [h.visits_iff, h.pteOf_eq hlt, page_add j hva] at hok
  exact hok ⟨x, hx⟩

/-- When `uvmunmap` returns, its range is in the address space. -/
theorem unmapLoop_end (doFree : Bool) (n a : ℕ) (hrun : Vm.unmapLoop L r doFree n a s = .ok ((), t)) (j : ℕ)
    (hj : j < n) : a + j * PGSIZE < MAXVA := by
  induction n generalizing a s j with
  | zero => omega
  | succ n ih =>
    by_cases hva : a < MAXVA
    swap
    · rw [Vm.unmapLoop, Vm.walk, if_pos (by omega)] at hrun
      cases hrun
    cases j with
    | zero => simpa using hva
    | succ j =>
      rw [unmapLoop_succ] at hrun
      obtain ⟨pte, u, -, hrun⟩ := run_bind_eq_ok hrun
      split at hrun
      · cases hrun
      obtain ⟨w, v, -, hrun⟩ := run_bind_eq_ok hrun
      split at hrun
      · cases hrun
      split at hrun
      · cases hrun
      obtain ⟨-, v', -, hrun⟩ := run_bind_eq_ok hrun
      obtain ⟨-, v'', -, hrun⟩ := run_bind_eq_ok hrun
      have := ih (a + PGSIZE) hrun j (by omega)
      rw [add_mul, one_mul]
      omega

theorem holds_step (L : Layout) {e : TableCall} (h : ∃ T, Holds s.mem r T) (hok : Careful r s e)
    (hs : tableStep L r s e = some t) : ∃ T, Holds t.mem r T := by
  obtain ⟨T, h⟩ := h
  cases e with
  | walk va alloc =>
    obtain ⟨a, hrun⟩ := returned_eq_some hs
    by_cases hva : va < MAXVA
    swap
    · rw [Vm.walk, if_pos (by omega)] at hrun
      cases hrun
    cases alloc with
    | false =>
      rw [h.walk hva] at hrun
      cases hrun
      exact ⟨T, h⟩
    | true =>
      obtain ⟨a', t', T', hrun', h', -⟩ := h.walk_alloc (h.spare_iff.2 (hok rfl)) hva
      rw [hrun'] at hrun
      cases hrun
      exact ⟨T', h'⟩
  | mappages va size pa perm =>
    obtain ⟨res, hrun⟩ := returned_eq_some hs
    rw [mappages] at hrun
    split_ifs at hrun
    · cases hrun
    · cases hrun
    · cases hrun
    obtain ⟨msg, hmsg, -⟩ | ⟨res', t', T', k, hrun', h', -⟩ :=
      h.mapLoop (h.spare_iff.2 hok) perm (size / PGSIZE) va pa
    · rw [hmsg] at hrun
      cases hrun
    · rw [hrun'] at hrun
      cases hrun
      exact ⟨T', h'⟩
  | uvmunmap va npages doFree =>
    obtain ⟨⟨⟩, hrun⟩ := returned_eq_some hs
    rw [uvmunmap] at hrun
    split_ifs at hrun with hva
    · cases hrun
    have hva' : va % PGSIZE = 0 := by simpa using hva
    obtain ⟨msg, hmsg, -⟩ | ⟨t', T', hrun', h', -⟩ := h.unmapLoop (L := L) doFree npages va fun hd j hj =>
      h.freed_not_table hva' (unmapLoop_end doFree npages va hrun j hj) (hok hd j hj)
    · rw [hmsg] at hrun
      cases hrun
    · rw [hrun'] at hrun
      cases hrun
      exact ⟨T', h'⟩
  | other t' =>
    cases hs
    exact ⟨T, h.congr fun x p hp => hok p (h.visits_iff.2 ⟨x, hp⟩)⟩

theorem uvmcreate_holds {l : List ℕ} (hpool : Pool s l) (hrun : uvmcreate s = .ok (r, t)) (hr : r ≠ 0) :
    Holds t.mem r .empty ∧ Spare t r .empty := by
  rw [uvmcreate] at hrun
  obtain ⟨-, hk⟩ | ⟨q, l', u, rfl, hk, -, hpool'⟩ := kalloc_pool hpool
  · rw [run_bind hk] at hrun
    cases hrun
    exact absurd rfl hr
  · rw [run_bind hk] at hrun
    have hp := hpool.page q List.mem_cons_self
    have hnot : q ∉ l' := (List.nodup_cons.1 hpool.chain.nodup).1
    rw [if_neg hp.pos.ne', run_bind (run_memset _ _ _)] at hrun
    cases hrun
    refine ⟨holds_empty hp (zeroPage_fill _ _), l', hpool'.congr rfl fun a ha => ?_, fun a ha x hx => ?_⟩
    · exact onlyPage_of_eqOutside (fill_eqOutside _ _ _ _) hp.aligned le_rfl le_rfl a (hpool'.page a ha).aligned
        fun e => hnot (e ▸ ha)
    · cases x with
      | root =>
        cases hx
        exact hnot ha
      | mid i => cases hx
      | low i j => cases hx

theorem holds_run {s₀ s₁ : Phys} {l : List ℕ} {es : List TableCall} (hpool : Pool s₀ l)
    (hcreate : uvmcreate s₀ = .ok (r, s₁)) (hr : r ≠ 0)
    (hok : Runs.StepsOk (tableStep L r) (Careful r) s₁ es) (hrun : Runs.run (tableStep L r) s₁ es = some s) :
    ∃ T, Holds s.mem r T := by
  have hstep (s : Phys) (e : TableCall) (t : Phys) (h : ∃ T, Holds s.mem r T) (hc : Careful r s e)
      (hs : tableStep L r s e = some t) : ∃ T, Holds t.mem r T := holds_step L h hc hs
  exact Runs.run_invariant hstep ⟨_, (uvmcreate_holds hpool hcreate hr).1⟩ hok hrun

theorem Holds.mappages (h : Holds s.mem r T) (hf : Unused s r) {size pa perm : ℕ} (hva : va % PGSIZE = 0)
    (hsize : size % PGSIZE = 0) (hpos : 0 < size) (hend : va + size ≤ MAXVA)
    (hnone : ∀ k < size / PGSIZE, pteOf s r (va + k * PGSIZE) &&& PTE_V = 0) (hpa : pa % PGSIZE = 0)
    (hpaend : pa + size ≤ 2 ^ 56) (hperm : perm < 1024) :
    ∃ res t n, Vm.mappages r va size pa perm s = .ok (res, t) ∧
      (res = 0 ∧ n = size / PGSIZE ∨ res = -1 ∧ n < size / PGSIZE) ∧
      (∀ k < n, ∃ pte, Vm.walk r (va + k * PGSIZE) false t = .ok (pte, t) ∧ pte ≠ 0 ∧
        load 8 t.mem pte &&& PTE_V ≠ 0 ∧ pte2pa (load 8 t.mem pte) = pa + k * PGSIZE ∧
        pteFlags (load 8 t.mem pte) = perm ||| PTE_V) ∧
      ∀ va' < MAXVA, ¬ (va ≤ va' ∧ va' < va + n * PGSIZE) → pteOf t r va' = pteOf s r va' := by
  have hlt (k : ℕ) (hk : k < size / PGSIZE) : va + k * PGSIZE < MAXVA ∧ pa + k * PGSIZE < 2 ^ 56 := by
    unfold PGSIZE at *
    omega
  have hf10 : perm ||| PTE_V < 1024 := Nat.or_lt_two_pow (n := 10) hperm (by decide)
  rw [mappages_eq pa perm hva hsize hpos]
  obtain ⟨msg, -, j, hj, hbad⟩ | ⟨res, t, T', n, hrun, h', -, hn, hleaf⟩ :=
    h.mapLoop (h.spare_iff.2 hf) perm (size / PGSIZE) va pa
  · exfalso
    have hj' := (hlt j hj).1
    have hzero := hnone j hj
    rw [h.pteOf_eq hj', page_add j hva] at hzero
    obtain hbad | hbad := hbad
    · unfold PGSIZE at *
      omega
    · exact hbad hzero
  · refine ⟨res, t, n, hrun, hn, fun k hk => ?_, fun va' hva' hout => ?_⟩
    · obtain ⟨hk₁, hk₂⟩ := hlt k (by omega)
      have hword := hleaf (va / 4096 + k)
      rw [if_pos (by omega), Nat.add_sub_cancel_left, newPte_eq (by unfold PGSIZE at hk₂; exact hk₂) hperm,
        ← page_add k hva] at hword
      have hval : mkPte (pa + k * 4096) (perm ||| PTE_V) &&& PTE_V ≠ 0 := by
        rw [mkPte_and hf10 (by decide), Nat.and_or_distrib_right]
        intro e
        exact absurd (Nat.or_eq_zero_iff.1 e).2 (by decide)
      obtain ⟨q, hl⟩ : ∃ q, T'.low (px 2 (va + k * PGSIZE)) (px 1 (va + k * PGSIZE)) = some q := by
        refine Option.isSome_iff_exists.1 (h'.leaf _ _ (px 0 (va + k * PGSIZE)) (px_lt _ _) (px_lt _ _) ?_)
        rw [vpn_px hk₁, hword]
        rintro e
        rw [e] at hval
        exact hval (Nat.zero_and _)
      obtain ⟨hpte, hne⟩ := h'.pte_pos hl
      refine ⟨_, h'.walk hk₁, by rw [hpte]; exact hne, ?_⟩
      rw [hpte, h'.load_leaf hk₁ hl, hword]
      refine ⟨hval, ?_, pteFlags_mkPte hf10⟩
      refine pte2pa_mkPte ?_ hf10
      unfold PGSIZE at hpa
      omega
    · rw [h'.pteOf_eq hva', h.pteOf_eq hva', hleaf, if_neg]
      unfold PGSIZE at *
      omega

theorem Holds.uvmunmap (h : Holds s.mem r T) {npages : ℕ} {doFree : Bool} (hva : va % PGSIZE = 0)
    (hend : va + npages * PGSIZE ≤ MAXVA)
    (hmapped : ∀ k < npages, Unmappable L doFree (pteOf s r (va + k * PGSIZE)))
    (hout : doFree = true → ∀ k < npages, ¬ Visits s.mem r (pte2pa (pteOf s r (va + k * PGSIZE)))) :
    ∃ t, Vm.uvmunmap L r va npages doFree s = .ok ((), t) ∧ ∀ va' < MAXVA,
      pteOf t r va' = if va ≤ va' ∧ va' < va + npages * PGSIZE then 0 else pteOf s r va' := by
  have hlt (k : ℕ) (hk : k < npages) : va + k * PGSIZE < MAXVA := by
    unfold PGSIZE at *
    omega
  rw [uvmunmap_eq npages doFree hva]
  obtain ⟨msg, -, j, hj, hbad⟩ | ⟨t, T', hrun, h', hleaf⟩ := h.unmapLoop (L := L) doFree npages va
    fun hd j hj => h.freed_not_table hva (hlt j hj) (hout hd j hj)
  · exfalso
    have hm := hmapped j hj
    rw [h.pteOf_eq (hlt j hj), page_add j hva] at hm
    obtain hbad | hbad := hbad
    · have := hlt j hj
      unfold PGSIZE at this
      omega
    · exact hbad hm
  · refine ⟨t, hrun, fun va' hva' => ?_⟩
    rw [h'.pteOf_eq hva', h.pteOf_eq hva', hleaf]
    refine if_congr ?_ rfl rfl
    unfold PGSIZE at *
    omega

/-- A page table that was made by `uvmcreate` and changed by any run of `walk`, `mappages` and `uvmunmap`
is a finite map.  `mappages` of an unmapped range maps all of it, or a prefix when it runs out of memory;
`uvmunmap` of a mapped range clears it; every other translation stays the same.  Different pages have
different entries. -/
theorem page_table_is_map {L : Layout} {s₀ s₁ s : Phys} {r : ℕ} {l : List ℕ} {es : List TableCall}
    (hpool : Pool s₀ l) (hcreate : uvmcreate s₀ = .ok (r, s₁)) (hr : r ≠ 0)
    (hok : Runs.StepsOk (tableStep L r) (Careful r) s₁ es) (hrun : Runs.run (tableStep L r) s₁ es = some s) :
    (∀ va size pa perm, Unused s r → va % PGSIZE = 0 → size % PGSIZE = 0 → 0 < size → va + size ≤ MAXVA →
      (∀ k < size / PGSIZE, pteOf s r (va + k * PGSIZE) &&& PTE_V = 0) → pa % PGSIZE = 0 → pa + size ≤ 2 ^ 56 →
      perm < 1024 →
      ∃ res t n, mappages r va size pa perm s = .ok (res, t) ∧
        (res = 0 ∧ n = size / PGSIZE ∨ res = -1 ∧ n < size / PGSIZE) ∧
        (∀ k < n, ∃ pte, walk r (va + k * PGSIZE) false t = .ok (pte, t) ∧ pte ≠ 0 ∧
          load 8 t.mem pte &&& PTE_V ≠ 0 ∧ pte2pa (load 8 t.mem pte) = pa + k * PGSIZE ∧
          pteFlags (load 8 t.mem pte) = perm ||| PTE_V) ∧
        ∀ va' < MAXVA, ¬ (va ≤ va' ∧ va' < va + n * PGSIZE) → pteOf t r va' = pteOf s r va') ∧
    (∀ va npages doFree, va % PGSIZE = 0 → va + npages * PGSIZE ≤ MAXVA →
      (∀ k < npages, Unmappable L doFree (pteOf s r (va + k * PGSIZE))) →
      (doFree = true → ∀ k < npages, ¬ Visits s.mem r (pte2pa (pteOf s r (va + k * PGSIZE)))) →
      ∃ t, uvmunmap L r va npages doFree s = .ok ((), t) ∧ ∀ va' < MAXVA,
        pteOf t r va' = if va ≤ va' ∧ va' < va + npages * PGSIZE then 0 else pteOf s r va') ∧
    ∀ va va' pte, va < MAXVA → va' < MAXVA → pte ≠ 0 → walk r va false s = .ok (pte, s) →
      walk r va' false s = .ok (pte, s) → va / PGSIZE = va' / PGSIZE := by
  obtain ⟨T, h⟩ := holds_run hpool hcreate hr hok hrun
  refine ⟨fun va size pa perm hf hva hsize hpos hend hnone hpa hpaend hperm =>
      h.mappages hf hva hsize hpos hend hnone hpa hpaend hperm,
    fun va npages doFree hva hend hmapped hout => h.uvmunmap hva hend hmapped hout,
    fun va va' pte hva hva' hne hw hw' => ?_⟩
  rw [h.walk hva] at hw
  rw [h.walk hva'] at hw'
  cases hw
  exact h.pte_inj hva hva' hne (congrArg Prod.fst (Except.ok.inj hw')).symm

def threePages : Phys where
  mem := store 8 (store 8 (fun _ => 0) 0x80001000 0x80002000) 0x80002000 0x80003000
  freelist := 0x80001000
  refreed := false

theorem threePages_pool : Pool threePages [0x80001000, 0x80002000, 0x80003000] where
  chain := ⟨rfl, by decide, rfl, by decide, rfl, by decide, rfl⟩
  page p hp := by
    simp only [List.mem_cons, List.not_mem_nil, or_false] at hp
    obtain rfl | rfl | rfl := hp <;> exact ⟨by decide, by decide, by decide⟩

/-- The first of them as an empty page table. -/
def emptyTable : Phys where
  mem := fill (fill threePages.mem 0x80001000 PGSIZE 5) 0x80001000 PGSIZE 0
  freelist := 0x80002000
  refreed := false

theorem page_table_is_map_threePages : ∃ s t,
    Runs.run (tableStep ⟨KERNBASE, le_rfl, by decide⟩ 0x80001000) emptyTable
      [.mappages 0x1000 PGSIZE 0x87000000 PTE_R] = some s ∧
    pteOf s 0x80001000 0x1000 = 0x21c00003 ∧
    uvmunmap ⟨KERNBASE, le_rfl, by decide⟩ 0x80001000 0x1000 1 false s = .ok ((), t) ∧
    pteOf t 0x80001000 0x1000 = 0 := by
  have hcreate : uvmcreate threePages = .ok (0x80001000, emptyTable) := rfl
  obtain ⟨h, hf⟩ := uvmcreate_holds threePages_pool hcreate (by decide)
  have hok : Runs.StepsOk (tableStep ⟨KERNBASE, le_rfl, by decide⟩ 0x80001000) (Careful 0x80001000) emptyTable
      [.mappages 0x1000 PGSIZE 0x87000000 PTE_R] := ⟨h.spare_iff.1 hf, fun _ _ => trivial⟩
  have hend : (Runs.run (tableStep ⟨KERNBASE, le_rfl, by decide⟩ 0x80001000) emptyTable
      [.mappages 0x1000 PGSIZE 0x87000000 PTE_R]).map (fun s => pteOf s 0x80001000 0x1000) =
      some 0x21c00003 := rfl
  obtain ⟨s, hs, hpte⟩ := Option.map_eq_some_iff.1 hend
  obtain ⟨-, hunmap, -⟩ := page_table_is_map threePages_pool hcreate (by decide) hok hs
  have hmapped (k : ℕ) (hk : k < 1) : Unmappable ⟨KERNBASE, le_rfl, by decide⟩ false
      (pteOf s 0x80001000 (0x1000 + k * PGSIZE)) := by
    obtain rfl : k = 0 := by omega
    rw [Nat.zero_mul, Nat.add_zero, hpte]
    exact ⟨by decide, by decide, by simp⟩
  obtain ⟨t, ht, hclear⟩ := hunmap 0x1000 1 false (by decide) (by decide) hmapped (by simp)
  exact ⟨s, t, hs, hpte, ht, by rw [hclear _ (by decide), if_pos (by decide)]⟩

end Xv6.Vm
