import Xv6.Vm.Walk

/-!
# The radix tree of a page table

`Holds m r T` says that memory holds the tree `T` at the root `r`: each table of the tree has a page of
its own, and the words in it are those of the tree.  Nothing is said about the pages that the leaves map.
`walk` reads the tree, and with `alloc` adds empty tables to it when the pages of the free list are not
in use (`Spare`); neither changes a leaf.
-/

namespace Xv6.Vm

open Memory Kernel Kalloc LinkedList

/-- A table of a tree: the root, that of entry `i` of the root, or that of entry `j` of the latter. -/
inductive Place
  | root
  | mid (i : ℕ)
  | low (i j : ℕ)
  deriving DecidableEq

def Tree.page (T : Tree) (r : ℕ) : Place → Option ℕ
  | .root => some r
  | .mid i => T.mid i
  | .low i j => T.low i j

/-- The entries of a table. -/
def Tree.word (T : Tree) : Place → ℕ → ℕ
  | .root, i => ptr (T.mid i)
  | .mid i, j => ptr (T.low i j)
  | .low i j, k => T.leaf (vpn i j k)

/-- A page at an address that an entry can hold. -/
structure IsPage (p : ℕ) : Prop where
  aligned : p % 4096 = 0
  pos : 0 < p
  below : p + 4096 ≤ 2 ^ 56

structure Holds (m : Mem) (r : ℕ) (T : Tree) : Prop where
  entry : ∀ x p, T.page r x = some p → ∀ k < 512, load 8 m (p + 8 * k) = T.word x k
  page : ∀ x p, T.page r x = some p → IsPage p
  inj : ∀ x y p, T.page r x = some p → T.page r y = some p → x = y
  mid : ∀ i, (T.mid i).isSome → i < 512
  low : ∀ i j, (T.low i j).isSome → j < 512 ∧ (T.mid i).isSome
  leaf : ∀ i j k, j < 512 → k < 512 → T.leaf (vpn i j k) ≠ 0 → (T.low i j).isSome

variable {s t : Phys} {m m' : Mem} {r p q va i j k w : ℕ} {T T' : Tree} {x y : Place}

/-! ## Writes -/

theorem mkPte_lt_of_isPage (hp : IsPage p) {f : ℕ} (hf : f < 1024) : mkPte p f < 256 ^ 8 := by
  have := hp.below
  rw [mkPte_eq hf]
  omega

theorem Holds.congr (h : Holds m r T) (hm : ∀ x p, T.page r x = some p → SamePage m m' p) : Holds m' r T :=
  { h with entry := fun x p hp k hk => ((hm x p hp).load hk).trans (h.entry x p hp k hk) }

/-- A store to an entry shows at that entry only. -/
theorem Holds.load_store (h : Holds m r T) (hx : T.page r x = some p) (hk : k < 512) (hw : w < 256 ^ 8)
    (hy : T.page r y = some q) {l : ℕ} (hl : l < 512) :
    load 8 (store 8 m (p + 8 * k) w) (q + 8 * l) = if y = x ∧ l = k then w else T.word y l := by
  rw [load_store_entry (h.page x p hx).aligned (h.page y q hy).aligned hk hl hw, h.entry y q hy l hl]
  refine if_congr (and_congr_left fun _ => ⟨?_, ?_⟩) rfl rfl
  · rintro rfl
    exact h.inj y x q hy hx
  · rintro rfl
    rw [hx] at hy
    exact (Option.some.inj hy).symm

theorem Holds.setLeaf (h : Holds m r T) (hq : T.low i j = some q) (hj : j < 512) (hk : k < 512)
    (hw : w < 256 ^ 8) : Holds (store 8 m (q + 8 * k) w) r (T.setLeaf (vpn i j k) w) := by
  have hpage : (T.setLeaf (vpn i j k) w).page r = T.page r := by
    funext x
    cases x <;> rfl
  constructor
  case entry =>
    intro y p hy l hl
    rw [hpage] at hy
    rw [h.load_store (x := .low i j) hq hk hw hy hl]
    cases y with
    | root => simp [Tree.word]
    | mid i' => simp [Tree.word]
    | low i' j' =>
      have hj' : j' < 512 := (h.low i' j' (Option.isSome_iff_exists.2 ⟨p, hy⟩)).1
      simp only [Tree.word, Tree.setLeaf_leaf, Place.low.injEq]
      refine if_congr ⟨?_, fun e => ?_⟩ rfl rfl
      · rintro ⟨⟨rfl, rfl⟩, rfl⟩
        rfl
      · obtain ⟨rfl, rfl, rfl⟩ := vpn_inj hj' hl hj hk e
        exact ⟨⟨rfl, rfl⟩, rfl⟩
  case page =>
    rw [hpage]
    exact h.page
  case inj =>
    rw [hpage]
    exact h.inj
  case mid => exact h.mid
  case low => exact h.low
  case leaf =>
    intro i' j' k' hj' hk' hne
    rw [Tree.setLeaf_leaf] at hne
    by_cases e : vpn i' j' k' = vpn i j k
    · obtain ⟨rfl, rfl, rfl⟩ := vpn_inj hj' hk' hj hk e
      exact Option.isSome_iff_exists.2 ⟨q, hq⟩
    · rw [if_neg e] at hne
      exact h.leaf i' j' k' hj' hk' hne

/-- A page of zeros that is not in the tree becomes the table at `y`, by a store to entry `k` of `x`. -/
theorem Holds.link (h : Holds m r T) (hx : T.page r x = some p) (hk : k < 512) (hyx : y ≠ x)
    (hz : ZeroPage m q) (hq : IsPage q) (hnew : ∀ z, T.page r z ≠ some q)
    (hpage : T'.page r = Function.update (T.page r) y (some q))
    (hword : ∀ z l, z ≠ y → T'.word z l = if z = x ∧ l = k then mkPte q PTE_V else T.word z l)
    (hempty : ∀ l < 512, T'.word y l = 0) (hmid : ∀ i, (T'.mid i).isSome → i < 512)
    (hlow : ∀ i j, (T'.low i j).isSome → j < 512 ∧ (T'.mid i).isSome)
    (hleaf : ∀ i j k, j < 512 → k < 512 → T'.leaf (vpn i j k) ≠ 0 → (T'.low i j).isSome) :
    Holds (store 8 m (p + 8 * k) (mkPte q PTE_V)) r T' := by
  have hlt : mkPte q PTE_V < 256 ^ 8 := mkPte_lt_of_isPage hq (by decide)
  have hold {z : Place} {a : ℕ} (hz : z ≠ y) (ha : T'.page r z = some a) : T.page r z = some a := by
    rwa [hpage, Function.update_of_ne hz] at ha
  have hself {a : ℕ} (ha : T'.page r y = some a) : a = q := by
    rw [hpage, Function.update_self] at ha
    exact (Option.some.inj ha).symm
  constructor
  case entry =>
    intro z a ha l hl
    by_cases e : z = y
    · subst e
      obtain rfl := hself ha
      have hne : a ≠ p := by
        rintro rfl
        exact hnew x hx
      rw [hempty l hl, load_store_entry (h.page x p hx).aligned hq.aligned hk hl hlt, if_neg (by simp [hne])]
      exact hz l hl
    · rw [h.load_store hx hk hlt (hold e ha) hl, hword z l e]
  case page =>
    intro z a ha
    by_cases e : z = y
    · subst e
      obtain rfl := hself ha
      exact hq
    · exact h.page z a (hold e ha)
  case inj =>
    intro z z' a ha ha'
    by_cases e : z = y
    · by_cases e' : z' = y
      · rw [e, e']
      · rw [e] at ha
        obtain rfl := hself ha
        exact absurd (hold e' ha') (hnew z')
    · by_cases e' : z' = y
      · rw [e'] at ha'
        obtain rfl := hself ha'
        exact absurd (hold e ha) (hnew z)
      · exact h.inj z z' a (hold e ha) (hold e' ha')
  case mid => exact hmid
  case low => exact hlow
  case leaf => exact hleaf

theorem Holds.low_none (h : Holds m r T) (hi : T.mid i = none) (j : ℕ) : T.low i j = none := by
  by_contra hne
  have := (h.low i j (Option.isSome_iff_ne_none.2 hne)).2
  rw [hi] at this
  cases this

theorem Holds.leaf_zero (h : Holds m r T) (hij : T.low i j = none) (hj : j < 512) (hk : k < 512) :
    T.leaf (vpn i j k) = 0 := by
  by_contra hne
  have := h.leaf i j k hj hk hne
  rw [hij] at this
  cases this

theorem Holds.setMid (h : Holds m r T) (hi : i < 512) (hnone : T.mid i = none) (hz : ZeroPage m q)
    (hq : IsPage q) (hnew : ∀ z, T.page r z ≠ some q) :
    Holds (store 8 m (r + 8 * i) (mkPte q PTE_V)) r (T.setMid i q) := by
  refine h.link (x := .root) (y := .mid i) rfl hi (by simp) hz hq hnew ?_ (fun z l hzy => ?_) (fun l hl => ?_)
    (fun i' hi' => ?_) (fun i' j hj => ?_) h.leaf
  · funext z
    cases z with
    | mid i' => by_cases e : i' = i <;> simp [Tree.page, e]
    | _ => simp [Tree.page]
  · cases z with
    | root =>
      by_cases e : l = i
      · subst e
        simp [Tree.word, ptr]
      · simp [Tree.word, e]
    | _ => simp [Tree.word]
  · simp [Tree.word, h.low_none hnone l, ptr]
  · by_cases e : i' = i
    · rw [e]
      exact hi
    · rw [Tree.setMid_mid, if_neg e] at hi'
      exact h.mid i' hi'
  · obtain ⟨hj', hm⟩ := h.low i' j hj
    refine ⟨hj', ?_⟩
    rw [Tree.setMid_mid]
    split_ifs
    · rfl
    · exact hm

theorem Holds.setLow (h : Holds m r T) (hp : T.mid i = some p) (hj : j < 512) (hnone : T.low i j = none)
    (hz : ZeroPage m q) (hq : IsPage q) (hnew : ∀ z, T.page r z ≠ some q) :
    Holds (store 8 m (p + 8 * j) (mkPte q PTE_V)) r (T.setLow i j q) := by
  refine h.link (x := .mid i) (y := .low i j) hp hj (by simp) hz hq hnew ?_ (fun z l hzy => ?_) (fun l hl => ?_)
    h.mid (fun i' j' hj' => ?_) fun i' j' k hj' hk hne => ?_
  · funext z
    cases z with
    | low i' j' =>
      by_cases e : i' = i ∧ j' = j
      · simp [Tree.page, e]
      · rw [Function.update_of_ne (by simpa using e)]
        simp [Tree.page, e]
    | _ => simp [Tree.page]
  · cases z with
    | mid i' =>
      by_cases e : i' = i ∧ l = j
      · simp [Tree.word, e, ptr]
      · simp [Tree.word, e]
    | _ => simp [Tree.word]
  · exact h.leaf_zero hnone hj hl
  · by_cases e : i' = i ∧ j' = j
    · rw [e.1, e.2]
      exact ⟨hj, by rw [Tree.setLow_mid, hp]; rfl⟩
    · rw [Tree.setLow_low, if_neg e] at hj'
      exact h.low i' j' hj'
  · have := h.leaf i' j' k hj' hk hne
    rw [Tree.setLow_low]
    split_ifs
    · rfl
    · exact this

theorem holds_empty (hr : IsPage r) (hz : ZeroPage m r) : Holds m r .empty := by
  have hroot {x : Place} {p : ℕ} (hx : Tree.empty.page r x = some p) : x = .root ∧ p = r := by
    cases x with
    | root => exact ⟨rfl, (Option.some.inj hx).symm⟩
    | mid i => cases hx
    | low i j => cases hx
  constructor
  case entry =>
    intro x p hx k hk
    obtain ⟨rfl, rfl⟩ := hroot hx
    exact hz k hk
  case page =>
    intro x p hx
    rw [(hroot hx).2]
    exact hr
  case inj =>
    intro x y p hx hy
    rw [(hroot hx).1, (hroot hy).1]
  case mid => exact fun i hi => by cases hi
  case low => exact fun i j hi => by cases hi
  case leaf => exact fun _ _ _ _ _ hne => absurd rfl hne

/-! ## Reading -/

theorem Holds.walk (h : Holds s.mem r T) (hva : va < MAXVA) : walk r va false s = .ok (T.pte va, s) := by
  refine walk_tables hva (h.entry .root r rfl _ (px_lt _ _)) (fun p hp => ?_) fun p hp => ?_
  · exact ⟨(h.page (.mid _) p hp).aligned, h.entry (.mid _) p hp _ (px_lt _ _)⟩
  · exact ⟨(h.page (.low _ _) p hp).aligned, (h.low _ _ (by rw [hp]; rfl)).2⟩

/-- The word that `walk` finds, `0` when there is no table for the address. -/
def pteOf (s : Phys) (r va : ℕ) : ℕ :=
  match walk r va false s with
  | .ok (a, _) => if a = 0 then 0 else load 8 s.mem a
  | .error _ => 0

theorem Holds.load_leaf (h : Holds m r T) (hva : va < MAXVA) (hl : T.low (px 2 va) (px 1 va) = some q) :
    load 8 m (q + 8 * px 0 va) = T.leaf (va / 4096) := by
  rw [h.entry (.low _ _) q hl _ (px_lt _ _), Tree.word, vpn_px hva]

theorem Holds.pte_pos (h : Holds m r T) (hl : T.low (px 2 va) (px 1 va) = some q) :
    T.pte va = q + 8 * px 0 va ∧ q + 8 * px 0 va ≠ 0 := by
  have := (h.page (.low _ _) q hl).pos
  exact ⟨by rw [Tree.pte, hl], by omega⟩

theorem Holds.pteOf_eq (h : Holds s.mem r T) (hva : va < MAXVA) : pteOf s r va = T.leaf (va / 4096) := by
  rw [pteOf, h.walk hva]
  cases hl : T.low (px 2 va) (px 1 va) with
  | none =>
    simp only [Tree.pte, hl, if_true]
    rw [← vpn_px hva]
    exact (h.leaf_zero hl (px_lt _ _) (px_lt _ _)).symm
  | some q =>
    obtain ⟨hpte, hne⟩ := h.pte_pos hl
    simp only [hpte, if_neg hne]
    exact h.load_leaf hva hl

theorem Holds.pte_inj (h : Holds m r T) {va' : ℕ} (hva : va < MAXVA) (hva' : va' < MAXVA)
    (hne : T.pte va ≠ 0) (he : T.pte va = T.pte va') : va / 4096 = va' / 4096 := by
  cases hl : T.low (px 2 va) (px 1 va) with
  | none => exact absurd (by rw [Tree.pte, hl]) hne
  | some q =>
    cases hl' : T.low (px 2 va') (px 1 va') with
    | none => exact absurd (by rw [he, Tree.pte, hl']) hne
    | some q' =>
      rw [(h.pte_pos hl).1, (h.pte_pos hl').1] at he
      have hq := (h.page (.low _ _) q hl).aligned
      have hq' := (h.page (.low _ _) q' hl').aligned
      have h0 := px_lt 0 va
      have h0' := px_lt 0 va'
      obtain rfl : q = q' := by omega
      have hp := h.inj (.low _ _) (.low _ _) q hl hl'
      simp only [Place.low.injEq] at hp
      have hpx : px 0 va = px 0 va' := by omega
      rw [← vpn_px hva, ← vpn_px hva', hp.1, hp.2, hpx]

/-- The pages that `walk` reads. -/
def Visits (m : Mem) (r p : ℕ) : Prop :=
  p = r ∨ ∃ i < 512, load 8 m (r + 8 * i) &&& PTE_V ≠ 0 ∧ (p = pte2pa (load 8 m (r + 8 * i)) ∨
    ∃ j < 512, load 8 m (pte2pa (load 8 m (r + 8 * i)) + 8 * j) &&& PTE_V ≠ 0 ∧
      p = pte2pa (load 8 m (pte2pa (load 8 m (r + 8 * i)) + 8 * j)))

theorem pte2pa_ptr (hp : p % 4096 = 0) : pte2pa (ptr (some p)) = p := pte2pa_mkPte hp (by decide)

theorem Holds.visits_iff (h : Holds m r T) : Visits m r p ↔ ∃ x, T.page r x = some p := by
  have hroot (i : ℕ) (hi : i < 512) : load 8 m (r + 8 * i) = ptr (T.mid i) := h.entry .root r rfl i hi
  have hmid {i q j : ℕ} (hq : T.mid i = some q) (hj : j < 512) : load 8 m (q + 8 * j) = ptr (T.low i j) :=
    h.entry (.mid i) q hq j hj
  constructor
  · rintro (rfl | ⟨i, hi, hv, hp⟩)
    · exact ⟨.root, rfl⟩
    · rw [hroot i hi, ptr_and_V] at hv
      obtain ⟨q, hq⟩ := Option.isSome_iff_exists.1 hv
      rw [hroot i hi, hq, pte2pa_ptr (h.page (.mid i) q hq).aligned] at hp
      obtain rfl | ⟨j, hj, hv', hp⟩ := hp
      · exact ⟨.mid i, hq⟩
      · rw [hmid hq hj, ptr_and_V] at hv'
        obtain ⟨q', hq'⟩ := Option.isSome_iff_exists.1 hv'
        rw [hmid hq hj, hq', pte2pa_ptr (h.page (.low i j) q' hq').aligned] at hp
        exact ⟨.low i j, by rw [hp]; exact hq'⟩
  · rintro ⟨x, hx⟩
    have hmid' {i q : ℕ} (hq : T.mid i = some q) : i < 512 ∧ load 8 m (r + 8 * i) &&& PTE_V ≠ 0 ∧
        pte2pa (load 8 m (r + 8 * i)) = q := by
      have hi := h.mid i (by rw [hq]; rfl)
      refine ⟨hi, by rw [hroot i hi, ptr_and_V, hq]; rfl, ?_⟩
      rw [hroot i hi, hq, pte2pa_ptr (h.page (.mid i) q hq).aligned]
    cases x with
    | root => exact .inl (Option.some.inj hx).symm
    | mid i =>
      obtain ⟨hi, hv, hq⟩ := hmid' hx
      exact .inr ⟨i, hi, hv, .inl hq.symm⟩
    | low i j =>
      have hlow : T.low i j = some p := hx
      obtain ⟨hj, hm⟩ := h.low i j (by rw [hlow]; rfl)
      obtain ⟨q, hq⟩ := Option.isSome_iff_exists.1 hm
      obtain ⟨hi, hv, hq'⟩ := hmid' hq
      refine .inr ⟨i, hi, hv, .inr ⟨j, hj, ?_⟩⟩
      rw [hq', hmid hq hj, hlow, ptr_and_V, pte2pa_ptr (h.page (.low i j) p hx).aligned]
      exact ⟨rfl, rfl⟩

/-! ## Adding tables -/

/-- The free list is a list of pages. -/
structure Pool (s : Phys) (l : List ℕ) : Prop where
  chain : Chain (next s.mem) 0 s.freelist l
  page : ∀ p ∈ l, IsPage p

/-- The pages of the free list are not tables of the tree. -/
def Spare (s : Phys) (r : ℕ) (T : Tree) : Prop := ∃ l, Pool s l ∧ ∀ p ∈ l, ∀ x, T.page r x ≠ some p

theorem Pool.congr {l : List ℕ} (h : Pool s l) (hf : t.freelist = s.freelist)
    (hm : ∀ p ∈ l, SamePage s.mem t.mem p) : Pool t l :=
  ⟨by rw [hf]; exact h.chain.congr fun p hp => (hm p hp).next, h.page⟩

theorem kalloc_pool {l : List ℕ} (h : Pool s l) : (l = [] ∧ kalloc s = .ok (0, s)) ∨
    ∃ p l' t, l = p :: l' ∧ kalloc s = .ok (p, t) ∧ OnlyPage p s.mem t.mem ∧ Pool t l' := by
  by_cases hr : s.freelist = 0
  · left
    have hl := h.chain
    rw [hr, chain_null_iff] at hl
    refine ⟨hl, ?_⟩
    simp only [kalloc, run_bind (run_get s), hr, if_true]
    rfl
  · right
    obtain ⟨l', rfl, hl'⟩ := h.chain.exists_cons hr
    have hal := (h.page _ List.mem_cons_self).aligned
    have hnot : s.freelist ∉ l' := (List.nodup_cons.1 h.chain.nodup).1
    have honly : OnlyPage s.freelist s.mem (fill s.mem s.freelist PGSIZE 5) :=
      onlyPage_of_eqOutside (fill_eqOutside _ _ _ _) hal le_rfl le_rfl
    refine ⟨s.freelist, l', ⟨fill s.mem s.freelist PGSIZE 5, next s.mem s.freelist, s.refreed⟩, rfl, ?_, honly, ?_⟩
    · simp only [kalloc, run_bind (run_get s), hr, if_false]
      rfl
    · refine ⟨hl'.congr fun p hp => ?_, fun p hp => h.page p (List.mem_cons_of_mem _ hp)⟩
      exact (honly p (h.page p (List.mem_cons_of_mem _ hp)).aligned fun e => hnot (e ▸ hp)).next

/-- A missing table is added: no memory, or a page of zeros that is not in the tree, to which entry `k` of
the table at `x` then points. -/
theorem walkLevel_spare (h : Holds s.mem r T) (hf : Spare s r T) {level : ℕ} (hx : T.page r x = some p)
    (he : load 8 s.mem (p + 8 * px level va) = 0) :
    walkLevel p va level true s = .ok (none, s) ∨ ∃ (q : ℕ) (u : Phys), IsPage q ∧ (∀ z, T.page r z ≠ some q) ∧
      Holds u.mem r T ∧ ZeroPage u.mem q ∧
      walkLevel p va level true s =
        .ok (some q, { u with mem := store 8 u.mem (p + 8 * px level va) (mkPte q PTE_V) }) ∧
      ∀ T', (∀ z a, T'.page r z = some a → T.page r z = some a ∨ a = q) →
        Spare { u with mem := store 8 u.mem (p + 8 * px level va) (mkPte q PTE_V) } r T' := by
  obtain ⟨l, hpool, hspare⟩ := hf
  have hrest {q : ℕ} {u : Phys} (hk : kalloc s = .ok (q, u)) : walkLevel p va level true s =
      (if q = 0 then pure none else do
        memset q 0
        setWord (p + 8 * px level va) (pa2pte q ||| PTE_V)
        pure (some q) : K (Option ℕ)) u := by
    rw [walkLevel, run_bind (run_getWord _ _), he]
    simp only [Nat.zero_and, ne_eq, not_true_eq_false, if_false, Bool.not_true, Bool.false_eq_true]
    exact run_bind hk
  obtain ⟨rfl, hk⟩ | ⟨q, l', u, rfl, hk, honly, hpool'⟩ := kalloc_pool hpool
  · left
    rw [hrest hk]
    rfl
  · right
    have hq := hpool.page q List.mem_cons_self
    have hnew := hspare q List.mem_cons_self
    have hnot : q ∉ l' := (List.nodup_cons.1 hpool.chain.nodup).1
    have hzero : OnlyPage q s.mem (fill u.mem q PGSIZE 0) :=
      honly.trans (onlyPage_of_eqOutside (fill_eqOutside _ _ _ _) hq.aligned le_rfl le_rfl)
    have hkeep : Holds (fill u.mem q PGSIZE 0) r T :=
      h.congr fun z a ha => hzero a (h.page z a ha).aligned fun e => hnew z (e ▸ ha)
    refine ⟨q, { u with mem := fill u.mem q PGSIZE 0 }, hq, hnew, hkeep, zeroPage_fill _ _, ?_, fun T' hT' => ?_⟩
    · rw [hrest hk, if_neg hq.pos.ne', run_bind (run_memset _ _ _), run_bind (run_setWord _ _ _)]
      rfl
    · have hpal := (h.page x p hx).aligned
      have hlt := px_lt level va
      have hne {a : ℕ} (ha : a ∈ l') : a ≠ q ∧ a ≠ p :=
        ⟨fun e => hnot (e ▸ ha), fun e => hspare a (List.mem_cons_of_mem _ ha) x (e ▸ hx)⟩
      refine ⟨l', hpool'.congr rfl fun a ha => ?_, fun a ha z hz => ?_⟩
      · have hal := (hpool'.page a ha).aligned
        have hfill : SamePage u.mem (fill u.mem q PGSIZE 0) a :=
          onlyPage_of_eqOutside (fill_eqOutside _ _ _ _) hq.aligned le_rfl le_rfl a hal (hne ha).1
        refine hfill.trans ?_
        exact onlyPage_of_eqOutside (store_eqOutside _ _ _ _) hpal (by omega) (by omega) a hal (hne ha).2
      · obtain hz | rfl := hT' z a hz
        · exact hspare a (List.mem_cons_of_mem _ ha) z hz
        · exact hnot ha

theorem Holds.walkLevel_root (h : Holds s.mem r T) (hf : Spare s r T) (va : ℕ) :
    ∃ o t T', walkLevel r va 2 true s = .ok (o, t) ∧ Holds t.mem r T' ∧ Spare t r T' ∧ T'.leaf = T.leaf ∧
      ∀ p, o = some p → T'.mid (px 2 va) = some p := by
  have he : load 8 s.mem (r + 8 * px 2 va) = ptr (T.mid (px 2 va)) := h.entry .root r rfl _ (px_lt _ _)
  cases hm : T.mid (px 2 va) with
  | some p =>
    rw [hm] at he
    exact ⟨some p, s, T, walkLevel_valid (h.page (.mid _) p hm).aligned he, h, hf, rfl, fun x hx => hm.trans hx⟩
  | none =>
    rw [hm] at he
    obtain hrun | ⟨q, u, hq, hnew, hu, hz, hrun, hspare⟩ := walkLevel_spare (x := .root) h hf rfl he
    · exact ⟨none, s, T, hrun, h, hf, rfl, by simp⟩
    · refine ⟨some q, _, T.setMid (px 2 va) q, hrun, hu.setMid (px_lt _ _) hm hz hq hnew, hspare _ fun z a ha => ?_,
        rfl, by simp⟩
      cases z with
      | mid i =>
        by_cases e : i = px 2 va
        · right
          simpa [Tree.page, e] using ha.symm
        · left
          simpa [Tree.page, e] using ha
      | _ => exact .inl ha

theorem Holds.walkLevel_mid (h : Holds s.mem r T) (hf : Spare s r T) (hp : T.mid (px 2 va) = some p) :
    ∃ o t T', walkLevel p va 1 true s = .ok (o, t) ∧ Holds t.mem r T' ∧ Spare t r T' ∧ T'.leaf = T.leaf ∧
      ∀ q, o = some q → T'.low (px 2 va) (px 1 va) = some q := by
  have he : load 8 s.mem (p + 8 * px 1 va) = ptr (T.low (px 2 va) (px 1 va)) :=
    h.entry (.mid _) p hp _ (px_lt _ _)
  cases hl : T.low (px 2 va) (px 1 va) with
  | some q =>
    rw [hl] at he
    exact ⟨some q, s, T, walkLevel_valid (h.page (.low _ _) q hl).aligned he, h, hf, rfl, fun x hx => hl.trans hx⟩
  | none =>
    rw [hl] at he
    obtain hrun | ⟨q, u, hq, hnew, hu, hz, hrun, hspare⟩ := walkLevel_spare (x := .mid (px 2 va)) h hf hp he
    · exact ⟨none, s, T, hrun, h, hf, rfl, by simp⟩
    · refine ⟨some q, _, T.setLow (px 2 va) (px 1 va) q, hrun, hu.setLow hp (px_lt _ _) hl hz hq hnew,
        hspare _ fun z a ha => ?_, rfl, by simp⟩
      cases z with
      | low i j =>
        by_cases e : i = px 2 va ∧ j = px 1 va
        · right
          simpa [Tree.page, e] using ha.symm
        · left
          simpa [Tree.page, e] using ha
      | _ => exact .inl ha

/-- `walk` with `alloc` fails, or finds or makes the leaf table of the address. -/
theorem Holds.walk_alloc (h : Holds s.mem r T) (hf : Spare s r T) (hva : va < MAXVA) :
    ∃ a t T', Vm.walk r va true s = .ok (a, t) ∧ Holds t.mem r T' ∧ Spare t r T' ∧ T'.leaf = T.leaf ∧
      (a = 0 ∨ ∃ q, T'.low (px 2 va) (px 1 va) = some q ∧ a = q + 8 * px 0 va) := by
  rw [Vm.walk, if_neg (by omega)]
  obtain ⟨o, t₁, T₁, hrun₁, h₁, hf₁, hleaf₁, hmid⟩ := h.walkLevel_root hf va
  rw [run_bind hrun₁]
  cases o with
  | none => exact ⟨0, t₁, T₁, rfl, h₁, hf₁, hleaf₁, .inl rfl⟩
  | some p =>
    obtain ⟨o, t₂, T₂, hrun₂, h₂, hf₂, hleaf₂, hlow⟩ := h₁.walkLevel_mid hf₁ (hmid p rfl)
    simp only [run_bind hrun₂]
    have hleaf : T₂.leaf = T.leaf := hleaf₂.trans hleaf₁
    cases o with
    | none => exact ⟨0, t₂, T₂, rfl, h₂, hf₂, hleaf, .inl rfl⟩
    | some q => exact ⟨_, t₂, T₂, rfl, h₂, hf₂, hleaf, .inr ⟨q, hlow q rfl, rfl⟩⟩

end Xv6.Vm
