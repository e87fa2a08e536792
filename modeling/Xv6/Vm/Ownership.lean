import Xv6.Vm.Pte

/-!
# Who owns which page

An ownership map gives every page of the allocator one owner: the free list, a position in a page
table, a user page of an address space, or something outside this part of the kernel.  `VmOk` says
that memory agrees with such a map and with the contents of the page tables, given as trees.  The
lemmas below are its changes: taking a page from the free list, returning one, and the stores that
link a page into a table or take it out.
-/

namespace Xv6.Vm

open Memory Kalloc LinkedList

/-- The first page number that user memory cannot use. -/
def UTOP : ℕ := TRAPFRAME / PGSIZE

inductive Owner
  | free
  /-- In the hands of running kernel code. -/
  | held
  /-- Taken at boot. -/
  | boot
  /-- The page tables at address `r`: the root, the table of entry `i` of the root, and the table of
  entry `j` of that one. -/
  | root (r : ℕ)
  | mid (r i : ℕ)
  | low (r i j : ℕ)
  /-- The user page with number `v` in the address space of `r`. -/
  | user (r v : ℕ)
  | trapframe (slot : ℕ)
  | pipe
  deriving DecidableEq

/-- The page-table root that the page belongs to. -/
def Owner.table : Owner → Option ℕ
  | .root r | .mid r _ | .low r _ _ | .user r _ => some r
  | _ => none

/-- The page is a table of `r`. -/
def Owner.IsTable (r : ℕ) (o : Owner) : Prop := o.table = some r ∧ ∀ v, o ≠ .user r v

abbrev Owners := ℕ → Option Owner

/-- The contents of a page table: its tables, and the word of each leaf entry. -/
structure Tree where
  mid : ℕ → Option ℕ
  low : ℕ → ℕ → Option ℕ
  leaf : ℕ → ℕ

/-- A leaf maps a page readably, and below `UTOP` it is that page's only owner. -/
structure LeafOk (own : Owners) (r v w : ℕ) : Prop where
  flags : ∃ f < 1024, w = mkPte (pte2pa w) f ∧ f % 2 = 1 ∧ f &&& PTE_R ≠ 0
  aligned : pte2pa w % 4096 = 0
  below : pte2pa w < PHYSTOP
  owner : v < UTOP → own (pte2pa w) = some (.user r v)

/-- Memory holds the table `T` at `r`, in pages that belong to it. -/
structure TableOk (m : Mem) (own : Owners) (r : ℕ) (T : Tree) : Prop where
  root_own : own r = some (.root r)
  root_entry : ∀ i < 512, load 8 m (r + 8 * i) = ptr (T.mid i)
  mid_own : ∀ i p, T.mid i = some p → i < 512 ∧ own p = some (.mid r i)
  mid_entry : ∀ i p, T.mid i = some p → ∀ j < 512, load 8 m (p + 8 * j) = ptr (T.low i j)
  low_own : ∀ i j p, T.low i j = some p → j < 512 ∧ (T.mid i).isSome ∧ own p = some (.low r i j)
  low_entry : ∀ i j p, T.low i j = some p → ∀ k < 512,
    load 8 m (p + 8 * k) = T.leaf (vpn i j k)
  leaf_low : ∀ i j k, j < 512 → k < 512 → T.leaf (vpn i j k) ≠ 0 → (T.low i j).isSome
  leaf_ok : ∀ v, T.leaf v ≠ 0 → LeafOk own r v (T.leaf v)
  own_root : ∀ p, own p = some (.root r) → p = r
  own_mid : ∀ p i, own p = some (.mid r i) → T.mid i = some p
  own_low : ∀ p i j, own p = some (.low r i j) → T.low i j = some p
  own_user : ∀ p v, own p = some (.user r v) → v < UTOP ∧ T.leaf v ≠ 0 ∧ pte2pa (T.leaf v) = p

/-- The free list holds exactly the free pages. -/
def FreeOk (m : Mem) (head : ℕ) (own : Owners) : Prop :=
  ∃ l, Chain (next m) 0 head l ∧ ∀ p, p ∈ l ↔ own p = some .free

variable (L : Layout)

/-- Memory agrees with the owners of the pages and with the contents `tabs` of the page tables. -/
structure VmOk (s : Phys) (own : Owners) (tabs : ℕ → Option Tree) : Prop where
  pages : ∀ p, (own p).isSome ↔ p ∈ L.pages
  free : FreeOk s.mem s.freelist own
  table : ∀ r T, tabs r = some T → TableOk s.mem own r T
  rooted : ∀ p o r, own p = some o → o.table = some r → (tabs r).isSome
  refreed : s.refreed = false

variable {L} {s : Phys} {m m' : Mem} {own own' : Owners} {tabs : ℕ → Option Tree} {r p q : ℕ}
  {T T' : Tree} {o : Owner}

theorem VmOk.mem_pages (h : VmOk L s own tabs) (hp : own p = some o) : p ∈ L.pages :=
  (h.pages p).1 (by rw [hp]; rfl)

theorem VmOk.aligned (h : VmOk L s own tabs) (hp : own p = some o) : p % 4096 = 0 :=
  (page_facts (h.mem_pages hp)).1

theorem VmOk.ne_zero (h : VmOk L s own tabs) (hp : own p = some o) : p ≠ 0 :=
  Nat.ne_of_gt (page_facts (h.mem_pages hp)).2.1

theorem VmOk.below (h : VmOk L s own tabs) (hp : own p = some o) : p < PHYSTOP := by
  have := (page_facts (h.mem_pages hp)).2.2.1
  omega

/-! ## What each part depends on -/

theorem TableOk.congr (h : TableOk m own r T)
    (hm : ∀ p o, own p = some o → o.IsTable r → SamePage m m' p)
    (hown : ∀ p o, o.table = some r → (own' p = some o ↔ own p = some o)) :
    TableOk m' own' r T := by
  have hroot := hm r _ h.root_own ⟨rfl, by simp⟩
  have hmid {i p : ℕ} (hp : T.mid i = some p) : SamePage m m' p :=
    hm p _ (h.mid_own i p hp).2 ⟨rfl, by simp⟩
  have hlow {i j p : ℕ} (hp : T.low i j = some p) : SamePage m m' p :=
    hm p _ (h.low_own i j p hp).2.2 ⟨rfl, by simp⟩
  exact
    { root_own := (hown _ _ rfl).2 h.root_own
      root_entry := fun i hi => (hroot.load hi).trans (h.root_entry i hi)
      mid_own := fun i p hp => ⟨(h.mid_own i p hp).1, (hown _ _ rfl).2 (h.mid_own i p hp).2⟩
      mid_entry := fun i p hp j hj => ((hmid hp).load hj).trans (h.mid_entry i p hp j hj)
      low_own := fun i j p hp => ⟨(h.low_own i j p hp).1, (h.low_own i j p hp).2.1,
        (hown _ _ rfl).2 (h.low_own i j p hp).2.2⟩
      low_entry := fun i j p hp k hk => ((hlow hp).load hk).trans (h.low_entry i j p hp k hk)
      leaf_low := h.leaf_low
      leaf_ok := fun v hv =>
        { h.leaf_ok v hv with owner := fun hu => (hown _ _ rfl).2 ((h.leaf_ok v hv).owner hu) }
      own_root := fun p hp => h.own_root p ((hown _ _ rfl).1 hp)
      own_mid := fun p i hp => h.own_mid p i ((hown _ _ rfl).1 hp)
      own_low := fun p i j hp => h.own_low p i j ((hown _ _ rfl).1 hp)
      own_user := fun p v hp => h.own_user p v ((hown _ _ rfl).1 hp) }

theorem FreeOk.congr {head : ℕ} (h : FreeOk m head own)
    (hm : ∀ p, own p = some .free → SamePage m m' p)
    (hown : ∀ p, own' p = some .free ↔ own p = some .free) : FreeOk m' head own' := by
  obtain ⟨l, hl, hmem⟩ := h
  refine ⟨l, hl.congr fun p hp => ?_, fun p => (hmem p).trans (hown p).symm⟩
  exact (hm p ((hmem p).1 hp)).next

/-- Owners that this part of the kernel does not distinguish. -/
def Owner.Opaque (o : Owner) : Prop := o ≠ .free ∧ o.table = none

theorem VmOk.write_page (h : VmOk L s own tabs) (hq : own q = some o) (hfree : o ≠ .free)
    (htab : ∀ r, ¬ o.IsTable r) (hm : ∀ p, p % 4096 = 0 → p ≠ q → SamePage s.mem m' p) :
    VmOk L { s with mem := m' } own tabs where
  pages := h.pages
  free := h.free.congr (fun p hp => hm p (h.aligned hp) fun e => by
    rw [e, hq] at hp
    exact hfree (Option.some.inj hp)) fun _ => Iff.rfl
  table r T hT := (h.table r T hT).congr (fun p o' hp ho' => hm p (h.aligned hp) fun e => by
    rw [e, hq] at hp
    exact htab r (Option.some.inj hp ▸ ho')) fun _ _ _ => Iff.rfl
  rooted := h.rooted
  refreed := h.refreed

/-! ## A page changes its owner -/

/-- A page that changes its owner concerns its old and its new owner only. -/
theorem update_iff (hp : own p = some o) (q : ℕ) {o' a : Owner} (ha : a ≠ o := by simp)
    (ha' : a ≠ o' := by simp) :
    Function.update own p (some o') q = some a ↔ own q = some a := by
  by_cases e : q = p
  · rw [e, Function.update_self, hp]
    exact ⟨fun h => absurd (Option.some.inj h).symm ha', fun h => absurd (Option.some.inj h).symm ha⟩
  · rw [Function.update_of_ne e]

theorem update_isSome (hp : own p = some o) (o' : Owner) (q : ℕ) :
    (Function.update own p (some o') q).isSome = (own q).isSome := by
  by_cases e : q = p
  · rw [e, Function.update_self, hp]
    rfl
  · rw [Function.update_of_ne e]

/-- Memory differs on page `p` only. -/
def OnlyPage (p : ℕ) (m m' : Mem) : Prop := ∀ q, q % 4096 = 0 → q ≠ p → SamePage m m' q

theorem onlyPage_of_eqOutside {a n : ℕ} (h : EqOutside a n m m') (hp : p % 4096 = 0) (ha : p ≤ a)
    (hn : a + n ≤ p + 4096) : OnlyPage p m m' := fun _ hq hne => samePage_of_eqOutside h hp hq hne ha hn

theorem OnlyPage.trans {m'' : Mem} (h : OnlyPage p m m') (h' : OnlyPage p m' m'') :
    OnlyPage p m m'' := fun q hq hne => (h q hq hne).trans (h' q hq hne)

/-- A page passes between owners outside the tables. -/
theorem VmOk.pass {t : Phys} {o' : Owner} (h : VmOk L s own tabs) (hp : own p = some o)
    (ho : o.table = none) (ho' : o'.table = none) (hm : OnlyPage p s.mem t.mem)
    (hfree : FreeOk t.mem t.freelist (Function.update own p (some o'))) (ht : t.refreed = false) :
    VmOk L t (Function.update own p (some o')) tabs := by
  have hne {a : Owner} {r : ℕ} (ha : a.table = some r) : a ≠ o ∧ a ≠ o' := by
    constructor <;> rintro rfl <;> simp_all
  exact
    { pages := fun q => by rw [update_isSome hp]; exact h.pages q
      free := hfree
      table := fun r T hT => (h.table r T hT).congr
        (fun q a hq ha => hm q (h.aligned hq) fun e => by
          rw [e, hp] at hq
          exact (hne ha.1).1 (Option.some.inj hq).symm)
        fun q a ha => update_iff hp q (hne ha).1 (hne ha).2
      rooted := fun q a r hq ha => h.rooted q a r ((update_iff hp q (hne ha).1 (hne ha).2).1 hq) ha
      refreed := ht }

/-- A page passes between owners that this part does not distinguish. -/
theorem VmOk.relabel (h : VmOk L s own tabs) (hp : own p = some o) (ho : o.Opaque) (o' : Owner)
    (ho' : o'.Opaque) : VmOk L s (Function.update own p (some o')) tabs :=
  h.pass hp ho.2 ho'.2 (fun _ _ _ => SamePage.refl _ _)
    (h.free.congr (fun _ _ => SamePage.refl _ _) fun q => update_iff hp q ho.1.symm ho'.1.symm) h.refreed

theorem FreeOk.length_le {head : ℕ} {l : List ℕ} (hl : Chain (next m) 0 head l)
    (hsub : ∀ p ∈ l, p ∈ L.pages) : l.length ≤ L.total := by
  rw [← length_pages L]
  exact (hl.nodup.subperm fun p hp => hsub p hp).length_le

theorem nodes_of_chain {head fuel : ℕ} {l : List ℕ} (hl : Chain (next m) 0 head l)
    (hf : l.length ≤ fuel) : nodes m fuel head = l := by
  induction l generalizing head fuel with
  | nil =>
    obtain rfl : head = 0 := hl
    cases fuel <;> simp [nodes]
  | cons p l ih =>
    obtain ⟨rfl, hp, hl⟩ := hl
    obtain ⟨n, rfl⟩ := Nat.exists_eq_succ_of_ne_zero (Nat.ne_zero_of_lt hf)
    rw [nodes, if_neg hp, ih hl (by simpa using hf)]

theorem kalloc_spec (h : VmOk L s own tabs) : ∃ p t, kalloc s = .ok (p, t) ∧
    (p = 0 ∧ t = s ∨ own p = some .free ∧ OnlyPage p s.mem t.mem ∧
      VmOk L t (Function.update own p (some .held)) tabs) := by
  by_cases hr : s.freelist = 0
  · refine ⟨0, s, ?_, .inl ⟨rfl, rfl⟩⟩
    simp only [kalloc, Kernel.run_bind (Kernel.run_get s), hr, if_true]
    rfl
  obtain ⟨l, hl, hmem⟩ := h.free
  obtain ⟨l, rfl, hl'⟩ := hl.exists_cons hr
  have hfree : own s.freelist = some .free := (hmem _).1 List.mem_cons_self
  have hal := h.aligned hfree
  have honly : OnlyPage s.freelist s.mem (fill s.mem s.freelist PGSIZE 5) :=
    onlyPage_of_eqOutside (fill_eqOutside _ _ _ _) hal le_rfl le_rfl
  have hnot : s.freelist ∉ l := (List.nodup_cons.1 hl.nodup).1
  refine ⟨s.freelist, ⟨fill s.mem s.freelist PGSIZE 5, next s.mem s.freelist, s.refreed⟩, ?_,
    .inr ⟨hfree, honly, ?_⟩⟩
  · simp only [kalloc, Kernel.run_bind (Kernel.run_get s), hr, if_false]
    rfl
  refine h.pass hfree rfl rfl honly ⟨l, hl'.congr fun q hq => ?_, fun q => ?_⟩ h.refreed
  · have hqf := (hmem q).1 (List.mem_cons_of_mem _ hq)
    exact (honly q (h.aligned hqf) fun e => hnot (e ▸ hq)).next
  · by_cases e : q = s.freelist
    · rw [e, Function.update_self]
      simp [hnot]
    · rw [Function.update_of_ne e, ← hmem q, List.mem_cons]
      simp [e]

/-- The memory after `kfree`. -/
def freed (s : Phys) (p : ℕ) : Mem := store 8 (fill s.mem p PGSIZE 1) p s.freelist

theorem freed_onlyPage (s : Phys) (hp : p % 4096 = 0) : OnlyPage p s.mem (freed s p) :=
  (onlyPage_of_eqOutside (fill_eqOutside _ _ _ _) hp le_rfl le_rfl).trans
    (onlyPage_of_eqOutside (store_eqOutside _ _ _ _) hp le_rfl (by omega))

/-- `kfree` does not panic on a page that is in use, and notes that it is not a free one. -/
theorem run_kfree (h : VmOk L s own tabs) (hp : own p = some o) (ho : o ≠ .free) :
    kfree L p s = .ok ((), ⟨freed s p, p, false⟩) := by
  obtain ⟨l, hl, hmem⟩ := h.free
  have hnot : p ∉ l := fun hp' => by
    rw [hmem, hp] at hp'
    exact ho (Option.some.inj hp')
  have hlen : l.length ≤ L.total :=
    FreeOk.length_le hl fun q hq => h.mem_pages ((hmem q).1 hq)
  rw [kfree, kfreePanics_eq_false L (h.mem_pages hp), if_neg (by simp), Kernel.run_modify,
    nodes_of_chain hl (by omega), h.refreed]
  simp [hnot, freed]

theorem VmOk.kfree (h : VmOk L s own tabs) (hp : own p = some .held) :
    VmOk L ⟨freed s p, p, false⟩ (Function.update own p (some .free)) tabs := by
  obtain ⟨l, hl, hmem⟩ := h.free
  have hal := h.aligned hp
  have honly := freed_onlyPage s hal
  have hnot : p ∉ l := fun hp' => by
    rw [hmem, hp] at hp'
    cases hp'
  have hnext : next (freed s p) p = s.freelist := by
    rw [next, freed, load_store_self]
    refine Nat.mod_eq_of_lt ?_
    by_cases h₀ : s.freelist = 0
    · rw [h₀]
      norm_num
    · obtain ⟨l', rfl, -⟩ := hl.exists_cons h₀
      have := h.below ((hmem _).1 List.mem_cons_self)
      unfold PHYSTOP KERNBASE at this
      omega
  refine h.pass hp rfl rfl honly ⟨p :: l, ⟨rfl, h.ne_zero hp, ?_⟩, fun q => ?_⟩ rfl
  · rw [hnext]
    refine hl.congr fun q hq => ?_
    exact (honly q (h.aligned ((hmem q).1 hq)) fun e => hnot (e ▸ hq)).next
  · by_cases e : q = p
    · rw [e, Function.update_self]
      simp
    · rw [Function.update_of_ne e, ← hmem q, List.mem_cons]
      simp [e]

/-! ## A page enters or leaves a table -/

def ZeroPage (m : Mem) (p : ℕ) : Prop := ∀ k < 512, load 8 m (p + 8 * k) = 0

def Tree.empty : Tree := ⟨fun _ => none, fun _ _ => none, fun _ => 0⟩

def Tree.setMid (T : Tree) (i p : ℕ) : Tree := { T with mid := Function.update T.mid i (some p) }

def Tree.setLow (T : Tree) (i j p : ℕ) : Tree :=
  { T with low := Function.update T.low i (Function.update (T.low i) j (some p)) }

def Tree.setLeaf (T : Tree) (v w : ℕ) : Tree := { T with leaf := Function.update T.leaf v w }

@[simp] theorem Tree.setMid_mid (T : Tree) (i p k : ℕ) :
    (T.setMid i p).mid k = if k = i then some p else T.mid k := Function.update_apply _ _ _ _

@[simp] theorem Tree.setMid_low (T : Tree) (i p : ℕ) : (T.setMid i p).low = T.low := rfl

@[simp] theorem Tree.setMid_leaf (T : Tree) (i p : ℕ) : (T.setMid i p).leaf = T.leaf := rfl

@[simp] theorem Tree.setLow_mid (T : Tree) (i j p : ℕ) : (T.setLow i j p).mid = T.mid := rfl

@[simp] theorem Tree.setLow_low (T : Tree) (i j p k n : ℕ) :
    (T.setLow i j p).low k n = if k = i ∧ n = j then some p else T.low k n := by
  by_cases h : k = i
  · subst h
    by_cases h' : n = j <;> simp [Tree.setLow, h']
  · simp [Tree.setLow, h]

@[simp] theorem Tree.setLow_leaf (T : Tree) (i j p : ℕ) : (T.setLow i j p).leaf = T.leaf := rfl

@[simp] theorem Tree.setLeaf_mid (T : Tree) (v w : ℕ) : (T.setLeaf v w).mid = T.mid := rfl

@[simp] theorem Tree.setLeaf_low (T : Tree) (v w : ℕ) : (T.setLeaf v w).low = T.low := rfl

@[simp] theorem Tree.setLeaf_leaf (T : Tree) (v w u : ℕ) :
    (T.setLeaf v w).leaf u = if u = v then w else T.leaf u := Function.update_apply _ _ _ _

theorem VmOk.no_table (h : VmOk L s own tabs) (hp : own p = some o) (ho : o ≠ .root p) :
    tabs p = none := by
  cases hT : tabs p with
  | none => rfl
  | some T =>
    have := (h.table p T hT).root_own
    rw [hp] at this
    exact absurd (Option.some.inj this) ho

/-- A change of the table `r`: it may write to its tables and exchange pages with the kernel. -/
theorem VmOk.change (h : VmOk L s own tabs) (hpages : ∀ x, (own' x).isSome = (own x).isSome)
    (hown : ∀ x a, a ≠ .held → a.table ≠ some r → (own' x = some a ↔ own x = some a))
    (hm : ∀ x a, own x = some a → ¬ a.IsTable r → SamePage s.mem m' x) (hnew : TableOk m' own' r T') :
    VmOk L { s with mem := m' } own' (Function.update tabs r (some T')) := by
  have hne {a : Owner} {r' : ℕ} (e : r' ≠ r) (ha : a.table = some r') : a ≠ .held ∧ a.table ≠ some r := by
    refine ⟨?_, fun e' => e (Option.some.inj (ha.symm.trans e'))⟩
    rintro rfl
    cases ha
  exact
    { pages := fun x => by rw [hpages]; exact h.pages x
      free := h.free.congr (fun x hx => hm x _ hx fun ha => by cases ha.1)
        fun x => hown x _ (by simp) (by simp [Owner.table])
      table := fun r' T'' hT' => by
        by_cases e : r' = r
        · subst e
          rw [Function.update_self] at hT'
          exact Option.some.inj hT' ▸ hnew
        · rw [Function.update_of_ne e] at hT'
          exact (h.table r' T'' hT').congr (fun x b hx hb => hm x b hx fun ha => (hne e hb.1).2 ha.1)
            fun x b hb => hown x b (hne e hb).1 (hne e hb).2
      rooted := fun x b r' hx hb => by
        by_cases e : r' = r
        · rw [e, Function.update_self]
          rfl
        · rw [Function.update_of_ne e]
          exact h.rooted x b r' ((hown x b (hne e hb).1 (hne e hb).2).1 hx) hb
      refreed := h.refreed }

theorem VmOk.newTable (h : VmOk L s own tabs) (hp : own p = some .held) (hz : ZeroPage s.mem p) :
    VmOk L s (Function.update own p (some (.root p))) (Function.update tabs p (some .empty)) := by
  have hnone : tabs p = none := h.no_table hp (by simp)
  have hnot {a : Owner} {q : ℕ} (ha : a.table = some p) (ha' : a ≠ .root p)
      (hq : Function.update own p (some (.root p)) q = some a) : False := by
    rw [update_iff hp _ (fun e => by rw [e] at ha; cases ha) ha'] at hq
    have := h.rooted q a p hq ha
    rw [hnone] at this
    cases this
  refine h.change (update_isSome hp _)
    (fun x a ha ha' => update_iff hp x ha fun e : a = .root p => ha' (by rw [e]; rfl))
    (fun _ _ _ _ => SamePage.refl _ _) ?_
  exact
    { root_own := Function.update_self _ _ _
      root_entry := hz
      mid_own := fun _ _ h => by cases h
      mid_entry := fun _ _ h => by cases h
      low_own := fun _ _ _ h => by cases h
      low_entry := fun _ _ _ h => by cases h
      leaf_low := fun _ _ _ _ _ h => absurd rfl h
      leaf_ok := fun _ h => absurd rfl h
      own_root := fun q hq => by
        by_contra e
        rw [Function.update_of_ne e] at hq
        have := h.rooted q _ p hq rfl
        rw [hnone] at this
        cases this
      own_mid := fun q i hq => (hnot rfl (by simp) hq).elim
      own_low := fun q i j hq => (hnot rfl (by simp) hq).elim
      own_user := fun q v hq => (hnot rfl (by simp) hq).elim }

/-- A write to one page of the table `r`. -/
theorem OnlyPage.samePage {a b : Owner} {x : ℕ} (hm : OnlyPage q s.mem m') (h : VmOk L s own tabs)
    (hq : own q = some a) (ha : a.IsTable r) (hx : own x = some b) (hb : ¬ b.IsTable r) :
    SamePage s.mem m' x :=
  hm x (h.aligned hx) fun e => by
    rw [e, hq] at hx
    exact hb (Option.some.inj hx ▸ ha)

/-- A change of the table `r` that takes a held page into it, writing to one of its pages. -/
theorem VmOk.extend (h : VmOk L s own tabs) (hp : own p = some .held)
    {o' a : Owner} (ho' : o'.table = some r) (hq : own q = some a) (ha : a.IsTable r)
    (hm : OnlyPage q s.mem m')
    (hnew : TableOk m' (Function.update own p (some o')) r T') :
    VmOk L { s with mem := m' } (Function.update own p (some o'))
      (Function.update tabs r (some T')) :=
  h.change (update_isSome hp _)
    (fun x b hb hb' => update_iff hp x hb fun e : b = o' => hb' (by rw [e, ho']))
    (fun _ _ => hm.samePage h hq ha) hnew

theorem isTable_root (r : ℕ) : (Owner.root r).IsTable r := ⟨rfl, by simp⟩

theorem isTable_mid (r i : ℕ) : (Owner.mid r i).IsTable r := ⟨rfl, by simp⟩

theorem isTable_low (r i j : ℕ) : (Owner.low r i j).IsTable r := ⟨rfl, by simp⟩

theorem LeafOk.update {v w : ℕ} (h : LeafOk own r v w) (hp : own p = some .held) {o' : Owner}
    (ho' : o' ≠ .user r v) : LeafOk (Function.update own p (some o')) r v w :=
  { h with owner := fun hv => (update_iff hp _ (by simp) (Ne.symm ho')).2 (h.owner hv) }

/-- A zeroed page becomes the table of entry `i` of the root. -/
theorem VmOk.addMid (h : VmOk L s own tabs) (hT : tabs r = some T) (hp : own p = some .held)
    (hz : ZeroPage s.mem p) {i : ℕ} (hi : i < 512) (hnone : T.mid i = none) :
    VmOk L { s with mem := store 8 s.mem (r + 8 * i) (mkPte p PTE_V) }
      (Function.update own p (some (.mid r i))) (Function.update tabs r (some (T.setMid i p))) := by
  have ht := h.table r T hT
  have hr := h.aligned ht.root_own
  have hp' := h.aligned hp
  have hlt : mkPte p PTE_V < 256 ^ 8 := mkPte_lt (h.below hp) (by decide)
  have hrp : p ≠ r := by
    rintro rfl
    have := ht.root_own
    rw [hp] at this
    cases this
  have hload {x k : ℕ} (hx : x % 4096 = 0) (hxr : x ≠ r) (hk : k < 512) :
      load 8 (store 8 s.mem (r + 8 * i) (mkPte p PTE_V)) (x + 8 * k) = load 8 s.mem (x + 8 * k) := by
    rw [load_store_entry hr hx hi hk hlt, if_neg fun e => hxr e.1]
  have hiff {a : Owner} (x : ℕ) (ha : a ≠ .held := by simp) (ha' : a ≠ .mid r i := by simp) :
      Function.update own p (some (.mid r i)) x = some a ↔ own x = some a := update_iff hp x ha ha'
  have hlow (j : ℕ) : T.low i j = none := by
    cases hl : T.low i j with
    | none => rfl
    | some x =>
      have := (ht.low_own i j x hl).2.1
      rw [hnone] at this
      cases this
  refine h.extend hp rfl ht.root_own (isTable_root r)
    (onlyPage_of_eqOutside (store_eqOutside _ _ _ _) hr (by omega) (by omega)) ?_
  exact
    { root_own := (hiff r).2 ht.root_own
      root_entry := fun k hk => by
        rw [load_store_entry hr hr hi hk hlt, Tree.setMid_mid]
        by_cases e : k = i
        · simp [e, ptr]
        · simp [e, ht.root_entry k hk]
      mid_own := fun k x hx => by
        rw [Tree.setMid_mid] at hx
        split_ifs at hx with e
        · obtain rfl := Option.some.inj hx
          rw [e]
          exact ⟨hi, Function.update_self _ _ _⟩
        · exact ⟨(ht.mid_own k x hx).1,
            (hiff x (by simp) (by simpa using e)).2 (ht.mid_own k x hx).2⟩
      mid_entry := fun k x hx j hj => by
        rw [Tree.setMid_mid] at hx
        split_ifs at hx with e
        · obtain rfl := Option.some.inj hx
          rw [hload hp' hrp hj, hz j hj, Tree.setMid_low, e, hlow]
          rfl
        · have hx' := (ht.mid_own k x hx).2
          rw [hload (h.aligned hx') (fun e' => ?_) hj]
          · exact ht.mid_entry k x hx j hj
          · rw [e', ht.root_own] at hx'
            cases hx'
      low_own := fun k j x hx => by
        obtain ⟨h₁, h₂, h₃⟩ := ht.low_own k j x hx
        refine ⟨h₁, ?_, (hiff x).2 h₃⟩
        rw [Tree.setMid_mid]
        split_ifs
        · rfl
        · exact h₂
      low_entry := fun k j x hx n hn => by
        have hx' := (ht.low_own k j x hx).2.2
        rw [hload (h.aligned hx') (fun e' => ?_) hn]
        · exact ht.low_entry k j x hx n hn
        · rw [e', ht.root_own] at hx'
          cases hx'
      leaf_low := ht.leaf_low
      leaf_ok := fun v hv => (ht.leaf_ok v hv).update hp (by simp)
      own_root := fun x hx => ht.own_root x ((hiff x).1 hx)
      own_mid := fun x k hx => by
        rw [Tree.setMid_mid]
        by_cases e : x = p
        · subst e
          rw [Function.update_self, Option.some.injEq, Owner.mid.injEq] at hx
          rw [if_pos hx.2.symm]
        · rw [Function.update_of_ne e] at hx
          have hx' := ht.own_mid x k hx
          rw [if_neg fun hk => ?_, hx']
          rw [hk, hnone] at hx'
          cases hx'
      own_low := fun x k j hx => ht.own_low x k j ((hiff x).1 hx)
      own_user := fun x v hx => ht.own_user x v ((hiff x).1 hx) }

theorem VmOk.addLow (h : VmOk L s own tabs) (hT : tabs r = some T) (hp : own p = some .held)
    (hz : ZeroPage s.mem p) {i j : ℕ} (hq : T.mid i = some q) (hj : j < 512)
    (hnone : T.low i j = none) :
    VmOk L { s with mem := store 8 s.mem (q + 8 * j) (mkPte p PTE_V) }
      (Function.update own p (some (.low r i j)))
      (Function.update tabs r (some (T.setLow i j p))) := by
  have ht := h.table r T hT
  have hqo := (ht.mid_own i q hq).2
  have hq' := h.aligned hqo
  have hp' := h.aligned hp
  have hlt : mkPte p PTE_V < 256 ^ 8 := mkPte_lt (h.below hp) (by decide)
  have hload {x k : ℕ} {a : Owner} (hx : own x = some a) (ha : a ≠ .mid r i) (hk : k < 512) :
      load 8 (store 8 s.mem (q + 8 * j) (mkPte p PTE_V)) (x + 8 * k) = load 8 s.mem (x + 8 * k) := by
    rw [load_store_entry hq' (h.aligned hx) hj hk hlt, if_neg fun e => ha ?_]
    rw [e.1, hqo] at hx
    exact (Option.some.inj hx).symm
  have hiff {a : Owner} (x : ℕ) (ha : a ≠ .held := by simp) (ha' : a ≠ .low r i j := by simp) :
      Function.update own p (some (.low r i j)) x = some a ↔ own x = some a :=
    update_iff hp x ha ha'
  have hleaf (k : ℕ) (hk : k < 512) : T.leaf (vpn i j k) = 0 := by
    by_contra hv
    have := ht.leaf_low i j k hj hk hv
    rw [hnone] at this
    cases this
  refine h.extend hp rfl hqo (isTable_mid r i)
    (onlyPage_of_eqOutside (store_eqOutside _ _ _ _) hq' (by omega) (by omega)) ?_
  exact
    { root_own := (hiff r).2 ht.root_own
      root_entry := fun k hk => by
        rw [hload ht.root_own (by simp) hk]
        exact ht.root_entry k hk
      mid_own := fun k x hx => ⟨(ht.mid_own k x hx).1,
        (hiff x).2 (ht.mid_own k x hx).2⟩
      mid_entry := fun k x hx n hn => by
        rw [Tree.setLow_low]
        by_cases e : k = i
        · subst e
          rw [Tree.setLow_mid, hq] at hx
          obtain rfl := Option.some.inj hx
          rw [load_store_entry hq' hq' hj hn hlt]
          by_cases e' : n = j
          · simp [e', ptr]
          · simp [e', ht.mid_entry k q hq n hn]
        · rw [if_neg fun e' => e e'.1,
            hload (ht.mid_own k x hx).2 (by simpa using e) hn]
          exact ht.mid_entry k x hx n hn
      low_own := fun k n x hx => by
        rw [Tree.setLow_low] at hx
        split_ifs at hx with e
        · obtain rfl := Option.some.inj hx
          rw [e.1, e.2, Tree.setLow_mid, hq]
          exact ⟨hj, rfl, Function.update_self _ _ _⟩
        · obtain ⟨h₁, h₂, h₃⟩ := ht.low_own k n x hx
          exact ⟨h₁, h₂, (hiff x (by simp) (by simpa using e)).2 h₃⟩
      low_entry := fun k n x hx c hc => by
        rw [Tree.setLow_low] at hx
        split_ifs at hx with e
        · obtain rfl := Option.some.inj hx
          rw [hload hp (by simp) hc, hz c hc, e.1, e.2]
          exact (hleaf c hc).symm
        · rw [hload (ht.low_own k n x hx).2.2 (by simp) hc]
          exact ht.low_entry k n x hx c hc
      leaf_low := fun k n c hn hc hv => by
        rw [Tree.setLow_low]
        split_ifs
        · rfl
        · exact ht.leaf_low k n c hn hc hv
      leaf_ok := fun v hv => (ht.leaf_ok v hv).update hp (by simp)
      own_root := fun x hx => ht.own_root x ((hiff x).1 hx)
      own_mid := fun x k hx => ht.own_mid x k ((hiff x).1 hx)
      own_low := fun x k n hx => by
        rw [Tree.setLow_low]
        by_cases e : x = p
        · subst e
          rw [Function.update_self, Option.some.injEq, Owner.low.injEq] at hx
          rw [if_pos ⟨hx.2.1.symm, hx.2.2.symm⟩]
        · rw [Function.update_of_ne e] at hx
          have hx' := ht.own_low x k n hx
          rw [if_neg fun e' => ?_, hx']
          rw [e'.1, e'.2, hnone] at hx'
          cases hx'
      own_user := fun x v hx => ht.own_user x v ((hiff x).1 hx) }

/-- A store to a leaf entry, with the change of owners that goes with it. -/
theorem TableOk.setLeaf (ht : TableOk m own r T) (hal : ∀ x a, own x = some a → x % 4096 = 0)
    {i j k w : ℕ} (hl : T.low i j = some p) (hk : k < 512) (hw : w < 256 ^ 8)
    (hown : ∀ x a, a.table = some r → a ≠ .user r (vpn i j k) →
      (own' x = some a ↔ own x = some a))
    (hleaf : w ≠ 0 → LeafOk own' r (vpn i j k) w)
    (huser : ∀ x, own' x = some (.user r (vpn i j k)) →
      vpn i j k < UTOP ∧ w ≠ 0 ∧ pte2pa w = x) :
    TableOk (store 8 m (p + 8 * k) w) own' r (T.setLeaf (vpn i j k) w) := by
  obtain ⟨hj, hmid, hpo⟩ := ht.low_own i j p hl
  have hp := hal p _ hpo
  have hload {x n : ℕ} {a : Owner} (hx : own x = some a) (ha : a ≠ .low r i j) (hn : n < 512) :
      load 8 (store 8 m (p + 8 * k) w) (x + 8 * n) = load 8 m (x + 8 * n) := by
    rw [load_store_entry hp (hal x a hx) hk hn hw, if_neg fun e => ha ?_]
    rw [e.1, hpo] at hx
    exact (Option.some.inj hx).symm
  exact
    { root_own := (hown r _ rfl (by simp)).2 ht.root_own
      root_entry := fun n hn => by
        rw [hload ht.root_own (by simp) hn]
        exact ht.root_entry n hn
      mid_own := fun n x hx => ⟨(ht.mid_own n x hx).1,
        (hown x _ rfl (by simp)).2 (ht.mid_own n x hx).2⟩
      mid_entry := fun n x hx c hc => by
        rw [hload (ht.mid_own n x hx).2 (by simp) hc]
        exact ht.mid_entry n x hx c hc
      low_own := fun n c x hx => ⟨(ht.low_own n c x hx).1, (ht.low_own n c x hx).2.1,
        (hown x _ rfl (by simp)).2 (ht.low_own n c x hx).2.2⟩
      low_entry := fun n c x hx y hy => by
        have hc := (ht.low_own n c x hx).1
        rw [Tree.setLeaf_leaf]
        by_cases e : n = i ∧ c = j
        · obtain ⟨rfl, rfl⟩ := e
          rw [Tree.setLeaf_low, hl] at hx
          obtain rfl := Option.some.inj hx
          rw [load_store_entry hp hp hk hy hw]
          by_cases e' : y = k
          · simp [e']
          · rw [if_neg fun h => e' h.2, if_neg fun h => e' (vpn_inj hj hy hj hk h).2.2]
            exact ht.low_entry n c p hl y hy
        · rw [hload (ht.low_own n c x hx).2.2 (by simpa using e) hy,
            if_neg fun h => e ⟨(vpn_inj hc hy hj hk h).1, (vpn_inj hc hy hj hk h).2.1⟩]
          exact ht.low_entry n c x hx y hy
      leaf_low := fun n c y hc hy hv => by
        rw [Tree.setLeaf_leaf] at hv
        split_ifs at hv with e
        · obtain ⟨rfl, rfl, rfl⟩ := vpn_inj hc hy hj hk e
          rw [Tree.setLeaf_low, hl]
          rfl
        · exact ht.leaf_low n c y hc hy hv
      leaf_ok := fun v hv => by
        rw [Tree.setLeaf_leaf] at hv ⊢
        split_ifs at hv ⊢ with e
        · rw [e]
          exact hleaf hv
        · have hok := ht.leaf_ok v hv
          exact { hok with
            owner := fun hu => (hown _ _ rfl (by simpa using e)).2 (hok.owner hu) }
      own_root := fun x hx => ht.own_root x ((hown x _ rfl (by simp)).1 hx)
      own_mid := fun x n hx => ht.own_mid x n ((hown x _ rfl (by simp)).1 hx)
      own_low := fun x n c hx => ht.own_low x n c ((hown x _ rfl (by simp)).1 hx)
      own_user := fun x v hx => by
        rw [Tree.setLeaf_leaf]
        by_cases e : v = vpn i j k
        · rw [e] at hx ⊢
          rw [if_pos rfl]
          exact huser x hx
        · rw [if_neg e]
          exact ht.own_user x v ((hown x _ rfl (by simpa using e)).1 hx) }

theorem VmOk.rewrite (h : VmOk L s own tabs) {a : Owner} (hq : own q = some a)
    (ha : a.IsTable r) (hm : OnlyPage q s.mem m') (hnew : TableOk m' own r T') :
    VmOk L { s with mem := m' } own (Function.update tabs r (some T')) :=
  h.change (fun _ => rfl) (fun _ _ _ _ => Iff.rfl) (fun _ _ => hm.samePage h hq ha) hnew

section Leaf

variable (h : VmOk L s own tabs) (hT : tabs r = some T) {i j k : ℕ} (hl : T.low i j = some q)
  (hk : k < 512)

include h hT hl hk

theorem store_leaf_onlyPage (w : ℕ) : OnlyPage q s.mem (store 8 s.mem (q + 8 * k) w) :=
  onlyPage_of_eqOutside (store_eqOutside _ _ _ _)
    (h.aligned ((h.table r T hT).low_own i j q hl).2.2) (by omega) (by omega)

theorem VmOk.mapUser {f : ℕ} (hp : own p = some .held) (hv : vpn i j k < UTOP)
    (hnone : T.leaf (vpn i j k) = 0) (hf : f < 1024) (hf₁ : f % 2 = 1) (hf₂ : f &&& PTE_R ≠ 0) :
    VmOk L { s with mem := store 8 s.mem (q + 8 * k) (mkPte p f) }
      (Function.update own p (some (.user r (vpn i j k))))
      (Function.update tabs r (some (T.setLeaf (vpn i j k) (mkPte p f)))) := by
  have ht := h.table r T hT
  have hpa : pte2pa (mkPte p f) = p := pte2pa_mkPte (h.aligned hp) hf
  refine h.extend hp rfl (ht.low_own i j q hl).2.2 (isTable_low r i j)
    (store_leaf_onlyPage h hT hl hk _) ?_
  refine ht.setLeaf (fun x a hx => h.aligned hx) hl hk (mkPte_lt (h.below hp) hf)
    (fun x a ha hau => update_iff hp x (fun e => by rw [e] at ha; cases ha) hau) (fun _ => ?_)
    fun x hx => ?_
  · exact
      { flags := ⟨f, hf, by rw [hpa], hf₁, hf₂⟩
        aligned := by rw [hpa]; exact h.aligned hp
        below := by rw [hpa]; exact h.below hp
        owner := fun _ => by rw [hpa, Function.update_self] }
  · have hxp : x = p := by
      by_contra e
      rw [Function.update_of_ne e] at hx
      exact (ht.own_user x _ hx).2.1 hnone
    refine ⟨hv, fun e => ?_, hpa.trans hxp.symm⟩
    have := h.ne_zero hp
    rw [← hpa, e] at this
    exact this rfl

/-- A page outside user memory is mapped, or an entry changes its flags. -/
theorem VmOk.mapOther {w : ℕ} (hw : w ≠ 0) (hlt : w < 256 ^ 8) (hok : LeafOk own r (vpn i j k) w)
    (hkeep : vpn i j k < UTOP → T.leaf (vpn i j k) ≠ 0 ∧
      pte2pa (T.leaf (vpn i j k)) = pte2pa w) :
    VmOk L { s with mem := store 8 s.mem (q + 8 * k) w } own
      (Function.update tabs r (some (T.setLeaf (vpn i j k) w))) := by
  have ht := h.table r T hT
  refine h.rewrite (ht.low_own i j q hl).2.2 (isTable_low r i j)
    (store_leaf_onlyPage h hT hl hk _) ?_
  refine ht.setLeaf (fun x a hx => h.aligned hx) hl hk hlt (fun _ _ _ _ => Iff.rfl) (fun _ => hok)
    fun x hx => ?_
  obtain ⟨hv, -, hpa⟩ := ht.own_user x _ hx
  exact ⟨hv, hw, (hkeep hv).2.symm.trans hpa⟩

theorem VmOk.unmapOther (hv : UTOP ≤ vpn i j k) :
    VmOk L { s with mem := store 8 s.mem (q + 8 * k) 0 } own
      (Function.update tabs r (some (T.setLeaf (vpn i j k) 0))) := by
  have ht := h.table r T hT
  refine h.rewrite (ht.low_own i j q hl).2.2 (isTable_low r i j)
    (store_leaf_onlyPage h hT hl hk _) ?_
  refine ht.setLeaf (fun x a hx => h.aligned hx) hl hk (by norm_num) (fun _ _ _ _ => Iff.rfl)
    (fun e => absurd rfl e) fun x hx => ?_
  have := (ht.own_user x _ hx).1
  omega

theorem VmOk.unmapUser (hv : vpn i j k < UTOP) (hleaf : T.leaf (vpn i j k) ≠ 0) :
    VmOk L { s with mem := store 8 s.mem (q + 8 * k) 0 }
      (Function.update own (pte2pa (T.leaf (vpn i j k))) (some .held))
      (Function.update tabs r (some (T.setLeaf (vpn i j k) 0))) := by
  have ht := h.table r T hT
  have hp := (ht.leaf_ok _ hleaf).owner hv
  refine h.change (update_isSome hp _)
    (fun x a ha ha' => update_iff hp x (fun e => ha' (by rw [e]; rfl)) ha)
    (fun _ _ => (store_leaf_onlyPage h hT hl hk 0).samePage h (ht.low_own i j q hl).2.2
      (isTable_low r i j)) ?_
  refine ht.setLeaf (fun x a hx => h.aligned hx) hl hk (by norm_num)
    (fun x a ha hau => update_iff hp x hau fun e => by rw [e] at ha; cases ha)
    (fun e => absurd rfl e) fun x hx => ?_
  by_cases e : x = pte2pa (T.leaf (vpn i j k))
  · rw [e, Function.update_self] at hx
    cases hx
  · rw [Function.update_of_ne e] at hx
    exact absurd (ht.own_user x _ hx).2.2.symm e

end Leaf

end Xv6.Vm
