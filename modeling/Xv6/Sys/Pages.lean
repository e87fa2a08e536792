import Xv6.Sys.Boot

/-!
# Every page has exactly one role

The roles are read off the state of the kernel alone: the free list, the page tables in memory, the
process table, the file table and the pages taken at boot.  The owners of the invariant name them
(`plays_iff`), so each page has exactly one.
-/

namespace Xv6.Sys

open Memory Kernel Kalloc Vm LinkedList Runs

/-! ## Page tables in memory -/

/-- The table that the indices lead to from the table at `p`. -/
def tableAt (m : Mem) : List ℕ → ℕ → Option ℕ
  | [], p => some p
  | i :: is, p =>
    let w := load 8 m (p + 8 * i)
    if w &&& PTE_V ≠ 0 ∧ w &&& (PTE_R ||| PTE_W ||| PTE_X) = 0 then tableAt m is (pte2pa w)
    else none

/-- The leaf entry of page number `v`, `0` where its table does not exist. -/
def leafAt (m : Mem) (r v : ℕ) : ℕ :=
  match tableAt m [v / 512 / 512, v / 512 % 512] r with
  | none => 0
  | some q => load 8 m (q + 8 * (v % 512))

variable {L : Image} {k k' : Kern} {s t u : Phys} {m m' : Mem} {own own' own'' : Owners}
  {tabs tabs' : ℕ → Option Tree} {hand hand' : FileId → ℤ} {held held' : List ℕ} {r p q tf sz v : ℕ}
  {T T' : Tree} {o : Owner} {i j : Slot}

/-- One step down from an entry that points to a table, or is zero. -/
theorem tableAt_cons {x : Option ℕ} {a : ℕ} {is : List ℕ} (he : load 8 m (p + 8 * a) = ptr x)
    (hx : ∀ q, x = some q → q % 4096 = 0) :
    tableAt m (a :: is) p = x.bind (tableAt m is) := by
  simp only [tableAt, he]
  cases x with
  | none => rfl
  | some q =>
    rw [if_pos ⟨(ptr_and_V _).2 rfl, ptr_rwx _⟩, ptr, pte2pa_mkPte (hx q rfl) (by decide)]
    rfl

theorem tableAt_mid (ht : TableOk m own r T) (hal : ∀ x a, own x = some a → x % 4096 = 0) {a : ℕ}
    (ha : a < 512) (is : List ℕ) : tableAt m (a :: is) r = (T.mid a).bind (tableAt m is) :=
  tableAt_cons (ht.root_entry a ha) fun q hq => hal q _ (ht.mid_own a q hq).2

theorem tableAt_low (ht : TableOk m own r T) (hal : ∀ x a, own x = some a → x % 4096 = 0) {a b : ℕ}
    (ha : a < 512) (hb : b < 512) (is : List ℕ) :
    tableAt m (a :: b :: is) r = (T.low a b).bind (tableAt m is) := by
  rw [tableAt_mid ht hal ha]
  cases hm : T.mid a with
  | none =>
    cases hl : T.low a b with
    | none => rfl
    | some q =>
      have := (ht.low_own a b q hl).2.1
      rw [hm] at this
      cases this
  | some p =>
    exact tableAt_cons (ht.mid_entry a p hm b hb) fun q hq => hal q _ (ht.low_own a b q hq).2.2

theorem tableAt_leaf (ht : TableOk m own r T) (hal : ∀ x a, own x = some a → x % 4096 = 0)
    {a b c : ℕ} (ha : a < 512) (hb : b < 512) (hc : c < 512) (is : List ℕ) :
    tableAt m (a :: b :: c :: is) r = none := by
  rw [tableAt_low ht hal ha hb]
  cases hl : T.low a b with
  | none => rfl
  | some q =>
    simp only [Option.bind_some, tableAt, ht.low_entry a b q hl c hc]
    rw [if_neg]
    rintro ⟨hV, hR⟩
    have hne : T.leaf (vpn a b c) ≠ 0 := fun e => hV (by rw [e]; rfl)
    exact (ht.leaf_ok _ hne).rwx hR

theorem leafAt_eq (ht : TableOk m own r T) (hal : ∀ x a, own x = some a → x % 4096 = 0)
    (hv : v < 2 ^ 27) : leafAt m r v = T.leaf v := by
  have hvpn : vpn (v / 512 / 512) (v / 512 % 512) (v % 512) = v := by
    unfold vpn
    omega
  rw [leafAt, tableAt_low ht hal (by omega) (by omega)]
  cases hl : T.low (v / 512 / 512) (v / 512 % 512) with
  | none =>
    by_contra hne
    have hne' : T.leaf (vpn (v / 512 / 512) (v / 512 % 512) (v % 512)) ≠ 0 := by
      rw [hvpn]
      exact fun e => hne e.symm
    have := ht.leaf_low _ _ _ (by omega) (by omega) hne'
    rw [hl] at this
    cases this
  | some q =>
    simp only [Option.bind_some, tableAt]
    rw [ht.low_entry _ _ _ hl _ (by omega), hvpn]

/-! ## Roles -/

inductive Role
  | free
  /-- A page-table page of a process, with the path from its root. -/
  | table (i : Slot) (path : List ℕ)
  /-- A user page of a process, with its page number. -/
  | user (i : Slot) (v : ℕ)
  | trapframe (i : Slot)
  | pipe
  | boot

/-- The page plays the role in this state. -/
def Plays (k : Kern) (p : ℕ) : Role → Prop
  | .free => ∃ l, Chain (next k.phys.mem) 0 k.phys.freelist l ∧ l.count p = 1
  | .table i path => (k.proc i).state ≠ .unused ∧ (∀ a ∈ path, a < 512) ∧
      tableAt k.phys.mem path (k.proc i).pagetable = some p
  | .user i v => (k.proc i).state ≠ .unused ∧ v * PGSIZE < pgroundup (k.proc i).sz ∧
      leafAt k.phys.mem (k.proc i).pagetable v &&& PTE_V ≠ 0 ∧
      pte2pa (leafAt k.phys.mem (k.proc i).pagetable v) = p
  | .trapframe i => (k.proc i).state ≠ .unused ∧ (k.proc i).trapframe = p
  | .pipe => ∃ f, 1 ≤ (k.file f).ref ∧ (k.file f).type = .pipe ∧ (k.file f).pipe = p
  | .boot => p ∈ k.boot

/-- The owner that stands for a role. -/
def Role.owner (k : Kern) : Role → Owner
  | .free => .free
  | .table i [] => .root (k.proc i).pagetable
  | .table i [a] => .mid (k.proc i).pagetable a
  | .table i (a :: b :: _) => .low (k.proc i).pagetable a b
  | .user i v => .user (k.proc i).pagetable v
  | .trapframe i => .trapframe i.val
  | .pipe => .pipe
  | .boot => .boot

/-- A role of a process belongs to one that exists, and a table's path is no longer than a walk. -/
def Role.Proper (k : Kern) : Role → Prop
  | .table i path => (k.proc i).state ≠ .unused ∧ path.length ≤ 2
  | .user i _ | .trapframe i => (k.proc i).state ≠ .unused
  | _ => True

theorem state_ne_unused (hset : ∀ j, Settled (k.proc j))
    (hi : (k.proc i).pagetable ≠ 0 ∨ (k.proc i).trapframe ≠ 0) : (k.proc i).state ≠ .unused :=
  fun e => hi.elim (· ((hset i).unused e).pagetable) (· ((hset i).unused e).trapframe)

theorem KernOk.tableOk (hk : KernOk L k own tabs hand held) (hset : ∀ j, Settled (k.proc j))
    (hs : (k.proc i).state ≠ .unused) :
    ∃ T, TableOk k.phys.mem own (k.proc i).pagetable T ∧
      Shape L (k.proc i).trapframe (k.proc i).sz T := by
  have hlive := (hset i).live hs
  obtain ⟨T, tf, hT, hsh, rfl | h0⟩ := hk.spaces.shape i hlive.pagetable
  · exact ⟨T, hk.vm.table _ T hT, hsh⟩
  · exact absurd h0 hlive.trapframe

theorem mul_lt_pgroundup_iff (hm : Mapped T (npages sz)) :
    v * PGSIZE < pgroundup sz ↔ v < npages sz := by
  rw [pgroundup_eq hm.le, PGSIZE]
  omega

theorem plays_free_iff (h : FreeOk k.phys.mem k.phys.freelist own) :
    Plays k p .free ↔ own p = some .free := by
  obtain ⟨l, hl, hmem⟩ := h
  rw [← hmem p]
  constructor
  · rintro ⟨l', hl', hc⟩
    rw [hl'.unique hl] at hc
    exact List.count_pos_iff.1 (by omega)
  · exact fun hp => ⟨l, hl, List.count_eq_one_of_mem hl.nodup hp⟩

theorem plays_table_iff {path : List ℕ} (hs : (k.proc i).state ≠ .unused)
    (ht : TableOk k.phys.mem own (k.proc i).pagetable T)
    (hal : ∀ x a, own x = some a → x % 4096 = 0) :
    Plays k p (.table i path) ↔ own p = some (Role.owner k (.table i path)) ∧ path.length ≤ 2 := by
  match path with
  | [] =>
    constructor
    · rintro ⟨-, -, e⟩
      obtain rfl := Option.some.inj e
      exact ⟨ht.root_own, by simp⟩
    · rintro ⟨h, -⟩
      obtain rfl := ht.own_root p h
      exact ⟨hs, by simp, rfl⟩
  | [a] =>
    constructor
    · rintro ⟨-, hpath, e⟩
      rw [tableAt_mid ht hal (hpath a (by simp))] at e
      obtain ⟨q, hq, e⟩ := Option.bind_eq_some_iff.1 e
      obtain rfl := Option.some.inj e
      exact ⟨(ht.mid_own a q hq).2, by simp⟩
    · rintro ⟨h, -⟩
      have hm := ht.own_mid p a h
      have ha := (ht.mid_own a p hm).1
      exact ⟨hs, by simpa using ha, by rw [tableAt_mid ht hal ha, hm]; rfl⟩
  | [a, b] =>
    constructor
    · rintro ⟨-, hpath, e⟩
      rw [tableAt_low ht hal (hpath a (by simp)) (hpath b (by simp))] at e
      obtain ⟨q, hq, e⟩ := Option.bind_eq_some_iff.1 e
      obtain rfl := Option.some.inj e
      exact ⟨(ht.low_own a b q hq).2.2, by simp⟩
    · rintro ⟨h, -⟩
      have hl := ht.own_low p a b h
      obtain ⟨hb, hmid, -⟩ := ht.low_own a b p hl
      obtain ⟨q, hq⟩ := Option.isSome_iff_exists.1 hmid
      have ha := (ht.mid_own a q hq).1
      refine ⟨hs, ?_, by rw [tableAt_low ht hal ha hb, hl]; rfl⟩
      simpa using ⟨ha, hb⟩
  | a :: b :: c :: is =>
    constructor
    · rintro ⟨-, hpath, e⟩
      rw [tableAt_leaf ht hal (hpath a (by simp)) (hpath b (by simp)) (hpath c (by simp))] at e
      cases e
    · rintro ⟨-, hlen⟩
      simp at hlen

theorem plays_user_iff (hs : (k.proc i).state ≠ .unused)
    (ht : TableOk k.phys.mem own (k.proc i).pagetable T) (hsh : Shape L tf (k.proc i).sz T)
    (hal : ∀ x a, own x = some a → x % 4096 = 0) :
    Plays k p (.user i v) ↔ own p = some (.user (k.proc i).pagetable v) := by
  have hbig (hu : v < UTOP) : v < 2 ^ 27 := hu.trans (by decide)
  constructor
  · rintro ⟨-, hv, hV, hp⟩
    rw [mul_lt_pgroundup_iff hsh.mapped] at hv
    have hu := hv.trans_le hsh.mapped.le
    rw [leafAt_eq ht hal (hbig hu)] at hV hp
    have hne : T.leaf v ≠ 0 := fun e => hV (by rw [e]; rfl)
    exact hp ▸ (ht.leaf_ok v hne).owner hu
  · intro h
    obtain ⟨hu, hne, hp⟩ := ht.own_user p v h
    refine ⟨hs, (mul_lt_pgroundup_iff hsh.mapped).2 ((hsh.mapped.leaf v hu).1 hne), ?_, ?_⟩
    · rw [leafAt_eq ht hal (hbig hu)]
      exact (ht.leaf_ok v hne).valid
    · rw [leafAt_eq ht hal (hbig hu), hp]

/-- A page plays a role when it belongs to the owner that stands for it. -/
theorem plays_iff (hk : KernOk L k own tabs hand []) (hset : ∀ j, Settled (k.proc j)) {ρ : Role} :
    Plays k p ρ ↔ own p = some (ρ.owner k) ∧ ρ.Proper k := by
  have hal : ∀ x a, own x = some a → x % 4096 = 0 := fun x a hx => hk.vm.aligned hx
  cases ρ with
  | free => simpa [Role.Proper, Role.owner] using plays_free_iff hk.vm.free
  | table i path =>
    by_cases hs : (k.proc i).state = .unused
    · simp [Plays, Role.Proper, hs]
    · obtain ⟨T, ht, -⟩ := hk.tableOk hset hs
      simp [plays_table_iff hs ht hal, Role.Proper, hs]
  | user i v =>
    by_cases hs : (k.proc i).state = .unused
    · simp [Plays, Role.Proper, hs]
    · obtain ⟨T, ht, hsh⟩ := hk.tableOk hset hs
      simp [plays_user_iff hs ht hsh hal, Role.Proper, Role.owner, hs]
  | trapframe i =>
    simp only [Plays, Role.owner, Role.Proper, hk.roles.trapframe]
    constructor
    · rintro ⟨hs, rfl⟩
      exact ⟨⟨((hset i).live hs).trapframe, i, rfl, rfl⟩, hs⟩
    · rintro ⟨⟨-, j, hj, rfl⟩, hs⟩
      exact ⟨hs, by rw [Fin.ext hj]⟩
  | pipe =>
    simp only [Plays, Role.owner, Role.Proper, hk.roles.pipe, and_true]
    constructor
    · rintro ⟨f, -, hf, rfl⟩
      exact ⟨f, _, hf, rfl, rfl⟩
    · rintro ⟨f, w, hf, rfl, -⟩
      refine ⟨f, Nat.one_le_iff_ne_zero.2 fun h0 => ?_, hf, rfl⟩
      rw [hk.files.closed f h0] at hf
      cases hf
  | boot => simp [Plays, Role.owner, Role.Proper, hk.roles.boot]

/-- Different roles have different owners. -/
theorem Role.owner_inj (hset : ∀ j, Settled (k.proc j)) (hsp : Spaces L k tabs) {ρ ρ' : Role}
    (hρ : ρ.Proper k) (hρ' : ρ'.Proper k) (e : ρ.owner k = ρ'.owner k) : ρ = ρ' := by
  have hpt {i j : Slot} (hs : (k.proc i).state ≠ .unused)
      (e : (k.proc i).pagetable = (k.proc j).pagetable) : i = j :=
    hsp.inj i j e ((hset i).live hs).pagetable
  cases ρ with
  | table i path =>
    cases ρ' with
    | table j path' =>
      obtain ⟨hs, hlen⟩ := hρ
      obtain ⟨-, hlen'⟩ := hρ'
      match path, path' with
      | [], [] => rw [hpt hs (Owner.root.inj e)]
      | [a], [a'] =>
        obtain ⟨hr, rfl⟩ := Owner.mid.inj e
        rw [hpt hs hr]
      | [a, b], [a', b'] =>
        obtain ⟨hr, rfl, rfl⟩ := Owner.low.inj e
        rw [hpt hs hr]
      | [], [_] | [], _ :: _ :: _ | [_], [] | [_], _ :: _ :: _ | _ :: _ :: _, []
      | _ :: _ :: _, [_] => cases e
      | _ :: _ :: _ :: _, _ => simp at hlen
      | _, _ :: _ :: _ :: _ => simp at hlen'
    | _ =>
      match path with
      | [] | [_] | _ :: _ :: _ => cases e
  | user i v =>
    cases ρ' with
    | user j v' =>
      obtain ⟨hr, rfl⟩ := Owner.user.inj e
      rw [hpt hρ hr]
    | table j path =>
      match path with
      | [] | [_] | _ :: _ :: _ => cases e
    | _ => cases e
  | trapframe i =>
    cases ρ' with
    | trapframe j => rw [Fin.ext (Owner.trapframe.inj e)]
    | table j path =>
      match path with
      | [] | [_] | _ :: _ :: _ => cases e
    | _ => cases e
  | _ =>
    cases ρ' with
    | table j path =>
      match path with
      | [] | [_] | _ :: _ :: _ => cases e
    | _ => first | rfl | cases e

/-- Every owner of a page stands for a role. -/
theorem exists_role (hk : KernOk L k own tabs hand []) (hset : ∀ j, Settled (k.proc j))
    (hp : own p = some o) : ∃ ρ : Role, ρ.owner k = o ∧ ρ.Proper k := by
  have hroot {r : ℕ} (hr : o.table = some r) :
      ∃ i, (k.proc i).pagetable = r ∧ (k.proc i).state ≠ .unused := by
    have htab := hk.vm.rooted p o r hp hr
    obtain ⟨i, rfl⟩ := hk.spaces.owner r htab
    obtain ⟨T, hT⟩ := Option.isSome_iff_exists.1 htab
    exact ⟨i, rfl, state_ne_unused hset (.inl (hk.vm.ne_zero (hk.vm.table _ T hT).root_own))⟩
  cases o with
  | free => exact ⟨.free, rfl, trivial⟩
  | held => cases (hk.roles.held.mem_iff p).1 hp
  | boot => exact ⟨.boot, rfl, trivial⟩
  | root r =>
    obtain ⟨i, rfl, hs⟩ := hroot rfl
    exact ⟨.table i [], rfl, hs, by simp⟩
  | mid r a =>
    obtain ⟨i, rfl, hs⟩ := hroot rfl
    exact ⟨.table i [a], rfl, hs, by simp⟩
  | low r a b =>
    obtain ⟨i, rfl, hs⟩ := hroot rfl
    exact ⟨.table i [a, b], rfl, hs, by simp⟩
  | user r v =>
    obtain ⟨i, rfl, hs⟩ := hroot rfl
    exact ⟨.user i v, rfl, hs⟩
  | trapframe j =>
    obtain ⟨h0, i, rfl, rfl⟩ := (hk.roles.trapframe j p).1 hp
    exact ⟨.trapframe i, rfl, state_ne_unused hset (.inr h0)⟩
  | pipe => exact ⟨.pipe, rfl, trivial⟩

theorem existsUnique_role (hk : KernOk L k own tabs hand []) (hset : ∀ j, Settled (k.proc j))
    (hp : p ∈ L.pages) : ∃! ρ, Plays k p ρ := by
  obtain ⟨o, ho⟩ := Option.isSome_iff_exists.1 ((hk.vm.pages p).2 hp)
  obtain ⟨ρ, rfl, hρ⟩ := exists_role hk hset ho
  refine ⟨ρ, (plays_iff hk hset).2 ⟨ho, hρ⟩, fun ρ' h => ?_⟩
  obtain ⟨ho', hρ'⟩ := (plays_iff hk hset).1 h
  exact Role.owner_inj hset hk.spaces hρ' hρ (Option.some.inj (ho'.symm.trans ho))

/-! ## The number of free pages -/

open Classical in
/-- The pages with a role other than being free. -/
noncomputable def owned (L : Image) (k : Kern) : Finset ℕ :=
  L.pages.toFinset.filter fun p => ∃ ρ, ρ ≠ Role.free ∧ Plays k p ρ

open Classical in
theorem owned_subset (L : Image) (k : Kern) : owned L k ⊆ L.pages.toFinset :=
  Finset.filter_subset _ _

open Classical in
theorem mem_owned_iff (hk : KernOk L k own tabs hand []) (hset : ∀ j, Settled (k.proc j))
    (hp : p ∈ L.pages) : p ∈ owned L k ↔ own p ≠ some .free := by
  obtain ⟨ρ, h, huniq⟩ := existsUnique_role hk hset hp
  rw [owned, Finset.mem_filter, List.mem_toFinset, ne_eq, ← plays_free_iff hk.vm.free]
  constructor
  · rintro ⟨-, ρ', hne, h'⟩ hfree
    exact hne ((huniq ρ' h').trans (huniq _ hfree).symm)
  · intro hfree
    exact ⟨hp, ρ, fun e => hfree (e ▸ h), h⟩

theorem countpages_eq (hk : KernOk L k own tabs hand []) (hset : ∀ j, Settled (k.proc j)) :
    ∃ fuel, Vm.countpages fuel k.phys = some (L.total - (owned L k).card) := by
  obtain ⟨l, hl, hmem⟩ := hk.vm.free
  have hfree : l.toFinset = L.pages.toFinset \ owned L k := by
    ext p
    rw [List.mem_toFinset, hmem, Finset.mem_sdiff, List.mem_toFinset]
    constructor
    · intro hp
      have hpage := hk.vm.mem_pages hp
      exact ⟨hpage, fun ho => (mem_owned_iff hk hset hpage).1 ho hp⟩
    · rintro ⟨hpage, ho⟩
      by_contra hp
      exact ho ((mem_owned_iff hk hset hpage).2 hp)
  have hcard : l.length = L.total - (owned L k).card := by
    rw [← List.toFinset_card_of_nodup hl.nodup, hfree, Finset.card_sdiff_of_subset (owned_subset L k),
      List.toFinset_card_of_nodup (nodup_pages L.toLayout), length_pages]
  exact ⟨l.length + 1, by rw [Vm.countpages, countLoop_of_chain hl, Nat.zero_add, hcard]⟩

/-- Between system calls every page plays exactly one role, whatever was called and wherever memory
ran out; `kfree` was never given a free page, and `countpages` finds all pages that are not owned. -/
theorem page_partition {es : List Event} {x : Machine} (hk : Booted L k)
    (hrun : run (step L) ⟨k, none⟩ es = some x) :
    (∀ p ∈ L.pages, ∃! ρ, Plays x.kern p ρ) ∧ (∀ p ρ, Plays x.kern p ρ → p ∈ L.pages) ∧
      (∀ f g pi w, IsEnd x.kern f pi w → IsEnd x.kern g pi w → f = g) ∧
      x.kern.phys.refreed = false ∧
      ∃ fuel, Vm.countpages fuel x.kern.phys = some (L.total - (owned L x.kern).card) := by
  obtain ⟨⟨own, tabs, hok⟩, hset⟩ := (sound_run hk hrun).good
  refine ⟨fun p => existsUnique_role hok hset, fun p ρ h => ?_, hok.files.single, hok.vm.refreed,
    countpages_eq hok hset⟩
  exact hok.vm.mem_pages ((plays_iff hok hset).1 h).1

/-- The first process forks, its child grows by a page, and the next `fork` runs out of memory. -/
theorem page_partition_fork : ∃ k x, Booted smallImage k ∧
    run (step smallImage) ⟨k, none⟩ [⟨⟨0, by decide⟩, .fork⟩, ⟨⟨1, by decide⟩, .sbrk 4096⟩,
      ⟨⟨0, by decide⟩, .fork⟩] = some x ∧
    ((x.kern.proc ⟨1, by decide⟩).sz == 8192) = true ∧
    ∀ p ∈ smallImage.pages, ∃! ρ, Plays x.kern p ρ := by
  obtain ⟨k, x, hk, hrun, hsz⟩ := exists_of_smallRun
    [⟨⟨0, by decide⟩, .fork⟩, ⟨⟨1, by decide⟩, .sbrk 4096⟩, ⟨⟨0, by decide⟩, .fork⟩]
    (fun x => (x.kern.proc ⟨1, by decide⟩).sz == 8192) (by decide +kernel)
  exact ⟨k, x, hk, hrun, hsz, (page_partition hk hrun).1⟩

end Xv6.Sys
