import Xv6.Vm.Copy
import Xv6.Vm.Radix

/-!
# Copying from and to user memory

`copyin`, `copyout` and `copyinstr` take addresses from the user.  In an address space, where the pages
that the user may use are pairwise different and none of them is a table, they reach exactly the bytes of
the range they are given that lie in such pages.  The range is cut at page boundaries; each lemma about a
loop follows these cuts, and its conclusion speaks of single bytes.
-/

namespace Xv6.Vm

open Memory Kernel Kalloc

/-- The user may use the page `v`. -/
def UserPage (T : Tree) (v : ℕ) : Prop :=
  v < MAXVA / PGSIZE ∧ T.leaf v &&& PTE_V ≠ 0 ∧ T.leaf v &&& PTE_U ≠ 0

instance (T : Tree) (v : ℕ) : Decidable (UserPage T v) := inferInstanceAs (Decidable (_ ∧ _))

/-- The user may write to the page `v`. -/
def UserWritable (T : Tree) (v : ℕ) : Prop := UserPage T v ∧ T.leaf v &&& PTE_W ≠ 0

instance (T : Tree) (v : ℕ) : Decidable (UserWritable T v) := inferInstanceAs (Decidable (_ ∧ _))

/-- Where the byte at `va` is. -/
def Tree.phys (T : Tree) (va : ℕ) : ℕ := pte2pa (T.leaf (va / 4096)) + va % 4096

/-- An address space: the pages that the user may use are pairwise different, and they are not tables. -/
structure AddressSpace (m : Mem) (r : ℕ) (T : Tree) : Prop where
  table : Holds m r T
  page : ∀ v, UserPage T v → pte2pa (T.leaf v) ≠ 0 ∧ ∀ x, T.page r x ≠ some (pte2pa (T.leaf v))
  inj : ∀ v v', UserPage T v → UserPage T v' → pte2pa (T.leaf v) = pte2pa (T.leaf v') → v = v'

variable {L : Layout} {s t : Phys} {m m' : Mem} {own : Owners} {tabs : ℕ → Option Tree}
  {r va : ℕ} {T : Tree}

/-! ## Address spaces -/

theorem TableOk.holds (ht : TableOk m own r T) (hpages : ∀ p o, own p = some o → IsPage p) : Holds m r T := by
  have hpage {x : Place} {p : ℕ} (hx : T.page r x = some p) :
      own p = some (match x with | .root => .root r | .mid i => .mid r i | .low i j => .low r i j) := by
    cases x with
    | root =>
      cases hx
      exact ht.root_own
    | mid i => exact (ht.mid_own i p hx).2
    | low i j => exact (ht.low_own i j p hx).2.2
  constructor
  case entry =>
    intro x p hx k hk
    cases x with
    | root =>
      cases hx
      exact ht.root_entry k hk
    | mid i => exact ht.mid_entry i p hx k hk
    | low i j => exact ht.low_entry i j p hx k hk
  case page => exact fun x p hx => hpages p _ (hpage hx)
  case inj =>
    intro x y p hx hy
    have h := (hpage hx).symm.trans (hpage hy)
    cases x <;> cases y <;> simp_all
  case mid =>
    intro i hi
    obtain ⟨p, hp⟩ := Option.isSome_iff_exists.1 hi
    exact (ht.mid_own i p hp).1
  case low =>
    intro i j hij
    obtain ⟨p, hp⟩ := Option.isSome_iff_exists.1 hij
    exact ⟨(ht.low_own i j p hp).1, (ht.low_own i j p hp).2.1⟩
  case leaf => exact ht.leaf_low

/-- The address spaces of the kernel, in which the user may use nothing above its memory. -/
theorem VmOk.addressSpace (h : VmOk L s own tabs) (hT : tabs r = some T)
    (hU : ∀ v, UTOP ≤ v → T.leaf v &&& PTE_U = 0) : AddressSpace s.mem r T := by
  have ht := h.table r T hT
  have hpages (p : ℕ) (o : Owner) (hp : own p = some o) : IsPage p := by
    obtain ⟨hal, hpos, hend, -⟩ := page_facts (h.mem_pages hp)
    refine ⟨hal, hpos, hend.trans ?_⟩
    unfold PHYSTOP KERNBASE
    norm_num
  have howner (v : ℕ) (hv : UserPage T v) : own (pte2pa (T.leaf v)) = some (.user r v) := by
    have hlt : v < UTOP := by
      by_contra hge
      exact hv.2.2 (hU v (by omega))
    refine (ht.leaf_ok v fun e => hv.2.1 ?_).owner hlt
    rw [e, Nat.zero_and]
  refine ⟨ht.holds hpages, fun v hv => ⟨h.ne_zero (howner v hv), fun x hx => ?_⟩, fun v v' hv hv' e => ?_⟩
  · have ho := howner v hv
    cases x with
    | root =>
      have hr := ht.root_own
      rw [Option.some.inj hx, ho] at hr
      cases hr
    | mid i =>
      rw [(ht.mid_own i _ hx).2] at ho
      cases ho
    | low i j =>
      rw [(ht.low_own i j _ hx).2.2] at ho
      cases ho
  · have ho := howner v hv
    rw [e, howner v' hv'] at ho
    cases ho
    rfl

/-- The byte addresses of an address space are different. -/
theorem AddressSpace.phys_inj (h : AddressSpace m r T) {va va' : ℕ} (hv : UserPage T (va / 4096))
    (hv' : UserPage T (va' / 4096)) (e : T.phys va = T.phys va') : va = va' := by
  unfold Tree.phys at e
  have hal := pte2pa_eq (T.leaf (va / 4096))
  have hal' := pte2pa_eq (T.leaf (va' / 4096))
  have hpage : va / 4096 = va' / 4096 := h.inj _ _ hv hv' (by omega)
  rw [hpage] at e
  omega

theorem div_maxva : va / 4096 < MAXVA / PGSIZE ↔ va < MAXVA := by
  unfold MAXVA PGSIZE
  omega

theorem AddressSpace.walkaddr (h : AddressSpace s.mem r T) (va : ℕ) : Vm.walkaddr r va s =
    .ok (if UserPage T (va / 4096) then pte2pa (T.leaf (va / 4096)) else 0, s) := by
  rw [Vm.walkaddr]
  by_cases hlt : va < MAXVA
  · rw [if_neg (by omega), run_bind (h.table.walk hlt)]
    cases hl : T.low (px 2 va) (px 1 va) with
    | none =>
      have hzero := h.table.leaf_zero hl (px_lt 1 va) (px_lt 0 va)
      rw [vpn_px hlt] at hzero
      have hno : ¬ UserPage T (va / 4096) := fun hu => hu.2.1 (by rw [hzero, Nat.zero_and])
      rw [Tree.pte, hl, if_neg hno]
      rfl
    | some q =>
      obtain ⟨hpte, hne⟩ := h.table.pte_pos hl
      rw [hpte, if_neg hne, run_bind (run_getWord _ _), h.table.load_leaf hlt hl]
      split_ifs with hV hu hU hu hu
      · exact absurd hV hu.2.1
      · rfl
      · exact absurd hU hu.2.2
      · rfl
      · rfl
      · exact absurd ⟨div_maxva.2 hlt, hV, hU⟩ hu
  · rw [if_pos (by omega), if_neg fun hu => hlt (div_maxva.1 hu.1)]
    rfl

/-! ## One page -/

theorem phys_add (T : Tree) {va i : ℕ} (hi : va % 4096 + i < 4096) :
    (va + i) / 4096 = va / 4096 ∧ T.phys (va + i) = pte2pa (T.leaf (va / 4096)) + (va - pgrounddown va) + i := by
  have hdiv : (va + i) / 4096 = va / 4096 := by omega
  refine ⟨hdiv, ?_⟩
  rw [Tree.phys, hdiv]
  unfold pgrounddown PGSIZE
  omega

theorem pgrounddown_div (va : ℕ) : pgrounddown va / 4096 = va / 4096 := by
  unfold pgrounddown PGSIZE
  omega

theorem sub_pgrounddown (va : ℕ) : va - pgrounddown va = va % 4096 := by
  unfold pgrounddown PGSIZE
  omega

theorem pgrounddown_add (va : ℕ) : pgrounddown va + PGSIZE = va + (4096 - va % 4096) := by
  unfold pgrounddown PGSIZE
  omega

theorem read_page {n : ℕ} (hn : va % 4096 + n ≤ 4096) (m : Mem) :
    read m (pte2pa (T.leaf (va / 4096)) + (va - pgrounddown va)) n =
      (List.range n).map fun i => m (T.phys (va + i)) := by
  refine List.map_congr_left fun i hi => ?_
  have := List.mem_range.1 hi
  rw [(phys_add T (by omega : va % 4096 + i < 4096)).2]

/-- Of `len` bytes from `va` on, the first `n` are those in the page of `va`: one pass of the loops below
takes them. -/
structure Chunk (va len n : ℕ) : Prop where
  page : va % 4096 + n ≤ 4096
  le : n ≤ len
  pos : 0 < n
  rest : ∀ i < len - n, pgrounddown va + PGSIZE + i = va + (n + i)

theorem exists_chunk {len : ℕ} (va : ℕ) (hlen : 0 < len) :
    ∃ n, min (PGSIZE - (va - pgrounddown va)) len = n ∧ Chunk va len n := by
  have hmod := Nat.mod_lt va (show 0 < 4096 by norm_num)
  refine ⟨_, rfl, ?_⟩
  rw [sub_pgrounddown]
  unfold PGSIZE
  refine ⟨by omega, by omega, by omega, fun i hi => ?_⟩
  rw [pgrounddown_add]
  omega

section

variable {len n i : ℕ}

theorem Chunk.addr (h : Chunk va len n) (T : Tree) (hi : i < n) : (va + i) / 4096 = va / 4096 ∧
    T.phys (va + i) = pte2pa (T.leaf (va / 4096)) + (va - pgrounddown va) + i :=
  phys_add T (by have := h.page; omega)

theorem Chunk.later (h : Chunk va len n) (hi : i < len) (hin : ¬ i < n) :
    pgrounddown va + PGSIZE + (i - n) = va + i := by
  rw [h.rest _ (by omega), Nat.add_sub_cancel' (by omega)]

theorem Chunk.map_range (h : Chunk va len n) (m : Mem) (T : Tree) {k : ℕ} (hk : k ≤ len - n) :
    (List.range n).map (fun i => m (T.phys (va + i))) ++
      (List.range k).map (fun i => m (T.phys (pgrounddown va + PGSIZE + i))) =
    (List.range (n + k)).map fun i => m (T.phys (va + i)) := by
  rw [List.range_add, List.map_append, List.map_map]
  refine congrArg _ (List.map_congr_left fun i hi => ?_)
  have := List.mem_range.1 hi
  rw [h.rest i (by omega)]
  rfl

end

/-! ## `copyin` -/

theorem AddressSpace.copyinLoop (h : AddressSpace s.mem r T) (fuel va len : ℕ) (dst : List (BitVec 8))
    (hfuel : len ≤ fuel) :
    ∃ res bytes, Vm.copyinLoop r fuel va len dst s = .ok ((res, dst ++ bytes), s) ∧ bytes.length ≤ len ∧
      (res = 0 ∧ (∀ i < len, UserPage T ((va + i) / 4096)) ∧
          bytes = (List.range len).map (fun i => s.mem (T.phys (va + i))) ∨
        res = -1 ∧ ∃ i < len, ¬ UserPage T ((va + i) / 4096)) := by
  induction fuel generalizing va len dst with
  | zero =>
    obtain rfl : len = 0 := by omega
    exact ⟨0, [], by simp [Vm.copyinLoop, run_pure], le_rfl, .inl ⟨rfl, by omega, rfl⟩⟩
  | succ fuel ih =>
    rw [Vm.copyinLoop]
    by_cases hlen : len = 0
    · subst hlen
      exact ⟨0, [], by rw [if_pos rfl, run_pure, List.append_nil], le_rfl, .inl ⟨rfl, by omega, rfl⟩⟩
    rw [if_neg hlen, run_bind (h.walkaddr _), pgrounddown_div]
    by_cases hu : UserPage T (va / 4096)
    swap
    · refine ⟨-1, [], ?_, Nat.zero_le _, .inr ⟨rfl, 0, by omega, hu⟩⟩
      rw [if_neg hu, if_pos rfl, run_pure, List.append_nil]
    rw [if_pos hu, if_neg (h.page _ hu).1, run_bind (run_get s)]
    obtain ⟨n, hn, hc⟩ := exists_chunk va (Nat.pos_of_ne_zero hlen)
    have hle := hc.le
    have hpos := hc.pos
    simp only [hn, read_page hc.page]
    obtain ⟨res, bytes, hrun, hblen, hres⟩ := ih (pgrounddown va + PGSIZE) (len - n)
      (dst ++ (List.range n).map fun i => s.mem (T.phys (va + i))) (by omega)
    refine ⟨res, (List.range n).map (fun i => s.mem (T.phys (va + i))) ++ bytes, ?_, ?_, ?_⟩
    · rw [hrun, List.append_assoc]
    · rw [List.length_append, List.length_map, List.length_range]
      omega
    · obtain ⟨rfl, hall, rfl⟩ | ⟨rfl, i, hi, hbad⟩ := hres
      · refine .inl ⟨rfl, fun i hi => ?_, ?_⟩
        · by_cases hin : i < n
          · rwa [(hc.addr T hin).1]
          · rw [← hc.later hi hin]
            exact hall (i - n) (by omega)
        · rw [hc.map_range _ _ le_rfl, Nat.add_sub_cancel' hle]
      · refine .inr ⟨rfl, n + i, by omega, ?_⟩
        rwa [← hc.rest i hi]

/-! ## `copyout` -/

theorem AddressSpace.write (h : AddressSpace s.mem r T) {n : ℕ} {src : List (BitVec 8)}
    (hu : UserPage T (va / 4096)) (hn : va % 4096 + n ≤ 4096) (hsrc : src.length = n) :
    AddressSpace (Memory.write s.mem (pte2pa (T.leaf (va / 4096)) + (va - pgrounddown va)) src) r T ∧
    (∀ i < n, Memory.write s.mem (pte2pa (T.leaf (va / 4096)) + (va - pgrounddown va)) src (T.phys (va + i)) =
      src.getD i 0) ∧
    ∀ x, (∀ i < n, x ≠ T.phys (va + i)) →
      Memory.write s.mem (pte2pa (T.leaf (va / 4096)) + (va - pgrounddown va)) src x = s.mem x := by
  have hal : pte2pa (T.leaf (va / 4096)) % 4096 = 0 := by
    rw [pte2pa_eq]
    omega
  have hoff := sub_pgrounddown va
  refine ⟨⟨h.table.congr fun x p hp => ?_, h.page, h.inj⟩, fun i hi => ?_, fun x hx => ?_⟩
  · exact onlyPage_of_eqOutside (write_eqOutside _ _ _) hal (by omega) (by omega) p (h.table.page x p hp).aligned
      fun e => (h.page _ hu).2 x (e ▸ hp)
  · rw [(phys_add T (by omega : va % 4096 + i < 4096)).2, Memory.write, if_pos (by omega),
      Nat.add_sub_cancel_left]
  · refine write_eqOutside _ _ _ x fun hin => ?_
    refine hx (x - (pte2pa (T.leaf (va / 4096)) + (va - pgrounddown va))) (by omega) ?_
    have hoff : va % 4096 + (x - (pte2pa (T.leaf (va / 4096)) + (va - pgrounddown va))) < 4096 := by omega
    rw [(phys_add T hoff).2]
    omega

theorem AddressSpace.copyoutLoop_succ (h : AddressSpace s.mem r T) (fuel va : ℕ) {src : List (BitVec 8)}
    (hsrc : src ≠ []) : Vm.copyoutLoop r (fuel + 1) va src s =
      if UserWritable T (va / 4096) then
        Vm.copyoutLoop r fuel (pgrounddown va + PGSIZE)
          (src.drop (min (PGSIZE - (va - pgrounddown va)) src.length))
          { s with mem := Memory.write s.mem (pte2pa (T.leaf (va / 4096)) + (va - pgrounddown va))
                            (src.take (min (PGSIZE - (va - pgrounddown va)) src.length)) }
      else .ok (-1, s) := by
  rw [Vm.copyoutLoop, if_neg hsrc]
  by_cases hlt : pgrounddown va < MAXVA
  swap
  · rw [if_pos (show pgrounddown va ≥ MAXVA by omega), if_neg]
    · rfl
    · intro hu
      have := div_maxva.1 hu.1.1
      unfold pgrounddown PGSIZE at hlt
      omega
  have hva : va / 4096 < MAXVA / PGSIZE := by
    rw [← pgrounddown_div]
    exact div_maxva.2 hlt
  rw [if_neg (show ¬ pgrounddown va ≥ MAXVA by omega), run_bind (h.table.walk hlt), run_bind (run_getWord _ _)]
  cases hl : T.low (px 2 (pgrounddown va)) (px 1 (pgrounddown va)) with
  | none =>
    have hzero := h.table.leaf_zero hl (px_lt 1 (pgrounddown va)) (px_lt 0 (pgrounddown va))
    rw [vpn_px hlt, pgrounddown_div] at hzero
    have hno : ¬ UserWritable T (va / 4096) := fun hu => hu.1.2.1 (by rw [hzero, Nat.zero_and])
    rw [Tree.pte, hl, if_pos (.inl rfl), if_neg hno]
    rfl
  | some q =>
    obtain ⟨hpte, hne⟩ := h.table.pte_pos hl
    rw [hpte, h.table.load_leaf hlt hl, pgrounddown_div]
    by_cases hu : UserWritable T (va / 4096)
    · have hgood : ¬ (q + 8 * px 0 (pgrounddown va) = 0 ∨ T.leaf (va / 4096) &&& PTE_V = 0 ∨
          T.leaf (va / 4096) &&& PTE_U = 0 ∨ T.leaf (va / 4096) &&& PTE_W = 0) := by
        rintro (e | e | e | e)
        exacts [hne e, hu.1.2.1 e, hu.1.2.2 e, hu.2 e]
      rw [if_neg hgood, if_pos hu, run_bind (run_modify _ _)]
    · rw [if_neg hu, if_pos]
      · rfl
      · by_contra hno
        simp only [not_or] at hno
        exact hu ⟨⟨hva, hno.2.1, hno.2.2.1⟩, hno.2.2.2⟩

theorem AddressSpace.copyoutLoop (h : AddressSpace s.mem r T) (fuel va : ℕ) (src : List (BitVec 8))
    (hfuel : src.length ≤ fuel) :
    ∃ res t, Vm.copyoutLoop r fuel va src s = .ok (res, t) ∧ AddressSpace t.mem r T ∧
      (∀ x, (∀ i < src.length, UserWritable T ((va + i) / 4096) → x ≠ T.phys (va + i)) → t.mem x = s.mem x) ∧
      (res = 0 ∧ (∀ i < src.length, UserWritable T ((va + i) / 4096) ∧ t.mem (T.phys (va + i)) = src.getD i 0) ∨
        res = -1 ∧ ∃ i < src.length, ¬ UserWritable T ((va + i) / 4096)) := by
  induction fuel generalizing va src s with
  | zero =>
    obtain rfl : src = [] := List.length_eq_zero_iff.1 (by omega)
    exact ⟨0, s, rfl, h, fun _ _ => rfl, .inl ⟨rfl, fun i hi => absurd hi (Nat.not_lt_zero i)⟩⟩
  | succ fuel ih =>
    by_cases hsrc : src = []
    · subst hsrc
      exact ⟨0, s, rfl, h, fun _ _ => rfl, .inl ⟨rfl, fun i hi => absurd hi (Nat.not_lt_zero i)⟩⟩
    have hlen : 0 < src.length := List.length_pos_iff.2 hsrc
    rw [h.copyoutLoop_succ fuel va hsrc]
    by_cases hu : UserWritable T (va / 4096)
    swap
    · rw [if_neg hu]
      exact ⟨-1, s, rfl, h, fun _ _ => rfl, .inr ⟨rfl, 0, hlen, hu⟩⟩
    rw [if_pos hu]
    obtain ⟨n, hn, hc⟩ := exists_chunk va hlen
    have hle := hc.le
    have hpos := hc.pos
    rw [hn]
    have hfirst (i : ℕ) (hi : i < n) : UserWritable T ((va + i) / 4096) := by
      rwa [(hc.addr T hi).1]
    obtain ⟨hspace, hbytes, hframe⟩ := h.write hu.1 hc.page (List.length_take_of_le hle)
    obtain ⟨res, t, hrun, hspace', hframe', hres⟩ := ih
      (s := { s with mem := Memory.write s.mem (pte2pa (T.leaf (va / 4096)) + (va - pgrounddown va)) (src.take n) })
      hspace (pgrounddown va + PGSIZE) (src.drop n) (by rw [List.length_drop]; omega)
    rw [List.length_drop] at hframe' hres
    dsimp only at hframe'
    refine ⟨res, t, hrun, hspace', fun x hx => ?_, ?_⟩
    · rw [hframe' x fun i hi hw => ?_, hframe x fun i hi => hx i (by omega) (hfirst i hi)]
      rw [hc.rest i hi] at hw ⊢
      exact hx (n + i) (by omega) hw
    obtain ⟨rfl, hall⟩ | ⟨rfl, i, hi, hbad⟩ := hres
    · refine .inl ⟨rfl, fun i hi => ?_⟩
      by_cases hin : i < n
      · refine ⟨hfirst i hin, ?_⟩
        -- the later writes go elsewhere
        rw [hframe' _ fun j hj hw e => ?_, hbytes i hin, List.getD_eq_getElem?_getD, List.getElem?_take_of_lt hin,
          ← List.getD_eq_getElem?_getD]
        rw [hc.rest j hj] at hw e
        have := h.phys_inj (hfirst i hin).1 hw.1 e
        omega
      · have := hall (i - n) (by omega)
        rwa [hc.later hi hin, List.getD_eq_getElem?_getD, List.getElem?_drop, Nat.add_sub_cancel' (by omega),
          ← List.getD_eq_getElem?_getD] at this
    · refine .inr ⟨rfl, n + i, by omega, ?_⟩
      rwa [← hc.rest i hi]

/-! ## `copyinstr` -/

theorem strLoop_spec (m : Mem) (n p max : ℕ) (dst : List (BitVec 8)) :
    (∃ j < n, m (p + j) = 0 ∧ (∀ i < j, m (p + i) ≠ 0) ∧
      strLoop m n p max dst = (true, max - j, dst ++ read m p (j + 1))) ∨
    (∀ i < n, m (p + i) ≠ 0) ∧ strLoop m n p max dst = (false, max - n, dst ++ read m p n) := by
  induction n generalizing p max dst with
  | zero => exact .inr ⟨fun i hi => absurd hi (Nat.not_lt_zero i), by simp [strLoop]⟩
  | succ n ih =>
    rw [strLoop]
    by_cases hp : m p = 0
    · refine .inl ⟨0, by omega, hp, fun i hi => absurd hi (Nat.not_lt_zero i), ?_⟩
      rw [if_pos hp, read_succ, hp, read_zero, Nat.sub_zero]
    have hnext (i : ℕ) : m (p + (i + 1)) = m (p + 1 + i) := by
      rw [add_comm i, ← add_assoc]
    have hbefore {k : ℕ} (hk : ∀ i < k, m (p + 1 + i) ≠ 0) (i : ℕ) (hi : i < k + 1) : m (p + i) ≠ 0 := by
      cases i with
      | zero => exact hp
      | succ i =>
        rw [hnext]
        exact hk i (by omega)
    rw [if_neg hp]
    obtain ⟨j, hj, hnul, hne, hrun⟩ | ⟨hne, hrun⟩ := ih (p + 1) (max - 1) (dst ++ [m p])
    · refine .inl ⟨j + 1, by omega, by rw [hnext, hnul], hbefore hne, ?_⟩
      rw [hrun, read_succ m p, List.append_assoc, List.singleton_append, Nat.sub_sub, add_comm 1]
    · refine .inr ⟨hbefore hne, ?_⟩
      rw [hrun, read_succ m p, List.append_assoc, List.singleton_append, Nat.sub_sub, add_comm 1]

/-- The user's string at `va` ends within `max` bytes, at `va + k`. -/
structure StringAt (m : Mem) (T : Tree) (va max k : ℕ) : Prop where
  lt : k < max
  page : ∀ i ≤ k, UserPage T ((va + i) / 4096)
  before : ∀ i < k, m (T.phys (va + i)) ≠ 0
  null : m (T.phys (va + k)) = 0

theorem StringAt.shift {n max k : ℕ} (h : StringAt m T (pgrounddown va + PGSIZE) (max - n) k)
    (hc : Chunk va max n) (hu : UserPage T (va / 4096)) (hne : ∀ i < n, m (T.phys (va + i)) ≠ 0) :
    StringAt m T va max (n + k) := by
  have hk := h.lt
  refine ⟨by omega, fun i hi => ?_, fun i hi => ?_, ?_⟩
  · by_cases hin : i < n
    · rwa [(hc.addr T hin).1]
    · rw [← hc.later (by omega) hin]
      exact h.page _ (by omega)
  · by_cases hin : i < n
    · exact hne i hin
    · rw [← hc.later (by omega) hin]
      exact h.before _ (by omega)
  · rw [← hc.rest k hk]
    exact h.null

theorem AddressSpace.copyinstrLoop (h : AddressSpace s.mem r T) (fuel va max : ℕ) (dst : List (BitVec 8))
    (hfuel : max ≤ fuel) :
    ∃ res bytes, Vm.copyinstrLoop r fuel va max dst s = .ok ((res, dst ++ bytes), s) ∧ bytes.length ≤ max ∧
      (res = 0 ∧ (∃ k, StringAt s.mem T va max k ∧
          bytes = (List.range (k + 1)).map (fun i => s.mem (T.phys (va + i)))) ∨
        res = -1 ∧ ∀ k < max, (∀ i ≤ k, UserPage T ((va + i) / 4096)) → s.mem (T.phys (va + k)) ≠ 0) := by
  induction fuel generalizing va max dst with
  | zero =>
    obtain rfl : max = 0 := by omega
    exact ⟨-1, [], by simp [Vm.copyinstrLoop, run_pure], le_rfl, .inr ⟨rfl, by omega⟩⟩
  | succ fuel ih =>
    rw [Vm.copyinstrLoop]
    by_cases hmax : max = 0
    · subst hmax
      exact ⟨-1, [], by rw [if_pos rfl, run_pure, List.append_nil], le_rfl, .inr ⟨rfl, by omega⟩⟩
    rw [if_neg hmax, run_bind (h.walkaddr _), pgrounddown_div]
    by_cases hu : UserPage T (va / 4096)
    swap
    · refine ⟨-1, [], ?_, Nat.zero_le _, .inr ⟨rfl, fun k _ hall => absurd (hall 0 (Nat.zero_le k)) hu⟩⟩
      rw [if_neg hu, if_pos rfl, run_pure, List.append_nil]
    rw [if_pos hu, if_neg (h.page _ hu).1, run_bind (run_get s)]
    obtain ⟨n, hn, hc⟩ := exists_chunk va (Nat.pos_of_ne_zero hmax)
    have hle := hc.le
    have hpos := hc.pos
    have hpage := hc.page
    rw [hn]
    obtain ⟨j, hj, hnul, hne, hstr⟩ | ⟨hne, hstr⟩ := strLoop_spec s.mem n
      (pte2pa (T.leaf (va / 4096)) + (va - pgrounddown va)) max dst
    · rw [hstr]
      refine ⟨0, read s.mem (pte2pa (T.leaf (va / 4096)) + (va - pgrounddown va)) (j + 1), rfl, ?_,
        .inl ⟨rfl, j, ⟨by omega, fun i hi => ?_, fun i hi => ?_, ?_⟩, read_page (by omega) s.mem⟩⟩
      · rw [Memory.read, List.length_map, List.length_range]
        omega
      · rwa [(hc.addr T (by omega)).1]
      · rw [(hc.addr T (by omega)).2]
        exact hne i hi
      · rwa [(hc.addr T hj).2]
    · have hne' (i : ℕ) (hi : i < n) : s.mem (T.phys (va + i)) ≠ 0 := by
        rw [(hc.addr T hi).2]
        exact hne i hi
      rw [hstr, read_page hpage]
      obtain ⟨res, bytes, hrun, hblen, hres⟩ := ih (pgrounddown va + PGSIZE) (max - n)
        (dst ++ (List.range n).map fun i => s.mem (T.phys (va + i))) (by omega)
      refine ⟨res, (List.range n).map (fun i => s.mem (T.phys (va + i))) ++ bytes, ?_, ?_, ?_⟩
      · rw [← List.append_assoc]
        exact hrun
      · rw [List.length_append, List.length_map, List.length_range]
        omega
      · obtain ⟨rfl, k, hk, rfl⟩ | ⟨rfl, hnone⟩ := hres
        · refine .inl ⟨rfl, n + k, hk.shift hc hu hne', ?_⟩
          exact hc.map_range _ _ hk.lt
        · refine .inr ⟨rfl, fun k hk hall => ?_⟩
          by_cases hkn : k < n
          · exact hne' k hkn
          · have := hnone (k - n) (by omega) fun i hi => by
              rw [hc.rest i (by omega)]
              exact hall _ (by omega)
            rwa [hc.later hk hkn] at this

/-! ## Addresses from the user -/

/-- The user may read the byte at `va`. -/
def Readable (s : Phys) (r va : ℕ) : Prop :=
  va < MAXVA ∧ pteOf s r va &&& PTE_V ≠ 0 ∧ pteOf s r va &&& PTE_U ≠ 0

/-- The user may write the byte at `va`. -/
def Writable (s : Phys) (r va : ℕ) : Prop := Readable s r va ∧ pteOf s r va &&& PTE_W ≠ 0

/-- Where the byte at `va` is. -/
def physAddr (s : Phys) (r va : ℕ) : ℕ := pte2pa (pteOf s r va) + va % PGSIZE

/-- The address `i` bytes after `va`, in 64 bits. -/
def wrap (va i : ℕ) : ℕ := (va + i) % 2 ^ 64

theorem AddressSpace.readable_iff (h : AddressSpace s.mem r T) : Readable s r va ↔ UserPage T (va / 4096) := by
  unfold Readable UserPage
  rw [div_maxva]
  refine and_congr_right fun hlt => ?_
  rw [h.table.pteOf_eq hlt]

theorem AddressSpace.writable_iff (h : AddressSpace s.mem r T) : Writable s r va ↔ UserWritable T (va / 4096) := by
  unfold Writable UserWritable
  rw [h.readable_iff]
  refine and_congr_right fun hu => ?_
  rw [h.table.pteOf_eq (div_maxva.1 hu.1)]

theorem AddressSpace.physAddr_eq (h : AddressSpace s.mem r T) (hu : UserPage T (va / 4096)) :
    physAddr s r va = T.phys va := by
  rw [physAddr, h.table.pteOf_eq (div_maxva.1 hu.1)]
  rfl

/-- A range of usable bytes does not wrap: it would have to get past `MAXVA`. -/
theorem no_wrap {P : ℕ → Prop} (hP : ∀ a, P a → a < MAXVA) (hva : va < 2 ^ 64) {n : ℕ}
    (hall : ∀ i < n, P (wrap va i)) (i : ℕ) (hi : i < n) : wrap va i = va + i := by
  by_contra hne
  have hge : 2 ^ 64 ≤ va + i := by
    by_contra hlt
    exact hne (Nat.mod_eq_of_lt (by omega))
  have := hP _ (hall (2 ^ 64 - 1 - va) (by omega))
  unfold wrap MAXVA at this
  norm_num at this
  omega

theorem forall_wrap_iff {P : ℕ → Prop} (hP : ∀ a, P a → a < MAXVA) (hva : va < 2 ^ 64) {n : ℕ} :
    (∀ i < n, P (wrap va i)) ↔ ∀ i < n, P (va + i) := by
  constructor
  · intro hall i hi
    rw [← no_wrap hP hva hall i hi]
    exact hall i hi
  · intro hall i hi
    have hlt := hP _ (hall i hi)
    rw [wrap, Nat.mod_eq_of_lt (by unfold MAXVA at hlt; omega)]
    exact hall i hi

/-- For every address space and all addresses and lengths from the user: `copyin` returns 0 exactly when
all bytes of the range are readable, and delivers them; `copyout` returns 0 exactly when all bytes of the
range are writable, and then they are the bytes of the source; `copyinstr` returns 0 exactly when there is
a null within `max` bytes and all bytes up to it are readable, and delivers the string.  `copyout` changes
no memory but writable bytes of the range, and `copyin` and `copyinstr` write no more than their length to
the destination, also when they fail.  None of them panics. -/
theorem user_copy {s : Phys} {r : ℕ} {T : Tree} (h : AddressSpace s.mem r T) {va : ℕ} (hva : va < 2 ^ 64) :
    (∀ len, ∃ res bytes, copyin r va len s = .ok ((res, bytes), s) ∧ (res = 0 ∨ res = -1) ∧
      (res = 0 ↔ ∀ i < len, Readable s r (wrap va i)) ∧
      (res = 0 → bytes = (List.range len).map fun i => s.mem (physAddr s r (wrap va i))) ∧ bytes.length ≤ len) ∧
    (∀ src : List (BitVec 8), ∃ res t, copyout r va src s = .ok (res, t) ∧ (res = 0 ∨ res = -1) ∧
      (res = 0 ↔ ∀ i < src.length, Writable s r (wrap va i)) ∧
      (res = 0 → ∀ i < src.length, t.mem (physAddr s r (wrap va i)) = src.getD i 0) ∧
      ∀ x, t.mem x ≠ s.mem x → ∃ i < src.length, Writable s r (va + i) ∧ x = physAddr s r (va + i)) ∧
    ∀ max, ∃ res bytes, copyinstr r va max s = .ok ((res, bytes), s) ∧ (res = 0 ∨ res = -1) ∧
      (res = 0 ↔ ∃ k < max, (∀ i ≤ k, Readable s r (wrap va i)) ∧ s.mem (physAddr s r (wrap va k)) = 0) ∧
      (res = 0 → ∃ k < max, (∀ i < k, s.mem (physAddr s r (wrap va i)) ≠ 0) ∧
        s.mem (physAddr s r (wrap va k)) = 0 ∧
        bytes = (List.range (k + 1)).map fun i => s.mem (physAddr s r (wrap va i))) ∧ bytes.length ≤ max := by
  have hreadable (a : ℕ) (ha : Readable s r a) : a < MAXVA := ha.1
  have hwritable (a : ℕ) (ha : Writable s r a) : a < MAXVA := ha.1.1
  have hphys {i : ℕ} (hu : UserPage T ((va + i) / 4096)) : physAddr s r (wrap va i) = T.phys (va + i) := by
    have hlt := div_maxva.1 hu.1
    rw [wrap, Nat.mod_eq_of_lt (by unfold MAXVA at hlt; omega), h.physAddr_eq hu]
  refine ⟨fun len => ?_, fun src => ?_, fun max => ?_⟩
  · obtain ⟨res, bytes, hrun, hlen, hres⟩ := h.copyinLoop len va len [] le_rfl
    refine ⟨res, bytes, hrun, ?_, ?_, fun e => ?_, hlen⟩
    · exact hres.imp (fun hr => hr.1) fun hr => hr.1
    · rw [forall_wrap_iff hreadable hva]
      simp only [h.readable_iff]
      obtain ⟨rfl, hall, -⟩ | ⟨rfl, i, hi, hbad⟩ := hres
      · exact iff_of_true rfl hall
      · exact iff_of_false (by decide) fun hall => hbad (hall i hi)
    · obtain ⟨-, hall, rfl⟩ | ⟨rfl, -⟩ := hres
      · exact List.map_congr_left fun i hi => by rw [hphys (hall i (List.mem_range.1 hi))]
      · cases e
  · obtain ⟨res, t, hrun, -, hframe, hres⟩ := h.copyoutLoop src.length va src le_rfl
    refine ⟨res, t, hrun, ?_, ?_, fun e i hi => ?_, fun x hx => ?_⟩
    · exact hres.imp (fun hr => hr.1) fun hr => hr.1
    · rw [forall_wrap_iff hwritable hva]
      simp only [h.writable_iff]
      obtain ⟨rfl, hall⟩ | ⟨rfl, i, hi, hbad⟩ := hres
      · exact iff_of_true rfl fun i hi => (hall i hi).1
      · exact iff_of_false (by decide) fun hall => hbad (hall i hi)
    · obtain ⟨-, hall⟩ | ⟨rfl, -⟩ := hres
      · rw [hphys (hall i hi).1.1]
        exact (hall i hi).2
      · cases e
    · by_contra hno
      refine hx (hframe x fun i hi hw e => hno ⟨i, hi, h.writable_iff.2 hw, ?_⟩)
      rw [h.physAddr_eq hw.1, e]
  · obtain ⟨res, bytes, hrun, hlen, hres⟩ := h.copyinstrLoop max va max [] le_rfl
    have hpages {k : ℕ} : (∀ i ≤ k, Readable s r (wrap va i)) ↔ ∀ i ≤ k, UserPage T ((va + i) / 4096) := by
      have := forall_wrap_iff hreadable hva (n := k + 1)
      simp only [Nat.lt_succ_iff, h.readable_iff (s := s)] at this
      simp only [h.readable_iff]
      exact this
    refine ⟨res, bytes, hrun, ?_, ?_, fun e => ?_, hlen⟩
    · exact hres.imp (fun hr => hr.1) fun hr => hr.1
    · simp only [hpages]
      obtain ⟨rfl, k, hk, -⟩ | ⟨rfl, hnone⟩ := hres
      · refine iff_of_true rfl ⟨k, hk.lt, hk.page, ?_⟩
        rw [hphys (hk.page k le_rfl)]
        exact hk.null
      · refine iff_of_false (by decide) ?_
        rintro ⟨k, hk, hall, hnul⟩
        rw [hphys (hall k le_rfl)] at hnul
        exact hnone k hk hall hnul
    · obtain ⟨-, k, hk, rfl⟩ | ⟨rfl, -⟩ := hres
      · refine ⟨k, hk.lt, fun i hi => ?_, ?_, List.map_congr_left fun i hi => ?_⟩
        · rw [hphys (hk.page i (by omega))]
          exact hk.before i hi
        · rw [hphys (hk.page k le_rfl)]
          exact hk.null
        · rw [hphys (hk.page i (by have := List.mem_range.1 hi; omega))]
      · cases e

/-- Memory with one user page, of zeros, at the address 0x1000. -/
def onePage : Phys where
  mem := store 8 (store 8 (store 8 (fun _ => 0) (0x80001000 + 8 * 0) (mkPte 0x80002000 PTE_V))
    (0x80002000 + 8 * 0) (mkPte 0x80003000 PTE_V)) (0x80003000 + 8 * 1) (mkPte 0x80004000 0x17)
  freelist := 0
  refreed := false

def onePageTree : Tree := ((Tree.empty.setMid 0 0x80002000).setLow 0 0 0x80003000).setLeaf (vpn 0 0 1) (mkPte 0x80004000 0x17)

theorem onePage_space : AddressSpace onePage.mem 0x80001000 onePageTree := by
  have hzero (p : ℕ) : ZeroPage (fun _ => 0) p := fun k _ => by simp [load]
  have h₀ : Holds (fun _ => 0) 0x80001000 .empty := holds_empty ⟨by decide, by decide, by decide⟩ (hzero _)
  have h₁ := h₀.setMid (i := 0) (q := 0x80002000) (by decide) rfl (hzero _) ⟨by decide, by decide, by decide⟩
    (by rintro (_ | _ | _) e <;> simp [Tree.page, Tree.empty] at e)
  have h₂ := h₁.setLow (i := 0) (j := 0) (p := 0x80002000) (q := 0x80003000) rfl (by decide) rfl
    (fun k hk => by rw [load_store_of_disjoint 8 8 _ _ (by omega)]; exact hzero _ k hk)
    ⟨by decide, by decide, by decide⟩ (by
      rintro (_ | i | _) e
      · simp [Tree.page] at e
      · by_cases hi : i = 0 <;> simp [Tree.page, Tree.empty, hi] at e
      · simp [Tree.page, Tree.empty] at e)
  have h₃ : Holds onePage.mem 0x80001000 onePageTree :=
    h₂.setLeaf (i := 0) (j := 0) (k := 1) rfl (by decide) (by decide) (by decide)
  have huser (v : ℕ) (hv : UserPage onePageTree v) : v = 1 := by
    by_contra hne
    refine hv.2.1 ?_
    rw [onePageTree, Tree.setLeaf_leaf, if_neg (show v ≠ vpn 0 0 1 from hne)]
    exact Nat.zero_and _
  refine ⟨h₃, fun v hv => ?_, fun v v' hv hv' _ => (huser v hv).trans (huser v' hv').symm⟩
  obtain rfl := huser v hv
  refine ⟨by decide, ?_⟩
  have hpa : pte2pa (onePageTree.leaf 1) = 0x80004000 := by decide
  rw [hpa]
  rintro (_ | i | ⟨i, j⟩) e
  · simp [Tree.page] at e
  · by_cases hi : i = 0 <;> simp [Tree.page, onePageTree, Tree.empty, hi] at e
  · by_cases hij : i = 0 ∧ j = 0 <;> simp [Tree.page, onePageTree, Tree.empty, hij] at e

theorem user_copy_onePage :
    (∃ res bytes, copyin 0x80001000 0x1ffe 4 onePage = .ok ((res, bytes), onePage) ∧
      (res = 0 ↔ ∀ i < 4, Readable onePage 0x80001000 (wrap 0x1ffe i))) ∧
    ∃ res bytes, copyinstr 0x80001000 0x1ffe 4 onePage = .ok ((res, bytes), onePage) ∧
      (res = 0 ↔ ∃ k < 4, (∀ i ≤ k, Readable onePage 0x80001000 (wrap 0x1ffe i)) ∧
        onePage.mem (physAddr onePage 0x80001000 (wrap 0x1ffe k)) = 0) := by
  obtain ⟨hin, -, hstr⟩ := user_copy onePage_space (by decide : 0x1ffe < 2 ^ 64)
  obtain ⟨res, bytes, hrun, -, hiff, -⟩ := hin 4
  obtain ⟨res', bytes', hrun', -, hiff', -⟩ := hstr 4
  exact ⟨⟨res, bytes, hrun, hiff⟩, res', bytes', hrun', hiff'⟩

end Xv6.Vm
