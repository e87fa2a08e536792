import Xv6.Vm.Walk

/-!
# Address spaces

The functions of `vm.c` that grow, shrink, copy and free user memory.  `Mapped T n` says that the
user part of a table maps the first `n` pages; each function takes one such table to another, also
when it runs out of memory half way.
-/

namespace Xv6.Vm

open Memory Kernel Kalloc LinkedList

def npages (sz : ℕ) : ℕ := (sz + 4095) / 4096

/-- The user part of the table maps exactly the first `n` pages. -/
structure Mapped (T : Tree) (n : ℕ) : Prop where
  le : n ≤ UTOP
  leaf : ∀ v < UTOP, T.leaf v ≠ 0 ↔ v < n

/-- The first `n` entries and those outside user memory are the same. -/
def Keeps (n : ℕ) (T T' : Tree) : Prop := ∀ v, v < n ∨ UTOP ≤ v → T'.leaf v = T.leaf v

variable {L : Layout} {s t u : Phys} {m m' : Mem} {own own' own'' : Owners}
  {tabs : ℕ → Option Tree} {r p q va : ℕ} {T T' : Tree} {o : Owner} {C D : ℕ → Owner → Prop}

theorem Keeps.refl (n : ℕ) (T : Tree) : Keeps n T T := fun _ _ => rfl

theorem Keeps.mono {n n' : ℕ} (h : Keeps n' T T') (hn : n ≤ n') : Keeps n T T' :=
  fun v hv => h v (by omega)

theorem Mapped.congr {n : ℕ} (h : Mapped T n) (hl : T'.leaf = T.leaf) : Mapped T' n :=
  ⟨h.le, fun v hv => by rw [hl]; exact h.leaf v hv⟩

theorem Mapped.succ {n w : ℕ} (h : Mapped T n) (hn : n < UTOP) (hw : w ≠ 0)
    (hl : T'.leaf = Function.update T.leaf n w) : Mapped T' (n + 1) := by
  refine ⟨hn, fun v hv => ?_⟩
  rw [hl]
  by_cases e : v = n
  · rw [e, Function.update_self]
    exact iff_of_true hw (by omega)
  · rw [Function.update_of_ne e, h.leaf v hv]
    omega

/-! ## Sizes -/

theorem pgroundup_eq {sz : ℕ} (h : npages sz ≤ UTOP) : pgroundup sz = 4096 * npages sz := by
  unfold npages UTOP TRAPFRAME TRAMPOLINE MAXVA PGSIZE at *
  unfold pgroundup PGSIZE
  omega

theorem npages_mul (n : ℕ) : npages (4096 * n) = n := by
  unfold npages
  omega

theorem npages_mono {a b : ℕ} (h : a ≤ b) : npages a ≤ npages b := by
  unfold npages
  omega

theorem total_lt_utop (L : Layout) : L.total < UTOP := by
  have h := L.base_le
  have h' := firstPage_ge L
  unfold Layout.total PHYSTOP KERNBASE PGSIZE UTOP TRAPFRAME TRAMPOLINE MAXVA PGSIZE
  unfold KERNBASE at h
  omega

/-- An address space has fewer pages than user memory has page numbers. -/
theorem VmOk.mapped_lt (h : VmOk L s own tabs) (hT : tabs r = some T) {n : ℕ} (hm : Mapped T n) :
    n < UTOP := by
  have ht := h.table r T hT
  have howner {v : ℕ} (hv : v < n) : own (pte2pa (T.leaf v)) = some (.user r v) := by
    have hu := hv.trans_le hm.le
    exact (ht.leaf_ok v ((hm.leaf v hu).2 hv)).owner hu
  have hnodup : ((List.range n).map fun v => pte2pa (T.leaf v)).Nodup := by
    refine List.Nodup.map_on (fun x hx y hy e => ?_) List.nodup_range
    have h₁ := howner (List.mem_range.1 hx)
    rw [e, howner (List.mem_range.1 hy)] at h₁
    cases h₁
    rfl
  have hsub : ((List.range n).map fun v => pte2pa (T.leaf v)) ⊆ L.pages := by
    intro p hp
    obtain ⟨v, hv, rfl⟩ := List.mem_map.1 hp
    exact h.mem_pages (howner (List.mem_range.1 hv))
  have hle := (hnodup.subperm hsub).length_le
  rw [List.length_map, List.length_range, length_pages] at hle
  have := total_lt_utop L
  omega

/-! ## Growing and shrinking -/

theorem uvmdealloc_spec (oldsz newsz : ℕ) (h : VmOk L s own tabs) (hT : tabs r = some T)
    (hm : Mapped T (npages oldsz)) :
    ∃ t own' T', uvmdealloc L r oldsz newsz s = .ok (min oldsz newsz, t) ∧
      Effect L (Space r (npages newsz)) r s own tabs t own' T' ∧
      Mapped T' (npages (min oldsz newsz)) ∧ Keeps (npages newsz) T T' := by
  by_cases hge : oldsz ≤ newsz
  · refine ⟨s, own, T, ?_, Effect.refl h hT, ?_, Keeps.refl _ _⟩
    · rw [uvmdealloc, if_pos hge, Nat.min_eq_left hge]
      rfl
    · rwa [Nat.min_eq_left hge]
  have hmin : min oldsz newsz = newsz := Nat.min_eq_right (by omega)
  have hle := npages_mono (show newsz ≤ oldsz by omega)
  have hold := pgroundup_eq hm.le
  have hnew := pgroundup_eq (hle.trans hm.le)
  rw [uvmdealloc, if_neg hge, hold, hnew, hmin]
  by_cases hlt : npages newsz < npages oldsz
  · have hpages : (4096 * npages oldsz - 4096 * npages newsz) / PGSIZE =
        npages oldsz - npages newsz := by
      unfold PGSIZE
      omega
    have hdiv : 4096 * npages newsz / 4096 = npages newsz := by omega
    have hmle := hm.le
    obtain ⟨t, own', T', hrun, he, hleaf⟩ := uvmunmap_spec (4096 * npages newsz)
      (n := npages oldsz - npages newsz) h hT (by omega) (by omega)
      fun v h₁ h₂ => (hm.leaf v (by omega)).2 (by omega)
    rw [hdiv] at he hleaf
    refine ⟨t, own', T', ?_, he, ⟨by omega, fun v hv => ?_⟩, fun v hv => ?_⟩
    · rw [if_pos (by omega), hpages, run_bind hrun]
      rfl
    · rw [hleaf v]
      have := hm.leaf v hv
      split_ifs with hc
      · simp only [ne_eq, not_true_eq_false, false_iff]
        omega
      · rw [this]
        omega
    · rw [hleaf v, if_neg (by omega)]
  · refine ⟨s, own, T, ?_, Effect.refl h hT, ?_, Keeps.refl _ _⟩
    · rw [if_neg (by omega)]
      rfl
    · rwa [show npages newsz = npages oldsz by omega]

/-- A page just taken from the free list is mapped, or returned to the list. -/
theorem mapFresh (va : ℕ) (h : VmOk L s own tabs) (hT : tabs r = some T) (hva : va % 4096 = 0)
    (hv : va / 4096 < UTOP) (hnone : T.leaf (va / 4096) = 0) (hfree : own p = some .free)
    (ht : VmOk L t (Function.update own p (some .held)) tabs) (honly : OnlyPage p s.mem t.mem)
    {perm : ℕ} (hperm : perm < 1024) (hR : perm &&& PTE_R ≠ 0) :
    ∃ res u own' T', mappages r va PGSIZE p perm t = .ok (res, u) ∧
      (res = -1 ∧ (∃ u', kfree L p u = .ok ((), u') ∧
          Effect L (Tables r) r s own tabs u' own' T' ∧ T'.leaf = T.leaf) ∨
        res = 0 ∧ Effect L (Space r (va / 4096)) r s own tabs u own' T' ∧
          own' p = some (.user r (va / 4096)) ∧ SamePage t.mem u.mem p ∧
          T'.leaf = Function.update T.leaf (va / 4096) (mkPte p (perm ||| PTE_V))) := by
  have hheld : Function.update own p (some Owner.held) p = some .held := Function.update_self _ _ _
  have hfirst (C : ℕ → Owner → Prop) :
      Frame (Also C p) s own t (Function.update own p (some .held)) :=
    frame_page (fun x a hx => h.aligned hx) honly fun x hx => Function.update_of_ne hx _ _
  obtain ⟨res, u, own₁, T₁, hrun, ⟨rfl, he, hl⟩ | ⟨rfl, he, hown, hsame, hl⟩⟩ :=
    mappages_user_spec ht hT hva hv hnone hheld hperm hR
  · obtain ⟨hp, -⟩ := he.frame.keep p .held (by simp [Tables, Owner.IsTable, Owner.table]) hheld
    refine ⟨-1, u, Function.update own₁ p (some .free), T₁, hrun,
      .inl ⟨rfl, _, run_kfree he.vm hp (by simp), ⟨he.vm.kfree hp, ?_⟩, hl⟩⟩
    have hlast : Frame (Also (Tables r) p) u own₁ ⟨freed u p, p, false⟩
        (Function.update own₁ p (some .free)) :=
      frame_page (fun x a hx => he.vm.aligned hx) (freed_onlyPage u (he.vm.aligned hp))
        fun x hx => Function.update_of_ne hx _ _
    exact (((hfirst _).trans (he.frame.also p)).trans hlast).close hfree (.inl rfl)
      (Function.update_self _ _ _) (.inl rfl)
  · refine ⟨0, u, own₁, T₁, hrun, .inr ⟨rfl, ⟨he.vm, ?_⟩, hown, hsame, hl⟩⟩
    have hmid : Frame (Also (Space r (va / 4096)) p) t (Function.update own p (some .held)) u own₁ :=
      he.frame.mono fun x a ha => ha.imp (tables_space _) id
    exact ((hfirst _).trans hmid).close hfree (.inl rfl) hown (.inr (.inr ⟨_, le_rfl, rfl⟩))


theorem lor_readable (x : ℕ) (hx : x < 1024) :
    PTE_R ||| PTE_U ||| x < 1024 ∧ (PTE_R ||| PTE_U ||| x) &&& PTE_R ≠ 0 := by
  refine ⟨Nat.or_lt_two_pow (n := 10) (by decide) hx, ?_⟩
  rw [Nat.and_or_distrib_right]
  exact fun e => absurd (Nat.or_eq_zero_iff.1 e).1 (by decide)

theorem mkPte_ne_zero (h : VmOk L s own tabs) (hp : own p = some o) (f : ℕ) : mkPte p f ≠ 0 := by
  obtain ⟨hal, hpos, -⟩ := page_facts (h.mem_pages hp)
  intro e
  have h₀ : pa2pte p = 0 := (Nat.or_eq_zero_iff.1 e).1
  rw [pa2pte, Nat.shiftLeft_eq, Nat.shiftRight_eq_div_pow] at h₀
  omega

/-- The pages from `a` to `b` have the flags that `uvmalloc` gives. -/
def NewPages (T : Tree) (xperm a b : ℕ) : Prop :=
  ∀ v, a ≤ v → v < b → pteFlags (T.leaf v) = PTE_R ||| PTE_U ||| xperm ||| PTE_V

/-- The loop of `uvmalloc`, when the first `k` pages are mapped and `b` of them were at its start. -/
theorem allocLoop_spec (newsz : ℕ) {n k b xperm : ℕ} (h : VmOk L s own tabs)
    (hT : tabs r = some T) (hm : Mapped T k) (hb : b ≤ k) (hx : xperm < 1024) :
    ∃ res t own' T', allocLoop L r (4096 * b) newsz xperm n (4096 * k) s = .ok (res, t) ∧
      Effect L (Space r b) r s own tabs t own' T' ∧
      (res = 0 ∧ Mapped T' b ∧ Keeps b T T' ∨
        res = newsz ∧ Mapped T' (k + n) ∧ Keeps k T T' ∧ NewPages T' xperm k (k + n)) := by
  induction n generalizing k s own tabs T with
  | zero =>
    exact ⟨newsz, s, own, T, rfl, Effect.refl h hT, .inr ⟨rfl, hm, Keeps.refl _ _,
      fun v h₁ h₂ => absurd h₂ (by omega)⟩⟩
  | succ n ih =>
    have hdealloc {t : Phys} {own' : Owners} {T' : Tree} {tabs' : ℕ → Option Tree}
        (ht : VmOk L t own' tabs') (hT' : tabs' r = some T') (hm' : Mapped T' k) :
        ∃ u own'' T'', uvmdealloc L r (4096 * k) (4096 * b) t = .ok (4096 * b, u) ∧
          Effect L (Space r b) r t own' tabs' u own'' T'' ∧ Mapped T'' b ∧ Keeps b T' T'' := by
      have := uvmdealloc_spec (4096 * k) (4096 * b) ht hT'
        (by rwa [npages_mul])
      rwa [Nat.min_eq_right (by omega), npages_mul] at this
    have hk := h.mapped_lt hT hm
    have hdiv : 4096 * k / 4096 = k := by omega
    obtain ⟨p, t, hrun, ⟨rfl, rfl⟩ | ⟨hp, hfree, hvm, honly, -⟩⟩ := kalloc_zero h
    · obtain ⟨u, own', T', hrun', he, hm', hkeep⟩ := hdealloc h hT hm
      refine ⟨0, u, own', T', ?_, he, .inl ⟨rfl, hm', hkeep⟩⟩
      rw [allocLoop, run_bind hrun, if_pos rfl, run_bind hrun']
      rfl
    obtain ⟨hperm, hR⟩ := lor_readable xperm hx
    have hnone : T.leaf k = 0 := by
      by_contra hne
      exact lt_irrefl k ((hm.leaf k hk).1 hne)
    obtain ⟨res, u, own', T', hmap, ⟨rfl, u', hkfree, he, hl⟩ | ⟨rfl, he, hown, -, hl⟩⟩ :=
      mapFresh (4096 * k) h hT (by omega) (by omega) (by rwa [hdiv]) hfree hvm honly hperm hR
    · obtain ⟨v, own'', T'', hrun', he', hm', hkeep⟩ :=
        hdealloc he.vm (Function.update_self _ _ _) (hm.congr hl)
      refine ⟨0, v, own'', T'', ?_, (he.mono fun x o => tables_space b).trans he',
        .inl ⟨rfl, hm', fun x hx' => by rw [hkeep x hx', hl]⟩⟩
      rw [allocLoop, run_bind hrun, if_neg hp, run_bind (run_memset _ _ _), run_bind hmap,
        if_pos (by decide), run_bind hkfree, run_bind hrun']
      rfl
    · rw [hdiv] at he hl
      have hne := mkPte_ne_zero he.vm hown (PTE_R ||| PTE_U ||| xperm ||| PTE_V)
      obtain ⟨res, v, own'', T'', hrun', he', hres⟩ :=
        ih he.vm (Function.update_self _ _ _) (hm.succ hk hne hl) (by omega)
      refine ⟨res, v, own'', T'', ?_, (he.mono fun x o => Space.mono hb).trans he', ?_⟩
      · rw [allocLoop, run_bind hrun, if_neg hp, run_bind (run_memset _ _ _), run_bind hmap,
          if_neg (by simp)]
        exact hrun'
      have hstep {x : ℕ} (hx' : x < k ∨ UTOP ≤ x) : T'.leaf x = T.leaf x := by
        rw [hl, Function.update_of_ne (by omega)]
      obtain ⟨rfl, hm', hkeep⟩ | ⟨rfl, hm', hkeep, hnew⟩ := hres
      · exact .inl ⟨rfl, hm', fun x hx' => by rw [hkeep x hx', hstep (by omega)]⟩
      · rw [show k + 1 + n = k + (n + 1) by omega] at hm' hnew
        refine .inr ⟨rfl, hm', fun x hx' => by rw [hkeep x (by omega), hstep hx'], fun x h₁ h₂ => ?_⟩
        by_cases e : x = k
        · rw [e, hkeep k (.inl (by omega)), hl, Function.update_self,
            pteFlags_mkPte (Nat.or_lt_two_pow (n := 10) hperm (by decide))]
        · exact hnew x (by omega) h₂

/-- `uvmalloc` maps the pages up to the new size, or leaves everything as it was. -/
theorem uvmalloc_spec (newsz xperm : ℕ) {oldsz : ℕ} (h : VmOk L s own tabs) (hT : tabs r = some T)
    (hm : Mapped T (npages oldsz)) (hx : xperm < 1024) :
    ∃ res t own' T', uvmalloc L r oldsz newsz xperm s = .ok (res, t) ∧
      Effect L (Space r (npages oldsz)) r s own tabs t own' T' ∧ Keeps (npages oldsz) T T' ∧
      (res = 0 ∧ Mapped T' (npages oldsz) ∨
        res = max oldsz newsz ∧ Mapped T' (npages (max oldsz newsz)) ∧
          NewPages T' xperm (npages oldsz) (npages (max oldsz newsz))) := by
  by_cases hlt : newsz < oldsz
  · refine ⟨oldsz, s, own, T, ?_, Effect.refl h hT, Keeps.refl _ _, .inr ?_⟩
    · rw [uvmalloc, if_pos hlt]
      rfl
    · rw [Nat.max_eq_left hlt.le]
      exact ⟨rfl, hm, fun v h₁ h₂ => absurd h₂ (by omega)⟩
  rw [Nat.max_eq_right (by omega)]
  have hn : npages oldsz + (newsz - 4096 * npages oldsz + (PGSIZE - 1)) / PGSIZE = npages newsz := by
    unfold npages PGSIZE
    omega
  obtain ⟨res, t, own', T', hrun, he, hres⟩ := allocLoop_spec newsz
    (n := (newsz - 4096 * npages oldsz + (PGSIZE - 1)) / PGSIZE) h hT hm le_rfl hx
  refine ⟨res, t, own', T', ?_, he, ?_⟩
  · rw [uvmalloc, if_neg hlt, pgroundup_eq hm.le]
    exact hrun
  · rw [hn] at hres
    obtain ⟨h₁, h₂, h₃⟩ | ⟨h₁, h₂, h₃, h₄⟩ := hres
    · exact ⟨h₃, .inl ⟨h₁, h₂⟩⟩
    · exact ⟨h₃, .inr ⟨h₁, h₂, h₄⟩⟩

end Xv6.Vm
