import Xv6.Sys.Stack

/-!
# User images

The page table of a process has a shape: the pages of its size, the trapframe and the trampoline.
`proc_pagetable` makes such a table of size 0, the parts of `exec` build an image in it, and
`proc_freepagetable` frees it; each of them leaves a table of the right shape, or none at all.
-/

namespace Xv6.Sys

open Memory Kernel Kalloc Vm Stack

variable {L : Image} {s t u : Phys} {m m' : Mem} {own own' own'' : Owners}
  {tabs : ℕ → Option Tree} {r p q va tf sz : ℕ} {T T' : Tree} {o : Owner} {C D : ℕ → Owner → Prop}

/-- The table maps the pages of `sz` bytes, the trapframe `tf` and the trampoline. -/
structure Shape (L : Image) (tf sz : ℕ) (T : Tree) : Prop where
  mapped : Mapped T (npages sz)
  trapframe : T.leaf (TRAPFRAME / 4096) = mkPte tf (PTE_R ||| PTE_W ||| PTE_V)
  trampoline : T.leaf (TRAMPOLINE / 4096) = mkPte L.trampoline (PTE_R ||| PTE_X ||| PTE_V)
  rest : ∀ v, UTOP ≤ v → v ≠ TRAPFRAME / 4096 → v ≠ TRAMPOLINE / 4096 → T.leaf v = 0

/-- User memory of another size in a table of the same shape. -/
theorem Shape.keeps {sz' n : ℕ} (h : Shape L tf sz T) (hm : Mapped T' (npages sz'))
    (hk : Keeps n T T') : Shape L tf sz' T' where
  mapped := hm
  trapframe := (hk _ (.inr (by decide))).trans h.trapframe
  trampoline := (hk _ (.inr (by decide))).trans h.trampoline
  rest v hv h₁ h₂ := (hk v (.inr hv)).trans (h.rest v hv h₁ h₂)

/-- The user may not use the pages outside user memory. -/
theorem Shape.not_user (h : Shape L tf sz T) (v : ℕ) (hv : UTOP ≤ v) : T.leaf v &&& PTE_U = 0 := by
  by_cases h₁ : v = TRAPFRAME / 4096
  · rw [h₁, h.trapframe, mkPte_and (by decide) (by decide)]
    decide
  by_cases h₂ : v = TRAMPOLINE / 4096
  · rw [h₂, h.trampoline, mkPte_and (by decide) (by decide)]
    decide
  · rw [h.rest v hv h₁ h₂]
    decide

/-- Only free pages change. -/
def FreePages (_ : ℕ) (o : Owner) : Prop := o = .free

/-- An address space that exists neither before nor after owns no pages. -/
theorem Frame.of_no_table {n : ℕ} (hf : Frame (Space r n) s own t own')
    (h : VmOk L.toLayout s own tabs) (h' : VmOk L.toLayout t own' tabs) (hnone : tabs r = none) :
    Frame FreePages s own t own' := by
  have key {s : Phys} {own : Owners} (h : VmOk L.toLayout s own tabs) {x : ℕ} {o : Owner}
      (ho : ¬ FreePages x o) (hx : own x = some o) : ¬ Space r n x o := by
    intro hs
    have htab : o.table = some r := by
      obtain e | hs | ⟨v, -, rfl⟩ := hs
      · exact absurd e ho
      · exact hs.1
      · rfl
    have := h.rooted x o r hx htab
    rw [hnone] at this
    cases this
  exact ⟨fun x o ho hx => hf.keep x o (key h ho hx) hx, fun x o ho hx => hf.back x o (key h' ho hx) hx⟩

theorem trampoline_facts (L : Image) : L.trampoline % 4096 = 0 ∧ L.trampoline < PHYSTOP := by
  have h₁ := L.trampoline_aligned
  have h₂ := L.trampoline_lt
  have h₃ := L.le_stop
  exact ⟨h₁, by omega⟩

theorem mapped_empty : Mapped Tree.empty 0 := ⟨Nat.zero_le _, fun v _ => by simp [Tree.empty]⟩

/-- The special pages are outside user memory. -/
theorem mapped_update {n v w : ℕ} (h : Mapped T n) (hv : UTOP ≤ v)
    (hl : T'.leaf = Function.update T.leaf v w) : Mapped T' n :=
  ⟨h.le, fun x hx => by rw [hl, Function.update_of_ne (by omega)]; exact h.leaf x hx⟩

theorem procFreepagetable_spec (h : VmOk L.toLayout s own tabs) (hT : tabs r = some T)
    (hs : Shape L tf sz T) :
    ∃ t own', procFreepagetable L r sz s = .ok ((), t) ∧
      VmOk L.toLayout t own' (Function.update tabs r none) ∧ Frame (Space r 0) s own t own' := by
  obtain ⟨t₁, T₁, hrun₁, he₁, hl₁⟩ := uvmunmap_other_spec TRAMPOLINE h hT (by decide)
    (by decide) (by decide) (by rw [hs.trampoline, mkPte_eq (by decide)]; simp [PTE_V, PTE_R, PTE_X])
  have hne : TRAPFRAME / 4096 ≠ TRAMPOLINE / 4096 := by decide
  obtain ⟨t₂, T₂, hrun₂, he₂, hl₂⟩ := uvmunmap_other_spec TRAPFRAME he₁.vm
    (Function.update_self _ _ _) (by decide) (by decide) (by decide) (by
      rw [hl₁, Function.update_of_ne hne, hs.trapframe, mkPte_eq (by decide)]
      simp [PTE_V, PTE_R, PTE_W])
  have hm : Mapped T₂ (npages sz) :=
    mapped_update (mapped_update hs.mapped (by decide) hl₁) (by decide) hl₂
  obtain ⟨u, own', hrun₃, hvm, hframe⟩ := uvmfree_spec _ he₂.vm (Function.update_self _ _ _) hm
    fun v hv => by
      rw [hl₂]
      by_cases e : v = TRAPFRAME / 4096
      · rw [e, Function.update_self]
      · rw [Function.update_of_ne e, hl₁]
        by_cases e' : v = TRAMPOLINE / 4096
        · rw [e', Function.update_self]
        · rw [Function.update_of_ne e']
          exact hs.rest v hv e e'
  refine ⟨u, own', ?_, by simpa using hvm, ?_⟩
  · rw [procFreepagetable, run_bind hrun₁, run_bind hrun₂]
    exact hrun₃
  · exact ((he₁.frame.mono fun _ _ => tables_space 0).trans
      (he₂.frame.mono fun _ _ => tables_space 0)).trans hframe

/-- `proc_pagetable` fails without a trace, or makes a table with no user memory. -/
theorem procPagetable_spec (h : VmOk L.toLayout s own tabs) (htf : tf % 4096 = 0)
    (htf' : tf < PHYSTOP) :
    ∃ p t own', procPagetable L tf s = .ok (p, t) ∧
      (p = 0 ∧ VmOk L.toLayout t own' tabs ∧ Frame FreePages s own t own' ∨
        p ≠ 0 ∧ tabs p = none ∧ Frame (Space p 0) s own t own' ∧
          ∃ T, VmOk L.toLayout t own' (Function.update tabs p (some T)) ∧ Shape L tf 0 T) := by
  obtain ⟨p, t, hrun, ⟨rfl, rfl⟩ | ⟨hp, hnone, own₁, hvm₁, hframe₁⟩⟩ := uvmcreate_spec h
  · refine ⟨0, t, own, ?_, .inl ⟨rfl, h, Frame.refl _ _ _⟩⟩
    rw [procPagetable, run_bind hrun]
    rfl
  have hself {T : Tree} : Function.update tabs p (some T) p = some T := Function.update_self _ _ _
  have hupd {s : Phys} {own : Owners} {f : ℕ → Option Tree}
      (hvm : VmOk L.toLayout s own (Function.update f p none)) (hf : ∀ x, x ≠ p → f x = tabs x) :
      VmOk L.toLayout s own tabs := by
    have : Function.update f p none = tabs := by
      funext x
      by_cases e : x = p
      · rw [e, Function.update_self, hnone]
      · rw [Function.update_of_ne e, hf x e]
    rwa [this] at hvm
  obtain ⟨hta, htb⟩ := trampoline_facts L
  obtain ⟨r₁, t₁, own₂, T₁, hmap₁, he₁, ⟨rfl, hl₁⟩ | ⟨rfl, hl₁⟩⟩ := mappages_other_spec
    TRAMPOLINE (PTE_R ||| PTE_X) hvm₁ hself (by decide) (by decide) (by decide) rfl
    hta htb (by decide) (by decide)
  · obtain ⟨u, own₃, hfree, hvm, hframe⟩ := uvmfree_spec 0 he₁.vm (Function.update_self _ _ _)
      (mapped_empty.congr hl₁) fun v _ => by rw [hl₁]; rfl
    have hvm' := hupd hvm fun x hx => by simp [hx]
    refine ⟨0, u, own₃, ?_, .inl ⟨rfl, hvm', Frame.of_no_table (r := p) (n := 0)
      ((hframe₁.trans (he₁.frame.mono fun _ _ => tables_space 0)).trans hframe) h hvm' hnone⟩⟩
    rw [procPagetable, run_bind hrun, if_neg hp, run_bind hmap₁, if_pos (by decide), run_bind hfree]
    rfl
  have hne : TRAPFRAME / 4096 ≠ TRAMPOLINE / 4096 := by decide
  have hm₁ : Mapped T₁ 0 := mapped_update mapped_empty (by decide) hl₁
  obtain ⟨r₂, t₂, own₃, T₂, hmap₂, he₂, ⟨rfl, hl₂⟩ | ⟨rfl, hl₂⟩⟩ := mappages_other_spec
    TRAPFRAME (PTE_R ||| PTE_W) he₁.vm (Function.update_self _ _ _) (by decide)
    (by decide) (by decide) (by rw [hl₁, Function.update_of_ne hne]; rfl) htf htf' (by decide)
    (by decide)
  · obtain ⟨t₃, T₃, hun, he₃, hl₃⟩ := uvmunmap_other_spec TRAMPOLINE he₂.vm
      (Function.update_self _ _ _) (by decide) (by decide) (by decide) (by
        rw [hl₂, hl₁, Function.update_self, mkPte_eq (by decide)]
        simp [PTE_V, PTE_R, PTE_X])
    obtain ⟨u, own₄, hfree, hvm, hframe⟩ := uvmfree_spec 0 he₃.vm
      (Function.update_self _ _ _) (mapped_update (hm₁.congr hl₂) (by decide) hl₃) fun v hv => by
        rw [hl₃]
        by_cases e : v = TRAMPOLINE / 4096
        · rw [e, Function.update_self]
        · rw [Function.update_of_ne e, hl₂, hl₁, Function.update_of_ne e]
          rfl
    have hvm' := hupd hvm fun x hx => by simp [hx]
    refine ⟨0, u, own₄, ?_, .inl ⟨rfl, hvm', Frame.of_no_table (r := p) (n := 0)
      ((((hframe₁.trans (he₁.frame.mono fun _ _ => tables_space 0)).trans
        (he₂.frame.mono fun _ _ => tables_space 0)).trans
        (he₃.frame.mono fun _ _ => tables_space 0)).trans hframe) h hvm' hnone⟩⟩
    rw [procPagetable, run_bind hrun, if_neg hp, run_bind hmap₁, if_neg (by decide), run_bind hmap₂,
      if_pos (by decide), run_bind hun, run_bind hfree]
    rfl
  · refine ⟨p, t₂, own₃, ?_, .inr ⟨hp, hnone, ((hframe₁.trans
      (he₁.frame.mono fun _ _ => tables_space 0)).trans
      (he₂.frame.mono fun _ _ => tables_space 0)), T₂, by simpa using he₂.vm, ?_⟩⟩
    · rw [procPagetable, run_bind hrun, if_neg hp, run_bind hmap₁, if_neg (by decide),
        run_bind hmap₂, if_neg (by decide)]
      rfl
    · exact
        { mapped := mapped_update hm₁ (by decide) hl₂
          trapframe := by rw [hl₂, Function.update_self]
          trampoline := by rw [hl₂, Function.update_of_ne hne.symm, hl₁, Function.update_self]
          rest := fun v _ h₁ h₂ => by
            rw [hl₂, Function.update_of_ne h₁, hl₁, Function.update_of_ne h₂]
            rfl }


/-! ## The image that `exec` builds -/

/-- The user may use all of the first `n` pages. -/
def AllUser (T : Tree) (n : ℕ) : Prop := ∀ v < n, T.leaf v &&& PTE_U ≠ 0

/-- The state after code that writes to user pages of `r` only. -/
structure Wrote (L : Image) (r : ℕ) (s : Phys) (own : Owners) (tabs : ℕ → Option Tree) (t : Phys) :
    Prop where
  vm : VmOk L.toLayout t own tabs
  frame : Frame (UserPages r) s own t own

theorem Wrote.refl (h : VmOk L.toLayout s own tabs) : Wrote L r s own tabs s := ⟨h, Frame.refl _ _ _⟩

theorem Wrote.trans (h : Wrote L r s own tabs t) (h' : Wrote L r t own tabs u) :
    Wrote L r s own tabs u := ⟨h'.vm, h.frame.trans h'.frame⟩

theorem userPages_space {x : ℕ} (h : UserPages r x o) : Space r 0 x o := by
  obtain ⟨v, rfl⟩ := h
  exact .inr (.inr ⟨v, Nat.zero_le v, rfl⟩)

/-- Code that writes to user pages leaves the table as it is. -/
theorem Wrote.effect (h : Wrote L r s own tabs t) (hT : tabs r = some T) :
    Effect L.toLayout (Space r 0) r s own tabs t own T :=
  ⟨by rw [← hT, Function.update_eq_self]; exact h.vm, h.frame.mono fun _ _ => userPages_space⟩

theorem loadsegLoop_spec (va : ℕ) (rd : Reader) (offset fsz k i : ℕ) {n : ℕ}
    (h : VmOk L.toLayout s own tabs) (hT : tabs r = some T) (hm : Mapped T n) (hu : AllUser T n) (hva : va % 4096 = 0)
    (hi : i % 4096 = 0) (hle : va / 4096 + i / 4096 + k ≤ n) :
    ∃ res t, loadsegLoop r va rd offset fsz k i s = .ok (res, t) ∧ Wrote L r s own tabs t := by
  induction k generalizing i s with
  | zero => exact ⟨0, s, rfl, Wrote.refl h⟩
  | succ k ih =>
    have hdiv : (va + i) / 4096 = va / 4096 + i / 4096 := by omega
    have hle' := hm.le
    have hleaf : T.leaf ((va + i) / 4096) ≠ 0 :=
      (hm.leaf _ (by omega)).2 (by omega)
    have hok := (h.table r T hT).leaf_ok _ hleaf
    have hpo := hok.owner (show (va + i) / 4096 < UTOP by omega)
    have hlt : va + i < MAXVA := lt_maxva_of_lt_utop (by omega)
    have hwalk : walkaddr r (va + i) s = .ok (pte2pa (T.leaf ((va + i) / 4096)), s) := by
      rw [walkaddr, if_neg (by omega), run_bind (walk_spec h hT hlt)]
      obtain h₀ | ⟨h₀, hw⟩ := walk_entry h hT hlt
      · obtain ⟨q, -, hpte, hqo⟩ := (h.table r T hT).mapped hlt hleaf
        have := h.ne_zero hqo
        omega
      · rw [if_neg h₀, run_bind (run_getWord _ _), hw, if_neg hok.valid, if_neg (hu _ (by omega))]
        rfl
    have hpne := h.ne_zero hpo
    simp only [loadsegLoop]
    rw [run_bind hwalk, if_neg hpne, run_bind (run_modify _ _)]
    obtain ⟨c, hc⟩ : ∃ c, (if fsz - i < PGSIZE then fsz - i else PGSIZE) = c := ⟨_, rfl⟩
    have hcle : c ≤ 4096 := by
      rw [← hc, PGSIZE]
      split_ifs <;> omega
    rw [hc]
    obtain ⟨bs, hbs⟩ : ∃ bs, rd.read ((offset + i) % 2 ^ 32) c = bs := ⟨_, rfl⟩
    have hlen : bs.length ≤ 4096 := by
      rw [← hbs, Reader.read, List.length_take]
      omega
    rw [hbs]
    obtain ⟨hvm, hframe⟩ := h.writeUser hpo (onlyPage_of_eqOutside (write_eqOutside s.mem _ bs)
      (h.aligned hpo) le_rfl (by omega))
    split_ifs with hc
    · exact ⟨-1, _, rfl, ⟨hvm, hframe⟩⟩
    · obtain ⟨res, t, hrun, hw⟩ := ih hvm (i := i + PGSIZE) (by unfold PGSIZE; omega)
        (by unfold PGSIZE; omega)
      exact ⟨res, t, hrun, Wrote.trans ⟨hvm, hframe⟩ hw⟩

theorem newPages_user {xperm a b : ℕ} (h : NewPages T xperm a b) {v : ℕ}
    (h₁ : a ≤ v) (h₂ : v < b) : T.leaf v &&& PTE_U ≠ 0 := by
  have hf := h v h₁ h₂
  rw [pteFlags_eq] at hf
  rw [and_mask _ (by decide), hf]
  rw [Nat.and_or_distrib_right, Nat.and_or_distrib_right]
  intro e
  exact absurd (Nat.or_eq_zero_iff.1 (Nat.or_eq_zero_iff.1 e).1).1 (by decide)

theorem flags2perm_lt (flags : ℕ) : flags2perm flags < 1024 := by
  unfold flags2perm
  split_ifs <;> decide

theorem loadLoop_spec (rd : Reader) (n off : ℕ) (h : VmOk L.toLayout s own tabs)
    (hT : tabs r = some T) (hs : Shape L tf sz T) (hu : AllUser T (npages sz)) :
    ∃ ok sz' t own' T', loadLoop L r rd n off sz s = .ok ((ok, sz'), t) ∧
      Effect L.toLayout (Space r 0) r s own tabs t own' T' ∧ Shape L tf sz' T' ∧
      AllUser T' (npages sz') := by
  induction n generalizing off sz s own tabs T with
  | zero => exact ⟨true, sz, s, own, T, rfl, Effect.refl h hT, hs, hu⟩
  | succ n ih =>
    have hbad : ∃ ok sz' t own' T', (pure (false, sz) : K (Bool × ℕ)) s = .ok ((ok, sz'), t) ∧
        Effect L.toLayout (Space r 0) r s own tabs t own' T' ∧ Shape L tf sz' T' ∧
        AllUser T' (npages sz') := ⟨false, sz, s, own, T, rfl, Effect.refl h hT, hs, hu⟩
    simp only [loadLoop]
    split_ifs with h₁ h₂ h₃ h₄ h₅
    · exact hbad
    · exact ih _ h hT hs hu
    · exact hbad
    · exact hbad
    · exact hbad
    obtain ⟨ph, hph⟩ : ∃ ph, rd.read off 56 = ph := ⟨_, rfl⟩
    rw [hph] at h₃ h₅ ⊢
    obtain ⟨res, t, own₁, T₁, hrun, he, hkeep, ⟨rfl, hm⟩ | ⟨rfl, hm, hnew⟩⟩ := uvmalloc_spec
      (field ph 16 8 + field ph 40 8) _ h hT hs.mapped (flags2perm_lt (field ph 4 4))
    · rw [run_bind hrun, if_pos rfl]
      exact ⟨false, sz, t, own₁, T₁, rfl, he.mono fun _ _ => Space.mono (Nat.zero_le _),
        hs.keeps hm hkeep, fun v hv => by rw [hkeep v (.inl hv)]; exact hu v hv⟩
    rw [run_bind hrun]
    have hu₁ : AllUser T₁ (npages (max sz (field ph 16 8 + field ph 40 8))) := fun v hv => by
      by_cases hvs : v < npages sz
      · rw [hkeep v (.inl hvs)]
        exact hu v hvs
      · exact newPages_user hnew (by omega) hv
    have hs₁ := hs.keeps hm hkeep
    have he₁ := he.mono fun x o => Space.mono (r := r) (x := x) (o := o) (Nat.zero_le _)
    split_ifs with h₆
    · have h₀ : npages sz = 0 := by
        have : sz = 0 := by omega
        rw [this]
        rfl
      refine ⟨false, sz, t, own₁, T₁, rfl, he₁, hs.keeps ?_ hkeep, by rw [h₀]; exact fun v hv => by omega⟩
      rw [h₆] at hm
      rwa [h₀]
    obtain ⟨res, u, hload, hw⟩ := loadsegLoop_spec (field ph 16 8) rd
      (field ph 8 8 % 2 ^ 32) (field ph 32 8 % 2 ^ 32)
      ((field ph 32 8 % 2 ^ 32 + (PGSIZE - 1)) / PGSIZE) 0 he.vm (Function.update_self _ _ _) hm hu₁
      (by unfold PGSIZE at h₅; omega) rfl (by
        unfold npages PGSIZE at *
        have := Nat.mod_le (field ph 32 8) (2 ^ 32)
        omega)
    rw [loadseg, run_bind hload]
    have he₂ := he₁.trans (hw.effect (Function.update_self _ _ _))
    split_ifs with h₇
    · exact ⟨false, _, u, own₁, T₁, rfl, he₂, hs₁, hu₁⟩
    · obtain ⟨ok, sz', v, own₂, T₂, hrun', he₃, hs₂, hu₂⟩ :=
        ih ((off + 56) % 2 ^ 32) he₂.vm (Function.update_self _ _ _) hs₁ hu₁
      exact ⟨ok, sz', v, own₂, T₂, hrun', he₂.trans he₃, hs₂, hu₂⟩


/-- The strings were pushed from `sp` down to `sp'`, and nothing above changed. -/
structure PushedArgs (s t : Phys) (T : Tree) (stackbase : ℕ) (argv : List ℕ) (sp : ℕ) (ps : List ℕ) (sp' : ℕ) :
    Prop where
  pushed : Pushed 16 (UserFinds t T) sp (strings s.mem argv) ps sp'
  base : stackbase ≤ sp'
  above : ∀ x b, sp ≤ x → UserFinds s T x b → UserFinds t T x b

theorem pushArgs_spec (stackbase : ℕ) (argv : List ℕ) (sp : ℕ) (ustack : List ℕ) (h : VmOk L.toLayout s own tabs)
    (hT : tabs r = some T) (hs : Shape L tf sz T) :
    ∃ res t, pushArgs r stackbase argv sp ustack s = .ok (res, t) ∧ Wrote L r s own tabs t ∧
      (Args s.mem own argv → PGSIZE ≤ stackbase → stackbase ≤ sp → 16 ∣ sp → sp < 2 ^ 64 →
        ∀ sp' us, res = some (sp', us) → ∃ ps, us = ustack ++ ps ∧ PushedArgs s t T stackbase argv sp ps sp') := by
  induction argv generalizing s sp ustack with
  | nil =>
    refine ⟨_, s, rfl, Wrote.refl h, fun _ _ hbase _ _ sp' us e => ?_⟩
    cases e
    exact ⟨[], (List.append_nil _).symm, .nil _, hbase, fun _ _ _ hx => hx⟩
  | cons a argv ih =>
    simp only [pushArgs]
    split_ifs with h₁
    · exact ⟨none, s, rfl, Wrote.refl h, by simp⟩
    rw [run_bind (run_get s)]
    split_ifs with h₂
    · exact ⟨none, s, rfl, Wrote.refl h, by simp⟩
    obtain ⟨p, hp⟩ : ∃ p, pushDown sp ((strAt s.mem a).length + 1) = p := ⟨_, rfl⟩
    rw [hp] at h₂ ⊢
    obtain ⟨res, t, hrun, -, hvm, hframe⟩ := copyout_spec p (strAt s.mem a ++ [0]) h hT hs.not_user
    obtain ⟨habove, hfinds⟩ := copyout_finds (h.addressSpace hT hs.not_user) hrun
    rw [run_bind hrun]
    split_ifs with h₃
    · exact ⟨none, t, rfl, ⟨hvm, hframe⟩, by simp⟩
    obtain ⟨res', u, hrun', hw, hpush⟩ := ih p (ustack ++ [p]) hvm
    refine ⟨res', u, hrun', Wrote.trans ⟨hvm, hframe⟩ hw, fun hargs hpage hbase hsp hlt sp' us e => ?_⟩
    have hlen := (hargs a List.mem_cons_self).2
    have hdown : sp = p + roundUp 16 (strAt s.mem a ++ [0]).length := by
      rw [← hp, List.length_append, List.length_singleton]
      exact pushDown_eq hsp hlt (hpage.trans hbase) hlen
    have hle := le_roundUp (show 0 < 16 by decide) (strAt s.mem a ++ [0]).length
    have hargs' : Args s.mem own argv := fun x hx => hargs x (List.mem_cons_of_mem _ hx)
    have hsame := hargs'.samePage hframe
    obtain ⟨ps, rfl, hps⟩ := hpush (hargs'.congr (fun _ _ => rfl) hsame) hpage (by omega)
      ((Nat.dvd_add_left (dvd_roundUp 16 _)).1 (hdown ▸ hsp)) (by omega) sp' us e
    refine ⟨p :: ps, by simp, .cons hdown (fun i hi => ?_) ?_, hps.base, fun x b hx hb => ?_⟩
    · exact hps.above _ _ (by omega) (hfinds h₃ i hi)
    · have hpushed := hps.pushed
      rw [strings_congr hsame] at hpushed
      exact hpushed
    · exact hps.above x b (by omega) (habove x b (by omega) hb)

theorem mapped_pgroundup (hm : Mapped T (npages sz)) : npages (pgroundup sz) = npages sz := by
  rw [pgroundup_eq hm.le, npages_mul]

theorem Shape.clear {v w : ℕ} (hs : Shape L tf sz T) (hv : v < npages sz) (hw : w ≠ 0)
    (hl : T'.leaf = Function.update T.leaf v w) : Shape L tf sz T' := by
  have hle := hs.mapped.le
  refine hs.keeps ⟨hle, fun x hx => ?_⟩ (n := 0) fun x hx => ?_
  · rw [hl]
    by_cases e : x = v
    · rw [e, Function.update_self]
      exact iff_of_true hw hv
    · rw [Function.update_of_ne e]
      exact hs.mapped.leaf x hx
  · rw [hl, Function.update_of_ne (by omega)]

/-- The stack page with the strings, the pointers to them and the stack pointer. -/
structure ArgStack (s t : Phys) (T : Tree) (argv : List ℕ) (sz : ℕ) (ps : List ℕ) (sp : ℕ) : Prop where
  pushed : Pushed 16 (UserFinds t T) sz (strings s.mem argv ++ [words (ps ++ [0])]) (ps ++ [sp]) sp
  base : sz - USERSTACK * PGSIZE ≤ sp
  size : (USERSTACK + 1) * PGSIZE ≤ sz ∧ sz % PGSIZE = 0
  guard : T.leaf ((sz - (USERSTACK + 1) * PGSIZE) / PGSIZE) &&& PTE_U = 0

theorem pushStack_spec (argv : List ℕ) (h : VmOk L.toLayout s own tabs) (hT : tabs r = some T)
    (hs : Shape L tf sz T) :
    ∃ res sz' t own' T', pushStack L r argv sz s = .ok ((res, sz'), t) ∧
      Effect L.toLayout (Space r 0) r s own tabs t own' T' ∧ Shape L tf sz' T' ∧
      (Args s.mem own argv → argv.length < MAXARG → ∀ sp argc, res = some (sp, argc) →
        argc = argv.length ∧ ∃ ps, ArgStack s t T' argv sz' ps sp) := by
  have hup := mapped_pgroundup hs.mapped
  have hs' : Shape L tf (pgroundup sz) T := { hs with mapped := by rw [hup]; exact hs.mapped }
  simp only [pushStack]
  obtain ⟨res, t, own₁, T₁, hrun, he, hkeep, ⟨rfl, hm⟩ | ⟨rfl, hm, -⟩⟩ := uvmalloc_spec
    (pgroundup sz + (USERSTACK + 1) * PGSIZE) PTE_W h hT hs'.mapped (by decide)
  · rw [run_bind hrun, if_pos rfl]
    exact ⟨none, _, t, own₁, T₁, rfl, he.mono fun _ _ => Space.mono (Nat.zero_le _), hs'.keeps hm hkeep, by simp⟩
  rw [Nat.max_eq_right (by omega)] at hm hrun
  obtain ⟨sz₁, hsz⟩ : ∃ n, pgroundup sz + (USERSTACK + 1) * PGSIZE = n := ⟨_, rfl⟩
  rw [hsz] at hm hrun
  have hbig : sz₁ = pgroundup sz + 8192 := hsz.symm
  have hs₁ : Shape L tf sz₁ T₁ := hs'.keeps hm hkeep
  have he₁ := he.mono fun x o => Space.mono (r := r) (x := x) (o := o) (Nat.zero_le _)
  have hguard : (sz₁ - (USERSTACK + 1) * PGSIZE) / 4096 < npages sz₁ := by
    unfold npages USERSTACK PGSIZE
    omega
  obtain ⟨t₂, T₂, w, hclear, he₂, hl₂, hw, -, hwU⟩ := uvmclear_spec
    (sz₁ - (USERSTACK + 1) * PGSIZE) he.vm (Function.update_self _ _ _) (hguard.trans_le hm.le)
    ((hm.leaf _ (hguard.trans_le hm.le)).2 hguard)
  have hs₂ := hs₁.clear hguard hw hl₂
  have he₃ := he₁.trans (he₂.mono fun _ _ => tables_space 0)
  obtain ⟨res, t₃, hpush, hw₃, hargs₃⟩ := pushArgs_spec (sz₁ - USERSTACK * PGSIZE) argv sz₁
    [] he₃.vm (Function.update_self _ _ _) hs₂
  have he₄ := he₃.trans (hw₃.effect (Function.update_self _ _ _))
  rw [hsz, run_bind hrun, if_neg (by omega), run_bind hclear, run_bind hpush]
  cases res with
  | none => exact ⟨none, sz₁, t₃, own₁, T₂, rfl, he₄, hs₂, by simp⟩
  | some res =>
    obtain ⟨sp, ustack⟩ := res
    simp only []
    split_ifs with h₁
    · exact ⟨none, sz₁, t₃, own₁, T₂, rfl, he₄, hs₂, by simp⟩
    obtain ⟨sp', hsp'⟩ : ∃ p, pushDown sp ((ustack.length + 1) * 8) = p := ⟨_, rfl⟩
    rw [hsp'] at h₁ ⊢
    obtain ⟨res', t₅, hcopy, -, hvm₅, hframe₅⟩ := copyout_spec sp' (words (ustack ++ [0])) he₄.vm
      (Function.update_self _ _ _) hs₂.not_user
    obtain ⟨habove, hfinds⟩ := copyout_finds
      (he₄.vm.addressSpace (Function.update_self _ _ _) hs₂.not_user) hcopy
    have hw₅ : Wrote L r t₃ own₁ _ t₅ := ⟨hvm₅, hframe₅⟩
    have he₅ := he₄.trans (hw₅.effect (Function.update_self _ _ _))
    rw [run_bind hcopy]
    split_ifs with h₂
    · exact ⟨none, sz₁, t₅, own₁, T₂, rfl, he₅, hs₂, by simp⟩
    refine ⟨some (sp', ustack.length), sz₁, t₅, own₁, T₂, rfl, he₅, hs₂, fun hargs hlen a b e => ?_⟩
    cases e
    have hsize : sz₁ % 4096 = 0 ∧ sz₁ < 2 ^ 64 := by
      have hle := hs.mapped.le
      have hu : UTOP < 2 ^ 32 := by decide
      rw [hbig, pgroundup_eq hle]
      omega
    have hheld {x : ℕ} (hx : x ∈ argv) := he₃.frame.keep x .held
      (by simp [Space, Owner.IsTable, Owner.table]) (hargs x hx).1
    have hsame : ∀ x ∈ argv, SamePage s.mem t₂.mem x := fun x hx => (hheld hx).2
    obtain ⟨ps, hus, hps⟩ := hargs₃
      (hargs.congr (fun x hx => (hheld hx).1.trans (hargs x hx).1.symm) hsame)
      (by unfold USERSTACK PGSIZE; omega) (Nat.sub_le _ _) (by omega) hsize.2 sp ustack rfl
    rw [List.nil_append] at hus
    subst hus
    have hcount : ustack.length = argv.length := by
      rw [hps.pushed.length_eq, strings, List.length_map]
    have hwords : (words (ustack ++ [0])).length = (ustack.length + 1) * 8 := by
      rw [length_words, List.length_append, List.length_singleton, Nat.mul_comm]
    have hdown : sp = sp' + roundUp 16 (words (ustack ++ [0])).length := by
      rw [← hsp', hwords]
      refine pushDown_eq (hps.pushed.dvd (by omega)).1 ?_ ?_ ?_
      · have := hps.pushed.eq_add_room
        omega
      · have := hps.base
        unfold USERSTACK PGSIZE at *
        omega
      · unfold MAXARG at hlen
        unfold PGSIZE
        omega
    have hle := le_roundUp (show 0 < 16 by decide) (words (ustack ++ [0])).length
    have hpushed := hps.pushed.imp fun x c hx hc => habove x c (by omega) hc
    rw [strings_congr hsame] at hpushed
    refine ⟨hcount, ustack, ?_, ?_, ?_, ?_⟩
    · exact hpushed.append (.cons hdown (hfinds h₂) (.nil _))
    · omega
    · unfold USERSTACK PGSIZE
      omega
    · rw [hl₂]
      exact (congrArg (· &&& PTE_U) (Function.update_self _ _ _)).trans hwU

/-- The image that `exec` builds has the shape of its size, also where `exec` gives up. -/
theorem loadImage_spec (rd : Reader) (elf : List (BitVec 8)) (argv : List ℕ)
    (h : VmOk L.toLayout s own tabs) (hT : tabs r = some T) (hs : Shape L tf 0 T) :
    ∃ res sz' t own' T', loadImage L r rd elf argv s = .ok ((res, sz'), t) ∧
      Effect L.toLayout (Space r 0) r s own tabs t own' T' ∧ Shape L tf sz' T' := by
  obtain ⟨ok, sz₁, t, own₁, T₁, hrun, he, hs₁, -⟩ := loadLoop_spec rd
    (field elf 56 2) (field elf 32 8 % 2 ^ 32) h hT hs fun v hv => by
      rw [show npages 0 = 0 from rfl] at hv
      omega
  rw [loadImage, run_bind hrun]
  cases ok with
  | false => exact ⟨none, sz₁, t, own₁, T₁, rfl, he, hs₁⟩
  | true =>
    obtain ⟨res, sz₂, u, own₂, T₂, hrun', he', hs₂, -⟩ :=
      pushStack_spec argv he.vm (Function.update_self _ _ _) hs₁
    exact ⟨res, sz₂, u, own₂, T₂, hrun', he.trans he', hs₂⟩

/-! ## Pages in the hands of a call -/

/-- The held pages are those of the list. -/
structure Holds (own : Owners) (l : List ℕ) : Prop where
  nodup : l.Nodup
  mem_iff : ∀ p, own p = some .held ↔ p ∈ l

/-- A page changes hands outside the call. -/
theorem Holds.update {l : List ℕ} {o' : Owner} (hl : Holds own l) (hp : own p = some o)
    (ho : .held ≠ o := by simp) (ho' : .held ≠ o' := by simp) :
    Holds (Function.update own p (some o')) l :=
  ⟨hl.nodup, fun q => (update_iff hp q ho ho').trans (hl.mem_iff q)⟩

def SparePages (_ : ℕ) (o : Owner) : Prop := o = .free ∨ o = .held

theorem Holds.cons {l : List ℕ} (hl : Holds own l) (hfree : own p = some .free) :
    Holds (Function.update own p (some .held)) (l ++ [p]) := by
  have hp : p ∉ l := fun hp => by
    rw [(hl.mem_iff p).2 hp] at hfree
    cases hfree
  refine ⟨?_, fun q => ?_⟩
  · rw [List.nodup_append]
    refine ⟨hl.nodup, List.nodup_singleton p, fun a ha b hb => ?_⟩
    rw [List.mem_singleton.1 hb]
    exact fun e => hp (e ▸ ha)
  · by_cases e : q = p
    · rw [e, Function.update_self]
      simp
    · rw [Function.update_of_ne e, hl.mem_iff]
      simp [e]

theorem fetchArgs_spec (last : Bool) (args : List (Option (List (BitVec 8)))) {argv : List ℕ}
    (h : VmOk L.toLayout s own tabs) (hl : Holds own argv) :
    ∃ ok argv' t own', fetchArgs last args argv s = .ok ((ok, argv'), t) ∧
      VmOk L.toLayout t own' tabs ∧ Holds own' argv' ∧ Frame SparePages s own t own' := by
  induction args generalizing s own argv with
  | nil =>
    rw [fetchArgs]
    split_ifs
    · exact ⟨_, _, s, own, rfl, h, hl, Frame.refl _ _ _⟩
    · exact ⟨_, _, s, own, rfl, h, hl, Frame.refl _ _ _⟩
  | cons arg args ih =>
    rw [fetchArgs]
    split_ifs with h₁
    · exact ⟨_, _, s, own, rfl, h, hl, Frame.refl _ _ _⟩
    obtain ⟨p, t, hrun, ⟨rfl, rfl⟩ | ⟨hp, hfree, -, -, hvm, honly⟩⟩ := kalloc_zero h
    · simp only [run_bind hrun]
      exact ⟨false, argv, t, own, rfl, h, hl, Frame.refl _ _ _⟩
    simp only [run_bind hrun, if_neg hp]
    have hheld : Function.update own p (some Owner.held) p = some .held := Function.update_self _ _ _
    have hframe {u : Phys} (hu : OnlyPage p s.mem u.mem) :
        Frame SparePages s own u (Function.update own p (some .held)) := by
      have : Frame (Also SparePages p) s own u (Function.update own p (some .held)) :=
        frame_page (fun x a hx => h.aligned hx) hu fun x hx => Function.update_of_ne hx _ _
      exact this.close hfree (.inl rfl) hheld (.inr rfl)
    cases arg with
    | none => exact ⟨false, _, t, _, rfl, hvm, hl.cons hfree, hframe honly⟩
    | some str =>
      have hwrite : OnlyPage p t.mem (write t.mem p (str.take (PGSIZE - 1) ++ [0])) :=
        onlyPage_of_eqOutside (write_eqOutside _ _ _) (h.aligned hfree) le_rfl (by
          rw [List.length_append, List.length_take, List.length_singleton]
          unfold PGSIZE
          omega)
      have hvm' := hvm.write_page hheld (by simp) (fun r hr => by cases hr.1) hwrite
      obtain ⟨ok, argv', u, own', hrun', hvm'', hl', hframe'⟩ := ih hvm' (hl.cons hfree)
      refine ⟨ok, argv', u, own', ?_, hvm'', hl',
        (hframe (u := { t with mem := write t.mem p (str.take (PGSIZE - 1) ++ [0]) })
          (honly.trans hwrite)).trans hframe'⟩
      simp only [run_bind (run_modify _ _)]
      exact hrun'

theorem freeAll_spec {l : List ℕ} (h : VmOk L.toLayout s own tabs) (hnd : l.Nodup)
    (hl : ∀ p ∈ l, own p = some .held) :
    ∃ t own', freeAll L.toLayout l s = .ok ((), t) ∧ VmOk L.toLayout t own' tabs ∧
      Freed { x | x ∈ l } s own t own' := by
  induction l generalizing s own with
  | nil => exact ⟨s, own, rfl, h, ⟨by simp, fun _ _ => rfl, fun _ _ _ => SamePage.refl _ _⟩⟩
  | cons p l ih =>
    obtain ⟨hp, hnd'⟩ := List.nodup_cons.1 hnd
    have hheld := hl p List.mem_cons_self
    obtain ⟨t, own', hrun, hvm, hfr⟩ := ih (h.kfree hheld) hnd' fun q hq => by
      rw [Function.update_of_ne fun e : q = p => hp (e ▸ hq)]
      exact hl q (List.mem_cons_of_mem _ hq)
    refine ⟨t, own', ?_, hvm, ⟨fun x hx => ?_, fun x hx => ?_, fun x hx hal => ?_⟩⟩
    · rw [freeAll, run_bind (run_kfree h hheld (by simp))]
      exact hrun
    · by_cases hxl : x ∈ l
      · exact hfr.free x hxl
      · obtain rfl := (List.mem_cons.1 hx).resolve_right hxl
        rw [hfr.other x hxl, Function.update_self]
    · have hx' : x ≠ p ∧ x ∉ l := not_or.1 fun e => hx (List.mem_cons.2 e)
      rw [hfr.other x hx'.2, Function.update_of_ne hx'.1]
    · have hx' : x ≠ p ∧ x ∉ l := not_or.1 fun e => hx (List.mem_cons.2 e)
      exact (freed_onlyPage s (h.aligned hheld) x hal hx'.1).trans (hfr.same x hx'.2 hal)

end Xv6.Sys
