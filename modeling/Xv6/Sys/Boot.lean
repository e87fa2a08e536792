import Xv6.Sys.ForkExec

/-!
# Boot, and every run

`main` establishes the invariant, if memory suffices for the first process; every call keeps it.
-/

namespace Xv6.Sys

open Memory Kernel Kalloc Vm LinkedList Runs

variable {L : Image} {k k' : Kern} {s t u : Phys} {m m' : Mem} {own own' own'' : Owners}
  {tabs tabs' : ℕ → Option Tree} {hand hand' : FileId → ℤ} {held held' : List ℕ} {r p q tf sz : ℕ}
  {T T' : Tree} {o : Owner} {i j : Slot}

/-- Before `kinit` all pages are in the hands of the kernel. -/
def allHeld (L : Layout) : Owners := fun p => if p ∈ L.pages then some .held else none

theorem vmOk_start (L : Layout) (m : Mem) : VmOk L ⟨m, 0, false⟩ (allHeld L) fun _ => none where
  pages p := by
    unfold allHeld
    split_ifs with h <;> simp [h]
  free := by
    refine ⟨[], rfl, fun p => ?_⟩
    unfold allHeld
    split_ifs <;> simp
  table r T hT := by cases hT
  rooted p o r hp ho := by
    unfold allHeld at hp
    split_ifs at hp
    cases hp
    cases ho
  refreed := rfl

theorem unused_start (m : Mem) (i : Slot) : Unused ((start m).proc i) :=
  ⟨rfl, rfl, rfl, rfl, fun _ => rfl⟩

theorem kinit_spec (L : Image) (m : Mem) :
    ∃ t own, freeAll L.toLayout L.pages (start m).phys = .ok ((), t) ∧
      KernOk L { start m with phys := t } own (fun _ => none) (fun _ => 0) [] := by
  obtain ⟨t, own, hrun, hvm, hfr⟩ := freeAll_spec (vmOk_start L.toLayout m) (nodup_pages L.toLayout)
    fun p hp => if_pos hp
  have hown (p : ℕ) (o : Owner) (ho : o ≠ .free) : own p ≠ some o := by
    by_cases hp : p ∈ L.pages
    · rw [hfr.free p hp]
      exact fun e => ho (Option.some.inj e).symm
    · rw [hfr.other p hp, allHeld, if_neg hp]
      simp
  have hrefs (f : FileId) : refs { start m with phys := t } f = 0 := by
    simp [refs, start]
  refine ⟨t, own, hrun, hvm, ?_, ?_, ?_⟩
  · exact
      { held := ⟨List.nodup_nil, fun p => iff_of_false (hown p _ (by simp)) (by simp)⟩
        trapframe := fun j p => iff_of_false (hown p _ (by simp)) (by rintro ⟨hp, _, _, e⟩; exact hp e.symm)
        pipe := fun p => iff_of_false (hown p _ (by simp)) (by rintro ⟨f, _, e, _⟩; cases e)
        boot := fun p => iff_of_false (hown p _ (by simp)) (by simp [start]) }
  · exact ⟨fun i hi => absurd rfl hi, fun r hr => (by cases hr), fun i j _ hi => absurd rfl hi⟩
  · exact
      { ref := fun f => by rw [hrefs]; rfl
        closed := fun _ _ => rfl
        single := fun f _ _ _ hf => by cases hf.1
        opened := fun f _ _ hf => by cases hf.1 }

/-- The pages that the kernel takes for itself. -/
theorem takePages_spec {n : ℕ} {x : Unit} (h : KernOk L k own tabs hand held)
    (hrun : takePages n k = .ok (x, k')) :
    ∃ own', KernOk L k' own' tabs hand held ∧ k'.proc = k.proc := by
  induction n generalizing k own with
  | zero =>
    cases hrun
    exact ⟨own, h, rfl⟩
  | succ n ih =>
    rw [takePages] at hrun
    obtain ⟨p, t, hk, ⟨rfl, rfl⟩ | ⟨hp, hfree, -, -, hvm, -⟩⟩ := kalloc_zero h.vm
    · rw [run_bind (run_vm hk), if_pos rfl] at hrun
      cases hrun
    rw [run_bind (run_vm hk), if_neg hp, run_bind (run_modify _ _)] at hrun
    have hvm' := hvm.relabel (Function.update_self _ _ _) ⟨by simp, rfl⟩ .boot ⟨by simp, rfl⟩
    rw [Function.update_idem] at hvm'
    have hk₁ : KernOk L { k with phys := t, boot := p :: k.boot }
        (Function.update own p (some .boot)) tabs hand held :=
      { vm := hvm'
        roles :=
          { held := h.roles.held.update hfree
            trapframe := fun j x => (update_iff hfree x).trans (h.roles.trapframe j x)
            pipe := fun x => (update_iff hfree x).trans (h.roles.pipe x)
            boot := fun x => by
              by_cases e : x = p
              · simp [e]
              · rw [Function.update_of_ne e, h.roles.boot]
                simp [e] }
        spaces := h.spaces.congr fun _ => ⟨rfl, rfl, .inl rfl⟩
        files := h.files.congr (fun _ => rfl) rfl rfl }
    obtain ⟨own', hk', hproc⟩ := ih hk₁ hrun
    exact ⟨own', hk', hproc⟩

theorem uvmfirst_spec {src : List (BitVec 8)} (h : VmOk L.toLayout s own tabs)
    (hT : tabs r = some T) (hm : Mapped T 0) (hsrc : src.length < PGSIZE)
    (hrun : uvmfirst r src s = .ok (true, t)) :
    ∃ own' T', Effect L.toLayout (Space r 0) r s own tabs t own' T' ∧ Mapped T' 1 ∧ Keeps 0 T T' := by
  rw [uvmfirst, if_neg (by omega)] at hrun
  obtain ⟨p, t₁, hk, ⟨rfl, rfl⟩ | ⟨hp, hfree, hvm, honly, -⟩⟩ := kalloc_zero h
  · rw [run_bind hk, run_bind (run_memset _ _ _)] at hrun
    obtain ⟨res, t₂, -, hrun⟩ := run_bind_eq_ok hrun
    rw [run_bind (run_modify _ _)] at hrun
    cases hrun
  rw [run_bind hk, run_bind (run_memset _ _ _)] at hrun
  have hu : 0 < UTOP := by decide
  have hnone : T.leaf (0 / 4096) = 0 := by
    by_contra hne
    exact absurd ((hm.leaf 0 hu).1 hne) (by omega)
  obtain ⟨res, t₂, own₂, T₂, hmap, ⟨rfl, -⟩ | ⟨rfl, he, hown, -, hl⟩⟩ := mapFresh 0 h hT rfl
    hu hnone hfree hvm honly (show PTE_W ||| PTE_R ||| PTE_X ||| PTE_U < 1024 by decide) (by decide)
  · rw [run_bind hmap, run_bind (run_modify _ _)] at hrun
    have := congrArg (fun x => match x with | .ok (b, _) => b | .error _ => true) hrun
    simp [run_pure] at this
  · rw [run_bind hmap, run_bind (run_modify _ _), run_pure] at hrun
    obtain ⟨-, rfl⟩ := Prod.mk.inj (Except.ok.inj hrun)
    obtain ⟨hvm', hframe⟩ := he.vm.writeUser hown (onlyPage_of_eqOutside
      (write_eqOutside t₂.mem p src) (h.aligned hfree) le_rfl (by unfold PGSIZE at hsrc; omega))
    refine ⟨own₂, T₂, ⟨hvm', he.frame.trans (hframe.mono fun _ _ => userPages_space)⟩, ?_, fun v hv => ?_⟩
    · exact hm.succ hu (mkPte_ne_zero he.vm hown _) hl
    · rw [hl, Function.update_of_ne]
      rintro rfl
      rcases hv with hv | hv
      · omega
      · exact absurd hv (by decide)

theorem setFirst_spec (hp : p % 4096 = 0) :
    ∃ m', setFirst p s = .ok ((), { s with mem := m' }) ∧ OnlyPage p s.mem m' :=
  ⟨_, rfl, (onlyPage_store hp (by decide)).trans (onlyPage_store hp (by decide))⟩

theorem userinit_spec (hk : KernOk L k own tabs (fun _ => 0) []) (hset : ∀ i, Settled (k.proc i))
    (hrun : userinit L k = .ok (true, k')) : Good L k' := by
  rw [userinit] at hrun
  obtain ⟨res, k₁, own₁, tabs₁, hal, hk₁, ⟨hsame, ⟨rfl, -⟩ | ⟨i, rfl, -, hfresh, hne⟩⟩, -⟩ :=
    allocproc_spec hk hset
  · rw [run_bind hal] at hrun
    cases hrun
  rw [run_bind hal] at hrun
  simp only [] at hrun
  rw [run_bind (run_modify _ _), run_bind (run_get _)] at hrun
  have hk₂ : KernOk L { k₁ with initproc := some i } own₁ tabs₁ (fun _ => 0) [] :=
    hk₁.congr_proc rfl (fun _ => ⟨rfl, rfl, rfl, rfl⟩) rfl rfl rfl
  obtain ⟨T, tf, hT, hs, htf⟩ := hk₂.spaces.shape i hfresh.pagetable
  have hm : Mapped T 0 := by
    have := hs.mapped
    rwa [hfresh.sz] at this
  obtain ⟨ok, k₃, hfirst, hrun⟩ := run_bind_eq_ok hrun
  obtain ⟨t, hmap, rfl⟩ := run_zoom_eq_ok hfirst
  rw [run_bind (run_setProc _ _ _)] at hrun
  have htf₀ := hfresh.trapframe
  have hal := hk₁.trapframe_aligned htf₀
  obtain ⟨m', hset', honly⟩ := setFirst_spec (s := t) hal
  rw [run_bind (run_vm hset'), run_bind (run_setProc _ _ _), run_pure] at hrun
  obtain ⟨rfl, rfl⟩ := Prod.mk.inj (Except.ok.inj hrun)
  obtain ⟨own₂, T₂, he, hm₂, hkeep⟩ := uvmfirst_spec hk₂.vm hT hm (by decide) hmap
  have hk₃ := hk₂.resize (i := i) hfresh.pagetable PGSIZE he.vm
    (Frame.sameKern he.frame fun _ _ => space_not_opaque) (hs.keeps hm₂ hkeep) htf
  have hk₄ := hk₃.writeTrapframe (i := i) (by simpa using htf₀) (by simpa using honly)
  refine ⟨⟨own₂, _, hk₄.setProc (i := i) (x := _) rfl rfl rfl rfl⟩, fun j => ?_⟩
  by_cases e : j = i
  · subst e
    simp only [Function.update_self]
    exact .inr ⟨.inl rfl, hfresh.pagetable, htf₀, fun hz => by cases hz⟩
  · simp only [Function.update_of_ne e, hne j e]
    exact hset j

def Booted (L : Image) (k : Kern) : Prop := ∃ m n, boot L n (start m) = .ok (true, k)

theorem good_boot (h : Booted L k) : Good L k := by
  obtain ⟨m, n, hrun⟩ := h
  rw [boot] at hrun
  obtain ⟨t, own, hinit, hk⟩ := kinit_spec L m
  rw [run_bind (run_vm hinit)] at hrun
  obtain ⟨_, k₁, htake, hrun⟩ := run_bind_eq_ok hrun
  obtain ⟨own₁, hk₁, hproc⟩ := takePages_spec hk htake
  refine userinit_spec hk₁ (fun i => ?_) hrun
  rw [hproc]
  exact .inl (unused_start m i)

/-! ## Runs -/

/-- The kernel has not panicked, unless the first process has exited. -/
structure Sound (L : Image) (s : Machine) : Prop where
  good : Good L s.kern
  panic : s.panic = none ∨ s.panic = some "init exiting"

theorem sound_step {s t : Machine} {e : Event} (h : Sound L s) (hs : step L s e = some t) :
    Sound L t := by
  unfold step at hs
  split_ifs at hs with hc
  simp only [not_or, not_not] at hc
  obtain hrun | ⟨res, k, hrun, hgood⟩ := syscall_spec h.good hc.2 e.call
  · rw [hrun] at hs
    cases hs
    exact ⟨h.good, .inr rfl⟩
  · rw [hrun] at hs
    cases hs
    exact ⟨hgood, .inl rfl⟩

/-- From boot the invariant holds after every sequence of calls. -/
theorem sound_run {s : Machine} {es : List Event} (hk : Booted L k)
    (hrun : run (step L) ⟨k, none⟩ es = some s) : Sound L s := by
  induction es using List.reverseRecOn generalizing s with
  | nil =>
    cases hrun
    exact ⟨good_boot hk, .inl rfl⟩
  | append_singleton es e ih =>
    obtain ⟨t, hrun, hs⟩ := run_concat_eq_some hrun
    exact sound_step (ih hrun) hs

/-! ## A small machine -/

/-- Seventeen pages, enough for two processes and little more. -/
def smallImage : Image where
  kernelEnd := PHYSTOP - 17 * PGSIZE
  base_le := by decide
  le_stop := by decide
  trampoline := KERNBASE
  trampoline_aligned := by decide
  trampoline_lt := by decide

/-- The run of a list of calls after a boot with one page for the kernel. -/
def smallRun (es : List Event) : Option Machine :=
  match boot smallImage 1 (start fun _ => 0) with
  | .ok (true, k) => run (step smallImage) ⟨k, none⟩ es
  | _ => none

theorem exists_of_smallRun (es : List Event) (P : Machine → Bool)
    (h : (smallRun es).any P = true) :
    ∃ k x, Booted smallImage k ∧ run (step smallImage) ⟨k, none⟩ es = some x ∧ P x = true := by
  obtain ⟨x, hx⟩ := Option.isSome_iff_exists.1 (Option.isSome_of_any h)
  rw [hx] at h
  unfold smallRun at hx
  split at hx
  case h_1 k hk => exact ⟨k, x, ⟨_, 1, hk⟩, hx, h⟩
  case h_2 => cases hx

end Xv6.Sys
