import Xv6.Sys.Pages

/-!
# The shape of user address spaces

What the hardware finds in the page table of a process: leaves for exactly the pages below the size,
the trapframe and the trampoline.  `sbrk` keeps the bytes below the smaller of the two sizes, and
everything when it fails.
-/

namespace Xv6.Sys

open Memory Kernel Kalloc Vm Runs

/-- A valid entry that maps a page. -/
def IsLeaf (w : ℕ) : Prop := w &&& PTE_V ≠ 0 ∧ w &&& (PTE_R ||| PTE_W ||| PTE_X) ≠ 0

/-- The page numbers that a process of size `sz` has mapped. -/
def InSpace (sz v : ℕ) : Prop :=
  v * PGSIZE < pgroundup sz ∨ v = TRAPFRAME / PGSIZE ∨ v = TRAMPOLINE / PGSIZE

structure UserSpace (k : Kern) (i : Slot) : Prop where
  leaf : ∀ v < 2 ^ 27, IsLeaf (leafAt k.phys.mem (k.proc i).pagetable v) ↔ InSpace (k.proc i).sz v
  /-- Entries above the last level map nothing. -/
  inner : ∀ path q a, path.length ≤ 1 → (∀ b ∈ path, b < 512) →
    tableAt k.phys.mem path (k.proc i).pagetable = some q → a < 512 →
    ¬ IsLeaf (load 8 k.phys.mem (q + 8 * a))
  trapframe : leafAt k.phys.mem (k.proc i).pagetable (TRAPFRAME / PGSIZE) &&& PTE_U = 0
  trampoline : leafAt k.phys.mem (k.proc i).pagetable (TRAMPOLINE / PGSIZE) &&& PTE_U = 0

/-- The byte of user memory at address `a`. -/
def userByte (k : Kern) (i : Slot) (a : ℕ) : BitVec 8 :=
  k.phys.mem (pte2pa (leafAt k.phys.mem (k.proc i).pagetable (a / PGSIZE)) + a % PGSIZE)

/-- The translations and the user memory of process `i` are the same. -/
structure SameSpace (k k' : Kern) (i : Slot) : Prop where
  proc : k'.proc i = k.proc i
  leaf : ∀ v < 2 ^ 27, leafAt k'.phys.mem (k'.proc i).pagetable v =
    leafAt k.phys.mem (k.proc i).pagetable v
  byte : ∀ a < pgroundup (k.proc i).sz, userByte k' i a = userByte k i a

variable {L : Image} {k k' : Kern} {s t u : Phys} {m m' : Mem} {own own' own'' : Owners}
  {tabs tabs' : ℕ → Option Tree} {hand hand' : FileId → ℤ} {held held' : List ℕ} {r p q tf sz v : ℕ}
  {T T' : Tree} {o : Owner} {i j : Slot}

/-! ## What a walk finds -/

theorem isLeaf_iff (ht : TableOk m own r T) : IsLeaf (T.leaf v) ↔ T.leaf v ≠ 0 := by
  constructor
  · rintro ⟨hV, -⟩ e
    exact hV (by rw [e]; rfl)
  · exact fun hne => ⟨(ht.leaf_ok v hne).valid, (ht.leaf_ok v hne).rwx⟩

theorem not_isLeaf_ptr (x : Option ℕ) : ¬ IsLeaf (ptr x) := fun h => h.2 (ptr_rwx x)

theorem Shape.leaf_ne_zero_iff (h : Shape L tf sz T) : T.leaf v ≠ 0 ↔ InSpace sz v := by
  rw [InSpace, mul_lt_pgroundup_iff h.mapped]
  have hle := h.mapped.le
  by_cases hv : v < UTOP
  · have h₁ : v ≠ TRAPFRAME / PGSIZE := fun e => absurd (e ▸ hv) (by decide)
    have h₂ : v ≠ TRAMPOLINE / PGSIZE := fun e => absurd (e ▸ hv) (by decide)
    simp [h.mapped.leaf v hv, h₁, h₂]
  by_cases h₁ : v = TRAPFRAME / PGSIZE
  · have : T.leaf v ≠ 0 := fun e =>
      absurd (Nat.or_eq_zero_iff.1 (h.trapframe.symm.trans (h₁ ▸ e))).2 (by decide)
    exact iff_of_true this (.inr (.inl h₁))
  by_cases h₂ : v = TRAMPOLINE / PGSIZE
  · have : T.leaf v ≠ 0 := fun e =>
      absurd (Nat.or_eq_zero_iff.1 (h.trampoline.symm.trans (h₂ ▸ e))).2 (by decide)
    exact iff_of_true this (.inr (.inr h₂))
  · have := h.rest v (by omega) h₁ h₂
    simp only [this, ne_eq, not_true_eq_false, h₁, h₂, or_false, false_iff, not_lt]
    omega

theorem userSpace (hk : KernOk L k own tabs hand held) (hset : ∀ j, Settled (k.proc j))
    (hs : (k.proc i).state ≠ .unused) : UserSpace k i := by
  have hal : ∀ x a, own x = some a → x % 4096 = 0 := fun x a hx => hk.vm.aligned hx
  obtain ⟨T, ht, hsh⟩ := hk.tableOk hset hs
  refine ⟨fun v hv => ?_, fun path q a hlen hpath hq ha => ?_, ?_, ?_⟩
  · rw [leafAt_eq ht hal hv, isLeaf_iff ht, hsh.leaf_ne_zero_iff]
  · match path with
    | [] =>
      obtain rfl := Option.some.inj hq
      rw [ht.root_entry a ha]
      exact not_isLeaf_ptr _
    | [b] =>
      rw [tableAt_mid ht hal (hpath b (by simp))] at hq
      obtain ⟨p, hp, e⟩ := Option.bind_eq_some_iff.1 hq
      obtain rfl := Option.some.inj e
      rw [ht.mid_entry b p hp a ha]
      exact not_isLeaf_ptr _
    | _ :: _ :: _ => simp at hlen
  · rw [leafAt_eq ht hal (by decide)]
    exact hsh.not_user _ (by decide)
  · rw [leafAt_eq ht hal (by decide)]
    exact hsh.not_user _ (by decide)

/-! ## Growing and shrinking -/

/-- A user page that the frame keeps holds the same bytes. -/
theorem Frame.user_byte {C : ℕ → Owner → Prop} (h : Frame C s own t own') (ht : TableOk s.mem own r T)
    (hv : v < UTOP) (hne : T.leaf v ≠ 0) (hC : ¬ C (pte2pa (T.leaf v)) (.user r v)) {a : ℕ}
    (ha : a < 4096) : t.mem (pte2pa (T.leaf v) + a) = s.mem (pte2pa (T.leaf v) + a) :=
  (h.keep _ _ hC ((ht.leaf_ok v hne).owner hv)).2 _ (by omega) (by omega)

theorem div_lt_npages {a : ℕ} (h : a < sz) : a / PGSIZE < npages sz := by
  unfold npages PGSIZE
  omega

theorem KernOk.leafAt (hk : KernOk L k own tabs hand held) (hT : tabs r = some T) (hv : v < 2 ^ 27) :
    leafAt k.phys.mem r v = T.leaf v :=
  leafAt_eq (hk.vm.table r T hT) (fun _ _ hx => hk.vm.aligned hx) hv

/-- Bytes of a process on pages that the frame keeps and whose entries are the same. -/
theorem userByte_eq (hk : KernOk L k own tabs hand held) (hk' : KernOk L k' own' tabs' hand held)
    {C : ℕ → Owner → Prop} (hf : Frame C k.phys own k'.phys own')
    (hpt : (k'.proc j).pagetable = (k.proc j).pagetable)
    (hT : tabs (k.proc j).pagetable = some T) (hT' : tabs' (k.proc j).pagetable = some T') {a : ℕ}
    (ha : a / PGSIZE < UTOP) (hne : T.leaf (a / PGSIZE) ≠ 0)
    (hsame : T'.leaf (a / PGSIZE) = T.leaf (a / PGSIZE))
    (hC : ∀ x, ¬ C x (.user (k.proc j).pagetable (a / PGSIZE))) :
    userByte k' j a = userByte k j a := by
  have hbig : a / PGSIZE < 2 ^ 27 := ha.trans (by decide)
  rw [userByte, userByte, hpt, hk.leafAt hT hbig, hk'.leafAt hT' hbig, hsame]
  exact Frame.user_byte hf (hk.vm.table _ T hT) ha hne (hC _) (Nat.mod_lt _ (by decide))

theorem not_space_of_lt {n x : ℕ} (h : v < n) : ¬ Space r n x (.user r v) := by
  rintro (e | ⟨-, e⟩ | ⟨w, hw, e⟩)
  · cases e
  · exact e v rfl
  · cases e
    omega

theorem not_space_of_ne {n x : ℕ} (h : q ≠ r) : ¬ Space r n x (.user q v) := by
  rintro (e | ⟨e, -⟩ | ⟨w, -, e⟩)
  · cases e
  · exact h (Option.some.inj e)
  · cases e
    exact h rfl

/-- The bytes below both sizes survive `growproc`. -/
theorem growproc_bytes (hk : KernOk L k own tabs hand held)
    (hT : tabs (k.proc i).pagetable = some T) (hs : Shape L tf (k.proc i).sz T)
    (hk' : KernOk L { k with
      phys := t
      proc := Function.update k.proc i { k.proc i with sz := sz } } own'
      (Function.update tabs (k.proc i).pagetable (some T')) hand held)
    (hf : Frame (Space (k.proc i).pagetable (npages (min (k.proc i).sz sz))) k.phys own t own')
    (hkeep : Keeps (npages (min (k.proc i).sz sz)) T T') {a : ℕ}
    (ha : a / PGSIZE < npages (min (k.proc i).sz sz)) :
    userByte { k with
      phys := t
      proc := Function.update k.proc i { k.proc i with sz := sz } } i a = userByte k i a := by
  have hn : a / PGSIZE < npages (k.proc i).sz := ha.trans_le (npages_mono (Nat.min_le_left _ _))
  have hu := hn.trans_le hs.mapped.le
  exact userByte_eq hk hk' hf (by simp) hT (Function.update_self _ _ _) hu
    ((hs.mapped.leaf _ hu).2 hn) (hkeep _ (.inl ha)) fun x => not_space_of_lt ha

theorem KernOk.leafAt_ne_zero_iff (hk : KernOk L k own tabs hand held)
    (hset : ∀ j, Settled (k.proc j)) (hs : (k.proc i).state ≠ .unused) (hv : v < 2 ^ 27) :
    Sys.leafAt k.phys.mem (k.proc i).pagetable v ≠ 0 ↔ InSpace (k.proc i).sz v := by
  obtain ⟨T, ht, hsh⟩ := hk.tableOk hset hs
  rw [leafAt_eq ht (fun _ _ hx => hk.vm.aligned hx) hv, hsh.leaf_ne_zero_iff]

/-- When the size does not change, neither does any address space. -/
theorem sameSpace_of_growproc (hk : KernOk L k own tabs hand held)
    (hset : ∀ j, Settled (k.proc j)) (hT : tabs (k.proc i).pagetable = some T)
    (hk' : KernOk L { k with phys := t } own'
      (Function.update tabs (k.proc i).pagetable (some T')) hand held)
    (hf : Frame (Space (k.proc i).pagetable (npages (k.proc i).sz)) k.phys own t own')
    (hkeep : Keeps (npages (k.proc i).sz) T T') (hj : (k.proc j).state ≠ .unused) :
    SameSpace k { k with phys := t } j := by
  have hlive := (hset j).live hj
  obtain ⟨Tj, tf, hTj, hs, -⟩ := hk.spaces.shape j hlive.pagetable
  have hin {a : ℕ} (ha : a < pgroundup (k.proc j).sz) : a / PGSIZE < npages (k.proc j).sz := by
    rw [← mul_lt_pgroundup_iff hs.mapped]
    exact (Nat.div_mul_le_self a PGSIZE).trans_lt ha
  by_cases e : (k.proc j).pagetable = (k.proc i).pagetable
  · obtain rfl : j = i := hk.spaces.inj j i e hlive.pagetable
    obtain rfl : T = Tj := Option.some.inj (hT.symm.trans hTj)
    refine ⟨rfl, fun v hv => ?_, fun a ha => ?_⟩
    · by_cases hc : v < npages (k.proc j).sz ∨ UTOP ≤ v
      · rw [hk.leafAt hT hv, hk'.leafAt (Function.update_self _ _ _) hv, hkeep v hc]
      · have h₁ := hk.leafAt_ne_zero_iff hset hj hv
        have h₂ := hk'.leafAt_ne_zero_iff hset hj hv
        have h₀ : ¬ InSpace (k.proc j).sz v := by
          rw [← hs.leaf_ne_zero_iff, hs.mapped.leaf v (by omega)]
          omega
        exact (not_not.1 fun h => h₀ (h₂.1 h)).trans (not_not.1 fun h => h₀ (h₁.1 h)).symm
    · have hn := hin ha
      have hu := hn.trans_le hs.mapped.le
      exact userByte_eq hk hk' hf rfl hT (Function.update_self _ _ _) hu
        ((hs.mapped.leaf _ hu).2 hn) (hkeep _ (.inl hn)) fun x => not_space_of_lt hn
  · have hTj' : Function.update tabs (k.proc i).pagetable (some T') (k.proc j).pagetable = some Tj := by
      rw [Function.update_of_ne e, hTj]
    refine ⟨rfl, fun v hv => by rw [hk.leafAt hTj hv, hk'.leafAt hTj' hv], fun a ha => ?_⟩
    have hn := hin ha
    have hu := hn.trans_le hs.mapped.le
    exact userByte_eq hk hk' hf rfl hTj hTj' hu ((hs.mapped.leaf _ hu).2 hn) rfl
      fun x => not_space_of_ne e

/-! ## What a frame keeps -/

/-- A process whose pages are outside the frame. -/
theorem sameSpace_of_frame (hk : KernOk L k own tabs hand held) (hk' : KernOk L k' own' tabs' hand held)
    {C : ℕ → Owner → Prop} (hf : Frame C k.phys own k'.phys own') (hproc : k'.proc j = k.proc j)
    (hpt : (k.proc j).pagetable ≠ 0) (htabs : tabs' (k.proc j).pagetable = tabs (k.proc j).pagetable)
    (hC : ∀ x v, ¬ C x (.user (k.proc j).pagetable v)) : SameSpace k k' j := by
  obtain ⟨T, tf, hT, hs, -⟩ := hk.spaces.shape j hpt
  have hT' := htabs.trans hT
  refine ⟨hproc, fun v hv => by rw [hproc, hk.leafAt hT hv, hk'.leafAt hT' hv], fun a ha => ?_⟩
  have hn : a / PGSIZE < npages (k.proc j).sz := by
    rw [← mul_lt_pgroundup_iff hs.mapped]
    exact (Nat.div_mul_le_self a PGSIZE).trans_lt ha
  have hlt := hn.trans_le hs.mapped.le
  exact userByte_eq hk hk' hf (by rw [hproc]) hT hT' hlt ((hs.mapped.leaf _ hlt).2 hn) rfl
    fun x => hC x _

theorem trapframe_byte_of_frame (hk : KernOk L k own tabs hand held) {C : ℕ → Owner → Prop}
    (hf : Frame C k.phys own k'.phys own') (htf : (k.proc j).trapframe ≠ 0)
    (hC : ∀ x, ¬ C x (.trapframe j.val)) {a : ℕ} (ha : a < PGSIZE) :
    k'.phys.mem ((k.proc j).trapframe + a) = k.phys.mem ((k.proc j).trapframe + a) := by
  have hown := (hk.roles.trapframe _ _).2 ⟨htf, j, rfl, rfl⟩
  exact (hf.keep _ _ (hC _) hown).2 _ (by omega) (by unfold PGSIZE at ha; omega)

/-- When only free pages change, the same pages are free. -/
theorem free_iff_of_frame (hk : KernOk L k own tabs hand held) (hk' : KernOk L k' own' tabs' hand held)
    (hf : Frame FreePages k.phys own k'.phys own') (p : ℕ) : Plays k' p .free ↔ Plays k p .free := by
  rw [plays_free_iff hk'.vm.free, plays_free_iff hk.vm.free]
  have hiff {o : Owner} (ho : o ≠ .free) : own' p = some o ↔ own p = some o :=
    ⟨hf.back p o ho, fun h => (hf.keep p o ho h).1⟩
  have hsome : (own' p).isSome ↔ (own p).isSome := (hk'.vm.pages p).trans (hk.vm.pages p).symm
  cases h : own p with
  | none =>
    rw [h, Option.isSome_none, Bool.false_eq_true, iff_false, Bool.not_eq_true, Option.isSome_eq_false_iff,
      Option.isNone_iff_eq_none] at hsome
    rw [hsome]
  | some o =>
    cases h' : own' p with
    | none => simp [h, h'] at hsome
    | some o' =>
      simp only [Option.some.injEq]
      by_cases ho : o = .free
      · refine iff_of_true (not_not.1 fun ho' => ho' ?_) ho
        rw [(hiff ho').1 h'] at h
        exact (Option.some.inj h).trans ho
      · rw [(hiff ho).2 h] at h'
        rw [Option.some.inj h']

/-- `sbrk` fails and changes no address space, or returns the old size and keeps the bytes below both
sizes. -/
theorem sysSbrk_bytes (h : Good L k) (hi : (k.proc i).state = .runnable) (n : ℤ) :
    ∃ res k', sysSbrk L i n k = .ok (res, k') ∧
      (res = -1 ∧ (∀ j, (k.proc j).state ≠ .unused → SameSpace k k' j) ∨
        res = (k.proc i).sz ∧
          ∀ a < min (k.proc i).sz (k'.proc i).sz, userByte k' i a = userByte k i a) := by
  obtain ⟨⟨own, tabs, hk⟩, hset⟩ := h
  have hpt := (hset i).pagetable_ne hi
  obtain ⟨T, tf, hT, hs, htf⟩ := hk.spaces.shape i hpt
  obtain ⟨res, t, own', T', sz, hrun, hres, hk', hf, hkeep⟩ := growproc_spec hk hpt hT hs htf n
  rw [sysSbrk, run_bind (run_get k), run_bind hrun]
  obtain ⟨rfl, rfl⟩ | rfl := hres
  · rw [Nat.min_self] at hf hkeep
    have hsame : Function.update k.proc i { k.proc i with sz := (k.proc i).sz } = k.proc :=
      Function.update_eq_self _ _
    rw [hsame] at hk' ⊢
    exact ⟨-1, _, rfl, .inl ⟨rfl, fun j => sameSpace_of_growproc hk hset hT hk' hf hkeep⟩⟩
  · refine ⟨_, _, rfl, .inr ⟨rfl, fun a ha => growproc_bytes hk hT hs hk' hf hkeep ?_⟩⟩
    simp only [Function.update_self] at ha
    exact div_lt_npages ha

/-- In every state that calls reach from boot, the page table of every process maps exactly the pages
below its size, the trapframe and the trampoline; no call panics but the exit of the first process;
and the next `sbrk` changes user memory only from the smaller size on, and nothing when it fails. -/
theorem user_space_shape {es : List Event} {x : Machine} (hk : Booted L k)
    (hrun : run (step L) ⟨k, none⟩ es = some x) :
    (∀ i, (x.kern.proc i).state ≠ .unused → UserSpace x.kern i) ∧
      (x.panic = none ∨ x.panic = some "init exiting") ∧
      ∀ i (n : BitVec 32), (x.kern.proc i).state = .runnable →
        ∃ res k', syscall L i (.sbrk n) x.kern = .ok (some res, k') ∧
          (res = -1 ∧ (∀ j, (x.kern.proc j).state ≠ .unused → SameSpace x.kern k' j) ∨
            res = (x.kern.proc i).sz ∧ ∀ a < min (x.kern.proc i).sz (k'.proc i).sz,
              userByte k' i a = userByte x.kern i a) := by
  have hsound := sound_run hk hrun
  obtain ⟨⟨own, tabs, hok⟩, hset⟩ := hsound.good
  refine ⟨fun i => userSpace hok hset, hsound.panic, fun i n hi => ?_⟩
  obtain ⟨res, k', hsbrk, h⟩ := sysSbrk_bytes hsound.good hi n.toInt
  refine ⟨res, k', ?_, h⟩
  rw [syscall, map_eq_pure_bind, run_bind hsbrk]
  rfl

/-- A process shrinks below a page boundary, and its child grows until memory runs out. -/
theorem user_space_shape_sbrk : ∃ k x, Booted smallImage k ∧
    run (step smallImage) ⟨k, none⟩ [⟨⟨0, by decide⟩, .fork⟩, ⟨⟨0, by decide⟩, .sbrk (-96)⟩,
      ⟨⟨1, by decide⟩, .sbrk 65536⟩] = some x ∧
    ((x.kern.proc ⟨0, by decide⟩).sz == 4000 && (x.kern.proc ⟨1, by decide⟩).sz == 4096) = true ∧
    ∀ i, (x.kern.proc i).state ≠ .unused → UserSpace x.kern i := by
  obtain ⟨k, x, hk, hrun, hsz⟩ := exists_of_smallRun
    [⟨⟨0, by decide⟩, .fork⟩, ⟨⟨0, by decide⟩, .sbrk (-96)⟩, ⟨⟨1, by decide⟩, .sbrk 65536⟩]
    (fun x => (x.kern.proc ⟨0, by decide⟩).sz == 4000 && (x.kern.proc ⟨1, by decide⟩).sz == 4096)
    (by decide +kernel)
  exact ⟨k, x, hk, hrun, hsz, (user_space_shape hk hrun).1⟩

end Xv6.Sys
