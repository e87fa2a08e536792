import Xv6.Lib.Chain
import Xv6.Kalloc.Code

/-!
# Interleavings of `kalloc` and `kfree`

`kfree` takes no lock, so a page can be lost when another CPU changes `kmem.freelist` between its two
steps (`kfree_race`).  When the list head is still the one `kfree` read at the time it stores the new
one, the pages stay partitioned into listed, held and half-freed ones (`Partition`), and every state
of the run is `Safe`.
-/

namespace Xv6.Kalloc

open LinkedList Runs

variable (L : Layout)

/-! ## Pages -/

theorem mem_pages {p : ℕ} : p ∈ L.pages ↔ ∃ i < L.total, p = L.firstPage + PGSIZE * i := by
  simp only [Layout.pages, List.mem_map, List.mem_range]
  exact ⟨fun ⟨i, hi, h⟩ => ⟨i, hi, h.symm⟩, fun ⟨i, hi, h⟩ => ⟨i, hi, h.symm⟩⟩

theorem firstPage_ge : L.kernelEnd ≤ L.firstPage := by
  unfold Layout.firstPage pgRoundUp PGSIZE
  omega

theorem nodup_pages : L.pages.Nodup := by
  refine List.Nodup.map (fun i j h => ?_) List.nodup_range
  simpa [PGSIZE] using h

theorem length_pages : L.pages.length = L.total := by
  simp [Layout.pages]

theorem kfreePanics_eq_false {p : ℕ} (hp : p ∈ L.pages) : kfreePanics L p = false := by
  obtain ⟨i, hi, rfl⟩ := (mem_pages L).1 hp
  have hbase := L.base_le
  have hfirst := firstPage_ge L
  have hstop : L.firstPage + PGSIZE * (i + 1) ≤ PHYSTOP := by
    have h := Nat.mul_div_le (PHYSTOP - L.firstPage) PGSIZE
    have h' : PGSIZE * (i + 1) ≤ PGSIZE * ((PHYSTOP - L.firstPage) / PGSIZE) :=
      Nat.mul_le_mul_left _ hi
    have : 0 < PGSIZE * (i + 1) := by simp [PGSIZE]
    omega
  have hmod : L.firstPage % PGSIZE = 0 := by
    simp [Layout.firstPage, pgRoundUp]
  simp only [kfreePanics, Bool.or_eq_false_iff, bne_eq_false_iff_eq, decide_eq_false_iff_not,
    not_lt, not_le, ge_iff_le]
  unfold PGSIZE at *
  omega

theorem ne_zero_of_mem_pages {p : ℕ} (hp : p ∈ L.pages) : p ≠ 0 := by
  obtain ⟨i, -, rfl⟩ := (mem_pages L).1 hp
  have hfirst := firstPage_ge L
  have hbase := L.base_le
  unfold KERNBASE at hbase
  omega

/-! ## The partition of the pages -/

/-- `l` is the free list, and every page is exactly one of listed, held by a caller, or half-freed by
one CPU. -/
structure Partition (s : State) (l : List ℕ) : Prop where
  running : s.panicked = false
  chain : Chain s.next 0 s.freelist l
  list_sub : ∀ p ∈ l, p ∈ L.pages
  held_sub : ∀ p ∈ s.held, p ∈ L.pages
  freeing_sub : ∀ c p, s.freeing c = some p → p ∈ L.pages
  held_nodup : s.held.Nodup
  list_held : ∀ p ∈ l, p ∉ s.held
  freeing_list : ∀ c p, s.freeing c = some p → p ∉ l
  freeing_held : ∀ c p, s.freeing c = some p → p ∉ s.held
  freeing_inj : ∀ c c' p, s.freeing c = some p → s.freeing c' = some p → c = c'
  cover : ∀ p ∈ L.pages, p ∈ l ∨ p ∈ s.held ∨ ∃ c, s.freeing c = some p

/-- What is promised in every state of a run. -/
structure Safe (s : State) : Prop where
  running : s.panicked = false
  /-- No two callers hold one page. -/
  held_nodup : s.held.Nodup
  /-- The page that `kalloc` would return now is held by nobody. -/
  fresh : (kalloc s).2 ≠ 0 → (kalloc s).2 ∉ s.held
  /-- The free list ends, contains no page twice and no held page. -/
  list : ∃ l, Chain s.next 0 s.freelist l ∧ l.Nodup ∧ ∀ p ∈ l, p ∉ s.held
  /-- Between calls no page is lost. -/
  complete : Quiet s → ∀ p ∈ L.pages, p ∈ s.held ∨ ∃ l, Chain s.next 0 s.freelist l ∧ p ∈ l
  /-- Between calls `countpages` terminates and returns the number of pages not held. -/
  count : Quiet s → ∃ fuel, countpages fuel s = some (L.total - s.held.length)

variable {s : State} {l : List ℕ}

theorem countLoop_of_chain {next : ℕ → ℕ} {a : ℕ} (h : Chain next 0 a l) (count : ℕ) :
    countLoop next (l.length + 1) a count = some (count + l.length) := by
  induction l generalizing a count with
  | nil =>
    obtain rfl : a = 0 := h
    rfl
  | cons p l ih =>
    obtain ⟨rfl, hp, h⟩ := h
    rw [List.length_cons, countLoop, if_neg hp, ih h, Nat.add_right_comm, Nat.add_assoc]

theorem Partition.length_add_length (h : Partition L s l) (hq : Quiet s) :
    l.length + s.held.length = L.total := by
  have hperm : (l ++ s.held).Perm L.pages := by
    refine (List.perm_ext_iff_of_nodup ?_ (nodup_pages L)).2 fun p => ?_
    · exact List.Nodup.append h.chain.nodup h.held_nodup fun p hp => h.list_held p hp
    · rw [List.mem_append]
      constructor
      · rintro (hp | hp)
        · exact h.list_sub p hp
        · exact h.held_sub p hp
      · intro hp
        rcases h.cover p hp with hp | hp | ⟨c, hc⟩
        · exact Or.inl hp
        · exact Or.inr hp
        · rw [hq c] at hc
          cases hc
  rw [← List.length_append, hperm.length_eq, length_pages]

theorem Partition.safe (h : Partition L s l) : Safe L s where
  running := h.running
  held_nodup := h.held_nodup
  fresh := by
    simp only [kalloc]
    split_ifs with h0
    · exact fun hne => absurd rfl hne
    · intro _
      obtain ⟨l', rfl, -⟩ := h.chain.exists_cons h0
      exact h.list_held _ (by simp)
  list := ⟨l, h.chain, h.chain.nodup, h.list_held⟩
  complete := by
    intro hq p hp
    rcases h.cover p hp with hp | hp | ⟨c, hc⟩
    · exact Or.inr ⟨l, h.chain, hp⟩
    · exact Or.inl hp
    · rw [hq c] at hc
      cases hc
  count := by
    intro hq
    refine ⟨l.length + 1, ?_⟩
    rw [countpages, countLoop_of_chain h.chain, ← h.length_add_length L hq]
    simp

/-! ## Steps -/

theorem partition_kalloc (h : Partition L s l) :
    ∃ l', Partition L (kalloc s).1 l' := by
  simp only [kalloc]
  split_ifs with h0
  · exact ⟨l, h⟩
  · obtain ⟨l', rfl, hchain⟩ := h.chain.exists_cons h0
    have hnodup := List.nodup_cons.1 h.chain.nodup
    have hfresh : s.freelist ∉ s.held := h.list_held _ (by simp)
    refine ⟨l', h.running, hchain, fun p hp => h.list_sub p (by simp [hp]), ?_, h.freeing_sub,
      List.nodup_cons.2 ⟨hfresh, h.held_nodup⟩, ?_, ?_, ?_, h.freeing_inj, ?_⟩
    · intro p hp
      rcases List.mem_cons.1 hp with rfl | hp
      · exact h.list_sub _ (by simp)
      · exact h.held_sub p hp
    · intro p hp hmem
      rcases List.mem_cons.1 hmem with rfl | hmem
      · exact hnodup.1 hp
      · exact h.list_held p (by simp [hp]) hmem
    · exact fun c p hc hp => h.freeing_list c p hc (by simp [hp])
    · intro c p hc hmem
      rcases List.mem_cons.1 hmem with rfl | hmem
      · exact h.freeing_list c _ hc (by simp)
      · exact h.freeing_held c p hc hmem
    · intro p hp
      rcases h.cover p hp with hp | hp | hc
      · rcases List.mem_cons.1 hp with rfl | hp
        · exact Or.inr (Or.inl (by simp))
        · exact Or.inl hp
      · exact Or.inr (Or.inl (by simp [hp]))
      · exact Or.inr (Or.inr hc)

theorem partition_write (h : Partition L s l) {pa : ℕ} (hpa : pa ∈ s.held)
    (v : ℕ) : Partition L { s with next := Function.update s.next pa v } l :=
  { h with
    chain := h.chain.congr fun p hp =>
      Function.update_of_ne (fun e => h.list_held p hp (by rwa [e])) _ _ }

theorem partition_kfreeRead (h : Partition L s l) {c pa : ℕ}
    (hc : s.freeing c = none) (hpa : pa ∈ s.held) : Partition L (kfreeRead L c pa s) l := by
  have hpage := h.held_sub pa hpa
  have hlist : pa ∉ l := fun hp => h.list_held pa hp hpa
  have hfree (c' p : ℕ) (hp : Function.update s.freeing c (some pa) c' = some p) :
      (c' = c ∧ p = pa) ∨ (c' ≠ c ∧ s.freeing c' = some p) := by
    by_cases e : c' = c
    · subst e
      rw [Function.update_self, Option.some.injEq] at hp
      exact Or.inl ⟨rfl, hp.symm⟩
    · rw [Function.update_of_ne e] at hp
      exact Or.inr ⟨e, hp⟩
  have herase {p : ℕ} (hp : p ∈ s.held.erase pa) : p ≠ pa ∧ p ∈ s.held :=
    (List.Nodup.mem_erase_iff h.held_nodup).1 hp
  unfold kfreeRead
  rw [if_neg (by simp [kfreePanics_eq_false L hpage])]
  refine ⟨h.running, h.chain.congr fun p hp => ?_, h.list_sub, fun p hp => h.held_sub p (herase hp).2,
    ?_, h.held_nodup.erase _, fun p hp hmem => h.list_held p hp (herase hmem).2, ?_, ?_, ?_, ?_⟩
  · exact Function.update_of_ne (fun e => hlist (by rwa [e] at hp)) _ _
  · intro c' p hp
    rcases hfree c' p hp with ⟨-, rfl⟩ | ⟨-, hp⟩
    · exact hpage
    · exact h.freeing_sub c' p hp
  · intro c' p hp
    rcases hfree c' p hp with ⟨-, rfl⟩ | ⟨-, hp⟩
    · exact hlist
    · exact h.freeing_list c' p hp
  · intro c' p hp hmem
    rcases hfree c' p hp with ⟨-, rfl⟩ | ⟨-, hp⟩
    · exact (herase hmem).1 rfl
    · exact h.freeing_held c' p hp (herase hmem).2
  · intro c₁ c₂ p h₁ h₂
    rcases hfree c₁ p h₁ with ⟨rfl, rfl⟩ | ⟨-, g₁⟩ <;> rcases hfree c₂ p h₂ with ⟨rfl, e⟩ | ⟨-, g₂⟩
    · rfl
    · exact absurd hpa (h.freeing_held c₂ p g₂)
    · exact absurd hpa (by rw [← e]; exact h.freeing_held c₁ p g₁)
    · exact h.freeing_inj c₁ c₂ p g₁ g₂
  · intro p hp
    rcases h.cover p hp with hp | hp | ⟨c', hc'⟩
    · exact Or.inl hp
    · by_cases e : p = pa
      · exact Or.inr (Or.inr ⟨c, by rw [e]; exact Function.update_self _ _ _⟩)
      · exact Or.inr (Or.inl ((List.Nodup.mem_erase_iff h.held_nodup).2 ⟨e, hp⟩))
    · have hne : c' ≠ c := by
        rintro rfl
        rw [hc] at hc'
        cases hc'
      exact Or.inr (Or.inr ⟨c', (Function.update_of_ne hne _ _).trans hc'⟩)

/-- The store of the list head is harmless when the head is still the one that was read. -/
theorem partition_kfreeWrite (h : Partition L s l) {c r : ℕ}
    (hc : s.freeing c = some r) (hhead : s.freelist = s.next r) :
    Partition L (kfreeWrite c r s) (r :: l) := by
  have hpage := h.freeing_sub c r hc
  have hfree {c' p : ℕ} (hp : Function.update s.freeing c none c' = some p) :
      c' ≠ c ∧ s.freeing c' = some p := by
    by_cases e : c' = c
    · rw [e, Function.update_self] at hp
      cases hp
    · rw [Function.update_of_ne e] at hp
      exact ⟨e, hp⟩
  refine ⟨h.running, ⟨rfl, ne_zero_of_mem_pages L hpage, hhead ▸ h.chain⟩, ?_, h.held_sub,
    fun c' p hp => h.freeing_sub c' p (hfree hp).2, h.held_nodup, ?_, ?_,
    fun c' p hp => h.freeing_held c' p (hfree hp).2,
    fun c₁ c₂ p h₁ h₂ => h.freeing_inj c₁ c₂ p (hfree h₁).2 (hfree h₂).2, ?_⟩
  · intro p hp
    rcases List.mem_cons.1 hp with rfl | hp
    · exact hpage
    · exact h.list_sub p hp
  · intro p hp
    rcases List.mem_cons.1 hp with rfl | hp
    · exact h.freeing_held c p hc
    · exact h.list_held p hp
  · intro c' p hp hmem
    rcases List.mem_cons.1 hmem with rfl | hmem
    · exact (hfree hp).1 (h.freeing_inj c' c p (hfree hp).2 hc)
    · exact h.freeing_list c' p (hfree hp).2 hmem
  · intro p hp
    rcases h.cover p hp with hp | hp | ⟨c', hc'⟩
    · exact Or.inl (by simp [hp])
    · exact Or.inr (Or.inl hp)
    · by_cases e : c' = c
      · rw [e, hc, Option.some.injEq] at hc'
        exact Or.inl (by simp [hc'])
      · exact Or.inr (Or.inr ⟨c', (Function.update_of_ne e _ _).trans hc'⟩)

/-! ## Boot -/

/-- A state of the boot CPU's `freerange`: the pages of `l` are listed and nothing else has happened. -/
structure Booting (s : State) (l : List ℕ) : Prop where
  running : s.panicked = false
  chain : Chain s.next 0 s.freelist l
  held : s.held = []
  quiet : ∀ c, s.freeing c = none

theorem booting_kfree (h : Booting s l) {p : ℕ} (hp : p ∈ L.pages)
    (hl : p ∉ l) : Booting (kfree L 0 p s) (p :: l) := by
  have hread : kfreeRead L 0 p s =
      { s with
        next := Function.update s.next p s.freelist
        held := s.held.erase p
        freeing := Function.update s.freeing 0 (some p) } :=
    if_neg (by simp [kfreePanics_eq_false L hp])
  have hkfree : kfree L 0 p s = kfreeWrite 0 p (kfreeRead L 0 p s) := by
    unfold kfree
    rw [if_neg (by simp [hread, h.running])]
  rw [hkfree, hread]
  refine ⟨h.running, ⟨rfl, ne_zero_of_mem_pages L hp, ?_⟩, ?_, fun c => ?_⟩
  · show Chain (Function.update s.next p s.freelist) 0 (Function.update s.next p s.freelist p) l
    rw [Function.update_self]
    refine h.chain.congr fun q hq => Function.update_of_ne (fun e => hl ?_) _ _
    rwa [e] at hq
  · simp [kfreeWrite, h.held]
  · by_cases e : c = 0
    · simp [kfreeWrite, e]
    · simp [kfreeWrite, e, h.quiet c]

theorem booting_foldl {l ps : List ℕ} (h : Booting s l) (hps : ∀ p ∈ ps, p ∈ L.pages)
    (hnodup : (ps.reverse ++ l).Nodup) :
    Booting (ps.foldl (fun s p => kfree L 0 p s) s) (ps.reverse ++ l) := by
  induction ps generalizing s l with
  | nil => exact h
  | cons p ps ih =>
    rw [List.reverse_cons, List.append_assoc] at hnodup ⊢
    have hl : p ∉ l := (List.nodup_cons.1 (List.Nodup.of_append_right hnodup)).1
    exact ih (booting_kfree L h (hps p (by simp)) hl) (fun q hq => hps q (by simp [hq])) hnodup

/-- After `kinit` every page is on the free list, the highest first. -/
theorem booting_kinit (words : ℕ → ℕ) : Booting (kinit L words) L.pages.reverse := by
  have start : Booting ⟨0, words, [], fun _ => none, false⟩ [] := ⟨rfl, rfl, rfl, fun _ => rfl⟩
  have h := booting_foldl L start (fun _ hp => hp) (by simpa using nodup_pages L)
  rwa [List.append_nil] at h

theorem partition_kinit (words : ℕ → ℕ) : Partition L (kinit L words) L.pages.reverse := by
  have h := booting_kinit L words
  refine ⟨h.running, h.chain, fun p hp => List.mem_reverse.1 hp, ?_, ?_, ?_, ?_, ?_, ?_, ?_, ?_⟩
  · simp [h.held]
  · simp [h.quiet]
  · simp [h.held]
  · simp [h.held]
  · simp [h.quiet]
  · simp [h.quiet]
  · simp [h.quiet]
  · exact fun p hp => Or.inl (List.mem_reverse.2 hp)

/-! ## Runs -/

/-- The list head has not changed since the `kfree` that is now storing it read it. -/
def HeadUnchanged (s : State) : Event → Prop
  | .kfreeWrite c => ∀ r, s.freeing c = some r → s.freelist = s.next r
  | _ => True

theorem partition_step {s t : State} {e : Event} (h : ∃ l, Partition L s l)
    (hok : HeadUnchanged s e) (hstep : step L s e = some t) : ∃ l, Partition L t l := by
  obtain ⟨l, h⟩ := h
  unfold step at hstep
  rw [if_neg (by simp [h.running])] at hstep
  cases e with
  | kalloc c =>
    simp only [Option.ite_none_right_eq_some, Option.some.injEq] at hstep
    obtain ⟨-, rfl⟩ := hstep
    exact partition_kalloc L h
  | kfreeRead c pa =>
    simp only [Option.ite_none_right_eq_some, Option.some.injEq] at hstep
    obtain ⟨⟨hc, hpa⟩, rfl⟩ := hstep
    exact ⟨l, partition_kfreeRead L h hc hpa⟩
  | kfreeWrite c =>
    simp only [Option.map_eq_some_iff] at hstep
    obtain ⟨r, hr, rfl⟩ := hstep
    exact ⟨r :: l, partition_kfreeWrite L h hr (hok r hr)⟩
  | write pa v =>
    simp only [Option.ite_none_right_eq_some, Option.some.injEq] at hstep
    obtain ⟨hpa, rfl⟩ := hstep
    exact ⟨l, partition_write L h hpa v⟩

/-- In every run in which no other CPU has changed the list head between the two steps of a `kfree`,
every state reached is safe. -/
theorem run_safe (words : ℕ → ℕ) (es : List Event) (s : State)
    (hok : StepsOk (step L) HeadUnchanged (kinit L words) es)
    (hrun : run (step L) (kinit L words) es = some s) : Safe L s := by
  have hinv : ∃ l, Partition L s l :=
    run_invariant (fun _ _ _ h hok hs => partition_step L h hok hs) ⟨_, partition_kinit L words⟩
      hok hrun
  obtain ⟨l, h⟩ := hinv
  exact h.safe L

/-- A machine with a single free page. -/
def onePage : Layout := ⟨0x87fff000, by decide, by decide⟩

set_option maxRecDepth 20000 in
theorem run_safe_onePage : ∃ s, run (step onePage) (kinit onePage fun _ => 0)
    [.kalloc 0, .write 0x87fff000 5, .kfreeRead 0 0x87fff000, .kfreeWrite 0] = some s ∧
      Safe onePage s := by
  refine ⟨_, rfl, run_safe onePage (fun _ => 0)
    [.kalloc 0, .write 0x87fff000 5, .kfreeRead 0 0x87fff000, .kfreeWrite 0] _ ?_ rfl⟩
  refine ⟨trivial, fun t ht => ⟨trivial, fun u hu => ⟨trivial, fun v hv => ⟨?_, fun w _ => trivial⟩⟩⟩⟩
  obtain rfl := Option.some.inj ht
  obtain rfl := Option.some.inj hu
  obtain rfl := Option.some.inj hv
  intro r hr
  obtain rfl := Option.some.inj hr
  rfl

/-! ## The race -/

/-- Two CPUs free a page each and both read the old list head. -/
def raceEvents (a b : ℕ) : List Event :=
  [.kalloc 0, .kalloc 1, .kfreeRead 0 a, .kfreeRead 1 b, .kfreeWrite 0, .kfreeWrite 1]

theorem run_race {a b : ℕ} (h : Partition L s (a :: b :: l))
    (hheld : s.held = []) (hquiet : Quiet s) :
    ∃ t, run (step L) s (raceEvents a b) = some t ∧ Quiet t ∧ t.held = [] ∧
      Chain t.next 0 t.freelist (b :: l) := by
  obtain ⟨ha, ha0, hb, hb0, hchain⟩ := h.chain
  have hnodup := h.chain.nodup
  have hne : b ≠ a := fun e => (List.nodup_cons.1 hnodup).1 (by simp [e])
  have hal : a ∉ l := fun hp => (List.nodup_cons.1 hnodup).1 (by simp [hp])
  have hbl : b ∉ l := (List.nodup_cons.1 (List.nodup_cons.1 hnodup).2).1
  have hpa := kfreePanics_eq_false L (h.list_sub a (by simp))
  have hpb := kfreePanics_eq_false L (h.list_sub b (by simp))
  let c := s.next b
  let t : State :=
    { freelist := b
      next := Function.update (Function.update s.next a c) b c
      held := []
      freeing := Function.update (Function.update (Function.update (Function.update s.freeing 0
        (some a)) 1 (some b)) 0 none) 1 none
      panicked := false }
  refine ⟨t, ?_, fun c => ?_, rfl, rfl, hb0, ?_⟩
  · simp [raceEvents, run, step, kalloc, kfreeRead, kfreeWrite, h.running, hquiet 0, hquiet 1, hheld,
      ha, ha0, hb, hb0, hne, hpa, hpb, t, c]
  · by_cases h1 : c = 1
    · simp [t, h1]
    · by_cases h0 : c = 0
      · simp [t, h0]
      · simp [t, h1, h0, hquiet c]
  · show Chain _ 0 (Function.update (Function.update s.next a c) b c b) l
    rw [Function.update_self]
    refine hchain.congr fun p hp => ?_
    have hpb : p ≠ b := fun e => hbl (by rwa [e] at hp)
    have hpa : p ≠ a := fun e => hal (by rwa [e] at hp)
    show Function.update (Function.update s.next a c) b c p = s.next p
    rw [Function.update_of_ne hpb, Function.update_of_ne hpa]

/-- With three pages or more, the race loses a page: no call is in progress, but the page that was
freed first is neither held nor listed. -/
theorem race_not_safe {a b : ℕ} (h : Partition L s (a :: b :: l))
    (hheld : s.held = []) (hquiet : Quiet s) :
    ∃ t, run (step L) s (raceEvents a b) = some t ∧ Quiet t ∧ ¬ Safe L t := by
  obtain ⟨t, hrun, hq, hheld', hchain⟩ := run_race L h hheld hquiet
  refine ⟨t, hrun, hq, fun hsafe => ?_⟩
  rcases hsafe.complete hq a (h.list_sub a (by simp)) with hp | ⟨l', hl', hp⟩
  · simp [hheld'] at hp
  · rw [hl'.unique hchain] at hp
    exact (List.nodup_cons.1 h.chain.nodup).1 hp

/-- `end` as the symbol table of the built kernel gives it. -/
def kernelLayout : Layout := ⟨0x80020eb0, by decide, by decide⟩

theorem kernelLayout_pages :
    kernelLayout.pages.reverse = 0x87fff000 :: 0x87ffe000 ::
      ((List.range (kernelLayout.total - 2)).map fun i =>
        kernelLayout.firstPage + PGSIZE * i).reverse := by
  have htotal : kernelLayout.total = kernelLayout.total - 2 + 1 + 1 := by decide
  rw [Layout.pages, htotal, List.range_succ, List.range_succ]
  simp only [List.map_append, List.reverse_append, List.map_cons, List.map_nil, List.reverse_cons,
    List.reverse_nil, List.nil_append, List.cons_append]
  rfl

/-- On the kernel as built, two CPUs that free the two highest pages at the same time lose one. -/
theorem kfree_race : ∃ t, run (step kernelLayout) (kinit kernelLayout fun _ => 0)
    (raceEvents 0x87fff000 0x87ffe000) = some t ∧ Quiet t ∧ ¬ Safe kernelLayout t := by
  have h := partition_kinit kernelLayout fun _ => 0
  have hboot := booting_kinit kernelLayout fun _ => 0
  rw [kernelLayout_pages] at h
  exact race_not_safe kernelLayout h hboot.held hboot.quiet

end Xv6.Kalloc
