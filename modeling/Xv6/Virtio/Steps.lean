import Xv6.Virtio.Invariant

/-!
# Steps of driver and device keep the invariant

One lemma for each part of the invariant says what it needs of a step in general (`congr`, `move`); the
steps follow in the order of `virtio_disk_rw`, then `virtio_disk_intr`, then the device.
-/

namespace Xv6.Virtio

open Fifo

variable {s s' : State} {p p' d h : ℕ} {pc : Pc} {φ φ' : Phase} {q q' : Req} {t t' : Table}

theorem phase_goto (s : State) (p : ℕ) (pc : Pc) :
    (s.goto p pc).phase = Function.update s.phase p pc.phase := by
  funext p'
  by_cases e : p' = p
  · subst e
    simp [State.phase, State.goto]
  · simp [State.phase, State.goto, Function.update_of_ne e]

/-! ## Descriptors -/

theorem take_free (t : Table) (i d : ℕ) : (t.take i).free d = if d = i then false else t.free d := by
  rw [Table.take]
  exact Function.update_apply _ _ _ _

theorem put_free (t : Table) (i d : ℕ) : (t.put i).free d = if d = i then true else t.free d := by
  rw [Table.put]
  exact Function.update_apply _ _ _ _

theorem put_desc_of_ne (t : Table) {i d : ℕ} (h : d ≠ i) : (t.put i).desc d = t.desc d :=
  Function.update_of_ne h _ _

theorem allocDesc_eq_some {i : ℕ} (h : allocDesc t = some (i, t')) :
    i < NUM ∧ t.free i = true ∧ t' = t.take i := by
  obtain ⟨j, hj, e⟩ := Option.map_eq_some_iff.1 h
  cases e
  exact ⟨List.mem_range.1 (List.mem_of_find?_eq_some hj), List.find?_some hj, rfl⟩

theorem freeDesc_ok (hlt : d < NUM) (hbusy : t.free d = false) : freeDesc t d = .ok (t.put d) := by
  rw [freeDesc, if_neg (by omega), hbusy, if_neg (by simp)]

/-- `alloc3_desc` takes three free descriptors, or gives back what it has taken. -/
theorem alloc3Desc_cases (t : Table) :
    (∃ t', alloc3Desc t = .ok (none, t') ∧ (∀ d, t'.free d = t.free d) ∧
      ∀ d, t.free d = false → t'.desc d = t.desc d) ∨
    ∃ i0 i1 i2, alloc3Desc t = .ok (some (i0, i1, i2), ((t.take i0).take i1).take i2) ∧
      [i0, i1, i2].Nodup ∧ ∀ d ∈ [i0, i1, i2], d < NUM ∧ t.free d = true := by
  unfold alloc3Desc
  cases h₀ : allocDesc t with
  | none => exact .inl ⟨t, rfl, fun _ => rfl, fun _ _ => rfl⟩
  | some x =>
    obtain ⟨i0, t₀⟩ := x
    obtain ⟨hlt₀, hfree₀, rfl⟩ := allocDesc_eq_some h₀
    simp only []
    cases h₁ : allocDesc (t.take i0) with
    | none =>
      refine .inl ⟨(t.take i0).put i0, ?_, fun d => ?_, fun d hd => ?_⟩
      · rw [freeDesc_ok hlt₀ (by rw [take_free, if_pos rfl])]
        rfl
      · rw [put_free, take_free]
        split_ifs with e
        · rw [e, hfree₀]
        · rfl
      · exact put_desc_of_ne _ fun e => by rw [e, hfree₀] at hd; cases hd
    | some x =>
      obtain ⟨i1, t₁⟩ := x
      obtain ⟨hlt₁, hfree₁, rfl⟩ := allocDesc_eq_some h₁
      rw [take_free] at hfree₁
      split_ifs at hfree₁ with hne₁
      simp only []
      cases h₂ : allocDesc ((t.take i0).take i1) with
      | none =>
        refine .inl ⟨(((t.take i0).take i1).put i0).put i1, ?_, fun d => ?_, fun d hd => ?_⟩
        · rw [freeDesc_ok hlt₀ (by simp [take_free])]
          change (freeDesc (((t.take i0).take i1).put i0) i1 >>= fun t => Except.ok (none, t)) = _
          rw [freeDesc_ok hlt₁ (by simp [take_free, put_free, hne₁])]
          rfl
        · rw [put_free, put_free, take_free, take_free]
          split_ifs with e e'
          · rw [e, hfree₁]
          · rw [e', hfree₀]
          · rfl
        · have hne₀ : d ≠ i0 := fun e => by rw [e, hfree₀] at hd; cases hd
          have hne : d ≠ i1 := fun e => by rw [e, hfree₁] at hd; cases hd
          rw [put_desc_of_ne _ hne, put_desc_of_ne _ hne₀]
          rfl
      | some x =>
        obtain ⟨i2, t₂⟩ := x
        obtain ⟨hlt₂, hfree₂, rfl⟩ := allocDesc_eq_some h₂
        rw [take_free, take_free] at hfree₂
        split_ifs at hfree₂ with hne₂ hne₂'
        refine .inr ⟨i0, i1, i2, rfl, ?_, fun d hd => ?_⟩
        · simp only [List.nodup_cons, List.mem_cons, List.not_mem_nil, or_false, not_or, not_false_eq_true,
            List.nodup_nil, and_true]
          exact ⟨⟨fun e => hne₁ e.symm, fun e => hne₂' e.symm⟩, fun e => hne₂ e.symm⟩
        · simp only [List.mem_cons, List.not_mem_nil, or_false] at hd
          obtain rfl | rfl | rfl := hd
          · exact ⟨hlt₀, hfree₀⟩
          · exact ⟨hlt₁, hfree₁⟩
          · exact ⟨hlt₂, hfree₂⟩

theorem freeChain_next (fuel : ℕ) (hlt : d < NUM) (hbusy : t.free d = false)
    (hnext : (t.desc d).flags &&& VRING_DESC_F_NEXT ≠ 0) :
    freeChain (fuel + 1) t d = freeChain fuel (t.put d) (t.desc d).next := by
  rw [freeChain, freeDesc_ok hlt hbusy]
  change (if _ then _ else _) = _
  rw [if_pos hnext]

theorem freeChain_last (fuel : ℕ) (hlt : d < NUM) (hbusy : t.free d = false)
    (hlast : (t.desc d).flags &&& VRING_DESC_F_NEXT = 0) : freeChain (fuel + 1) t d = .ok (t.put d) := by
  rw [freeChain, freeDesc_ok hlt hbusy]
  change (if _ then _ else _) = _
  rw [if_neg (not_not.2 hlast)]

/-- The descriptors of a request are cleared and free. -/
def Table.putAll (t : Table) (q : Req) : Table := ((t.put q.i0).put q.i1).put q.i2

theorem putAll_free (t : Table) (q : Req) (d : ℕ) :
    (t.putAll q).free d = if d ∈ q.idx then true else t.free d := by
  rw [Table.putAll, put_free, put_free, put_free, Req.idx]
  simp only [List.mem_cons, List.not_mem_nil, or_false]
  split_ifs <;> tauto

theorem putAll_desc (t : Table) (hd : d ∉ q.idx) : (t.putAll q).desc d = t.desc d := by
  simp only [Req.idx, List.mem_cons, List.not_mem_nil, or_false, not_or] at hd
  rw [Table.putAll, put_desc_of_ne _ hd.2.2, put_desc_of_ne _ hd.2.1, put_desc_of_ne _ hd.1]

theorem Made.freeChain (h : Made s q) (hnd : q.idx.Nodup)
    (hbusy : ∀ d ∈ q.idx, d < NUM ∧ s.table.free d = false) :
    Virtio.freeChain (NUM + 1) s.table q.i0 = .ok (s.table.putAll q) := by
  simp only [Req.idx, List.nodup_cons, List.mem_cons, List.not_mem_nil, or_false, not_or,
    forall_eq_or_imp, forall_eq] at hnd hbusy
  obtain ⟨⟨h01, h02⟩, h12, -⟩ := hnd
  obtain ⟨⟨hlt0, hb0⟩, ⟨hlt1, hb1⟩, hlt2, hb2⟩ := hbusy
  have hd1 : (s.table.put q.i0).desc q.i1 = s.table.desc q.i1 := put_desc_of_ne _ (Ne.symm h01)
  have hd2 : ((s.table.put q.i0).put q.i1).desc q.i2 = s.table.desc q.i2 := by
    rw [put_desc_of_ne _ (Ne.symm h12), put_desc_of_ne _ (Ne.symm h02)]
  have hflag : ((if q.write then 0 else VRING_DESC_F_WRITE) ||| VRING_DESC_F_NEXT) &&&
      VRING_DESC_F_NEXT ≠ 0 := by
    cases q.write <;> decide
  have hnext : VRING_DESC_F_NEXT &&& VRING_DESC_F_NEXT ≠ 0 := by decide
  have hlast : VRING_DESC_F_WRITE &&& VRING_DESC_F_NEXT = 0 := by decide
  rw [freeChain_next _ hlt0 hb0 (by rw [h.desc0]; exact hnext), h.desc0]
  rw [show NUM = 7 + 1 from rfl, freeChain_next _ hlt1 (by rw [put_free, if_neg (Ne.symm h01), hb1])
    (by rw [hd1, h.desc1]; exact hflag), hd1, h.desc1]
  rw [freeChain_last _ hlt2 (by rw [put_free, if_neg (Ne.symm h12), put_free, if_neg (Ne.symm h02), hb2])
    (by rw [hd2, h.desc2]; exact hlast)]
  rfl

/-! ## Parts of the invariant in general -/

theorem phase_eq_of_update {x : Option (Phase × Req)} (hph : s'.phase = Function.update s.phase p x)
    (hp : s'.phase p' = some (φ, q)) : p' = p ∧ x = some (φ, q) ∨ p' ≠ p ∧ s.phase p' = some (φ, q) := by
  rw [hph] at hp
  by_cases e : p' = p
  · subst e
    rw [Function.update_self] at hp
    exact .inl ⟨rfl, hp⟩
  · rw [Function.update_of_ne e] at hp
    exact .inr ⟨e, hp⟩

/-- Every request has the owner that it had, and the same descriptors are free. -/
theorem Owned.congr (h : Owned s) (hfree : ∀ d, s'.table.free d = s.table.free d)
    (hback : ∀ p φ' q, s'.phase p = some (φ', q) → ∃ φ, s.phase p = some (φ, q) ∧ (φ' ≠ .ended → φ ≠ .ended))
    (hforth : ∀ p φ q, s.phase p = some (φ, q) → φ ≠ .ended → ∃ φ', s'.phase p = some (φ', q) ∧ φ' ≠ .ended) :
    Owned s' where
  busy hp hφ d hd := by
    obtain ⟨φ, hp, hne⟩ := hback _ _ _ hp
    rw [hfree]
    exact h.busy hp (hne hφ) d hd
  nodup hp hφ := by
    obtain ⟨φ, hp, hne⟩ := hback _ _ _ hp
    exact h.nodup hp (hne hφ)
  disjoint hp hp' hφ hφ' hd hd' := by
    obtain ⟨φ₁, hp, hne⟩ := hback _ _ _ hp
    obtain ⟨φ₂, hp', hne'⟩ := hback _ _ _ hp'
    exact h.disjoint hp hp' (hne hφ) (hne' hφ') hd hd'
  owner d hd hbusy := by
    rw [hfree] at hbusy
    obtain ⟨p, φ, q, hp, hφ, hmem⟩ := h.owner d hd hbusy
    obtain ⟨φ', hp', hφ'⟩ := hforth p φ q hp hφ
    exact ⟨p, φ', q, hp', hφ', hmem⟩
  buf hp hp' hb := by
    obtain ⟨φ₁, hp, -⟩ := hback _ _ _ hp
    obtain ⟨φ₂, hp', -⟩ := hback _ _ _ hp'
    exact h.buf hp hp' hb

theorem Owned.move (h : Owned s) (hp : s.phase p = some (φ, q))
    (hph : s'.phase = Function.update s.phase p (some (φ', q))) (hφ : φ ≠ .ended) (hφ' : φ' ≠ .ended)
    (hfree : ∀ d, s'.table.free d = s.table.free d) : Owned s' := by
  refine h.congr hfree (fun p₁ φ₁ q₁ h₁ => ?_) fun p₁ φ₁ q₁ h₁ hne => ?_
  · obtain ⟨rfl, e⟩ | ⟨-, h₁⟩ := phase_eq_of_update hph h₁
    · cases e
      exact ⟨φ, hp, fun _ => hφ⟩
    · exact ⟨φ₁, h₁, id⟩
  · rw [hph]
    by_cases e : p₁ = p
    · subst e
      rw [hp] at h₁
      cases h₁
      exact ⟨φ', Function.update_self _ _ _, hφ'⟩
    · exact ⟨φ₁, by rw [Function.update_of_ne e, h₁], hne⟩

theorem Made.congr (h : Made s q) (hdesc : ∀ d ∈ q.idx, s'.table.desc d = s.table.desc d)
    (hops : s'.ops q.i0 = s.ops q.i0) (hinfo : (s'.info q.i0).b = (s.info q.i0).b)
    (htag : s'.tag q.i0 = s.tag q.i0) : Made s' q :=
  ⟨hops.trans h.op, (hdesc _ (by simp [Req.idx])).trans h.desc0, (hdesc _ (by simp [Req.idx])).trans h.desc1,
    (hdesc _ (by simp [Req.idx])).trans h.desc2, hinfo.trans h.b, htag.trans h.tag⟩

theorem Made.goto (h : Made s q) (p : ℕ) (pc : Pc) : Made (s.goto p pc) q :=
  h.congr (fun _ _ => rfl) rfl rfl rfl

theorem History.congr (h : History s)
    (hback : ∀ p φ' q, s'.phase p = some (φ', q) → ∃ φ, s.phase p = some (φ, q) ∧
      (Cleared s' φ' q ↔ Cleared s φ q) ∧ (Served s' φ' q ↔ Served s φ q))
    (hid : s'.nextId = s.nextId) (hserved : s'.served = s.served) (hcleared : s'.cleared = s.cleared)
    (hret : s'.returned = s.returned) : History s' := by
  have hfor (id : ℕ) : servedFor s' id = servedFor s id := by rw [servedFor, hserved, servedFor]
  exact
    { lt := fun hp => by
        obtain ⟨φ, hp, -⟩ := hback _ _ _ hp
        rw [hid]
        exact h.lt hp
      inj := fun hp hp' e => by
        obtain ⟨φ₁, hp, -⟩ := hback _ _ _ hp
        obtain ⟨φ₂, hp', -⟩ := hback _ _ _ hp'
        exact h.inj hp hp' e
      old := fun id hle => by
        rw [hfor, hcleared]
        exact h.old id (hid ▸ hle)
      served := fun hp hs => by
        obtain ⟨φ, hp, -, hiff⟩ := hback _ _ _ hp
        rw [hfor]
        exact h.served hp (hiff.1 hs)
      unserved := fun hp hs => by
        obtain ⟨φ, hp, -, hiff⟩ := hback _ _ _ hp
        rw [hfor]
        exact h.unserved hp fun e => hs (hiff.2 e)
      cleared := fun hp hs => by
        obtain ⟨φ, hp, hiff, -⟩ := hback _ _ _ hp
        rw [hcleared]
        exact h.cleared hp (hiff.1 hs)
      uncleared := fun hp hs => by
        obtain ⟨φ, hp, hiff, -⟩ := hback _ _ _ hp
        rw [hcleared]
        exact h.uncleared hp fun e => hs (hiff.2 e)
      returned := fun q hq => by
        rw [hret] at hq
        obtain ⟨h₁, h₂, h₃⟩ := h.returned q hq
        refine ⟨(hfor _).trans h₁, by rw [hcleared]; exact h₂, fun hp => ?_⟩
        obtain ⟨φ, hp, -⟩ := hback _ _ _ hp
        exact h₃ hp
      nodup := by
        rw [hret]
        exact h.nodup }

theorem length_le_of_lt {l : List ℕ} {n : ℕ} (hnd : l.Nodup) (hlt : ∀ x ∈ l, x < n) : l.length ≤ n := by
  rw [← List.toFinset_card_of_nodup hnd, ← Finset.card_range n]
  exact Finset.card_le_card fun x hx => Finset.mem_range.2 (hlt x (List.mem_toFinset.1 hx))

/-- A head on its way through the device is that of a published request. -/
theorem Inv.of_mem_flight (h : Inv s) {x : ℕ} (hx : x ∈ flight s) :
    ∃ p q, s.phase p = some (.posted, q) ∧ q.i0 = x ∧ s.disk q.b = true := (h.device.mem x).1 hx

theorem Inv.flight_lt (h : Inv s) {x : ℕ} (hx : x ∈ flight s) : x < NUM := by
  obtain ⟨p, q, hp, rfl, -⟩ := h.of_mem_flight hx
  exact (h.owned.busy hp (by simp) _ q.head_mem).1

theorem Inv.length_flight_le (h : Inv s) : (flight s).length ≤ NUM :=
  length_le_of_lt h.device.nodup fun _ => h.flight_lt

/-- The head of a request that is not published is not on its way. -/
theorem Inv.not_mem_flight (h : Inv s) (hp : s.phase p = some (φ, q)) (hφ : φ ≠ .ended)
    (hne : φ ≠ .posted) : q.i0 ∉ flight s := fun hx => by
  obtain ⟨p', q', hp', e, -⟩ := h.of_mem_flight hx
  obtain rfl := h.owned.disjoint hp hp' hφ (by simp) q.head_mem (e ▸ q'.head_mem)
  rw [hp] at hp'
  cases hp'
  exact hne rfl

theorem Inv.length_flight_lt (h : Inv s) (hp : s.phase p = some (φ, q)) (hφ : φ ≠ .ended)
    (hne : φ ≠ .posted) : (flight s).length < NUM := by
  have hnd : (q.i0 :: flight s).Nodup := List.nodup_cons.2 ⟨h.not_mem_flight hp hφ hne, h.device.nodup⟩
  have := length_le_of_lt hnd fun x hx => by
    obtain rfl | hx := List.mem_cons.1 hx
    · exact (h.owned.busy hp hφ _ q.head_mem).1
    · exact h.flight_lt hx
  simpa using this

theorem length_availQ_le (s : State) : (s.avail.idx - s.seen).toNat ≤ (flight s).length := by
  rw [← length_content NUM s.avail.ring, flight, List.length_append, List.length_append]
  exact Nat.le_add_right_of_le (Nat.le_add_right _ _)

theorem length_usedQ_le (s : State) :
    (s.used.idx - s.usedIdx).toNat + s.performed.length + s.writing.toList.length ≤ (flight s).length := by
  rw [← length_content NUM s.used.ring, flight, done, usedQ, List.length_append, List.length_append,
    List.length_append, List.length_append]
  omega

theorem Locks.update (h : Locks s) (hpc : s'.pc = Function.update s.pc p pc) (hbl : s'.bufLock = s.bufLock)
    (hbuf : ∀ b, pc.buf = some b → s.bufLock b = some p)
    (hlock : s'.lock = s.lock ∧ pc.holds = (s.pc p).holds ∨
      s.lock = none ∧ pc.holds = true ∧ s'.lock = some p ∨
      (s.pc p).holds = true ∧ pc.holds = false ∧ s'.lock = none) : Locks s' where
  lock p' := by
    rw [hpc]
    by_cases e : p' = p
    · subst e
      rw [Function.update_self]
      obtain ⟨hl, hh⟩ | ⟨-, hh, hl⟩ | ⟨-, hh, hl⟩ := hlock
      · rw [hh, hl, h.lock]
      · simp [hh, hl]
      · simp [hh, hl]
    · rw [Function.update_of_ne e, h.lock]
      obtain ⟨hl, -⟩ | ⟨hn, -, hl⟩ | ⟨hh, -, hl⟩ := hlock
      · rw [hl]
      · rw [hn, hl]
        simpa using fun e' => e e'.symm
      · rw [(h.lock p).1 hh, hl]
        simpa using fun e' => e e'.symm
  buf p' b hb := by
    rw [hpc] at hb
    rw [hbl]
    by_cases e : p' = p
    · subst e
      rw [Function.update_self] at hb
      exact hbuf b hb
    · rw [Function.update_of_ne e] at hb
      exact h.buf p' b hb

/-- A process goes to a point with the same lock and the same buffer. -/
theorem Locks.next {pc₀ : Pc} (h : Locks s) (hpc₀ : s.pc p = pc₀) (hpc : s'.pc = Function.update s.pc p pc)
    (hbl : s'.bufLock = s.bufLock) (hl : s'.lock = s.lock) (hbuf : pc.buf = pc₀.buf) (hholds : pc.holds = pc₀.holds) :
    Locks s' :=
  h.update hpc hbl (fun b hb => h.buf p b (by rw [hpc₀, ← hbuf, hb])) (.inl ⟨hl, by rw [hpc₀, hholds]⟩)

theorem Locks.excl (h : Locks s) (hp : (s.pc p).holds = true) (hp' : (s.pc p').holds = true) : p' = p := by
  rw [h.lock] at hp hp'
  exact Option.some.inj (hp'.symm.trans hp)

theorem holds_of_written (hp : s.phase p = some (.written, q)) : (s.pc p).holds = true := by
  unfold State.phase at hp
  cases hpc : s.pc p <;> rw [hpc] at hp <;> simp [Pc.phase] at hp
  rfl

theorem buf_of_phase (hp : s.phase p = some (φ, q)) : (s.pc p).buf = some q.b := by
  unfold State.phase at hp
  cases hpc : s.pc p <;> rw [hpc] at hp <;> simp [Pc.phase] at hp <;> rw [← hp.2] <;> rfl

theorem Flight.congr (h : Flight s) (hph : s'.phase = s.phase) (hmade : ∀ q, Made s q → Made s' q)
    (hflight : flight s' = flight s) (hdone : done s' = done s)
    (hstatus : ∀ i, (s'.info i).status = (s.info i).status) (havail : s'.avail = s.avail)
    (hused : s'.used = s.used) (hwriting : s'.writing = s.writing) (hdisk : s'.disk = s.disk) : Flight s' where
  made hp hφ := hmade _ (h.made (hph ▸ hp) hφ)
  nodup := hflight ▸ h.nodup
  mem x := by
    rw [hflight, h.mem, hph, hdisk]
  status x hx := by
    rw [hstatus]
    exact h.status x (hdone ▸ hx)
  written hp := by
    rw [havail]
    exact h.written (hph ▸ hp)
  writing x hx := by
    rw [hused]
    exact h.writing x (hwriting ▸ hx)
  unposted hp hφ := by
    rw [hdisk]
    exact h.unposted (hph ▸ hp) hφ
  final hp hφ := by
    rw [hdisk]
    exact h.final (hph ▸ hp) hφ

/-- Steps that take or release locks, or go from one point to the next. -/
theorem Inv.of_locks (h : Inv s) {lock : Option ℕ} {bufLock : ℕ → Option ℕ} {pc : ℕ → Pc}
    (hlocks : Locks { s with lock := lock, bufLock := bufLock, pc := pc })
    (hph : ∀ p, (pc p).phase = (s.pc p).phase) :
    Inv { s with lock := lock, bufLock := bufLock, pc := pc } := by
  have hphase : State.phase { s with lock := lock, bufLock := bufLock, pc := pc } = s.phase := funext hph
  refine ⟨h.stop, hlocks, h.owned.congr (fun _ => rfl) (fun p φ q hp => ?_) (fun p φ q hp hφ => ?_),
    h.device.congr hphase (fun q hq => hq.congr (fun _ _ => rfl) rfl rfl rfl) rfl rfl (fun _ => rfl) rfl rfl rfl
      rfl, h.history.congr (fun p φ q hp => ?_) rfl rfl rfl rfl⟩
  · exact ⟨φ, hphase ▸ hp, id⟩
  · exact ⟨φ, hphase ▸ hp, hφ⟩
  · exact ⟨φ, hphase ▸ hp, Iff.rfl, Iff.rfl⟩

theorem phase_update (hphase : pc.phase = (s.pc p).phase) (p' : ℕ) :
    (Function.update s.pc p pc p').phase = (s.pc p').phase := by
  by_cases e : p' = p
  · rw [e, Function.update_self, hphase]
  · rw [Function.update_of_ne e]

theorem Inv.goto (h : Inv s) (hholds : pc.holds = (s.pc p).holds) (hphase : pc.phase = (s.pc p).phase)
    (hbuf : ∀ b, pc.buf = some b → s.bufLock b = some p) : Inv (s.goto p pc) :=
  h.of_locks (h.locks.update rfl rfl hbuf (.inl ⟨rfl, hholds⟩)) (phase_update hphase)

theorem Inv.acquire (h : Inv s) (hs : s.acquire p pc = some s') (hholds : pc.holds = true)
    (hphase : pc.phase = (s.pc p).phase) (hbuf : pc.buf = (s.pc p).buf) : Inv s' := by
  unfold State.acquire at hs
  split_ifs at hs with hl
  cases hs
  exact h.of_locks (h.locks.update rfl rfl (fun b hb => h.locks.buf p b (hbuf ▸ hb))
    (.inr (.inl ⟨hl, hholds, rfl⟩))) (phase_update hphase)

theorem Inv.release (h : Inv s) (hp : (s.pc p).holds = true) (hholds : pc.holds = false)
    (hphase : pc.phase = (s.pc p).phase) (hbuf : ∀ b, pc.buf = some b → s.bufLock b = some p) :
    Inv (s.release p pc) :=
  h.of_locks (h.locks.update rfl rfl hbuf (.inr (.inr ⟨hp, hholds, rfl⟩))) (phase_update hphase)

/-! ## `virtio_disk_rw` -/

/-- `alloc3_desc` has failed: only descriptors that are free may have changed. -/
theorem Inv.setTable (h : Inv s) (hfree : ∀ d, t.free d = s.table.free d)
    (hdesc : ∀ d, s.table.free d = false → t.desc d = s.table.desc d) : Inv { s with table := t } := by
  refine ⟨h.stop, ⟨h.locks.lock, h.locks.buf⟩,
    h.owned.congr hfree (fun p φ q hp => ⟨φ, hp, id⟩) (fun p φ q hp hφ => ⟨φ, hp, hφ⟩), ?_,
    h.history.congr (fun p φ q hp => ⟨φ, hp, Iff.rfl, Iff.rfl⟩) rfl rfl rfl rfl⟩
  have hmade {p : ℕ} {φ : Phase} {q : Req} (hp : s.phase p = some (φ, q)) (hφ : φ.formatted = true) :
      Made { s with table := t } q := by
    have hne : φ ≠ .ended := fun e => by
      rw [e] at hφ
      cases hφ
    exact (h.device.made hp hφ).congr (fun d hd => hdesc d (h.owned.busy hp hne d hd).2) rfl rfl rfl
  exact { h.device with made := hmade }

/-- A new request takes descriptors that were free. -/
theorem Owned.add (h : Owned s) (hnone : s.phase p = none)
    (hph : s'.phase = Function.update s.phase p (some (.new, q)))
    (hfree : ∀ d, s'.table.free d = if d ∈ q.idx then false else s.table.free d)
    (hnd : q.idx.Nodup) (hidx : ∀ d ∈ q.idx, d < NUM ∧ s.table.free d = true)
    (hbuf : ∀ p' φ q', s.phase p' = some (φ, q') → q'.b ≠ q.b) : Owned s' := by
  have hold {p' : ℕ} {φ : Phase} {q : Req} (hp : s.phase p' = some (φ, q)) : p' ≠ p := fun e => by
    rw [e, hnone] at hp
    cases hp
  have hdisj {p' d : ℕ} {φ : Phase} {q' : Req} (hp : s.phase p' = some (φ, q')) (hφ : φ ≠ .ended)
      (hd : d ∈ q'.idx) : d ∉ q.idx := fun hm => by
    have := (h.busy hp hφ d hd).2
    rw [(hidx d hm).2] at this
    cases this
  refine ⟨fun hp hφ d hd => ?_, fun hp hφ => ?_, fun hp hp' hφ hφ' hd hd' => ?_, fun d hd hbusy => ?_,
    fun hp hp' hb => ?_⟩
  · rw [hfree]
    obtain ⟨-, e⟩ | ⟨-, hp⟩ := phase_eq_of_update hph hp
    · cases e
      exact ⟨(hidx d hd).1, if_pos hd⟩
    · rw [if_neg (hdisj hp hφ hd)]
      exact h.busy hp hφ d hd
  · obtain ⟨-, e⟩ | ⟨-, hp⟩ := phase_eq_of_update hph hp
    · cases e
      exact hnd
    · exact h.nodup hp hφ
  · obtain ⟨e₁, e⟩ | ⟨-, hp⟩ := phase_eq_of_update hph hp
    · obtain ⟨e₂, -⟩ | ⟨-, hp'⟩ := phase_eq_of_update hph hp'
      · rw [e₁, e₂]
      · cases e
        exact absurd hd (hdisj hp' hφ' hd')
    · obtain ⟨-, e⟩ | ⟨-, hp'⟩ := phase_eq_of_update hph hp'
      · cases e
        exact absurd hd' (hdisj hp hφ hd)
      · exact h.disjoint hp hp' hφ hφ' hd hd'
  · rw [hfree] at hbusy
    rw [hph]
    split_ifs at hbusy with hm
    · exact ⟨p, .new, q, Function.update_self _ _ _, by simp, hm⟩
    · obtain ⟨p', φ, q', hp, hφ, hm⟩ := h.owner d hd hbusy
      exact ⟨p', φ, q', by rw [Function.update_of_ne (hold hp)]; exact hp, hφ, hm⟩
  · obtain ⟨e₁, e⟩ | ⟨-, hp⟩ := phase_eq_of_update hph hp
    · obtain ⟨e₂, -⟩ | ⟨-, hp'⟩ := phase_eq_of_update hph hp'
      · rw [e₁, e₂]
      · cases e
        exact absurd hb.symm (hbuf _ _ _ hp')
    · obtain ⟨-, e⟩ | ⟨-, hp'⟩ := phase_eq_of_update hph hp'
      · cases e
        exact absurd hb (hbuf _ _ _ hp)
      · exact h.buf hp hp' hb

/-- A request that is not formatted is new to the device. -/
theorem Flight.add (h : Flight s) (hnone : s.phase p = none)
    (hph : s'.phase = Function.update s.phase p (some (.new, q))) (hmade : ∀ q, Made s q → Made s' q)
    (hflight : flight s' = flight s) (hdone : done s' = done s) (hinfo : s'.info = s.info)
    (havail : s'.avail = s.avail) (hused : s'.used = s.used) (hwriting : s'.writing = s.writing)
    (hdisk : s'.disk = s.disk) : Flight s' := by
  refine ⟨fun hp hφ => ?_, hflight ▸ h.nodup, fun x => ?_, fun x hx => ?_, fun hp => ?_, fun x hx => ?_,
    fun hp hφ => ?_, fun hp hφ => ?_⟩
  · obtain ⟨-, e⟩ | ⟨-, hp⟩ := phase_eq_of_update hph hp
    · cases e
      cases hφ
    · exact hmade _ (h.made hp hφ)
  · rw [hflight, h.mem, hdisk]
    constructor
    · rintro ⟨p', q', hp, e⟩
      have hne : p' ≠ p := fun e => by
        rw [e, hnone] at hp
        cases hp
      exact ⟨p', q', by rw [hph, Function.update_of_ne hne]; exact hp, e⟩
    · rintro ⟨p', q', hp, e⟩
      obtain ⟨-, e'⟩ | ⟨-, hp⟩ := phase_eq_of_update hph hp
      · cases e'
      · exact ⟨p', q', hp, e⟩
  · rw [hinfo]
    exact h.status x (hdone ▸ hx)
  · rw [havail]
    obtain ⟨-, e⟩ | ⟨-, hp⟩ := phase_eq_of_update hph hp
    · cases e
    · exact h.written hp
  · rw [hused]
    exact h.writing x (hwriting ▸ hx)
  · rw [hdisk]
    obtain ⟨-, e⟩ | ⟨-, hp⟩ := phase_eq_of_update hph hp
    · cases e
      simp at hφ
    · exact h.unposted hp hφ
  · rw [hdisk]
    obtain ⟨-, e⟩ | ⟨-, hp⟩ := phase_eq_of_update hph hp
    · cases e
      simp at hφ
    · exact h.final hp hφ

theorem not_served_new : ¬ Served s .new q := by
  simp [Served, Cleared]

theorem not_cleared_new : ¬ Cleared s .new q := by
  simp [Cleared]

theorem History.add (h : History s) (hph : s'.phase = Function.update s.phase p (some (.new, q)))
    (hid : q.id = s.nextId) (hnext : s'.nextId = s.nextId + 1) (hserved : s'.served = s.served)
    (hcleared : s'.cleared = s.cleared) (hret : s'.returned = s.returned) (hdisk : s'.disk = s.disk)
    (hdone : done s' = done s) : History s' := by
  have hfor (id : ℕ) : servedFor s' id = servedFor s id := by rw [servedFor, hserved, servedFor]
  have hC (φ : Phase) (q' : Req) : Cleared s' φ q' ↔ Cleared s φ q' := by rw [Cleared, Cleared, hdisk]
  have hS (φ : Phase) (q' : Req) : Served s' φ q' ↔ Served s φ q' := by rw [Served, Served, hC, hdone]
  have hnew := h.old s.nextId le_rfl
  refine ⟨fun hp => ?_, fun hp hp' e => ?_, fun id hle => ?_, fun hp hs => ?_, fun hp hs => ?_, fun hp hs => ?_,
    fun hp hs => ?_, fun q' hq' => ?_, by rw [hret]; exact h.nodup⟩
  · rw [hnext]
    obtain ⟨-, e⟩ | ⟨-, hp⟩ := phase_eq_of_update hph hp
    · cases e
      omega
    · have := h.lt hp
      omega
  · obtain ⟨e₁, e₂⟩ | ⟨-, hp⟩ := phase_eq_of_update hph hp
    · obtain ⟨e₃, -⟩ | ⟨-, hp'⟩ := phase_eq_of_update hph hp'
      · rw [e₁, e₃]
      · cases e₂
        have := h.lt hp'
        omega
    · obtain ⟨-, e₂⟩ | ⟨-, hp'⟩ := phase_eq_of_update hph hp'
      · cases e₂
        have := h.lt hp
        omega
      · exact h.inj hp hp' e
  · rw [hfor, hcleared]
    exact h.old id (by omega)
  · rw [hfor]
    obtain ⟨-, e⟩ | ⟨-, hp⟩ := phase_eq_of_update hph hp
    · cases e
      exact absurd hs not_served_new
    · exact h.served hp ((hS _ _).1 hs)
  · rw [hfor]
    obtain ⟨-, e⟩ | ⟨-, hp⟩ := phase_eq_of_update hph hp
    · cases e
      rw [hid]
      exact hnew.1
    · exact h.unserved hp fun e => hs ((hS _ _).2 e)
  · rw [hcleared]
    obtain ⟨-, e⟩ | ⟨-, hp⟩ := phase_eq_of_update hph hp
    · cases e
      exact absurd hs not_cleared_new
    · exact h.cleared hp ((hC _ _).1 hs)
  · rw [hcleared]
    obtain ⟨-, e⟩ | ⟨-, hp⟩ := phase_eq_of_update hph hp
    · cases e
      rw [hid]
      exact hnew.2
    · exact h.uncleared hp fun e => hs ((hC _ _).2 e)
  · rw [hret] at hq'
    obtain ⟨h₁, h₂, h₃⟩ := h.returned q' hq'
    refine ⟨(hfor _).trans h₁, by rw [hcleared]; exact h₂, fun hp e => ?_⟩
    obtain ⟨-, e'⟩ | ⟨-, hp⟩ := phase_eq_of_update hph hp
    · cases e'
      rw [← e, hid, hnew.1] at h₁
      cases h₁
    · exact h₃ hp e

theorem Inv.alloc {c : Call} {i0 i1 i2 : ℕ} (h : Inv s) (hpc : s.pc p = .alloc c)
    (hnd : [i0, i1, i2].Nodup) (hidx : ∀ d ∈ [i0, i1, i2], d < NUM ∧ s.table.free d = true) :
    Inv ({ s with
      table := ((s.table.take i0).take i1).take i2
      nextId := s.nextId + 1 }.goto p (.format ⟨c, i0, i1, i2, s.nextId⟩)) := by
  have hph := phase_goto { s with
    table := ((s.table.take i0).take i1).take i2
    nextId := s.nextId + 1 } p (.format ⟨c, i0, i1, i2, s.nextId⟩)
  have hnone : s.phase p = none := by rw [State.phase, hpc]; rfl
  have hbl : s.bufLock c.b = some p := h.locks.buf p _ (by rw [hpc]; rfl)
  refine ⟨h.stop, h.locks.next hpc rfl rfl rfl rfl rfl,
    h.owned.add hnone hph (fun d => ?_) hnd hidx (fun p' φ q' hp' e => ?_),
    h.device.add hnone hph (fun q hq => hq.congr (fun _ _ => rfl) rfl rfl rfl) rfl rfl rfl rfl rfl rfl rfl,
    h.history.add hph rfl rfl rfl rfl rfl rfl rfl⟩
  · change (((s.table.take i0).take i1).take i2).free d = _
    rw [take_free, take_free, take_free, Req.idx]
    simp only [List.mem_cons, List.not_mem_nil, or_false]
    split_ifs <;> tauto
  · have hb := h.locks.buf _ _ (buf_of_phase hp')
    rw [e, hbl] at hb
    rw [← Option.some.inj hb, hnone] at hp'
    cases hp'

/-- The request of `p` goes on, and the same heads are on their way. -/
theorem Flight.move (h : Flight s) (hp : s.phase p = some (φ, q))
    (hph : s'.phase = Function.update s.phase p (some (φ', q)))
    (hmade : φ'.formatted = true → Made s' q)
    (hmade' : ∀ p' φ q', p' ≠ p → s.phase p' = some (φ, q') → φ.formatted = true → Made s' q')
    (hflight : flight s' = flight s)
    (hposted : φ = .posted ∧ s.disk q.b = true ↔ φ' = .posted ∧ s'.disk q.b = true)
    (hdisk : ∀ p' φ q', p' ≠ p → s.phase p' = some (φ, q') → s'.disk q'.b = s.disk q'.b)
    (hstatus : ∀ x ∈ done s', (s'.info x).status = 0)
    (hwritten : φ' = .written → s'.avail.ring (s'.avail.idx.toNat % NUM) = q.i0)
    (hwritten' : ∀ p' q', p' ≠ p → s.phase p' = some (.written, q') →
      s'.avail.ring (s'.avail.idx.toNat % NUM) = q'.i0)
    (hwriting : ∀ x, s'.writing = some x → s'.used.ring (s'.used.idx.toNat % NUM) = x)
    (hunposted : φ' = .made ∨ φ' = .written → s'.disk q.b = true)
    (hfinal : φ' = .final ∨ φ' = .ended → s'.disk q.b = false) : Flight s' := by
  refine ⟨fun hp₁ hφ => ?_, hflight ▸ h.nodup, fun x => ?_, hstatus, fun hp₁ => ?_, hwriting, fun hp₁ hφ => ?_,
    fun hp₁ hφ => ?_⟩
  · obtain ⟨-, e⟩ | ⟨hne, hp₁⟩ := phase_eq_of_update hph hp₁
    · cases e
      exact hmade hφ
    · exact hmade' _ _ _ hne hp₁ hφ
  · rw [hflight, h.mem]
    constructor
    · rintro ⟨p', q', hp', e, hd⟩
      by_cases hne : p' = p
      · subst hne
        rw [hp] at hp'
        cases hp'
        obtain ⟨rfl, hd'⟩ := hposted.1 ⟨rfl, hd⟩
        exact ⟨p', q, by rw [hph, Function.update_self], e, hd'⟩
      · exact ⟨p', q', by rw [hph, Function.update_of_ne hne]; exact hp', e, by rw [hdisk p' _ _ hne hp', hd]⟩
    · rintro ⟨p', q', hp', e, hd⟩
      obtain ⟨rfl, e'⟩ | ⟨hne, hp'⟩ := phase_eq_of_update hph hp'
      · cases e'
        obtain ⟨rfl, hd'⟩ := hposted.2 ⟨rfl, hd⟩
        exact ⟨p', q, hp, e, hd'⟩
      · exact ⟨p', q', hp', e, by rw [← hdisk p' _ _ hne hp', hd]⟩
  · obtain ⟨-, e⟩ | ⟨hne, hp₁⟩ := phase_eq_of_update hph hp₁
    · cases e
      exact hwritten rfl
    · exact hwritten' _ _ hne hp₁
  · obtain ⟨-, e⟩ | ⟨hne, hp₁⟩ := phase_eq_of_update hph hp₁
    · cases e
      exact hunposted hφ
    · rw [hdisk _ _ _ hne hp₁]
      exact h.unposted hp₁ hφ
  · obtain ⟨-, e⟩ | ⟨hne, hp₁⟩ := phase_eq_of_update hph hp₁
    · cases e
      exact hfinal hφ
    · rw [hdisk _ _ _ hne hp₁]
      exact h.final hp₁ hφ

/-- The request of `p` goes on, and is as far as it was with the device. -/
theorem History.move (h : History s) (hp : s.phase p = some (φ, q))
    (hph : s'.phase = Function.update s.phase p (some (φ', q)))
    (hdisk : ∀ p' φ q', p' ≠ p → s.phase p' = some (φ, q') → s'.disk q'.b = s.disk q'.b)
    (hdone : ∀ x, x ∈ done s' ↔ x ∈ done s) (hC : Cleared s' φ' q ↔ Cleared s φ q)
    (hS : Served s' φ' q ↔ Served s φ q) (hid : s'.nextId = s.nextId) (hserved : s'.served = s.served)
    (hcleared : s'.cleared = s.cleared) (hret : s'.returned = s.returned) : History s' := by
  refine h.congr (fun p₁ φ₁ q₁ hp₁ => ?_) hid hserved hcleared hret
  obtain ⟨rfl, e⟩ | ⟨hne, hp₁⟩ := phase_eq_of_update hph hp₁
  · cases e
    exact ⟨φ, hp, hC, hS⟩
  · refine ⟨φ₁, hp₁, ?_, ?_⟩
    · rw [Cleared, Cleared, hdisk _ _ _ hne hp₁]
    · rw [Served, Served, Cleared, Cleared, hdisk _ _ _ hne hp₁, hdone]

/-- The state that `format` leaves for other requests. -/
theorem Inv.made_of_format (h : Inv s) (hp : s.phase p = some (.new, q)) (hne : p' ≠ p)
    (hp' : s.phase p' = some (φ, q')) (hφ : φ.formatted = true) : Made (format s q) q' := by
  have hφ' : φ ≠ .ended := fun e => by
    rw [e] at hφ
    cases hφ
  have hd {d : ℕ} (hd : d ∈ q'.idx) : d ∉ q.idx := fun hm =>
    hne (h.owned.disjoint hp' hp hφ' (by simp) hd hm)
  have h0 : q'.i0 ≠ q.i0 := fun e => hd q'.head_mem (e ▸ q.head_mem)
  refine (h.device.made hp' hφ).congr (fun d hd' => ?_) ?_ ?_ ?_
  · have hm := hd hd'
    simp only [Req.idx, List.mem_cons, List.not_mem_nil, or_false, not_or] at hm
    simp only [format]
    rw [Function.update_of_ne hm.2.2, Function.update_of_ne hm.2.1, Function.update_of_ne hm.1]
  · exact Function.update_of_ne h0 _ _
  · simp only [format]
    rw [Function.update_of_ne h0]
  · exact Function.update_of_ne h0 _ _

theorem made_format (hnd : q.idx.Nodup) : Made (format s q) q := by
  simp only [Req.idx, List.nodup_cons, List.mem_cons, List.not_mem_nil, or_false, not_or] at hnd
  obtain ⟨⟨h01, h02⟩, h12, -⟩ := hnd
  constructor <;> simp [format, h01, h02, h12]

theorem Inv.format (h : Inv s) (hpc : s.pc p = .format q) : Inv ((Virtio.format s q).goto p (.ring q)) := by
  have hp : s.phase p = some (.new, q) := by rw [State.phase, hpc]; rfl
  have hph := phase_goto (Virtio.format s q) p (.ring q)
  have hb {p' : ℕ} {φ : Phase} {q' : Req} (hne : p' ≠ p) (hp' : s.phase p' = some (φ, q')) : q'.b ≠ q.b :=
    fun e => hne (h.owned.buf hp' hp e)
  have hdisk (p' : ℕ) (φ : Phase) (q' : Req) (hne : p' ≠ p) (hp' : s.phase p' = some (φ, q')) :
      Function.update s.disk q.b true q'.b = s.disk q'.b := Function.update_of_ne (hb hne hp') _ _
  refine ⟨h.stop, h.locks.next hpc rfl rfl rfl rfl rfl,
    h.owned.move hp hph (by simp) (by simp) fun _ => rfl,
    h.device.move hp hph (fun _ => (made_format (h.owned.nodup hp (by simp))).goto p _)
      (fun p' φ q' hne hp' hφ => (h.made_of_format hp hne hp' hφ).goto p _) rfl (by simp) hdisk (fun x hx => ?_) (by simp)
      (fun p' q' _ hp' => h.device.written hp') h.device.writing (fun _ => Function.update_self _ _ _) (by simp),
    h.history.move hp hph hdisk (fun _ => Iff.rfl) (by simp [Cleared]) (by simp [Served, Cleared]) rfl rfl rfl rfl⟩
  · have hx₀ : x ≠ q.i0 := fun e => h.not_mem_flight hp (by simp) (by simp)
      (e ▸ List.mem_append_right _ hx)
    change (Function.update s.info q.i0 _ x).status = 0
    rw [Function.update_of_ne hx₀]
    exact h.device.status x hx

theorem Inv.ring (h : Inv s) (hpc : s.pc p = .ring q) :
    Inv ({ s with avail := { s.avail with
      ring := Function.update s.avail.ring (s.avail.idx.toNat % NUM) q.i0 } }.goto p (.publish q)) := by
  have hp : s.phase p = some (.made, q) := by rw [State.phase, hpc]; rfl
  have hph := phase_goto { s with avail := { s.avail with
    ring := Function.update s.avail.ring (s.avail.idx.toNat % NUM) q.i0 } } p (.publish q)
  have havail : (s.avail.idx - s.seen).toNat < NUM :=
    (length_availQ_le s).trans_lt (h.length_flight_lt hp (by simp) (by simp))
  refine ⟨h.stop, h.locks.next hpc rfl rfl rfl rfl rfl,
    h.owned.move hp hph (by simp) (by simp) fun _ => rfl,
    h.device.move hp hph (fun _ => (h.device.made hp rfl).congr (fun _ _ => rfl) rfl rfl rfl)
      (fun p' φ q' _ hp' hφ => (h.device.made hp' hφ).congr (fun _ _ => rfl) rfl rfl rfl) ?_ (by simp)
      (fun _ _ _ _ _ => rfl) h.device.status (fun _ => Function.update_self _ _ _) (fun p' q' hne hp' => ?_)
      h.device.writing (fun _ => h.device.unposted hp (.inl rfl)) (by simp),
    h.history.move hp hph (fun _ _ _ _ _ => rfl) (fun _ => Iff.rfl) (by simp [Cleared])
      (by simp [Served, Cleared]) rfl rfl rfl rfl⟩
  · refine congrArg (fun l => l ++ s.fetched ++ done s) ?_
    exact content_update (by decide) _ havail _
  · -- Another process in the same section would hold the lock.
    exact absurd (h.locks.excl (by rw [hpc]; rfl) (holds_of_written hp')) hne

theorem Inv.publish (h : Inv s) (hpc : s.pc p = .publish q) :
    Inv ({ s with avail := { s.avail with idx := s.avail.idx + 1 } }.goto p (.wait q)) := by
  have hp : s.phase p = some (.written, q) := by rw [State.phase, hpc]; rfl
  have hph := phase_goto { s with avail := { s.avail with idx := s.avail.idx + 1 } } p (.wait q)
  have havail : (s.avail.idx - s.seen).toNat < NUM :=
    (length_availQ_le s).trans_lt (h.length_flight_lt hp (by simp) (by simp))
  have hdisk := h.device.unposted hp (.inr rfl)
  have hno := h.not_mem_flight hp (by simp) (by simp)
  have hQ : content NUM s.avail.ring s.seen (s.avail.idx + 1) = availQ s ++ [q.i0] := by
    rw [content_succ (by decide) _ havail (by decide), h.device.written hp]
    rfl
  refine ⟨h.stop, h.locks.next hpc rfl rfl rfl rfl rfl,
    h.owned.move hp hph (by simp) (by simp) fun _ => rfl, ?_,
    h.history.move hp hph (fun _ _ _ _ _ => rfl) (fun _ => Iff.rfl) ?_ ?_ rfl rfl rfl rfl⟩
  · have hflight : (availQ s ++ [q.i0] ++ s.fetched ++ done s).Perm (q.i0 :: flight s) := by
      rw [flight, List.append_assoc, List.append_assoc, List.append_assoc]
      exact List.perm_middle
    have hflight' : flight ({ s with avail := { s.avail with idx := s.avail.idx + 1 } }.goto p (.wait q)) =
        availQ s ++ [q.i0] ++ s.fetched ++ done s := congrArg (fun l => l ++ s.fetched ++ done s) hQ
    refine ⟨fun hp₁ hφ => ?_, ?_, fun x => ?_, h.device.status, fun hp₁ => ?_, h.device.writing,
      fun hp₁ hφ => ?_, fun hp₁ hφ => ?_⟩
    · obtain ⟨-, e⟩ | ⟨-, hp₁⟩ := phase_eq_of_update hph hp₁
      · cases e
        exact (h.device.made hp rfl).congr (fun _ _ => rfl) rfl rfl rfl
      · exact (h.device.made hp₁ hφ).congr (fun _ _ => rfl) rfl rfl rfl
    · rw [hflight', hflight.nodup_iff]
      exact List.nodup_cons.2 ⟨hno, h.device.nodup⟩
    · rw [hflight', hflight.mem_iff, List.mem_cons, h.device.mem, hph]
      constructor
      · rintro (rfl | ⟨p', q', hp', e⟩)
        · exact ⟨p, q, Function.update_self _ _ _, rfl, hdisk⟩
        · have hne : p' ≠ p := fun e => by
            rw [e, hp] at hp'
            cases hp'
          exact ⟨p', q', by rw [Function.update_of_ne hne]; exact hp', e⟩
      · rintro ⟨p', q', hp', e, hd⟩
        obtain ⟨-, e'⟩ | ⟨-, hp'⟩ := phase_eq_of_update hph (hph ▸ hp')
        · cases e'
          exact .inl e.symm
        · exact .inr ⟨p', q', hp', e, hd⟩
    · obtain ⟨-, e⟩ | ⟨hne, hp₁⟩ := phase_eq_of_update hph hp₁
      · cases e
      · exact absurd (h.locks.excl (by rw [hpc]; rfl) (holds_of_written hp₁)) hne
    · obtain ⟨-, e⟩ | ⟨-, hp₁⟩ := phase_eq_of_update hph hp₁
      · cases e
        simp at hφ
      · exact h.device.unposted hp₁ hφ
    · obtain ⟨-, e⟩ | ⟨-, hp₁⟩ := phase_eq_of_update hph hp₁
      · cases e
        simp at hφ
      · exact h.device.final hp₁ hφ
  · refine iff_of_false (fun hc => ?_) (by simp [Cleared])
    exact absurd (hdisk.symm.trans hc.2) (by simp)
  · refine iff_of_false (fun hs => ?_) (by simp [Served, Cleared])
    obtain hc | ⟨-, hm⟩ := hs
    · exact absurd (hdisk.symm.trans hc.2) (by simp)
    · exact hno (List.mem_append_right _ hm)

theorem Inv.wait (h : Inv s) (hpc : s.pc p = .wait q) (hd : s.disk q.b = false) :
    Inv (s.goto p (.finish q)) := by
  have hp : s.phase p = some (.posted, q) := by rw [State.phase, hpc]; rfl
  have hph := phase_goto s p (.finish q)
  refine ⟨h.stop, h.locks.next hpc rfl rfl rfl rfl rfl,
    h.owned.move hp hph (by simp) (by simp) fun _ => rfl,
    h.device.move hp hph (fun _ => (h.device.made hp rfl).goto p _)
      (fun p' φ q' _ hp' hφ => (h.device.made hp' hφ).goto p _) rfl (by simp [hd])
      (fun _ _ _ _ _ => rfl) h.device.status (by simp) (fun p' q' _ hp' => h.device.written hp')
      h.device.writing (by simp) (fun _ => hd),
    h.history.move hp hph (fun _ _ _ _ _ => rfl) (fun _ => Iff.rfl) ?_ ?_ rfl rfl rfl rfl⟩
  · exact iff_of_true ⟨by simp, hd⟩ ⟨by simp, hd⟩
  · exact iff_of_true (.inl ⟨by simp, hd⟩) (.inl ⟨by simp, hd⟩)

theorem Owned.drop (h : Owned s) (hp : s.phase p = some (φ, q)) (hφ : φ ≠ .ended)
    (hph : s'.phase = Function.update s.phase p (some (.ended, q)))
    (hfree : ∀ d, s'.table.free d = if d ∈ q.idx then true else s.table.free d) : Owned s' := by
  refine ⟨fun hp₁ hφ₁ d hd => ?_, fun hp₁ hφ₁ => ?_, fun hp₁ hp₂ hφ₁ hφ₂ hd hd' => ?_, fun d hd hbusy => ?_,
    fun hp₁ hp₂ hb => ?_⟩
  · obtain ⟨-, e⟩ | ⟨hne, hp₁⟩ := phase_eq_of_update hph hp₁
    · cases e
      exact absurd rfl hφ₁
    · rw [hfree, if_neg fun hm => hne (h.disjoint hp₁ hp hφ₁ hφ hd hm)]
      exact h.busy hp₁ hφ₁ d hd
  · obtain ⟨-, e⟩ | ⟨-, hp₁⟩ := phase_eq_of_update hph hp₁
    · cases e
      exact absurd rfl hφ₁
    · exact h.nodup hp₁ hφ₁
  · obtain ⟨-, e⟩ | ⟨-, hp₁⟩ := phase_eq_of_update hph hp₁
    · cases e
      exact absurd rfl hφ₁
    obtain ⟨-, e⟩ | ⟨-, hp₂⟩ := phase_eq_of_update hph hp₂
    · cases e
      exact absurd rfl hφ₂
    exact h.disjoint hp₁ hp₂ hφ₁ hφ₂ hd hd'
  · rw [hfree] at hbusy
    split_ifs at hbusy with hm
    obtain ⟨p', φ', q', hp', hφ', hd'⟩ := h.owner d hd hbusy
    have hne : p' ≠ p := fun e => by
      rw [e, hp] at hp'
      cases hp'
      exact hm hd'
    exact ⟨p', φ', q', by rw [hph, Function.update_of_ne hne]; exact hp', hφ', hd'⟩
  · obtain ⟨e₁, e⟩ | ⟨-, hp₁⟩ := phase_eq_of_update hph hp₁
    · cases e
      obtain ⟨e₂, -⟩ | ⟨-, hp₂⟩ := phase_eq_of_update hph hp₂
      · rw [e₁, e₂]
      · rw [e₁]
        exact h.buf hp hp₂ hb
    · obtain ⟨e₂, e⟩ | ⟨-, hp₂⟩ := phase_eq_of_update hph hp₂
      · cases e
        rw [e₂]
        exact h.buf hp₁ hp hb
      · exact h.buf hp₁ hp₂ hb

theorem Inv.finish (h : Inv s) (hpc : s.pc p = .finish q) :
    freeChain (NUM + 1) s.table q.i0 = .ok (s.table.putAll q) ∧
    Inv ({ s with
      table := s.table.putAll q
      info := Function.update s.info q.i0 { s.info q.i0 with b := none } }.goto p (.rwUnlock q)) := by
  have hp : s.phase p = some (.final, q) := by rw [State.phase, hpc]; rfl
  have hph := phase_goto { s with
    table := s.table.putAll q
    info := Function.update s.info q.i0 { s.info q.i0 with b := none } } p (.rwUnlock q)
  have hd := h.device.final hp (.inl rfl)
  have hmade {p' : ℕ} {φ : Phase} {q' : Req} (hne : p' ≠ p) (hp' : s.phase p' = some (φ, q'))
      (hφ : φ.formatted = true) : ∀ d ∈ q'.idx, d ∉ q.idx := fun d hd hm => by
    refine hne (h.owned.disjoint hp' hp (fun e => ?_) (by simp) hd hm)
    rw [e] at hφ
    cases hφ
  refine ⟨(h.device.made hp rfl).freeChain (h.owned.nodup hp (by simp)) (h.owned.busy hp (by simp)), h.stop,
    h.locks.next hpc rfl rfl rfl rfl rfl,
    h.owned.drop hp (by simp) hph (putAll_free _ _),
    h.device.move hp hph (by simp [Phase.formatted]) (fun p' φ q' hne hp' hφ => ?_) rfl (by simp)
      (fun _ _ _ _ _ => rfl) (fun x hx => ?_) (by simp) (fun p' q' _ hp' => h.device.written hp')
      h.device.writing (by simp) (fun _ => hd),
    h.history.move hp hph (fun _ _ _ _ _ => rfl) (fun _ => Iff.rfl) ?_ ?_ rfl rfl rfl rfl⟩
  · have hd := hmade hne hp' hφ
    have h0 : q'.i0 ≠ q.i0 := fun e => hd _ q'.head_mem (e ▸ q.head_mem)
    refine (h.device.made hp' hφ).congr (fun d hm => putAll_desc _ (hd d hm)) rfl ?_ rfl
    change (Function.update s.info q.i0 _ q'.i0).b = _
    rw [Function.update_of_ne h0]
  · have hx₀ : x ≠ q.i0 := fun e => h.not_mem_flight hp (by simp) (by simp)
      (e ▸ List.mem_append_right _ hx)
    change (Function.update s.info q.i0 _ x).status = 0
    rw [Function.update_of_ne hx₀]
    exact h.device.status x hx
  · exact iff_of_true ⟨by simp, hd⟩ ⟨by simp, hd⟩
  · exact iff_of_true (.inl ⟨by simp, hd⟩) (.inl ⟨by simp, hd⟩)

end Xv6.Virtio
