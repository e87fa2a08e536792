import Xv6.Virtio.Steps

/-!
# The request protocol

`virtio_disk_intr` and the device, and the invariant over whole runs.  A step of the device moves a head
from one part of `flight` to the next.
-/

namespace Xv6.Virtio

open Fifo Runs

variable {s s' : State} {p p' d h : ℕ} {pc : Pc} {φ φ' : Phase} {q q' : Req}

/-! ## The end of a call -/

theorem Inv.rwUnlock (h : Inv s) (hpc : s.pc p = .rwUnlock q) :
    Inv ({ s with returned := s.returned ++ [q] }.release p .idle) := by
  have hp : s.phase p = some (.ended, q) := by rw [State.phase, hpc]; rfl
  have hph := phase_goto { s with returned := s.returned ++ [q], lock := none } p .idle
  have hback {p' : ℕ} {φ : Phase} {q' : Req}
      (hp' : ({ s with returned := s.returned ++ [q] }.release p .idle).phase p' = some (φ, q')) :
      p' ≠ p ∧ s.phase p' = some (φ, q') := by
    obtain ⟨-, e⟩ | hp' := phase_eq_of_update hph hp'
    · cases e
    · exact hp'
  have hforth {p' : ℕ} {φ : Phase} {q' : Req} (hp' : s.phase p' = some (φ, q')) (hne : p' ≠ p) :
      ({ s with returned := s.returned ++ [q] }.release p .idle).phase p' = some (φ, q') := by
    refine (congrFun hph p').trans ?_
    rw [Function.update_of_ne hne]
    exact hp'
  have hd := h.device.final hp (.inr rfl)
  refine ⟨h.stop, h.locks.update rfl rfl (by simp [Pc.buf]) (.inr (.inr ⟨by rw [hpc]; rfl, rfl, rfl⟩)),
    h.owned.congr (fun _ => rfl) (fun p' φ' q' hp' => ⟨φ', (hback hp').2, id⟩) (fun p' φ q' hp' hφ => ?_),
    ⟨fun hp₁ hφ => ?_, h.device.nodup, fun x => ?_, h.device.status, fun hp₁ => h.device.written (hback hp₁).2,
      h.device.writing, fun hp₁ hφ => h.device.unposted (hback hp₁).2 hφ,
      fun hp₁ hφ => h.device.final (hback hp₁).2 hφ⟩, ?_⟩
  · have hne : p' ≠ p := fun e => by
      rw [e, hp] at hp'
      cases hp'
      exact hφ rfl
    exact ⟨φ, hforth hp' hne, hφ⟩
  · exact (h.device.made (hback hp₁).2 hφ).congr (fun _ _ => rfl) rfl rfl rfl
  · refine (h.device.mem x).trans ⟨?_, ?_⟩
    · rintro ⟨p', q', hp', e⟩
      have hne : p' ≠ p := fun e => by
        rw [e, hp] at hp'
        cases hp'
      exact ⟨p', q', hforth hp' hne, e⟩
    · rintro ⟨p', q', hp', e⟩
      exact ⟨p', q', (hback hp').2, e⟩
  · have hh := h.history
    refine ⟨fun hp₁ => hh.lt (hback hp₁).2, fun hp₁ hp₂ => hh.inj (hback hp₁).2 (hback hp₂).2, hh.old,
      fun hp₁ => hh.served (hback hp₁).2, fun hp₁ => hh.unserved (hback hp₁).2,
      fun hp₁ => hh.cleared (hback hp₁).2, fun hp₁ => hh.uncleared (hback hp₁).2, fun q' hq' => ?_, ?_⟩
    · obtain hq' | hq' := List.mem_append.1 hq'
      · obtain ⟨h₁, h₂, h₃⟩ := hh.returned q' hq'
        exact ⟨h₁, h₂, fun hp₁ => h₃ (hback hp₁).2⟩
      · obtain rfl := List.mem_singleton.1 hq'
        have hc : Cleared s .ended q' := ⟨by simp, hd⟩
        exact ⟨hh.served hp (.inl hc), hh.cleared hp hc,
          fun hp₁ e => (hback hp₁).1 (hh.inj (hback hp₁).2 hp e)⟩
    · change ((s.returned ++ [q]).map Req.id).Nodup
      rw [List.map_append, List.map_singleton]
      refine (List.perm_append_singleton _ _).nodup_iff.2 (List.nodup_cons.2 ⟨fun hm => ?_, hh.nodup⟩)
      obtain ⟨q', hq', e⟩ := List.mem_map.1 hm
      exact (hh.returned q' hq').2.2 hp e.symm

/-- One request gets further with the device or with `virtio_disk_intr`. -/
theorem History.advance (h : History s) (hph : s'.phase = s.phase) (hp : s.phase p = some (φ, q))
    (hother : ∀ p' φ' q', s.phase p' = some (φ', q') → p' ≠ p →
      (Cleared s' φ' q' ↔ Cleared s φ' q') ∧ (Served s' φ' q' ↔ Served s φ' q'))
    (hfor : ∀ id ≠ q.id, servedFor s' id = servedFor s id)
    (hcount : ∀ id ≠ q.id, s'.cleared.count id = s.cleared.count id)
    (hserved : Served s' φ q ∧ servedFor s' q.id = [(q.id, q.transfer)])
    (hcleared : Cleared s' φ q ∧ s'.cleared.count q.id = 1 ∨ ¬ Cleared s' φ q ∧ s'.cleared.count q.id = 0)
    (hid : s'.nextId = s.nextId) (hret : s'.returned = s.returned) : History s' := by
  have hsplit {p' : ℕ} {φ' : Phase} {q' : Req} (hp' : s'.phase p' = some (φ', q')) :
      φ' = φ ∧ q' = q ∨ p' ≠ p ∧ s.phase p' = some (φ', q') ∧ q'.id ≠ q.id := by
    rw [hph] at hp'
    by_cases e : p' = p
    · rw [e, hp] at hp'
      cases hp'
      exact .inl ⟨rfl, rfl⟩
    · exact .inr ⟨e, hp', fun e' => e (h.inj hp' hp e')⟩
  refine ⟨fun hp' => hid ▸ h.lt (hph ▸ hp'), fun hp₁ hp₂ => h.inj (hph ▸ hp₁) (hph ▸ hp₂), fun id hle => ?_,
    fun hp' hs => ?_, fun hp' hs => ?_, fun hp' hs => ?_, fun hp' hs => ?_, fun q' hq' => ?_,
    by rw [hret]; exact h.nodup⟩
  · have hne : id ≠ q.id := by
      have := h.lt hp
      omega
    rw [hfor id hne, hcount id hne]
    exact h.old id (hid ▸ hle)
  · obtain ⟨-, rfl⟩ | ⟨e, hp', hne⟩ := hsplit hp'
    · exact hserved.2
    · rw [hfor _ hne]
      exact h.served hp' ((hother _ _ _ hp' e).2.1 hs)
  · obtain ⟨rfl, rfl⟩ | ⟨e, hp', hne⟩ := hsplit hp'
    · exact absurd hserved.1 hs
    · rw [hfor _ hne]
      exact h.unserved hp' fun e' => hs ((hother _ _ _ hp' e).2.2 e')
  · obtain ⟨rfl, rfl⟩ | ⟨e, hp', hne⟩ := hsplit hp'
    · exact hcleared.elim And.right fun hc => absurd hs hc.1
    · rw [hcount _ hne]
      exact h.cleared hp' ((hother _ _ _ hp' e).1.1 hs)
  · obtain ⟨rfl, rfl⟩ | ⟨e, hp', hne⟩ := hsplit hp'
    · exact hcleared.elim (fun hc => absurd hc.1 hs) And.right
    · rw [hcount _ hne]
      exact h.uncleared hp' fun e' => hs ((hother _ _ _ hp' e).1.2 e')
  · rw [hret] at hq'
    obtain ⟨h₁, h₂, h₃⟩ := h.returned q' hq'
    have hne : q'.id ≠ q.id := fun e => h₃ hp e.symm
    rw [hfor _ hne, hcount _ hne]
    exact ⟨h₁, h₂, fun hp' => h₃ (hph ▸ hp')⟩

/-! ## `virtio_disk_intr` -/

theorem mem_flight_of_done {x : ℕ} (hx : x ∈ done s) : x ∈ flight s := List.mem_append_right _ hx

/-- The first entry of the `used` ring is that of a request whose buffer has `disk` set. -/
theorem Inv.first_used (h : Inv s) (hne : s.usedIdx ≠ s.used.idx) (p : ℕ) :
    ∃ p₁ q₁, s.phase p₁ = some (.posted, q₁) ∧ s.disk q₁.b = true ∧
      intrEntry s p = { s with
        disk := Function.update s.disk q₁.b false
        usedIdx := s.usedIdx + 1
        cleared := s.cleared ++ [q₁.id] }.goto p .intrLoop ∧
      usedQ s = q₁.i0 :: content NUM s.used.ring (s.usedIdx + 1) s.used.idx := by
  have hQ : usedQ s = _ := content_of_ne (by decide) s.used.ring hne
  have hmem : s.used.ring (s.usedIdx.toNat % NUM) ∈ done s := by
    rw [done, hQ]
    simp
  obtain ⟨p₁, q₁, hp₁, e, hd⟩ := h.of_mem_flight (mem_flight_of_done hmem)
  have hmade := h.device.made hp₁ rfl
  refine ⟨p₁, q₁, hp₁, hd, ?_, by rw [hQ, e]⟩
  simp only [intrEntry]
  rw [if_neg (not_not.2 (h.device.status _ hmem)), ← e, hmade.b, hmade.tag]

/-- `b->disk` is cleared for the first entry of the `used` ring. -/
theorem Inv.clear (h : Inv s) {p₁ : ℕ} {q₁ : Req} (hp₁ : s.phase p₁ = some (.posted, q₁))
    (hd : s.disk q₁.b = true)
    (hQ : usedQ s = q₁.i0 :: content NUM s.used.ring (s.usedIdx + 1) s.used.idx) :
    Inv { s with
      disk := Function.update s.disk q₁.b false
      usedIdx := s.usedIdx + 1
      cleared := s.cleared ++ [q₁.id] } := by
  obtain ⟨s', hs'⟩ : ∃ s', s' = { s with
      disk := Function.update s.disk q₁.b false
      usedIdx := s.usedIdx + 1
      cleared := s.cleared ++ [q₁.id] } := ⟨_, rfl⟩
  have hph : s'.phase = s.phase := by rw [hs']; rfl
  have hdone : (done s).Perm (q₁.i0 :: done s') := by
    rw [done, hQ, hs']
    exact List.perm_middle
  have hflight : (flight s).Perm (q₁.i0 :: flight s') := by
    have hpre : flight s' = availQ s ++ s.fetched ++ done s' := by rw [hs']; rfl
    rw [hpre, flight]
    exact (hdone.append_left _).trans List.perm_middle
  have hnd := (hflight.nodup_iff.1 h.device.nodup)
  have hdisk {p' : ℕ} {φ : Phase} {q' : Req} (hp' : s.phase p' = some (φ, q')) (hne : p' ≠ p₁) :
      s'.disk q'.b = s.disk q'.b := by
    rw [hs']
    exact Function.update_of_ne (fun e => hne (h.owned.buf hp' hp₁ e)) _ _
  have hself : s'.disk q₁.b = false := by rw [hs']; exact Function.update_self _ _ _
  have heads {p' : ℕ} {q' : Req} (hp' : s.phase p' = some (.posted, q')) (hne : p' ≠ p₁) : q'.i0 ≠ q₁.i0 :=
    fun e => hne (h.owned.disjoint hp' hp₁ (by simp) (by simp) q'.head_mem (e ▸ q₁.head_mem))
  have hsame {p' : ℕ} {q' : Req} {φ : Phase} (hp' : s.phase p' = some (φ, q')) (hφ : φ ≠ .posted) : p' ≠ p₁ :=
    fun e => by
      rw [e, hp₁] at hp'
      cases hp'
      exact hφ rfl
  rw [← hs']
  refine ⟨by rw [hs']; exact h.stop, by rw [hs']; exact ⟨h.locks.lock, h.locks.buf⟩,
    h.owned.congr (fun d => by rw [hs']) (fun p φ q hp => ⟨φ, hph ▸ hp, id⟩)
      (fun p φ q hp hφ => ⟨φ, hph ▸ hp, hφ⟩), ?_, ?_⟩
  · refine ⟨fun hp hφ => ?_, (List.nodup_cons.1 hnd).2, fun x => ?_, fun x hx => ?_, fun hp => ?_, fun x hx => ?_,
      fun hp hφ => ?_, fun hp hφ => ?_⟩
    · rw [hs']
      exact (h.device.made (hph ▸ hp) hφ).congr (fun _ _ => rfl) rfl rfl rfl
    · have hx : x ∈ flight s' ↔ x ∈ flight s ∧ x ≠ q₁.i0 := by
        rw [hflight.mem_iff, List.mem_cons]
        constructor
        · exact fun hx => ⟨.inr hx, fun e => (List.nodup_cons.1 hnd).1 (e ▸ hx)⟩
        · rintro ⟨hx | hx, hne⟩
          · exact absurd hx hne
          · exact hx
      rw [hx, h.device.mem, hph]
      constructor
      · rintro ⟨⟨p', q', hp', e, hd'⟩, hne⟩
        have hne' : p' ≠ p₁ := fun e' => by
          rw [e', hp₁] at hp'
          cases hp'
          exact hne e.symm
        exact ⟨p', q', hp', e, by rw [hdisk hp' hne', hd']⟩
      · rintro ⟨p', q', hp', rfl, hd'⟩
        have hne : p' ≠ p₁ := fun e => by
          rw [e, hp₁] at hp'
          cases hp'
          rw [hself] at hd'
          cases hd'
        exact ⟨⟨p', q', hp', rfl, by rw [← hdisk hp' hne, hd']⟩, heads hp' hne⟩
    · rw [hs']
      exact h.device.status x (hdone.mem_iff.2 (List.mem_cons_of_mem _ hx))
    · rw [hs']
      exact h.device.written (hph ▸ hp)
    · rw [hs'] at hx ⊢
      exact h.device.writing x hx
    · rw [hph] at hp
      rw [hdisk hp (hsame hp (by rintro rfl; simp at hφ))]
      exact h.device.unposted hp hφ
    · rw [hph] at hp
      rw [hdisk hp (hsame hp (by rintro rfl; simp at hφ))]
      exact h.device.final hp hφ
  · have hc : ¬ Cleared s .posted q₁ := fun hc => absurd (hd.symm.trans hc.2) (by simp)
    have hsrv : Served s .posted q₁ := .inr ⟨rfl, hdone.mem_iff.2 (by simp)⟩
    have hcl : s'.cleared = s.cleared ++ [q₁.id] := by rw [hs']
    refine h.history.advance hph hp₁ (fun p' φ' q' hp' hne => ?_) (fun id _ => by rw [hs']; rfl)
      (fun id hne => ?_) ⟨.inl ⟨by simp, hself⟩, ?_⟩ (.inl ⟨⟨by simp, hself⟩, ?_⟩) (by rw [hs']) (by rw [hs'])
    · have hC : Cleared s' φ' q' ↔ Cleared s φ' q' := by rw [Cleared, Cleared, hdisk hp' hne]
      refine ⟨hC, or_congr hC (and_congr_right ?_)⟩
      rintro rfl
      rw [hdone.mem_iff, List.mem_cons, or_iff_right (heads hp' hne)]
    · rw [hcl, List.count_append, List.count_singleton, if_neg (by simpa using hne.symm), Nat.add_zero]
    · rw [show servedFor s' q₁.id = servedFor s q₁.id by rw [hs']; rfl]
      exact h.history.served hp₁ hsrv
    · rw [hcl, List.count_append, List.count_singleton, h.history.uncleared hp₁ hc]
      simp

/-! ## The device -/

/-- The state with other device data. -/
def State.withDevice (s : State) (used : Ring) (seen : BitVec 16) (fetched performed : List ℕ)
    (writing : Option ℕ) : State :=
  { s with
    used := used
    seen := seen
    fetched := fetched
    performed := performed
    writing := writing }

/-- The device moves a head on. -/
theorem Inv.move_head (h : Inv s) {used : Ring} {seen : BitVec 16} {fetched performed : List ℕ}
    {writing : Option ℕ}
    (hflight : (flight (s.withDevice used seen fetched performed writing)).Perm (flight s))
    (hdone : ∀ x, x ∈ done (s.withDevice used seen fetched performed writing) ↔ x ∈ done s)
    (hwriting : ∀ x, writing = some x → used.ring (used.idx.toNat % NUM) = x) :
    Inv (s.withDevice used seen fetched performed writing) := by
  refine ⟨h.stop, ⟨h.locks.lock, h.locks.buf⟩,
    h.owned.congr (fun _ => rfl) (fun p φ q hp => ⟨φ, hp, id⟩) (fun p φ q hp hφ => ⟨φ, hp, hφ⟩),
    ⟨fun hp hφ => (h.device.made hp hφ).congr (fun _ _ => rfl) rfl rfl rfl, ?_, fun x => ?_, fun x hx => ?_,
      h.device.written, hwriting, h.device.unposted, h.device.final⟩,
    h.history.congr (fun p φ q hp => ⟨φ, hp, Iff.rfl, ?_⟩) rfl rfl rfl rfl⟩
  · exact hflight.nodup_iff.2 h.device.nodup
  · rw [hflight.mem_iff]
    exact h.device.mem x
  · exact h.device.status x ((hdone x).1 hx)
  · exact or_congr Iff.rfl (and_congr_right fun _ => hdone _)

theorem Inv.fetch (h : Inv s) (hne : s.seen ≠ s.avail.idx) :
    Inv (s.withDevice s.used (s.seen + 1) (s.fetched ++ [s.avail.ring (s.seen.toNat % NUM)]) s.performed
      s.writing) := by
  have hQ : availQ s = _ := content_of_ne (by decide) s.avail.ring hne
  refine h.move_head ?_ (fun _ => Iff.rfl) h.device.writing
  rw [flight, flight, hQ]
  refine List.Perm.append_right _ ?_
  rw [List.cons_append]
  exact (List.perm_append_singleton _ _).symm.trans (List.Perm.of_eq (List.append_assoc _ _ _)) |>.symm

theorem Inv.used_lt (h : Inv s) (hx : 0 < s.performed.length + s.writing.toList.length) :
    (s.used.idx - s.usedIdx).toNat < NUM := by
  have := length_usedQ_le s
  have := h.length_flight_le
  omega

theorem Inv.put (h : Inv s) {x : ℕ} (hx : x ∈ s.performed) (hw : s.writing = none) :
    Inv (s.withDevice { s.used with ring := Function.update s.used.ring (s.used.idx.toNat % NUM) x } s.seen
      s.fetched (s.performed.erase x) (some x)) := by
  have hlen : 0 < s.performed.length + s.writing.toList.length :=
    Nat.add_pos_left (List.length_pos_of_mem hx) _
  have hQ : usedQ (s.withDevice { s.used with ring := Function.update s.used.ring (s.used.idx.toNat % NUM) x }
      s.seen s.fetched (s.performed.erase x) (some x)) = usedQ s :=
    content_update (by decide) _ (h.used_lt hlen) _
  have hdone : (done (s.withDevice
      { s.used with ring := Function.update s.used.ring (s.used.idx.toNat % NUM) x } s.seen s.fetched
      (s.performed.erase x) (some x))).Perm (done s) := by
    rw [done, done, hQ, hw]
    refine List.Perm.append_right _ ?_
    rw [Option.toList_none, List.append_nil]
    exact (List.perm_append_singleton _ _).trans (List.perm_cons_erase hx).symm
  exact h.move_head (hdone.append_left _) (fun _ => hdone.mem_iff)
    fun y hy => by rw [← Option.some.inj hy]; exact Function.update_self _ _ _

theorem Inv.complete (h : Inv s) {x : ℕ} (hw : s.writing = some x) :
    Inv (s.withDevice { s.used with idx := s.used.idx + 1 } s.seen s.fetched s.performed none) := by
  have hlen : 0 < s.performed.length + s.writing.toList.length := by
    rw [hw]
    exact Nat.succ_pos _
  have hQ : usedQ (s.withDevice { s.used with idx := s.used.idx + 1 } s.seen s.fetched s.performed none) =
      usedQ s ++ [x] := by
    have hsucc := content_succ (by decide) s.used.ring (h.used_lt hlen) (by decide)
    rw [h.device.writing x hw] at hsucc
    exact hsucc
  have hdone : (done (s.withDevice { s.used with idx := s.used.idx + 1 } s.seen s.fetched s.performed
      none)).Perm (done s) := by
    rw [done, done, hQ, hw, List.append_assoc, List.append_assoc]
    refine List.Perm.append_left _ ?_
    change (usedQ s ++ [x]).Perm ([x] ++ usedQ s)
    exact List.perm_append_comm
  exact h.move_head (hdone.append_left _) (fun _ => hdone.mem_iff) fun y hy => by cases hy

/-- The device performs the request whose head it has read: that of its caller. -/
theorem Inv.perform (h : Inv s) {x : ℕ} (hx : x ∈ s.fetched) : Inv (Virtio.perform s x) := by
  have hmem : x ∈ flight s := List.mem_append_left _ (List.mem_append_right _ hx)
  obtain ⟨p₁, q₁, hp₁, rfl, hd⟩ := h.of_mem_flight hmem
  have hmade := h.device.made hp₁ rfl
  have hs' : Virtio.perform s q₁.i0 = { s with
      fetched := s.fetched.erase q₁.i0
      performed := s.performed ++ [q₁.i0]
      info := Function.update s.info q₁.i0 { s.info q₁.i0 with status := 0 }
      served := s.served ++ [(q₁.id, q₁.transfer)] } := by
    simp only [Virtio.perform, hmade.desc0, hmade.desc1, hmade.desc2, hmade.op, hmade.tag]
    rfl
  obtain ⟨s', hs⟩ : ∃ s', s' = Virtio.perform s q₁.i0 := ⟨_, rfl⟩
  rw [← hs]
  rw [hs'] at hs
  have hph : s'.phase = s.phase := by rw [hs]; rfl
  have hdone : (done s').Perm (q₁.i0 :: done s) := by
    rw [hs, done, done]
    change (s.performed ++ [q₁.i0] ++ s.writing.toList ++ usedQ s).Perm _
    rw [List.append_assoc, List.append_assoc, List.append_assoc]
    exact List.perm_middle
  have hflight : (flight s').Perm (flight s) := by
    have hpre : flight s' = availQ s ++ s.fetched.erase q₁.i0 ++ done s' := by rw [hs]; rfl
    rw [hpre, flight, List.append_assoc, List.append_assoc]
    refine List.Perm.append_left _ ?_
    refine ((hdone.append_left _).trans List.perm_middle).trans ?_
    exact ((List.perm_cons_erase hx).append_right _).symm
  have hno : q₁.i0 ∉ done s := fun hm => by
    have hnd := h.device.nodup
    rw [flight, List.append_assoc] at hnd
    exact List.disjoint_of_nodup_append (List.Nodup.of_append_right hnd) hx hm
  have hC (φ : Phase) (q : Req) : Cleared s' φ q ↔ Cleared s φ q := by rw [hs]; rfl
  have hc : ¬ Cleared s .posted q₁ := fun hc => absurd (hd.symm.trans hc.2) (by simp)
  refine ⟨by rw [hs]; exact h.stop, by rw [hs]; exact ⟨h.locks.lock, h.locks.buf⟩,
    h.owned.congr (fun d => by rw [hs]) (fun p φ q hp => ⟨φ, hph ▸ hp, id⟩)
      (fun p φ q hp hφ => ⟨φ, hph ▸ hp, hφ⟩),
    ⟨fun hp hφ => ?_, hflight.nodup_iff.2 h.device.nodup, fun x => ?_, fun x hx => ?_, fun hp => ?_,
      fun x hx => ?_, fun hp hφ => ?_, fun hp hφ => ?_⟩,
    h.history.advance hph hp₁ (fun p' φ' q' hp' hne => ⟨hC _ _, ?_⟩) (fun id hne => ?_) (fun id _ => by rw [hs])
      ⟨.inr ⟨rfl, hdone.mem_iff.2 (by simp)⟩, ?_⟩
      (.inr ⟨fun e => hc ((hC _ _).1 e), by rw [hs]; exact h.history.uncleared hp₁ hc⟩) (by rw [hs]) (by rw [hs])⟩
  · rw [hs]
    refine (h.device.made (hph ▸ hp) hφ).congr (fun _ _ => rfl) rfl ?_ rfl
    simp only [Function.update_apply]
    split_ifs with e
    · rw [e]
    · rfl
  · rw [hflight.mem_iff, h.device.mem, hph, hs]
  · rw [hs]
    simp only [Function.update_apply]
    split_ifs with e
    · rfl
    · exact h.device.status x (((List.mem_cons.1 (hdone.mem_iff.1 hx)).resolve_left e))
  · rw [hs]
    exact h.device.written (hph ▸ hp)
  · rw [hs] at hx ⊢
    exact h.device.writing x hx
  · rw [hs]
    exact h.device.unposted (hph ▸ hp) hφ
  · rw [hs]
    exact h.device.final (hph ▸ hp) hφ
  · refine or_congr (hC _ _) (and_congr_right ?_)
    rintro rfl
    have hne' : q'.i0 ≠ q₁.i0 := fun e =>
      hne (h.owned.disjoint hp' hp₁ (by simp) (by simp) q'.head_mem (e ▸ q₁.head_mem))
    rw [hdone.mem_iff, List.mem_cons, or_iff_right hne']
  · rw [hs, servedFor, servedFor, List.filter_append, List.filter_singleton]
    simp [hne.symm]
  · have hbefore := h.history.unserved hp₁ fun e => e.elim hc fun e => hno e.2
    rw [servedFor] at hbefore
    rw [hs, servedFor, List.filter_append, hbefore]
    simp

/-! ## Every step -/

/-- In the body of the loop of `virtio_disk_intr` there is an entry to read. -/
def Entry (s : State) : Prop := ∀ p, s.pc p = .intrEntry → s.usedIdx ≠ s.used.idx

theorem Entry.goto (he : Entry s) (hpc : s'.pc = Function.update s.pc p pc) (hused : s'.used.idx = s.used.idx)
    (hidx : s'.usedIdx = s.usedIdx) (hnew : pc = .intrEntry → s.usedIdx ≠ s.used.idx) : Entry s' := by
  intro p' hp'
  rw [hused, hidx]
  rw [hpc] at hp'
  by_cases e : p' = p
  · rw [e, Function.update_self] at hp'
    exact hnew hp'
  · rw [Function.update_of_ne e] at hp'
    exact he p' hp'

theorem Entry.same (he : Entry s) (hpc : s'.pc = s.pc) (hused : s'.used.idx = s.used.idx)
    (hidx : s'.usedIdx = s.usedIdx) : Entry s' := fun p hp => by
  rw [hused, hidx]
  exact he p (hpc ▸ hp)

theorem acquire_eq_some (hs : s.acquire p pc = some s') : s' = { s with lock := some p }.goto p pc := by
  unfold State.acquire at hs
  split_ifs at hs
  exact (Option.some.inj hs).symm

theorem go_keeps (h : Inv s) (he : Entry s) (hs : go s p = some s') : Inv s' ∧ Entry s' := by
  have hgoto {pc : Pc} {t : State} (ht : t.pc = Function.update s.pc p pc) (hused : t.used.idx = s.used.idx)
      (hidx : t.usedIdx = s.usedIdx) (hne : pc ≠ .intrEntry) : Entry t :=
    he.goto ht hused hidx fun e => absurd e hne
  unfold Virtio.go at hs
  cases hpc : s.pc p <;> rw [hpc] at hs <;> simp only [] at hs
  case idle => cases hs
  case rwLock | waitLock | intrLock =>
    refine ⟨h.acquire hs rfl (by rw [hpc]; rfl) (by rw [hpc]; rfl), ?_⟩
    rw [acquire_eq_some hs]
    exact hgoto rfl rfl rfl (by simp)
  case alloc c =>
    obtain ⟨t, ht, hfree, hdesc⟩ | ⟨i0, i1, i2, ht, hnd, hidx⟩ := alloc3Desc_cases s.table
    · rw [ht] at hs
      cases hs
      refine ⟨(h.setTable hfree hdesc).release ?_ rfl ?_ fun b hb => ?_, hgoto rfl rfl rfl (by simp)⟩
      · change (s.pc p).holds = true
        rw [hpc]
        rfl
      · change _ = (s.pc p).phase
        rw [hpc]
        rfl
      · refine h.locks.buf p b ?_
        rw [hpc]
        exact hb
    · rw [ht] at hs
      cases hs
      exact ⟨h.alloc hpc hnd hidx, hgoto rfl rfl rfl (by simp)⟩
  case format q =>
    cases hs
    exact ⟨h.format hpc, hgoto rfl rfl rfl (by simp)⟩
  case ring q =>
    cases hs
    exact ⟨h.ring hpc, hgoto rfl rfl rfl (by simp)⟩
  case publish q =>
    cases hs
    exact ⟨h.publish hpc, hgoto rfl rfl rfl (by simp)⟩
  case wait q =>
    split_ifs at hs with hd <;> cases hs
    · refine ⟨h.release (by rw [hpc]; rfl) rfl (by rw [hpc]; rfl) fun b hb => h.locks.buf p b ?_,
        hgoto rfl rfl rfl (by simp)⟩
      rw [hpc]
      exact hb
    · exact ⟨h.wait hpc (by simpa using hd), hgoto rfl rfl rfl (by simp)⟩
  case finish q =>
    obtain ⟨hfree, hinv⟩ := h.finish hpc
    simp only [hfree] at hs
    cases hs
    exact ⟨hinv, hgoto rfl rfl rfl (by simp)⟩
  case rwUnlock q =>
    cases hs
    exact ⟨h.rwUnlock hpc, hgoto rfl rfl rfl (by simp)⟩
  case intrLoop =>
    cases hs
    split_ifs with hne
    · exact ⟨h.goto (by rw [hpc]; rfl) (by rw [hpc]; rfl) (by simp [Pc.buf]), hgoto rfl rfl rfl (by simp)⟩
    · exact ⟨h.goto (by rw [hpc]; rfl) (by rw [hpc]; rfl) (by simp [Pc.buf]), he.goto rfl rfl rfl fun _ => hne⟩
  case intrEntry =>
    obtain ⟨p₁, q₁, hp₁, hd, hentry, hQ⟩ := h.first_used (he p hpc) p
    rw [hentry] at hs
    cases hs
    refine ⟨(h.clear hp₁ hd hQ).goto ?_ ?_ (by simp [Pc.buf]), fun p' hp' => ?_⟩
    · change _ = (s.pc p).holds
      rw [hpc]
      rfl
    · change _ = (s.pc p).phase
      rw [hpc]
      rfl
    · -- No other process is in the loop.
      have hne : p' ≠ p := fun e => by
        rw [e] at hp'
        simp [State.goto] at hp'
      simp only [State.goto, Function.update_of_ne hne] at hp'
      exact absurd (h.locks.excl (by rw [hpc]; rfl) (by rw [hp']; rfl)) hne
  case intrUnlock =>
    cases hs
    exact ⟨h.release (by rw [hpc]; rfl) rfl (by rw [hpc]; rfl) (by simp [Pc.buf]), hgoto rfl rfl rfl (by simp)⟩

/-- The lock of a buffer that no request uses changes its owner. -/
theorem Inv.setBufLock (h : Inv s) {b : ℕ} (o : Option ℕ) (hb : ∀ p', (s.pc p').buf ≠ some b) :
    Inv { s with bufLock := Function.update s.bufLock b o } := by
  refine h.of_locks ⟨h.locks.lock, fun p' b' hb' => ?_⟩ fun _ => rfl
  have hne : b' ≠ b := fun e => hb p' (e ▸ hb')
  exact (Function.update_of_ne hne _ _).trans (h.locks.buf p' b' hb')

theorem step_keeps {e : Event} (h : Inv s) (he : Entry s) (hs : step s e = some s') : Inv s' ∧ Entry s' := by
  unfold Virtio.step at hs
  rw [if_neg (not_not.2 h.stop)] at hs
  cases e <;> simp only [] at hs
  case lockBuf p b =>
    split at hs
    next hpc =>
      split_ifs at hs with hb
      cases hs
      refine ⟨h.setBufLock _ fun p' hp' => ?_, he.same rfl rfl rfl⟩
      have hl := h.locks.buf p' b hp'
      rw [hb] at hl
      cases hl
    next => cases hs
  case unlockBuf p b =>
    split at hs
    next hpc =>
      split_ifs at hs with hb
      cases hs
      refine ⟨h.setBufLock _ fun p' hp' => ?_, he.same rfl rfl rfl⟩
      have hl := h.locks.buf p' b hp'
      rw [hb] at hl
      rw [← Option.some.inj hl, hpc] at hp'
      cases hp'
    next => cases hs
  case call p c =>
    split at hs
    next hpc =>
      split_ifs at hs with hb
      cases hs
      refine ⟨h.goto (by rw [hpc]; rfl) (by rw [hpc]; rfl) fun b hb' => ?_, he.goto rfl rfl rfl (by simp)⟩
      cases hb'
      exact hb
    next => cases hs
  case intr p =>
    split at hs
    next hpc =>
      cases hs
      exact ⟨h.goto (by rw [hpc]; rfl) (by rw [hpc]; rfl) (by simp [Pc.buf]), he.goto rfl rfl rfl (by simp)⟩
    next => cases hs
  case go p => exact go_keeps h he hs
  case fetch =>
    split_ifs at hs with hne
    cases hs
    exact ⟨h.fetch hne, he.same rfl rfl rfl⟩
  case perform x =>
    split_ifs at hs with hx
    cases hs
    refine ⟨h.perform hx, ?_⟩
    simp only [perform]
    split <;> exact he.same rfl rfl rfl
  case put x =>
    split_ifs at hs with hx
    cases hs
    exact ⟨h.put hx.1 hx.2, he.same rfl rfl rfl⟩
  case complete =>
    split_ifs at hs with hw
    cases hs
    obtain ⟨x, hx⟩ := Option.ne_none_iff_exists'.1 hw
    refine ⟨h.complete hx, fun p _ e => ?_⟩
    have hlt := h.used_lt (by rw [hx]; exact Nat.succ_pos _)
    dsimp only at e
    rw [e, show s.used.idx - (s.used.idx + 1) = -1 by abel] at hlt
    exact absurd hlt (by decide)

theorem inv_initial (desc : ℕ → Desc) (info : ℕ → Info) (ops : ℕ → Op) : Inv (.initial desc info ops) := by
  have hnone {p : ℕ} {x : Phase × Req} (hx : (State.initial desc info ops).phase p = some x) : False := by
    cases hx
  have hdone : done (.initial desc info ops) = [] := by
    simp [done, usedQ, State.initial, content_self]
  have hflight : flight (.initial desc info ops) = [] := by
    rw [flight, hdone]
    simp [availQ, State.initial, content_self]
  refine ⟨rfl, ⟨fun p => by simp [State.initial, Pc.holds], fun p b hb => (by cases hb)⟩,
    ⟨fun hp => (hnone hp).elim, fun hp => (hnone hp).elim, fun hp => (hnone hp).elim, fun d hd hb => ?_,
      fun hp => (hnone hp).elim⟩,
    ⟨fun hp => (hnone hp).elim, ?_, fun x => ?_, fun x hx => ?_, fun hp => (hnone hp).elim,
      fun x hx => (by cases hx), fun hp => (hnone hp).elim, fun hp => (hnone hp).elim⟩,
    ⟨fun hp => (hnone hp).elim, fun hp => (hnone hp).elim, fun _ _ => ⟨rfl, rfl⟩,
      fun hp => (hnone hp).elim, fun hp => (hnone hp).elim, fun hp => (hnone hp).elim,
      fun hp => (hnone hp).elim, fun q hq => (by cases hq), List.nodup_nil⟩⟩
  · simp [State.initial, hd] at hb
  · rw [hflight]
    exact List.nodup_nil
  · rw [hflight]
    refine iff_of_false List.not_mem_nil ?_
    rintro ⟨p, q, hp, -⟩
    exact hnone hp
  · rw [hdone] at hx
    cases hx

theorem inv_run {desc : ℕ → Desc} {info : ℕ → Info} {ops : ℕ → Op} {es : List Event}
    (hrun : run step (.initial desc info ops) es = some s) : Inv s ∧ Entry s := by
  exact run_induction (fun _ _ _ h hs => step_keeps h.1 h.2 hs) ⟨inv_initial desc info ops, fun p hp => by cases hp⟩ hrun

/-! ## The protocol -/

/-- The process has descriptors for the request: from `alloc3_desc` to `free_chain`. -/
def InFlight (s : State) (p : ℕ) (q : Req) : Prop := ∃ φ, s.phase p = some (φ, q) ∧ φ ≠ .ended

/-- In every state that processes, interrupts and the device can reach: the kernel has not stopped; the
descriptors of requests are distinct, disjoint and not free, and all others are free; a request that has
returned was performed once, with its buffer, direction and sector, and was cleared once;
`virtio_disk_intr` clears `disk` of one buffer of a request, where it was set; the device overwrites no
entry that the driver has not read; and the end of a request frees its descriptors and no others. -/
theorem virtio_protocol {desc : ℕ → Desc} {info : ℕ → Info} {ops : ℕ → Op} {es : List Event} {s : State}
    (hrun : run step (.initial desc info ops) es = some s) :
    s.stop = none ∧
    (∀ p q, InFlight s p q → q.idx.Nodup ∧ (∀ d ∈ q.idx, d < NUM ∧ s.table.free d = false) ∧
      s.cleared.count q.id ≤ 1 ∧
      ∀ p' q', InFlight s p' q' → p' ≠ p → q'.idx.Disjoint q.idx) ∧
    (∀ d < NUM, s.table.free d = false → ∃ p q, InFlight s p q ∧ d ∈ q.idx) ∧
    (s.returned.map Req.id).Nodup ∧
    (∀ q ∈ s.returned, servedFor s q.id = [(q.id, q.transfer)] ∧ s.cleared.count q.id = 1) ∧
    (∀ p s', s.pc p = .intrEntry → step s (.go p) = some s' →
      ∃ p' q, InFlight s p' q ∧ s.disk q.b = true ∧ s'.disk = Function.update s.disk q.b false ∧
        servedFor s q.id = [(q.id, q.transfer)] ∧ s'.cleared = s.cleared ++ [q.id]) ∧
    (∀ x s', step s (.put x) = some s' → usedQ s' = usedQ s) ∧
    ∀ p q s', s.pc p = .finish q → step s (.go p) = some s' →
      s'.stop = none ∧ ∀ d, s'.table.free d = if d ∈ q.idx then true else s.table.free d := by
  obtain ⟨h, he⟩ := inv_run hrun
  refine ⟨h.stop, fun p q ⟨φ, hp, hφ⟩ => ⟨h.owned.nodup hp hφ, h.owned.busy hp hφ, ?_, fun p' q' ⟨φ', hp', hφ'⟩ hne
    d hd hd' => hne (h.owned.disjoint hp' hp hφ' hφ hd hd')⟩, fun d hd hb => ?_, h.history.nodup,
    fun q hq => ?_, fun p s' hpc hs => ?_, fun x s' hs => ?_, fun p q s' hpc hs => ?_⟩
  · by_cases hc : Cleared s φ q
    · exact (h.history.cleared hp hc).le
    · exact (h.history.uncleared hp hc).le.trans (Nat.zero_le _)
  · obtain ⟨p, φ, q, hp, hφ, hm⟩ := h.owned.owner d hd hb
    exact ⟨p, q, ⟨φ, hp, hφ⟩, hm⟩
  · obtain ⟨h₁, h₂, -⟩ := h.history.returned q hq
    exact ⟨h₁, h₂⟩
  · obtain ⟨p₁, q₁, hp₁, hd, hentry, hQ⟩ := h.first_used (he p hpc) p
    unfold step at hs
    rw [if_neg (not_not.2 h.stop)] at hs
    simp only [go, hpc, hentry] at hs
    cases hs
    have hm : q₁.i0 ∈ done s := by
      rw [done, hQ]
      simp
    exact ⟨p₁, q₁, ⟨_, hp₁, by simp⟩, hd, rfl, h.history.served hp₁ (.inr ⟨rfl, hm⟩), rfl⟩
  · unfold step at hs
    rw [if_neg (not_not.2 h.stop)] at hs
    simp only [] at hs
    split_ifs at hs with hx
    cases hs
    exact content_update (by decide) _ (h.used_lt (Nat.add_pos_left (List.length_pos_of_mem hx.1) _)) _
  · have hinv := (step_keeps h he hs).1
    obtain ⟨hfree, -⟩ := h.finish hpc
    unfold step at hs
    rw [if_neg (not_not.2 h.stop)] at hs
    simp only [go, hpc, hfree] at hs
    cases hs
    exact ⟨hinv.stop, putAll_free _ _⟩

/-- One read, completed by the device while the caller sleeps. -/
def oneRead : List Event :=
  [.lockBuf 0 5, .call 0 ⟨5, false, 7⟩] ++ List.replicate 6 (.go 0) ++ [.fetch, .perform 0, .put 0, .complete, .intr 1] ++
    List.replicate 5 (.go 1) ++ List.replicate 4 (.go 0)

def blank : State := .initial (fun _ => ⟨.null, 0, 0, 0⟩) (fun _ => ⟨none, 0⟩) fun _ => ⟨false, 0⟩

theorem virtio_protocol_oneRead : ∃ s, run step blank oneRead = some s ∧ s.returned.map Req.id = [0] ∧
    s.stop = none ∧ ∀ q ∈ s.returned, servedFor s q.id = [(q.id, q.transfer)] ∧ s.cleared.count q.id = 1 := by
  have hmap : (run step blank oneRead).map (fun s => s.returned.map Req.id) = some [0] := rfl
  obtain ⟨s, hrun, hret⟩ := Option.map_eq_some_iff.1 hmap
  obtain ⟨hstop, -, -, -, hserved, -⟩ := virtio_protocol hrun
  exact ⟨s, hrun, hret, hstop, hserved⟩

end Xv6.Virtio
