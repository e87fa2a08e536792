import Xv6.Bio.Invariant

/-!
# Coherence of the buffer cache

`Cached` relates the buffers to what their last holders left in them, and `Latest` to the last
modifications, for callers that keep a modified buffer pinned until it is written.  Together with the
invariant they give what `bread` returns in any interleaving (`bcache_refines_disk`).  A count of
`2 ^ 32` references wraps (`refcnt_wraps`).
-/

namespace Xv6.Bio

open Ring Runs

variable {s t : State} {i j : Fin NBUF} {c : Call} {e : Event}

/-! ## What the last holder left -/

theorem lastLeft_left (dev blockno d b : ℕ) (v : Block) (tr : List Obs) :
    lastLeft dev blockno (tr ++ [.left d b v]) =
      if d = dev ∧ b = blockno then some v else lastLeft dev blockno tr := by
  unfold lastLeft
  rw [lastOf_append]
  by_cases h : d = dev ∧ b = blockno <;> simp [lastOf, h]

theorem lastLeft_recycled (dev blockno d b : ℕ) (tr : List Obs) :
    lastLeft dev blockno (tr ++ [.recycled d b]) =
      if d = dev ∧ b = blockno then none else lastLeft dev blockno tr := by
  unfold lastLeft
  rw [lastOf_append]
  by_cases h : d = dev ∧ b = blockno <;> simp [lastOf, h]

theorem lastLeft_modified (dev blockno d b : ℕ) (v : Block) (tr : List Obs) :
    lastLeft dev blockno (tr ++ [.modified d b v]) = lastLeft dev blockno tr := by
  unfold lastLeft
  rw [lastOf_append]
  rfl

theorem lastLeft_wrote (dev blockno d b : ℕ) (v : Block) (tr : List Obs) :
    lastLeft dev blockno (tr ++ [.wrote d b v]) = lastLeft dev blockno tr := by
  unfold lastLeft
  rw [lastOf_append]
  rfl

/-- No process is between the return of `bread` and `brelse` with the buffer. -/
def Idle (s : State) (i : Fin NBUF) : Prop := ∀ c, (c, Stage.ready) ∈ s.calls → c.buf ≠ i

/-- What a released buffer, or the lack of one, says about the holders so far. -/
structure Cached (s : State) (tr : List Obs) : Prop where
  idle : ∀ i, 1 ≤ (s.buf i).dev → Idle s i → lastLeft (s.buf i).dev (s.buf i).blockno tr =
    if (s.buf i).valid then some (s.buf i).data else none
  absent : ∀ dev blockno, 1 ≤ dev →
    (∀ i, ¬ ((s.buf i).dev = dev ∧ (s.buf i).blockno = blockno)) → lastLeft dev blockno tr = none

variable {tr tr' : List Obs}

/-- A step that changes idle buffers neither in their block nor in their content. -/
theorem Cached.of_same (hc : Cached s tr) (hk : SameKeys s t)
    (htr : ∀ dev blockno, lastLeft dev blockno tr' = lastLeft dev blockno tr)
    (hidle : ∀ i, Idle t i → Idle s i ∧ (t.buf i).valid = (s.buf i).valid ∧
      (t.buf i).data = (s.buf i).data) : Cached t tr' where
  idle i hdev hi := by
    obtain ⟨hi, hv, hd⟩ := hidle i hi
    rw [(hk i).1] at hdev
    rw [(hk i).1, (hk i).2, hv, hd, htr]
    exact hc.idle i hdev hi
  absent dev blockno hdev hnone := by
    rw [htr]
    refine hc.absent dev blockno hdev fun i => ?_
    rw [← (hk i).1, ← (hk i).2]
    exact hnone i

theorem idle_of_subset (hsub : ∀ c, (c, Stage.ready) ∈ s.calls → (c, Stage.ready) ∈ t.calls)
    (h : Idle t i) : Idle s i := fun c hc => h c (hsub c hc)

theorem ready_mem_erase {st : Stage} (hst : st ≠ .ready) {c' : Call}
    (h : (c', Stage.ready) ∈ s.calls) : (c', Stage.ready) ∈ s.calls.erase (c, st) :=
  (List.mem_erase_of_ne fun e => hst (congrArg Prod.snd e).symm).2 h

/-- A step that changes counts and stages only. -/
theorem cached_of_buf (hc : Cached s tr) {b : Buf} (hbuf : t.buf = Function.update s.buf i b)
    (hb : b.dev = (s.buf i).dev ∧ b.blockno = (s.buf i).blockno ∧ b.valid = (s.buf i).valid ∧
      b.data = (s.buf i).data)
    (hsub : ∀ c, (c, Stage.ready) ∈ s.calls → (c, Stage.ready) ∈ t.calls) : Cached t tr :=
  hc.of_same (sameKeys_of_buf hbuf hb.1 hb.2.1) (fun _ _ => rfl) fun j hj =>
    ⟨idle_of_subset hsub hj, keep Buf.valid hbuf hb.2.2.1 j, keep Buf.data hbuf hb.2.2.2 j⟩

theorem cached_bgetRecycle (h : Inv s) (hc : Cached s tr) {p dev blockno : ℕ} (hdev : 1 ≤ dev)
    (habsent : ∀ j, ¬ ((s.buf j).dev = dev ∧ (s.buf j).blockno = blockno)) (i : Fin NBUF) :
    Cached (bgetRecycle p dev blockno i s)
      (tr ++ [.recycled (s.buf i).dev (s.buf i).blockno]) := by
  set t := bgetRecycle p dev blockno i s
  have hself : t.buf i = { s.buf i with
      dev := dev, blockno := blockno, valid := false, refcnt := 1 } := Function.update_self _ _ _
  have hne {j : Fin NBUF} (hj : j ≠ i) : t.buf j = s.buf j := Function.update_of_ne hj _ _
  refine ⟨fun j hj hidle => ?_, fun d b hd hnone => ?_⟩
  · rw [lastLeft_recycled]
    by_cases hji : j = i
    · subst hji
      simp only [hself, Bool.false_eq_true, if_false]
      split_ifs
      · rfl
      · exact hc.absent dev blockno hdev habsent
    · rw [hne hji] at hj ⊢
      rw [if_neg fun e => hji (h.unique j i hj e.1.symm e.2.symm)]
      exact hc.idle j hj (idle_of_subset (fun c hc => List.mem_cons_of_mem _ hc) hidle)
  · rw [lastLeft_recycled]
    split_ifs with hkey
    · rfl
    · refine hc.absent d b hd fun j hj => ?_
      by_cases hji : j = i
      · exact hkey (hji ▸ hj)
      · exact hnone j (by rwa [hne hji])

theorem cached_breadFill (hc : Cached s tr) (c : Call) : Cached (breadFill c s) tr := by
  obtain ⟨b, hbuf, hdev, hblk, -⟩ := buf_breadFill c s
  obtain ⟨hcalls, -⟩ := breadFill_rest c s
  refine hc.of_same (sameKeys_of_buf hbuf hdev hblk) (fun _ _ => rfl) fun j hj => ?_
  have hne : j ≠ c.buf := fun e => hj c (by rw [hcalls]; exact List.mem_cons_self) e.symm
  refine ⟨idle_of_subset (fun c' hc' => ?_) hj, ?_, ?_⟩
  · rw [hcalls]
    exact List.mem_cons_of_mem _ (ready_mem_erase (by simp) hc')
  · rw [hbuf, Function.update_of_ne hne]
  · rw [hbuf, Function.update_of_ne hne]

theorem cached_modify (hc : Cached s tr) (hcall : (c, Stage.ready) ∈ s.calls) (v : Block) :
    Cached (modify c v s) (tr ++ [.modified c.dev c.blockno v]) := by
  have hbuf : (modify c v s).buf =
      Function.update s.buf c.buf { s.buf c.buf with data := v } := rfl
  refine hc.of_same (sameKeys_of_buf hbuf) (fun _ _ => lastLeft_modified _ _ _ _ _ _) fun j hj =>
    ⟨hj, keep Buf.valid hbuf rfl j, ?_⟩
  rw [hbuf, Function.update_of_ne (Ne.symm (hj c hcall))]

theorem cached_releasesleep (h : Inv s) (hc : Cached s tr) (hcall : (c, Stage.ready) ∈ s.calls) :
    Cached (releasesleep c s) (tr ++ [.left c.dev c.blockno (s.buf c.buf).data]) := by
  rw [releasesleep_eq h hcall]
  set t := (s.setBuf c.buf { s.buf c.buf with lock := none }).advance c .ready .releasing with ht
  have hbuf : t.buf = Function.update s.buf c.buf { s.buf c.buf with lock := none } := rfl
  obtain ⟨hdev, hkey⟩ := h.call _ hcall
  have hk : SameKeys s t := sameKeys_of_buf hbuf
  refine ⟨fun j hj hidle => ?_, fun d b hd hnone => ?_⟩
  · rw [(hk j).1] at hj
    rw [(hk j).1, (hk j).2, keep Buf.valid hbuf rfl, keep Buf.data hbuf rfl, lastLeft_left]
    by_cases hjc : j = c.buf
    · rw [hjc, if_pos ⟨hkey.1.symm, hkey.2.symm⟩, if_pos (h.valid _ hcall rfl)]
    · rw [if_neg fun e => hjc ?_]
      · refine hc.idle j hj fun c' hc' e => ?_
        refine hidle c' (List.mem_cons_of_mem _ ((List.mem_erase_of_ne fun e' => ?_).2 hc')) e
        exact hjc (e.symm.trans (congrArg (·.1.buf) e'))
      · exact h.unique j c.buf hj (e.1.symm.trans hkey.1.symm) (e.2.symm.trans hkey.2.symm)
  · have hne (i : Fin NBUF) : ¬ ((s.buf i).dev = d ∧ (s.buf i).blockno = b) := by
      rw [← (hk i).1, ← (hk i).2]
      exact hnone i
    rw [lastLeft_left, if_neg fun e => hne c.buf ⟨hkey.1.trans e.1, hkey.2.trans e.2⟩]
    exact hc.absent d b hd hne

theorem cached_step (h : Inv s) (hc : Cached s tr) (hstep : step s e = some t) :
    Cached t (tr ++ obs s e) := by
  have hst := stepped_of_step hstep
  cases e with
  | bget p dev blockno =>
    obtain ⟨hdev, rfl⟩ := hst
    obtain ⟨i, -, he, ho⟩ | ⟨i, habsent, -, he, ho⟩ | ⟨he, ho⟩ := bget_cases h p dev blockno
    · rw [he, ho, List.append_nil]
      exact cached_of_buf hc (i := i) rfl ⟨rfl, rfl, rfl, rfl⟩ fun c' hc' => List.mem_cons_of_mem _ hc'
    · rw [he, ho]
      exact cached_bgetRecycle h hc hdev habsent i
    · rw [he, ho, List.append_nil]
      exact ⟨hc.idle, hc.absent⟩
  | acquire c =>
    obtain ⟨hcall, hfree, rfl⟩ := hst
    rw [obs, List.append_nil]
    exact cached_of_buf hc (i := c.buf) rfl ⟨rfl, rfl, rfl, rfl⟩ fun c' hc' =>
      List.mem_cons_of_mem _ (ready_mem_erase (by simp) hc')
  | fill c =>
    obtain ⟨hcall, rfl⟩ := hst
    rw [obs, List.append_nil]
    exact cached_breadFill hc c
  | modify c v =>
    obtain ⟨hcall, rfl⟩ := hst
    exact cached_modify hc hcall v
  | bwrite c =>
    obtain ⟨hcall, rfl⟩ := hst
    rw [bwrite, if_pos (h.holdingsleep hcall)]
    exact hc.of_same (fun _ => ⟨rfl, rfl⟩) (fun _ _ => lastLeft_wrote _ _ _ _ _ _)
      fun _ hj => ⟨hj, rfl, rfl⟩
  | bpin c =>
    obtain ⟨hcall, rfl⟩ := hst
    rw [obs, List.append_nil]
    exact cached_of_buf hc (i := c.buf) rfl ⟨rfl, rfl, rfl, rfl⟩ fun c' hc' => hc'
  | bunpin i =>
    obtain ⟨hcall, rfl⟩ := hst
    rw [obs, List.append_nil]
    exact cached_of_buf hc (i := i) rfl ⟨rfl, rfl, rfl, rfl⟩ fun c' hc' => hc'
  | release c =>
    obtain ⟨hcall, rfl⟩ := hst
    exact cached_releasesleep h hc hcall
  | brelse c =>
    obtain ⟨hcall, rfl⟩ := hst
    rw [obs, List.append_nil]
    exact cached_of_buf hc (i := c.buf) rfl ⟨rfl, rfl, rfl, rfl⟩ fun c' hc' =>
      ready_mem_erase (by simp) hc'

/-! ## The latest modifications -/

/-- Modified buffers are written, or kept in use or pinned until they are. -/
def Disciplined (s : State) (tr : List Obs) : Prop :=
  ∀ i, unwritten (s.buf i).dev (s.buf i).blockno tr = true → ¬ Idle s i ∨ 0 < s.pins i

/-- The latest content of a block is in its buffer, and on disk when it has been written. -/
structure Latest (d : ℕ → ℕ → Block) (s : State) (tr : List Obs) : Prop where
  cached : ∀ i, 1 ≤ (s.buf i).dev → (s.buf i).valid = true → (s.buf i).data =
    latest (s.buf i).dev (s.buf i).blockno (d (s.buf i).dev (s.buf i).blockno) tr
  written : ∀ dev blockno, 1 ≤ dev → unwritten dev blockno tr = false →
    s.disk dev blockno = latest dev blockno (d dev blockno) tr
  kept : ∀ dev blockno, unwritten dev blockno tr = true →
    ∃ i, (s.buf i).dev = dev ∧ (s.buf i).blockno = blockno ∧ (s.buf i).valid = true

variable {d : ℕ → ℕ → Block}

theorem latest_append (dev blockno : ℕ) (v₀ : Block) (o : Obs) :
    latest dev blockno v₀ (tr ++ [o]) = match o with
      | .modified d b v => if d = dev ∧ b = blockno then v else latest dev blockno v₀ tr
      | _ => latest dev blockno v₀ tr := by
  unfold latest
  rw [lastOf_append]
  cases o with
  | modified d b v => by_cases h : d = dev ∧ b = blockno <;> simp [lastOf, h]
  | _ => rfl

theorem unwritten_append (dev blockno : ℕ) (o : Obs) :
    unwritten dev blockno (tr ++ [o]) = match o with
      | .modified d b _ => if d = dev ∧ b = blockno then true else unwritten dev blockno tr
      | .wrote d b _ => if d = dev ∧ b = blockno then false else unwritten dev blockno tr
      | _ => unwritten dev blockno tr := by
  unfold unwritten
  rw [lastOf_append]
  cases o with
  | modified d b v => by_cases h : d = dev ∧ b = blockno <;> simp [lastOf, h]
  | wrote d b v => by_cases h : d = dev ∧ b = blockno <;> simp [lastOf, h]
  | _ => rfl

/-- A step that changes neither blocks nor contents. -/
theorem Latest.of_same (hl : Latest d s tr) (hbuf : ∀ j, (t.buf j).dev = (s.buf j).dev ∧
      (t.buf j).blockno = (s.buf j).blockno ∧ (t.buf j).valid = (s.buf j).valid ∧
      (t.buf j).data = (s.buf j).data) (hdisk : t.disk = s.disk)
    (htr : ∀ dev blockno, (∀ v₀, latest dev blockno v₀ tr' = latest dev blockno v₀ tr) ∧
      unwritten dev blockno tr' = unwritten dev blockno tr) : Latest d t tr' where
  cached i := by
    obtain ⟨h₁, h₂, h₃, h₄⟩ := hbuf i
    rw [h₁, h₂, h₃, h₄, (htr _ _).1]
    exact hl.cached i
  written dev blockno := by
    rw [hdisk, (htr _ _).1, (htr _ _).2]
    exact hl.written dev blockno
  kept dev blockno hu := by
    rw [(htr _ _).2] at hu
    obtain ⟨i, hi⟩ := hl.kept dev blockno hu
    obtain ⟨h₁, h₂, h₃, -⟩ := hbuf i
    exact ⟨i, by rwa [h₁, h₂, h₃]⟩

theorem latest_of_buf (hl : Latest d s tr) {b : Buf} (hbuf : t.buf = Function.update s.buf i b)
    (hb : b.dev = (s.buf i).dev ∧ b.blockno = (s.buf i).blockno ∧ b.valid = (s.buf i).valid ∧
      b.data = (s.buf i).data) (hdisk : t.disk = s.disk) : Latest d t tr :=
  hl.of_same (fun j => ⟨keep Buf.dev hbuf hb.1 j, keep Buf.blockno hbuf hb.2.1 j,
    keep Buf.valid hbuf hb.2.2.1 j, keep Buf.data hbuf hb.2.2.2 j⟩) hdisk fun _ _ => ⟨fun _ => rfl, rfl⟩

theorem latest_bgetRecycle (h : Inv s) (hl : Latest d s tr) (hd : Disciplined s tr)
    {p dev blockno : ℕ} (hzero : (s.buf i).refcnt = 0) :
    Latest d (bgetRecycle p dev blockno i s)
      (tr ++ [.recycled (s.buf i).dev (s.buf i).blockno]) := by
  set t := bgetRecycle p dev blockno i s
  have hself : (t.buf i).valid = false := by
    simp only [t, bgetRecycle, State.setBuf, Function.update_self]
  have hne {j : Fin NBUF} (hj : j ≠ i) : t.buf j = s.buf j := Function.update_of_ne hj _ _
  obtain ⟨hnot, -, hp⟩ := h.unreferenced hzero
  have hwritten : unwritten (s.buf i).dev (s.buf i).blockno tr ≠ true := by
    intro hu
    rcases hd i hu with hu | hu
    · exact hu fun c hc => hnot _ hc
    · omega
  refine ⟨fun j hj hv => ?_, fun a b ha hu => ?_, fun a b hu => ?_⟩
  · have hji : j ≠ i := by
      rintro rfl
      rw [hself] at hv
      cases hv
    rw [hne hji] at hj hv ⊢
    rw [latest_append]
    exact hl.cached j hj hv
  · rw [unwritten_append] at hu
    rw [latest_append]
    exact hl.written a b ha hu
  · rw [unwritten_append] at hu
    obtain ⟨j, h₁, h₂, h₃⟩ := hl.kept a b hu
    have hji : j ≠ i := by
      rintro rfl
      rw [← h₁, ← h₂] at hu
      exact hwritten hu
    exact ⟨j, by rw [hne hji]; exact ⟨h₁, h₂, h₃⟩⟩

/-- What `bread` reads from the disk is the latest content. -/
theorem Latest.fill (h : Inv s) (hl : Latest d s tr) (hcall : (c, Stage.locked) ∈ s.calls) :
    (if (s.buf c.buf).valid then (s.buf c.buf).data else s.disk c.dev c.blockno) =
      latest c.dev c.blockno (d c.dev c.blockno) tr := by
  obtain ⟨hdev, hkd, hkb⟩ := h.call _ hcall
  simp only at hdev hkd hkb
  split_ifs with hv
  · rw [hl.cached c.buf (by rwa [hkd]) hv, hkd, hkb]
  · refine hl.written _ _ hdev (Bool.eq_false_iff.2 fun hu => hv ?_)
    obtain ⟨i, h₁, h₂, h₃⟩ := hl.kept _ _ hu
    rw [← h.unique i c.buf (by rwa [h₁]) (h₁.trans hkd.symm) (h₂.trans hkb.symm)]
    exact h₃

theorem latest_breadFill (h : Inv s) (hl : Latest d s tr) (hcall : (c, Stage.locked) ∈ s.calls) :
    Latest d (breadFill c s) tr := by
  obtain ⟨b, hbuf, hdev, hblk, -, -, hval, hdata⟩ := buf_breadFill c s
  obtain ⟨-, -, -, hdisk⟩ := breadFill_rest c s
  obtain ⟨-, hkd, hkb⟩ := h.call _ hcall
  have hkeys (j : Fin NBUF) := keep Buf.dev hbuf hdev j
  have hkeys' (j : Fin NBUF) := keep Buf.blockno hbuf hblk j
  refine ⟨fun j hj hv => ?_, fun a b => ?_, fun a b' hu => ?_⟩
  · rw [hkeys] at hj
    rw [hkeys, hkeys', hbuf]
    by_cases hji : j = c.buf
    · subst hji
      rw [Function.update_self, hdata, hkd, hkb]
      exact hl.fill h hcall
    · rw [hbuf, Function.update_of_ne hji] at hv
      rw [Function.update_of_ne hji]
      exact hl.cached j hj hv
  · rw [hdisk]
    exact hl.written a b
  · obtain ⟨j, h₁, h₂, h₃⟩ := hl.kept a b' hu
    refine ⟨j, (hkeys j).trans h₁, (hkeys' j).trans h₂, ?_⟩
    rw [hbuf]
    by_cases hji : j = c.buf
    · rw [hji, Function.update_self, hval]
    · rwa [Function.update_of_ne hji]

theorem latest_modify (h : Inv s) (hl : Latest d s tr) (hcall : (c, Stage.ready) ∈ s.calls)
    (v : Block) : Latest d (modify c v s) (tr ++ [.modified c.dev c.blockno v]) := by
  have hbuf : (modify c v s).buf =
      Function.update s.buf c.buf { s.buf c.buf with data := v } := rfl
  have hkeys (j : Fin NBUF) := keep Buf.dev hbuf rfl j
  have hkeys' (j : Fin NBUF) := keep Buf.blockno hbuf rfl j
  have hvalid (j : Fin NBUF) := keep Buf.valid hbuf rfl j
  obtain ⟨-, hkd, hkb⟩ := h.call _ hcall
  refine ⟨fun j hj hv => ?_, fun a b ha hu => ?_, fun a b hu => ?_⟩
  · rw [hkeys] at hj
    rw [hvalid] at hv
    rw [hkeys, hkeys', latest_append]
    by_cases hji : j = c.buf
    · simp only [hji, hkd, hkb, and_self, if_true, hbuf, Function.update_self]
    · have hne : ¬ (c.dev = (s.buf j).dev ∧ c.blockno = (s.buf j).blockno) := fun e =>
        hji (h.unique j c.buf hj (e.1.symm.trans hkd.symm) (e.2.symm.trans hkb.symm))
      simp only [hne, if_false, hbuf, Function.update_of_ne hji]
      exact hl.cached j hj hv
  · rw [unwritten_append] at hu
    rw [latest_append]
    simp only at hu ⊢
    split_ifs at hu ⊢
    exact hl.written a b ha hu
  · rw [unwritten_append] at hu
    simp only at hu
    split_ifs at hu with hkey
    · refine ⟨c.buf, ?_, ?_, (hvalid _).trans (h.valid _ hcall rfl)⟩
      · rw [hkeys, ← hkey.1]
        exact hkd
      · rw [hkeys', ← hkey.2]
        exact hkb
    · obtain ⟨j, h₁, h₂, h₃⟩ := hl.kept a b hu
      exact ⟨j, (hkeys j).trans h₁, (hkeys' j).trans h₂, (hvalid j).trans h₃⟩

theorem latest_bwrite (h : Inv s) (hl : Latest d s tr) (hcall : (c, Stage.ready) ∈ s.calls) :
    Latest d (bwrite c s) (tr ++ [.wrote c.dev c.blockno (s.buf c.buf).data]) := by
  obtain ⟨hdev, hkd, hkb⟩ := h.call _ hcall
  simp only at hdev hkd hkb
  rw [bwrite, if_pos (h.holdingsleep hcall)]
  refine ⟨fun j hj hv => ?_, fun a b ha hu => ?_, fun a b hu => ?_⟩
  · rw [latest_append]
    exact hl.cached j hj hv
  · rw [unwritten_append] at hu
    rw [latest_append]
    simp only [hkd, hkb] at hu ⊢
    by_cases hkey : c.dev = a ∧ c.blockno = b
    · obtain ⟨rfl, rfl⟩ := hkey
      rw [Function.update_self, Function.update_self,
        hl.cached c.buf (by rwa [hkd]) (h.valid _ hcall rfl), hkd, hkb]
    · rw [if_neg hkey] at hu
      rw [← hl.written a b ha hu]
      by_cases hd : a = c.dev
      · subst hd
        have hb : b ≠ c.blockno := fun e => hkey ⟨rfl, e.symm⟩
        rw [Function.update_self, Function.update_of_ne hb]
      · rw [Function.update_of_ne hd]
  · rw [unwritten_append] at hu
    simp only at hu
    split_ifs at hu
    exact hl.kept a b hu

theorem latest_step (h : Inv s) (hl : Latest d s tr) (hd : Disciplined s tr)
    (hstep : step s e = some t) : Latest d t (tr ++ obs s e) := by
  have hst := stepped_of_step hstep
  cases e with
  | bget p dev blockno =>
    obtain ⟨hdev, rfl⟩ := hst
    obtain ⟨i, -, he, ho⟩ | ⟨i, -, hzero, he, ho⟩ | ⟨he, ho⟩ := bget_cases h p dev blockno
    · rw [he, ho, List.append_nil]
      exact latest_of_buf hl (i := i) rfl ⟨rfl, rfl, rfl, rfl⟩ rfl
    · rw [he, ho]
      exact latest_bgetRecycle h hl hd hzero
    · rw [he, ho, List.append_nil]
      exact ⟨hl.cached, hl.written, hl.kept⟩
  | acquire c =>
    obtain ⟨hcall, hfree, rfl⟩ := hst
    rw [obs, List.append_nil]
    exact latest_of_buf hl (i := c.buf) rfl ⟨rfl, rfl, rfl, rfl⟩ rfl
  | fill c =>
    obtain ⟨hcall, rfl⟩ := hst
    rw [obs, List.append_nil]
    exact latest_breadFill h hl hcall
  | modify c v =>
    obtain ⟨hcall, rfl⟩ := hst
    exact latest_modify h hl hcall v
  | bwrite c =>
    obtain ⟨hcall, rfl⟩ := hst
    exact latest_bwrite h hl hcall
  | bpin c =>
    obtain ⟨hcall, rfl⟩ := hst
    rw [obs, List.append_nil]
    exact latest_of_buf hl (i := c.buf) rfl ⟨rfl, rfl, rfl, rfl⟩ rfl
  | bunpin i =>
    obtain ⟨hcall, rfl⟩ := hst
    rw [obs, List.append_nil]
    exact latest_of_buf hl (i := i) rfl ⟨rfl, rfl, rfl, rfl⟩ rfl
  | release c =>
    obtain ⟨hcall, rfl⟩ := hst
    rw [releasesleep_eq h hcall]
    have hbuf : ((s.setBuf c.buf { s.buf c.buf with lock := none }).advance c .ready
      .releasing).buf = Function.update s.buf c.buf { s.buf c.buf with lock := none } := rfl
    exact hl.of_same (fun j => ⟨keep Buf.dev hbuf rfl j, keep Buf.blockno hbuf rfl j,
      keep Buf.valid hbuf rfl j, keep Buf.data hbuf rfl j⟩) rfl
      fun _ _ => ⟨fun _ => latest_append _ _ _ _, unwritten_append _ _ _⟩
  | brelse c =>
    obtain ⟨hcall, rfl⟩ := hst
    rw [obs, List.append_nil]
    exact latest_of_buf hl (i := c.buf) rfl ⟨rfl, rfl, rfl, rfl⟩ rfl

/-! ## Whole runs -/

theorem cached_binit (d : ℕ → ℕ → Block) : Cached (binit d) [] where
  idle _ h := absurd h (by simp [binit])
  absent _ _ _ _ := rfl

theorem latest_binit (d : ℕ → ℕ → Block) : Latest d (binit d) [] where
  cached _ h := absurd h (by simp [binit])
  written _ _ _ _ := rfl
  kept _ _ h := absurd h (by simp [unwritten, lastOf])

/-- `P` holds of every state of the run, with what has happened up to it. -/
def Throughout (d : ℕ → ℕ → Block) (es : List Event) (P : State → List Obs → Prop) : Prop :=
  ∀ pre u, pre <+: es → run step (binit d) pre = some u → P u (trace (binit d) pre)

theorem Throughout.of_append {es fs : List Event} {P : State → List Obs → Prop}
    (h : Throughout d (es ++ fs) P) : Throughout d es P :=
  fun pre u hpre => h pre u (hpre.trans (List.prefix_append _ _))

theorem Throughout.last {es : List Event} {P : State → List Obs → Prop} (h : Throughout d es P)
    (hrun : run step (binit d) es = some s) : P s (trace (binit d) es) :=
  h es s List.prefix_rfl hrun

theorem run_coherent {es : List Event} (hrun : run step (binit d) es = some s)
    (hcount : Throughout d es fun u _ => Countable u) :
    Inv s ∧ Cached s (trace (binit d) es) ∧
      (Throughout d es Disciplined → Latest d s (trace (binit d) es)) := by
  induction es using List.reverseRecOn generalizing s with
  | nil =>
    obtain rfl := Option.some.inj hrun
    exact ⟨inv_binit d, cached_binit d, fun _ => latest_binit d⟩
  | append_singleton es e ih =>
    obtain ⟨u, hu, hstep⟩ := run_concat_eq_some hrun
    obtain ⟨hinv, hcached, hlatest⟩ := ih hu hcount.of_append
    have hcount_u := hcount.of_append.last hu
    rw [trace_concat hu]
    refine ⟨inv_step hinv hcount_u (hcount.last hrun) hstep, cached_step hinv hcached hstep,
      fun hdisc => ?_⟩
    exact latest_step hinv (hlatest hdisc.of_append) (hdisc.of_append.last hu) hstep

/-- What the two locks of the cache maintain. -/
structure CacheOk (s : State) : Prop where
  /-- The list holds each buffer once, in both directions. -/
  listed : Listed s
  unique : ∀ i j, 1 ≤ (s.buf i).dev → (s.buf i).dev = (s.buf j).dev →
    (s.buf i).blockno = (s.buf j).blockno → i = j
  refcnt : ∀ i, (s.buf i).refcnt = holders s i + s.pins i
  /-- `refcnt` is not zero where it is lowered. -/
  brelse : ∀ c t, step s (.brelse c) = some t → 0 < (s.buf c.buf).refcnt
  bunpin : ∀ i t, step s (.bunpin i) = some t → 0 < (s.buf i).refcnt

theorem Inv.cacheOk (h : Inv s) : CacheOk s where
  listed := h.listed
  unique := h.unique
  refcnt := h.refcnt
  brelse c t hstep := by
    have : 0 < holders s c.buf :=
      List.countP_pos_iff.2 ⟨_, (stepped_of_step hstep).1, by simp⟩
    rw [h.refcnt]
    omega
  bunpin i t hstep := by
    have := (stepped_of_step hstep).1
    rw [h.refcnt]
    omega

/-- A buffer that is referenced keeps its block. -/
theorem referenced_kept (h : Inv s) (hstep : step s e = some t) (hi : 0 < (s.buf i).refcnt) :
    (t.buf i).dev = (s.buf i).dev ∧ (t.buf i).blockno = (s.buf i).blockno ∧
      ((s.buf i).valid = true → (t.buf i).valid = true) := by
  have hkeep {j : Fin NBUF} {b : Buf} (hbuf : t.buf = Function.update s.buf j b)
      (hb : b.dev = (s.buf j).dev ∧ b.blockno = (s.buf j).blockno ∧ b.valid = (s.buf j).valid) :
      (t.buf i).dev = (s.buf i).dev ∧ (t.buf i).blockno = (s.buf i).blockno ∧
        ((s.buf i).valid = true → (t.buf i).valid = true) :=
    ⟨keep Buf.dev hbuf hb.1 i, keep Buf.blockno hbuf hb.2.1 i, fun hv => by
      rwa [keep Buf.valid hbuf hb.2.2 i]⟩
  have hst := stepped_of_step hstep
  cases e with
  | bget p dev blockno =>
    obtain ⟨-, rfl⟩ := hst
    obtain ⟨j, -, he, -⟩ | ⟨j, -, hzero, he, -⟩ | ⟨he, -⟩ := bget_cases h p dev blockno
    · rw [he] at hkeep ⊢
      exact hkeep (j := j) rfl ⟨rfl, rfl, rfl⟩
    · have hne : i ≠ j := by
        rintro rfl
        omega
      rw [he, show (bgetRecycle p dev blockno j s).buf i = s.buf i from
        Function.update_of_ne hne _ _]
      exact ⟨rfl, rfl, id⟩
    · rw [he]
      exact ⟨rfl, rfl, id⟩
  | acquire c =>
    obtain ⟨-, -, rfl⟩ := hst
    exact hkeep (j := c.buf) rfl ⟨rfl, rfl, rfl⟩
  | fill c =>
    obtain ⟨-, rfl⟩ := hst
    obtain ⟨b, hbuf, hdev, hblk, -, -, hval, -⟩ := buf_breadFill c s
    refine ⟨keep Buf.dev hbuf hdev i, keep Buf.blockno hbuf hblk i, fun hv => ?_⟩
    rw [hbuf]
    by_cases hic : i = c.buf
    · rw [hic, Function.update_self, hval]
    · rwa [Function.update_of_ne hic]
  | modify c v =>
    obtain ⟨-, rfl⟩ := hst
    exact hkeep (j := c.buf) rfl ⟨rfl, rfl, rfl⟩
  | bwrite c =>
    obtain ⟨hc, rfl⟩ := hst
    rw [bwrite, if_pos (h.holdingsleep hc)]
    exact ⟨rfl, rfl, id⟩
  | bpin c =>
    obtain ⟨-, rfl⟩ := hst
    exact hkeep (j := c.buf) rfl ⟨rfl, rfl, rfl⟩
  | bunpin j =>
    obtain ⟨-, rfl⟩ := hst
    exact hkeep (j := j) rfl ⟨rfl, rfl, rfl⟩
  | release c =>
    obtain ⟨hc, rfl⟩ := hst
    rw [releasesleep_eq h hc] at hkeep ⊢
    exact hkeep (j := c.buf) rfl ⟨rfl, rfl, rfl⟩
  | brelse c =>
    obtain ⟨-, rfl⟩ := hst
    exact hkeep (j := c.buf) rfl ⟨rfl, rfl, rfl⟩

theorem data_breadFill (h : Inv s) (hcall : (c, Stage.locked) ∈ s.calls) :
    ((breadFill c s).buf c.buf).data =
      if (s.buf c.buf).valid then (s.buf c.buf).data else s.disk c.dev c.blockno := by
  obtain ⟨b, hbuf, -, -, -, -, -, hdata⟩ := buf_breadFill c s
  obtain ⟨-, hkd, hkb⟩ := h.call _ hcall
  rw [hbuf, Function.update_self, hdata, hkd, hkb]

/-- A buffer that a process has locked in `bget` is in no other hands. -/
theorem Inv.idle_of_locked (h : Inv s) (hcall : (c, Stage.locked) ∈ s.calls) :
    Idle s c.buf := by
  intro c' hc' e
  have hzero := h.owns_erase hcall (owns_locked c)
  rw [List.countP_eq_zero] at hzero
  have hmem : (c', Stage.ready) ∈ s.calls.erase (c, .locked) :=
    (List.mem_erase_of_ne (by simp)).2 hc'
  exact hzero _ hmem (by simp [owns, e])

/-! ## How high a count can get -/

theorem references_step (hstep : step s e = some t) (i : Fin NBUF) :
    holders t i + t.pins i ≤ holders s i + s.pins i + 1 := by
  have hadvance {c : Call} {st st' : Stage} {u : State} (hc : (c, st) ∈ s.calls)
      (hu : u.calls = (c, st') :: s.calls.erase (c, st)) (hp : u.pins = s.pins) :
      holders u i + u.pins i ≤ holders s i + s.pins i + 1 := by
    rw [← holders_advance hc i, holders, hu, hp]
    exact Nat.le_succ _
  have hst := stepped_of_step hstep
  cases e with
  | bget p dev blockno =>
    obtain ⟨-, rfl⟩ := hst
    have hcons (j : Fin NBUF) (u : State)
        (hu : u.calls = (⟨p, dev, blockno, j⟩, .waiting) :: s.calls) (hp : u.pins = s.pins) :
        holders u i + u.pins i ≤ holders s i + s.pins i + 1 := by
      rw [holders_cons hu, hp]
      split_ifs <;> omega
    unfold bget
    split
    · exact hcons _ _ rfl rfl
    · split
      · exact hcons _ _ rfl rfl
      · exact Nat.le_succ _
  | acquire c =>
    obtain ⟨hc, -, rfl⟩ := hst
    exact hadvance hc rfl rfl
  | fill c =>
    obtain ⟨hc, rfl⟩ := hst
    obtain ⟨hcalls, -, hpins, -⟩ := breadFill_rest c s
    exact hadvance hc hcalls hpins
  | modify c v =>
    obtain ⟨-, rfl⟩ := hst
    exact Nat.le_succ _
  | bwrite c =>
    obtain ⟨-, rfl⟩ := hst
    unfold bwrite
    split_ifs <;> exact Nat.le_succ _
  | bpin c =>
    obtain ⟨-, rfl⟩ := hst
    change holders s i + Function.update s.pins c.buf (s.pins c.buf + 1) i ≤ _
    by_cases hi : i = c.buf
    · rw [hi, Function.update_self]
      omega
    · rw [Function.update_of_ne hi]
      omega
  | bunpin j =>
    obtain ⟨-, rfl⟩ := hst
    change holders s i + Function.update s.pins j (s.pins j - 1) i ≤ _
    by_cases hi : i = j
    · rw [hi, Function.update_self]
      omega
    · rw [Function.update_of_ne hi]
      omega
  | release c =>
    obtain ⟨hc, rfl⟩ := hst
    unfold releasesleep
    split_ifs
    · exact hadvance hc rfl rfl
    · exact Nat.le_succ _
  | brelse c =>
    obtain ⟨hc, rfl⟩ := hst
    have : holders (brelse c s) i ≤ holders s i := List.erase_sublist.countP_le
    change holders (brelse c s) i + s.pins i ≤ _
    omega

/-- A run of fewer than `2 ^ 32` steps wraps no count. -/
theorem countable_of_length (d : ℕ → ℕ → Block) {es : List Event} (hlen : es.length < 2 ^ 32) :
    Throughout d es fun u _ => Countable u := by
  have hle (pre : List Event) (u : State) (hu : run step (binit d) pre = some u) (i : Fin NBUF) :
      holders u i + u.pins i ≤ pre.length := by
    induction pre using List.reverseRecOn generalizing u with
    | nil =>
      obtain rfl := Option.some.inj hu
      exact le_rfl
    | append_singleton pre e ih =>
      obtain ⟨v, hv, hstep⟩ := run_concat_eq_some hu
      have h₁ := references_step hstep i
      have h₂ := ih v hv
      rw [List.length_append, List.length_singleton]
      omega
  intro pre u hpre hu i
  have h₁ := hle pre u hu i
  have h₂ := hpre.length_le
  omega

/-! ## The cache refines the disk -/

/-- In every run in which no count wraps, the cache is well formed, referenced buffers are not
recycled, and `bread` returns what the last holder left in the buffer, or the disk block if the buffer
has been recycled since.  If modified buffers are kept until they are written, that is the latest
modification. -/
theorem bcache_refines_disk (d : ℕ → ℕ → Block) (es : List Event) (s : State)
    (hrun : run step (binit d) es = some s)
    (hcount : Throughout d es fun u _ => Countable u) :
    CacheOk s ∧
    (∀ e t, step s e = some t → ∀ i, 0 < (s.buf i).refcnt →
      (t.buf i).dev = (s.buf i).dev ∧ (t.buf i).blockno = (s.buf i).blockno ∧
        ((s.buf i).valid = true → (t.buf i).valid = true)) ∧
    (∀ c t, step s (.fill c) = some t → (t.buf c.buf).data =
      (lastLeft c.dev c.blockno (trace (binit d) es)).getD (s.disk c.dev c.blockno)) ∧
    (Throughout d es Disciplined → ∀ c t, step s (.fill c) = some t → (t.buf c.buf).data =
      latest c.dev c.blockno (d c.dev c.blockno) (trace (binit d) es)) := by
  obtain ⟨hinv, hcached, hlatest⟩ := run_coherent hrun hcount
  refine ⟨hinv.cacheOk, fun e t ht i hi => referenced_kept hinv ht hi, fun c t ht => ?_,
    fun hdisc c t ht => ?_⟩
  · obtain ⟨hcall, rfl⟩ := stepped_of_step ht
    obtain ⟨hdev, hkd, hkb⟩ := hinv.call _ hcall
    have hleft := hcached.idle c.buf (by rwa [hkd]) (hinv.idle_of_locked hcall)
    rw [hkd, hkb] at hleft
    rw [data_breadFill hinv hcall, hleft]
    split_ifs <;> rfl
  · obtain ⟨hcall, rfl⟩ := stepped_of_step ht
    rw [data_breadFill hinv hcall]
    exact (hlatest hdisc).fill hinv hcall

/-- Two processes use block 7 one after the other; the first modifies and writes it. -/
def handover : List Event :=
  let c : Call := ⟨1, 1, 7, 0⟩
  [.bget 1 1 7, .acquire c, .fill c, .modify c (Vector.replicate BSIZE 5), .bwrite c, .bget 2 1 7,
    .release c, .acquire ⟨2, 1, 7, 0⟩, .brelse c]

def zeroDisk : ℕ → ℕ → Block := fun _ _ => Vector.replicate BSIZE 0

theorem bcache_refines_disk_handover :
    ∃ s, run step (binit zeroDisk) handover = some s ∧ CacheOk s ∧
      ∀ t, step s (.fill ⟨2, 1, 7, 0⟩) = some t → (t.buf 0).data =
        (lastLeft 1 7 (trace (binit zeroDisk) handover)).getD (s.disk 1 7) := by
  have hsome : (run step (binit zeroDisk) handover).isSome = true := by decide +kernel
  obtain ⟨s, hrun⟩ := Option.isSome_iff_exists.1 hsome
  obtain ⟨hok, -, hfill, -⟩ := bcache_refines_disk zeroDisk handover s hrun
    (countable_of_length zeroDisk (by decide))
  exact ⟨s, hrun, hok, fun t ht => hfill ⟨2, 1, 7, 0⟩ t ht⟩

/-! ## A count that wraps -/

theorem run_bpins (n : ℕ) (hp : s.panicked = false) (hc : (c, Stage.ready) ∈ s.calls)
    (hr : (s.buf c.buf).refcnt < 2 ^ 32) :
    ∃ t, run step s (List.replicate n (.bpin c)) = some t ∧ t.calls = s.calls ∧
      (t.buf c.buf).refcnt = ((s.buf c.buf).refcnt + n) % 2 ^ 32 ∧
      t.pins c.buf = s.pins c.buf + n := by
  induction n generalizing s with
  | zero => exact ⟨s, rfl, rfl, (Nat.mod_eq_of_lt hr).symm, rfl⟩
  | succ n ih =>
    have hbuf : ((bpin c.buf s).buf c.buf).refcnt = inc (s.buf c.buf).refcnt := by
      simp [bpin, State.setBuf]
    have hpins : (bpin c.buf s).pins c.buf = s.pins c.buf + 1 := Function.update_self _ _ _
    have hstep : step s (.bpin c) = some (bpin c.buf s) := by simp [step, hp, hc]
    obtain ⟨t, hrun, hcalls, href, hpin⟩ := ih (s := bpin c.buf s) hp hc (by
      rw [hbuf]
      exact Nat.mod_lt _ (by norm_num))
    refine ⟨t, ?_, hcalls, ?_, ?_⟩
    · rw [List.replicate_succ, run_cons, hstep]
      exact hrun
    · rw [href, hbuf, inc, Nat.mod_add_mod, Nat.add_assoc, Nat.add_comm 1 n]
    · rw [hpin, hpins]
      omega

/-- A process that holds a buffer and pins it `2 ^ 32 - 1` times brings its count back to zero. -/
theorem refcnt_wraps : ∃ es s, run step (binit zeroDisk) es = some s ∧
    (s.buf 0).refcnt = 0 ∧ holders s 0 = 1 ∧ s.pins 0 = 2 ^ 32 - 1 := by
  have hstart : (run step (binit zeroDisk) [.bget 1 1 7, .acquire ⟨1, 1, 7, 0⟩,
      .fill ⟨1, 1, 7, 0⟩]).map (fun s => (s.panicked, s.calls, (s.buf 0).refcnt, s.pins 0)) =
        some (false, [(⟨1, 1, 7, 0⟩, .ready)], 1, 0) := by
    decide +kernel
  obtain ⟨u, hu, heq⟩ := Option.map_eq_some_iff.1 hstart
  simp only [Prod.mk.injEq] at heq
  obtain ⟨hp, hcalls, href, hpins⟩ := heq
  obtain ⟨t, ht, hcalls', href', hpins'⟩ := run_bpins (s := u) (c := ⟨1, 1, 7, 0⟩) (2 ^ 32 - 1) hp
    (by simp [hcalls]) (by rw [href]; norm_num)
  refine ⟨_, t, by rw [run_append, hu]; exact ht, ?_, ?_, ?_⟩
  · rw [href', href]
    norm_num
  · rw [holders, hcalls', hcalls]
    rfl
  · rw [hpins', hpins]
    norm_num

end Xv6.Bio
