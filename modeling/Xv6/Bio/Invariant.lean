import Xv6.Bio.Code

/-!
# Invariant of the buffer cache

`Inv` collects what the two kinds of locks maintain: the ring holds every buffer once, a block has at
most one buffer, `refcnt` counts the calls and pins of a buffer, and the sleep-lock has one owner.
It is kept as long as no count wraps (`inv_step`).  `trace` records what a run does to the blocks.
-/

namespace Xv6.Bio

open Ring Runs

/-! ## What a run does to the blocks -/

inductive Obs
  /-- A buffer is taken from its block. -/
  | recycled (dev blockno : ℕ)
  | modified (dev blockno : ℕ) (v : Block)
  | wrote (dev blockno : ℕ) (v : Block)
  /-- A holder releases the buffer. -/
  | left (dev blockno : ℕ) (v : Block)

def obs (s : State) : Event → List Obs
  | .bget _ dev blockno =>
    match lookup s dev blockno, unused s with
    | none, some i => [.recycled (s.buf i).dev (s.buf i).blockno]
    | _, _ => []
  | .modify c v => [.modified c.dev c.blockno v]
  | .bwrite c => [.wrote c.dev c.blockno (s.buf c.buf).data]
  | .release c => [.left c.dev c.blockno (s.buf c.buf).data]
  | .acquire _ | .fill _ | .bpin _ | .bunpin _ | .brelse _ => []

/-- What happens to the blocks in the run `es` from `s`. -/
def trace : State → List Event → List Obs
  | _, [] => []
  | s, e :: es => obs s e ++ match step s e with
    | some t => trace t es
    | none => []

/-- The last of the values that `f` takes from the trace. -/
def lastOf {β : Type*} (f : Obs → Option β) (init : β) (tr : List Obs) : β :=
  tr.foldl (fun acc o => (f o).getD acc) init

/-- The content that the last holder left in the buffer of the block, unless the buffer has been
recycled since. -/
def lastLeft (dev blockno : ℕ) : List Obs → Option Block :=
  lastOf (fun
    | .left d b v => if d = dev ∧ b = blockno then some (some v) else none
    | .recycled d b => if d = dev ∧ b = blockno then some none else none
    | _ => none) none

/-- The last modification of the block, `v₀` if there is none. -/
def latest (dev blockno : ℕ) (v₀ : Block) : List Obs → Block :=
  lastOf (fun
    | .modified d b v => if d = dev ∧ b = blockno then some v else none
    | _ => none) v₀

/-- The block has been modified and not written since. -/
def unwritten (dev blockno : ℕ) : List Obs → Bool :=
  lastOf (fun
    | .modified d b _ => if d = dev ∧ b = blockno then some true else none
    | .wrote d b _ => if d = dev ∧ b = blockno then some false else none
    | _ => none) false

theorem lastOf_append {β : Type*} (f : Obs → Option β) (init : β) (tr tr' : List Obs) :
    lastOf f init (tr ++ tr') = lastOf f (lastOf f init tr) tr' := by
  simp [lastOf, List.foldl_append]

theorem trace_concat {s t : State} {es : List Event} (h : run step s es = some t) (e : Event) :
    trace s (es ++ [e]) = trace s es ++ obs t e := by
  induction es generalizing s with
  | nil =>
    obtain rfl := Option.some.inj h
    simp only [List.nil_append, trace]
    cases step s e <;> simp
  | cons a es ih =>
    rw [run_cons, Option.bind_eq_some_iff] at h
    obtain ⟨u, hu, h⟩ := h
    simp only [List.cons_append, trace, hu, ih h, List.append_assoc]

/-- The guard and the result of each step. -/
def Stepped (s : State) (e : Event) (t : State) : Prop :=
  match e with
  | .bget p dev blockno => 1 ≤ dev ∧ t = bget p dev blockno s
  | .acquire c => (c, Stage.waiting) ∈ s.calls ∧ (s.buf c.buf).lock = none ∧ t = acquiresleep c s
  | .fill c => (c, Stage.locked) ∈ s.calls ∧ t = breadFill c s
  | .modify c v => (c, Stage.ready) ∈ s.calls ∧ t = modify c v s
  | .bwrite c => (c, Stage.ready) ∈ s.calls ∧ t = bwrite c s
  | .bpin c => (c, Stage.ready) ∈ s.calls ∧ t = bpin c.buf s
  | .bunpin i => 0 < s.pins i ∧ t = bunpin i s
  | .release c => (c, Stage.ready) ∈ s.calls ∧ t = releasesleep c s
  | .brelse c => (c, Stage.releasing) ∈ s.calls ∧ t = brelse c s

theorem stepped_of_step {s t : State} {e : Event} (h : step s e = some t) : Stepped s e t := by
  unfold step at h
  split_ifs at h
  cases e with
  | acquire c =>
    simp only at h
    split_ifs at h with hg
    exact ⟨hg.1, hg.2, (Option.some.inj h).symm⟩
  | _ =>
    simp only at h
    split_ifs at h with hg
    exact ⟨hg, (Option.some.inj h).symm⟩

/-! ## The invariant -/

/-- The calls that hold a reference to buffer `i`. -/
def holders (s : State) (i : Fin NBUF) : ℕ := s.calls.countP (·.1.buf = i)

/-- The call has the sleep-lock of buffer `i`. -/
def owns (i : Fin NBUF) (x : Call × Stage) : Bool := x.1.buf = i ∧ (x.2 = .locked ∨ x.2 = .ready)

/-- Each buffer is on the list once. -/
def Listed (s : State) : Prop :=
  ∃ l : List (Fin NBUF), IsRing s.links none (l.map some) ∧ ∀ i, i ∈ l

structure Inv (s : State) : Prop where
  listed : Listed s
  unique : ∀ i j, 1 ≤ (s.buf i).dev → (s.buf i).dev = (s.buf j).dev →
    (s.buf i).blockno = (s.buf j).blockno → i = j
  refcnt : ∀ i, (s.buf i).refcnt = holders s i + s.pins i
  call : ∀ x ∈ s.calls, 1 ≤ x.1.dev ∧ (s.buf x.1.buf).dev = x.1.dev ∧
    (s.buf x.1.buf).blockno = x.1.blockno
  lock : ∀ x ∈ s.calls, owns x.1.buf x → (s.buf x.1.buf).lock = some x.1.pid
  owner : ∀ i, s.calls.countP (owns i) ≤ 1
  valid : ∀ x ∈ s.calls, x.2 = .ready → (s.buf x.1.buf).valid = true

/-- No buffer has so many holders and pins that its count wraps. -/
def Countable (s : State) : Prop := ∀ i, holders s i + s.pins i < 2 ^ 32

variable {s t : State} {i j : Fin NBUF} {c : Call} {e : Event}

/-! ## The list -/

theorem listed_linkAll (bs l : List (Fin NBUF)) (k : Links Node) (hk : IsRing k none (l.map some))
    (hn : (bs ++ l).Nodup) : IsRing (linkAll bs k) none ((bs.reverse ++ l).map some) := by
  induction bs generalizing l k with
  | nil => simpa [linkAll] using hk
  | cons b bs ih =>
    have hb : b ∉ l := fun h => (List.nodup_cons.1 hn).1 (List.mem_append_right _ h)
    have hk' := hk.insertFront (b := some b) (by simpa using hb)
    have hn' : (bs ++ b :: l).Nodup := List.perm_middle.nodup_iff.2 hn
    simpa [linkAll] using ih (b :: l) _ hk' hn'

theorem listed_binit (d : ℕ → ℕ → Block) : Listed (binit d) := by
  refine ⟨(List.finRange NBUF).reverse, ?_, by simp⟩
  have hempty : IsRing (⟨fun _ => none, fun _ => none⟩ : Links Node) none (List.map some []) :=
    ⟨⟨rfl, rfl⟩, List.nodup_singleton _⟩
  simpa [binit] using listed_linkAll (List.finRange NBUF) [] _ hempty
    (by simpa using List.nodup_finRange NBUF)

theorem Listed.touch (h : Listed s) (i : Fin NBUF) :
    ∃ l : List (Fin NBUF), IsRing (insertFront (unlink s.links (some i)) none (some i)) none
      (l.map some) ∧ ∀ j, j ∈ l := by
  obtain ⟨l, hring, hall⟩ := h
  obtain ⟨l₁, l₂, rfl⟩ := List.append_of_mem (hall i)
  rw [List.map_append, List.map_cons] at hring
  have hi : some i ∉ (none : Node) :: (l₁.map some ++ l₂.map some) := by
    have := (List.nodup_cons.1 hring.nodup).2
    rw [List.perm_middle.nodup_iff, List.nodup_cons] at this
    simpa using this.1
  refine ⟨i :: (l₁ ++ l₂), by simpa using hring.unlink.insertFront hi, fun j => ?_⟩
  have := hall j
  simp only [List.mem_append, List.mem_cons] at this ⊢
  tauto

theorem Listed.scan (h : Listed s) :
    ∃ l : List (Fin NBUF), (∀ i, i ∈ l) ∧ (∀ dev blockno, lookup s dev blockno =
        l.find? fun i => (s.buf i).dev == dev && (s.buf i).blockno == blockno) ∧
      unused s = l.reverse.find? fun i => (s.buf i).refcnt == 0 := by
  obtain ⟨l, hring, hall⟩ := h
  have hn : l.Nodup := List.Nodup.of_map _ (List.nodup_cons.1 hring.nodup).2
  have hlen : (l.map some).length < NBUF + 1 := by
    have := hn.length_le_card
    rw [Fintype.card_fin] at this
    simpa using Nat.lt_succ_of_le this
  have hfind (l : List (Fin NBUF)) (p : Fin NBUF → Bool) :
      ((l.map some).find? (onBuf p)).join = l.find? p := by
    rw [List.find?_map]
    have : onBuf p ∘ some = p := rfl
    rw [this]
    cases l.find? p <;> rfl
  refine ⟨l, hall, fun dev blockno => ?_, ?_⟩
  · rw [lookup, hring.scan_next _ hlen, hfind]
  · rw [unused, hring.scan_prev _ hlen, ← List.map_reverse, hfind]

theorem Listed.lookup_some (h : Listed s) {dev blockno : ℕ} (hi : lookup s dev blockno = some i) :
    (s.buf i).dev = dev ∧ (s.buf i).blockno = blockno := by
  obtain ⟨l, -, hl, -⟩ := h.scan
  rw [hl] at hi
  simpa using List.find?_some hi

theorem Listed.lookup_none (h : Listed s) {dev blockno : ℕ} (hi : lookup s dev blockno = none)
    (i : Fin NBUF) : ¬ ((s.buf i).dev = dev ∧ (s.buf i).blockno = blockno) := by
  obtain ⟨l, hall, hl, -⟩ := h.scan
  rw [hl, List.find?_eq_none] at hi
  simpa using hi i (hall i)

theorem Listed.unused_some (h : Listed s) (hi : unused s = some i) : (s.buf i).refcnt = 0 := by
  obtain ⟨l, -, -, hl⟩ := h.scan
  rw [hl] at hi
  simpa using List.find?_some hi

/-! ## One buffer changes -/

theorem inc_eq {n : ℕ} (h : n + 1 < 2 ^ 32) : inc n = n + 1 := Nat.mod_eq_of_lt h

theorem dec_eq {n : ℕ} (h : n + 1 < 2 ^ 32) : dec (n + 1) = n := by
  unfold dec
  omega

/-- A field that the new value of buffer `i` keeps is kept in all buffers. -/
theorem keep {β : Type*} (f : Buf → β) {b : Buf} (ht : t.buf = Function.update s.buf i b)
    (h : f b = f (s.buf i)) (j : Fin NBUF) : f (t.buf j) = f (s.buf j) := by
  rw [ht]
  by_cases hji : j = i
  · rw [hji, Function.update_self, h]
  · rw [Function.update_of_ne hji]

theorem perm_erase {st : Stage} (h : (c, st) ∈ s.calls) :
    s.calls.Perm ((c, st) :: s.calls.erase (c, st)) := List.perm_cons_erase h

theorem holders_advance {st st' : Stage} (h : (c, st) ∈ s.calls) (i : Fin NBUF) :
    ((c, st') :: s.calls.erase (c, st)).countP (·.1.buf = i) = holders s i := by
  rw [holders, (perm_erase h).countP_eq, List.countP_cons, List.countP_cons]

theorem Inv.owns_erase (h : Inv s) {st : Stage} (hc : (c, st) ∈ s.calls)
    (hst : owns c.buf (c, st) = true) : (s.calls.erase (c, st)).countP (owns c.buf) = 0 := by
  have := h.owner c.buf
  rw [(perm_erase hc).countP_eq, List.countP_cons_of_pos hst] at this
  omega

/-- The buffers keep their blocks. -/
def SameKeys (s t : State) : Prop :=
  ∀ j, (t.buf j).dev = (s.buf j).dev ∧ (t.buf j).blockno = (s.buf j).blockno

theorem sameKeys_of_buf {b : Buf} (hbuf : t.buf = Function.update s.buf i b)
    (hdev : b.dev = (s.buf i).dev := by rfl) (hblk : b.blockno = (s.buf i).blockno := by rfl) :
    SameKeys s t := fun j => ⟨keep Buf.dev hbuf hdev j, keep Buf.blockno hbuf hblk j⟩

theorem Inv.unique_of_sameKeys (h : Inv s) (hk : SameKeys s t) (i j : Fin NBUF)
    (h₁ : 1 ≤ (t.buf i).dev) (h₂ : (t.buf i).dev = (t.buf j).dev)
    (h₃ : (t.buf i).blockno = (t.buf j).blockno) : i = j := by
  rw [(hk i).1] at h₁
  rw [(hk i).1, (hk j).1] at h₂
  rw [(hk i).2, (hk j).2] at h₃
  exact h.unique i j h₁ h₂ h₃

/-- The invariant after a step that keeps the blocks of the buffers and moves a call from one stage
to the next. -/
theorem Inv.advance (h : Inv s) {st st' : Stage} (hc : (c, st) ∈ s.calls)
    (hcalls : t.calls = (c, st') :: s.calls.erase (c, st)) (hlinks : t.links = s.links)
    (hpins : t.pins = s.pins) (hk : SameKeys s t) (href : ∀ j, (t.buf j).refcnt = (s.buf j).refcnt)
    (hlock : ∀ x ∈ t.calls, owns x.1.buf x → (t.buf x.1.buf).lock = some x.1.pid)
    (howner : ∀ j, t.calls.countP (owns j) ≤ 1)
    (hvalid : ∀ x ∈ t.calls, x.2 = .ready → (t.buf x.1.buf).valid = true) : Inv t where
  listed := by
    unfold Listed
    rw [hlinks]
    exact h.listed
  unique := h.unique_of_sameKeys hk
  refcnt j := by rw [href, h.refcnt, hpins, ← holders_advance hc j, holders, hcalls]
  call x hx := by
    rw [(hk _).1, (hk _).2]
    rw [hcalls] at hx
    rcases List.mem_cons.1 hx with rfl | hx
    · exact h.call (c, st) hc
    · exact h.call x (List.mem_of_mem_erase hx)
  lock := hlock
  owner := howner
  valid := hvalid

theorem inv_acquiresleep (h : Inv s) (hc : (c, Stage.waiting) ∈ s.calls)
    (hfree : (s.buf c.buf).lock = none) : Inv (acquiresleep c s) := by
  have hnone : ∀ x ∈ s.calls, owns c.buf x = false := by
    intro x hx
    by_contra ho
    rw [Bool.not_eq_false] at ho
    have hbuf : x.1.buf = c.buf := by
      simp only [owns, Bool.decide_and, Bool.and_eq_true, decide_eq_true_eq] at ho
      exact ho.1
    have hl := h.lock x hx (by rwa [hbuf])
    rw [hbuf, hfree] at hl
    cases hl
  have hbuf : (acquiresleep c s).buf =
      Function.update s.buf c.buf { s.buf c.buf with lock := some c.pid } := rfl
  refine h.advance hc rfl rfl rfl (sameKeys_of_buf hbuf) (keep Buf.refcnt hbuf rfl)
    (fun x hx ho => ?_) (fun j => ?_) fun x hx hr => ?_
  · rcases List.mem_cons.1 hx with rfl | hx
    · rw [hbuf, Function.update_self]
    · have hx' := List.mem_of_mem_erase hx
      have hne : x.1.buf ≠ c.buf := by
        intro e
        rw [e, hnone x hx'] at ho
        cases ho
      rw [hbuf, Function.update_of_ne hne]
      exact h.lock x hx' ho
  · by_cases hj : j = c.buf
    · subst hj
      have hzero : (s.calls.erase (c, Stage.waiting)).countP (owns c.buf) = 0 := by
        rw [List.countP_eq_zero]
        intro x hx
        rw [hnone x (List.mem_of_mem_erase hx)]
        simp
      change ((c, Stage.locked) :: s.calls.erase (c, .waiting)).countP (owns c.buf) ≤ 1
      rw [List.countP_cons, hzero]
      split_ifs <;> omega
    · change ((c, Stage.locked) :: s.calls.erase (c, .waiting)).countP (owns j) ≤ 1
      rw [List.countP_cons_of_neg (by simp [owns, Ne.symm hj])]
      exact (List.erase_sublist.countP_le).trans (h.owner j)
  · rcases List.mem_cons.1 hx with rfl | hx
    · cases hr
    · rw [keep Buf.valid hbuf rfl]
      exact h.valid x (List.mem_of_mem_erase hx) hr

theorem buf_breadFill (c : Call) (s : State) : ∃ b : Buf,
    (breadFill c s).buf = Function.update s.buf c.buf b ∧ b.dev = (s.buf c.buf).dev ∧
      b.blockno = (s.buf c.buf).blockno ∧ b.refcnt = (s.buf c.buf).refcnt ∧
      b.lock = (s.buf c.buf).lock ∧ b.valid = true ∧
      b.data = if (s.buf c.buf).valid then (s.buf c.buf).data
        else s.disk (s.buf c.buf).dev (s.buf c.buf).blockno := by
  by_cases hv : (s.buf c.buf).valid = true
  · refine ⟨s.buf c.buf, ?_, rfl, rfl, rfl, rfl, hv, by rw [if_pos hv]⟩
    simp [breadFill, hv, State.advance]
  · refine ⟨{ s.buf c.buf with
      data := s.disk (s.buf c.buf).dev (s.buf c.buf).blockno, valid := true }, ?_,
      rfl, rfl, rfl, rfl, rfl, by rw [if_neg hv]⟩
    simp [breadFill, hv, State.advance, State.setBuf]

theorem breadFill_rest (c : Call) (s : State) :
    (breadFill c s).calls = (c, .ready) :: s.calls.erase (c, .locked) ∧
      (breadFill c s).links = s.links ∧ (breadFill c s).pins = s.pins ∧
      (breadFill c s).disk = s.disk := by
  simp only [breadFill, State.advance]
  split_ifs <;> exact ⟨rfl, rfl, rfl, rfl⟩

theorem owns_locked (c : Call) : owns c.buf (c, .locked) = true := by simp [owns]

theorem owns_ready (c : Call) : owns c.buf (c, .ready) = true := by simp [owns]

theorem inv_breadFill (h : Inv s) (hc : (c, Stage.locked) ∈ s.calls) : Inv (breadFill c s) := by
  obtain ⟨b, hbuf, hdev, hblk, href, hlk, hval, -⟩ := buf_breadFill c s
  obtain ⟨hcalls, hlinks, hpins, -⟩ := breadFill_rest c s
  refine h.advance hc hcalls hlinks hpins (sameKeys_of_buf hbuf hdev hblk) (keep Buf.refcnt hbuf href)
    (fun x hx ho => ?_) (fun j => ?_) fun x hx hr => ?_
  · rw [keep Buf.lock hbuf hlk]
    rw [hcalls] at hx
    rcases List.mem_cons.1 hx with rfl | hx
    · exact h.lock (c, .locked) hc (owns_locked c)
    · exact h.lock x (List.mem_of_mem_erase hx) ho
  · have hown := h.owner j
    rw [(perm_erase hc).countP_eq, List.countP_cons] at hown
    rw [hcalls, List.countP_cons]
    simpa [owns] using hown
  · rw [hcalls] at hx
    by_cases hb : x.1.buf = c.buf
    · rw [hb, hbuf, Function.update_self, hval]
    · rcases List.mem_cons.1 hx with rfl | hx
      · exact absurd rfl hb
      · rw [hbuf, Function.update_of_ne hb]
        exact h.valid x (List.mem_of_mem_erase hx) hr

theorem Inv.holdingsleep (h : Inv s) (hc : (c, Stage.ready) ∈ s.calls) :
    holdingsleep s c = true := by
  simp [Bio.holdingsleep, h.lock (c, .ready) hc (owns_ready c)]

theorem releasesleep_eq (h : Inv s) (hc : (c, Stage.ready) ∈ s.calls) : releasesleep c s =
    (s.setBuf c.buf { s.buf c.buf with lock := none }).advance c .ready .releasing := by
  rw [releasesleep, if_pos (h.holdingsleep hc)]

theorem inv_releasesleep (h : Inv s) (hc : (c, Stage.ready) ∈ s.calls) :
    Inv (releasesleep c s) := by
  rw [releasesleep_eq h hc]
  set t := (s.setBuf c.buf { s.buf c.buf with lock := none }).advance c .ready .releasing with ht
  have hbuf : t.buf = Function.update s.buf c.buf { s.buf c.buf with lock := none } := rfl
  have hzero := h.owns_erase hc (owns_ready c)
  refine h.advance hc rfl rfl rfl (sameKeys_of_buf hbuf) (keep Buf.refcnt hbuf rfl)
    (fun x hx ho => ?_) (fun j => ?_) fun x hx hr => ?_
  · rcases List.mem_cons.1 hx with rfl | hx
    · simp [owns] at ho
    · have hne : x.1.buf ≠ c.buf := by
        intro e
        rw [List.countP_eq_zero] at hzero
        exact hzero x hx (e ▸ ho)
      rw [hbuf, Function.update_of_ne hne]
      exact h.lock x (List.mem_of_mem_erase hx) ho
  · change ((c, Stage.releasing) :: s.calls.erase (c, .ready)).countP (owns j) ≤ 1
    rw [List.countP_cons_of_neg (by simp [owns])]
    exact (List.erase_sublist.countP_le).trans (h.owner j)
  · rcases List.mem_cons.1 hx with rfl | hx
    · cases hr
    · rw [keep Buf.valid hbuf rfl]
      exact h.valid x (List.mem_of_mem_erase hx) hr

theorem inv_bwrite (h : Inv s) (hc : (c, Stage.ready) ∈ s.calls) : Inv (bwrite c s) := by
  rw [bwrite, if_pos (h.holdingsleep hc)]
  exact ⟨h.listed, h.unique, h.refcnt, h.call, h.lock, h.owner, h.valid⟩

theorem inv_modify (h : Inv s) (c : Call) (v : Block) : Inv (modify c v s) := by
  have hbuf : (modify c v s).buf =
      Function.update s.buf c.buf { s.buf c.buf with data := v } := rfl
  have hk : SameKeys s (modify c v s) := sameKeys_of_buf hbuf
  exact
    { listed := h.listed
      unique := h.unique_of_sameKeys hk
      refcnt := fun j => (keep Buf.refcnt hbuf rfl j).trans (h.refcnt j)
      call := fun x hx => by
        rw [(hk _).1, (hk _).2]
        exact h.call x hx
      lock := fun x hx ho => (keep Buf.lock hbuf rfl _).trans (h.lock x hx ho)
      owner := h.owner
      valid := fun x hx hr => (keep Buf.valid hbuf rfl _).trans (h.valid x hx hr) }

/-- The invariant after a step that changes the count of one buffer. -/
theorem Inv.recount (h : Inv s) {r : ℕ}
    (hbuf : t.buf = Function.update s.buf i { s.buf i with refcnt := r }) (hlisted : Listed t)
    (hr : r = holders t i + t.pins i)
    (hother : ∀ j, j ≠ i → holders t j + t.pins j = holders s j + s.pins j)
    (hcalls : ∀ x ∈ t.calls, x ∈ s.calls ∨ x.2 = .waiting ∧ 1 ≤ x.1.dev ∧
      (s.buf x.1.buf).dev = x.1.dev ∧ (s.buf x.1.buf).blockno = x.1.blockno)
    (howner : ∀ j, t.calls.countP (owns j) ≤ s.calls.countP (owns j)) : Inv t := by
  have hk : SameKeys s t := sameKeys_of_buf hbuf
  exact
    { listed := hlisted
      unique := h.unique_of_sameKeys hk
      refcnt := fun j => by
        by_cases hj : j = i
        · rw [hj, hbuf, Function.update_self, hr]
        · rw [hbuf, Function.update_of_ne hj, h.refcnt, hother j hj]
      call := fun x hx => by
        rw [(hk _).1, (hk _).2]
        rcases hcalls x hx with hx | ⟨-, hx⟩
        · exact h.call x hx
        · exact hx
      lock := fun x hx ho => by
        rw [keep Buf.lock hbuf rfl]
        rcases hcalls x hx with hx | ⟨hw, -⟩
        · exact h.lock x hx ho
        · simp [owns, hw] at ho
      owner := fun j => (howner j).trans (h.owner j)
      valid := fun x hx hready => by
        rw [keep Buf.valid hbuf rfl]
        rcases hcalls x hx with hx | ⟨hw, -⟩
        · exact h.valid x hx hready
        · rw [hw] at hready
          cases hready }

theorem inv_bpin (h : Inv s) (ht : Countable (bpin i s)) : Inv (bpin i s) := by
  have hpins : (bpin i s).pins i = s.pins i + 1 := Function.update_self _ _ _
  have hcount := ht i
  rw [hpins, show holders (bpin i s) i = holders s i from rfl] at hcount
  refine h.recount (i := i) rfl h.listed ?_ (fun j hj => ?_) (fun x hx => .inl hx) fun j => le_rfl
  · rw [h.refcnt, inc_eq (by omega), hpins]
    rfl
  · change holders s j + Function.update s.pins i (s.pins i + 1) j = _
    rw [Function.update_of_ne hj]

theorem inv_bunpin (h : Inv s) (hs : Countable s) (hp : 0 < s.pins i) : Inv (bunpin i s) := by
  have hpins : (bunpin i s).pins i = s.pins i - 1 := Function.update_self _ _ _
  have hcount := hs i
  refine h.recount (i := i) rfl h.listed ?_ (fun j hj => ?_) (fun x hx => .inl hx) fun j => le_rfl
  · rw [h.refcnt, hpins, show holders s i + s.pins i = holders s i + (s.pins i - 1) + 1 by omega,
      dec_eq (by omega)]
    rfl
  · change holders s j + Function.update s.pins i (s.pins i - 1) j = _
    rw [Function.update_of_ne hj]

theorem inv_brelse (h : Inv s) (hs : Countable s) (hc : (c, Stage.releasing) ∈ s.calls) :
    Inv (brelse c s) := by
  have hholders (j : Fin NBUF) :
      holders s j = holders (brelse c s) j + if c.buf = j then 1 else 0 := by
    rw [holders, (perm_erase hc).countP_eq, List.countP_cons]
    simp only [decide_eq_true_eq]
    rfl
  have hcount := hs c.buf
  have hc' := hholders c.buf
  rw [if_pos rfl] at hc'
  have hpins : (brelse c s).pins = s.pins := rfl
  refine h.recount (i := c.buf) rfl ?_ ?_ (fun j hj => ?_)
    (fun x hx => .inl (List.mem_of_mem_erase hx)) fun j => List.erase_sublist.countP_le
  · simp only [Listed, brelse]
    split_ifs
    · exact h.listed.touch c.buf
    · exact h.listed
  · rw [h.refcnt, hpins, hc', show holders (brelse c s) c.buf + 1 + s.pins c.buf =
      holders (brelse c s) c.buf + s.pins c.buf + 1 by omega, dec_eq (by omega)]
  · rw [hholders j, if_neg (Ne.symm hj), hpins, add_zero]

theorem holders_cons {p dev blockno : ℕ} (hcalls : t.calls = (⟨p, dev, blockno, i⟩, .waiting) ::
    s.calls) (j : Fin NBUF) : holders t j = holders s j + if i = j then 1 else 0 := by
  rw [holders, hcalls, List.countP_cons]
  simp only [decide_eq_true_eq]
  rfl

theorem inv_bgetHit (h : Inv s) {p dev blockno : ℕ} (hdev : 1 ≤ dev)
    (hkey : (s.buf i).dev = dev ∧ (s.buf i).blockno = blockno)
    (ht : Countable (bgetHit p dev blockno i s)) : Inv (bgetHit p dev blockno i s) := by
  have hholders := holders_cons (t := bgetHit p dev blockno i s) (s := s) rfl
  have hpins : (bgetHit p dev blockno i s).pins = s.pins := rfl
  have hcount := ht i
  rw [hholders, if_pos rfl, hpins] at hcount
  refine h.recount (i := i) rfl h.listed ?_ (fun j hj => ?_) (fun x hx => ?_) fun j => ?_
  · rw [h.refcnt, inc_eq (by omega), hholders, if_pos rfl, hpins]
    omega
  · rw [hholders, if_neg (Ne.symm hj), hpins, add_zero]
  · rcases List.mem_cons.1 hx with rfl | hx
    · exact .inr ⟨rfl, hdev, hkey.1, hkey.2⟩
    · exact .inl hx
  · rw [bgetHit, List.countP_cons_of_neg (by simp [owns])]

theorem Inv.unreferenced (h : Inv s) (hzero : (s.buf i).refcnt = 0) :
    (∀ x ∈ s.calls, x.1.buf ≠ i) ∧ holders s i = 0 ∧ s.pins i = 0 := by
  rw [h.refcnt] at hzero
  refine ⟨fun x hx e => ?_, by omega, by omega⟩
  have : 0 < holders s i := List.countP_pos_iff.2 ⟨x, hx, by simpa using e⟩
  omega

theorem inv_bgetRecycle (h : Inv s) {p dev blockno : ℕ} (hdev : 1 ≤ dev)
    (habsent : ∀ j, ¬ ((s.buf j).dev = dev ∧ (s.buf j).blockno = blockno))
    (hzero : (s.buf i).refcnt = 0) : Inv (bgetRecycle p dev blockno i s) := by
  have hbuf : (bgetRecycle p dev blockno i s).buf = Function.update s.buf i { s.buf i with
    dev := dev, blockno := blockno, valid := false, refcnt := 1 } := rfl
  have hholders := holders_cons (t := bgetRecycle p dev blockno i s) (s := s) rfl
  obtain ⟨hnot, hh, hp⟩ := h.unreferenced hzero
  have hold {x : Call × Stage} (hx : x ∈ s.calls) :
      (bgetRecycle p dev blockno i s).buf x.1.buf = s.buf x.1.buf := by
    rw [hbuf, Function.update_of_ne (hnot x hx)]
  exact
    { listed := h.listed
      unique := fun a b h₁ h₂ h₃ => by
        rw [hbuf] at h₁ h₂ h₃
        by_cases ha : a = i
        · by_cases hb : b = i
          · rw [ha, hb]
          · rw [ha, Function.update_self, Function.update_of_ne hb] at h₂ h₃
            exact absurd ⟨h₂.symm, h₃.symm⟩ (habsent b)
        · rw [Function.update_of_ne ha] at h₁ h₂ h₃
          by_cases hb : b = i
          · rw [hb, Function.update_self] at h₂ h₃
            exact absurd ⟨h₂, h₃⟩ (habsent a)
          · rw [Function.update_of_ne hb] at h₂ h₃
            exact h.unique a b h₁ h₂ h₃
      refcnt := fun j => by
        rw [hholders, show (bgetRecycle p dev blockno i s).pins = s.pins from rfl]
        by_cases hj : j = i
        · rw [hj, hbuf, Function.update_self, if_pos rfl, hh, hp]
        · rw [hbuf, Function.update_of_ne hj, if_neg (Ne.symm hj), h.refcnt, add_zero]
      call := fun x hx => by
        rcases List.mem_cons.1 hx with rfl | hx
        · rw [hbuf, Function.update_self]
          exact ⟨hdev, rfl, rfl⟩
        · rw [hold hx]
          exact h.call x hx
      lock := fun x hx ho => by
        rcases List.mem_cons.1 hx with rfl | hx
        · simp [owns] at ho
        · rw [hold hx]
          exact h.lock x hx ho
      owner := fun j => by
        rw [bgetRecycle, List.countP_cons_of_neg (by simp [owns])]
        exact h.owner j
      valid := fun x hx hr => by
        rcases List.mem_cons.1 hx with rfl | hx
        · cases hr
        · rw [hold hx]
          exact h.valid x hx hr }

theorem bget_cases (h : Inv s) (p dev blockno : ℕ) :
    (∃ i, ((s.buf i).dev = dev ∧ (s.buf i).blockno = blockno) ∧
      bget p dev blockno s = bgetHit p dev blockno i s ∧ obs s (.bget p dev blockno) = []) ∨
    (∃ i, (∀ j, ¬ ((s.buf j).dev = dev ∧ (s.buf j).blockno = blockno)) ∧ (s.buf i).refcnt = 0 ∧
      bget p dev blockno s = bgetRecycle p dev blockno i s ∧
      obs s (.bget p dev blockno) = [.recycled (s.buf i).dev (s.buf i).blockno]) ∨
    (bget p dev blockno s = { s with panicked := true } ∧ obs s (.bget p dev blockno) = []) := by
  cases hi : lookup s dev blockno with
  | some i => exact .inl ⟨i, h.listed.lookup_some hi, by simp [bget, hi], by simp [obs, hi]⟩
  | none =>
    cases hu : unused s with
    | some i =>
      exact .inr (.inl ⟨i, h.listed.lookup_none hi, h.listed.unused_some hu, by simp [bget, hi, hu],
        by simp [obs, hi, hu]⟩)
    | none => exact .inr (.inr ⟨by simp [bget, hi, hu], by simp [obs, hi, hu]⟩)

theorem inv_bget (h : Inv s) {p dev blockno : ℕ} (hdev : 1 ≤ dev)
    (ht : Countable (bget p dev blockno s)) : Inv (bget p dev blockno s) := by
  obtain ⟨i, hkey, he, -⟩ | ⟨i, habsent, hzero, he, -⟩ | ⟨he, -⟩ := bget_cases h p dev blockno
  · rw [he] at ht ⊢
    exact inv_bgetHit h hdev hkey ht
  · rw [he]
    exact inv_bgetRecycle h hdev habsent hzero
  · rw [he]
    exact ⟨h.listed, h.unique, h.refcnt, h.call, h.lock, h.owner, h.valid⟩

theorem inv_binit (d : ℕ → ℕ → Block) : Inv (binit d) where
  listed := listed_binit d
  unique _ _ h := absurd h (by simp [binit])
  refcnt _ := rfl
  call _ hx := absurd hx List.not_mem_nil
  lock _ hx := absurd hx List.not_mem_nil
  owner _ := Nat.zero_le _
  valid _ hx := absurd hx List.not_mem_nil

theorem inv_step (h : Inv s) (hs : Countable s) (ht : Countable t) (hstep : step s e = some t) :
    Inv t := by
  have hst := stepped_of_step hstep
  cases e with
  | bget p dev blockno =>
    obtain ⟨hdev, rfl⟩ := hst
    exact inv_bget h hdev ht
  | acquire c =>
    obtain ⟨hc, hfree, rfl⟩ := hst
    exact inv_acquiresleep h hc hfree
  | fill c =>
    obtain ⟨hc, rfl⟩ := hst
    exact inv_breadFill h hc
  | modify c v =>
    obtain ⟨hc, rfl⟩ := hst
    exact inv_modify h c v
  | bwrite c =>
    obtain ⟨hc, rfl⟩ := hst
    exact inv_bwrite h hc
  | bpin c =>
    obtain ⟨hc, rfl⟩ := hst
    exact inv_bpin h ht
  | bunpin i =>
    obtain ⟨hc, rfl⟩ := hst
    exact inv_bunpin h hs hc
  | release c =>
    obtain ⟨hc, rfl⟩ := hst
    exact inv_releasesleep h hc
  | brelse c =>
    obtain ⟨hc, rfl⟩ := hst
    exact inv_brelse h hs hc

end Xv6.Bio
