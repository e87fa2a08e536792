import Xv6.Bio.Coherence

/-!
# The demand for buffers

`bget` needs a buffer that caches the block or one that nobody uses.  A buffer is in use while a call of
`bread` has not been undone by `brelse`, and while its block is in the log.  As long as the calls and the
pinned buffers are fewer than `NBUF` there is one that can be recycled.  Nothing in the kernel ensures
that: a process that waits for the disk in `bread` has a buffer, and there may be more such processes than
buffers.
-/

namespace Xv6.Bio

open Runs

def NPROC : ℕ := 64

def pinned (s : State) : ℕ := (Finset.univ.filter fun i => 0 < s.pins i).card

/-- What the processes do: at most `NPROC` of them hold at most two buffers each, and `log_write` pins the buffer of
a block once. -/
def Allowed (s : State) : Event → Prop
  | .bget p _ _ => p < NPROC ∧ s.calls.length < 2 * NPROC
  | .bpin c => s.pins c.buf = 0
  | _ => True

instance (s : State) (e : Event) : Decidable (Allowed s e) := by
  unfold Allowed
  split <;> infer_instance

/-- A block that is not cached is asked for only when fewer than `NBUF` buffers are held or pinned. -/
def Demand (s : State) : Event → Prop
  | .bget _ dev blockno => lookup s dev blockno = none → s.calls.length + pinned s < NBUF
  | _ => True

instance (s : State) (e : Event) : Decidable (Demand s e) := by
  unfold Demand
  split <;> infer_instance

variable {s t : State} {e : Event} {d : ℕ → ℕ → Block}

/-- Fewer than `NBUF` calls and pinned buffers leave a buffer that nobody uses. -/
theorem exists_unreferenced (h : s.calls.length + pinned s < NBUF) : ∃ i, holders s i = 0 ∧ s.pins i = 0 := by
  let held : Finset (Fin NBUF) := (s.calls.map fun x => x.1.buf).toFinset
  let pins : Finset (Fin NBUF) := Finset.univ.filter fun i => 0 < s.pins i
  have hheld : held.card ≤ s.calls.length := by
    calc held.card ≤ (s.calls.map fun x => x.1.buf).length := List.toFinset_card_le _
      _ = s.calls.length := List.length_map _
  have hcard : (held ∪ pins).card < (Finset.univ : Finset (Fin NBUF)).card := by
    calc (held ∪ pins).card ≤ held.card + pins.card := Finset.card_union_le _ _
      _ ≤ s.calls.length + pinned s := Nat.add_le_add_right hheld _
      _ < NBUF := h
      _ = (Finset.univ : Finset (Fin NBUF)).card := (Finset.card_fin NBUF).symm
  obtain ⟨i, -, hi⟩ := Finset.exists_mem_notMem_of_card_lt_card hcard
  rw [Finset.mem_union, not_or] at hi
  refine ⟨i, ?_, ?_⟩
  · rw [holders, List.countP_eq_zero]
    intro x hx
    rw [decide_eq_true_iff]
    rintro rfl
    exact hi.1 (List.mem_toFinset.2 (List.mem_map_of_mem hx))
  · by_contra h0
    exact hi.2 (Finset.mem_filter.2 ⟨Finset.mem_univ i, Nat.pos_of_ne_zero h0⟩)

theorem bget_panicked (h : Inv s) {p dev blockno : ℕ} (hd : Demand s (.bget p dev blockno)) :
    (bget p dev blockno s).panicked = s.panicked := by
  unfold bget
  split
  · rfl
  next hnone =>
    obtain ⟨i, hh, hp⟩ := exists_unreferenced (hd hnone)
    split
    · rfl
    next hunused =>
      obtain ⟨l, hall, -, hl⟩ := h.listed.scan
      rw [hl, List.find?_eq_none] at hunused
      have hfree := hunused i (List.mem_reverse.2 (hall i))
      rw [h.refcnt, hh, hp] at hfree
      exact absurd rfl hfree

/-- The bounds that hold in every run of at most `NPROC` processes. -/
structure Bounded (s : State) : Prop where
  inv : Inv s
  calls : s.calls.length ≤ 2 * NPROC
  pins : ∀ i, s.pins i ≤ 1
  running : s.panicked = false

theorem countable_of_bounds (h₁ : s.calls.length ≤ 2 * NPROC) (h₂ : ∀ i, s.pins i ≤ 1) : Countable s := by
  intro i
  have hle : holders s i ≤ s.calls.length := List.countP_le_length
  have := h₂ i
  change s.calls.length ≤ 2 * 64 at h₁
  omega

theorem length_advance {c : Call} {st : Stage} (hc : (c, st) ∈ s.calls) (st' : Stage) :
    (s.advance c st st').calls.length = s.calls.length := by
  have := List.length_pos_of_mem hc
  rw [State.advance, List.length_cons, List.length_erase_of_mem hc]
  omega

/-- The calls, the pins and the panic flag after a step. -/
theorem bounds_step (h : Bounded s) (ha : Allowed s e) (hd : Demand s e) (hstep : step s e = some t) :
    t.calls.length ≤ 2 * NPROC ∧ (∀ i, t.pins i ≤ 1) ∧ t.panicked = false := by
  have hst := stepped_of_step hstep
  have hholds {c : Call} {st : Stage} (hc : (c, st) ∈ s.calls) (hst : st = .ready) : holdingsleep s c = true := by
    have hlock := h.inv.lock _ hc (by simp [owns, hst])
    simp [holdingsleep, hlock]
  cases e with
  | bget p dev blockno =>
    obtain ⟨-, rfl⟩ := hst
    have hcalls := ha.2
    refine ⟨?_, ?_, (bget_panicked h.inv hd).trans h.running⟩
    · unfold bget
      split
      · exact hcalls
      · split
        · exact hcalls
        · exact h.calls
    · unfold bget
      split
      · exact h.pins
      · split <;> exact h.pins
  | acquire c =>
    obtain ⟨hc, -, rfl⟩ := hst
    exact ⟨(length_advance (s := s.setBuf _ _) hc _).trans_le h.calls, h.pins, h.running⟩
  | fill c =>
    obtain ⟨hc, rfl⟩ := hst
    unfold breadFill
    dsimp only
    split
    · exact ⟨(length_advance hc _).trans_le h.calls, h.pins, h.running⟩
    · exact ⟨(length_advance (s := s.setBuf _ _) hc _).trans_le h.calls, h.pins, h.running⟩
  | modify c v =>
    obtain ⟨-, rfl⟩ := hst
    exact ⟨h.calls, h.pins, h.running⟩
  | bwrite c =>
    obtain ⟨hc, rfl⟩ := hst
    rw [bwrite, if_pos (hholds hc rfl)]
    exact ⟨h.calls, h.pins, h.running⟩
  | bpin c =>
    obtain ⟨-, rfl⟩ := hst
    refine ⟨h.calls, fun i => ?_, h.running⟩
    change Function.update s.pins c.buf (s.pins c.buf + 1) i ≤ 1
    by_cases hi : i = c.buf
    · rw [hi, Function.update_self, show s.pins c.buf = 0 from ha]
    · rw [Function.update_of_ne hi]
      exact h.pins i
  | bunpin j =>
    obtain ⟨-, rfl⟩ := hst
    refine ⟨h.calls, fun i => ?_, h.running⟩
    change Function.update s.pins j (s.pins j - 1) i ≤ 1
    by_cases hi : i = j
    · rw [hi, Function.update_self]
      exact (Nat.sub_le _ _).trans (h.pins j)
    · rw [Function.update_of_ne hi]
      exact h.pins i
  | release c =>
    obtain ⟨hc, rfl⟩ := hst
    rw [releasesleep, if_pos (hholds hc rfl)]
    exact ⟨(length_advance (s := s.setBuf _ _) hc _).trans_le h.calls, h.pins, h.running⟩
  | brelse c =>
    obtain ⟨-, rfl⟩ := hst
    exact ⟨List.length_erase_le.trans h.calls, h.pins, h.running⟩

theorem Bounded.step (h : Bounded s) (ha : Allowed s e) (hd : Demand s e) (hstep : Bio.step s e = some t) : Bounded t := by
  obtain ⟨hcalls, hpins, hrunning⟩ := bounds_step h ha hd hstep
  exact ⟨inv_step h.inv (countable_of_bounds h.calls h.pins) (countable_of_bounds hcalls hpins) hstep, hcalls, hpins, hrunning⟩

theorem bounded_binit (d : ℕ → ℕ → Block) : Bounded (binit d) := ⟨inv_binit d, Nat.zero_le _, fun _ => Nat.zero_le _, rfl⟩

/-- In every run of at most `NPROC` processes in which no block that is not cached is asked for while `NBUF` buffers are
held or pinned, there is no panic. -/
theorem buffers_suffice {es : List Event} (hok : StepsOk step (fun s e => Allowed s e ∧ Demand s e) (binit d) es)
    (hrun : run step (binit d) es = some s) : s.panicked = false := by
  have hstep (s : State) (e : Event) (t : State) (h : Bounded s) (hok : Allowed s e ∧ Demand s e)
      (ht : step s e = some t) : Bounded t := h.step hok.1 hok.2 ht
  exact (run_invariant hstep (bounded_binit d) hok hrun).running

theorem buffers_suffice_handover : ∃ s, run step (binit zeroDisk) handover = some s ∧ s.panicked = false := by
  have hsome : (run step (binit zeroDisk) handover).isSome = true := by decide +kernel
  obtain ⟨s, hrun⟩ := Option.isSome_iff_exists.1 hsome
  exact ⟨s, hrun, buffers_suffice (by decide +kernel) hrun⟩

/-! ## Thirty-one readers -/

/-- What a process does with buffers. -/
inductive Op
  | bread (blockno : ℕ)
  | brelse (blockno : ℕ)
  deriving DecidableEq

/-- The buffer operations of `fileread`, for a file whose inode is in memory: `readi` reads the blocks of the range, one
after the other. -/
def fileread (blocks : List ℕ) : List Op := blocks.flatMap fun b => [.bread b, .brelse b]

/-- The operations that process `p` has begun in a run. -/
def begun (p : ℕ) (es : List Event) : List Op :=
  es.filterMap fun e =>
    match e with
    | .bget q _ b => if q = p then some (.bread b) else none
    | .release c => if c.pid = p then some (.brelse c.blockno) else none
    | _ => none

/-- Process `p` calls `bread` for block `100 + p`; none of the blocks arrives. -/
def manyReaders : List Event := (List.range 31).map fun p => .bget p 1 (100 + p)

/-- Thirty-one processes that each read a file of their own: the last `bget` panics. -/
theorem readers_exhaust_buffers : StepsOk step Allowed (binit zeroDisk) manyReaders ∧
    (∀ p < NPROC, begun p manyReaders <+: fileread [100 + p]) ∧
    ∃ s, run step (binit zeroDisk) manyReaders = some s ∧ s.panicked = true := by
  refine ⟨by decide +kernel, by decide +kernel, ?_⟩
  have hrun : ((run step (binit zeroDisk) manyReaders).map State.panicked) = some true := by decide +kernel
  obtain ⟨s, hs, hp⟩ := Option.map_eq_some_iff.1 hrun
  exact ⟨s, hs, hp⟩

end Xv6.Bio
