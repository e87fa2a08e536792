import Xv6.Log.Code

/-!
# The log reservation

`begin_op` admits operations against `LOGSIZE`, but the log area that `mkfs` makes has `LOGSIZE`
blocks including the header, and `log_write` panics when `log.size - 1` blocks are logged already,
also when the block would be absorbed.  So three operations within their budget can panic
(`three_ops_panic`).  `log_reservation_iff` says exactly which interleavings are safe: those in which
no `log_write` is called when the operations of its group have already logged `LOGSIZE - 1` blocks.
-/

namespace Xv6.Log

open Runs

/-! ## What the operations of a run log -/

/-- The operations in progress and the distinct blocks logged since the last time there were none. -/
structure Group where
  ops : List ℕ
  logged : List ℕ

def groupStep (g : Group) : Event → Group
  | .beginOp p => { g with ops := p :: g.ops }
  | .logWrite _ b => { g with logged := if b ∈ g.logged then g.logged else g.logged ++ [b] }
  | .endOp p =>
    let ops := g.ops.erase p
    if ops = [] then ⟨[], []⟩ else { g with ops := ops }
  | _ => g

/-- The group in progress after the events `es`. -/
def groupOf (es : List Event) : Group := es.foldl groupStep ⟨[], []⟩

theorem groupOf_concat (es : List Event) (e : Event) :
    groupOf (es ++ [e]) = groupStep (groupOf es) e := by
  simp [groupOf, List.foldl_append]

/-- Every operation of the run logs at most `MAXOPBLOCKS` distinct blocks; `f p` are the blocks that
the operation of process `p` has logged so far. -/
def withinBudget : (ℕ → List ℕ) → List Event → Bool
  | _, [] => true
  | f, .beginOp p :: es => withinBudget (Function.update f p []) es
  | f, .logWrite p b :: es =>
    let l := (f p).insert b
    l.length ≤ MAXOPBLOCKS && withinBudget (Function.update f p l) es
  | f, _ :: es => withinBudget f es

/-- What the reservation is to guarantee in a state. -/
structure Reserved (G : Geometry) (s : State) : Prop where
  running : s.mode ≠ .panicked
  exclusive : s.mem.committing = true → s.mem.outstanding = 0
  fits : (s.mem.lh.length : ℤ) ≤ G.size - 1

/-! ## The invariant -/

/-- How the group of the trace shows in the state of a running kernel. -/
structure Tracks (s : State) (g : Group) : Prop where
  up : s.mode = .up
  ops : s.mem.ops = g.ops
  outstanding : s.mem.outstanding = g.ops.length
  committing : s.mem.committing = true ↔ s.mem.phase ≠ .idle
  idle : s.mem.phase = .idle → s.mem.lh = g.logged
  busy : s.mem.phase ≠ .idle → g.ops = [] ∧ g.logged = []
  erased : s.mem.phase = .done → s.mem.lh = []
  fits : s.mem.lh.length < LOGSIZE

variable {G : Geometry} {s t : State} {g : Group}

theorem tracks_boot (d : Disk) : Tracks (boot d) ⟨[], []⟩ where
  up := rfl
  ops := rfl
  outstanding := rfl
  committing := by simp [boot, Mem.boot]
  idle := fun _ => rfl
  busy := fun _ => ⟨rfl, rfl⟩
  erased := fun _ => rfl
  fits := by simp [boot, Mem.boot, LOGSIZE, MAXOPBLOCKS]

theorem Tracks.idle_of_mem (h : Tracks s g) {p : ℕ} (hp : p ∈ s.mem.ops) :
    s.mem.phase = .idle := by
  by_contra hne
  rw [h.ops, (h.busy hne).1] at hp
  cases hp

theorem tracks_beginOp (h : Tracks s g) {p : ℕ}
    (ht : beginOp p s = some t) : Tracks t { g with ops := p :: g.ops } := by
  unfold beginOp at ht
  split_ifs at ht with hc hfull
  obtain rfl := Option.some.inj ht
  have hidle : s.mem.phase = .idle := by
    by_contra hne
    exact hc (h.committing.2 hne)
  refine ⟨h.up, ?_, ?_, h.committing, h.idle, fun hne => absurd hidle hne, h.erased, h.fits⟩
  · simp [h.ops]
  · simp [h.outstanding]

theorem tracks_endOp (h : Tracks s g) {p : ℕ} (hp : p ∈ s.mem.ops) :
    Tracks (endOp p s) (groupStep g (.endOp p)) := by
  have hidle := h.idle_of_mem hp
  have hcommit : s.mem.committing = false := by
    rw [← Bool.not_eq_true, h.committing, hidle]
    simp
  have hlen : (g.ops.erase p).length + 1 = g.ops.length := by
    rw [h.ops] at hp
    rw [List.length_erase_of_mem hp]
    have := List.length_pos_of_mem hp
    omega
  have hout : s.mem.outstanding - 1 = (g.ops.erase p).length := by
    rw [h.outstanding]
    omega
  simp only [endOp, hcommit, Bool.false_eq_true, if_false, groupStep]
  by_cases hlast : g.ops.erase p = []
  · rw [if_pos hlast, if_pos (by rw [hout, hlast]; rfl)]
    have hphase (l : List ℕ) : (if l.length > 0 then Phase.writeLog 0 else .done) ≠ .idle := by
      split_ifs <;> simp
    refine ⟨h.up, ?_, ?_, ?_, fun he => absurd he (hphase _), fun _ => ⟨rfl, rfl⟩, ?_, h.fits⟩
    · simp [h.ops, hlast]
    · simpa [hlast] using hout
    · simpa using hphase _
    · simp
  · rw [if_neg hlast, if_neg]
    · refine ⟨h.up, ?_, hout, ?_, h.idle, fun hne => absurd hidle hne, h.erased, h.fits⟩
      · simp [h.ops]
      · simpa [hcommit] using h.committing
    · rw [hout]
      have := List.length_pos_iff.2 hlast
      omega

/-- While fewer than `LOGSIZE - 1` blocks are logged, `log_write` does not panic. -/
theorem tracks_logWrite (h : Tracks s g) {p : ℕ} (b : ℕ)
    (hp : p ∈ s.mem.ops) (hsize : G.size = LOGSIZE) (hroom : g.logged.length < LOGSIZE - 1) :
    Tracks (logWrite G p b s) (groupStep g (.logWrite p b)) := by
  have hidle := h.idle_of_mem hp
  have hlh := h.idle hidle
  have hpos : 0 < g.ops.length := List.length_pos_of_mem (by rwa [h.ops] at hp)
  have hout : ¬ s.mem.outstanding < 1 := by
    rw [h.outstanding]
    omega
  have hfull : ¬ (s.mem.lh.length ≥ LOGSIZE ∨ (s.mem.lh.length : ℤ) ≥ (G.size : ℤ) - 1) := by
    rw [hlh, hsize]
    omega
  unfold logWrite
  rw [if_neg hfull, if_neg hout]
  simp only [groupStep, hlh]
  split_ifs with hb
  · exact ⟨h.up, h.ops, h.outstanding, h.committing, fun _ => rfl, fun hne => absurd hidle hne,
      hlh ▸ h.erased, hlh ▸ h.fits⟩
  · refine ⟨h.up, h.ops, h.outstanding, h.committing, fun _ => rfl, fun hne => absurd hidle hne,
      fun he => ?_, ?_⟩
    · rw [show s.mem.phase = .done from he] at hidle
      cases hidle
    · simp
      omega

theorem panicked_logWrite (h : Tracks s g) {p : ℕ} (b : ℕ)
    (hp : p ∈ s.mem.ops) (hsize : G.size = LOGSIZE) (hfull : ¬ g.logged.length < LOGSIZE - 1) :
    (logWrite G p b s).mode = .panicked := by
  have hlh := h.idle (h.idle_of_mem hp)
  unfold logWrite
  rw [if_pos]
  rw [hlh, hsize]
  unfold LOGSIZE MAXOPBLOCKS at *
  omega

/-- Only the fields of `struct log` and the operations in progress matter. -/
theorem Tracks.of_eq (h : Tracks s g) (hmode : t.mode = s.mode)
    (hops : t.mem.ops = s.mem.ops) (hout : t.mem.outstanding = s.mem.outstanding)
    (hcommit : t.mem.committing = s.mem.committing) (hphase : t.mem.phase = s.mem.phase)
    (hlh : t.mem.lh = s.mem.lh) : Tracks t g := by
  constructor
  · rw [hmode, h.up]
  · rw [hops, h.ops]
  · rw [hout, h.outstanding]
  · rw [hcommit, hphase, h.committing]
  · rw [hphase, hlh]
    exact h.idle
  · rw [hphase]
    exact h.busy
  · rw [hphase, hlh]
    exact h.erased
  · rw [hlh]
    exact h.fits

/-- The block writes of `commit` move from one phase after `idle` to the next. -/
theorem Tracks.of_busy (h : Tracks s g) (hbusy : s.mem.phase ≠ .idle)
    (hmode : t.mode = s.mode) (hops : t.mem.ops = s.mem.ops)
    (hout : t.mem.outstanding = s.mem.outstanding)
    (hcommit : t.mem.committing = s.mem.committing) (hphase : t.mem.phase ≠ .idle)
    (hlh : t.mem.lh = s.mem.lh ∨ t.mem.lh = []) (herased : t.mem.phase = .done → t.mem.lh = []) :
    Tracks t g := by
  refine ⟨hmode.trans h.up, hops.trans h.ops, hout.trans h.outstanding, ?_,
    fun he => absurd he hphase, fun _ => h.busy hbusy, herased, ?_⟩
  · rw [hcommit, h.committing]
    simp [hbusy, hphase]
  · rcases hlh with hlh | hlh
    · rw [hlh]
      exact h.fits
    · rw [hlh]
      decide

/-- One step of a running kernel without a crash, `log_write` having room. -/
theorem tracks_stepUp (h : Tracks s g) (hsize : G.size = LOGSIZE)
    {e : Event} (hroom : ∀ p b, e = .logWrite p b → g.logged.length < LOGSIZE - 1)
    (ht : stepUp G s e = some t) : Tracks t (groupStep g e) := by
  cases e with
  | beginOp p =>
    simp only [stepUp] at ht
    split_ifs at ht with hp
    exact tracks_beginOp h ht
  | modify p b v =>
    simp only [stepUp, Option.ite_none_right_eq_some, Option.some.injEq] at ht
    obtain ⟨-, rfl⟩ := ht
    exact h.of_eq rfl rfl rfl rfl rfl rfl
  | logWrite p b =>
    simp only [stepUp, Option.ite_none_right_eq_some, Option.some.injEq] at ht
    obtain ⟨⟨hp, -⟩, rfl⟩ := ht
    exact tracks_logWrite h b hp hsize (hroom p b rfl)
  | brelse p b =>
    simp only [stepUp, Option.ite_none_right_eq_some, Option.some.injEq] at ht
    obtain ⟨-, rfl⟩ := ht
    exact h.of_eq rfl rfl rfl rfl rfl rfl
  | endOp p =>
    simp only [stepUp, Option.ite_none_right_eq_some, Option.some.injEq] at ht
    obtain ⟨⟨hp, -⟩, rfl⟩ := ht
    exact tracks_endOp h hp
  | read b =>
    obtain rfl := Option.some.inj ht
    exact h.of_eq rfl rfl rfl rfl rfl rfl
  | evict b =>
    simp only [stepUp, Option.ite_none_right_eq_some, Option.some.injEq] at ht
    obtain ⟨-, rfl⟩ := ht
    exact h.of_eq rfl rfl rfl rfl rfl rfl
  | writeLog =>
    simp only [stepUp] at ht
    split at ht
    case h_1 tail hphase =>
      split_ifs at ht with htail
      obtain rfl := Option.some.inj ht
      exact h.of_busy (by simp [hphase]) rfl rfl rfl rfl (by simp [writeLog]) (Or.inl rfl)
        (by simp [writeLog])
    case h_2 => cases ht
  | writeHead =>
    simp only [stepUp] at ht
    split at ht
    case h_1 tail hphase =>
      split_ifs at ht with htail
      obtain rfl := Option.some.inj ht
      exact h.of_busy (by simp [hphase]) rfl rfl rfl rfl (by simp) (Or.inl rfl) (by simp)
    case h_2 => cases ht
  | install =>
    simp only [stepUp] at ht
    split at ht
    case h_1 tail hphase =>
      split_ifs at ht with htail
      obtain rfl := Option.some.inj ht
      exact h.of_busy (by simp [hphase]) rfl rfl rfl rfl (by simp [installTrans])
        (Or.inl rfl) (by simp [installTrans])
    case h_2 => cases ht
  | clearHead =>
    simp only [stepUp] at ht
    split at ht
    case h_1 tail hphase =>
      split_ifs at ht with htail
      obtain rfl := Option.some.inj ht
      exact h.of_busy (by simp [hphase]) rfl rfl rfl rfl (by simp) (Or.inr rfl)
        (fun _ => rfl)
    case h_2 => cases ht
  | commitDone =>
    simp only [stepUp, Option.ite_none_right_eq_some, Option.some.injEq] at ht
    obtain ⟨hphase, rfl⟩ := ht
    have hbusy := h.busy (by simp [hphase])
    refine ⟨h.up, h.ops, h.outstanding, by simp, fun _ => ?_, fun hne => absurd rfl hne, by simp,
      h.fits⟩
    exact (h.erased hphase).trans hbusy.2.symm
  | crash | readHead | recoverInstall | recoverClear => cases ht

/-! ## Runs -/

theorem tracks_step (h : Tracks s g) (hsize : G.size = LOGSIZE)
    {e : Event} (hcrash : e ≠ .crash)
    (hroom : ∀ p b, e = .logWrite p b → g.logged.length < LOGSIZE - 1)
    (ht : step G s e = some t) : Tracks t (groupStep g e) := by
  have hup : step G s e = stepUp G s e := by
    unfold step
    split
    · exact absurd rfl hcrash
    · rw [if_pos h.up]
  exact tracks_stepUp h hsize hroom (hup ▸ ht)

/-- No `log_write` of the run is called when its group has logged `LOGSIZE - 1` blocks already. -/
def LogsFit (es : List Event) : Prop :=
  ∀ pre p b, pre ++ [.logWrite p b] <+: es → (groupOf pre).logged.length < LOGSIZE - 1

theorem LogsFit.of_prefix {es fs : List Event} (h : LogsFit es) (hpre : fs <+: es) : LogsFit fs :=
  fun pre p b hb => h pre p b (hb.trans hpre)

theorem tracks_run (hsize : G.size = LOGSIZE) (d : Disk) {es : List Event} {t : State}
    (hcrash : ∀ e ∈ es, e ≠ .crash) (hfit : LogsFit es)
    (hrun : run (step G) (boot d) es = some t) : Tracks t (groupOf es) := by
  induction es using List.reverseRecOn generalizing t with
  | nil =>
    obtain rfl := Option.some.inj hrun
    exact tracks_boot d
  | append_singleton es e ih =>
    obtain ⟨s, hs, ht⟩ := run_concat_eq_some hrun
    have h := ih (fun e he => hcrash e (by simp [he])) (hfit.of_prefix (List.prefix_append _ _)) hs
    rw [groupOf_concat]
    refine tracks_step h hsize (hcrash e (by simp)) (fun p b he => ?_) ht
    subst he
    exact hfit es p b (List.prefix_refl _)

theorem Tracks.reserved (h : Tracks s g) (hsize : G.size = LOGSIZE) :
    Reserved G s where
  running := by simp [h.up]
  exclusive := by
    intro hc
    rw [h.outstanding, (h.busy (h.committing.1 hc)).1]
    rfl
  fits := by
    have := h.fits
    rw [hsize]
    unfold LOGSIZE MAXOPBLOCKS at *
    omega

/-- On the geometry of `mkfs`, every state of a run keeps what the reservation is to guarantee if and
only if no `log_write` comes when its group has already logged `LOGSIZE - 1` distinct blocks. -/
theorem log_reservation_iff (hsize : G.size = LOGSIZE) (d : Disk) (es : List Event) (t : State)
    (hcrash : ∀ e ∈ es, e ≠ .crash) (hrun : run (step G) (boot d) es = some t) :
    (∀ pre s, pre <+: es → run (step G) (boot d) pre = some s → Reserved G s) ↔ LogsFit es := by
  constructor
  · intro hres pre
    induction hn : pre.length using Nat.strong_induction_on generalizing pre with
    | _ n ih =>
      intro p b hpre
      by_contra hfull
      have hpre' : pre <+: es := (List.prefix_append _ _).trans hpre
      have hfit : LogsFit pre := by
        intro pre' p' b' h'
        refine ih pre'.length ?_ pre' rfl p' b' (h'.trans hpre')
        have := h'.length_le
        rw [List.length_append, List.length_singleton] at this
        omega
      obtain ⟨post, hpost⟩ := hpre
      rw [← hpost] at hrun hcrash
      obtain ⟨u, hu, -⟩ := run_append_eq_some hrun
      obtain ⟨s, hs, hstep⟩ := run_concat_eq_some hu
      have h := tracks_run hsize d (fun e he => hcrash e (by simp [he])) hfit hs
      have hlog : (∃ hp : p ∈ s.mem.ops, logWrite G p b s = u) := by
        simp only [step, h.up, if_true, stepUp, Option.ite_none_right_eq_some,
          Option.some.injEq] at hstep
        exact ⟨hstep.1.1, hstep.2⟩
      obtain ⟨hp, rfl⟩ := hlog
      exact (hres _ _ ⟨post, hpost⟩ hu).running (panicked_logWrite h b hp hsize hfull)
  · intro hfit pre s hpre hs
    exact (tracks_run hsize d (fun e he => hcrash e (hpre.subset he)) (hfit.of_prefix hpre)
      hs).reserved hsize

theorem length_logged_le (es : List Event) : (groupOf es).logged.length ≤ es.length := by
  induction es using List.reverseRecOn with
  | nil => simp [groupOf]
  | append_singleton es e ih =>
    rw [groupOf_concat, List.length_append, List.length_singleton]
    unfold groupStep
    split
    · exact Nat.le_succ_of_le ih
    · split_ifs
      · exact Nat.le_succ_of_le ih
      · simpa using ih
    · simp only
      split_ifs
      · simp
      · exact Nat.le_succ_of_le ih
    · exact Nat.le_succ_of_le ih

/-- A run of fewer than `LOGSIZE` events is safe, whatever it logs. -/
theorem logsFit_of_short {es : List Event} (h : es.length < LOGSIZE) : LogsFit es := by
  intro pre p b hpre
  have h₁ := hpre.length_le
  have h₂ := length_logged_le pre
  rw [List.length_append, List.length_singleton] at h₁
  omega

/-- One operation that changes one block, and its commit. -/
def oneOp : List Event :=
  [.beginOp 0, .modify 0 100 (.replicate _ 1), .logWrite 0 100, .brelse 0 100, .endOp 0, .writeLog,
    .writeHead, .install, .clearHead, .commitDone]

theorem log_reservation_oneOp : ∃ t,
    run (step mkfsGeometry) (boot fun _ => .replicate _ 0) oneOp = some t ∧
      Reserved mkfsGeometry t :=
  ⟨_, rfl, (log_reservation_iff rfl (fun _ => .replicate _ 0) oneOp _ (by simp [oneOp]) rfl).2
    (logsFit_of_short (by decide)) oneOp _ (List.prefix_refl _) rfl⟩

/-! ## Three operations overflow the log -/

/-- Process `p` changes and logs the blocks `bs`. -/
def changeBlocks (p : ℕ) (bs : List ℕ) : List Event :=
  bs.flatMap fun b => [.modify p b (.replicate _ 1), .logWrite p b, .brelse p b]

/-- Three operations are admitted together and change ten blocks each. -/
def threeOps : List Event :=
  [.beginOp 0, .beginOp 1, .beginOp 2] ++ changeBlocks 0 (List.range' 100 10) ++
    changeBlocks 1 (List.range' 110 10) ++ changeBlocks 2 (List.range' 120 9) ++
    [.modify 2 129 (.replicate _ 1), .logWrite 2 129]

/-- The three operations stay within their budget, and the thirtieth block panics. -/
theorem three_ops_panic : withinBudget (fun _ => []) threeOps = true ∧
    ∃ t, run (step mkfsGeometry) (boot fun _ => .replicate _ 0) threeOps = some t ∧
      ¬ Reserved mkfsGeometry t := by
  have hmode : (run (step mkfsGeometry) (boot fun _ => .replicate _ 0) threeOps).map State.mode =
      some .panicked := by decide +kernel
  rw [Option.map_eq_some_iff] at hmode
  obtain ⟨t, ht, hpanic⟩ := hmode
  exact ⟨by decide +kernel, t, ht, fun h => h.running hpanic⟩

end Xv6.Log
