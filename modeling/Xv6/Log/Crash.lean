import Xv6.Log.History

/-!
# Crash atomicity of the log

Every block write of `commit` and of `recover_from_log` keeps what recovery would make of the disk,
except the first `write_head` of a commit, which adds the whole group at once (`Sound`).  So a crash
at any point, followed by any number of interrupted recoveries, leaves the effects of the first `k`
groups (`crash_atomicity`).
-/

namespace Xv6.Log

open Bytes Runs

/-! ## The invariant -/

/-- The number of blocks that `install_trans` has unpinned. -/
def Phase.installed : Phase → ℕ
  | .install tail => tail
  | _ => 0

variable (G : Geometry) (d : Disk)

/-- How far the commit in progress has come on disk. -/
def PhaseOk (s : State) (h : History) : Prop :=
  match s.mem.phase with
  | .idle => readHeader (s.disk G.start) = []
  | .writeLog tail => readHeader (s.disk G.start) = [] ∧ tail ≤ s.mem.lh.length ∧
      ∀ j < tail, s.disk (G.start + j + 1) = logical d h (s.mem.lh.getD j 0)
  | .install tail => readHeader (s.disk G.start) = s.mem.lh ∧ tail ≤ s.mem.lh.length ∧
      ∀ j < s.mem.lh.length, s.disk (G.start + j + 1) = logical d h (s.mem.lh.getD j 0)
  | .done => readHeader (s.disk G.start) = [] ∧ s.mem.lh = []

/-- The cache shows the logical content, and so does the disk where nothing waits to be written. -/
structure Contents (s : State) (h : History) : Prop where
  view : ∀ b, G.Home b → bread s b = logical d h b
  clean : ∀ b, G.Home b → s.mem.pins b = 0 →
    (∀ x ∈ s.mem.held, x.block = b → x.dirty = false) → s.disk b = logical d h b
  log : ∀ b, ¬ G.Home b → bread s b = s.disk b

/-- The locks and counters of a running kernel. -/
structure Locks (s : State) (h : History) : Prop where
  fits : Fits G s.mem.lh
  pins : ∀ b, s.mem.pins b = if b ∈ s.mem.lh.drop s.mem.phase.installed then 1 else 0
  held_home : ∀ x ∈ s.mem.held, G.Home x.block
  held_ops : ∀ x ∈ s.mem.held, x.proc ∈ s.mem.ops
  held_nodup : (s.mem.held.map Hold.block).Nodup
  ops : s.mem.ops = h.ops
  outstanding : s.mem.outstanding = s.mem.ops.length
  committing : s.mem.committing = true ↔ s.mem.phase ≠ .idle
  quiet : s.mem.phase ≠ .idle → s.mem.ops = [] ∧ writesOf h.current = []

structure Running (s : State) (h : History) : Prop where
  contents : Contents G d s h
  locks : Locks G s h
  phase : PhaseOk G d s h

/-- `recover_from_log` has installed `tail` blocks. -/
structure Recovering (s : State) (tail : ℕ) : Prop where
  mem : ∃ c, s.mem = { Mem.boot with lh := readHeader (s.disk G.start), cache := c }
  cache : ∀ b, bread s b = s.disk b
  installed : ∀ j < tail, s.disk (s.mem.lh.getD j 0) = s.disk (G.start + j + 1)

/-- After a crash only the durable groups count. -/
structure Settled (h : History) : Prop where
  ops : h.ops = []
  logical : logical d h = durableDisk d h

def ModeOk (s : State) (h : History) : Prop :=
  match s.mode with
  | .up => Running G d s h
  | .panicked => True
  | .down => Settled d h
  | .recovering tail => Settled d h ∧ Recovering G s tail

/-- Recovery from the disk would give the durable groups. -/
structure Sound (s : State) (h : History) : Prop where
  durable_le : h.durable ≤ h.groups.length
  header : Fits G (readHeader (s.disk G.start))
  image : ∀ b, G.Home b → image G s.disk b = durableDisk d h b
  mode : ModeOk G d s h

variable {G} {d} {b tail : ℕ} {s t : State} {h : History} {e : Event}

theorem locks_boot {c : ℕ → Option Block} (hmem : s.mem = { Mem.boot with cache := c })
    (hops : h.ops = []) : Locks G s h := by
  refine ⟨?_, ?_, ?_, ?_, ?_, ?_, ?_, ?_, ?_⟩ <;> simp only [hmem]
  · exact fits_nil
  · exact fun _ => rfl
  · exact fun x hx => absurd hx List.not_mem_nil
  · exact fun x hx => absurd hx List.not_mem_nil
  · exact List.nodup_nil
  · exact hops.symm
  · rfl
  · simp [Mem.boot]
  · exact fun hne => absurd rfl hne

theorem sound_boot (hclean : readHeader (d G.start) = []) : Sound G d (boot d) .empty where
  durable_le := le_rfl
  header := by
    change Fits G (readHeader (d G.start))
    rw [hclean]
    exact fits_nil
  image := fun b _ => image_of_header_nil hclean
  mode :=
    { contents := ⟨fun _ _ => rfl, fun _ _ _ _ => rfl, fun _ _ => rfl⟩
      locks := locks_boot rfl rfl
      phase := hclean }

theorem Sound.up (hs : Sound G d s h) (hm : s.mode = .up) : Running G d s h := by
  have hmode := hs.mode
  unfold ModeOk at hmode
  rw [hm] at hmode
  exact hmode

theorem modeOk_up (hm : s.mode = .up) (hr : Running G d s h) : ModeOk G d s h := by
  unfold ModeOk
  rw [hm]
  exact hr

/-- A step that leaves the disk alone and is not the commit point. -/
theorem Sound.of_disk_eq (hs : Sound G d s h) (he : e ≠ .writeHead) (hd : t.disk = s.disk)
    (hm : ModeOk G d t (historyStep h e)) : Sound G d t (historyStep h e) where
  durable_le := durable_le_step hs.durable_le e
  header := hd ▸ hs.header
  image := by
    rw [hd, durableDisk_step d hs.durable_le he]
    exact hs.image
  mode := hm

/-! ## Steps of the operations -/

theorem phaseOk_idle (hp : s.mem.phase = .idle) (hh : readHeader (s.disk G.start) = []) :
    PhaseOk G d s h := by
  unfold PhaseOk
  rw [hp]
  exact hh

theorem PhaseOk.header_of_idle (hp : PhaseOk G d s h) (hi : s.mem.phase = .idle) :
    readHeader (s.disk G.start) = [] := by
  unfold PhaseOk at hp
  rw [hi] at hp
  exact hp

theorem Locks.idle_of_not_committing (hl : Locks G s h) (hc : ¬ s.mem.committing = true) :
    s.mem.phase = .idle := by
  by_contra hne
  exact hc (hl.committing.2 hne)

theorem Locks.idle_of_mem (hl : Locks G s h) {p : ℕ} (hp : p ∈ s.mem.ops) :
    s.mem.phase = .idle := by
  by_contra hne
  rw [(hl.quiet hne).1] at hp
  cases hp

theorem Locks.held_of_quiet (hl : Locks G s h) (hops : s.mem.ops = []) : s.mem.held = [] := by
  rw [List.eq_nil_iff_forall_not_mem]
  intro x hx
  have := hl.held_ops x hx
  rw [hops] at this
  cases this

theorem Contents.of_same (hc : Contents G d s h) {h' : History} (hl : logical d h' = logical d h)
    (hdisk : t.disk = s.disk) (hcache : t.mem.cache = s.mem.cache)
    (hwait : ∀ b, t.mem.pins b = 0 → (∀ x ∈ t.mem.held, x.block = b → x.dirty = false) →
      (s.mem.pins b = 0 ∧ ∀ x ∈ s.mem.held, x.block = b → x.dirty = false) ∨
        s.disk b = logical d h b) :
    Contents G d t h' := by
  have hread (b : ℕ) : bread t b = bread s b := by
    unfold bread
    rw [hcache, hdisk]
  refine ⟨fun b hb => ?_, fun b hb hp hx => ?_, fun b hb => ?_⟩
  · rw [hread, hl, hc.view b hb]
  · rw [hdisk, hl]
    rcases hwait b hp hx with ⟨hp, hx⟩ | hb'
    · exact hc.clean b hb hp hx
    · exact hb'
  · rw [hread, hdisk, hc.log b hb]

theorem running_beginOp (hr : Running G d s h) {p : ℕ} (ht : beginOp p s = some t) :
    Running G d t (historyStep h (.beginOp p)) := by
  unfold beginOp at ht
  split_ifs at ht with hc hfull
  obtain rfl := Option.some.inj ht
  have hidle := hr.locks.idle_of_not_committing hc
  refine ⟨?_, ?_, phaseOk_idle hidle (hr.phase.header_of_idle hidle)⟩
  · exact hr.contents.of_same (logical_silent d h trivial (by simp)) rfl rfl
      fun b hp hx => .inl ⟨hp, hx⟩
  · exact
      { hr.locks with
        held_ops := fun x hx => List.mem_cons_of_mem _ (hr.locks.held_ops x hx)
        ops := congrArg (p :: ·) hr.locks.ops
        outstanding := by simp [hr.locks.outstanding]
        quiet := fun hne => absurd hidle hne }

theorem held_cons_nodup (l : List Hold) (hl : (l.map Hold.block).Nodup) (x : Hold) :
    ((x :: l.filter (·.block ≠ x.block)).map Hold.block).Nodup := by
  rw [List.map_cons, List.nodup_cons]
  refine ⟨fun hmem => ?_, hl.sublist (List.Sublist.map _ List.filter_sublist)⟩
  obtain ⟨y, hy, hxy⟩ := List.mem_map.1 hmem
  simp [hxy] at hy

theorem running_modify (hr : Running G d s h) {p b : ℕ} (v : Block) (hp : p ∈ s.mem.ops)
    (hb : G.Home b) : Running G d (modify p b v s) (historyStep h (.modify p b v)) := by
  have hidle := hr.locks.idle_of_mem hp
  have hlog := logical_modify d h p b v
  refine ⟨⟨fun a ha => ?_, fun a ha hpin hx => ?_, fun a ha => ?_⟩, ?_,
    phaseOk_idle hidle (hr.phase.header_of_idle hidle)⟩
  · rw [hlog]
    by_cases e : a = b
    · subst e
      simp [bread, modify]
    · rw [Function.update_of_ne e, ← hr.contents.view a ha]
      simp [bread, modify, Function.update_of_ne e]
  · have e : a ≠ b := fun e => by simpa using hx ⟨b, p, true⟩ List.mem_cons_self e.symm
    rw [hlog, Function.update_of_ne e]
    refine hr.contents.clean a ha hpin fun x hxs hxa => hx x (List.mem_cons_of_mem _ ?_) hxa
    simp [hxs, hxa, e]
  · have e : a ≠ b := (ne_of_home hb ha).symm
    rw [← show bread s a = (modify p b v s).disk a from hr.contents.log a ha]
    simp [bread, modify, Function.update_of_ne e]
  · exact
      { hr.locks with
        held_home := fun x hx => by
          rcases List.mem_cons.1 hx with rfl | hx
          · exact hb
          · exact hr.locks.held_home x (List.mem_of_mem_filter hx)
        held_ops := fun x hx => by
          rcases List.mem_cons.1 hx with rfl | hx
          · exact hp
          · exact hr.locks.held_ops x (List.mem_of_mem_filter hx)
        held_nodup := held_cons_nodup s.mem.held hr.locks.held_nodup ⟨b, p, true⟩
        quiet := fun hne => absurd hidle hne }

theorem modeOk_logWrite (hr : Running G d s h) (hm : s.mode = .up) {p b : ℕ} (hp : p ∈ s.mem.ops)
    (hheld : ∃ x ∈ s.mem.held, x.block = b ∧ x.proc = p) :
    ModeOk G d (logWrite G p b s) (historyStep h (.logWrite p b)) := by
  have hidle := hr.locks.idle_of_mem hp
  have hhome : G.Home b := by
    obtain ⟨x, hx, rfl, -⟩ := hheld
    exact hr.locks.held_home x hx
  have hpins (a : ℕ) : s.mem.pins a = if a ∈ s.mem.lh then 1 else 0 := by
    rw [hr.locks.pins a, hidle]
    rfl
  have hlog : logical d (historyStep h (.logWrite p b)) = logical d h :=
    logical_silent d h trivial (by simp)
  have hkeep {a : ℕ} (ha : a ≠ b)
      (hx : ∀ x ∈ ⟨b, p, false⟩ :: s.mem.held.filter (·.block ≠ b), x.block = a → x.dirty = false) :
      ∀ x ∈ s.mem.held, x.block = a → x.dirty = false := fun x hxs hxa =>
    hx x (List.mem_cons_of_mem _ (by simp [hxs, hxa, ha])) hxa
  have hheld_mem {P : Hold → Prop} (h₀ : P ⟨b, p, false⟩) (h₁ : ∀ x ∈ s.mem.held, P x) :
      ∀ x ∈ ⟨b, p, false⟩ :: s.mem.held.filter (·.block ≠ b), P x := by
    intro x hx
    rcases List.mem_cons.1 hx with rfl | hx
    · exact h₀
    · exact h₁ x (List.mem_of_mem_filter hx)
  simp only [logWrite]
  split_ifs with hfull hout hmem
  · trivial
  · trivial
  · refine modeOk_up hm ⟨hr.contents.of_same hlog rfl rfl fun a ha hx => ?_, ?_,
      phaseOk_idle hidle (hr.phase.header_of_idle hidle)⟩
    · have hne : a ≠ b := by
        rintro rfl
        have hpin := hpins a
        rw [if_pos hmem] at hpin
        exact absurd (hpin.symm.trans ha) one_ne_zero
      exact .inl ⟨ha, hkeep hne hx⟩
    · exact
        { hr.locks with
          held_home := hheld_mem hhome hr.locks.held_home
          held_ops := hheld_mem hp hr.locks.held_ops
          held_nodup := held_cons_nodup s.mem.held hr.locks.held_nodup ⟨b, p, false⟩
          quiet := fun hne => absurd hidle hne }
  · refine modeOk_up hm ⟨hr.contents.of_same hlog rfl rfl fun a ha hx => ?_, ?_,
      phaseOk_idle hidle (hr.phase.header_of_idle hidle)⟩
    · have hne : a ≠ b := by
        rintro rfl
        simp at ha
      have ha' : s.mem.pins a = 0 := by simpa [Function.update_of_ne hne] using ha
      exact .inl ⟨ha', hkeep hne hx⟩
    · exact
        { hr.locks with
          fits :=
            { home := fun a ha => by
                rcases List.mem_append.1 ha with ha | ha
                · exact hr.locks.fits.home a ha
                · exact List.mem_singleton.1 ha ▸ hhome
              nodup := by
                rw [← List.concat_eq_append]
                exact hr.locks.fits.nodup.concat hmem
              room := by rw [List.length_append, List.length_singleton]; omega
              cap := by rw [List.length_append, List.length_singleton]; omega }
          pins := fun a => by
            by_cases e : a = b
            · subst e
              simp [hidle, Phase.installed, hpins, hmem]
            · simp [hidle, Phase.installed, hpins, e]
          held_home := hheld_mem hhome hr.locks.held_home
          held_ops := hheld_mem hp hr.locks.held_ops
          held_nodup := held_cons_nodup s.mem.held hr.locks.held_nodup ⟨b, p, false⟩
          quiet := fun hne => absurd hidle hne }

theorem running_brelse (hr : Running G d s h) {p b : ℕ}
    (hheld : ∃ x ∈ s.mem.held, x.block = b ∧ x.proc = p ∧ x.dirty = false) :
    Running G d (brelse b s) (historyStep h (.brelse p b)) := by
  obtain ⟨y, hy, rfl, rfl, hclean⟩ := hheld
  have hidle := hr.locks.idle_of_mem (hr.locks.held_ops y hy)
  refine ⟨hr.contents.of_same (logical_silent d h trivial (by simp)) rfl rfl fun a ha hx => ?_, ?_,
    phaseOk_idle hidle (hr.phase.header_of_idle hidle)⟩
  · refine .inl ⟨ha, fun x hxs hxa => ?_⟩
    by_cases e : x.block = y.block
    · rwa [List.inj_on_of_nodup_map hr.locks.held_nodup hxs hy e]
    · exact hx x (List.mem_filter.2 ⟨hxs, by simp [e]⟩) hxa
  · exact
      { hr.locks with
        held_home := fun x hx => hr.locks.held_home x (List.mem_of_mem_filter hx)
        held_ops := fun x hx => hr.locks.held_ops x (List.mem_of_mem_filter hx)
        held_nodup := hr.locks.held_nodup.sublist (List.Sublist.map _ List.filter_sublist)
        quiet := fun hne => absurd hidle hne }

theorem running_endOp (hr : Running G d s h) {p : ℕ} (hp : p ∈ s.mem.ops)
    (hfree : ∀ x ∈ s.mem.held, x.proc ≠ p) :
    Running G d (endOp p s) (historyStep h (.endOp p)) := by
  have hidle := hr.locks.idle_of_mem hp
  have hcommit : s.mem.committing = false := by
    rw [← Bool.not_eq_true, hr.locks.committing, hidle]
    simp
  have hout : s.mem.outstanding - 1 = (s.mem.ops.erase p).length := by
    have := List.length_pos_of_mem hp
    rw [hr.locks.outstanding, List.length_erase_of_mem hp]
    omega
  have hlog : logical d (historyStep h (.endOp p)) = logical d h :=
    logical_silent d h trivial (by simp)
  have hops : ∀ x ∈ s.mem.held, x.proc ∈ s.mem.ops.erase p := fun x hx =>
    (List.mem_erase_of_ne (hfree x hx)).2 (hr.locks.held_ops x hx)
  have hheader := hr.phase.header_of_idle hidle
  by_cases hlast : s.mem.ops.erase p = []
  · have hhist : historyStep h (.endOp p) =
        { h with groups := h.groups ++ [h.current ++ [.endOp p]], current := [], ops := [] } := by
      rw [historyStep, if_pos (by rw [← hr.locks.ops, hlast])]
    have hphase : (if s.mem.lh.length > 0 then Phase.writeLog 0 else .done) ≠ .idle := by
      split_ifs <;> simp
    have hinst : (if s.mem.lh.length > 0 then Phase.writeLog 0 else .done).installed = 0 := by
      split_ifs <;> rfl
    simp only [endOp, hcommit, Bool.false_eq_true, if_false]
    rw [if_pos (by rw [hout, hlast]; rfl)]
    refine ⟨hr.contents.of_same hlog rfl rfl fun a ha hx => .inl ⟨ha, hx⟩, ?_, ?_⟩
    · exact
        { hr.locks with
          pins := fun a => by
            rw [hinst, hr.locks.pins a, hidle]
            rfl
          held_ops := hops
          ops := by rw [hhist, hlast]
          outstanding := hout
          committing := by simp [hphase]
          quiet := fun _ => ⟨hlast, by rw [hhist]; rfl⟩ }
    · unfold PhaseOk
      by_cases hlh : s.mem.lh.length > 0
      · simp [hlh, hheader]
      · simp [hheader, List.length_eq_zero_iff.1 (Nat.eq_zero_of_not_pos hlh)]
  · have hhist : historyStep h (.endOp p) =
        { h with current := h.current ++ [.endOp p], ops := h.ops.erase p } := by
      rw [historyStep, if_neg (by rwa [← hr.locks.ops])]
    simp only [endOp, hcommit, Bool.false_eq_true, if_false]
    rw [if_neg (by rw [hout]; simpa using hlast)]
    refine ⟨hr.contents.of_same hlog rfl rfl fun a ha hx => .inl ⟨ha, hx⟩, ?_,
      phaseOk_idle hidle hheader⟩
    exact
      { hr.locks with
        held_ops := hops
        ops := by rw [hhist, hr.locks.ops]
        outstanding := hout
        committing := by simp [hidle]
        quiet := fun hne => absurd hidle hne }

/-- Reading or recycling a buffer does not show, as long as the data of the buffer is what the disk
has or what the cache had. -/
theorem running_cache (hr : Running G d s h) {c : ℕ → Option Block} (he : e.Silent)
    (hh : historyStep h e = { h with current := h.current ++ [e] })
    (hread : ∀ b, bread { s with mem := { s.mem with cache := c } } b = bread s b) :
    Running G d { s with mem := { s.mem with cache := c } } (historyStep h e) := by
  have hlog : logical d (historyStep h e) = logical d h := by
    unfold logical
    rw [hh, ← List.append_assoc, writesOf_append, writesOf_silent he, List.append_nil]
  refine ⟨⟨fun b hb => ?_, fun b hb hp hx => ?_, fun b hb => ?_⟩, ?_, ?_⟩
  · rw [hread, hlog, hr.contents.view b hb]
  · rw [hlog]
    exact hr.contents.clean b hb hp hx
  · rw [hread, hr.contents.log b hb]
  · refine { hr.locks with ops := ?_, quiet := fun hne => ⟨(hr.locks.quiet hne).1, ?_⟩ }
    · rw [hh]
      exact hr.locks.ops
    · rw [hh, writesOf_append, writesOf_silent he, (hr.locks.quiet hne).2, List.append_nil]
  · unfold PhaseOk
    rw [hlog]
    exact hr.phase

theorem running_read (hr : Running G d s h) (b : ℕ) :
    Running G d { s with mem := { s.mem with
      cache := Function.update s.mem.cache b (some (bread s b)) } } (historyStep h (.read b)) := by
  refine running_cache hr trivial rfl fun a => ?_
  by_cases e : a = b
  · subst e
    simp [bread]
  · simp [bread, Function.update_of_ne e]

theorem running_evict (hr : Running G d s h) {b : ℕ} (hp : s.mem.pins b = 0)
    (hx : ∀ x ∈ s.mem.held, x.block ≠ b) :
    Running G d { s with mem := { s.mem with cache := Function.update s.mem.cache b none } }
      (historyStep h (.evict b)) := by
  refine running_cache hr trivial rfl fun a => ?_
  by_cases e : a = b
  · subst e
    have hdisk : bread s a = s.disk a := by
      by_cases ha : G.Home a
      · rw [hr.contents.view a ha, hr.contents.clean a ha hp fun x hxs hxa => absurd hxa (hx x hxs)]
      · exact hr.contents.log a ha
    rw [hdisk]
    simp [bread]
  · simp [bread, Function.update_of_ne e]

/-! ## Steps of `commit` -/

theorem bread_bwrite_self (v : Block) : bread (bwrite s b v) b = v := by simp [bread, bwrite]

theorem bread_bwrite_of_ne {a : ℕ} (hab : a ≠ b) (v : Block) :
    bread (bwrite s b v) a = bread s a := by
  simp [bread, bwrite, Function.update_of_ne hab]

theorem disk_bwrite (v : Block) : (bwrite s b v).disk = Function.update s.disk b v := rfl

theorem Contents.bwrite_log (hc : Contents G d s h) (hb : ¬ G.Home b) (v : Block) :
    Contents G d (bwrite s b v) h where
  view a ha := by rw [bread_bwrite_of_ne (ne_of_home ha hb), hc.view a ha]
  clean a ha hp hx := by
    rw [disk_bwrite, Function.update_of_ne (ne_of_home ha hb)]
    exact hc.clean a ha hp hx
  log a ha := by
    by_cases e : a = b
    · rw [e, bread_bwrite_self, disk_bwrite, Function.update_self]
    · rw [bread_bwrite_of_ne e, disk_bwrite, Function.update_of_ne e, hc.log a ha]

theorem Contents.bwrite_home (hc : Contents G d s h) (hb : G.Home b) :
    Contents G d (bwrite s b (logical d h b)) h where
  view a ha := by
    by_cases e : a = b
    · rw [e, bread_bwrite_self]
    · rw [bread_bwrite_of_ne e, hc.view a ha]
  clean a ha hp hx := by
    by_cases e : a = b
    · rw [e, disk_bwrite, Function.update_self]
    · rw [disk_bwrite, Function.update_of_ne e]
      exact hc.clean a ha hp hx
  log a ha := by
    have e : a ≠ b := (ne_of_home hb ha).symm
    rw [bread_bwrite_of_ne e, disk_bwrite, Function.update_of_ne e, hc.log a ha]

theorem Locks.quiet_step (hl : Locks G s h) (hp : s.mem.phase ≠ .idle) (he : e.Silent)
    (hh : (historyStep h e).current = h.current ++ [e]) :
    s.mem.ops = [] ∧ writesOf (historyStep h e).current = [] := by
  refine ⟨(hl.quiet hp).1, ?_⟩
  rw [hh, writesOf_append, writesOf_silent he, (hl.quiet hp).2, List.append_nil]

theorem sound_writeLog (hs : Sound G d s h) (hm : s.mode = .up)
    (hp : s.mem.phase = .writeLog tail) (ht : tail < s.mem.lh.length) :
    Sound G d (writeLog G tail s) (historyStep h .writeLog) := by
  have hr := hs.up hm
  have hne : s.mem.phase ≠ .idle := by simp [hp]
  have hphase := hr.phase
  unfold PhaseOk at hphase
  rw [hp] at hphase
  obtain ⟨hheader, -, hlogged⟩ := hphase
  have hslot := hr.locks.fits.slot_not_home ht
  have hlog : logical d (historyStep h .writeLog) = logical d h :=
    logical_silent d h trivial (by simp)
  have hstart : (writeLog G tail s).disk G.start = s.disk G.start :=
    Function.update_of_ne (by omega) _ _
  have hview := hr.contents.view _ (hr.locks.fits.getD_home ht)
  refine ⟨durable_le_step hs.durable_le _, by rw [hstart]; exact hs.header, fun a ha => ?_,
    modeOk_up hm ⟨?_, ?_, ?_⟩⟩
  · rw [durableDisk_step d hs.durable_le (by simp), ← hs.image a ha, image_of_header_nil hheader,
      image_of_header_nil (by rw [hstart, hheader])]
    exact Function.update_of_ne (ne_of_home ha hslot) _ _
  · exact (hr.contents.bwrite_log hslot _).of_same hlog rfl rfl fun a ha hx => .inl ⟨ha, hx⟩
  · exact
      { hr.locks with
        pins := fun a => by
          have := hr.locks.pins a
          rwa [hp] at this
        committing := by simp [writeLog, bwrite, hr.locks.committing.2 hne]
        quiet := fun _ => hr.locks.quiet_step hne trivial rfl }
  · refine ⟨by rw [hstart, hheader], ht, fun j hj => ?_⟩
    rw [hlog]
    by_cases e : j = tail
    · subst e
      exact (Function.update_self _ _ _).trans hview
    · exact (Function.update_of_ne (by omega) _ _).trans (hlogged j (by omega))

theorem PhaseOk.of_install (hp : PhaseOk G d s h) (hi : s.mem.phase = .install tail) :
    readHeader (s.disk G.start) = s.mem.lh ∧ tail ≤ s.mem.lh.length ∧
      ∀ j < s.mem.lh.length, s.disk (G.start + j + 1) = logical d h (s.mem.lh.getD j 0) := by
  unfold PhaseOk at hp
  rw [hi] at hp
  exact hp

/-- A block with no pin holds its logical content on disk while `commit` runs. -/
theorem Running.disk_of_unpinned (hr : Running G d s h) (hne : s.mem.phase ≠ .idle)
    (hb : G.Home b) (hp : b ∉ s.mem.lh.drop s.mem.phase.installed) :
    s.disk b = logical d h b := by
  refine hr.contents.clean b hb (by rw [hr.locks.pins b, if_neg hp]) fun x hx => ?_
  rw [hr.locks.held_of_quiet (hr.locks.quiet hne).1] at hx
  cases hx

theorem durableDisk_writeHead (hquiet : writesOf h.current = []) :
    durableDisk d (historyStep h .writeHead) = logical d h := by
  unfold durableDisk logical
  rw [writesOf_append, hquiet, List.append_nil]
  simp only [historyStep, List.take_length]

/-- The commit point: the write of the header makes the whole group durable. -/
theorem sound_writeHead (hs : Sound G d s h) (hm : s.mode = .up)
    (hp : s.mem.phase = .writeLog tail) (ht : ¬ tail < s.mem.lh.length) :
    Sound G d { writeHead G s with mem := { (writeHead G s).mem with phase := .install 0 } }
      (historyStep h .writeHead) := by
  have hr := hs.up hm
  have hne : s.mem.phase ≠ .idle := by simp [hp]
  have hphase := hr.phase
  unfold PhaseOk at hphase
  rw [hp] at hphase
  obtain ⟨hheader, hle, hlogged⟩ := hphase
  have htail : tail = s.mem.lh.length := by omega
  have hlog : logical d (historyStep h .writeHead) = logical d h :=
    logical_silent d h trivial (by simp)
  have hstart : readHeader ((writeHead G s).disk G.start) = s.mem.lh := by
    rw [writeHead, disk_bwrite, Function.update_self]
    exact hr.locks.fits.readHeader_writeHeader _
  have hslot {j : ℕ} (hj : j < s.mem.lh.length) :
      (writeHead G s).disk (G.start + j + 1) = logical d h (s.mem.lh.getD j 0) :=
    (Function.update_of_ne (by omega) _ _).trans (hlogged j (by omega))
  refine ⟨durable_le_step hs.durable_le _, by rw [hstart]; exact hr.locks.fits, fun a ha => ?_,
    modeOk_up hm ⟨?_, ?_, ?_⟩⟩
  · rw [durableDisk_writeHead (hr.locks.quiet hne).2]
    refine image_header hstart (fun j hj => hslot hj) fun hmem => ?_
    refine (Function.update_of_ne (ne_of_home ha start_not_home) _ _).trans ?_
    exact hr.disk_of_unpinned hne ha fun h => hmem (List.mem_of_mem_drop h)
  · exact (hr.contents.bwrite_log start_not_home _).of_same hlog rfl rfl
      fun a ha hx => .inl ⟨ha, hx⟩
  · exact
      { hr.locks with
        pins := fun a => by
          have := hr.locks.pins a
          rwa [hp] at this
        committing := by simp [writeHead, bwrite, hr.locks.committing.2 hne]
        quiet := fun _ => hr.locks.quiet_step hne trivial rfl }
  · refine ⟨hstart, Nat.zero_le _, fun j hj => ?_⟩
    rw [hlog]
    exact hslot hj

theorem sound_install (hs : Sound G d s h) (hm : s.mode = .up)
    (hp : s.mem.phase = .install tail) (ht : tail < s.mem.lh.length) :
    Sound G d (installTrans G tail s) (historyStep h .install) := by
  have hr := hs.up hm
  have hne : s.mem.phase ≠ .idle := by simp [hp]
  obtain ⟨hheader, -, hlogged⟩ := hr.phase.of_install hp
  have hfits := hr.locks.fits
  have hhome := hfits.getD_home ht
  have hlog : logical d (historyStep h .install) = logical d h :=
    logical_silent d h trivial (by simp)
  have hv : bread s (G.start + tail + 1) = logical d h (s.mem.lh.getD tail 0) := by
    rw [hr.contents.log _ (hfits.slot_not_home ht), hlogged tail ht]
  have hdisk : (installTrans G tail s).disk = Function.update s.disk (s.mem.lh.getD tail 0)
      (bread s (G.start + tail + 1)) := rfl
  have hpins' : (installTrans G tail s).mem.pins = Function.update s.mem.pins
      (s.mem.lh.getD tail 0) (s.mem.pins (s.mem.lh.getD tail 0) - 1) := rfl
  have hstart : readHeader ((installTrans G tail s).disk G.start) = s.mem.lh :=
    (image_install (b := 0) hfits hheader ht _).1
  have hdrop : s.mem.lh.drop tail = s.mem.lh.getD tail 0 :: s.mem.lh.drop (tail + 1) := by
    rw [List.getD_eq_getElem _ _ ht, List.drop_eq_getElem_cons ht]
  have hnodup : (s.mem.lh.getD tail 0 :: s.mem.lh.drop (tail + 1)).Nodup := by
    rw [← hdrop]
    exact hfits.nodup.sublist (List.drop_sublist _ _)
  refine ⟨durable_le_step hs.durable_le _, by rw [hstart]; exact hfits, fun a ha => ?_,
    modeOk_up hm ⟨?_, ?_, ?_⟩⟩
  · rw [durableDisk_step d hs.durable_le (by simp), ← hs.image a ha, hdisk]
    exact (image_install hfits hheader ht _).2 ha
  · have hc := hr.contents.bwrite_home hhome
    rw [← hv] at hc
    refine hc.of_same hlog rfl rfl fun a ha hx => ?_
    by_cases e : a = s.mem.lh.getD tail 0
    · right
      rw [e, disk_bwrite, Function.update_self, hv]
    · left
      rw [hpins', Function.update_of_ne e] at ha
      exact ⟨ha, hx⟩
  · exact
      { hr.locks with
        pins := fun a => by
          have hpins := hr.locks.pins
          rw [hp] at hpins
          simp only [Phase.installed, hdrop] at hpins
          change _ = if a ∈ s.mem.lh.drop (tail + 1) then 1 else 0
          rw [hpins']
          by_cases e : a = s.mem.lh.getD tail 0
          · rw [e, Function.update_self, hpins, if_pos List.mem_cons_self,
              if_neg (List.nodup_cons.1 hnodup).1]
          · rw [Function.update_of_ne e, hpins]
            simp only [List.mem_cons, e, false_or]
        committing := by simp [installTrans, bwrite, hr.locks.committing.2 hne]
        quiet := fun _ => hr.locks.quiet_step hne trivial rfl }
  · refine ⟨hstart, ht, fun j hj => ?_⟩
    rw [hlog]
    refine (Function.update_of_ne ?_ _ _).trans (hlogged j hj)
    exact (ne_of_home hhome (hfits.slot_not_home hj)).symm

theorem sound_clearHead (hs : Sound G d s h) (hm : s.mode = .up)
    (hp : s.mem.phase = .install tail) (ht : ¬ tail < s.mem.lh.length) :
    Sound G d { writeHead G { s with mem := { s.mem with lh := [] } } with
      mem := { (writeHead G { s with mem := { s.mem with lh := [] } }).mem with phase := .done } }
      (historyStep h .clearHead) := by
  have hr := hs.up hm
  have hne : s.mem.phase ≠ .idle := by simp [hp]
  obtain ⟨hheader, hle, hlogged⟩ := hr.phase.of_install hp
  have hlog : logical d (historyStep h .clearHead) = logical d h :=
    logical_silent d h trivial (by simp)
  have hpinned : s.mem.lh.drop s.mem.phase.installed = [] := by
    rw [hp]
    exact List.drop_eq_nil_of_le (Nat.le_of_not_lt ht)
  have hdisk {a : ℕ} (ha : G.Home a) : s.disk a = logical d h a :=
    hr.disk_of_unpinned hne ha (by simp [hpinned])
  have hstart : readHeader ((writeHead G { s with mem := { s.mem with lh := [] } }).disk G.start) =
      [] := by
    rw [writeHead, disk_bwrite, Function.update_self]
    exact fits_nil.readHeader_writeHeader (G := G) _
  refine ⟨durable_le_step hs.durable_le _, by rw [hstart]; exact fits_nil, fun a ha => ?_,
    modeOk_up hm ⟨?_, ?_, ?_⟩⟩
  · rw [durableDisk_step d hs.durable_le (by simp), ← hs.image a ha, image_of_header_nil hstart,
      image_installed hheader fun j hj => ?_]
    · exact Function.update_of_ne (ne_of_home ha start_not_home) _ _
    · rw [hlogged j hj, hdisk (hr.locks.fits.getD_home hj)]
  · exact (hr.contents.bwrite_log start_not_home _).of_same hlog rfl rfl
      fun a ha hx => .inl ⟨ha, hx⟩
  · exact
      { hr.locks with
        fits := fits_nil
        pins := fun a => by
          have := hr.locks.pins a
          rw [hpinned] at this
          exact this
        committing := by simp [writeHead, bwrite, hr.locks.committing.2 hne]
        quiet := fun _ => hr.locks.quiet_step hne trivial rfl }
  · exact ⟨hstart, rfl⟩

theorem running_commitDone (hr : Running G d s h) (hp : s.mem.phase = .done) :
    Running G d { s with mem := { s.mem with committing := false, phase := .idle } }
      (historyStep h .commitDone) := by
  have hphase := hr.phase
  unfold PhaseOk at hphase
  rw [hp] at hphase
  refine ⟨hr.contents.of_same (logical_silent d h trivial (by simp)) rfl rfl
    fun a ha hx => .inl ⟨ha, hx⟩, ?_, phaseOk_idle rfl hphase.1⟩
  exact
    { hr.locks with
      pins := fun a => by
        have := hr.locks.pins a
        rwa [hp] at this
      committing := by simp
      quiet := fun hne => absurd rfl hne }

/-! ## Steps of recovery -/

theorem settled_crash (d : Disk) (h : History) :
    Settled d (historyStep h .crash) := by
  refine ⟨rfl, ?_⟩
  simp only [logical, durableDisk, historyStep, List.append_nil, List.take_take, min_self]

theorem Settled.step (hs : Settled d h) (hle : h.durable ≤ h.groups.length) (he : e.Silent)
    (hc : e ≠ .crash) (hw : e ≠ .writeHead) (hops : (historyStep h e).ops = h.ops) :
    Settled d (historyStep h e) := by
  refine ⟨by rw [hops, hs.ops], ?_⟩
  rw [logical_silent d h he hc, durableDisk_step d hle hw, hs.logical]

theorem modeOk_recovering (hm : s.mode = .recovering tail) (hset : Settled d h)
    (hrec : Recovering G s tail) : ModeOk G d s h := by
  unfold ModeOk
  rw [hm]
  exact ⟨hset, hrec⟩

theorem Sound.recovering (hs : Sound G d s h) (hm : s.mode = .recovering tail) :
    Settled d h ∧ Recovering G s tail := by
  have hmode := hs.mode
  unfold ModeOk at hmode
  rw [hm] at hmode
  exact hmode

theorem sound_crash (hs : Sound G d s h) :
    Sound G d { s with mem := Mem.boot, mode := .down } (historyStep h .crash) :=
  hs.of_disk_eq (by simp) rfl (settled_crash d h)

theorem sound_readHead (hs : Sound G d s h) (hm : s.mode = .down) :
    Sound G d { s with
      mem := { Mem.boot with lh := readHeader (s.disk G.start) }
      mode := .recovering 0 } (historyStep h .readHead) := by
  have hset : Settled d h := by
    have hmode := hs.mode
    unfold ModeOk at hmode
    rwa [hm] at hmode
  refine hs.of_disk_eq (by simp) rfl (modeOk_recovering rfl ?_ ?_)
  · exact hset.step hs.durable_le trivial (by simp) (by simp) rfl
  · exact ⟨⟨_, rfl⟩, fun _ => rfl, fun j hj => absurd hj (Nat.not_lt_zero j)⟩

theorem sound_recoverInstall (hs : Sound G d s h) (hm : s.mode = .recovering tail)
    (ht : tail < s.mem.lh.length) :
    Sound G d (recoverInstall G tail s) (historyStep h .recoverInstall) := by
  obtain ⟨hset, hrec⟩ := hs.recovering hm
  obtain ⟨c, hc⟩ := hrec.mem
  have hlh : readHeader (s.disk G.start) = s.mem.lh := by rw [hc]
  have hfits : Fits G s.mem.lh := hlh ▸ hs.header
  have hhome := hfits.getD_home ht
  have hdisk : (recoverInstall G tail s).disk = Function.update s.disk (s.mem.lh.getD tail 0)
      (s.disk (G.start + tail + 1)) := by
    rw [← hrec.cache]
    rfl
  have hmem : (recoverInstall G tail s).mem.lh = s.mem.lh := rfl
  have hstart : readHeader ((recoverInstall G tail s).disk G.start) = s.mem.lh :=
    (image_install (b := 0) hfits hlh ht _).1
  refine ⟨durable_le_step hs.durable_le _, by rw [hstart]; exact hfits, fun a ha => ?_,
    modeOk_recovering rfl ?_ ⟨?_, fun a => ?_, fun j hj => ?_⟩⟩
  · rw [durableDisk_step d hs.durable_le (by simp), ← hs.image a ha, hdisk]
    exact (image_install hfits hlh ht _).2 ha
  · exact hset.step hs.durable_le trivial (by simp) (by simp) rfl
  · refine ⟨Function.update c (s.mem.lh.getD tail 0) (some (bread s (G.start + tail + 1))), ?_⟩
    rw [hstart, ← hlh]
    simp only [recoverInstall, bwrite, hc]
  · by_cases e : a = s.mem.lh.getD tail 0
    · rw [e, hdisk, Function.update_self, ← hrec.cache]
      exact bread_bwrite_self (s := s) _
    · refine (bread_bwrite_of_ne (s := s) e _).trans ?_
      rw [hrec.cache, hdisk, Function.update_of_ne e]
  · have hslot {i : ℕ} (hi : i < s.mem.lh.length) :
        (recoverInstall G tail s).disk (G.start + i + 1) = s.disk (G.start + i + 1) := by
      rw [hdisk]
      exact Function.update_of_ne (ne_of_home hhome (hfits.slot_not_home hi)).symm _ _
    rw [hslot (by omega), hmem, hdisk]
    by_cases e : s.mem.lh.getD j 0 = s.mem.lh.getD tail 0
    · have hj' : j < s.mem.lh.length := by omega
      rw [List.getD_eq_getElem _ _ hj', List.getD_eq_getElem _ _ ht] at e
      have hjt : j = tail := (hfits.nodup.getElem_inj_iff).1 e
      rw [hjt, Function.update_self]
    · have hjt : j ≠ tail := fun h => e (by rw [h])
      rw [Function.update_of_ne e]
      exact hrec.installed j (by omega)

theorem sound_recoverClear (hs : Sound G d s h) (hm : s.mode = .recovering tail)
    (ht : ¬ tail < s.mem.lh.length) :
    Sound G d { writeHead G { s with mem := { s.mem with lh := [] } } with mode := .up }
      (historyStep h .recoverClear) := by
  obtain ⟨hset, hrec⟩ := hs.recovering hm
  obtain ⟨c, hc⟩ := hrec.mem
  have hlh : readHeader (s.disk G.start) = s.mem.lh := by rw [hc]
  have hset' := hset.step (e := .recoverClear) hs.durable_le trivial (by simp) (by simp) rfl
  set t := writeHead G { s with mem := { s.mem with lh := [] } } with ht'
  obtain ⟨c', hmem⟩ : ∃ c', t.mem = { Mem.boot with cache := c' } := by
    simp only [ht', writeHead, bwrite, hc, Mem.boot]
    exact ⟨_, rfl⟩
  have hdisk : t.disk = Function.update s.disk G.start (t.disk G.start) := by
    rw [ht', writeHead, disk_bwrite, Function.update_self]
  have hstart : readHeader (t.disk G.start) = [] := by
    rw [ht', writeHead, disk_bwrite, Function.update_self]
    exact fits_nil.readHeader_writeHeader (G := G) _
  have hhome {a : ℕ} (ha : G.Home a) : t.disk a = durableDisk d h a := by
    rw [hdisk, Function.update_of_ne (ne_of_home ha start_not_home), ← hs.image a ha,
      image_installed hlh fun j hj => hrec.installed j (by omega)]
  have hread (a : ℕ) : bread t a = t.disk a := by
    by_cases e : a = G.start
    · rw [e, ht', writeHead, bread_bwrite_self, disk_bwrite, Function.update_self]
    · rw [ht', writeHead, bread_bwrite_of_ne e, disk_bwrite, Function.update_of_ne e]
      exact hrec.cache a
  have hdur := durableDisk_step d (e := .recoverClear) hs.durable_le (by simp)
  refine ⟨durable_le_step hs.durable_le _, by rw [hstart]; exact fits_nil, fun a ha => ?_,
    modeOk_up rfl ⟨⟨fun a ha => ?_, fun a ha _ _ => ?_, fun a _ => hread a⟩, ?_, ?_⟩⟩
  · rw [hdur, ← hhome ha]
    exact image_of_header_nil hstart
  · rw [hset'.logical, hdur, ← hhome ha]
    exact hread a
  · rw [hset'.logical, hdur, ← hhome ha]
  · exact locks_boot hmem hset'.ops
  · refine phaseOk_idle ?_ hstart
    rw [hmem]
    rfl

/-! ## Whole runs -/

theorem sound_stepUp (hs : Sound G d s h) (hm : s.mode = .up) (ht : stepUp G s e = some t) :
    Sound G d t (historyStep h e) := by
  have hr := hs.up hm
  cases e with
  | beginOp p =>
    simp only [stepUp] at ht
    split_ifs at ht with hp
    have hkeep : t.disk = s.disk ∧ t.mode = s.mode := by
      unfold beginOp at ht
      split_ifs at ht
      obtain rfl := Option.some.inj ht
      exact ⟨rfl, rfl⟩
    exact hs.of_disk_eq (by simp) hkeep.1 (modeOk_up (hkeep.2.trans hm) (running_beginOp hr ht))
  | modify p b v =>
    simp only [stepUp] at ht
    split_ifs at ht with hg
    obtain rfl := Option.some.inj ht
    exact hs.of_disk_eq (by simp) rfl (modeOk_up hm (running_modify hr v hg.1 hg.2.1))
  | logWrite p b =>
    simp only [stepUp] at ht
    split_ifs at ht with hg
    obtain rfl := Option.some.inj ht
    refine hs.of_disk_eq (by simp) ?_ (modeOk_logWrite hr hm hg.1 hg.2)
    simp only [logWrite]
    split_ifs <;> rfl
  | brelse p b =>
    simp only [stepUp] at ht
    split_ifs at ht with hg
    obtain rfl := Option.some.inj ht
    exact hs.of_disk_eq (by simp) rfl (modeOk_up hm (running_brelse hr hg))
  | endOp p =>
    simp only [stepUp] at ht
    split_ifs at ht with hg
    obtain rfl := Option.some.inj ht
    have hcommit : ¬ s.mem.committing = true := by
      rw [hr.locks.committing, hr.locks.idle_of_mem hg.1]
      simp
    have hkeep : (endOp p s).disk = s.disk ∧ (endOp p s).mode = s.mode := by
      simp only [endOp]
      split_ifs <;> exact ⟨rfl, rfl⟩
    exact hs.of_disk_eq (by simp) hkeep.1
      (modeOk_up (hkeep.2.trans hm) (running_endOp hr hg.1 hg.2))
  | read b =>
    obtain rfl := Option.some.inj ht
    exact hs.of_disk_eq (by simp) rfl (modeOk_up hm (running_read hr b))
  | evict b =>
    simp only [stepUp] at ht
    split_ifs at ht with hg
    obtain rfl := Option.some.inj ht
    exact hs.of_disk_eq (by simp) rfl (modeOk_up hm (running_evict hr hg.1 hg.2))
  | writeLog =>
    simp only [stepUp] at ht
    split at ht
    · rename_i tail hp
      split_ifs at ht with hlt
      obtain rfl := Option.some.inj ht
      exact sound_writeLog hs hm hp hlt
    · cases ht
  | writeHead =>
    simp only [stepUp] at ht
    split at ht
    · rename_i tail hp
      split_ifs at ht with hlt
      obtain rfl := Option.some.inj ht
      exact sound_writeHead hs hm hp hlt
    · cases ht
  | install =>
    simp only [stepUp] at ht
    split at ht
    · rename_i tail hp
      split_ifs at ht with hlt
      obtain rfl := Option.some.inj ht
      exact sound_install hs hm hp hlt
    · cases ht
  | clearHead =>
    simp only [stepUp] at ht
    split at ht
    · rename_i tail hp
      split_ifs at ht with hlt
      obtain rfl := Option.some.inj ht
      exact sound_clearHead hs hm hp hlt
    · cases ht
  | commitDone =>
    simp only [stepUp] at ht
    split_ifs at ht with hp
    obtain rfl := Option.some.inj ht
    exact hs.of_disk_eq (by simp) rfl (modeOk_up hm (running_commitDone hr hp))
  | crash => cases ht
  | readHead => cases ht
  | recoverInstall => cases ht
  | recoverClear => cases ht

theorem sound_stepRecover (hs : Sound G d s h) (ht : stepRecover G s e = some t) :
    Sound G d t (historyStep h e) := by
  unfold stepRecover at ht
  split at ht
  · split_ifs at ht with hm
    obtain rfl := Option.some.inj ht
    exact sound_readHead hs hm
  · split at ht
    · rename_i tail hm
      split_ifs at ht with hlt
      obtain rfl := Option.some.inj ht
      exact sound_recoverInstall hs hm hlt
    · cases ht
  · split at ht
    · rename_i tail hm
      split_ifs at ht with hlt
      obtain rfl := Option.some.inj ht
      exact sound_recoverClear hs hm hlt
    · cases ht
  · cases ht

theorem step_eq (hc : e ≠ .crash) :
    step G s e = if s.mode = .up then stepUp G s e else stepRecover G s e := by
  cases e <;> first | rfl | exact absurd rfl hc

theorem sound_step (hs : Sound G d s h) (ht : step G s e = some t) :
    Sound G d t (historyStep h e) := by
  by_cases hc : e = .crash
  · subst hc
    obtain rfl := Option.some.inj ht
    exact sound_crash hs
  · rw [step_eq hc] at ht
    split_ifs at ht with hm
    · exact sound_stepUp hs hm ht
    · exact sound_stepRecover hs ht

/-- The invariant holds after every run, with any number of crashes in it. -/
theorem sound_run (hclean : readHeader (d G.start) = []) {es : List Event}
    (hrun : run (step G) (boot d) es = some t) : Sound G d t (historyOf es) := by
  induction es using List.reverseRecOn generalizing t with
  | nil => exact Option.some.inj hrun ▸ sound_boot hclean
  | append_singleton es e ih =>
    obtain ⟨s, hs, ht⟩ := run_concat_eq_some hrun
    rw [historyOf_concat]
    exact sound_step (ih hs) ht

/-! ## The groups of a run without a crash -/

theorem openOps_concat (es : List Event) (e : Event) :
    openOps (es ++ [e]) = match e with
      | .beginOp p => p :: openOps es
      | .endOp p => (openOps es).erase p
      | _ => openOps es := by
  rw [openOps, List.foldl_append]
  rfl

/-- The groups are consecutive parts of the run, and none of them leaves an operation open. -/
structure Segmented (es : List Event) (h : History) : Prop where
  flatten : h.groups.flatten ++ h.current = es
  current : openOps h.current = h.ops
  groups : ∀ g ∈ h.groups, openOps g = []

theorem Segmented.step {es : List Event} (hs : Segmented es h) (hc : e ≠ .crash) :
    Segmented (es ++ [e]) (historyStep h e) := by
  have hflat : h.groups.flatten ++ (h.current ++ [e]) = es ++ [e] := by
    rw [← List.append_assoc, hs.flatten]
  have hopen := openOps_concat h.current e
  rw [hs.current] at hopen
  cases e with
  | crash => exact absurd rfl hc
  | endOp p =>
    simp only [historyStep]
    split_ifs with hlast
    · refine ⟨by simpa using hflat, rfl, fun g hg => ?_⟩
      rcases List.mem_append.1 hg with hg | hg
      · exact hs.groups g hg
      · rw [List.mem_singleton.1 hg, hopen]
        exact hlast
    · exact ⟨hflat, hopen, hs.groups⟩
  | _ => exact ⟨hflat, hopen, hs.groups⟩

theorem segmented_historyOf {es : List Event} (hc : ∀ e ∈ es, e ≠ .crash) :
    Segmented es (historyOf es) := by
  induction es using List.reverseRecOn with
  | nil => exact ⟨rfl, rfl, fun g hg => absurd hg List.not_mem_nil⟩
  | append_singleton es e ih =>
    rw [historyOf_concat]
    exact (ih fun a ha => hc a (List.mem_append_left _ ha)).step
      (hc e (List.mem_append_right _ (List.mem_singleton.2 rfl)))

theorem durable_mono_step (hle : h.durable ≤ h.groups.length) (e : Event) :
    h.durable ≤ (historyStep h e).durable := by
  cases e with
  | writeHead => exact hle
  | endOp p =>
    simp only [historyStep]
    split_ifs <;> exact le_rfl
  | _ => exact le_rfl

theorem durable_le_historyOf (es : List Event) :
    (historyOf es).durable ≤ (historyOf es).groups.length := by
  induction es using List.reverseRecOn with
  | nil => exact le_rfl
  | append_singleton es e ih =>
    rw [historyOf_concat]
    exact durable_le_step ih e

theorem durable_mono (es fs : List Event) :
    (historyOf es).durable ≤ (historyOf (es ++ fs)).durable := by
  induction fs using List.reverseRecOn with
  | nil => rw [List.append_nil]
  | append_singleton fs e ih =>
    rw [← List.append_assoc, historyOf_concat]
    exact ih.trans (durable_mono_step (durable_le_historyOf _) e)

/-- A group whose header was written is durable. -/
theorem groups_le_durable {pre es : List Event} (hpre : pre ++ [.writeHead] <+: es) :
    (groupsOf pre).length ≤ (historyOf es).durable := by
  obtain ⟨fs, rfl⟩ := hpre
  calc (groupsOf pre).length = (historyOf (pre ++ [.writeHead])).durable := by
        rw [historyOf_concat]
        rfl
    _ ≤ (historyOf (pre ++ [.writeHead] ++ fs)).durable := durable_mono _ _

/-! ## Crash atomicity -/

/-- The events of a machine that crashes and recovers. -/
def Event.Recovery : Event → Prop
  | .crash | .readHead | .recoverInstall | .recoverClear => True
  | _ => False

instance (e : Event) : Decidable e.Recovery := by
  cases e <;> first | exact isTrue trivial | exact isFalse id

/-- Interrupted recoveries keep exactly the groups that were durable at the crash. -/
theorem groups_recovery (es : List Event) {rs : List Event} (hrs : ∀ e ∈ rs, e.Recovery) :
    (historyOf (es ++ .crash :: rs)).groups = (groupsOf es).take (historyOf es).durable ∧
      (historyOf (es ++ .crash :: rs)).durable = (historyOf es).durable := by
  induction rs using List.reverseRecOn with
  | nil =>
    rw [historyOf_concat]
    exact ⟨rfl, rfl⟩
  | append_singleton rs e ih =>
    obtain ⟨hgroups, hdur⟩ := ih fun a ha => hrs a (List.mem_append_left _ ha)
    have he := hrs e (List.mem_append_right _ (List.mem_singleton.2 rfl))
    rw [← List.cons_append, ← List.append_assoc, historyOf_concat]
    cases e with
    | crash =>
      simp only [historyStep, hgroups, hdur, List.take_take, min_self]
      exact ⟨trivial, trivial⟩
    | readHead => exact ⟨hgroups, hdur⟩
    | recoverInstall => exact ⟨hgroups, hdur⟩
    | recoverClear => exact ⟨hgroups, hdur⟩
    | _ => exact he.elim

/-- Recovery leaves an empty header. -/
theorem header_of_recovered (he : e.Recovery) (ht : step G s e = some t) (hup : t.mode = .up) :
    readHeader (t.disk G.start) = [] := by
  by_cases hc : e = .crash
  · subst hc
    obtain rfl := Option.some.inj ht
    cases hup
  rw [step_eq hc] at ht
  split_ifs at ht
  · cases e <;> first | exact he.elim | cases ht
  unfold stepRecover at ht
  split at ht
  · split_ifs at ht
    obtain rfl := Option.some.inj ht
    cases hup
  · split at ht
    · split_ifs at ht
      obtain rfl := Option.some.inj ht
      cases hup
    · cases ht
  · split at ht
    · split_ifs at ht
      obtain rfl := Option.some.inj ht
      simp only [writeHead, disk_bwrite, Function.update_self]
      exact fits_nil.readHeader_writeHeader (G := G) _
    · cases ht
  · cases ht

/-- After a crash anywhere in the run `es` and any number of interrupted recoveries, a complete
recovery leaves the home blocks with the initial content and the writes of the first `k` groups.
The groups are consecutive parts of `es` that leave no operation open, so each operation lies in one
of them, and `k` counts at least the groups closed before any write of the header. -/
theorem crash_atomicity (G : Geometry) (d : Disk) (hclean : readHeader (d G.start) = [])
    (es rs : List Event) (hes : ∀ e ∈ es, e ≠ .crash) (hrs : ∀ e ∈ rs, e.Recovery) (t : State)
    (hrun : run (step G) (boot d) (es ++ .crash :: rs) = some t) (hup : t.mode = .up) :
    ((groupsOf es).flatten <+: es ∧ ∀ g ∈ groupsOf es, openOps g = []) ∧
    ∃ k ≤ (groupsOf es).length,
      (∀ b, G.Home b → t.disk b = applyWrites d (writesOf ((groupsOf es).take k).flatten) b) ∧
      ∀ pre, pre ++ [.writeHead] <+: es → (groupsOf pre).length ≤ k := by
  have hseg := segmented_historyOf hes
  refine ⟨⟨⟨(historyOf es).current, hseg.flatten⟩, hseg.groups⟩, (historyOf es).durable,
    durable_le_historyOf es, fun b hb => ?_, fun pre hpre => groups_le_durable hpre⟩
  have hheader : readHeader (t.disk G.start) = [] := by
    rcases List.eq_nil_or_concat rs with rfl | ⟨rs', e, rfl⟩
    · obtain ⟨s, -, ht⟩ := run_concat_eq_some hrun
      exact header_of_recovered (e := .crash) trivial ht hup
    · rw [List.concat_eq_append, ← List.cons_append, ← List.append_assoc] at hrun
      obtain ⟨s, -, ht⟩ := run_concat_eq_some hrun
      exact header_of_recovered (hrs e (by simp)) ht hup
  have himage := (sound_run hclean hrun).image b hb
  obtain ⟨hgroups, hdur⟩ := groups_recovery es hrs
  rw [image_of_header_nil hheader] at himage
  rw [himage, durableDisk, hgroups, hdur, List.take_take, min_self]

/-- One operation commits, the machine crashes after the header is written, and again in the middle
of the first recovery. -/
def oneCommit : List Event :=
  [.beginOp 1, .modify 1 100 (Vector.replicate BSIZE 7), .logWrite 1 100, .brelse 1 100, .endOp 1,
    .writeLog, .writeHead]

def twoRecoveries : List Event :=
  [.readHead, .recoverInstall, .crash, .readHead, .recoverInstall, .recoverClear]

def zeroDisk : Disk := fun _ => Vector.replicate BSIZE 0

theorem crash_atomicity_oneCommit :
    ∃ t, run (step mkfsGeometry) (boot zeroDisk) (oneCommit ++ .crash :: twoRecoveries) = some t ∧
      ∃ k ≤ 1, 1 ≤ k ∧ ∀ b, mkfsGeometry.Home b →
        t.disk b = applyWrites zeroDisk (writesOf ((groupsOf oneCommit).take k).flatten) b := by
  have hmode : (run (step mkfsGeometry) (boot zeroDisk)
      (oneCommit ++ .crash :: twoRecoveries)).map (·.mode) = some .up := by
    decide +kernel
  obtain ⟨t, hrun, hup⟩ := Option.map_eq_some_iff.1 hmode
  obtain ⟨-, k, hk, hdisk, hdur⟩ := crash_atomicity mkfsGeometry zeroDisk (by decide +kernel)
    oneCommit twoRecoveries (by simp [oneCommit]) (by simp [twoRecoveries, Event.Recovery]) t hrun hup
  exact ⟨t, hrun, k, hk, hdur (oneCommit.take 6) (by simp [oneCommit]), hdisk⟩

end Xv6.Log
