import Xv6.Input.Code

/-!
# The line discipline of the console

`consoleintr` edits the ring `cons.buf` between the indices `w` and `e`, and commits a line by moving `w`;
`consoleread` consumes the ring from `r` on.  Both hold `cons.lock`, so that the system takes one critical
section after the other: an interrupt, or a `consoleread` up to the point where it sleeps or returns.
Destinations are valid; what a call delivers is the list of its bytes.

The abstract console is a pair of lists, `Q` with the committed input and `L` with the line that is being
edited.  The ring refines it, whatever the values of the three 32-bit indices.
-/

namespace Xv6.Input

open Runs

/-! ## Devices with readers -/

/-- How a critical section of a read ends. -/
inductive Status
  | sleeping
  | done
  /-- The process has been killed while it waited: the call returns `-1`. -/
  | killed
  deriving DecidableEq

/-- A critical section of a read: the bytes it delivers, how many are left, and the state after it. -/
structure Outcome (σ : Type) where
  bytes : List (BitVec 8)
  left : ℕ
  status : Status
  state : σ

structure Device (σ : Type) where
  intr : BitVec 8 → σ → σ
  read : Bool → ℕ → ℕ → σ → Outcome σ

/-- A call that sleeps: its `target`, what is left of it, and the bytes it has delivered. -/
structure Reader where
  target : ℕ
  n : ℕ
  bytes : List (BitVec 8)

/-- A device with the processes that sleep in a read of it, and the calls that have returned: the process, the
result and the bytes. -/
structure System (σ : Type) where
  state : σ
  readers : ℕ → Option Reader
  returned : List (ℕ × ℤ × List (BitVec 8))

inductive Event
  | intr (c : BitVec 8)
  | call (p n : ℕ) (killed : Bool)
  | wake (p : ℕ) (killed : Bool)

variable {σ τ : Type}

/-- The critical section of process `p`, which has the read `rd` to finish. -/
def resume (D : Device σ) (s : System σ) (p : ℕ) (rd : Reader) (killed : Bool) : System σ :=
  let o := D.read killed rd.target rd.n s.state
  let bytes := rd.bytes ++ o.bytes
  match o.status with
  | .sleeping => ⟨o.state, Function.update s.readers p (some ⟨rd.target, o.left, bytes⟩), s.returned⟩
  | .done => ⟨o.state, Function.update s.readers p none, s.returned ++ [(p, (rd.target : ℤ) - o.left, bytes)]⟩
  | .killed => ⟨o.state, Function.update s.readers p none, s.returned ++ [(p, -1, bytes)]⟩

def step (D : Device σ) (s : System σ) : Event → Option (System σ)
  | .intr c => some { s with state := D.intr c s.state }
  | .call p n killed =>
    match s.readers p with
    | none => some (resume D s p ⟨n, n, []⟩ killed)
    | some _ => none
  | .wake p killed => (s.readers p).map fun rd => resume D s p rd killed

/-- The system in which no process reads. -/
def start (a : σ) : System σ := ⟨a, fun _ => none, []⟩

/-- The two devices deliver the same bytes and are in related states. -/
def SameOutcome (R : σ → τ → Prop) (o : Outcome σ) (o' : Outcome τ) : Prop :=
  o.bytes = o'.bytes ∧ o.left = o'.left ∧ o.status = o'.status ∧ R o.state o'.state

/-- A relation between two devices, for systems that use them. -/
def Related (R : σ → τ → Prop) (s : System σ) (t : System τ) : Prop :=
  R s.state t.state ∧ s.readers = t.readers ∧ s.returned = t.returned

section Simulation

variable {D : Device σ} {D' : Device τ} {R : σ → τ → Prop}
  (hintr : ∀ c s t, R s t → R (D.intr c s) (D'.intr c t))
  (hread : ∀ killed target n s t, R s t → SameOutcome R (D.read killed target n s) (D'.read killed target n t))

include hread in
theorem Related.resume {s : System σ} {t : System τ} (h : Related R s t) (p : ℕ) (rd : Reader) (killed : Bool) :
    Related R (Input.resume D s p rd killed) (Input.resume D' t p rd killed) := by
  obtain ⟨hR, hreaders, hreturned⟩ := h
  obtain ⟨hbytes, hleft, hstatus, hstate⟩ := hread killed rd.target rd.n _ _ hR
  unfold Input.resume
  dsimp only
  rw [hbytes, hleft, hstatus, hreaders, hreturned]
  split
  · exact ⟨hstate, rfl, rfl⟩
  · exact ⟨hstate, rfl, rfl⟩
  · exact ⟨hstate, rfl, rfl⟩

include hintr hread in
theorem Related.step {s s' : System σ} {t : System τ} (h : Related R s t) {e : Event} (hs : Input.step D s e = some s') :
    ∃ t', Input.step D' t e = some t' ∧ Related R s' t' := by
  have hreaders := h.2.1
  cases e with
  | intr c =>
    cases hs
    exact ⟨_, rfl, hintr c _ _ h.1, h.2⟩
  | call p n killed =>
    unfold Input.step at hs ⊢
    dsimp only at hs ⊢
    rw [← hreaders]
    split at hs
    · cases hs
      exact ⟨_, rfl, h.resume hread p _ killed⟩
    · cases hs
  | wake p killed =>
    obtain ⟨rd, hrd, rfl⟩ := Option.map_eq_some_iff.1 hs
    refine ⟨_, ?_, h.resume hread p rd killed⟩
    rw [Input.step, ← hreaders, hrd]
    rfl

end Simulation

/-! ## The console -/

/-- `C('P')` -/
def ctrlP : BitVec 8 := 16

/-- `C('U')` -/
def ctrlU : BitVec 8 := 21

/-- `C('H')` -/
def ctrlH : BitVec 8 := 8

/-- `'\x7f'` -/
def delete : BitVec 8 := 127

/-- `'\r'` -/
def carriageReturn : BitVec 8 := 13

/-- The loop of `C('U')`; every pass moves `e` towards `w`. -/
def killLoop : ℕ → Cons → Cons
  | 0, c => c
  | k + 1, c =>
    if c.e ≠ c.w ∧ c.buf ((c.e - 1).toNat % INPUT_BUF_SIZE) ≠ newline then killLoop k { c with e := c.e - 1 } else c

/-- `consoleintr`, without the echo. -/
def consoleintr (ch : BitVec 8) (c : Cons) : Cons :=
  if ch = ctrlP then c
  else if ch = ctrlU then killLoop (c.e - c.w).toNat c
  else if ch = ctrlH ∨ ch = delete then if c.e ≠ c.w then { c with e := c.e - 1 } else c
  else if ch ≠ 0 ∧ (c.e - c.r).toNat < INPUT_BUF_SIZE then
    let ch := if ch = carriageReturn then newline else ch
    let c := { c with
      buf := Function.update c.buf (c.e.toNat % INPUT_BUF_SIZE) ch
      e := c.e + 1 }
    if ch = newline ∨ ch = ctrlD ∨ (c.e - c.r).toNat = INPUT_BUF_SIZE then { c with w := c.e } else c
  else c

/-- `consoleread` from the start of its loop, with `n` bytes left of `target`, until it sleeps or returns. -/
def consolereadRun (killed : Bool) (target : ℕ) : ℕ → Cons → Outcome Cons
  | 0, c => ⟨[], 0, .done, c⟩
  | n + 1, c =>
    if c.r = c.w then ⟨[], n + 1, if killed then .killed else .sleeping, c⟩
    else
      let ch := c.front
      let c := { c with r := c.r + 1 }
      if ch = ctrlD then
        if n + 1 < target then ⟨[], n + 1, .done, { c with r := c.r - 1 }⟩ else ⟨[], n + 1, .done, c⟩
      else if ch = newline then ⟨[ch], n, .done, c⟩
      else
        let o := consolereadRun killed target n c
        { o with bytes := ch :: o.bytes }

def console : Device Cons := ⟨consoleintr, consolereadRun⟩

/-! ## The abstract console -/

/-- The committed input that has been consumed, the rest of the committed input, and the line being edited. -/
structure Line where
  taken : List (BitVec 8)
  Q : List (BitVec 8)
  L : List (BitVec 8)

namespace Line

/-- Append a byte to the line, and commit the line if it is complete or the buffer is full. -/
def append (l : Line) (ch : BitVec 8) : Line :=
  if ch = newline ∨ ch = ctrlD ∨ l.Q.length + (l.L ++ [ch]).length = 128 then
    { l with Q := l.Q ++ (l.L ++ [ch]), L := [] }
  else { l with L := l.L ++ [ch] }

def intr (ch : BitVec 8) (l : Line) : Line :=
  if ch = ctrlP then l
  else if ch = ctrlU then { l with L := [] }
  else if ch = ctrlH ∨ ch = delete then { l with L := l.L.dropLast }
  else if ch ≠ 0 ∧ l.Q.length + l.L.length < 128 then l.append (if ch = carriageReturn then newline else ch)
  else l

def read (killed : Bool) (target : ℕ) : ℕ → Line → Outcome Line
  | 0, l => ⟨[], 0, .done, l⟩
  | n + 1, ⟨taken, [], L⟩ => ⟨[], n + 1, if killed then .killed else .sleeping, ⟨taken, [], L⟩⟩
  | n + 1, ⟨taken, ch :: Q, L⟩ =>
    if ch = ctrlD then
      if n + 1 < target then ⟨[], n + 1, .done, ⟨taken, ch :: Q, L⟩⟩ else ⟨[], n + 1, .done, ⟨taken ++ [ch], Q, L⟩⟩
    else if ch = newline then ⟨[ch], n, .done, ⟨taken ++ [ch], Q, L⟩⟩
    else
      let o := read killed target n ⟨taken ++ [ch], Q, L⟩
      { o with bytes := ch :: o.bytes }

/-- The input that has been committed. -/
def committed (l : Line) : List (BitVec 8) := l.taken ++ l.Q

end Line

def lineDiscipline : Device Line := ⟨Line.intr, Line.read⟩

/-! ## The ring -/

/-- The ring has the committed input between `r` and `w`, and the line being edited between `w` and `e`. -/
structure Rep (c : Cons) (l : Line) : Prop where
  w : c.w = c.r + BitVec.ofNat 32 l.Q.length
  e : c.e = c.r + BitVec.ofNat 32 (l.Q.length + l.L.length)
  bound : l.Q.length + l.L.length ≤ 128
  cells : ∀ i < l.Q.length + l.L.length, c.buf ((c.r.toNat + i) % 128) = (l.Q ++ l.L).getD i 0
  line : ∀ x ∈ l.L, x ≠ newline

variable {c : Cons} {l : Line}

theorem toNat_add_ofNat_mod (r : BitVec 32) (k : ℕ) : (r + BitVec.ofNat 32 k).toNat % 128 = (r.toNat + k) % 128 := by
  rw [BitVec.toNat_add, BitVec.toNat_ofNat]
  omega

theorem add_ofNat_inj {r : BitVec 32} {a b : ℕ} (ha : a ≤ 128) (hb : b ≤ 128)
    (h : r + BitVec.ofNat 32 a = r + BitVec.ofNat 32 b) : a = b := by
  have := congrArg BitVec.toNat (add_left_cancel h)
  rw [BitVec.toNat_ofNat, BitVec.toNat_ofNat] at this
  omega

theorem add_ofNat_succ (r : BitVec 32) (k : ℕ) : r + BitVec.ofNat 32 (k + 1) = r + BitVec.ofNat 32 k + 1 := by
  rw [BitVec.ofNat_add, ← BitVec.add_assoc]
  rfl

theorem toNat_sub_ofNat (r : BitVec 32) {k : ℕ} (hk : k ≤ 128) : (r + BitVec.ofNat 32 k - r).toNat = k := by
  rw [add_sub_cancel_left, BitVec.toNat_ofNat]
  omega

/-- The indices are in order, and at most 128 apart. -/
theorem Rep.indices (h : Rep c l) : (c.w - c.r).toNat = l.Q.length ∧ (c.e - c.r).toNat = l.Q.length + l.L.length := by
  rw [h.w, h.e]
  have := h.bound
  exact ⟨toNat_sub_ofNat _ (by omega), toNat_sub_ofNat _ h.bound⟩

theorem Rep.empty_iff (h : Rep c l) : c.r = c.w ↔ l.Q = [] := by
  have hb := h.bound
  rw [h.w, ← List.length_eq_zero_iff]
  constructor
  · intro he
    exact (add_ofNat_inj (r := c.r) (a := 0) (by omega) (by omega) (by simpa using he)).symm
  · intro he
    rw [he]
    simp

theorem Rep.line_empty_iff (h : Rep c l) : c.e = c.w ↔ l.L = [] := by
  have hb := h.bound
  rw [h.w, h.e, ← List.length_eq_zero_iff]
  constructor
  · intro he
    have := add_ofNat_inj hb (by omega) he
    omega
  · intro he
    rw [he]
    rfl

/-! ## The interrupt handler -/

theorem Rep.backspace (h : Rep c l) (hL : l.L ≠ []) : Rep { c with e := c.e - 1 } { l with L := l.L.dropLast } := by
  obtain ⟨L, x, hx⟩ : ∃ L x, l.L = L ++ [x] := ⟨_, _, (List.dropLast_append_getLast hL).symm⟩
  obtain ⟨taken, Q, L'⟩ := l
  obtain rfl : L' = L ++ [x] := hx
  obtain ⟨hw, he, hbound, hcells, hline⟩ := h
  simp only [List.length_append, List.length_singleton] at he hbound hcells
  simp only [List.dropLast_concat]
  refine ⟨hw, ?_, by dsimp only; omega, fun i hi => ?_, fun y hy => hline y (List.mem_append_left _ hy)⟩
  · dsimp only
    rw [he, ← Nat.add_assoc, add_ofNat_succ, BitVec.add_sub_cancel]
  · dsimp only at hi ⊢
    rw [hcells i (by omega), ← List.append_assoc, List.getD_append _ _ _ _ (by simpa using hi)]

theorem Rep.last (h : Rep c l) {L : List (BitVec 8)} {x : BitVec 8} (hL : l.L = L ++ [x]) :
    c.buf ((c.e - 1).toNat % 128) = x := by
  have hlen : l.L.length = L.length + 1 := by rw [hL, List.length_append, List.length_singleton]
  have hcell := h.cells (l.Q.length + L.length) (by omega)
  rw [h.e, hlen, ← Nat.add_assoc, add_ofNat_succ, BitVec.add_sub_cancel, toNat_add_ofNat_mod, hcell, hL,
    ← List.append_assoc, List.getD_append_right _ _ _ _ (by simp)]
  simp

theorem Rep.killLoop (k : ℕ) : ∀ {c : Cons} {l : Line}, Rep c l → l.L.length = k →
    Rep (Input.killLoop k c) { l with L := [] } := by
  induction k with
  | zero =>
    intro c l h hk
    rw [← List.length_eq_zero_iff.1 hk]
    exact h
  | succ k ih =>
    intro c l h hk
    have hL : l.L ≠ [] := fun h0 => by simp [h0] at hk
    have hlast := (List.dropLast_append_getLast hL).symm
    rw [Input.killLoop, if_pos]
    · have hrest := ih (h.backspace hL) (by rw [List.length_dropLast, hk, Nat.add_sub_cancel])
      exact hrest
    · refine ⟨fun he => hL (h.line_empty_iff.1 he), ?_⟩
      rw [show INPUT_BUF_SIZE = 128 from rfl, h.last hlast]
      exact h.line _ (List.getLast_mem hL)

theorem Rep.store (h : Rep c l) (hlt : l.Q.length + l.L.length < 128) (ch : BitVec 8) (i : ℕ)
    (hi : i < l.Q.length + (l.L ++ [ch]).length) :
    Function.update c.buf (c.e.toNat % 128) ch ((c.r.toNat + i) % 128) = (l.Q ++ (l.L ++ [ch])).getD i 0 := by
  have hlen : (l.L ++ [ch]).length = l.L.length + 1 := List.length_append
  rw [h.e, toNat_add_ofNat_mod, ← List.append_assoc]
  by_cases hlast : i = l.Q.length + l.L.length
  · subst hlast
    rw [Function.update_self, List.getD_append_right _ _ _ _ (by simp)]
    simp
  · rw [Function.update_of_ne (by omega), h.cells i (by omega),
      List.getD_append (l.Q ++ l.L) _ _ _ (by rw [List.length_append]; omega)]

theorem Rep.intr (h : Rep c l) (ch : BitVec 8) : Rep (consoleintr ch c) (l.intr ch) := by
  unfold consoleintr Line.intr
  obtain ⟨hwr, her⟩ := h.indices
  by_cases hP : ch = ctrlP
  · rw [if_pos hP, if_pos hP]
    exact h
  rw [if_neg hP, if_neg hP]
  by_cases hU : ch = ctrlU
  · rw [if_pos hU, if_pos hU]
    have hlen : (c.e - c.w).toNat = l.L.length := by
      rw [h.e, h.w, BitVec.ofNat_add, ← BitVec.add_assoc]
      exact toNat_sub_ofNat _ ((Nat.le_add_left _ _).trans h.bound)
    rw [hlen]
    exact h.killLoop _ rfl
  rw [if_neg hU, if_neg hU]
  by_cases hH : ch = ctrlH ∨ ch = delete
  · rw [if_pos hH, if_pos hH]
    by_cases hL : l.L = []
    · rw [if_neg (not_not.2 (h.line_empty_iff.2 hL)), hL, List.dropLast_nil, ← hL]
      exact h
    · rw [if_pos fun he => hL (h.line_empty_iff.1 he)]
      exact h.backspace hL
  rw [if_neg hH, if_neg hH, her, show INPUT_BUF_SIZE = 128 from rfl]
  by_cases happ : ch ≠ 0 ∧ l.Q.length + l.L.length < 128
  swap
  · rw [if_neg happ, if_neg happ]
    exact h
  rw [if_pos happ, if_pos happ]
  obtain ⟨ch', hch'⟩ : ∃ ch', ch' = if ch = carriageReturn then newline else ch := ⟨_, rfl⟩
  have hlen : (l.L ++ [ch']).length = l.L.length + 1 := List.length_append
  have he : c.e + 1 = c.r + BitVec.ofNat 32 (l.Q.length + (l.L ++ [ch']).length) := by
    rw [h.e, hlen, ← Nat.add_assoc, add_ofNat_succ]
  have hfull : (c.e + 1 - c.r).toNat = l.Q.length + (l.L ++ [ch']).length := by
    rw [he]
    exact toNat_sub_ofNat _ (by omega)
  dsimp only
  rw [← hch', hfull]
  unfold Line.append
  by_cases hcommit : ch' = newline ∨ ch' = ctrlD ∨ l.Q.length + (l.L ++ [ch']).length = 128
  · rw [if_pos hcommit, if_pos hcommit]
    refine ⟨?_, ?_, ?_, fun i hi => ?_, fun x hx => absurd hx List.not_mem_nil⟩
    · rw [List.length_append]
      exact he
    · rw [List.length_append]
      exact he
    · rw [List.length_append, List.length_nil]
      omega
    · rw [List.length_append, List.length_nil] at hi
      rw [List.append_nil]
      exact h.store happ.2 ch' i hi
  · rw [if_neg hcommit, if_neg hcommit]
    refine ⟨h.w, he, by dsimp only; omega, h.store happ.2 ch', fun x hx => ?_⟩
    obtain hx | hx := List.mem_append.1 hx
    · exact h.line x hx
    · rw [List.mem_singleton.1 hx]
      exact fun hn => hcommit (.inl hn)

/-! ## The reader -/

theorem Rep.front {taken Q L : List (BitVec 8)} {ch : BitVec 8} (h : Rep c ⟨taken, ch :: Q, L⟩) : c.front = ch :=
  h.cells 0 (by simp)

theorem Rep.pop {taken Q L : List (BitVec 8)} {ch : BitVec 8} (h : Rep c ⟨taken, ch :: Q, L⟩) :
    Rep { c with r := c.r + 1 } ⟨taken ++ [ch], Q, L⟩ := by
  obtain ⟨hw, he, hbound, hcells, hline⟩ := h
  simp only [List.length_cons] at hw he hbound hcells
  refine ⟨?_, ?_, by dsimp only; omega, fun i hi => ?_, hline⟩
  · dsimp only
    rw [hw, add_ofNat_succ, add_right_comm]
  · dsimp only
    rw [he, show Q.length + 1 + L.length = Q.length + L.length + 1 by omega, add_ofNat_succ, add_right_comm]
  · have hcell : (c.r + 1).toNat + i = (c.r.toNat + 1) % 2 ^ 32 + i := by rw [BitVec.toNat_add]; rfl
    have := hcells (i + 1) (by dsimp only at hi; omega)
    dsimp only
    rw [show ((c.r + 1).toNat + i) % 128 = (c.r.toNat + (i + 1)) % 128 by omega, this]
    rfl

theorem Rep.read (killed : Bool) (target n : ℕ) : ∀ {c : Cons} {l : Line}, Rep c l →
    SameOutcome Rep (consolereadRun killed target n c) (l.read killed target n) := by
  induction n with
  | zero => exact fun h => ⟨rfl, rfl, rfl, h⟩
  | succ n ih =>
    intro c l h
    obtain ⟨taken, Q, L⟩ := l
    rw [consolereadRun]
    cases Q with
    | nil =>
      rw [if_pos (h.empty_iff.2 rfl), Line.read]
      exact ⟨rfl, rfl, rfl, h⟩
    | cons ch Q =>
      have hpop := h.pop
      rw [if_neg fun he => List.cons_ne_nil _ _ (h.empty_iff.1 he), Line.read, h.front]
      dsimp only
      by_cases hD : ch = ctrlD
      · rw [if_pos hD, if_pos hD]
        by_cases hn : n + 1 < target
        · rw [if_pos hn, if_pos hn, BitVec.add_sub_cancel]
          exact ⟨rfl, rfl, rfl, h⟩
        · rw [if_neg hn, if_neg hn]
          exact ⟨rfl, rfl, rfl, hpop⟩
      · rw [if_neg hD, if_neg hD]
        by_cases hnl : ch = newline
        · rw [if_pos hnl, if_pos hnl]
          exact ⟨rfl, rfl, rfl, hpop⟩
        · rw [if_neg hnl, if_neg hnl]
          obtain ⟨hbytes, hrest⟩ := ih hpop
          exact ⟨congrArg (ch :: ·) hbytes, hrest⟩

/-! ## Runs -/

theorem Line.committed_intr (l : Line) (ch : BitVec 8) : l.committed <+: (l.intr ch).committed := by
  unfold Line.intr Line.append Line.committed
  split_ifs
  all_goals first | exact List.prefix_rfl | exact ⟨_, List.append_assoc ..⟩

theorem Line.committed_read (killed : Bool) (target n : ℕ) :
    ∀ l : Line, (l.read killed target n).state.committed = l.committed := by
  induction n with
  | zero => exact fun l => rfl
  | succ n ih =>
    rintro ⟨taken, Q, L⟩
    cases Q with
    | nil => rfl
    | cons ch Q =>
      have hmove : Line.committed ⟨taken ++ [ch], Q, L⟩ = Line.committed ⟨taken, ch :: Q, L⟩ := by
        simp [Line.committed]
      rw [Line.read]
      split_ifs
      · rfl
      · exact hmove
      · exact hmove
      · exact (ih _).trans hmove

/-- What has been committed stays: a step of the abstract console only adds to it. -/
theorem committed_step {s t : System Line} {e : Event} (h : step lineDiscipline s e = some t) :
    s.state.committed <+: t.state.committed := by
  have hresume (p : ℕ) (rd : Reader) (killed : Bool) :
      (resume lineDiscipline s p rd killed).state.committed = s.state.committed := by
    rw [← Line.committed_read killed rd.target rd.n s.state]
    unfold resume
    dsimp only
    split <;> rfl
  cases e with
  | intr c =>
    cases h
    exact Line.committed_intr _ c
  | call p n killed =>
    unfold step at h
    dsimp only at h
    split at h
    · cases h
      rw [hresume]
    · cases h
  | wake p killed =>
    obtain ⟨rd, -, rfl⟩ := Option.map_eq_some_iff.1 h
    rw [hresume]

theorem committed_run {s t : System Line} {es : List Event} (h : run (step lineDiscipline) s es = some t) :
    s.state.committed <+: t.state.committed := by
  have hstep (u : System Line) (e : Event) (v : System Line) (hu : s.state.committed <+: u.state.committed)
      (hv : step lineDiscipline u e = some v) : s.state.committed <+: v.state.committed := hu.trans (committed_step hv)
  exact run_induction hstep List.prefix_rfl h

/-- The console refines the line discipline: every run of interrupts and reads from an empty buffer, whatever the value of
the indices, is a run of the abstract console with the same results and the same bytes, in which the ring holds the
committed input and the line being edited.  The indices stay in order, and committed input is never changed. -/
theorem console_line_discipline {c : Cons} (hw : c.w = c.r) (he : c.e = c.r) {es : List Event} {s : System Cons}
    (hrun : run (step console) (start c) es = some s) :
    ∃ t, run (step lineDiscipline) (start ⟨[], [], []⟩) es = some t ∧ t.readers = s.readers ∧ t.returned = s.returned ∧
      Rep s.state t.state ∧
      (s.state.w - s.state.r).toNat ≤ (s.state.e - s.state.r).toNat ∧ (s.state.e - s.state.r).toNat ≤ INPUT_BUF_SIZE ∧
      ∀ es₁ es₂ u, es = es₁ ++ es₂ → run (step lineDiscipline) (start ⟨[], [], []⟩) es₁ = some u →
        u.state.committed <+: t.state.committed := by
  have hstart : Related Rep (start c) (start ⟨[], [], []⟩) := by
    refine ⟨⟨?_, ?_, by decide, fun i hi => absurd hi (by simp [start]), fun x hx => absurd hx List.not_mem_nil⟩, rfl, rfl⟩
    · exact hw.trans (BitVec.add_zero _).symm
    · exact he.trans (BitVec.add_zero _).symm
  have hstep (s : System Cons) (t : System Line) (e : Event) (s' : System Cons) (hR : Related Rep s t)
      (hs : step console s e = some s') : ∃ t', step lineDiscipline t e = some t' ∧ Related Rep s' t' :=
    hR.step (fun ch _ _ h => h.intr ch) (fun killed target n _ _ h => h.read killed target n) hs
  obtain ⟨t, ht, hrep, hreaders, hreturned⟩ := run_simulation hstep hstart hrun
  obtain ⟨hwr, her⟩ := hrep.indices
  refine ⟨t, ht, hreaders.symm, hreturned.symm, hrep, by omega, her.trans_le hrep.bound, ?_⟩
  rintro es₁ es₂ u rfl hu
  obtain ⟨v, hv, hrest⟩ := run_append_eq_some ht
  obtain rfl := Option.some.inj (hu.symm.trans hv)
  exact committed_run hrest

/-- "hi", an erased byte, a newline, and a read whose first byte is stored in the last cell of an index that wraps. -/
theorem console_line_discipline_hi : ∃ s t,
    run (step console) (start ⟨fun _ => 0, 0xffffffff, 0xffffffff, 0xffffffff⟩)
      [.call 1 10 false, .intr 0x68, .intr 0x78, .intr 0x7f, .intr 0x69, .intr 0x0d, .wake 1 false] = some s ∧
    run (step lineDiscipline) (start ⟨[], [], []⟩)
      [.call 1 10 false, .intr 0x68, .intr 0x78, .intr 0x7f, .intr 0x69, .intr 0x0d, .wake 1 false] = some t ∧
    t.returned = s.returned ∧ s.returned = [(1, 3, [0x68, 0x69, 0x0a])] := by
  obtain ⟨s, hs, hret⟩ : ∃ s, run (step console) (start ⟨fun _ => 0, 0xffffffff, 0xffffffff, 0xffffffff⟩)
      [.call 1 10 false, .intr 0x68, .intr 0x78, .intr 0x7f, .intr 0x69, .intr 0x0d, .wake 1 false] = some s ∧
      s.returned = [(1, 3, [0x68, 0x69, 0x0a])] := ⟨_, rfl, by decide +kernel⟩
  obtain ⟨t, ht, -, hreturned, -⟩ := console_line_discipline rfl rfl hs
  exact ⟨s, t, hs, ht, hreturned, hret⟩

end Xv6.Input
