import Xv6.Grep.Match
import Xv6.Lib.Memory

/-!
# The lines that `grep` prints

`grep` of `user/grep.c` reads its input into `buf` piece by piece and keeps the part behind the last newline for the
next round.  How `read` cuts the input is arbitrary.  The state of the loop depends only on what has been read: the
complete lines in it have been treated, and the part behind the last newline is in `buf`.

When that part fills the buffer there is no room left: `read` returns 0 and the loop ends.
-/

namespace Xv6.Grep

open Memory

/-- `sizeof(buf)` -/
def BUFSIZE : ℕ := 1024

/-- `'\n'` -/
def newline : BitVec 8 := 0x0a

/-! ## Code -/

/-- `strchr` in a buffer. -/
def strchr (buf : Mem) (c : BitVec 8) : ℕ → ℕ → Option ℕ
  | 0, _ => none
  | fuel + 1, s => if buf s = 0 then none else if buf s = c then some s else strchr buf c fuel (s + 1)

/-- The string at `s`. -/
def cstring (buf : Mem) : ℕ → ℕ → Str
  | 0, _ => []
  | fuel + 1, s => if buf s = 0 then [] else buf s :: cstring buf fuel (s + 1)

/-- The inner loop, which ends with the buffer, `p` and what has been written. -/
def lineLoop (pattern : Str) : ℕ → Mem → ℕ → Str → Mem × ℕ × Str
  | 0, buf, p, out => (buf, p, out)
  | fuel + 1, buf, p, out =>
    match strchr buf newline BUFSIZE p with
    | none => (buf, p, out)
    | some q =>
      let buf := Function.update buf q 0
      if grepMatch pattern (cstring buf BUFSIZE p) then
        let buf := Function.update buf q newline
        lineLoop pattern fuel buf (q + 1) (out ++ read buf p (q + 1 - p))
      else lineLoop pattern fuel buf (q + 1) out

/-- What the `k`-th `read` returns if it is asked for `room` bytes and `rest` is left: any number of bytes, but none only
at the end of the input or without room. -/
def readCount (cut : ℕ → ℕ) (k room : ℕ) (rest : Str) : ℕ := min (min room rest.length) (cut k + 1)

/-- The outer loop, which ends with the input that is left and what has been written. -/
def grepLoop (pattern : Str) (cut : ℕ → ℕ) : ℕ → ℕ → Str → Mem → ℕ → Str → Str × Str
  | 0, _, rest, _, _, out => (rest, out)
  | fuel + 1, k, rest, buf, m, out =>
    let n := readCount cut k (BUFSIZE - m - 1) rest
    if n = 0 then (rest, out)
    else
      let buf := write buf m (rest.take n)
      let m := m + n
      let buf := Function.update buf m 0
      let (buf, p, out) := lineLoop pattern BUFSIZE buf 0 out
      let m := m - p
      grepLoop pattern cut fuel (k + 1) (rest.drop n) (copy buf 0 p m) m out

/-- `grep` of an input; `buf` is what is in the buffer before. -/
def grep (pattern : Str) (cut : ℕ → ℕ) (buf : Mem) (input : Str) : Str × Str :=
  grepLoop pattern cut (input.length + 1) 0 input buf 0 []

/-! ## Lines -/

/-- The lines of a text that end in a newline, without it. -/
def completeLines (s : Str) : List Str := (s.splitOn newline).dropLast

/-- What is behind the last newline. -/
def lastPart (s : Str) : Str := (s.splitOn newline).getLastD []

/-- The lines that match, with their newlines. -/
def matching (pattern s : Str) : Str := ((completeLines s).filter (grepMatch pattern)).flatMap (· ++ [newline])

variable {pattern l r s : Str} {buf : Mem} {p : ℕ}

theorem beq_newline (h : newline ∉ l) : ∀ a ∈ l, (a == newline) = false :=
  fun _ ha => beq_false_of_ne fun heq => h (heq ▸ ha)

theorem splitOn_of_notMem (h : newline ∉ l) : l.splitOn newline = [l] := List.splitOnP_eq_singleton (beq_newline h)

theorem splitOn_append (h : newline ∉ l) (r : Str) : (l ++ newline :: r).splitOn newline = l :: r.splitOn newline :=
  List.splitOnP_append_cons_of_forall_mem (beq_newline h) _ (beq_self_eq_true newline) _

theorem splitOn_ne_nil (s : Str) : s.splitOn newline ≠ [] := List.splitOnP_ne_nil _ s

theorem completeLines_of_notMem (h : newline ∉ l) : completeLines l = [] := by
  rw [completeLines, splitOn_of_notMem h]
  rfl

theorem lastPart_of_notMem (h : newline ∉ l) : lastPart l = l := by
  rw [lastPart, splitOn_of_notMem h]
  rfl

theorem completeLines_append (h : newline ∉ l) (r : Str) : completeLines (l ++ newline :: r) = l :: completeLines r := by
  rw [completeLines, splitOn_append h, List.dropLast_cons_of_ne_nil (splitOn_ne_nil r)]
  rfl

theorem lastPart_append (h : newline ∉ l) (r : Str) : lastPart (l ++ newline :: r) = lastPart r := by
  rw [lastPart, splitOn_append h, lastPart]
  obtain ⟨a, t, ht⟩ := List.exists_cons_of_ne_nil (splitOn_ne_nil r)
  rw [ht]
  rfl

/-- A text without newlines, or its first line and the rest. -/
theorem line_cases (s : Str) : newline ∉ s ∨ ∃ l r, newline ∉ l ∧ s = l ++ newline :: r := by
  by_cases h : newline ∈ s
  · refine .inr ?_
    obtain ⟨l, r, rfl, hl⟩ := List.eq_append_cons_of_mem h
    exact ⟨l, r, hl, rfl⟩
  · exact .inl h

/-- Induction over the lines of a text. -/
theorem line_induction {motive : Str → Prop} (last : ∀ l, newline ∉ l → motive l)
    (line : ∀ l r, newline ∉ l → motive r → motive (l ++ newline :: r)) (s : Str) : motive s := by
  obtain ⟨n, hn⟩ : ∃ n, s.length = n := ⟨_, rfl⟩
  induction n using Nat.strong_induction_on generalizing s with
  | _ n ih =>
    obtain h | ⟨l, r, hl, rfl⟩ := line_cases s
    · exact last s h
    · refine line l r hl (ih r.length ?_ r rfl)
      rw [← hn, List.length_append, List.length_cons]
      omega

theorem notMem_lastPart (s : Str) : newline ∉ lastPart s := by
  induction s using line_induction with
  | last l hl => rwa [lastPart_of_notMem hl]
  | line l r hl ih => rwa [lastPart_append hl]

theorem completeLines_append_text (s r : Str) :
    completeLines (s ++ r) = completeLines s ++ completeLines (lastPart s ++ r) := by
  induction s using line_induction with
  | last l hl => rw [completeLines_of_notMem hl, lastPart_of_notMem hl, List.nil_append]
  | line l s hl ih =>
    rw [List.append_assoc, List.cons_append, completeLines_append hl, completeLines_append hl, lastPart_append hl, ih,
      List.cons_append]

theorem lastPart_append_text (s r : Str) : lastPart (s ++ r) = lastPart (lastPart s ++ r) := by
  induction s using line_induction with
  | last l hl => rw [lastPart_of_notMem hl]
  | line l s hl ih => rw [List.append_assoc, List.cons_append, lastPart_append hl, lastPart_append hl, ih]

theorem matching_append_text (pattern s r : Str) :
    matching pattern (s ++ r) = matching pattern s ++ matching pattern (lastPart s ++ r) := by
  rw [matching, completeLines_append_text, List.filter_append, List.flatMap_append]
  rfl

theorem length_lines (s : Str) : (∀ l ∈ completeLines s, l.length < s.length) ∧ (lastPart s).length ≤ s.length ∧
    ∀ a ∈ lastPart s, a ∈ s := by
  induction s using line_induction with
  | last l hl =>
    rw [completeLines_of_notMem hl, lastPart_of_notMem hl]
    exact ⟨by simp, le_rfl, fun _ => id⟩
  | line l s hl ih =>
    rw [completeLines_append hl, lastPart_append hl, List.length_append, List.length_cons]
    refine ⟨fun l' hl' => ?_, by omega, fun a ha => ?_⟩
    · obtain rfl | hl' := List.mem_cons.1 hl'
      · omega
      · have := ih.1 l' hl'
        omega
    · exact List.mem_append_right l (List.mem_cons_of_mem newline (ih.2.2 a ha))

/-! ## The buffer -/

/-- The string `l` is at `p`. -/
structure Spells (buf : Mem) (p : ℕ) (l : Str) : Prop where
  bytes : read buf p l.length = l
  null : buf (p + l.length) = 0
  nonzero : (0 : BitVec 8) ∉ l

theorem Spells.cons {a : BitVec 8} (h : Spells buf p (a :: l)) : buf p = a ∧ Spells buf (p + 1) l := by
  obtain ⟨hbytes, hnull, hnz⟩ := h
  rw [List.length_cons, read_succ, List.cons_eq_cons] at hbytes
  refine ⟨hbytes.1, hbytes.2, ?_, fun h => hnz (List.mem_cons_of_mem a h)⟩
  rw [← hnull, List.length_cons]
  congr 1
  omega

theorem Spells.append (h : Spells buf p (l ++ r)) : read buf p l.length = l ∧ Spells buf (p + l.length) r := by
  induction l generalizing p with
  | nil => exact ⟨rfl, h⟩
  | cons a l ih =>
    obtain ⟨ha, htail⟩ := h.cons
    obtain ⟨hl, hr⟩ := ih htail
    rw [List.length_cons, read_succ, ha, hl]
    refine ⟨rfl, ?_⟩
    rwa [show p + (l.length + 1) = p + 1 + l.length by omega]

theorem Spells.congr {buf' : Mem} (h : Spells buf p l) (heq : ∀ i ≤ l.length, buf' (p + i) = buf (p + i)) :
    Spells buf' p l := by
  refine ⟨?_, by rw [heq _ le_rfl, h.null], h.nonzero⟩
  rw [read_congr fun i hi => heq i hi.le, h.bytes]

theorem cstring_eq : ∀ {l : Str} {p : ℕ} (fuel : ℕ), Spells buf p l → l.length < fuel → cstring buf fuel p = l
  | _, _, 0, _, h => absurd h (Nat.not_lt_zero _)
  | [], p, fuel + 1, hs, _ => if_pos hs.null
  | a :: l, p, fuel + 1, hs, h => by
    obtain ⟨ha, htail⟩ := hs.cons
    have hne : buf p ≠ 0 := fun h0 => hs.nonzero (by rw [← h0, ha]; exact List.mem_cons_self)
    rw [cstring, if_neg hne, ha, cstring_eq fuel htail (Nat.lt_of_succ_lt_succ h)]

theorem strchr_of_notMem : ∀ {l : Str} {p : ℕ} (fuel : ℕ), Spells buf p l → newline ∉ l → strchr buf newline fuel p = none
  | _, _, 0, _, _ => rfl
  | [], p, fuel + 1, hs, _ => if_pos hs.null
  | a :: l, p, fuel + 1, hs, hl => by
    obtain ⟨ha, htail⟩ := hs.cons
    have hne : buf p ≠ 0 := fun h0 => hs.nonzero (by rw [← h0, ha]; exact List.mem_cons_self)
    have hnl : buf p ≠ newline := fun h0 => hl (by rw [← h0, ha]; exact List.mem_cons_self)
    rw [strchr, if_neg hne, if_neg hnl]
    exact strchr_of_notMem fuel htail fun h => hl (List.mem_cons_of_mem a h)

theorem strchr_of_line : ∀ {l : Str} {p : ℕ} (fuel : ℕ), Spells buf p (l ++ newline :: r) → newline ∉ l → l.length < fuel →
    strchr buf newline fuel p = some (p + l.length)
  | _, _, 0, _, _, h => absurd h (Nat.not_lt_zero _)
  | [], p, fuel + 1, hs, _, _ => by
    have hp : buf p = newline := hs.cons.1
    rw [strchr, hp, if_neg (by decide), if_pos rfl]
    rfl
  | a :: l, p, fuel + 1, hs, hl, h => by
    obtain ⟨ha, htail⟩ := Spells.cons (l := l ++ newline :: r) hs
    have hne : buf p ≠ 0 := fun h0 => hs.nonzero (by rw [← h0, ha]; exact List.mem_cons_self)
    have hnl : buf p ≠ newline := fun h0 => hl (by rw [← h0, ha]; exact List.mem_cons_self)
    rw [strchr, if_neg hne, if_neg hnl,
      strchr_of_line fuel htail (fun h => hl (List.mem_cons_of_mem a h)) (Nat.lt_of_succ_lt_succ h), List.length_cons]
    congr 1
    omega

theorem Spells.cut (h : Spells buf p (l ++ newline :: r)) : Spells (Function.update buf (p + l.length) 0) p l := by
  refine ⟨?_, Function.update_self _ _ _, fun h0 => h.nonzero (List.mem_append_left _ h0)⟩
  rw [read_congr fun i hi => Function.update_of_ne (by omega) _ _, h.append.1]

theorem Spells.behind (h : Spells buf p (l ++ newline :: r)) (x : BitVec 8) :
    Spells (Function.update buf (p + l.length) x) (p + l.length + 1) r :=
  h.append.2.cons.2.congr fun i _ => Function.update_of_ne (by omega) _ _

theorem Spells.written (h : Spells buf p (l ++ newline :: r)) :
    read (Function.update (Function.update buf (p + l.length) 0) (p + l.length) newline) p (l.length + 1) = l ++ [newline] := by
  have hsame : Function.update (Function.update buf (p + l.length) 0) (p + l.length) newline = buf := by
    rw [Function.update_idem, ← h.append.2.cons.1, Function.update_eq_self]
  rw [hsame]
  have : Spells buf p ((l ++ [newline]) ++ r) := by
    rw [List.append_assoc]
    exact h
  simpa using this.append.1

/-! ## The loops -/

/-- The inner loop writes the lines that match, and ends at the part behind the last newline. -/
theorem lineLoop_spec (pattern : Str) : ∀ (fuel : ℕ) (l : Str) (buf : Mem) (p : ℕ) (out : Str), Spells buf p l → l.length < fuel →
    l.length < BUFSIZE → ∃ buf' p', lineLoop pattern fuel buf p out = (buf', p', out ++ matching pattern l) ∧
      p' + (lastPart l).length = p + l.length ∧ Spells buf' p' (lastPart l)
  | 0, _, _, _, _, _, h, _ => absurd h (Nat.not_lt_zero _)
  | fuel + 1, l, buf, p, out, hs, hfuel, hsize => by
    rw [lineLoop]
    obtain hl | ⟨l, r, hl, rfl⟩ := line_cases l
    · rw [strchr_of_notMem BUFSIZE hs hl, matching, completeLines_of_notMem hl, lastPart_of_notMem hl]
      exact ⟨buf, p, by simp, rfl, hs⟩
    · rw [List.length_append, List.length_cons] at hfuel hsize
      rw [strchr_of_line BUFSIZE hs hl (by omega)]
      dsimp only
      rw [cstring_eq BUFSIZE hs.cut (by omega), matching, completeLines_append hl, lastPart_append hl, List.length_append,
        List.length_cons]
      split_ifs with hmatch
      · rw [List.filter_cons_of_pos hmatch, List.flatMap_cons, show p + l.length + 1 - p = l.length + 1 by omega, hs.written,
          Function.update_idem]
        obtain ⟨buf', p', hloop, hp, hspell⟩ := lineLoop_spec pattern fuel r _ (p + l.length + 1) (out ++ (l ++ [newline]))
          (hs.behind newline) (by omega) (by omega)
        rw [List.append_assoc] at hloop
        exact ⟨buf', p', hloop, by omega, hspell⟩
      · rw [List.filter_cons_of_neg hmatch]
        obtain ⟨buf', p', hloop, hp, hspell⟩ := lineLoop_spec pattern fuel r _ (p + l.length + 1) out (hs.behind 0) (by omega)
          (by omega)
        exact ⟨buf', p', hloop, by omega, hspell⟩

/-- The loop ends at the end of the input, or with a buffer full of a line without its end. -/
theorem grepLoop_spec (pattern : Str) (cut : ℕ → ℕ) : ∀ (fuel k : ℕ) (s rest : Str) (buf : Mem), rest.length < fuel →
    (0 : BitVec 8) ∉ s ++ rest → read buf 0 (lastPart s).length = lastPart s → (lastPart s).length < BUFSIZE →
    (∀ l ∈ completeLines s, l.length + 1 < BUFSIZE) →
    ∃ s' rest', s ++ rest = s' ++ rest' ∧
      grepLoop pattern cut fuel k rest buf (lastPart s).length (matching pattern s) = (rest', matching pattern s') ∧
      (∀ l ∈ completeLines s', l.length + 1 < BUFSIZE) ∧ (rest' = [] ∨ (lastPart s').length + 1 = BUFSIZE)
  | 0, _, _, _, _, h, _, _, _, _ => absurd h (Nat.not_lt_zero _)
  | fuel + 1, k, s, rest, buf, hfuel, hnz, hbuf, hsize, hlines => by
    rw [grepLoop]
    dsimp only
    obtain ⟨n, hn⟩ : ∃ n, readCount cut k (BUFSIZE - (lastPart s).length - 1) rest = n := ⟨_, rfl⟩
    rw [hn]
    unfold readCount at hn
    split_ifs with h0
    · refine ⟨s, rest, rfl, rfl, hlines, ?_⟩
      by_cases hrest : rest = []
      · exact .inl hrest
      · have := List.length_pos_iff.2 hrest
        exact .inr (by omega)
    · have hlen : (rest.take n).length = n := by
        rw [List.length_take]
        omega
      have hsplit : rest.take n ++ rest.drop n = rest := List.take_append_drop n rest
      obtain ⟨w, hw⟩ : ∃ w, lastPart s ++ rest.take n = w := ⟨_, rfl⟩
      have hwlen : w.length = (lastPart s).length + n := by rw [← hw, List.length_append, hlen]
      -- The buffer holds what was left of the last round, and what has been read.
      have hspells : Spells (Function.update (write buf (lastPart s).length (rest.take n)) ((lastPart s).length + n) 0) 0 w := by
        refine ⟨?_, ?_, fun hzero => hnz ?_⟩
        · have hold : read (Function.update (write buf (lastPart s).length (rest.take n)) ((lastPart s).length + n) 0) 0
              (lastPart s).length = lastPart s := by
            rw [read_congr (m := buf) fun i hi => ?_, hbuf]
            rw [Function.update_of_ne (by omega)]
            exact write_eqOutside buf _ _ _ (by omega)
          have hnew : read (Function.update (write buf (lastPart s).length (rest.take n)) ((lastPart s).length + n) 0)
              (lastPart s).length n = rest.take n := by
            rw [read_congr (m := write buf (lastPart s).length (rest.take n)) fun i hi => Function.update_of_ne (by omega) _ _]
            nth_rewrite 2 [← hlen]
            exact read_write_self buf _ _
          rw [hwlen, read_add, Nat.zero_add, hold, hnew, hw]
        · rw [Nat.zero_add, hwlen, Function.update_self]
        · rw [← hw] at hzero
          obtain hzero | hzero := List.mem_append.1 hzero
          · exact List.mem_append_left _ ((length_lines s).2.2 0 hzero)
          · exact List.mem_append_right _ (List.mem_of_mem_take hzero)
      obtain ⟨buf', p', hloop, hp, hspell'⟩ := lineLoop_spec pattern BUFSIZE w _ 0 (matching pattern s) hspells (by omega) (by omega)
      rw [hloop]
      dsimp only
      have hpart : lastPart (s ++ rest.take n) = lastPart w := by rw [lastPart_append_text, hw]
      have hlast : (lastPart s).length + n - p' = (lastPart (s ++ rest.take n)).length := by
        rw [hpart]
        omega
      have hrest : s ++ rest = s ++ rest.take n ++ rest.drop n := by rw [List.append_assoc, hsplit]
      have hout : matching pattern s ++ matching pattern w = matching pattern (s ++ rest.take n) := by
        rw [matching_append_text, hw]
      have hwlines := length_lines w
      rw [hlast, hout, hrest]
      rw [hrest] at hnz
      refine grepLoop_spec pattern cut fuel (k + 1) (s ++ rest.take n) (rest.drop n) _ ?_ hnz ?_ ?_ ?_
      · rw [List.length_drop]
        omega
      · rw [read_copy_self, hpart, hspell'.bytes]
      · rw [hpart]
        omega
      · rw [completeLines_append_text, hw]
        intro l hl
        obtain hl | hl := List.mem_append.1 hl
        · exact hlines l hl
        · have := hwlines.1 l hl
          omega

/-- The part behind the last newline goes on to a line. -/
theorem lastPart_le_line {rest : Str} (hend : lastPart (s ++ rest) = []) (hne : lastPart s ≠ []) :
    ∃ l ∈ completeLines (s ++ rest), (lastPart s).length ≤ l.length := by
  rw [lastPart_append_text] at hend
  rw [completeLines_append_text]
  obtain h | ⟨l, r, hl, heq⟩ := line_cases (lastPart s ++ rest)
  · rw [lastPart_of_notMem h] at hend
    exact absurd (List.append_eq_nil_iff.1 hend).1 hne
  · rw [heq, completeLines_append hl]
    refine ⟨l, List.mem_append_right _ List.mem_cons_self, ?_⟩
    by_contra hlt
    -- Otherwise the newline would be in the part behind the last newline.
    apply notMem_lastPart s
    have hget := congrArg (fun t => t[l.length]?) heq
    simp only [List.getElem?_append_left (not_le.1 hlt), List.getElem?_append_right le_rfl, Nat.sub_self] at hget
    exact List.mem_of_getElem? hget

/-- For an input without nulls that ends in a newline, and however `read` cuts it: `grep` consumes the whole input and writes
exactly the lines that match iff each line has at most 1022 characters before its newline. -/
theorem grep_exact_iff {input : Str} (hnz : (0 : BitVec 8) ∉ input) (hend : lastPart input = []) (pattern : Str)
    (cut : ℕ → ℕ) (buf : Mem) :
    grep pattern cut buf input = ([], matching pattern input) ↔ ∀ l ∈ completeLines input, l.length + 1 < BUFSIZE := by
  have hnil : lastPart [] = [] := rfl
  obtain ⟨s, rest, hsplit, hloop, hlines, hstop⟩ := grepLoop_spec pattern cut (input.length + 1) 0 [] input buf
    (Nat.lt_succ_self _) hnz (by rw [hnil]; rfl) (by rw [hnil]; decide) (fun l hl => by cases hl)
  rw [List.nil_append] at hsplit
  change grep pattern cut buf input = _ at hloop
  rw [hloop, Prod.mk.injEq]
  constructor
  · rintro ⟨rfl, -⟩
    rwa [hsplit, List.append_nil]
  · intro hall
    obtain rfl | hfull := hstop
    · rw [hsplit, List.append_nil]
      exact ⟨rfl, rfl⟩
    · rw [hsplit] at hend hall
      have hne : lastPart s ≠ [] := fun h0 => by
        rw [h0] at hfull
        cases hfull
      obtain ⟨l, hl, hle⟩ := lastPart_le_line hend hne
      have := hall l hl
      omega

/-- An input of two lines, read one byte at a time. -/
theorem grep_exact_iff_two : grep [0x62] (fun _ => 0) (fun _ => 0) [0x61, newline, 0x62, newline] = ([], [0x62, newline]) :=
  (grep_exact_iff (by decide) (by decide) [0x62] (fun _ => 0) (fun _ => 0)).2 (by decide)

theorem grep_long_line (hnl : newline ∉ l) (hnz : (0 : BitVec 8) ∉ l) (hlen : l.length + 1 = BUFSIZE) (pattern : Str)
    (cut : ℕ → ℕ) (buf : Mem) : grep pattern cut buf (l ++ [newline]) = ([newline], []) := by
  have hnil : lastPart [] = [] := rfl
  have hnz' : (0 : BitVec 8) ∉ l ++ [newline] := by
    rw [List.mem_append, List.mem_singleton]
    exact fun h => h.elim hnz (by decide)
  obtain ⟨s, rest, hsplit, hloop, hlines, hstop⟩ := grepLoop_spec pattern cut ((l ++ [newline]).length + 1) 0 []
    (l ++ [newline]) buf (Nat.lt_succ_self _) hnz' (by rw [hnil]; rfl) (by rw [hnil]; decide) (fun l hl => by cases hl)
  rw [List.nil_append] at hsplit
  change grep pattern cut buf (l ++ [newline]) = _ at hloop
  have hrest : rest ≠ [] := by
    rintro rfl
    rw [List.append_nil] at hsplit
    rw [← hsplit, completeLines_append hnl] at hlines
    have := hlines l List.mem_cons_self
    omega
  have hlast := hstop.resolve_left hrest
  have hle := (length_lines s).2.1
  obtain ⟨rfl, rfl⟩ : l = s ∧ [newline] = rest := by
    refine List.append_inj hsplit ?_
    have := congrArg List.length hsplit
    have := List.length_pos_iff.2 hrest
    simp only [List.length_append, List.length_singleton] at *
    omega
  rw [hloop, matching, completeLines_of_notMem hnl]
  rfl

/-- A line of 1023 characters: the input is not consumed, and the line is not written although the pattern matches it. -/
theorem grep_stops_at_long_line : grep [] (fun _ => 1023) (fun _ => 0) (List.replicate 1023 0x61 ++ [newline]) =
    ([newline], []) := by
  refine grep_long_line (fun h => ?_) (fun h => ?_) (by rw [List.length_replicate]; rfl) _ _ _
  · exact absurd (List.eq_of_mem_replicate h) (by decide)
  · exact absurd (List.eq_of_mem_replicate h) (by decide)

end Xv6.Grep
