import Xv6.Shell.Code

/-!
# Tokens of a line

`lex` is the token sequence of a line: `>>`, the other symbols, and the maximal runs of characters
that are neither whitespace nor symbols.  `At s i ts` says that the cursor `i` stands before the
tokens `ts`; `gettoken` takes the first of them and `peek` looks at its first character.
-/

namespace Xv6.Shell

/-- A token of the grammar; a word is known by its place. -/
inductive Token
  | sym (c : BitVec 8)
  | append
  | word (w : Word)
deriving DecidableEq, Repr

/-- The tokens of the characters from index `i` on. -/
def lex (i : ℕ) (s : Line) : List Token :=
  match s with
  | [] => []
  | c :: cs =>
    if c ∈ whitespace then lex (i + 1) cs
    else if c = greater ∧ cs.head? = some greater then .append :: lex (i + 2) cs.tail
    else if c ∈ symbols then .sym c :: lex (i + 1) cs
    else
      .word (i, i + ((c :: cs).takeWhile wordChar).length) ::
        lex (i + 1 + (cs.takeWhile wordChar).length) (cs.drop (cs.takeWhile wordChar).length)
termination_by s.length
decreasing_by
  · exact Nat.lt_succ_self _
  · exact Nat.lt_succ_of_le (List.length_tail ▸ Nat.sub_le _ _)
  · exact Nat.lt_succ_self _
  · exact Nat.lt_succ_of_le (List.length_drop ▸ Nat.sub_le _ _)

def tokens (s : Line) : List Token := lex 0 s

/-- The cursor `i` stands before the tokens `ts`. -/
structure At (s : Line) (i : ℕ) (ts : List Token) : Prop where
  le : i ≤ s.length
  lex_eq : lex i (s.drop i) = ts

variable {s cs : Line} {i j q : ℕ} {c : BitVec 8} {t : Token} {ts : List Token}
  {toks : List (BitVec 8)}

theorem at_zero (s : Line) : At s 0 (tokens s) := ⟨Nat.zero_le _, rfl⟩

/-! ## Whitespace -/

theorem lex_dropWhile (i : ℕ) (cs : Line) :
    lex (i + (cs.takeWhile isSpace).length) (cs.dropWhile isSpace) = lex i cs := by
  induction cs generalizing i with
  | nil => rfl
  | cons c cs ih =>
    by_cases hc : isSpace c = true
    · rw [List.takeWhile_cons_of_pos hc, List.dropWhile_cons_of_pos hc, List.length_cons,
        lex.eq_def i (c :: cs)]
      dsimp only
      rw [if_pos (of_decide_eq_true hc), ← ih (i + 1), Nat.add_assoc i, Nat.add_comm 1]
    · rw [List.takeWhile_cons_of_neg hc, List.dropWhile_cons_of_neg hc]
      rfl

theorem drop_skip (s : Line) (i : ℕ) : s.drop (skip s i) = (s.drop i).dropWhile isSpace := by
  have happend := List.takeWhile_append_dropWhile (p := isSpace) (l := s.drop i)
  unfold skip
  rw [← List.drop_drop]
  nth_rewrite 2 [← happend]
  exact List.drop_left

theorem skip_le (h : i ≤ s.length) : skip s i ≤ s.length := by
  have hle := (List.takeWhile_sublist (l := s.drop i) isSpace).length_le
  rw [List.length_drop] at hle
  unfold skip
  omega

theorem At.skip (h : At s i ts) : At s (skip s i) ts := by
  refine ⟨skip_le h.le, ?_⟩
  rw [drop_skip, Shell.skip, lex_dropWhile]
  exact h.lex_eq

/-- What stands at the cursor after whitespace is not whitespace. -/
theorem not_isSpace_of_drop_skip (h : s.drop (skip s i) = c :: cs) : ¬ isSpace c = true := by
  rw [drop_skip] at h
  have hhead := List.head?_dropWhile_not isSpace (s.drop i)
  rw [h] at hhead
  exact Bool.eq_false_iff.1 hhead

/-! ## Characters -/

theorem charAt_of_drop (h : s.drop i = c :: cs) : charAt s i = c := by
  unfold charAt
  rw [List.getD_eq_getElem?_getD, ← List.head?_drop, h]
  rfl

theorem charAt_of_drop_nil (h : s.drop i = []) : charAt s i = 0 := by
  unfold charAt
  rw [List.getD_eq_getElem?_getD, ← List.head?_drop, h]
  rfl

theorem drop_succ_of_drop (h : s.drop i = c :: cs) (k : ℕ) : s.drop (i + 1 + k) = cs.drop k := by
  rw [← List.drop_drop, ← List.drop_drop, h]
  rfl

theorem lt_of_drop (h : s.drop i = c :: cs) : i < s.length := by
  have hlen := congrArg List.length h
  rw [List.length_drop, List.length_cons] at hlen
  omega

theorem mem_of_drop (h : s.drop i = c :: cs) : c ∈ s :=
  List.mem_of_mem_drop (h ▸ List.mem_cons_self)

/-! ## `gettoken` and `peek` -/

/-- The token that `gettoken` returns for a token of the grammar. -/
def Token.tok : Token → Tok
  | .sym c => .sym c
  | .append => .append
  | .word _ => .word

/-- The symbols other than `>` are those that `gettoken` takes by themselves. -/
theorem mem_singles_iff (c : BitVec 8) :
    c ∈ [bar, lparen, rparen, semi, amp, less] ↔ c ∈ symbols ∧ c ≠ greater := by
  revert c
  decide

/-- The token that `scan` finds at a character is the first token from there. -/
theorem scan_cons (hs : (0 : BitVec 8) ∉ s) (hdrop : s.drop q = c :: cs) (hc : ¬ isSpace c = true) :
    ∃ t ts, lex q (c :: cs) = t :: ts ∧ (scan s q).1 = t.tok ∧ At s (scan s q).2 ts ∧
      ∀ w, t = .word w → w = (q, (scan s q).2) := by
  have hlt := lt_of_drop hdrop
  have hchar := charAt_of_drop hdrop
  have hnull : c ≠ 0 := fun h => hs (h ▸ mem_of_drop hdrop)
  have hspace : c ∉ whitespace := fun h => hc (decide_eq_true h)
  have hnext : s.drop (q + 1) = cs := drop_succ_of_drop hdrop 0
  unfold scan
  rw [hchar, if_neg hnull, lex.eq_def]
  dsimp only
  rw [if_neg hspace]
  by_cases hsingle : c ∈ [bar, lparen, rparen, semi, amp, less]
  · obtain ⟨hsym, hne⟩ := (mem_singles_iff c).1 hsingle
    rw [if_pos hsingle, if_neg (fun h => hne h.1), if_pos hsym]
    refine ⟨.sym c, _, rfl, rfl, ⟨hlt, ?_⟩, fun w hw => absurd hw (by simp)⟩
    rw [hnext]
  rw [if_neg hsingle]
  by_cases hgt : c = greater
  · rw [if_pos hgt]
    cases cs with
    | nil =>
      have hnone : ¬ (c = greater ∧ ([] : Line).head? = some greater) := fun h => nomatch h.2
      rw [if_neg hnone, charAt_of_drop_nil hnext, if_neg (show ¬ (0 : BitVec 8) = greater by decide),
        if_pos (hgt ▸ by decide), hgt]
      refine ⟨.sym greater, _, rfl, rfl, ⟨hlt, ?_⟩, fun w hw => absurd hw (by simp)⟩
      rw [hnext]
    | cons d cs =>
      rw [charAt_of_drop hnext]
      by_cases hd : d = greater
      · rw [if_pos hd, if_pos ⟨hgt, congrArg some hd⟩]
        refine ⟨.append, _, rfl, rfl, ⟨lt_of_drop hnext, ?_⟩, fun w hw => absurd hw (by simp)⟩
        rw [drop_succ_of_drop hdrop 1]
        rfl
      · rw [if_neg hd, if_neg (fun h => hd (Option.some.inj h.2)), if_pos (hgt ▸ by decide), hgt]
        refine ⟨.sym greater, _, rfl, rfl, ⟨hlt, ?_⟩, fun w hw => absurd hw (by simp)⟩
        rw [hnext]
  · have hsym : c ∉ symbols := fun h => hsingle ((mem_singles_iff c).2 ⟨h, hgt⟩)
    have hword : wordChar c = true := decide_eq_true ⟨hspace, hsym⟩
    rw [if_neg hgt, if_neg (fun h => hgt h.1), if_neg hsym, hdrop]
    have hlen : ((c :: cs).takeWhile wordChar).length = 1 + (cs.takeWhile wordChar).length := by
      rw [List.takeWhile_cons_of_pos hword, List.length_cons, Nat.add_comm]
    rw [hlen, ← Nat.add_assoc]
    refine ⟨_, _, rfl, rfl, ⟨?_, ?_⟩, fun w hw => (Token.word.inj hw).symm⟩
    · have hle := (List.takeWhile_sublist (l := cs) wordChar).length_le
      have hcs := congrArg List.length hnext
      rw [List.length_drop] at hcs
      omega
    · rw [drop_succ_of_drop hdrop]

/-- A cursor before no tokens is, after whitespace, at the end of the line. -/
theorem At.skip_eq_length_iff (hs : (0 : BitVec 8) ∉ s) (h : At s i ts) :
    Shell.skip s i = s.length ↔ ts = [] := by
  have hskip := h.skip
  constructor
  · intro heq
    rw [← hskip.lex_eq, heq, List.drop_length, lex.eq_def]
  · rintro rfl
    cases hd : s.drop (Shell.skip s i) with
    | nil =>
      have hlen := congrArg List.length hd
      rw [List.length_drop, List.length_nil] at hlen
      have := hskip.le
      omega
    | cons c cs =>
      obtain ⟨t, us, hlex, -⟩ := scan_cons hs hd (not_isSpace_of_drop_skip hd)
      have heq := hskip.lex_eq
      rw [hd, hlex] at heq
      exact absurd heq (List.cons_ne_nil t us)

theorem gettoken_nil (hs : (0 : BitVec 8) ∉ s) (h : At s i []) :
    (gettoken s i).1 = .eof ∧ At s (gettoken s i).2.2 [] := by
  have hdrop : s.drop (skip s i) = [] := by
    rw [(h.skip_eq_length_iff hs).2 rfl, List.drop_length]
  have hscan : scan s (skip s i) = (.eof, skip s i) := if_pos (charAt_of_drop_nil hdrop)
  unfold gettoken
  dsimp only
  rw [hscan]
  exact ⟨rfl, h.skip.skip⟩

theorem gettoken_cons (hs : (0 : BitVec 8) ∉ s) (h : At s i (t :: ts)) :
    (gettoken s i).1 = t.tok ∧ At s (gettoken s i).2.2 ts ∧
      ∀ w, t = .word w → (gettoken s i).2.1 = w := by
  have hskip := h.skip
  cases hd : s.drop (skip s i) with
  | nil =>
    have heq := hskip.lex_eq
    rw [hd, lex.eq_def] at heq
    exact absurd heq.symm (List.cons_ne_nil t ts)
  | cons c cs =>
    obtain ⟨t', ts', hlex, htok, hat, hw⟩ := scan_cons hs hd (not_isSpace_of_drop_skip hd)
    have heq := hskip.lex_eq
    rw [hd, hlex] at heq
    obtain ⟨rfl, rfl⟩ := List.cons.inj heq
    exact ⟨htok, hat.skip, fun w hword => (hw w hword).symm⟩

theorem gettoken_word (hs : (0 : BitVec 8) ∉ s) (h : At s i ts) (hword : (gettoken s i).1 = .word) :
    ∃ w us, (gettoken s i).2.1 = w ∧ ts = .word w :: us ∧ At s (gettoken s i).2.2 us := by
  cases ts with
  | nil =>
    rw [(gettoken_nil hs h).1] at hword
    exact nomatch hword
  | cons t us =>
    obtain ⟨htok, hat, hw⟩ := gettoken_cons hs h
    rw [htok] at hword
    cases t with
    | sym c => exact nomatch hword
    | append => exact nomatch hword
    | word w => exact ⟨w, us, hw w rfl, rfl, hat⟩

/-- The first token begins with a symbol among `toks`. -/
def headIn (toks : List (BitVec 8)) : List Token → Bool
  | .sym c :: _ => c ∈ toks
  | .append :: _ => greater ∈ toks
  | .word _ :: _ => false
  | [] => false

theorem headIn_lex (hc : c ∉ whitespace) (htoks : toks ⊆ symbols) (q : ℕ) (cs : Line) :
    headIn toks (lex q (c :: cs)) = decide (c ∈ toks) := by
  rw [lex.eq_def]
  dsimp only
  rw [if_neg hc]
  split_ifs with h₁ h₂
  · rw [h₁.1]
    rfl
  · rfl
  · exact (decide_eq_false fun h => h₂ (htoks h)).symm

theorem peek_eq (hs : (0 : BitVec 8) ∉ s) (h : At s i ts) (toks : List (BitVec 8))
    (htoks : toks ⊆ symbols := by decide) :
    (peek s i toks).1 = headIn toks ts ∧ At s (peek s i toks).2 ts := by
  have hskip := h.skip
  refine ⟨?_, hskip⟩
  have heq := hskip.lex_eq
  unfold peek
  dsimp only
  cases hd : s.drop (skip s i) with
  | nil =>
    rw [hd, lex.eq_def] at heq
    rw [← heq, charAt_of_drop_nil hd]
    exact decide_eq_false fun h => h.1 rfl
  | cons c cs =>
    have hspace : c ∉ whitespace := fun hmem =>
      not_isSpace_of_drop_skip hd (decide_eq_true hmem)
    have hnull : c ≠ 0 := fun hzero => hs (hzero ▸ mem_of_drop hd)
    rw [← heq, hd, headIn_lex hspace htoks, charAt_of_drop hd]
    exact decide_eq_decide.2 ⟨fun h => h.2, fun h => ⟨hnull, h⟩⟩

/-- Every token takes a character. -/
theorem length_lex_le (i : ℕ) (cs : Line) : (lex i cs).length ≤ cs.length := by
  fun_induction lex i cs with
  | case1 => exact le_rfl
  | case2 i c cs _ ih => exact ih.trans (Nat.le_succ _)
  | case3 i c cs _ h ih =>
    rw [List.length_tail] at ih
    exact Nat.succ_le_succ (ih.trans (Nat.sub_le _ _))
  | case4 i c cs _ _ _ ih => exact Nat.succ_le_succ ih
  | case5 i c cs _ _ _ ih =>
    rw [List.length_drop] at ih
    exact Nat.succ_le_succ (ih.trans (Nat.sub_le _ _))

/-! ## Words -/

/-- A maximal run of characters of words. -/
structure WordAt (s : Line) (w : Word) : Prop where
  lt : w.1 < w.2
  le : w.2 ≤ s.length
  chars : ∀ p, w.1 ≤ p → p < w.2 → wordChar (charAt s p) = true
  stop : w.2 = s.length ∨ wordChar (charAt s w.2) = false

theorem wordAt_of_drop {run rest : Line} (hdrop : s.drop i = run ++ rest) (hne : run ≠ [])
    (hrun : ∀ x ∈ run, wordChar x = true) (hrest : ∀ d ∈ rest.head?, wordChar d = false) :
    WordAt s (i, i + run.length) := by
  have hpos := List.length_pos_iff.2 hne
  have hlen := congrArg List.length hdrop
  rw [List.length_drop, List.length_append] at hlen
  refine ⟨Nat.lt_add_of_pos_right hpos, by dsimp only; omega, fun p h₁ h₂ => ?_, ?_⟩
  · obtain ⟨k, rfl⟩ := Nat.exists_eq_add_of_le h₁
    have hk : k < run.length := Nat.lt_of_add_lt_add_left h₂
    unfold charAt
    rw [List.getD_eq_getElem?_getD, ← List.getElem?_drop, hdrop, List.getElem?_append_left hk,
      List.getElem?_eq_getElem hk]
    exact hrun _ (List.getElem_mem hk)
  · have hafter : s.drop (i + run.length) = rest := by
      rw [← List.drop_drop, hdrop, List.drop_left]
    cases rest with
    | nil =>
      rw [List.length_nil] at hlen
      left
      dsimp only
      omega
    | cons d rest =>
      right
      dsimp only
      rw [charAt_of_drop hafter]
      exact hrest d rfl

theorem wordAt_takeWhile (hdrop : s.drop i = c :: cs) (hc : wordChar c = true) :
    WordAt s (i, i + ((c :: cs).takeWhile wordChar).length) := by
  have happend : s.drop i = (c :: cs).takeWhile wordChar ++ (c :: cs).dropWhile wordChar := by
    rw [List.takeWhile_append_dropWhile, hdrop]
  refine wordAt_of_drop happend ?_ ?_ ?_
  · rw [List.takeWhile_cons_of_pos hc]
    exact List.cons_ne_nil _ _
  · exact fun x hx => List.mem_takeWhile_imp hx
  · intro d hd
    have hhead := List.head?_dropWhile_not wordChar (c :: cs)
    rw [Option.mem_def.1 hd] at hhead
    exact hhead

theorem wordAt_of_mem_lex {w : Word} (hdrop : s.drop i = cs) (hw : .word w ∈ lex i cs) :
    WordAt s w := by
  fun_induction lex i cs with
  | case1 => exact absurd hw List.not_mem_nil
  | case2 i c cs _ ih => exact ih (drop_succ_of_drop hdrop 0) hw
  | case3 i c cs _ _ ih =>
    rcases List.mem_cons.1 hw with hw | hw
    · exact absurd hw (by simp)
    · refine ih ?_ hw
      rw [drop_succ_of_drop hdrop 1, List.drop_one]
  | case4 i c cs _ _ _ ih =>
    rcases List.mem_cons.1 hw with hw | hw
    · exact absurd hw (by simp)
    · exact ih (drop_succ_of_drop hdrop 0) hw
  | case5 i c cs hspace _ hsym ih =>
    rcases List.mem_cons.1 hw with hw | hw
    · rw [Token.word.inj hw]
      exact wordAt_takeWhile hdrop (decide_eq_true ⟨hspace, hsym⟩)
    · exact ih (drop_succ_of_drop hdrop _) hw

end Xv6.Shell
