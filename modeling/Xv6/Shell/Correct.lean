import Xv6.Shell.Grammar

/-!
# Correctness of the shell's parser

`parsecmd` returns a tree exactly for the lines of the grammar, and the tree is the only one that
the grammar allows.  `nulterminate` writes a null at the end of each word of the tree; no word of
the line has a character there, so every argument and file name is then its word.
-/

namespace Xv6.Shell

/-- The arguments and file names of a command. -/
def Cmd.words : Cmd → List Word
  | .exec argv => argv
  | .redir cmd r => cmd.words ++ [r.file]
  | .pipe left right => left.words ++ right.words
  | .list left right => left.words ++ right.words
  | .back cmd => cmd.words

/-- The string that starts at an index. -/
def cstring (b : Line) (q : ℕ) : Line := (b.drop q).takeWhile (· ≠ 0)

/-- The characters of a word. -/
def text (s : Line) (w : Word) : Line := (s.drop w.1).take (w.2 - w.1)

variable {s b : Line} {p q e : ℕ} {w : Word} {c : Cmd}

/-! ## The words of a tree -/

theorem words_wrap (c : Cmd) (rs : List Redir) : (wrap c rs).words = c.words ++ rs.map Redir.file := by
  unfold wrap
  induction rs generalizing c with
  | nil => exact (List.append_nil _).symm
  | cons r rs ih =>
    rw [List.foldl_cons, ih, List.map_cons]
    change c.words ++ [r.file] ++ _ = _
    rw [List.append_assoc]
    rfl

theorem words_back (n : ℕ) (c : Cmd) : (Cmd.back^[n] c).words = c.words := by
  induction n generalizing c with
  | zero => rfl
  | succ n ih => exact ih (.back c)

theorem word_mem_redirTokens {rs : List (RedirOp × Word)} (h : w ∈ (redirs rs).map Redir.file) :
    .word w ∈ redirTokens rs := by
  induction rs with
  | nil => exact absurd h List.not_mem_nil
  | cons r rs ih =>
    obtain ⟨op, f⟩ := r
    rcases List.mem_cons.1 h with rfl | h
    · refine List.mem_append_left _ (List.mem_cons_of_mem _ ?_)
      cases op with
      | input => exact List.mem_cons_self
      | output => exact List.mem_cons_self
      | append => exact List.mem_cons_self
    · exact List.mem_append_right _ (ih h)

theorem word_mem_argTokens {as : List (Word × List (RedirOp × Word))}
    (h : w ∈ as.map Prod.fst ∨ w ∈ (argRedirs as).map Redir.file) : .word w ∈ argTokens as := by
  induction as with
  | nil => exact absurd h (by simp [argRedirs])
  | cons a as ih =>
    have hflat : argTokens (a :: as) = (.word a.1 :: redirTokens a.2) ++ argTokens as := rfl
    have hredirs : argRedirs (a :: as) = redirs a.2 ++ argRedirs as := rfl
    rw [hflat]
    rw [hredirs, List.map_append, List.map_cons, List.mem_cons, List.mem_append] at h
    rcases h with (rfl | h) | (h | h)
    · exact List.mem_append_left _ List.mem_cons_self
    · exact List.mem_append_right _ (ih (Or.inl h))
    · exact List.mem_append_left _ (List.mem_cons_of_mem _ (word_mem_redirTokens h))
    · exact List.mem_append_right _ (ih (Or.inr h))

/-- The words of the tree are words of the line. -/
theorem Derives.word_mem {x : Part} {ts : List Token} (h : Derives x ts c) (hw : w ∈ c.words) :
    .word w ∈ ts := by
  induction h with
  | line n _ ih =>
    rw [words_back] at hw
    exact List.mem_append_left _ (ih hw)
  | list n _ _ ih₁ ih₂ =>
    rcases List.mem_append.1 hw with hw | hw
    · rw [words_back] at hw
      exact List.mem_append_left _ (List.mem_append_left _ (ih₁ hw))
    · exact List.mem_append_right _ (List.mem_cons_of_mem _ (ih₂ hw))
  | pipe _ ih => exact ih hw
  | pipes _ _ ih₁ ih₂ =>
    rcases List.mem_append.1 hw with hw | hw
    · exact List.mem_append_left _ (ih₁ hw)
    · exact List.mem_append_right _ (List.mem_cons_of_mem _ (ih₂ hw))
  | block rs _ ih =>
    rw [words_wrap] at hw
    rcases List.mem_append.1 hw with hw | hw
    · exact List.mem_append_left _ (List.mem_cons_of_mem _ (ih hw))
    · exact List.mem_append_right _ (List.mem_cons_of_mem _ (word_mem_redirTokens hw))
  | simple rs as _ =>
    rw [words_wrap, List.map_append] at hw
    rcases List.mem_append.1 hw with hw | hw
    · exact List.mem_append_right _ (word_mem_argTokens (Or.inl hw))
    · rcases List.mem_append.1 hw with hw | hw
      · exact List.mem_append_left _ (word_mem_redirTokens hw)
      · exact List.mem_append_right _ (word_mem_argTokens (Or.inr hw))

/-! ## The nulls -/

theorem charAt_set (b : Line) (e p : ℕ) :
    charAt (b.set e 0) p = if e = p then 0 else charAt b p := by
  unfold charAt
  rw [List.getD_eq_getElem?_getD, List.getElem?_set, List.getD_eq_getElem?_getD]
  split_ifs with h hlt
  · rfl
  · rfl
  · rfl

theorem charAt_foldl_set (ws : List Word) (b : Line) (p : ℕ) :
    charAt (ws.foldl (fun b w => b.set w.2 0) b) p =
      if p ∈ ws.map Prod.snd then 0 else charAt b p := by
  induction ws generalizing b with
  | nil => rfl
  | cons w ws ih =>
    rw [List.foldl_cons, ih, charAt_set, List.map_cons]
    by_cases hp : p ∈ ws.map Prod.snd
    · rw [if_pos hp, if_pos (List.mem_cons_of_mem _ hp)]
    · rw [if_neg hp]
      by_cases hw : w.2 = p
      · rw [if_pos hw, if_pos (hw ▸ List.mem_cons_self)]
      · rw [if_neg hw, if_neg]
        intro hmem
        rcases List.mem_cons.1 hmem with rfl | hmem
        · exact hw rfl
        · exact hp hmem

/-- The nulls are at the ends of the words of the tree. -/
theorem charAt_nulterminate (c : Cmd) (b : Line) (p : ℕ) :
    charAt (nulterminate c b) p = if p ∈ c.words.map Prod.snd then 0 else charAt b p := by
  have htwo : ∀ {A B : List ℕ} {x : BitVec 8},
      (if p ∈ B then 0 else if p ∈ A then 0 else x) = if p ∈ A ++ B then 0 else x := by
    intro A B x
    by_cases hB : p ∈ B
    · rw [if_pos hB, if_pos (List.mem_append_right A hB)]
    · rw [if_neg hB]
      by_cases hA : p ∈ A
      · rw [if_pos hA, if_pos (List.mem_append_left B hA)]
      · rw [if_neg hA, if_neg fun h => (List.mem_append.1 h).elim hA hB]
  induction c generalizing b with
  | exec argv => exact charAt_foldl_set argv b p
  | redir cmd r ih =>
    have hfile := charAt_foldl_set [r.file] (nulterminate cmd b) p
    rw [nulterminate, Cmd.words, List.map_append, ← htwo, ← ih]
    exact hfile
  | pipe left right ih₁ ih₂ => rw [nulterminate, ih₂, ih₁, htwo, Cmd.words, List.map_append]
  | list left right ih₁ ih₂ => rw [nulterminate, ih₂, ih₁, htwo, Cmd.words, List.map_append]
  | back cmd ih => exact ih b

theorem drop_eq_cons (h : q < b.length) : b.drop q = charAt b q :: b.drop (q + 1) := by
  rw [List.drop_eq_getElem_cons h]
  unfold charAt
  rw [List.getD_eq_getElem _ _ h]

theorem lt_length_of_charAt_ne (h : charAt b q ≠ 0) : q < b.length := by
  by_contra hle
  exact h (List.getD_eq_default _ _ (Nat.not_lt.1 hle))

/-- A string is known from its characters and the null after them. -/
theorem cstring_eq_text (hqe : q ≤ e) (hle : e ≤ s.length)
    (hsame : ∀ p, q ≤ p → p < e → charAt b p = charAt s p ∧ charAt s p ≠ 0)
    (hnull : charAt b e = 0) : cstring b q = text s (q, e) := by
  unfold cstring text
  dsimp only
  obtain ⟨n, rfl⟩ := Nat.exists_eq_add_of_le hqe
  rw [Nat.add_sub_cancel_left]
  clear hqe
  induction n generalizing q with
  | zero =>
    rw [List.take_zero]
    cases hd : b.drop q with
    | nil => rfl
    | cons d ds =>
      rw [Nat.add_zero, charAt_of_drop hd] at hnull
      rw [hnull]
      rfl
  | succ n ih =>
    obtain ⟨heq, hne⟩ := hsame q le_rfl (by omega)
    have hb : q < b.length := lt_length_of_charAt_ne (heq ▸ hne)
    have hpos : decide (charAt b q ≠ 0) = true := decide_eq_true (heq.symm ▸ hne)
    have hadd : q + (n + 1) = q + 1 + n := by omega
    rw [drop_eq_cons hb, drop_eq_cons (by omega : q < s.length), List.take_succ_cons,
      List.takeWhile_cons_of_pos (p := fun x => decide (x ≠ 0)) hpos, heq,
      ih (hadd ▸ hle) (fun p h₁ h₂ => hsame p (by omega) (by omega)) (hadd ▸ hnull)]

/-- No word of a line ends at a character of another. -/
theorem WordAt.end_notMem {v : Word} (hw : WordAt s w) (hv : WordAt s v) (h₁ : w.1 ≤ v.2)
    (h₂ : v.2 < w.2) : False := by
  have hchar := hw.chars v.2 h₁ h₂
  rcases hv.stop with hend | hstop
  · have := hw.le
    omega
  · rw [hchar] at hstop
    exact Bool.false_ne_true hstop.symm

theorem charAt_append_left (hp : p < s.length) (t : Line) : charAt (s ++ t) p = charAt s p := by
  unfold charAt
  rw [List.getD_append _ _ _ _ hp]

/-- The nulls leave the characters of every word. -/
theorem charAt_nulterminate_of_wordAt (hc : ∀ v ∈ c.words, WordAt s v) (hw : WordAt s w)
    (h₁ : w.1 ≤ p) (h₂ : p < w.2) : charAt (nulterminate c (s ++ [0])) p = charAt s p := by
  rw [charAt_nulterminate, if_neg, charAt_append_left (h₂.trans_le hw.le)]
  intro hmem
  obtain ⟨v, hv, rfl⟩ := List.mem_map.1 hmem
  exact hw.end_notMem (hc v hv) h₁ h₂

theorem cstring_nulterminate (hs : (0 : BitVec 8) ∉ s) (hc : ∀ v ∈ c.words, WordAt s v)
    (hw : w ∈ c.words) : cstring (nulterminate c (s ++ [0])) w.1 = text s w := by
  have hword := hc w hw
  refine cstring_eq_text hword.lt.le hword.le (fun p h₁ h₂ => ?_) ?_
  · have hp : p < s.length := h₂.trans_le hword.le
    refine ⟨charAt_nulterminate_of_wordAt hc hword h₁ h₂, fun hzero => hs ?_⟩
    rw [← hzero]
    exact mem_of_drop (drop_eq_cons hp)
  · rw [charAt_nulterminate, if_pos (List.mem_map_of_mem hw)]

/-! ## `parsecmd` -/

/-- `parsecmd` accepts exactly the lines of the grammar, with the only tree of the line; no word is
overwritten, and every argument and file name is then its word. -/
theorem parsecmd_correct {fuel : ℕ} (hs : (0 : BitVec 8) ∉ s) (hfuel : 4 * s.length + 4 ≤ fuel) :
    parsecmd fuel s ≠ .error .fuel ∧
      (∀ c, (∃ b, parsecmd fuel s = .ok (c, b)) ↔ Derives .line (tokens s) c) ∧
      (∀ c d, Derives .line (tokens s) c → Derives .line (tokens s) d → c = d) ∧
      ∀ c b, parsecmd fuel s = .ok (c, b) →
        (∀ w, .word w ∈ tokens s → ∀ p, w.1 ≤ p → p < w.2 → charAt b p = charAt s p) ∧
        ∀ w ∈ c.words, .word w ∈ tokens s ∧ cstring b w.1 = text s w := by
  have hlen : Part.line.fuel (tokens s).length ≤ fuel := by
    have := length_lex_le 0 s
    change 4 * (tokens s).length + 4 ≤ fuel
    unfold tokens
    omega
  have hsound := (parse_sound hs fuel).1 (at_zero s) hlen
  have hcomplete : ∀ c, Derives .line (tokens s) c →
      parsecmd fuel s = .ok (c, nulterminate c (s ++ [0])) := by
    intro c hd
    have hat : At s 0 (tokens s ++ []) := by
      rw [List.append_nil]
      exact at_zero s
    obtain ⟨j, hparse, hj⟩ := parse_complete hs hd hat (Or.inl rfl) hlen
    change parseline s fuel 0 = _ at hparse
    have hend : ¬ (peek s j []).2 ≠ s.length := not_not.2 ((hj.skip_eq_length_iff hs).2 rfl)
    unfold parsecmd
    rw [hparse]
    change (if (peek s j []).2 ≠ s.length then _ else _) = _
    rw [if_neg hend]
    rfl
  have haccept : ∀ c b, parsecmd fuel s = .ok (c, b) → Derives .line (tokens s) c := by
    intro c b hok
    unfold parsecmd at hok
    cases hparse : parseline s fuel 0 with
    | error m =>
      rw [hparse] at hok
      exact nomatch hok
    | ok r =>
      rw [hparse] at hok hsound
      obtain ⟨us, vs, htokens, hd, hat⟩ := hsound
      change (if (peek s r.2 []).2 ≠ s.length then _ else _) = _ at hok
      split_ifs at hok with hend
      · have hnil : vs = [] := (hat.skip_eq_length_iff hs).1 (not_not.1 hend)
        have hcmd : r.1 = c := congrArg Prod.fst (Except.ok.inj hok)
        rw [htokens, hnil, List.append_nil, ← hcmd]
        exact hd
  refine ⟨?_, fun c => ⟨?_, ?_⟩, fun c d hc hd => ?_, fun c b hok => ?_⟩
  · unfold parsecmd
    cases hparse : parseline s fuel 0 with
    | error m =>
      rw [hparse] at hsound
      cases m with
      | panic m => exact nofun
      | fuel => exact hsound.elim
    | ok r =>
      change (if (peek s r.2 []).2 ≠ s.length then _ else _) ≠ _
      split_ifs
      · exact nofun
      · exact nofun
  · rintro ⟨b, hok⟩
    exact haccept c b hok
  · exact fun hd => ⟨_, hcomplete c hd⟩
  · exact congrArg Prod.fst (Except.ok.inj ((hcomplete c hc).symm.trans (hcomplete d hd)))
  · have hd := haccept c b hok
    obtain rfl : nulterminate c (s ++ [0]) = b :=
      congrArg Prod.snd (Except.ok.inj ((hcomplete c hd).symm.trans hok))
    have hwords : ∀ v ∈ c.words, WordAt s v := fun v hv =>
      wordAt_of_mem_lex List.drop_zero (hd.word_mem hv)
    refine ⟨fun w hw p h₁ h₂ => ?_, fun w hw => ⟨hd.word_mem hw, ?_⟩⟩
    · exact charAt_nulterminate_of_wordAt hwords (wordAt_of_mem_lex List.drop_zero hw) h₁ h₂
    · exact cstring_nulterminate hs hwords hw

/-- The line `a>f|b`. -/
theorem parsecmd_correct_pipe :
    Derives .line (tokens [0x61, 0x3e, 0x66, 0x7c, 0x62])
      (.pipe (.redir (.exec [(0, 1)]) ⟨(2, 3), 0x601, 1⟩) (.exec [(4, 5)])) :=
  ((parsecmd_correct (s := [0x61, 0x3e, 0x66, 0x7c, 0x62]) (by decide)
    (show 4 * 5 + 4 ≤ 24 by decide)).2.1 _).1 ⟨[0x61, 0, 0x66, 0, 0x62, 0], by decide +kernel⟩

end Xv6.Shell
