import Xv6.Shell.Lex

/-!
# The grammar of the shell

`Derives x ts c` says that the tokens `ts` are a line, a pipe or an exec of the grammar, with the
tree `c`.  The parser is sound: what it returns is derived from the tokens it took, and it never
runs out of fuel.  It is complete: a derivation that is followed by a token that cannot continue it
is what the parser returns.  So a line has at most one tree.
-/

namespace Xv6.Shell

/-! ## The grammar -/

inductive RedirOp
  | input
  | output
  | append
deriving DecidableEq, Repr

def RedirOp.token : RedirOp → Token
  | .input => .sym less
  | .output => .sym greater
  | .append => .append

/-- The redirection that an operator and a file stand for. -/
def RedirOp.redir : RedirOp → Word → Redir
  | .input, file => ⟨file, O_RDONLY, 0⟩
  | .output, file => ⟨file, O_WRONLY ||| O_CREATE ||| O_TRUNC, 1⟩
  | .append, file => ⟨file, O_WRONLY ||| O_CREATE, 1⟩

/-- `redir*`: each redirection is an operator and a word. -/
def redirTokens (rs : List (RedirOp × Word)) : List Token :=
  rs.flatMap fun r => [r.1.token, .word r.2]

def redirs (rs : List (RedirOp × Word)) : List Redir := rs.map fun r => r.1.redir r.2

/-- `(word redir*)*`. -/
def argTokens (as : List (Word × List (RedirOp × Word))) : List Token :=
  as.flatMap fun a => .word a.1 :: redirTokens a.2

def argRedirs (as : List (Word × List (RedirOp × Word))) : List Redir :=
  as.flatMap fun a => redirs a.2

inductive Part
  | line
  | pipe
  | exec

/-- `line := pipe '&'* [';' line]`, `pipe := exec ['|' pipe]` and
`exec := '(' line ')' redir* | redir* (word redir*)*`. -/
inductive Derives : Part → List Token → Cmd → Prop
  | line {ts : List Token} {c : Cmd} (n : ℕ) (h : Derives .pipe ts c) :
      Derives .line (ts ++ List.replicate n (.sym amp)) (Cmd.back^[n] c)
  | list {ts us : List Token} {c d : Cmd} (n : ℕ) (h : Derives .pipe ts c) (k : Derives .line us d) :
      Derives .line (ts ++ List.replicate n (.sym amp) ++ .sym semi :: us)
        (.list (Cmd.back^[n] c) d)
  | pipe {ts : List Token} {c : Cmd} (h : Derives .exec ts c) : Derives .pipe ts c
  | pipes {ts us : List Token} {c d : Cmd} (h : Derives .exec ts c) (k : Derives .pipe us d) :
      Derives .pipe (ts ++ .sym bar :: us) (.pipe c d)
  | block {ts : List Token} {c : Cmd} (rs : List (RedirOp × Word)) (h : Derives .line ts c) :
      Derives .exec (.sym lparen :: ts ++ .sym rparen :: redirTokens rs) (wrap c (redirs rs))
  | simple (rs : List (RedirOp × Word)) (as : List (Word × List (RedirOp × Word)))
      (h : as.length ≤ MAXARGS - 1) :
      Derives .exec (redirTokens rs ++ argTokens as)
        (wrap (.exec (as.map Prod.fst)) (redirs rs ++ argRedirs as))

/-! ## Results -/

variable {α β : Type}

/-- A result that has the property, or a panic; not fuel that ran out. -/
def Yields (P : α → Prop) : Except Stop α → Prop
  | .ok a => P a
  | .error (.panic _) => True
  | .error .fuel => False

theorem Yields.bind {P : α → Prop} {Q : β → Prop} {r : Except Stop α} {f : α → Except Stop β}
    (h : Yields P r) (hf : ∀ a, P a → Yields Q (f a)) : Yields Q (r >>= f) := by
  cases r with
  | ok a => exact hf a h
  | error e =>
    cases e with
    | panic m => trivial
    | fuel => exact h

theorem Yields.mono {P Q : α → Prop} {r : Except Stop α} (h : Yields P r) (hPQ : ∀ a, P a → Q a) :
    Yields Q r := by
  cases r with
  | ok a => exact hPQ a h
  | error e =>
    cases e with
    | panic m => trivial
    | fuel => exact h

/-! ## Peeking and taking -/

section Cursor

variable {s : Line} {i : ℕ} {c : BitVec 8} {ts : List Token} {toks : List (BitVec 8)}

/-- A token that begins with one of the single symbols is that symbol. -/
theorem headIn_singleton (h : headIn [c] ts = true) (hc : c ≠ greater) :
    ∃ us, ts = .sym c :: us := by
  cases ts with
  | nil => exact absurd h Bool.false_ne_true
  | cons t us =>
    cases t with
    | sym d => exact ⟨us, by rw [List.mem_singleton.1 (of_decide_eq_true h)]⟩
    | append => exact absurd (List.mem_singleton.1 (of_decide_eq_true h)).symm hc
    | word w => exact absurd h Bool.false_ne_true

/-- A token that begins with `<` or `>` is the operator of a redirection. -/
theorem headIn_redir (h : headIn [less, greater] ts = true) :
    ∃ op us, ts = RedirOp.token op :: us := by
  cases ts with
  | nil => exact absurd h Bool.false_ne_true
  | cons t us =>
    cases t with
    | sym d =>
      rcases List.mem_cons.1 (of_decide_eq_true h) with rfl | hd
      · exact ⟨.input, us, rfl⟩
      · rw [List.mem_singleton.1 hd]
        exact ⟨.output, us, rfl⟩
    | append => exact ⟨.append, us, rfl⟩
    | word w => exact absurd h Bool.false_ne_true

end Cursor

theorem redirOf_tok (op : RedirOp) (w : Word) : redirOf op.token.tok w = [op.redir w] := by
  cases op with
  | input => rfl
  | output => rfl
  | append => rfl

/-! ## Soundness -/

section Sound

variable {s : Line} (hs : (0 : BitVec 8) ∉ s) {i : ℕ} {ts : List Token}
include hs

theorem parseredirs_sound (fuel : ℕ) (h : At s i ts) (hfuel : ts.length < fuel) :
    Yields (fun r => ∃ rs us, ts = redirTokens rs ++ us ∧ r.1 = redirs rs ∧ At s r.2 us)
      (parseredirs s fuel i) := by
  induction fuel generalizing i ts with
  | zero => exact absurd hfuel (Nat.not_lt_zero _)
  | succ fuel ih =>
    obtain ⟨hpeek, hat⟩ := peek_eq hs h [less, greater]
    rw [parseredirs]
    dsimp only
    rw [hpeek]
    split_ifs with hmore hword
    · trivial
    · obtain ⟨op, us, rfl⟩ := headIn_redir hmore
      obtain ⟨htok, hat₁, -⟩ := gettoken_cons hs hat
      obtain ⟨w, vs, hw, rfl, hat₂⟩ := gettoken_word hs hat₁ (not_not.1 hword)
      simp only [List.length_cons] at hfuel
      refine (ih hat₂ (by omega)).bind fun r hr => ?_
      obtain ⟨rs, us, rfl, hrs, hat₃⟩ := hr
      refine ⟨(op, w) :: rs, us, rfl, ?_, hat₃⟩
      dsimp only
      rw [htok, hw, redirOf_tok, hrs]
      rfl
    · exact ⟨[], ts, rfl, rfl, hat⟩

theorem argLoop_sound (fuel : ℕ) (argv : List Word) (rs : List Redir) (h : At s i ts)
    (hfuel : ts.length < fuel) (hargv : argv.length ≤ MAXARGS - 1) :
    Yields (fun r => ∃ as us, ts = argTokens as ++ us ∧ argv.length + as.length ≤ MAXARGS - 1 ∧
      r.1 = wrap (.exec (argv ++ as.map Prod.fst)) (rs ++ argRedirs as) ∧ At s r.2 us)
      (argLoop s fuel argv rs i) := by
  induction fuel generalizing i ts argv rs with
  | zero => exact absurd hfuel (Nat.not_lt_zero _)
  | succ fuel ih =>
    obtain ⟨hpeek, hat⟩ := peek_eq hs h [bar, rparen, amp, semi]
    have hstop : ∀ j, At s j ts → ∃ as us, ts = argTokens as ++ us ∧
        argv.length + as.length ≤ MAXARGS - 1 ∧
        wrap (.exec argv) rs = wrap (.exec (argv ++ as.map Prod.fst)) (rs ++ argRedirs as) ∧
        At s j us := by
      intro j hj
      refine ⟨[], ts, rfl, hargv, ?_, hj⟩
      rw [List.map_nil, List.append_nil]
      exact congrArg _ (List.append_nil rs).symm
    rw [argLoop]
    dsimp only
    rw [hpeek]
    split_ifs with hdone heof hword hmax
    · exact hstop _ hat
    · have hnil : ts = [] := by
        cases ts with
        | nil => rfl
        | cons t us =>
          rw [(gettoken_cons hs hat).1] at heof
          cases t with
          | sym c => exact nomatch heof
          | append => exact nomatch heof
          | word w => exact nomatch heof
      subst hnil
      exact hstop _ (gettoken_nil hs hat).2
    · trivial
    · trivial
    · obtain ⟨w, us, hw, rfl, hat₁⟩ := gettoken_word hs hat (not_not.1 hword)
      rw [hw]
      rw [List.length_cons] at hfuel
      refine (parseredirs_sound hs fuel hat₁ (by omega)).bind fun r hr => ?_
      obtain ⟨more, vs, rfl, hmore, hat₂⟩ := hr
      rw [List.length_append] at hfuel
      have hlen : (argv ++ [w]).length ≤ MAXARGS - 1 := by
        rw [List.length_append, List.length_singleton]
        omega
      refine (ih (argv ++ [w]) (rs ++ r.1) hat₂ (by omega) hlen).mono fun q hq => ?_
      obtain ⟨as, us, rfl, has, hcmd, hat₃⟩ := hq
      refine ⟨(w, more) :: as, us, ?_, ?_, ?_, hat₃⟩
      · rw [← List.append_assoc]
        rfl
      · rw [List.length_append, List.length_singleton] at has
        rw [List.length_cons]
        omega
      · rw [hcmd, hmore, List.append_assoc, List.append_assoc]
        rfl

theorem backLoop_sound (fuel : ℕ) (cmd : Cmd) (h : At s i ts) (hfuel : ts.length < fuel) :
    Yields (fun r => ∃ n us, ts = List.replicate n (.sym amp) ++ us ∧ r.1 = Cmd.back^[n] cmd ∧
      At s r.2 us) (backLoop s fuel cmd i) := by
  induction fuel generalizing i ts cmd with
  | zero => exact absurd hfuel (Nat.not_lt_zero _)
  | succ fuel ih =>
    obtain ⟨hpeek, hat⟩ := peek_eq hs h [amp]
    rw [backLoop]
    dsimp only
    rw [hpeek]
    split_ifs with hmore
    · obtain ⟨us, rfl⟩ := headIn_singleton hmore (by decide)
      obtain ⟨-, hat₁, -⟩ := gettoken_cons hs hat
      rw [List.length_cons] at hfuel
      refine (ih (.back cmd) hat₁ (by omega)).mono fun r hr => ?_
      obtain ⟨n, vs, rfl, hcmd, hat₂⟩ := hr
      exact ⟨n + 1, vs, rfl, hcmd, hat₂⟩
    · exact ⟨0, ts, rfl, rfl, hat⟩

/-- What a parsing function returns: the tree of the tokens it took, and the cursor after them. -/
def Parsed (s : Line) (x : Part) (ts : List Token) (r : Cmd × ℕ) : Prop :=
  ∃ us vs, ts = us ++ vs ∧ Derives x us r.1 ∧ At s r.2 vs

/-- The fuel that is enough for a part: four calls are made for each token. -/
def Part.fuel : Part → ℕ → ℕ
  | .line, n => 4 * n + 4
  | .pipe, n => 4 * n + 3
  | .exec, n => 4 * n + 2

/-- With the fuel `need n` for `n` tokens, the parsing function panics or returns the tree of the tokens
it took. -/
def Parses (s : Line) (x : Part) (need : ℕ → ℕ) (parse : ℕ → ℕ → Except Stop (Cmd × ℕ)) (fuel : ℕ) : Prop :=
  ∀ {i ts}, At s i ts → need ts.length ≤ fuel → Yields (Parsed s x ts) (parse fuel i)

theorem parseline_sound {fuel : ℕ}
    (ihpipe : Parses s .pipe Part.pipe.fuel (parsepipe s) fuel)
    (ihline : Parses s .line Part.line.fuel (parseline s) fuel)
    (h : At s i ts) (hf : Part.line.fuel ts.length ≤ fuel + 1) :
    Yields (Parsed s .line ts) (parseline s (fuel + 1) i) := by
  change 4 * ts.length + 4 ≤ fuel + 1 at hf
  rw [parseline]
  refine (ihpipe h (by change 4 * ts.length + 3 ≤ fuel; omega)).bind fun r hr => ?_
  obtain ⟨us, vs, rfl, hpipe, hat₁⟩ := hr
  rw [List.length_append] at hf
  refine (backLoop_sound hs fuel r.1 hat₁ (by omega)).bind fun q hq => ?_
  obtain ⟨n, ws, rfl, hback, hat₂⟩ := hq
  rw [List.length_append, List.length_replicate] at hf
  obtain ⟨hpeek, hat₃⟩ := peek_eq hs hat₂ [semi]
  dsimp only
  rw [hpeek]
  split_ifs with hmore
  · obtain ⟨xs, rfl⟩ := headIn_singleton hmore (by decide)
    obtain ⟨-, hat₄, -⟩ := gettoken_cons hs hat₃
    rw [List.length_cons] at hf
    have hfuel : Part.line.fuel xs.length ≤ fuel := by
      change 4 * xs.length + 4 ≤ fuel
      omega
    refine (ihline hat₄ hfuel).bind fun p hp => ?_
    obtain ⟨ys, zs, rfl, hline, hat₅⟩ := hp
    refine ⟨us ++ List.replicate n (.sym amp) ++ .sym semi :: ys, zs, ?_, ?_, hat₅⟩
    · simp only [List.append_assoc, List.cons_append]
    · dsimp only
      rw [hback]
      exact .list n hpipe hline
  · refine ⟨us ++ List.replicate n (.sym amp), ws, ?_, ?_, hat₃⟩
    · rw [List.append_assoc]
    · dsimp only
      rw [hback]
      exact .line n hpipe

theorem parsepipe_sound {fuel : ℕ}
    (ihexec : Parses s .exec Part.exec.fuel (parseexec s) fuel)
    (ihpipe : Parses s .pipe Part.pipe.fuel (parsepipe s) fuel)
    (h : At s i ts) (hf : Part.pipe.fuel ts.length ≤ fuel + 1) :
    Yields (Parsed s .pipe ts) (parsepipe s (fuel + 1) i) := by
  change 4 * ts.length + 3 ≤ fuel + 1 at hf
  rw [parsepipe]
  refine (ihexec h (by change 4 * ts.length + 2 ≤ fuel; omega)).bind fun r hr => ?_
  obtain ⟨us, vs, rfl, hexec, hat₁⟩ := hr
  rw [List.length_append] at hf
  obtain ⟨hpeek, hat₂⟩ := peek_eq hs hat₁ [bar]
  dsimp only
  rw [hpeek]
  split_ifs with hmore
  · obtain ⟨xs, rfl⟩ := headIn_singleton hmore (by decide)
    obtain ⟨-, hat₃, -⟩ := gettoken_cons hs hat₂
    rw [List.length_cons] at hf
    have hfuel : Part.pipe.fuel xs.length ≤ fuel := by
      change 4 * xs.length + 3 ≤ fuel
      omega
    refine (ihpipe hat₃ hfuel).bind fun p hp => ?_
    obtain ⟨ys, zs, rfl, hpipe, hat₄⟩ := hp
    refine ⟨us ++ .sym bar :: ys, zs, ?_, .pipes hexec hpipe, hat₄⟩
    rw [List.append_assoc, List.cons_append]
  · exact ⟨us, vs, rfl, .pipe hexec, hat₂⟩

theorem parseblock_sound {fuel : ℕ}
    (ihline : Parses s .line Part.line.fuel (parseline s) fuel)
    (h : At s i ts) (hf : 4 * ts.length + 1 ≤ fuel + 1) :
    Yields (Parsed s .exec ts) (parseblock s (fuel + 1) i) := by
  rw [parseblock]
  obtain ⟨hpeek, hat₁⟩ := peek_eq hs h [lparen]
  dsimp only
  rw [hpeek]
  split_ifs with hopen
  · trivial
  obtain ⟨us, rfl⟩ := headIn_singleton (by simpa using hopen) (by decide)
  obtain ⟨-, hat₂, -⟩ := gettoken_cons hs hat₁
  rw [List.length_cons] at hf
  have hfuel : Part.line.fuel us.length ≤ fuel := by
    change 4 * us.length + 4 ≤ fuel
    omega
  refine (ihline hat₂ hfuel).bind fun r hr => ?_
  obtain ⟨ys, zs, rfl, hline, hat₃⟩ := hr
  obtain ⟨hpeek₂, hat₄⟩ := peek_eq hs hat₃ [rparen]
  rw [hpeek₂]
  split_ifs with hclose
  · trivial
  obtain ⟨vs, rfl⟩ := headIn_singleton (by simpa using hclose) (by decide)
  obtain ⟨-, hat₅, -⟩ := gettoken_cons hs hat₄
  rw [List.length_append, List.length_cons] at hf
  refine (parseredirs_sound hs fuel hat₅ (by omega)).bind fun q hq => ?_
  obtain ⟨rs, ws, rfl, hrs, hat₆⟩ := hq
  refine ⟨.sym lparen :: ys ++ .sym rparen :: redirTokens rs, ws, ?_, ?_, hat₆⟩
  · simp only [List.append_assoc, List.cons_append]
  · dsimp only
    rw [hrs]
    exact .block rs hline

theorem parseexec_sound {fuel : ℕ}
    (ihblock : Parses s .exec (4 * · + 1) (parseblock s) fuel)
    (h : At s i ts) (hf : Part.exec.fuel ts.length ≤ fuel + 1) :
    Yields (Parsed s .exec ts) (parseexec s (fuel + 1) i) := by
  change 4 * ts.length + 2 ≤ fuel + 1 at hf
  rw [parseexec]
  obtain ⟨hpeek, hat₁⟩ := peek_eq hs h [lparen]
  dsimp only
  rw [hpeek]
  split_ifs with hopen
  · exact ihblock hat₁ (Nat.le_of_succ_le_succ hf)
  · refine (parseredirs_sound hs fuel hat₁ (by omega)).bind fun q hq => ?_
    obtain ⟨rs, us, rfl, hrs, hat₂⟩ := hq
    rw [List.length_append] at hf
    refine (argLoop_sound hs fuel [] q.1 hat₂ (by omega) (Nat.zero_le _)).mono fun r hr => ?_
    obtain ⟨as, vs, rfl, has, hcmd, hat₃⟩ := hr
    refine ⟨redirTokens rs ++ argTokens as, vs, ?_, ?_, hat₃⟩
    · rw [List.append_assoc]
    · rw [List.length_nil, Nat.zero_add] at has
      rw [hcmd, hrs, List.nil_append]
      exact .simple rs as has

/-- Enough fuel for all parsing functions. -/
theorem parse_sound (fuel : ℕ) :
    Parses s .line Part.line.fuel (parseline s) fuel ∧ Parses s .pipe Part.pipe.fuel (parsepipe s) fuel ∧
      Parses s .exec (4 * · + 1) (parseblock s) fuel ∧
      Parses s .exec Part.exec.fuel (parseexec s) fuel := by
  induction fuel with
  | zero =>
    refine ⟨fun _ hf => ?_, fun _ hf => ?_, fun _ hf => ?_, fun _ hf => ?_⟩
    all_goals exact absurd hf (Nat.not_succ_le_zero _)
  | succ fuel ih =>
    obtain ⟨ihline, ihpipe, ihblock, ihexec⟩ := ih
    exact ⟨parseline_sound hs ihpipe ihline, parsepipe_sound hs ihexec ihpipe,
      parseblock_sound hs ihline, parseexec_sound hs ihblock⟩

end Sound

/-! ## Completeness -/

/-- The symbols that can follow a part. -/
def Part.follow : Part → List (BitVec 8)
  | .line => [rparen]
  | .pipe => [amp, semi, rparen]
  | .exec => [bar, rparen, amp, semi]

/-- The tokens can follow a part: there are none, or the first one is such a symbol. -/
def Follows (x : Part) (us : List Token) : Prop := us = [] ∨ headIn x.follow us = true

/-- The parsing function of a part. -/
def Part.parse (s : Line) : Part → ℕ → ℕ → Except Stop (Cmd × ℕ)
  | .line => parseline s
  | .pipe => parsepipe s
  | .exec => parseexec s

section Complete

variable {s : Line} (hs : (0 : BitVec 8) ∉ s) {i : ℕ} {us : List Token}

/-- The first token is none of `toks` when it is one of other symbols. -/
theorem headIn_eq_false {x y : List (BitVec 8)} (h : us = [] ∨ headIn x us = true)
    (hxy : ∀ c ∈ x, c ∉ y) (hgt : greater ∉ x) : headIn y us = false := by
  rcases h with rfl | h
  · rfl
  cases us with
  | nil => rfl
  | cons t us =>
    cases t with
    | sym c => exact decide_eq_false (hxy c (of_decide_eq_true h))
    | append => exact absurd (of_decide_eq_true h) hgt
    | word w => rfl

theorem Follows.headIn_eq_false {x : Part} (h : Follows x us) {y : List (BitVec 8)}
    (hxy : ∀ c ∈ x.follow, c ∉ y) : headIn y us = false := by
  refine Shell.headIn_eq_false h hxy ?_
  cases x with
  | line => decide
  | pipe => decide
  | exec => decide

theorem headIn_mono {x y : List (BitVec 8)} (h : headIn x us = true) (hxy : x ⊆ y) :
    headIn y us = true := by
  cases us with
  | nil => exact h
  | cons t us =>
    cases t with
    | sym c => exact decide_eq_true (hxy (of_decide_eq_true h))
    | append => exact decide_eq_true (hxy (of_decide_eq_true h))
    | word w => exact h

theorem Follows.mono {x y : Part} (h : Follows x us) (hxy : x.follow ⊆ y.follow) : Follows y us :=
  h.imp id fun h => headIn_mono h hxy

theorem Follows.replicate (h : Follows .pipe us) (n : ℕ) :
    Follows .pipe (List.replicate n (.sym amp) ++ us) := by
  cases n with
  | zero => exact h
  | succ n => exact Or.inr rfl

theorem length_redirTokens (rs : List (RedirOp × Word)) :
    (redirTokens rs).length = 2 * rs.length := by
  induction rs with
  | nil => rfl
  | cons r rs ih =>
    change (redirTokens rs).length + 1 + 1 = 2 * (rs.length + 1)
    omega

theorem headIn_redirTokens (r : RedirOp × Word) (rs : List (RedirOp × Word)) :
    headIn [less, greater] (redirTokens (r :: rs) ++ us) = true := by
  obtain ⟨op, w⟩ := r
  cases op with
  | input => rfl
  | output => rfl
  | append => rfl

include hs

theorem parseredirs_complete (fuel : ℕ) {rs : List (RedirOp × Word)}
    (h : At s i (redirTokens rs ++ us)) (hus : headIn [less, greater] us = false)
    (hfuel : rs.length < fuel) :
    ∃ j, parseredirs s fuel i = .ok (redirs rs, j) ∧ At s j us := by
  induction fuel generalizing i rs with
  | zero => exact absurd hfuel (Nat.not_lt_zero _)
  | succ fuel ih =>
    obtain ⟨hpeek, hat⟩ := peek_eq hs h [less, greater]
    rw [parseredirs]
    dsimp only
    rw [hpeek]
    cases rs with
    | nil =>
      have hnone : headIn [less, greater] (redirTokens [] ++ us) = false := hus
      rw [hnone, if_neg Bool.false_ne_true]
      exact ⟨_, rfl, hat⟩
    | cons r rs =>
      obtain ⟨htok, hat₁, -⟩ := gettoken_cons hs hat
      obtain ⟨hword, hat₂, hw⟩ := gettoken_cons hs hat₁
      obtain ⟨j, hrest, hj⟩ := ih hat₂ (Nat.lt_of_succ_lt_succ hfuel)
      have hfile : ¬ (gettoken s (gettoken s (peek s i [less, greater]).2).2.2).1 ≠ .word :=
        not_not.2 hword
      rw [headIn_redirTokens, if_pos rfl, if_neg hfile, hrest, htok, hw r.2 rfl, redirOf_tok]
      exact ⟨j, rfl, hj⟩

theorem argLoop_complete (fuel : ℕ) {as : List (Word × List (RedirOp × Word))} (argv : List Word)
    (rs : List Redir) (h : At s i (argTokens as ++ us)) (hus : Follows .exec us)
    (hfuel : (argTokens as).length < fuel) (hlen : argv.length + as.length ≤ MAXARGS - 1) :
    ∃ j, argLoop s fuel argv rs i =
        .ok (wrap (.exec (argv ++ as.map Prod.fst)) (rs ++ argRedirs as), j) ∧ At s j us := by
  induction fuel generalizing i as argv rs with
  | zero => exact absurd hfuel (Nat.not_lt_zero _)
  | succ fuel ih =>
    obtain ⟨hpeek, hat⟩ := peek_eq hs h [bar, rparen, amp, semi]
    rw [argLoop]
    dsimp only
    rw [hpeek]
    cases as with
    | nil =>
      have hresult : wrap (.exec (argv ++ List.map Prod.fst ([] : List (Word × List (RedirOp × Word)))))
          (rs ++ argRedirs []) = wrap (.exec argv) rs := by
        rw [List.map_nil, List.append_nil]
        exact congrArg _ (List.append_nil rs)
      rw [hresult]
      rcases hus with rfl | hhead
      · have hnone : headIn [bar, rparen, amp, semi] (argTokens [] ++ []) = false := rfl
        obtain ⟨heof, hat₁⟩ := gettoken_nil hs hat
        rw [hnone, if_neg Bool.false_ne_true, if_pos heof]
        exact ⟨_, rfl, hat₁⟩
      · have hsome : headIn [bar, rparen, amp, semi] (argTokens [] ++ us) = true := hhead
        rw [hsome, if_pos rfl]
        exact ⟨_, rfl, hat⟩
    | cons a as =>
      obtain ⟨w, more⟩ := a
      have hword : headIn [bar, rparen, amp, semi] (argTokens ((w, more) :: as) ++ us) = false := rfl
      obtain ⟨htok, hat₁, hw⟩ := gettoken_cons hs hat
      have heof : ¬ (gettoken s (peek s i [bar, rparen, amp, semi]).2).1 = .eof := by
        rw [htok]
        exact nofun
      have hnot : ¬ (gettoken s (peek s i [bar, rparen, amp, semi]).2).1 ≠ .word := not_not.2 htok
      rw [List.length_cons] at hlen
      have hmax : ¬ argv.length + 1 ≥ MAXARGS := by
        change argv.length + (as.length + 1) ≤ 9 at hlen
        change ¬ argv.length + 1 ≥ 10
        omega
      have hnext : headIn [less, greater] (argTokens as ++ us) = false := by
        cases as with
        | nil => exact hus.headIn_eq_false (by decide)
        | cons b bs => rfl
      have hflat : argTokens ((w, more) :: as) = .word w :: (redirTokens more ++ argTokens as) := rfl
      rw [hflat, List.length_cons, List.length_append] at hfuel
      have hmore := length_redirTokens more
      change At s _ ((redirTokens more ++ argTokens as) ++ us) at hat₁
      rw [List.append_assoc] at hat₁
      obtain ⟨j, hredirs, hj⟩ := parseredirs_complete hs fuel hat₁ hnext (by omega)
      have hargv : (argv ++ [w]).length + as.length ≤ MAXARGS - 1 := by
        rw [List.length_append, List.length_singleton]
        omega
      obtain ⟨k, hloop, hk⟩ := ih (argv ++ [w]) (rs ++ redirs more) hj (by omega) hargv
      rw [hword, if_neg Bool.false_ne_true, if_neg heof, if_neg hnot, if_neg hmax, hredirs,
        hw w rfl]
      refine ⟨k, ?_, hk⟩
      change argLoop s fuel (argv ++ [w]) (rs ++ redirs more) j = _
      rw [hloop, List.append_assoc, List.append_assoc]
      rfl

theorem backLoop_complete (fuel : ℕ) {n : ℕ} (cmd : Cmd)
    (h : At s i (List.replicate n (.sym amp) ++ us)) (hus : headIn [amp] us = false)
    (hfuel : n < fuel) :
    ∃ j, backLoop s fuel cmd i = .ok (Cmd.back^[n] cmd, j) ∧ At s j us := by
  induction fuel generalizing i n cmd with
  | zero => exact absurd hfuel (Nat.not_lt_zero _)
  | succ fuel ih =>
    obtain ⟨hpeek, hat⟩ := peek_eq hs h [amp]
    rw [backLoop]
    dsimp only
    rw [hpeek]
    cases n with
    | zero =>
      have hnone : headIn [amp] (List.replicate 0 (.sym amp) ++ us) = false := hus
      rw [hnone, if_neg Bool.false_ne_true]
      exact ⟨_, rfl, hat⟩
    | succ n =>
      have hsome : headIn [amp] (List.replicate (n + 1) (.sym amp) ++ us) = true := rfl
      obtain ⟨-, hat₁, -⟩ := gettoken_cons hs hat
      rw [hsome, if_pos rfl]
      exact ih (.back cmd) hat₁ (Nat.lt_of_succ_lt_succ hfuel)

/-- A line after its pipe: the `&`s, and then another line if there is a `;`. -/
theorem parseline_eq {fuel j n : ℕ} {c : Cmd} (hpipe : parsepipe s fuel i = .ok (c, j))
    (hj : At s j (List.replicate n (.sym amp) ++ us)) (hus : headIn [amp] us = false)
    (hfuel : n < fuel) :
    ∃ k, At s k us ∧ parseline s (fuel + 1) i =
      if headIn [semi] us then do
        let (right, l) ← parseline s fuel (gettoken s k).2.2
        return (.list (Cmd.back^[n] c) right, l)
      else .ok (Cmd.back^[n] c, k) := by
  obtain ⟨k, hback, hk⟩ := backLoop_complete hs fuel c hj hus hfuel
  obtain ⟨hpeek, hat⟩ := peek_eq hs hk [semi]
  refine ⟨_, hat, ?_⟩
  rw [parseline, hpipe]
  change (backLoop s fuel c j >>= _) = _
  rw [hback, ← hpeek]
  rfl

theorem parsepipe_eq {fuel j : ℕ} {c : Cmd} (hexec : parseexec s fuel i = .ok (c, j))
    (hj : At s j us) :
    ∃ k, At s k us ∧ parsepipe s (fuel + 1) i =
      if headIn [bar] us then do
        let (right, l) ← parsepipe s fuel (gettoken s k).2.2
        return (.pipe c right, l)
      else .ok (c, k) := by
  obtain ⟨hpeek, hat⟩ := peek_eq hs hj [bar]
  refine ⟨_, hat, ?_⟩
  rw [parsepipe, hexec, ← hpeek]
  rfl

theorem parseblock_complete {fuel : ℕ} {ts : List Token} {c : Cmd} {rs : List (RedirOp × Word)}
    (hline : ∀ {i vs}, At s i (ts ++ vs) → Follows .line vs →
      ∃ j, parseline s fuel i = .ok (c, j) ∧ At s j vs)
    (h : At s i (.sym lparen :: ts ++ .sym rparen :: redirTokens rs ++ us))
    (hus : headIn [less, greater] us = false) (hfuel : rs.length < fuel) :
    ∃ j, parseblock s (fuel + 1) i = .ok (wrap c (redirs rs), j) ∧ At s j us := by
  rw [List.append_assoc] at h
  obtain ⟨hopen, hat⟩ := peek_eq hs h [lparen]
  obtain ⟨-, hat₁, -⟩ := gettoken_cons hs hat
  obtain ⟨j, hparse, hj⟩ := hline hat₁ (Or.inr rfl)
  obtain ⟨hclose, hat₂⟩ := peek_eq hs hj [rparen]
  obtain ⟨-, hat₃, -⟩ := gettoken_cons hs hat₂
  obtain ⟨k, hredirs, hk⟩ := parseredirs_complete hs fuel hat₃ hus hfuel
  have hopen' : (!(peek s i [lparen]).1) = false := by
    rw [hopen]
    rfl
  have hclose' : (!(peek s j [rparen]).1) = false := by
    rw [hclose]
    rfl
  refine ⟨k, ?_, hk⟩
  rw [parseblock]
  dsimp only
  rw [hopen', if_neg Bool.false_ne_true, hparse]
  change (if !(peek s j [rparen]).1 then _ else _) = _
  rw [hclose', if_neg Bool.false_ne_true, hredirs]
  rfl

theorem parseexec_complete {fuel : ℕ} {rs : List (RedirOp × Word)}
    {as : List (Word × List (RedirOp × Word))}
    (h : At s i (redirTokens rs ++ argTokens as ++ us)) (hus : Follows .exec us)
    (hlen : as.length ≤ MAXARGS - 1) (hfuel : (redirTokens rs ++ argTokens as).length < fuel) :
    ∃ j, parseexec s (fuel + 1) i =
      .ok (wrap (.exec (as.map Prod.fst)) (redirs rs ++ argRedirs as), j) ∧ At s j us := by
  rw [List.append_assoc] at h
  rw [List.length_append, length_redirTokens] at hfuel
  obtain ⟨hpeek, hat⟩ := peek_eq hs h [lparen]
  have hnext : headIn [less, greater] (argTokens as ++ us) = false := by
    cases as with
    | nil => exact hus.headIn_eq_false (by decide)
    | cons a as => rfl
  have hopen : headIn [lparen] (redirTokens rs ++ (argTokens as ++ us)) = false := by
    cases rs with
    | nil =>
      cases as with
      | nil => exact hus.headIn_eq_false (by decide)
      | cons a as => rfl
    | cons r rs =>
      obtain ⟨op, w⟩ := r
      cases op with
      | input => rfl
      | output => rfl
      | append => rfl
  obtain ⟨j, hredirs, hj⟩ := parseredirs_complete hs fuel hat hnext (by omega)
  obtain ⟨k, hloop, hk⟩ := argLoop_complete hs fuel [] (redirs rs) hj hus (by omega)
    (by rw [List.length_nil, Nat.zero_add]; exact hlen)
  refine ⟨k, ?_, hk⟩
  rw [parseexec]
  dsimp only
  rw [hpeek, hopen, if_neg Bool.false_ne_true, hredirs]
  exact hloop

/-- A derivation followed by a token that cannot continue it is what the parser returns. -/
theorem parse_complete {x : Part} {ts : List Token} {c : Cmd} (hd : Derives x ts c) :
    ∀ {fuel i us}, At s i (ts ++ us) → Follows x us → x.fuel ts.length ≤ fuel →
      ∃ j, x.parse s fuel i = .ok (c, j) ∧ At s j us := by
  induction hd with
  | @line ts c n _ ih =>
    intro fuel i us h hus hfuel
    change 4 * (ts ++ List.replicate n (Token.sym amp)).length + 4 ≤ fuel at hfuel
    rw [List.length_append, List.length_replicate] at hfuel
    rw [List.append_assoc] at h
    obtain ⟨fuel, rfl⟩ : ∃ k, fuel = k + 1 := ⟨fuel - 1, by omega⟩
    have hpipe : Follows .pipe us := hus.mono (by decide)
    obtain ⟨j, hparse, hj⟩ := ih h (hpipe.replicate n)
      (show 4 * ts.length + 3 ≤ fuel by omega)
    obtain ⟨k, hk, hline⟩ := parseline_eq hs hparse hj (hus.headIn_eq_false (by decide))
      (by omega)
    refine ⟨k, ?_, hk⟩
    change parseline s (fuel + 1) i = _
    rw [hline, hus.headIn_eq_false (by decide)]
    rfl
  | @list ts ws c d n _ _ ih₁ ih₂ =>
    intro fuel i us h hus hfuel
    change 4 * (ts ++ List.replicate n (Token.sym amp) ++ .sym semi :: ws).length + 4 ≤ fuel
      at hfuel
    rw [List.length_append, List.length_append, List.length_replicate, List.length_cons] at hfuel
    rw [List.append_assoc, List.append_assoc] at h
    obtain ⟨fuel, rfl⟩ : ∃ k, fuel = k + 1 := ⟨fuel - 1, by omega⟩
    have hpipe : Follows .pipe (.sym semi :: ws ++ us) := Or.inr rfl
    obtain ⟨j, hparse, hj⟩ := ih₁ h (hpipe.replicate n)
      (show 4 * ts.length + 3 ≤ fuel by omega)
    obtain ⟨k, hk, hline⟩ := parseline_eq hs hparse hj rfl (by omega)
    obtain ⟨-, hat, -⟩ := gettoken_cons hs hk
    obtain ⟨l, hright, hl⟩ := ih₂ hat hus (show 4 * ws.length + 4 ≤ fuel by omega)
    refine ⟨l, ?_, hl⟩
    change parseline s (fuel + 1) i = _
    change parseline s fuel (gettoken s k).2.2 = _ at hright
    rw [hline, hright]
    rfl
  | @pipe ts c _ ih =>
    intro fuel i us h hus hfuel
    change 4 * ts.length + 3 ≤ fuel at hfuel
    obtain ⟨fuel, rfl⟩ : ∃ k, fuel = k + 1 := ⟨fuel - 1, by omega⟩
    obtain ⟨j, hparse, hj⟩ := ih h (hus.mono (by decide))
      (show 4 * ts.length + 2 ≤ fuel by omega)
    obtain ⟨k, hk, hpipe⟩ := parsepipe_eq hs hparse hj
    refine ⟨k, ?_, hk⟩
    change parsepipe s (fuel + 1) i = _
    rw [hpipe, hus.headIn_eq_false (by decide)]
    rfl
  | @pipes ts ws c d _ _ ih₁ ih₂ =>
    intro fuel i us h hus hfuel
    change 4 * (ts ++ .sym bar :: ws).length + 3 ≤ fuel at hfuel
    rw [List.length_append, List.length_cons] at hfuel
    rw [List.append_assoc] at h
    obtain ⟨fuel, rfl⟩ : ∃ k, fuel = k + 1 := ⟨fuel - 1, by omega⟩
    obtain ⟨j, hparse, hj⟩ := ih₁ h (Or.inr rfl) (show 4 * ts.length + 2 ≤ fuel by omega)
    obtain ⟨k, hk, hpipe⟩ := parsepipe_eq hs hparse hj
    obtain ⟨-, hat, -⟩ := gettoken_cons hs hk
    obtain ⟨l, hright, hl⟩ := ih₂ hat hus (show 4 * ws.length + 3 ≤ fuel by omega)
    refine ⟨l, ?_, hl⟩
    change parsepipe s (fuel + 1) i = _
    change parsepipe s fuel (gettoken s k).2.2 = _ at hright
    rw [hpipe, hright]
    rfl
  | @block ts c rs _ ih =>
    intro fuel i us h hus hfuel
    change 4 * (.sym lparen :: ts ++ .sym rparen :: redirTokens rs).length + 2 ≤ fuel at hfuel
    rw [List.length_append, List.length_cons, List.length_cons, length_redirTokens] at hfuel
    obtain ⟨fuel, rfl⟩ : ∃ k, fuel = k + 2 := ⟨fuel - 2, by omega⟩
    obtain ⟨hpeek, hat⟩ := peek_eq hs h [lparen]
    obtain ⟨j, hblock, hj⟩ := parseblock_complete hs
      (fun hat' hvs => ih hat' hvs (show 4 * ts.length + 4 ≤ fuel by omega)) hat
      (hus.headIn_eq_false (by decide)) (by omega)
    refine ⟨j, ?_, hj⟩
    change parseexec s (fuel + 1 + 1) i = _
    rw [parseexec]
    dsimp only
    rw [hpeek]
    exact hblock
  | simple rs as hlen =>
    intro fuel i us h hus hfuel
    change 4 * (redirTokens rs ++ argTokens as).length + 2 ≤ fuel at hfuel
    obtain ⟨fuel, rfl⟩ : ∃ k, fuel = k + 1 := ⟨fuel - 1, by omega⟩
    exact parseexec_complete hs h hus hlen (by omega)

end Complete

end Xv6.Shell
