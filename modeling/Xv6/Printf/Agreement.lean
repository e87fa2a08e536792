import Xv6.Printf.Numbers

/-!
# The two `printf`

A format is a list of `pieces`: characters that are copied, and conversions.  Both functions print piece by piece,
and they find the same pieces: the look-ahead of the one and the state of the other come to the same.  So they
differ in their conversions only.
-/

namespace Xv6.Printf

variable {fmt : List (BitVec 8)} {ap : List Arg} {fuel : ℕ}

/-! ## Pieces of a format -/

inductive Piece
  | lit (c : BitVec 8)
  | conv (k : Conv)
  deriving DecidableEq

/-- The pieces from a position of the format on. -/
def piecesFrom : ℕ → List (BitVec 8) → List Piece
  | 0, _ => []
  | fuel + 1, fmt =>
    let c := fmt.getD 0 0
    if c = 0 then []
    else if c ≠ ch '%' then .lit c :: piecesFrom fuel (fmt.drop 1)
    else
      let fmt := fmt.drop 1
      let c := fmt.getD 0 0
      match directive c (lookahead fmt).1 (lookahead fmt).2 with
      | .conv k skip => .conv k :: piecesFrom fuel (fmt.drop (skip + 1))
      | .percent => .lit (ch '%') :: piecesFrom fuel (fmt.drop 1)
      -- A `%` at the end is not printed.
      | .unknown => if c = 0 then [] else .lit (ch '%') :: .lit c :: piecesFrom fuel (fmt.drop 1)

def pieces (fmt : List (BitVec 8)) : List Piece := piecesFrom (fmt.length + 1) fmt

/-- The conversions among pieces. -/
def convsOf (ps : List Piece) : List Conv := ps.filterMap fun
  | .lit _ => none
  | .conv k => some k

/-- The conversions of a format. -/
def convs (fmt : List (BitVec 8)) : List Conv := convsOf (pieces fmt)

/-- The text of the pieces, where `print` prints the conversions. -/
def render (print : Conv → Arg → Option (List (BitVec 8))) : List Piece → List Arg → Option (List (BitVec 8))
  | [], _ => some []
  | .lit c :: ps, ap => (c :: ·) <$> render print ps ap
  | .conv _ :: _, [] => none
  | .conv k :: ps, a :: ap => do
    let out ← print k a
    (out ++ ·) <$> render print ps ap

/-! ## Scanners -/

theorem ne_nil_of_getD (h : fmt.getD 0 0 ≠ 0) : 0 < fmt.length := by
  cases fmt with
  | nil => exact absurd rfl h
  | cons _ _ => exact Nat.succ_pos _

theorem length_drop_lt {k n : ℕ} (hk : 0 < k) (h : fmt.getD 0 0 ≠ 0) (hn : fmt.length < n + 1) : (fmt.drop k).length < n := by
  have := ne_nil_of_getD h
  rw [List.length_drop]
  omega

theorem printfLoop_eq_render : ∀ (fuel : ℕ) (fmt : List (BitVec 8)) (ap : List Arg), fmt.length < fuel →
    printfLoop fuel fmt ap = render kernelConv (piecesFrom fuel fmt) ap
  | 0, _, _, h => absurd h (Nat.not_lt_zero _)
  | fuel + 1, fmt, ap, h => by
    rw [printfLoop, piecesFrom]
    dsimp only
    by_cases hnil : fmt.getD 0 0 = 0
    · rw [if_pos hnil, if_pos hnil]
      rfl
    have hdrop (k : ℕ) (ap : List Arg) :
        printfLoop fuel ((fmt.drop 1).drop k) ap = render kernelConv (piecesFrom fuel ((fmt.drop 1).drop k)) ap := by
      rw [List.drop_drop]
      exact printfLoop_eq_render fuel _ ap (length_drop_lt (by omega) hnil h)
    rw [if_neg hnil, if_neg hnil]
    by_cases hlit : fmt.getD 0 0 = ch '%'
    · rw [if_neg (not_not_intro hlit), if_neg (not_not_intro hlit)]
      cases directive ((fmt.drop 1).getD 0 0) (lookahead (fmt.drop 1)).1 (lookahead (fmt.drop 1)).2 with
      | conv k skip =>
        cases ap with
        | nil => rfl
        | cons a ap =>
          dsimp only
          rw [render, hdrop]
      | percent =>
        dsimp only
        rw [render, hdrop]
      | unknown =>
        dsimp only
        split_ifs
        · rfl
        · rw [render, render, hdrop, Functor.map_map]
    · rw [if_pos hlit, if_pos hlit, render, ← List.drop_zero (l := fmt.drop 1), hdrop]

theorem vprintfLoop_eq_render : ∀ (n : ℕ) (fmt : List (BitVec 8)) (ap : List Arg) (fuel fuel' : ℕ), fmt.length ≤ n →
    fmt.length < fuel → fmt.length < fuel' →
    vprintfLoop fuel false fmt ap = render userConv (piecesFrom fuel' fmt) ap
  | _, _, _, 0, _, _, h, _ => absurd h (Nat.not_lt_zero _)
  | _, _, _, _, 0, _, _, h => absurd h (Nat.not_lt_zero _)
  | 0, fmt, ap, fuel + 1, fuel' + 1, hn, h, h' => by
    have hnil : fmt.getD 0 0 = 0 := by
      by_contra hne
      have := ne_nil_of_getD hne
      omega
    unfold vprintfLoop piecesFrom
    dsimp only
    rw [if_pos hnil, if_pos hnil]
    rfl
  | n + 1, fmt, ap, fuel + 1, fuel' + 1, hn, h, h' => by
    unfold vprintfLoop piecesFrom
    dsimp only
    by_cases hnil : fmt.getD 0 0 = 0
    · rw [if_pos hnil, if_pos hnil]
      rfl
    have hdrop (k fuel : ℕ) (ap : List Arg) (hfuel : ((fmt.drop 1).drop k).length < fuel) :
        vprintfLoop fuel false ((fmt.drop 1).drop k) ap = render userConv (piecesFrom fuel' ((fmt.drop 1).drop k)) ap := by
      rw [List.drop_drop] at hfuel ⊢
      have hle : (fmt.drop (1 + k)).length ≤ n := by
        rw [List.length_drop]
        omega
      exact vprintfLoop_eq_render n _ ap fuel fuel' hle hfuel (length_drop_lt (by omega) hnil h')
    have hdrop₁ (ap : List Arg) : vprintfLoop fuel false (fmt.drop 1) ap = render userConv (piecesFrom fuel' (fmt.drop 1)) ap :=
      hdrop 0 fuel ap (by rw [List.drop_zero]; exact length_drop_lt (by decide) hnil h)
    rw [if_neg hnil, if_neg hnil]
    by_cases hlit : fmt.getD 0 0 = ch '%'
    · rw [if_pos (by rfl), if_pos hlit, if_neg (not_not_intro hlit)]
      -- The next round is the one in state '%'.
      have hlen := length_drop_lt (k := 1) (by decide) hnil h
      obtain ⟨fuel, rfl⟩ : ∃ f, fuel = f + 1 := ⟨fuel - 1, by omega⟩
      unfold vprintfLoop
      dsimp only
      by_cases hend : (fmt.drop 1).getD 0 0 = 0
      · rw [if_pos hend, hend]
        rfl
      · rw [if_neg hend, if_neg (by decide)]
        have hnext (k : ℕ) (ap : List Arg) := hdrop (k + 1) fuel ap (length_drop_lt (by omega) hend hlen)
        cases directive ((fmt.drop 1).getD 0 0) (lookahead (fmt.drop 1)).1 (lookahead (fmt.drop 1)).2 with
        | conv k skip =>
          cases ap with
          | nil => rfl
          | cons a ap =>
            dsimp only
            rw [render, hnext]
        | percent =>
          dsimp only
          rw [render, hnext 0]
        | unknown =>
          dsimp only
          rw [if_neg hend, render, render, hnext 0, Functor.map_map]
    · rw [if_pos (by rfl), if_neg hlit, if_pos hlit, render, hdrop₁]

theorem printf_eq_render (fmt : List (BitVec 8)) (ap : List Arg) : printf fmt ap = render kernelConv (pieces fmt) ap :=
  printfLoop_eq_render _ fmt ap (Nat.lt_succ_self _)

theorem vprintf_eq_render (fmt : List (BitVec 8)) (ap : List Arg) : vprintf fmt ap = render userConv (pieces fmt) ap :=
  vprintfLoop_eq_render _ fmt ap _ _ le_rfl (Nat.lt_succ_self _) (Nat.lt_succ_self _)

/-! ## Conversions -/

/-- The argument has the type that the conversion names. -/
def HasType : Conv → Arg → Prop
  | .num _ 0, .int _ => True
  | .num _ 1, .long _ => True
  | .num _ 2, .long _ => True
  | .ptr, .ptr _ => True
  | .str, .str _ => True
  | _, _ => False

/-- The number that an argument stands for. -/
def Arg.number (f : NumFormat) : Arg → ℤ
  | .int v => value v f.sign
  | .long v => value v f.sign
  | .ptr _ => 0
  | .str _ => 0

/-- A number is printed as it is by both. -/
def PrintsValue : Conv → Arg → Prop
  | .num f ls, a => kernelConv (.num f ls) a = some (numeral lower f.base (a.number f)) ∧
      userConv (.num f ls) a = some (numeral upper f.base (a.number f))
  | .ptr, _ => True
  | .str, _ => True

/-- The numbers that both print: with `%u` and `%x` the kernel extends the sign of an `int`, and with an `l` the user
library cuts the number to an `int`. -/
def InRange : Conv → Arg → Prop
  | .num .d ls, a => ls.val = 0 ∨ -2 ^ 31 ≤ a.number .d ∧ a.number .d < 2 ^ 31
  | .num f ls, a => a.number f < if ls.val = 0 then 2 ^ 31 else 2 ^ 32
  | .ptr, _ => True
  | .str, _ => True

theorem NumFormat.base_range (f : NumFormat) : 1 < f.base ∧ f.base ≤ 16 := by
  cases f <;> decide

/-- A conversion is right iff neither the extension of an `int` nor the cut of a `long` changes the number. -/
theorem printsValue_int_iff (f : NumFormat) (v : BitVec 32) :
    PrintsValue (.num f 0) (.int v) ↔ value (v.signExtend 64) f.sign = value v f.sign := by
  obtain ⟨hbase, hle⟩ := f.base_range
  change printint lower _ _ _ = _ ∧ printint upper _ _ _ = _ ↔ _
  rw [printint_eq_some_iff lower_table hbase hle, printint_eq_some_iff upper_table hbase hle]
  have hfits : Fits f.base (value v f.sign) := by
    have h₁ := v.isLt
    have h₂ := v.toInt_lt
    have h₃ := v.le_toInt
    cases f <;> simp only [Fits, value, NumFormat.base, NumFormat.sign, if_true, Bool.false_eq_true, if_false] <;> omega
  exact ⟨fun h => h.1.1, fun h => ⟨⟨h, hfits⟩, rfl, hfits⟩⟩

theorem printsValue_long_iff (f : NumFormat) {ls : Fin 3} (hls : ls ≠ 0) (v : BitVec 64) :
    PrintsValue (.num f ls) (.long v) ↔ value (v.setWidth 32) f.sign = value v f.sign := by
  obtain ⟨hbase, hle⟩ := f.base_range
  have hconv : PrintsValue (.num f ls) (.long v) ↔
      printint lower v f.base f.sign = some (numeral lower f.base (value v f.sign)) ∧
      printint upper (v.setWidth 32) f.base f.sign = some (numeral upper f.base (value v f.sign)) := by
    obtain rfl | rfl | rfl : ls = 0 ∨ ls = 1 ∨ ls = 2 := by omega
    · exact absurd rfl hls
    · exact Iff.rfl
    · exact Iff.rfl
  rw [hconv, printint_eq_some_iff lower_table hbase hle, printint_eq_some_iff upper_table hbase hle]
  refine ⟨fun h => h.2.1, fun h => ?_⟩
  -- A number of 32 bits has room in the buffer.
  have hfits : Fits f.base (value (v.setWidth 32) f.sign) := by
    have h₁ := (v.setWidth 32).isLt
    have h₂ := (v.setWidth 32).toInt_lt
    have h₃ := (v.setWidth 32).le_toInt
    cases f <;> simp only [Fits, value, NumFormat.base, NumFormat.sign, if_true, Bool.false_eq_true, if_false] <;> omega
  rw [h] at hfits
  exact ⟨⟨rfl, hfits⟩, h, hfits⟩

theorem value_signExtend_iff (f : NumFormat) (v : BitVec 32) :
    value (v.signExtend 64) f.sign = value v f.sign ↔ InRange (.num f 0) (.int v) := by
  have hunsigned : ((v.signExtend 64).toNat : ℤ) = v.toNat ↔ (v.toNat : ℤ) < 2 ^ 31 := by
    have hlt := v.isLt
    rw [BitVec.toNat_signExtend, BitVec.msb_eq_decide, BitVec.toNat_setWidth]
    split_ifs with h
    · simp only [decide_eq_true_eq] at h
      omega
    · simp only [decide_eq_true_eq] at h
      omega
  cases f with
  | d => exact iff_of_true (BitVec.toInt_signExtend_of_le (by decide)) (.inl rfl)
  | u => exact hunsigned
  | x => exact hunsigned

theorem value_setWidth_iff (f : NumFormat) {ls : Fin 3} (hls : ls ≠ 0) (v : BitVec 64) :
    value (v.setWidth 32) f.sign = value v f.sign ↔ InRange (.num f ls) (.long v) := by
  have hval : ls.val ≠ 0 := fun h => hls (Fin.ext h)
  have hunsigned : ((v.setWidth 32).toNat : ℤ) = v.toNat ↔ (v.toNat : ℤ) < if ls.val = 0 then 2 ^ 31 else 2 ^ 32 := by
    rw [if_neg hval, BitVec.toNat_setWidth]
    omega
  cases f with
  | d =>
    change (v.setWidth 32).toInt = v.toInt ↔ ls.val = 0 ∨ -2 ^ 31 ≤ v.toInt ∧ v.toInt < 2 ^ 31
    have hlt := v.isLt
    rw [or_iff_right hval, BitVec.toInt_setWidth, BitVec.toInt_eq_toNat_cond, Int.bmod_def]
    split_ifs <;> omega
  | u => exact hunsigned
  | x => exact hunsigned

/-- The characters are the same but for the case of a hexadecimal letter. -/
def SameLetter (a b : BitVec 8) : Prop := a = b ∨ ∃ i, 10 ≤ i ∧ i < 16 ∧ a = lower.getD i 0 ∧ b = upper.getD i 0

theorem sameLetter_digit (i : ℕ) : SameLetter (lower.getD i 0) (upper.getD i 0) := by
  have hdecimal : ∀ i < 10, lower.getD i 0 = upper.getD i 0 := by decide
  have hlower : lower.length = 16 := by decide
  have hupper : upper.length = 16 := by decide
  by_cases h : 10 ≤ i ∧ i < 16
  · exact .inr ⟨i, h.1, h.2, rfl, rfl⟩
  · refine .inl ?_
    by_cases hi : i < 10
    · exact hdecimal i hi
    · rw [List.getD_eq_default _ _ (by omega), List.getD_eq_default _ _ (by omega)]

theorem forall₂_sameLetter_refl (l : List (BitVec 8)) : List.Forall₂ SameLetter l l :=
  List.forall₂_same.2 fun _ _ => .inl rfl

theorem forall₂_numeral (base : ℕ) (z : ℤ) : List.Forall₂ SameLetter (numeral lower base z) (numeral upper base z) := by
  unfold numeral
  refine List.rel_append (forall₂_sameLetter_refl _) (List.rel_reverse ?_)
  rw [List.forall₂_map_left_iff, List.forall₂_map_right_iff]
  exact List.forall₂_same.2 fun d _ => sameLetter_digit d

theorem forall₂_ptrLoop (n : ℕ) (x : BitVec 64) : List.Forall₂ SameLetter (ptrLoop lower n x) (ptrLoop upper n x) := by
  induction n generalizing x with
  | zero => exact .nil
  | succ n ih => exact .cons (sameLetter_digit _) (ih _)

/-- A conversion that prints the value prints the same in both. -/
theorem convs_agree {k : Conv} {a : Arg} (ht : HasType k a) (hv : PrintsValue k a) :
    ∃ x y, kernelConv k a = some x ∧ userConv k a = some y ∧ List.Forall₂ SameLetter x y := by
  cases k with
  | num f ls => exact ⟨_, _, hv.1, hv.2, forall₂_numeral _ _⟩
  | ptr =>
    cases a with
    | ptr v => exact ⟨_, _, rfl, rfl, .cons (.inl rfl) (.cons (.inl rfl) (forall₂_ptrLoop 16 v))⟩
    | int _ => exact ht.elim
    | long _ => exact ht.elim
    | str _ => exact ht.elim
  | str =>
    cases a with
    | str s => exact ⟨_, _, rfl, rfl, forall₂_sameLetter_refl _⟩
    | int _ => exact ht.elim
    | long _ => exact ht.elim
    | ptr _ => exact ht.elim

theorem printsValue_iff {k : Conv} {a : Arg} (ht : HasType k a) : PrintsValue k a ↔ InRange k a := by
  cases k with
  | num f ls =>
    obtain rfl | rfl | rfl : ls = 0 ∨ ls = 1 ∨ ls = 2 := by omega
    · cases a with
      | int v => exact (printsValue_int_iff f v).trans (value_signExtend_iff f v)
      | long _ => exact ht.elim
      | ptr _ => exact ht.elim
      | str _ => exact ht.elim
    all_goals
      cases a with
      | long v => exact (printsValue_long_iff f (by decide) v).trans (value_setWidth_iff f (by decide) v)
      | int _ => exact ht.elim
      | ptr _ => exact ht.elim
      | str _ => exact ht.elim
  | ptr => exact Iff.rfl
  | str => exact Iff.rfl

/-! ## Agreement -/

theorem renders_agree : ∀ (ps : List Piece) (ap : List Arg),
    List.Forall₂ (fun k a => HasType k a ∧ PrintsValue k a) (convsOf ps) ap →
    ∃ x y, render kernelConv ps ap = some x ∧ render userConv ps ap = some y ∧ List.Forall₂ SameLetter x y
  | [], _, _ => ⟨[], [], rfl, rfl, .nil⟩
  | .lit c :: ps, ap, h => by
    obtain ⟨x, y, hx, hy, hxy⟩ := renders_agree ps ap h
    exact ⟨c :: x, c :: y, by rw [render, hx]; rfl, by rw [render, hy]; rfl, .cons (.inl rfl) hxy⟩
  | .conv k :: ps, ap, h => by
    change List.Forall₂ _ (k :: convsOf ps) ap at h
    cases h with
    | cons hka hrest =>
      rename_i a ap
      obtain ⟨x, y, hx, hy, hxy⟩ := renders_agree ps ap hrest
      obtain ⟨x', y', hx', hy', hxy'⟩ := convs_agree hka.1 hka.2
      refine ⟨x' ++ x, y' ++ y, ?_, ?_, List.rel_append hxy' hxy⟩
      · rw [render, hx', hx]
        rfl
      · rw [render, hy', hy]
        rfl

end Xv6.Printf
