import Xv6.Printf.Code

/-!
# Printed numbers

`numeral digits base z` is the number `z` in the given base, without leading zeros.  `printint` prints it if it has
room in `buf`, and otherwise stores outside `buf`.
-/

namespace Xv6.Printf

variable {digits : List (BitVec 8)} {base fuel x k w : ℕ} {buf : List (BitVec 8)} {z : ℤ}

/-- The digits of a number, the last one first. -/
def digitsOf (base x : ℕ) : List ℕ := if x = 0 then [0] else Nat.digits base x

/-- A number, with a minus sign if it is negative. -/
def numeral (digits : List (BitVec 8)) (base : ℕ) (z : ℤ) : List (BitVec 8) :=
  (if z < 0 then [ch '-'] else []) ++ ((digitsOf base z.natAbs).map fun d => digits.getD d 0).reverse

theorem digitsOf_eq (hbase : 1 < base) (x : ℕ) :
    digitsOf base x = x % base :: if x / base ≠ 0 then digitsOf base (x / base) else [] := by
  unfold digitsOf
  by_cases hx : x = 0
  · simp [hx]
  · rw [if_neg hx, Nat.digits_def' hbase (Nat.pos_of_ne_zero hx)]
    split_ifs with h
    · rfl
    · rw [not_not.1 h, Nat.digits_zero]

theorem length_digitsOf_pos (hbase : 1 < base) (x : ℕ) : 0 < (digitsOf base x).length := by
  rw [digitsOf_eq hbase]
  exact Nat.succ_pos _

theorem length_digitsOf_le_iff (hbase : 1 < base) (hk : 0 < k) : (digitsOf base x).length ≤ k ↔ x < base ^ k := by
  unfold digitsOf
  split_ifs with hx
  · rw [hx]
    exact iff_of_true hk (Nat.pow_pos (by omega))
  · exact Nat.digits_length_le_iff hbase x

theorem digitLoop_eq (hbase : 1 < base) (digits : List (BitVec 8)) :
    ∀ (fuel x : ℕ) (buf : List (BitVec 8)), buf.length ≤ BUFSIZE → BUFSIZE < fuel + buf.length →
      digitLoop digits base fuel x buf = if buf.length + (digitsOf base x).length ≤ BUFSIZE
        then some (buf ++ (digitsOf base x).map fun d => digits.getD d 0) else none
  | 0, x, buf, hle, hfuel => by omega
  | fuel + 1, x, buf, hle, hfuel => by
    rw [digitLoop, put]
    have hpos := length_digitsOf_pos hbase x
    by_cases hroom : buf.length < BUFSIZE
    · rw [if_pos hroom, Option.bind_eq_bind, Option.bind_some, digitsOf_eq hbase x]
      split_ifs with hx hlen hlen
      · rw [digitLoop_eq hbase digits fuel (x / base) _ (by simpa using hroom) (by simp; omega), if_pos]
        · simp
        · simp only [List.length_append, List.length_cons, List.length_nil] at hlen ⊢
          omega
      · rw [digitLoop_eq hbase digits fuel (x / base) _ (by simpa using hroom) (by simp; omega), if_neg]
        simp only [List.length_append, List.length_cons, List.length_nil] at hlen ⊢
        omega
      · rfl
      · exact absurd hroom (by simpa using hlen)
    · rw [if_neg hroom, if_neg (by omega)]
      rfl

theorem length_numeral (digits : List (BitVec 8)) (base : ℕ) (z : ℤ) :
    (numeral digits base z).length = (if z < 0 then 1 else 0) + (digitsOf base z.natAbs).length := by
  unfold numeral
  rw [List.length_append, List.length_reverse, List.length_map]
  split_ifs <;> rfl

/-- The number that `printint` is to print. -/
def value (xx : BitVec w) (sign : Bool) : ℤ := if sign then xx.toInt else xx.toNat

theorem toNat_neg_of_toInt_neg {xx : BitVec w} (h : xx.toInt < 0) : (-xx).toNat = xx.toInt.natAbs := by
  rw [BitVec.toInt_eq_toNat_cond] at h ⊢
  rw [BitVec.toNat_neg]
  have hlt := xx.isLt
  split_ifs at h ⊢ with hx
  · omega
  · rw [Nat.mod_eq_of_lt (by omega)]
    omega

theorem printint_eq (hbase : 1 < base) (digits : List (BitVec 8)) (xx : BitVec w) (sign : Bool) :
    printint digits xx base sign = if (numeral digits base (value xx sign)).length ≤ BUFSIZE
      then some (numeral digits base (value xx sign)) else none := by
  have hloop (x : ℕ) := digitLoop_eq hbase digits (BUFSIZE + 1) x [] (Nat.zero_le _) (by simp)
  simp only [List.length_nil, Nat.zero_add, List.nil_append] at hloop
  unfold printint
  by_cases hneg : sign = true ∧ xx.toInt < 0
  · obtain ⟨rfl, hxx⟩ := hneg
    have hvalue : value xx true = xx.toInt := rfl
    simp only [hxx, decide_true, Bool.and_self, if_true, hloop, toNat_neg_of_toInt_neg hxx, hvalue, length_numeral]
    by_cases hlen : (digitsOf base xx.toInt.natAbs).length ≤ BUFSIZE
    · rw [if_pos hlen, Option.bind_eq_bind, Option.bind_some, put, List.length_map]
      by_cases hroom : (digitsOf base xx.toInt.natAbs).length < BUFSIZE
      · rw [if_pos hroom, if_pos (by omega), numeral, if_pos hxx]
        simp
      · rw [if_neg hroom, if_neg (by omega)]
        rfl
    · rw [if_neg hlen, if_neg (by omega)]
      rfl
  · have hflag : (sign && decide (xx.toInt < 0)) = false := by
      cases sign
      · rfl
      · simpa using hneg
    have hvalue : value xx sign = xx.toNat := by
      unfold value
      split_ifs with hs
      · have hnn : 0 ≤ xx.toInt := by
          by_contra hlt
          exact hneg ⟨hs, by omega⟩
        rw [BitVec.toInt_eq_toNat_cond] at hnn ⊢
        have hlt := xx.isLt
        split_ifs at hnn ⊢
        · rfl
        · omega
      · rfl
    have hnn : ¬ (xx.toNat : ℤ) < 0 := by omega
    simp only [hflag, Bool.false_eq_true, if_false, hloop, hvalue, length_numeral, Int.natAbs_natCast, hnn, Nat.zero_add]
    split_ifs
    · rw [numeral, if_neg hnn]
      simp
    · rfl

/-- The value has a numeral of at most 16 characters. -/
def Fits (base : ℕ) (z : ℤ) : Prop := -(base : ℤ) ^ 15 < z ∧ z < (base : ℤ) ^ 16

instance : Decidable (Fits base z) := inferInstanceAs (Decidable (_ ∧ _))

theorem length_numeral_le_iff (hbase : 1 < base) : (numeral digits base z).length ≤ BUFSIZE ↔ Fits base z := by
  rw [length_numeral]
  change _ ≤ 16 ↔ _
  have hpos : (0 : ℤ) < (base : ℤ) ^ 15 := by positivity
  have hpos' : (0 : ℤ) < (base : ℤ) ^ 16 := by positivity
  split_ifs with hz
  · rw [show 1 + (digitsOf base z.natAbs).length ≤ 16 ↔ (digitsOf base z.natAbs).length ≤ 15 by omega,
      length_digitsOf_le_iff hbase (by decide), ← Int.ofNat_lt, Nat.cast_pow, Int.natCast_natAbs, abs_of_neg hz]
    unfold Fits
    constructor
    · intro h
      exact ⟨by omega, by omega⟩
    · rintro ⟨h, -⟩
      omega
  · rw [Nat.zero_add, length_digitsOf_le_iff hbase (by decide), ← Int.ofNat_lt, Nat.cast_pow, Int.natCast_natAbs,
      abs_of_nonneg (by omega)]
    unfold Fits
    constructor
    · intro h
      exact ⟨by omega, h⟩
    · exact And.right

/-! ## Reading a numeral -/

/-- The digits are different characters, and none is a minus sign. -/
structure Table (digits : List (BitVec 8)) : Prop where
  idxOf : ∀ d < 16, digits.idxOf (digits.getD d 0) = d
  minus : ∀ d < 16, digits.getD d 0 ≠ ch '-'

theorem lower_table : Table lower := ⟨by decide, by decide⟩

theorem upper_table : Table upper := ⟨by decide, by decide⟩

def readNumeral (digits : List (BitVec 8)) (base : ℕ) (l : List (BitVec 8)) : ℤ :=
  if l.head? = some (ch '-') then -(Nat.ofDigits base (l.tail.map digits.idxOf).reverse : ℕ)
  else (Nat.ofDigits base (l.map digits.idxOf).reverse : ℕ)

theorem ofDigits_digitsOf (base x : ℕ) : Nat.ofDigits base (digitsOf base x) = x := by
  unfold digitsOf
  split_ifs with hx
  · rw [hx]
    rfl
  · exact Nat.ofDigits_digits base x

theorem digitsOf_lt (hbase : 1 < base) (hle : base ≤ 16) {d : ℕ} (hd : d ∈ digitsOf base x) : d < 16 := by
  unfold digitsOf at hd
  split_ifs at hd with hx
  · rw [List.mem_singleton.1 hd]
    decide
  · exact (Nat.digits_lt_base hbase hd).trans_le hle

theorem readNumeral_numeral (ht : Table digits) (hbase : 1 < base) (hle : base ≤ 16) (z : ℤ) :
    readNumeral digits base (numeral digits base z) = z := by
  obtain ⟨l, hl⟩ : ∃ l, (digitsOf base z.natAbs).map (fun d => digits.getD d 0) = l := ⟨_, rfl⟩
  have hread : Nat.ofDigits base (l.map digits.idxOf) = z.natAbs := by
    rw [← hl, List.map_map, List.map_congr_left (g := id), List.map_id, ofDigits_digitsOf]
    exact fun d hd => ht.idxOf d (digitsOf_lt hbase hle hd)
  unfold readNumeral numeral
  rw [hl]
  by_cases hz : z < 0
  · rw [if_pos hz, List.singleton_append, List.head?_cons, if_pos rfl, List.tail_cons, List.map_reverse, List.reverse_reverse,
      hread]
    omega
  · have hhead : l.reverse.head? ≠ some (ch '-') := by
      intro hhead
      have hmem : ch '-' ∈ l := List.mem_reverse.1 (List.mem_of_mem_head? hhead)
      rw [← hl] at hmem
      obtain ⟨d, hd, heq⟩ := List.mem_map.1 hmem
      exact ht.minus d (digitsOf_lt hbase hle hd) heq
    rw [if_neg hz, List.nil_append, if_neg hhead, List.map_reverse, List.reverse_reverse, hread]
    omega

theorem numeral_inj (ht : Table digits) (hbase : 1 < base) (hle : base ≤ 16) {z z' : ℤ} :
    numeral digits base z = numeral digits base z' ↔ z = z' := by
  refine ⟨fun h => ?_, fun h => by rw [h]⟩
  rw [← readNumeral_numeral ht hbase hle z, h, readNumeral_numeral ht hbase hle]

theorem printint_eq_some_iff (ht : Table digits) (hbase : 1 < base) (hle : base ≤ 16) (xx : BitVec w) (sign : Bool) :
    printint digits xx base sign = some (numeral digits base z) ↔ value xx sign = z ∧ Fits base z := by
  rw [printint_eq hbase, ← numeral_inj ht hbase hle]
  have hfits : ∀ z, (numeral digits base z).length ≤ BUFSIZE ↔ Fits base z := fun _ => length_numeral_le_iff hbase
  split_ifs with h
  · rw [Option.some_inj]
    exact ⟨fun heq => ⟨heq, (hfits z).1 (heq ▸ h)⟩, And.left⟩
  · refine iff_of_false (by simp) ?_
    rintro ⟨heq, hz⟩
    exact h (heq ▸ (hfits z).2 hz)

/-! ## The buffer -/

/-- In base 10 or 16, as the conversions use it, `printint` of the kernel stays in its buffer and prints the value iff
the value has at most 16 characters; otherwise it stores outside the buffer. -/
theorem printint_exact_iff (xx : BitVec 64) (hbase : base = 10 ∨ base = 16) (sign : Bool) :
    (printint lower xx base sign = some (numeral lower base (value xx sign)) ↔ Fits base (value xx sign)) ∧
    (printint lower xx base sign = none ↔ ¬ Fits base (value xx sign)) := by
  have hone : 1 < base := by
    obtain rfl | rfl := hbase <;> decide
  have hfits : (numeral lower base (value xx sign)).length ≤ BUFSIZE ↔ Fits base (value xx sign) :=
    length_numeral_le_iff hone
  rw [printint_eq hone, ← hfits]
  split_ifs with h <;> simp [h]

/-- The smallest number that can be printed with a sign. -/
theorem printint_exact_iff_small : printint lower (-999999999999999 : BitVec 64) 10 true =
    some (numeral lower 10 (value (-999999999999999 : BitVec 64) true)) :=
  (printint_exact_iff (-999999999999999) (.inl rfl) true).1.2 (by decide)

/-- `printf("%lu", 10000000000000000)` stores outside the buffer. -/
theorem printint_overflows : printint lower (10000000000000000 : BitVec 64) 10 false = none ∧
    printf ("%lu".toList.map ch) [.long 10000000000000000] = none := by
  decide

end Xv6.Printf
