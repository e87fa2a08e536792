import Mathlib.Computability.Language

/-!
# The pattern matcher of `grep`

`match`, `matchhere` and `matchstar` of `user/grep.c`.  A string is the list of its characters before the null.

A pattern stands for a sequence of items, each a character or a dot, with a star or not, and possibly an anchor at either
end.  The language of the items is the product of the languages of each, and the matcher finds a part of the
text that is in it.
-/

namespace Xv6.Grep

abbrev Str := List (BitVec 8)

/-- `'*'` -/
def star : BitVec 8 := 0x2a

/-- `'$'` -/
def dollar : BitVec 8 := 0x24

/-- `'.'` -/
def dot : BitVec 8 := 0x2e

/-- `'^'` -/
def caret : BitVec 8 := 0x5e

/-! ## Code -/

/-- The loop of `matchstar`; `matchrest` is `matchhere` for what is behind the star. -/
def matchstar (c : BitVec 8) (matchrest : Str → Bool) : Str → Bool
  | [] => matchrest []
  | a :: text =>
    if matchrest (a :: text) then true
    else if a = c ∨ c = dot then matchstar c matchrest text
    else false

/-- The last test of `matchhere`, for a character without a star. -/
def matchchar (c : BitVec 8) (matchrest : Str → Bool) : Str → Bool
  | [] => false
  | a :: text => if c = dot ∨ c = a then matchrest text else false

/-- Search for `re` at the beginning of `text`. -/
def matchhere : Str → Str → Bool
  | [], _ => true
  | [c], text => if c = dollar then text.isEmpty else matchchar c (matchhere []) text
  | c :: d :: re, text => if d = star then matchstar c (matchhere re) text else matchchar c (matchhere (d :: re)) text

/-- The loop of `match`, which also looks at the empty string. -/
def matchLoop (re : Str) : Str → Bool
  | [] => matchhere re []
  | a :: text => if matchhere re (a :: text) then true else matchLoop re text

/-- `match` -/
def grepMatch : Str → Str → Bool
  | [], text => matchLoop [] text
  | c :: re, text => if c = caret then matchhere re text else matchLoop (c :: re) text

/-! ## Meaning of a pattern -/

inductive Item
  | one (c : BitVec 8)
  | many (c : BitVec 8)

/-- The characters that a pattern character stands for. -/
def Accepts (c a : BitVec 8) : Prop := c = dot ∨ c = a

/-- The words of one character that the pattern character stands for. -/
def charLang (c : BitVec 8) : Language (BitVec 8) := {w | ∃ a, Accepts c a ∧ w = [a]}

def Item.lang : Item → Language (BitVec 8)
  | .one c => charLang c
  | .many c => KStar.kstar (charLang c)

/-- The items of a pattern behind the `^`, and whether it ends in an unstarred `$`. -/
def items : Str → List Item × Bool
  | [] => ([], false)
  | [c] => if c = dollar then ([], true) else ([.one c], false)
  | c :: d :: re =>
    if d = star then (.many c :: (items re).1, (items re).2)
    else (.one c :: (items (d :: re)).1, (items (d :: re)).2)

def lang (is : List Item) : Language (BitVec 8) := (is.map Item.lang).prod

/-- A part of the text is in the language of the items: one at the beginning if the pattern is anchored there, and one at the
end if it ends in `$`. -/
def Matches (re text : Str) : Prop :=
  let anchored := re.head? = some caret
  let (is, atEnd) := items (if anchored then re.tail else re)
  ∃ pre mid post, text = pre ++ mid ++ post ∧ mid ∈ lang is ∧ (anchored → pre = []) ∧ (atEnd → post = [])

/-! ## Correctness -/

variable {c : BitVec 8} {re text w : Str} {f : Str → Bool}

theorem mem_kstar_charLang : w ∈ KStar.kstar (charLang c) ↔ ∀ a ∈ w, Accepts c a := by
  constructor
  · rintro ⟨l, rfl, hl⟩ a ha
    obtain ⟨u, hu, ha⟩ := List.mem_flatten.1 ha
    obtain ⟨b, hb, rfl⟩ := hl u hu
    rwa [List.mem_singleton.1 ha]
  · intro h
    refine ⟨w.map fun a => [a], ?_, fun u hu => ?_⟩
    · induction w with
      | nil => rfl
      | cons a w ih => rw [List.map_cons, List.flatten_cons, ← ih fun b hb => h b (List.mem_cons_of_mem a hb)]; rfl
    · obtain ⟨a, ha, rfl⟩ := List.mem_map.1 hu
      exact ⟨a, h a ha, rfl⟩

theorem matchstar_iff : matchstar c f text = true ↔ ∃ u v, text = u ++ v ∧ (∀ a ∈ u, Accepts c a) ∧ f v = true := by
  induction text with
  | nil =>
    rw [matchstar]
    constructor
    · exact fun h => ⟨[], [], rfl, by simp, h⟩
    · rintro ⟨u, v, huv, -, hv⟩
      obtain ⟨rfl, rfl⟩ := List.append_eq_nil_iff.1 huv.symm
      exact hv
  | cons a text ih =>
    rw [matchstar]
    split_ifs with hhere hnext
    · exact iff_of_true rfl ⟨[], a :: text, rfl, by simp, hhere⟩
    · rw [ih]
      constructor
      · rintro ⟨u, v, rfl, hu, hv⟩
        refine ⟨a :: u, v, rfl, fun b hb => ?_, hv⟩
        obtain rfl | hb := List.mem_cons.1 hb
        · exact hnext.symm.imp id Eq.symm
        · exact hu b hb
      · rintro ⟨u, v, huv, hu, hv⟩
        cases u with
        | nil =>
          rw [List.nil_append] at huv
          exact absurd hv (huv ▸ hhere)
        | cons b u =>
          obtain ⟨rfl, rfl⟩ := List.cons_eq_cons.1 huv
          exact ⟨u, v, rfl, fun b hb => hu b (List.mem_cons_of_mem _ hb), hv⟩
    · refine iff_of_false id ?_
      rintro ⟨u, v, huv, hu, hv⟩
      cases u with
      | nil =>
        rw [List.nil_append] at huv
        exact hhere (huv ▸ hv)
      | cons b u =>
        obtain ⟨rfl, rfl⟩ := List.cons_eq_cons.1 huv
        exact hnext ((hu a List.mem_cons_self).symm.imp Eq.symm id)

/-- The beginning of the text is in the language; with an anchor at the end it is the whole text. -/
def MatchesHere (is : List Item) (atEnd : Bool) (text : Str) : Prop :=
  ∃ mid post, text = mid ++ post ∧ mid ∈ lang is ∧ (atEnd = true → post = [])

theorem matchesHere_nil (text : Str) : MatchesHere [] false text :=
  ⟨[], text, rfl, Language.nil_mem_one, fun h => by cases h⟩

theorem matchesHere_atEnd : MatchesHere [] true text ↔ text = [] := by
  constructor
  · rintro ⟨mid, post, rfl, hmid, hpost⟩
    rw [hpost rfl, (Language.mem_one mid).1 hmid]
    rfl
  · rintro rfl
    exact ⟨[], [], rfl, Language.nil_mem_one, fun _ => rfl⟩

theorem matchesHere_one {is : List Item} {b : Bool} :
    MatchesHere (.one c :: is) b text ↔ ∃ a rest, text = a :: rest ∧ Accepts c a ∧ MatchesHere is b rest := by
  constructor
  · rintro ⟨mid, post, rfl, hmid, hpost⟩
    rw [lang, List.map_cons, List.prod_cons, Language.mem_mul] at hmid
    obtain ⟨_, ⟨a, ha, rfl⟩, mid, hmid, rfl⟩ := hmid
    exact ⟨a, mid ++ post, rfl, ha, mid, post, rfl, hmid, hpost⟩
  · rintro ⟨a, rest, rfl, ha, mid, post, rfl, hmid, hpost⟩
    refine ⟨a :: mid, post, rfl, ?_, hpost⟩
    rw [lang, List.map_cons, List.prod_cons, Language.mem_mul]
    exact ⟨[a], ⟨a, ha, rfl⟩, mid, hmid, rfl⟩

theorem matchesHere_many {is : List Item} {b : Bool} :
    MatchesHere (.many c :: is) b text ↔ ∃ u v, text = u ++ v ∧ (∀ a ∈ u, Accepts c a) ∧ MatchesHere is b v := by
  constructor
  · rintro ⟨mid, post, rfl, hmid, hpost⟩
    rw [lang, List.map_cons, List.prod_cons, Language.mem_mul] at hmid
    obtain ⟨u, hu, mid, hmid, rfl⟩ := hmid
    exact ⟨u, mid ++ post, List.append_assoc u mid post, mem_kstar_charLang.1 hu, mid, post, rfl, hmid, hpost⟩
  · rintro ⟨u, v, rfl, hu, mid, post, rfl, hmid, hpost⟩
    refine ⟨u ++ mid, post, (List.append_assoc u mid post).symm, ?_, hpost⟩
    rw [lang, List.map_cons, List.prod_cons, Language.mem_mul]
    exact ⟨u, mem_kstar_charLang.2 hu, mid, hmid, rfl⟩

theorem matchchar_iff {is : List Item} {b : Bool} (hf : ∀ text, f text = true ↔ MatchesHere is b text) :
    matchchar c f text = true ↔ MatchesHere (.one c :: is) b text := by
  rw [matchesHere_one]
  cases text with
  | nil => exact iff_of_false Bool.false_ne_true fun ⟨_, _, h, _⟩ => by cases h
  | cons a text =>
    rw [matchchar]
    split_ifs with hc
    · rw [hf]
      exact ⟨fun h => ⟨a, text, rfl, hc, h⟩, fun ⟨_, _, heq, _, h⟩ => by cases heq; exact h⟩
    · exact iff_of_false id fun ⟨_, _, heq, h, _⟩ => by cases heq; exact hc h

theorem matchhere_iff : ∀ (re text : Str), matchhere re text = true ↔ MatchesHere (items re).1 (items re).2 text
  | [], text => iff_of_true rfl (matchesHere_nil text)
  | [c], text => by
    rw [matchhere, items]
    split_ifs with hc
    · rw [matchesHere_atEnd, List.isEmpty_iff]
    · exact matchchar_iff fun text => matchhere_iff [] text
  | c :: d :: re, text => by
    rw [matchhere, items]
    split_ifs with hd
    · rw [matchstar_iff, matchesHere_many]
      refine exists_congr fun u => exists_congr fun v => and_congr_right fun _ => and_congr_right fun _ => ?_
      exact matchhere_iff re v
    · exact matchchar_iff fun text => matchhere_iff (d :: re) text

theorem matchLoop_iff : matchLoop re text = true ↔ ∃ pre rest, text = pre ++ rest ∧ matchhere re rest = true := by
  induction text with
  | nil =>
    rw [matchLoop]
    constructor
    · exact fun h => ⟨[], [], rfl, h⟩
    · rintro ⟨pre, rest, heq, h⟩
      obtain ⟨rfl, rfl⟩ := List.append_eq_nil_iff.1 heq.symm
      exact h
  | cons a text ih =>
    rw [matchLoop]
    split_ifs with hhere
    · exact iff_of_true rfl ⟨[], a :: text, rfl, hhere⟩
    · rw [ih]
      constructor
      · rintro ⟨pre, rest, rfl, h⟩
        exact ⟨a :: pre, rest, rfl, h⟩
      · rintro ⟨pre, rest, heq, h⟩
        cases pre with
        | nil =>
          rw [List.nil_append] at heq
          exact absurd h (heq ▸ hhere)
        | cons b pre =>
          obtain ⟨rfl, rfl⟩ := List.cons_eq_cons.1 heq
          exact ⟨pre, rest, rfl, h⟩

/-- The matcher returns 1 iff a part of the text, at the ends that the anchors ask for, is in the language of the pattern. -/
theorem grepMatch_iff (re text : Str) : grepMatch re text = true ↔ Matches re text := by
  have hloop (re : Str) (hre : re.head? ≠ some caret) : matchLoop re text = true ↔ Matches re text := by
    rw [Matches, if_neg hre, matchLoop_iff]
    constructor
    · rintro ⟨pre, rest, rfl, h⟩
      obtain ⟨mid, post, rfl, hmid, hpost⟩ := (matchhere_iff re rest).1 h
      exact ⟨pre, mid, post, (List.append_assoc pre mid post).symm, hmid, fun hc => absurd hc hre, hpost⟩
    · rintro ⟨pre, mid, post, rfl, hmid, -, hpost⟩
      exact ⟨pre, mid ++ post, List.append_assoc pre mid post, (matchhere_iff re _).2 ⟨mid, post, rfl, hmid, hpost⟩⟩
  cases re with
  | nil => exact hloop [] (by simp)
  | cons c re =>
    rw [grepMatch]
    split_ifs with hc
    · have hhead : (c :: re).head? = some caret := congrArg some hc
      rw [Matches, if_pos hhead, matchhere_iff]
      constructor
      · rintro ⟨mid, post, rfl, hmid, hpost⟩
        exact ⟨[], mid, post, rfl, hmid, fun _ => rfl, hpost⟩
      · rintro ⟨pre, mid, post, rfl, hmid, hpre, hpost⟩
        rw [hpre hhead]
        exact ⟨mid, post, rfl, hmid, hpost⟩
    · exact hloop (c :: re) fun h => hc (Option.some_inj.1 h)

end Xv6.Grep
