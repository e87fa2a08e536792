import Mathlib

/-!
# Byte-addressed memory

A memory maps addresses to bytes.  `load w m a` is the little-endian number of `w` bytes at `a`, and
`store w m a v` writes one; `fill`, `copy` and `write` are `memset`, `memmove` and a write of given
bytes.  Every write changes its own range only, and a load depends on its own range only.
-/

namespace Memory

abbrev Mem := ℕ → BitVec 8

/-- The little-endian number in the `w` bytes at `a`. -/
def load : ℕ → Mem → ℕ → ℕ
  | 0, _, _ => 0
  | w + 1, m, a => (m a).toNat + 256 * load w m (a + 1)

def store (w : ℕ) (m : Mem) (a v : ℕ) : Mem :=
  fun x => if a ≤ x ∧ x < a + w then BitVec.ofNat 8 (v / 256 ^ (x - a)) else m x

def fill (m : Mem) (a n : ℕ) (b : BitVec 8) : Mem := fun x => if a ≤ x ∧ x < a + n then b else m x

def copy (m : Mem) (dst src n : ℕ) : Mem :=
  fun x => if dst ≤ x ∧ x < dst + n then m (src + (x - dst)) else m x

def write (m : Mem) (a : ℕ) (bs : List (BitVec 8)) : Mem :=
  fun x => if a ≤ x ∧ x < a + bs.length then bs.getD (x - a) 0 else m x

def read (m : Mem) (a n : ℕ) : List (BitVec 8) := (List.range n).map fun i => m (a + i)

/-- The memories agree outside the `n` bytes at `a`. -/
def EqOutside (a n : ℕ) (m m' : Mem) : Prop := ∀ x, ¬ (a ≤ x ∧ x < a + n) → m' x = m x

variable {w v a b n k x : ℕ} {m m' : Mem}

theorem store_eqOutside (w : ℕ) (m : Mem) (a v : ℕ) : EqOutside a w m (store w m a v) :=
  fun _ h => if_neg h

theorem fill_eqOutside (m : Mem) (a n : ℕ) (b : BitVec 8) : EqOutside a n m (fill m a n b) :=
  fun _ h => if_neg h

theorem copy_eqOutside (m : Mem) (a b n : ℕ) : EqOutside a n m (copy m a b n) :=
  fun _ h => if_neg h

theorem write_eqOutside (m : Mem) (a : ℕ) (bs : List (BitVec 8)) :
    EqOutside a bs.length m (write m a bs) :=
  fun _ h => if_neg h

theorem EqOutside.mono (h : EqOutside a n m m') (hb : b ≤ a) (hk : a + n ≤ b + k) :
    EqOutside b k m m' :=
  fun x hx => h x (by omega)

theorem EqOutside.trans {m'' : Mem} (h : EqOutside a n m m') (h' : EqOutside a n m' m'') :
    EqOutside a n m m'' :=
  fun x hx => (h' x hx).trans (h x hx)

theorem load_lt (w : ℕ) (m : Mem) (a : ℕ) : load w m a < 256 ^ w := by
  induction w generalizing a with
  | zero => simp [load]
  | succ w ih =>
    have h₁ := (m a).isLt
    have h₂ := ih (a + 1)
    rw [load, pow_succ]
    omega

theorem load_congr (h : ∀ i < w, m' (a + i) = m (a + i)) : load w m' a = load w m a := by
  induction w generalizing a with
  | zero => rfl
  | succ w ih =>
    rw [load, load, show m' a = m a from h 0 (Nat.succ_pos w), ih fun i hi => ?_]
    rw [show a + 1 + i = a + (i + 1) by omega]
    exact h (i + 1) (by omega)

theorem EqOutside.load (h : EqOutside a n m m') (hd : b + w ≤ a ∨ a + n ≤ b) :
    load w m' b = load w m b :=
  load_congr fun i hi => h (b + i) (by omega)

theorem load_of_digits (h : ∀ i < w, m (a + i) = BitVec.ofNat 8 (v / 256 ^ i)) :
    load w m a = v % 256 ^ w := by
  induction w generalizing a v with
  | zero => simp [load, Nat.mod_one]
  | succ w ih =>
    have hhead : m a = BitVec.ofNat 8 v := by simpa using h 0 (Nat.succ_pos w)
    have htail : Memory.load w m (a + 1) = v / 256 % 256 ^ w := by
      refine ih fun i hi => ?_
      rw [show a + 1 + i = a + (i + 1) by omega, h (i + 1) (by omega), Nat.div_div_eq_div_mul,
        pow_succ']
    rw [Memory.load, hhead, htail, BitVec.toNat_ofNat]
    change v % 256 + 256 * (v / 256 % 256 ^ w) = v % 256 ^ (w + 1)
    rw [pow_succ', Nat.mod_mul]

theorem load_store_self (w : ℕ) (m : Mem) (a v : ℕ) :
    load w (store w m a v) a = v % 256 ^ w := by
  refine load_of_digits fun i hi => ?_
  rw [store, if_pos (by omega), Nat.add_sub_cancel_left]

theorem store_mod (w : ℕ) (m : Mem) (a v : ℕ) : store w m a (v % 256 ^ w) = store w m a v := by
  funext x
  simp only [store]
  split_ifs with h
  · obtain ⟨k, hk⟩ : ∃ k, w = (x - a) + 1 + k := ⟨w - (x - a) - 1, by omega⟩
    refine BitVec.eq_of_toNat_eq ?_
    rw [BitVec.toNat_ofNat, BitVec.toNat_ofNat]
    change v % 256 ^ w / 256 ^ (x - a) % 256 = v / 256 ^ (x - a) % 256
    rw [hk, pow_add, pow_succ, mul_assoc, Nat.mod_mul_right_div_self, Nat.mod_mul_right_mod]
  · rfl

theorem load_store_of_disjoint (w k : ℕ) (m : Mem) (v : ℕ) (h : b + k ≤ a ∨ a + w ≤ b) :
    load k (store w m a v) b = load k m b :=
  (store_eqOutside w m a v).load h

theorem load_fill_zero (hb : a ≤ b) (hn : b + w ≤ a + n) : load w (fill m a n 0) b = 0 := by
  rw [load_of_digits (v := 0) fun i hi => ?_, Nat.zero_mod]
  rw [fill, if_pos (by omega), Nat.zero_div]
  rfl

@[simp] theorem read_zero (m : Mem) (a : ℕ) : read m a 0 = [] := rfl

theorem read_succ (m : Mem) (a n : ℕ) : read m a (n + 1) = m a :: read m (a + 1) n := by
  rw [read, List.range_succ_eq_map, List.map_cons, List.map_map, read]
  refine congrArg _ (List.map_congr_left fun i _ => ?_)
  rw [Function.comp_apply, Nat.succ_eq_add_one, add_comm i, ← add_assoc]

theorem read_congr (h : ∀ i < n, m' (a + i) = m (a + i)) : read m' a n = read m a n :=
  List.map_congr_left fun i hi => h i (List.mem_range.1 hi)

theorem read_add (m : Mem) (a n k : ℕ) : read m a (n + k) = read m a n ++ read m (a + n) k := by
  rw [read, List.range_add, List.map_append, List.map_map]
  exact congrArg _ (List.map_congr_left fun i _ => by rw [Function.comp_apply, Nat.add_assoc])

theorem read_write_self (m : Mem) (a : ℕ) (bs : List (BitVec 8)) : read (write m a bs) a bs.length = bs := by
  unfold read
  refine List.ext_getElem (by rw [List.length_map, List.length_range]) fun i _ hi => ?_
  rw [List.getElem_map, List.getElem_range, write, if_pos (by omega), Nat.add_sub_cancel_left,
    List.getD_eq_getElem _ _ hi]

theorem read_copy_self (m : Mem) (dst src n : ℕ) : read (copy m dst src n) dst n = read m src n := by
  refine List.map_congr_left fun i hi => ?_
  have hi := List.mem_range.1 hi
  rw [copy, if_pos (by omega), Nat.add_sub_cancel_left]

theorem store_comm (w k : ℕ) (m : Mem) (v u : ℕ) (h : b + k ≤ a ∨ a + w ≤ b) :
    store w (store k m b u) a v = store k (store w m a v) b u := by
  funext x
  simp only [store]
  split_ifs <;> first | rfl | omega

theorem fill_store_comm (w : ℕ) (m : Mem) (v : ℕ) (c : BitVec 8) (h : b + n ≤ a ∨ a + w ≤ b) :
    store w (fill m b n c) a v = fill (store w m a v) b n c := by
  funext x
  simp only [store, fill]
  split_ifs <;> first | rfl | omega

end Memory
