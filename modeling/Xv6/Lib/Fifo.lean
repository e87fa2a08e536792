import Mathlib

/-!
# A queue in a circular array

`n` cells hold a queue between two counters of `w` bits that only grow and wrap around.  `Rep` relates
the cells and the counters to the sequence `ins` of all items put in and the sequence `outs` of all
items taken out.  Nothing bounds the lengths of the two sequences, only their difference.
-/

namespace Fifo

variable {α : Type*} {n w : ℕ} {data : ℕ → α} {rd wr : BitVec w} {ins outs : List α} {x : α}

structure Rep (n w : ℕ) (data : ℕ → α) (rd wr : BitVec w) (ins outs : List α) : Prop where
  rd_eq : rd = BitVec.ofNat w outs.length
  wr_eq : wr = BitVec.ofNat w ins.length
  taken : outs <+: ins
  le : ins.length ≤ outs.length + n
  cell : ∀ k, outs.length ≤ k → k < ins.length → ins[k]? = some (data (k % n))

/-- The items in the cells from the read counter to the write counter. -/
def content (n : ℕ) (data : ℕ → α) (rd wr : BitVec w) : List α :=
  (List.range (wr - rd).toNat).map fun k => data ((rd.toNat + k) % n)

theorem toNat_mod (hn : n ∣ 2 ^ w) (k : ℕ) : (BitVec.ofNat w k).toNat % n = k % n := by
  rw [BitVec.toNat_ofNat, Nat.mod_mod_of_dvd k hn]

theorem toNat_add_mod (hn : n ∣ 2 ^ w) (k j : ℕ) :
    ((BitVec.ofNat w k).toNat + j) % n = (k + j) % n := by
  rw [Nat.add_mod, toNat_mod hn, ← Nat.add_mod]

theorem content_self (n : ℕ) (data : ℕ → α) (rd : BitVec w) : content n data rd rd = [] := by
  simp [content]

theorem content_of_ne (hn : n ∣ 2 ^ w) (data : ℕ → α) (hne : rd ≠ wr) :
    content n data rd wr = data (rd.toNat % n) :: content n data (rd + 1) wr := by
  have hcount : (wr - rd).toNat = (wr - (rd + 1)).toNat + 1 := by
    have hpos : (wr - rd).toNat ≠ 0 := fun e =>
      hne (sub_eq_zero.1 (BitVec.eq_of_toNat_eq (by rw [e]; simp))).symm
    have hlt := (wr - rd).isLt
    have hsub : wr - (rd + 1) = BitVec.ofNat w ((wr - rd).toNat - 1) := by
      have hsucc : BitVec.ofNat w ((wr - rd).toNat - 1) + 1 = BitVec.ofNat w ((wr - rd).toNat - 1 + 1) :=
        (BitVec.ofNat_add _ _).symm
      rw [← sub_sub, sub_eq_iff_eq_add, hsucc, Nat.sub_add_cancel (by omega), BitVec.ofNat_toNat,
        BitVec.setWidth_eq]
    rw [hsub, BitVec.toNat_ofNat, Nat.mod_eq_of_lt (by omega)]
    omega
  have hnext (k : ℕ) : ((rd + 1).toNat + k) % n = (rd.toNat + (k + 1)) % n := by
    have hmod := toNat_add_mod hn (rd.toNat + 1) k
    rw [BitVec.ofNat_add, BitVec.ofNat_toNat, BitVec.setWidth_eq] at hmod
    rw [show rd.toNat + (k + 1) = rd.toNat + 1 + k by omega, ← hmod]
    rfl
  rw [content, hcount, List.range_succ_eq_map, List.map_cons, List.map_map, content]
  refine congrArg₂ _ rfl (List.map_congr_left fun k _ => ?_)
  rw [Function.comp, hnext]

theorem length_content (n : ℕ) (data : ℕ → α) (rd wr : BitVec w) :
    (content n data rd wr).length = (wr - rd).toNat := by
  simp [content]

theorem add_count_mod (hn : n ∣ 2 ^ w) (rd wr : BitVec w) :
    (rd.toNat + (wr - rd).toNat) % n = wr.toNat % n := by
  rw [← Nat.mod_mod_of_dvd _ hn, ← BitVec.toNat_add, add_sub_cancel]

/-- The cell at the write counter is not in use. -/
theorem cell_ne (hn : n ∣ 2 ^ w) {k : ℕ} (hk : k < (wr - rd).toNat) (hlt : (wr - rd).toNat < n) :
    (rd.toNat + k) % n ≠ wr.toNat % n := by
  rw [← add_count_mod hn rd wr]
  intro e
  have hmod : k % n = (wr - rd).toNat % n := Nat.ModEq.add_left_cancel' rd.toNat e
  rw [Nat.mod_eq_of_lt (hk.trans hlt), Nat.mod_eq_of_lt hlt] at hmod
  omega

theorem content_update (hn : n ∣ 2 ^ w) (data : ℕ → α) (hlt : (wr - rd).toNat < n) (x : α) :
    content n (Function.update data (wr.toNat % n) x) rd wr = content n data rd wr :=
  List.map_congr_left fun _ hk => Function.update_of_ne (cell_ne hn (List.mem_range.1 hk) hlt) _ _

theorem content_succ (hn : n ∣ 2 ^ w) (data : ℕ → α) (hlt : (wr - rd).toNat < n) (hw : n < 2 ^ w) :
    content n data rd (wr + 1) = content n data rd wr ++ [data (wr.toNat % n)] := by
  have hcount : (wr + 1 - rd).toNat = (wr - rd).toNat + 1 := by
    have hsucc : wr + 1 - rd = BitVec.ofNat w ((wr - rd).toNat + 1) := by
      rw [BitVec.ofNat_add, BitVec.ofNat_toNat, BitVec.setWidth_eq, add_sub_right_comm]
      rfl
    rw [hsucc, BitVec.toNat_ofNat, Nat.mod_eq_of_lt (by omega)]
  rw [content, hcount, List.range_succ, List.map_append, List.map_singleton, add_count_mod hn, content]

theorem Rep.empty (n w : ℕ) (data : ℕ → α) : Rep n w data 0 0 [] [] where
  rd_eq := rfl
  wr_eq := rfl
  taken := List.nil_prefix
  le := Nat.zero_le _
  cell k _ hk := absurd hk (Nat.not_lt_zero k)

theorem Rep.length_le (h : Rep n w data rd wr ins outs) : outs.length ≤ ins.length :=
  h.taken.length_le

theorem Rep.count (h : Rep n w data rd wr ins outs) (hlt : n < 2 ^ w) :
    (wr - rd).toNat = ins.length - outs.length := by
  have hle := h.length_le
  have hn := h.le
  have hsub : wr - rd = BitVec.ofNat w (ins.length - outs.length) := by
    rw [h.wr_eq, h.rd_eq, sub_eq_iff_eq_add, ← BitVec.ofNat_add]
    congr 1
    omega
  rw [hsub, BitVec.toNat_ofNat, Nat.mod_eq_of_lt (by omega)]

theorem Rep.empty_iff (h : Rep n w data rd wr ins outs) (hlt : n < 2 ^ w) :
    rd = wr ↔ outs.length = ins.length := by
  have hcount := h.count hlt
  have hle := h.length_le
  constructor
  · rintro rfl
    rw [BitVec.sub_self, BitVec.toNat_zero] at hcount
    omega
  · intro e
    rw [h.rd_eq, h.wr_eq, e]

theorem Rep.full_iff (h : Rep n w data rd wr ins outs) (hlt : n < 2 ^ w) :
    wr = rd + BitVec.ofNat w n ↔ ins.length = outs.length + n := by
  have hcount := h.count hlt
  constructor
  · intro e
    have hle := h.length_le
    rw [e, show rd + BitVec.ofNat w n - rd = BitVec.ofNat w n by abel, BitVec.toNat_ofNat,
      Nat.mod_eq_of_lt hlt] at hcount
    omega
  · intro e
    rw [h.rd_eq, h.wr_eq, e, BitVec.ofNat_add]

theorem Rep.push (h : Rep n w data rd wr ins outs) (hn : n ∣ 2 ^ w)
    (hfull : ins.length ≠ outs.length + n) (x : α) :
    Rep n w (Function.update data (wr.toNat % n) x) rd (wr + 1) (ins ++ [x]) outs where
  rd_eq := h.rd_eq
  wr_eq := by rw [h.wr_eq, List.length_append, List.length_singleton, BitVec.ofNat_add]; rfl
  taken := h.taken.trans (List.prefix_append _ _)
  le := by
    have := h.le
    rw [List.length_append, List.length_singleton]
    omega
  cell k hk hk' := by
    have hle := h.le
    rw [List.length_append, List.length_singleton] at hk'
    rw [h.wr_eq, toNat_mod hn]
    by_cases e : k = ins.length
    · subst e
      rw [Function.update_self, List.getElem?_concat_length]
    · have hlt : k < ins.length := by omega
      -- two positions less than `n` apart share no cell
      have hne : k % n ≠ ins.length % n := fun hmod => by
        obtain ⟨c, hc⟩ := (Nat.modEq_iff_dvd' hlt.le).1 hmod
        have hpos : 0 < c := Nat.pos_of_ne_zero fun h0 => by
          rw [h0, Nat.mul_zero] at hc
          omega
        have hge : n ≤ n * c := Nat.le_mul_of_pos_right n hpos
        omega
      rw [Function.update_of_ne hne, List.getElem?_append_left hlt]
      exact h.cell k hk hlt

theorem Rep.pop (h : Rep n w data rd wr ins outs) (hn : n ∣ 2 ^ w)
    (hne : outs.length ≠ ins.length) :
    Rep n w data (rd + 1) wr ins (outs ++ [data (rd.toNat % n)]) := by
  have hlt : outs.length < ins.length := lt_of_le_of_ne h.length_le hne
  have hx := h.cell outs.length le_rfl hlt
  refine ⟨?_, h.wr_eq, ?_, ?_, fun k hk hk' => h.cell k ?_ hk'⟩
  · rw [h.rd_eq, List.length_append, List.length_singleton, BitVec.ofNat_add]
    rfl
  · rw [h.rd_eq, toNat_mod hn]
    obtain ⟨rest, rfl⟩ := h.taken
    rw [List.getElem?_append_right le_rfl, Nat.sub_self] at hx
    cases rest with
    | nil => simp at hlt
    | cons y rest =>
      obtain rfl := Option.some.inj hx
      exact ⟨rest, by simp⟩
  · have := h.le
    rw [List.length_append, List.length_singleton]
    omega
  · rw [List.length_append, List.length_singleton] at hk
    omega

/-- What was put in is what was taken out, followed by what the cells hold. -/
theorem Rep.ins_eq (h : Rep n w data rd wr ins outs) (hn : n ∣ 2 ^ w) (hlt : n < 2 ^ w) :
    ins = outs ++ content n data rd wr := by
  have hcount := h.count hlt
  have hle := h.length_le
  obtain ⟨rest, hrest⟩ := h.taken
  have hlen : rest.length = ins.length - outs.length := by
    rw [← hrest, List.length_append]
    omega
  rw [← hrest]
  congr 1
  refine List.ext_getElem (by simp [content, hcount, hlen]) fun k hk hk' => ?_
  have hcell := h.cell (outs.length + k) (by omega) (by omega)
  rw [← hrest, List.getElem?_append_right (by omega), Nat.add_sub_cancel_left,
    List.getElem?_eq_getElem hk] at hcell
  rw [Option.some.inj hcell, ← toNat_add_mod hn, ← h.rd_eq]
  simp [content]

end Fifo
