import Xv6.Vm.Code
import Xv6.Kalloc.Interleaving

/-!
# Page-table entries and page numbers

The shifts and masks of `kernel/riscv.h` in terms of quotients and remainders.
-/

namespace Xv6.Vm

open Memory Kalloc

/-- The entry for the page `pa` with flag bits `f`. -/
def mkPte (pa f : ℕ) : ℕ := pa2pte pa ||| f

/-- The entry of an upper level: zero, or a valid pointer to a table. -/
def ptr : Option ℕ → ℕ
  | none => 0
  | some p => mkPte p PTE_V

/-- The virtual page number of the entry with these indices. -/
def vpn (i j k : ℕ) : ℕ := (i * 512 + j) * 512 + k

variable {pa f k w : ℕ}

theorem mkPte_eq (hf : f < 1024) : mkPte pa f = pa / 4096 * 1024 + f := by
  unfold mkPte pa2pte
  rw [← Nat.shiftLeft_add_eq_or_of_lt (show f < 2 ^ 10 from hf), Nat.shiftLeft_eq,
    Nat.shiftRight_eq_div_pow]

theorem pte2pa_eq (w : ℕ) : pte2pa w = w / 1024 * 4096 := by
  unfold pte2pa
  rw [Nat.shiftLeft_eq, Nat.shiftRight_eq_div_pow]

theorem pteFlags_eq (w : ℕ) : pteFlags w = w % 1024 := by
  unfold pteFlags
  exact Nat.and_two_pow_sub_one_eq_mod w 10

theorem px_eq (level va : ℕ) : px level va = va / 2 ^ (12 + 9 * level) % 512 := by
  unfold px
  rw [Nat.shiftRight_eq_div_pow]
  exact Nat.and_two_pow_sub_one_eq_mod _ 9

/-- A mask of flag bits sees the flag bits only. -/
theorem and_mask {mask : ℕ} (w : ℕ) (hm : mask < 1024) : w &&& mask = w % 1024 &&& mask := by
  have h := Nat.and_two_pow_sub_one_eq_mod w 10
  rw [show w % 1024 = w &&& 1023 from h.symm, Nat.land_assoc]
  have hmask : 1023 &&& mask = mask := by
    rw [Nat.land_comm]
    exact (Nat.and_two_pow_sub_one_eq_mod mask 10).trans (Nat.mod_eq_of_lt hm)
  rw [hmask]

theorem pte2pa_mkPte (hpa : pa % 4096 = 0) (hf : f < 1024) : pte2pa (mkPte pa f) = pa := by
  rw [pte2pa_eq, mkPte_eq hf]
  omega

theorem mkPte_mod (hf : f < 1024) : mkPte pa f % 1024 = f := by
  rw [mkPte_eq hf]
  omega

theorem pteFlags_mkPte (hf : f < 1024) : pteFlags (mkPte pa f) = f := by
  rw [pteFlags_eq, mkPte_mod hf]

theorem mkPte_and {mask : ℕ} (hf : f < 1024) (hm : mask < 1024) :
    mkPte pa f &&& mask = f &&& mask := by
  rw [and_mask _ hm, mkPte_mod hf]

theorem mkPte_lt (hpa : pa < PHYSTOP) (hf : f < 1024) : mkPte pa f < 256 ^ 8 := by
  rw [mkPte_eq hf]
  unfold PHYSTOP KERNBASE at hpa
  omega

theorem and_PTE_V (w : ℕ) : w &&& PTE_V = w % 2 := Nat.and_one_is_mod w

theorem mkPte_lor (pa perm : ℕ) : pa2pte pa ||| perm ||| PTE_V = mkPte pa (perm ||| PTE_V) := by
  unfold mkPte
  exact Nat.lor_assoc _ _ _

theorem ptr_and_V (o : Option ℕ) : (ptr o &&& PTE_V ≠ 0) ↔ o.isSome = true := by
  cases o with
  | none => simp [ptr, PTE_V]
  | some p =>
    rw [ptr, mkPte_and (by decide) (by decide)]
    simp [PTE_V]

theorem ptr_rwx (o : Option ℕ) : ptr o &&& (PTE_R ||| PTE_W ||| PTE_X) = 0 := by
  cases o with
  | none => simp [ptr]
  | some p =>
    rw [ptr, mkPte_and (by decide) (by decide)]
    rfl

/-! ## Virtual page numbers -/

theorem vpn_px {va : ℕ} (hva : va < MAXVA) : vpn (px 2 va) (px 1 va) (px 0 va) = va / 4096 := by
  simp only [vpn, px_eq]
  unfold MAXVA at hva
  norm_num at hva ⊢
  omega

theorem px_lt (level va : ℕ) : px level va < 512 := by
  rw [px_eq]
  exact Nat.mod_lt _ (by norm_num)

theorem vpn_inj {i j k i' j' k' : ℕ} (hj : j < 512) (hk : k < 512) (hj' : j' < 512) (hk' : k' < 512)
    (h : vpn i j k = vpn i' j' k') : i = i' ∧ j = j' ∧ k = k' := by
  unfold vpn at h
  omega

/-! ## Pages -/

variable {L : Layout} {p q : ℕ}

theorem page_facts (hp : p ∈ L.pages) :
    p % 4096 = 0 ∧ 0 < p ∧ p + 4096 ≤ PHYSTOP ∧ L.kernelEnd ≤ p := by
  have h := kfreePanics_eq_false L hp
  have h₀ := ne_zero_of_mem_pages L hp
  simp only [kfreePanics, Bool.or_eq_false_iff, bne_eq_false_iff_eq, decide_eq_false_iff_not,
    not_lt, not_le, ge_iff_le] at h
  unfold PGSIZE PHYSTOP KERNBASE at *
  omega

/-- The memories agree on the page. -/
def SamePage (m m' : Mem) (p : ℕ) : Prop := ∀ x, p ≤ x → x < p + 4096 → m' x = m x

theorem SamePage.refl (m : Mem) (p : ℕ) : SamePage m m p := fun _ _ _ => rfl

theorem SamePage.trans {m m' m'' : Mem} (h : SamePage m m' p) (h' : SamePage m' m'' p) :
    SamePage m m'' p := fun x h₁ h₂ => (h' x h₁ h₂).trans (h x h₁ h₂)

theorem SamePage.load {m m' : Mem} (h : SamePage m m' p) (hk : k < 512) :
    load 8 m' (p + 8 * k) = load 8 m (p + 8 * k) :=
  load_congr fun i hi => h _ (by omega) (by omega)

theorem SamePage.next {m m' : Mem} (h : SamePage m m' p) : next m' p = next m p :=
  load_congr fun i hi => h _ (by omega) (by omega)

theorem samePage_of_eqOutside {m m' : Mem} {a n : ℕ} (h : EqOutside a n m m') (hq : q % 4096 = 0)
    (hp : p % 4096 = 0) (hpq : p ≠ q) (ha : q ≤ a) (hn : a + n ≤ q + 4096) : SamePage m m' p :=
  fun x h₁ h₂ => h x (by omega)

theorem load_store_entry {m : Mem} {i j : ℕ} (hp : p % 4096 = 0) (hq : q % 4096 = 0) (hi : i < 512)
    (hj : j < 512) (hw : w < 256 ^ 8) :
    load 8 (store 8 m (p + 8 * i) w) (q + 8 * j) =
      if q = p ∧ j = i then w else load 8 m (q + 8 * j) := by
  split_ifs with h
  · rw [h.1, h.2, load_store_self, Nat.mod_eq_of_lt hw]
  · exact load_store_of_disjoint 8 8 m w (by omega)

end Xv6.Vm
