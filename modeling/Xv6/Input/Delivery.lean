import Xv6.Input.Code
import Xv6.Lib.Fifo

/-!
# Bytes that leave an input queue

Both readers take a byte from the queue before they know whether it can be stored.  `Delivers` says what a
call does in terms of `want`, the bytes that it would take if every byte could be stored: it stores all of
them, or stores those before the first one that cannot be stored and loses that one.
-/

namespace Xv6.Input

open Memory Kernel Kalloc Vm Pipe

variable {Q : Type} {s t : Phys} {m : Mem} {r dst : ℕ} {T : Tree} {bytes want : List (BitVec 8)} {ch : BitVec 8}

/-! ## Storing bytes one by one -/

theorem copyout_byte (h : AddressSpace s.mem r T) (va : ℕ) (ch : BitVec 8) : copyout r va [ch] s =
    if UserWritable T (va / 4096) then .ok (0, { s with mem := write s.mem (T.phys va) [ch] })
    else .ok (-1, s) := by
  have hmin : min (PGSIZE - (va - pgrounddown va)) 1 = 1 := by
    rw [sub_pgrounddown]
    unfold PGSIZE
    omega
  rw [copyout, List.length_singleton, h.copyoutLoop_succ 0 va (by simp), List.length_singleton, hmin,
    sub_pgrounddown]
  rfl

/-- `bytes` have been stored from `dst` on, and nothing else. -/
structure Stored (r : ℕ) (T : Tree) (dst : ℕ) (s t : Phys) (bytes : List (BitVec 8)) : Prop where
  space : AddressSpace t.mem r T
  page : ∀ i < bytes.length, UserWritable T ((dst + i) / 4096)
  byte : ∀ i < bytes.length, t.mem (T.phys (dst + i)) = bytes.getD i 0
  other : ∀ x, (∀ i < bytes.length, x ≠ T.phys (dst + i)) → t.mem x = s.mem x

theorem stored_nil (h : AddressSpace s.mem r T) (dst : ℕ) : Stored r T dst s s [] :=
  ⟨h, by simp, by simp, fun _ _ => rfl⟩

theorem Stored.snoc (h : Stored r T dst s t bytes) (hw : UserWritable T ((dst + bytes.length) / 4096))
    (ch : BitVec 8) : Stored r T dst s { t with mem := write t.mem (T.phys (dst + bytes.length)) [ch] }
      (bytes ++ [ch]) := by
  have hone : (dst + bytes.length) % 4096 + 1 ≤ 4096 := by omega
  obtain ⟨hspace, -, hother⟩ := h.space.write hw.1 hone (rfl : [ch].length = 1)
  rw [sub_pgrounddown] at hspace hother
  have hat : write t.mem (T.phys (dst + bytes.length)) [ch] (T.phys (dst + bytes.length)) = ch := by
    rw [write, if_pos (by simp), Nat.sub_self]
    rfl
  have hne {i : ℕ} (hi : i < bytes.length) : T.phys (dst + i) ≠ T.phys (dst + bytes.length) := fun e => by
    have := h.space.phys_inj (h.page i hi).1 hw.1 e
    omega
  have hbefore {x : ℕ} (hx : x ≠ T.phys (dst + bytes.length)) :
      write t.mem (T.phys (dst + bytes.length)) [ch] x = t.mem x :=
    hother x fun i hi => by
      rw [Nat.lt_one_iff.1 hi]
      exact hx
  have hlen {i : ℕ} (hi : i < (bytes ++ [ch]).length) : i < bytes.length ∨ i = bytes.length := by
    rw [List.length_append, List.length_singleton] at hi
    omega
  refine ⟨hspace, fun i hi => ?_, fun i hi => ?_, fun x hx => ?_⟩
  · obtain hi | rfl := hlen hi
    · exact h.page i hi
    · exact hw
  · dsimp only
    obtain hi | rfl := hlen hi
    · rw [hbefore (hne hi), h.byte i hi, List.getD_append _ _ _ _ hi]
    · rw [hat, List.getD_append_right _ _ _ _ le_rfl, Nat.sub_self]
      rfl
  · dsimp only
    rw [hbefore (hx _ (by simp)), h.other x fun i hi => hx i (by simp; omega)]

/-- The next address has not wrapped: the ones before it are user addresses. -/
theorem Stored.wrap_eq (h : Stored r T dst s t bytes) (hdst : dst < 2 ^ 64) :
    wrap dst bytes.length = dst + bytes.length := by
  refine Nat.mod_eq_of_lt ?_
  cases hb : bytes.length with
  | zero => exact hdst
  | succ n =>
    have hlt := div_maxva.1 (h.page n (by omega)).1.1
    unfold MAXVA at hlt
    omega

/-! ## What a call delivers -/

/-- A call that returned `ret` has stored all bytes of `want`, or has lost the first one that cannot be
stored. -/
def Delivers (r : ℕ) (T : Tree) (dst : ℕ) (s : Phys) (want : List (BitVec 8)) (ret : ℤ) (st : State Q) :
    Prop :=
  ∃ bytes, Stored r T dst s st.phys bytes ∧
    (st.taken = bytes ∧ bytes = want ∧ (ret = bytes.length ∨ ret = -1) ∨
      ∃ ch, st.taken = bytes ++ [ch] ∧ bytes ++ [ch] <+: want ∧ ret = bytes.length ∧
        ¬ UserWritable T ((dst + bytes.length) / 4096))

/-- The data bytes that a call has taken are as many as it returns, and are stored from `dst` on. -/
def Delivered (s : Phys) (r dst : ℕ) (ret : ℤ) (st : State Q) : Prop :=
  (st.taken.length : ℤ) = ret ∧
    ∀ i < st.taken.length, st.phys.mem (physAddr s r (wrap dst i)) = st.taken.getD i 0

theorem delivered_iff {ret : ℤ} {st : State Q} (hs : AddressSpace s.mem r T) (hdst : dst < 2 ^ 64)
    (h : Delivers r T dst s want ret st) :
    (0 ≤ ret → Delivered s r dst ret st) ↔ ∀ i < want.length, Writable s r (wrap dst i) := by
  have hmax (a : ℕ) (ha : Writable s r a) : a < MAXVA := ha.1.1
  obtain ⟨bytes, hst, ⟨htaken, rfl, hret⟩ | ⟨ch, htaken, hpre, rfl, hno⟩⟩ := h
  · have hall : ∀ i < bytes.length, Writable s r (dst + i) := fun i hi => hs.writable_iff.2 (hst.page i hi)
    refine iff_of_true (fun hpos => ?_) ((forall_wrap_iff hmax hdst).2 hall)
    rw [Delivered, htaken]
    refine ⟨hret.elim Eq.symm fun e => by omega, fun i hi => ?_⟩
    rw [no_wrap hmax hdst ((forall_wrap_iff hmax hdst).2 hall) i hi, hs.physAddr_eq (hst.page i hi).1]
    exact hst.byte i hi
  · refine iff_of_false (fun hd => ?_) fun hall => hno ?_
    · have hlen := (hd (by omega)).1
      rw [htaken, List.length_append, List.length_singleton] at hlen
      omega
    · have hlt : bytes.length < want.length := by
        have := hpre.length_le
        rw [List.length_append, List.length_singleton] at this
        omega
      have hw := hall _ hlt
      rwa [hst.wrap_eq hdst, hs.writable_iff] at hw

theorem run_phys {α : Type} {c : K α} {a : α} {st : State Q} (h : c st.phys = .ok (a, t)) :
    phys c st = .ok (a, { st with phys := t }) := run_zoom h

theorem run_await_none {empty : Q → Bool} {st : State Q} (h : awaitLoop empty st.wakes st.queue = none) :
    await empty st = .ok (false, st) := by
  rw [await, run_bind (run_get _)]
  simp only [h]
  rfl

theorem run_await_some {empty : Q → Bool} {st : State Q} {q : Q} {wakes : List Q}
    (h : awaitLoop empty st.wakes st.queue = some (q, wakes)) :
    await empty st = .ok (true, { st with queue := q, wakes := wakes }) := by
  rw [await, run_bind (run_get _)]
  simp only [h]
  rfl

/-! ## `piperead` -/

/-- The bytes in a pipe. -/
def pipeContent (pi : Buffer) : List (BitVec 8) := Fifo.content PIPESIZE pi.data pi.nread pi.nwrite

theorem pipeContent_of_ne {pi : Buffer} (h : pi.nread ≠ pi.nwrite) :
    pipeContent pi = pi.get.1 :: pipeContent pi.get.2 := Fifo.content_of_ne (by decide) _ h

theorem pipereadLoop_spec (hdst : dst < 2 ^ 64) (k : ℕ) (pi : Buffer) (wakes : List Buffer)
    (h : Stored r T dst s t bytes) :
    ∃ i st', pipereadLoop r dst k bytes.length ⟨pi, t, wakes, bytes⟩ = .ok (i, st') ∧
      Delivers r T dst s (bytes ++ (pipeContent pi).take k) i st' ∧
      st'.taken ++ pipeContent st'.queue = bytes ++ pipeContent pi := by
  induction k generalizing pi t bytes with
  | zero => exact ⟨_, _, rfl, ⟨bytes, h, .inl ⟨rfl, by simp, .inl rfl⟩⟩, rfl⟩
  | succ k ih =>
    rw [pipereadLoop, run_bind (run_get _)]
    by_cases he : pi.nread = pi.nwrite
    · have hnil : pipeContent pi = [] := by rw [pipeContent, he, Fifo.content_self]
      rw [if_pos he]
      exact ⟨_, _, rfl, ⟨bytes, h, .inl ⟨rfl, by simp [hnil], .inl rfl⟩⟩, rfl⟩
    rw [if_neg he, pipeContent_of_ne he, List.take_succ_cons]
    simp only []
    have hcopy := copyout_byte h.space (dst + bytes.length) pi.get.1
    rw [run_bind (run_set _ _), h.wrap_eq hdst]
    by_cases hw : UserWritable T ((dst + bytes.length) / 4096)
    · rw [if_pos hw] at hcopy
      rw [run_bind (run_phys hcopy), if_neg (by decide)]
      have hnext := h.snoc hw pi.get.1
      rw [show bytes.length + 1 = (bytes ++ [pi.get.1]).length by simp, List.append_cons bytes _ (List.take k _),
        List.append_cons bytes _ (pipeContent _)]
      exact ih _ hnext
    · rw [if_neg hw] at hcopy
      rw [run_bind (run_phys hcopy), if_pos rfl]
      exact ⟨_, _, rfl, ⟨bytes, h, .inr ⟨_, rfl, by simp, rfl, hw⟩⟩, by simp⟩

/-! ## `consoleread` -/

/-- The data bytes that `consoleread` takes when each of them can be stored. -/
def consoleWants : ℕ → Cons → List Cons → List (BitVec 8)
  | 0, _, _ => []
  | n + 1, c, wakes =>
    match awaitLoop consWaits wakes c with
    | none => []
    | some (c, wakes) =>
      if c.front = ctrlD then []
      else if c.front = newline then [c.front]
      else c.front :: consoleWants n { c with r := c.r + 1 } wakes

theorem consolereadLoop_spec (hdst : dst < 2 ^ 64) (n : ℕ) {target : ℕ} (c : Cons) (wakes : List Cons)
    (h : Stored r T dst s t bytes) (hn : bytes.length + n = target) :
    ∃ ret st', consolereadLoop r target n (dst + bytes.length) ⟨c, t, wakes, bytes⟩ = .ok (ret, st') ∧
      Delivers r T dst s (bytes ++ consoleWants n c wakes) ret st' := by
  induction n generalizing c wakes t bytes with
  | zero =>
    refine ⟨_, _, rfl, bytes, h, .inl ⟨rfl, by simp [consoleWants], .inl ?_⟩⟩
    rw [← hn]
    rfl
  | succ n ih =>
    rw [consolereadLoop, consoleWants]
    cases hwait : awaitLoop consWaits wakes c with
    | none =>
      rw [run_bind (run_await_none hwait)]
      exact ⟨_, _, rfl, bytes, h, .inl ⟨rfl, by simp, .inr rfl⟩⟩
    | some x =>
      obtain ⟨c', wakes'⟩ := x
      have hret : (target : ℤ) - (n + 1) = bytes.length := by omega
      simp only []
      rw [run_bind (run_await_some hwait), if_pos rfl, run_bind (run_get _)]
      simp only []
      rw [run_bind (run_set _ _)]
      by_cases hd : c'.front = ctrlD
      · rw [if_pos hd, if_pos hd, hret]
        split_ifs
        · exact ⟨_, _, rfl, bytes, h, .inl ⟨rfl, by simp, .inl rfl⟩⟩
        · exact ⟨_, _, rfl, bytes, h, .inl ⟨rfl, by simp, .inl rfl⟩⟩
      rw [if_neg hd, if_neg hd, run_bind (run_modify _ _)]
      have hcopy := copyout_byte h.space (dst + bytes.length) c'.front
      by_cases hw : UserWritable T ((dst + bytes.length) / 4096)
      · rw [if_pos hw] at hcopy
        rw [run_bind (run_phys hcopy), if_neg (by decide)]
        have hnext := h.snoc hw c'.front
        by_cases hnl : c'.front = newline
        · rw [if_pos hnl, if_pos hnl]
          refine ⟨_, _, rfl, _, hnext, .inl ⟨rfl, rfl, .inl ?_⟩⟩
          rw [List.length_append, List.length_singleton]
          omega
        · have haddr : wrap (dst + bytes.length) 1 = dst + (bytes ++ [c'.front]).length := by
            rw [wrap, ← hnext.wrap_eq hdst, wrap]
            simp [Nat.add_assoc]
          rw [if_neg hnl, if_neg hnl, haddr, List.append_cons bytes _ (consoleWants n _ _)]
          exact ih _ _ hnext (by simp; omega)
      · rw [if_neg hw] at hcopy
        rw [run_bind (run_phys hcopy), if_pos rfl, hret]
        refine ⟨_, _, rfl, bytes, h, .inr ⟨_, rfl, ?_, rfl, hw⟩⟩
        split_ifs <;> simp

/-! ## Both readers -/

/-- The bytes that `piperead` takes when each of them can be stored. -/
def pipeWants (n : ℤ) (pi : Buffer) (wakes : List Buffer) : List (BitVec 8) :=
  match awaitLoop pipeWaits wakes pi with
  | none => []
  | some (pi, _) => (pipeContent pi).take n.toNat

theorem piperead_spec (hs : AddressSpace s.mem r T) (hdst : dst < 2 ^ 64) (n : ℤ) (pi : Buffer)
    (wakes : List Buffer) :
    ∃ ret st', piperead r dst n ⟨pi, s, wakes, []⟩ = .ok (ret, st') ∧
      Delivers r T dst s (pipeWants n pi wakes) ret st' ∧
      ∀ pi' wakes', awaitLoop pipeWaits wakes pi = some (pi', wakes') →
        pipeContent pi' = st'.taken ++ pipeContent st'.queue := by
  rw [piperead, pipeWants]
  cases hwait : awaitLoop pipeWaits wakes pi with
  | none =>
    rw [run_bind (run_await_none hwait)]
    exact ⟨_, _, rfl, ⟨[], stored_nil hs dst, .inl ⟨rfl, rfl, .inr rfl⟩⟩, fun _ _ e => by cases e⟩
  | some x =>
    obtain ⟨pi', wakes'⟩ := x
    obtain ⟨i, st', hloop, hd, hc⟩ := pipereadLoop_spec hdst n.toNat pi' wakes' (stored_nil hs dst)
    rw [List.length_nil] at hloop
    rw [run_bind (run_await_some hwait), if_pos rfl, run_bind hloop]
    refine ⟨_, _, rfl, hd, fun _ _ e => ?_⟩
    cases e
    exact hc.symm

/-- A pipe with one byte, and a console buffer with a line of one byte. -/
def onePipe : Buffer := ⟨fun _ => 97, 0, 1, true, true⟩

def oneCons : Cons := ⟨fun k => if k = 0 then 97 else newline, 0, 2, 2⟩

end Xv6.Input
