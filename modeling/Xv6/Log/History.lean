import Xv6.Log.Code

/-!
# Commit groups and recovery

The events of a run fall into commit groups: a group ends with the `end_op` after which no operation
is in progress.  `logical d h` and `durableDisk d h` are the contents of the blocks after all the
changes of a history and after those of its durable groups.  `image G d` is what the home blocks hold
after recovery from the disk `d`; the lemmas say how the block writes of the log change it.
-/

namespace Xv6.Log

open Bytes Runs

/-! ## Groups of a run -/

/-- The closed groups of a run, the events after them, the operations in progress, and the number of
groups whose header had been written. -/
structure History where
  groups : List (List Event)
  current : List Event
  ops : List ℕ
  durable : ℕ

def historyStep (h : History) (e : Event) : History :=
  match e with
  | .beginOp p => { h with current := h.current ++ [e], ops := p :: h.ops }
  | .endOp p =>
    if h.ops.erase p = [] then
      { h with groups := h.groups ++ [h.current ++ [e]], current := [], ops := [] }
    else { h with current := h.current ++ [e], ops := h.ops.erase p }
  | .writeHead => { h with current := h.current ++ [e], durable := h.groups.length }
  | .crash => ⟨h.groups.take h.durable, [], [], h.durable⟩
  | e => { h with current := h.current ++ [e] }

def History.empty : History := ⟨[], [], [], 0⟩

/-- The history of a run; a crash forgets the groups that were not yet durable. -/
def historyOf (es : List Event) : History := es.foldl historyStep .empty

/-- The closed groups of a run. -/
def groupsOf (es : List Event) : List (List Event) := (historyOf es).groups

/-- The changes of cached blocks among the events. -/
def writesOf (es : List Event) : List (ℕ × Block) :=
  es.filterMap fun
    | .modify _ b v => some (b, v)
    | _ => none

def applyWrites (d : Disk) (ws : List (ℕ × Block)) : Disk :=
  ws.foldl (fun d w => Function.update d w.1 w.2) d

/-- The operations that the events begin and do not end. -/
def openOps (es : List Event) : List ℕ :=
  es.foldl (fun ops e => match e with
    | .beginOp p => p :: ops
    | .endOp p => ops.erase p
    | _ => ops) []

/-- The content of the blocks as the running operations see it. -/
def logical (d : Disk) (h : History) : Disk :=
  applyWrites d (writesOf (h.groups.flatten ++ h.current))

/-- The content of the blocks after the durable groups. -/
def durableDisk (d : Disk) (h : History) : Disk :=
  applyWrites d (writesOf (h.groups.take h.durable).flatten)

theorem historyOf_concat (es : List Event) (e : Event) :
    historyOf (es ++ [e]) = historyStep (historyOf es) e := by
  simp [historyOf, List.foldl_append]

theorem writesOf_append (es fs : List Event) : writesOf (es ++ fs) = writesOf es ++ writesOf fs :=
  List.filterMap_append

theorem applyWrites_append (d : Disk) (ws vs : List (ℕ × Block)) :
    applyWrites d (ws ++ vs) = applyWrites (applyWrites d ws) vs := by
  simp [applyWrites, List.foldl_append]

/-- Events that change no cached block. -/
def Event.Silent : Event → Prop
  | .modify _ _ _ => False
  | _ => True

theorem writesOf_silent {e : Event} (he : e.Silent) : writesOf [e] = [] := by
  cases e <;> first | rfl | exact he.elim

theorem logical_silent (d : Disk) (h : History) {e : Event} (he : e.Silent) (hc : e ≠ .crash) :
    logical d (historyStep h e) = logical d h := by
  have happend (xs : List Event) : writesOf (xs ++ [e]) = writesOf xs := by
    rw [writesOf_append, writesOf_silent he, List.append_nil]
  unfold logical
  congr 1
  cases e with
  | crash => exact absurd rfl hc
  | modify p b v => exact he.elim
  | endOp p =>
    simp only [historyStep]
    split_ifs
    · rw [List.flatten_append, List.append_nil, List.flatten_singleton, ← List.append_assoc, happend]
    · rw [← List.append_assoc, happend]
  | _ =>
    rw [← happend (h.groups.flatten ++ h.current)]
    simp only [historyStep, List.append_assoc]

theorem logical_modify (d : Disk) (h : History) (p b : ℕ) (v : Block) :
    logical d (historyStep h (.modify p b v)) = Function.update (logical d h) b v := by
  simp only [logical, historyStep, ← List.append_assoc]
  rw [writesOf_append, applyWrites_append]
  rfl

theorem durableDisk_step (d : Disk) {h : History} (hle : h.durable ≤ h.groups.length) {e : Event}
    (he : e ≠ .writeHead) : durableDisk d (historyStep h e) = durableDisk d h := by
  unfold durableDisk
  congr 2
  cases e with
  | writeHead => exact absurd rfl he
  | endOp p =>
    simp only [historyStep]
    split_ifs
    · rw [List.take_append_of_le_length hle]
    · rfl
  | crash => simp only [historyStep, List.take_take, min_self]
  | _ => rfl

theorem durable_le_step {h : History} (hle : h.durable ≤ h.groups.length) (e : Event) :
    (historyStep h e).durable ≤ (historyStep h e).groups.length := by
  cases e with
  | endOp p =>
    simp only [historyStep]
    split_ifs
    · rw [List.length_append]
      exact Nat.le_add_right_of_le hle
    · exact hle
  | crash =>
    simp only [historyStep, List.length_take]
    omega
  | writeHead => exact le_rfl
  | _ => exact hle

/-! ## The header block -/

theorem getLE_writeHeader_zero (hb : Block) {lh : List ℕ} (h : lh.length < 2 ^ 31) :
    getLE 4 (writeHeader hb lh) 0 = lh.length := by
  have key (n : ℕ) (b : Block) : getLE 4 ((List.range n).foldl (fun hb i =>
      putLE 4 hb (4 + 4 * i) (lh.getD i 0)) b) 0 = getLE 4 b 0 := by
    induction n with
    | zero => rfl
    | succ n ih =>
      rw [List.range_succ, List.foldl_append, List.foldl_cons, List.foldl_nil,
        getLE_putLE_of_disjoint _ _ _ _ _ _ (by omega), ih]
  rw [writeHeader, key, getLE_putLE_self _ _ _ (by decide), Nat.mod_eq_of_lt (by omega)]

theorem getLE_writeHeader_block (hb : Block) {lh : List ℕ} (hlen : lh.length ≤ 255) {j : ℕ}
    (hj : j < lh.length) :
    getLE 4 (writeHeader hb lh) (4 + 4 * j) = lh.getD j 0 % 2 ^ 32 := by
  have key (n : ℕ) (hn : n ≤ 255) (b : Block) (hjn : j < n) : getLE 4 ((List.range n).foldl
      (fun hb i => putLE 4 hb (4 + 4 * i) (lh.getD i 0)) b) (4 + 4 * j) =
        lh.getD j 0 % 2 ^ 32 := by
    induction n with
    | zero => omega
    | succ n ih =>
      rw [List.range_succ, List.foldl_append, List.foldl_cons, List.foldl_nil]
      by_cases e : j = n
      · rw [e, getLE_putLE_self _ _ _ (by unfold BSIZE; omega)]
        rfl
      · rw [getLE_putLE_of_disjoint _ _ _ _ _ _ (by omega), ih (by omega) (by omega)]
  exact key _ hlen _ hj

/-- `read_head` reads what `write_head` wrote. -/
theorem readHeader_writeHeader (hb : Block) {lh : List ℕ} (hlen : lh.length ≤ 255)
    (hlt : ∀ b ∈ lh, b < 2 ^ 32) : readHeader (writeHeader hb lh) = lh := by
  have hcount : headerCount (writeHeader hb lh) = lh.length := by
    rw [headerCount, getLE_writeHeader_zero _ (by omega), if_pos (by omega)]
  unfold readHeader
  rw [hcount]
  apply List.ext_getElem
  · simp
  · intro j h₁ h₂
    rw [List.getElem_map, List.getElem_range, getLE_writeHeader_block _ hlen h₂,
      List.getD_eq_getElem _ _ h₂, Nat.mod_eq_of_lt (hlt _ (List.getElem_mem h₂))]

/-! ## What recovery makes of a disk -/

variable (G : Geometry)

/-- The content of block `b` after a complete recovery from the disk `d`. -/
def image (d : Disk) (b : ℕ) : Block :=
  if b ∈ readHeader (d G.start) then d (G.start + (readHeader (d G.start)).idxOf b + 1) else d b

/-- A list of home blocks that has room in the log. -/
structure Fits (lh : List ℕ) : Prop where
  home : ∀ b ∈ lh, G.Home b
  nodup : lh.Nodup
  room : lh.length + 1 ≤ G.size
  cap : lh.length ≤ LOGSIZE

variable {G} {d c : Disk} {lh : List ℕ} {b : ℕ}

theorem fits_nil : Fits G [] :=
  ⟨fun _ h => absurd h List.not_mem_nil, List.nodup_nil, G.size_pos, Nat.zero_le _⟩

theorem start_not_home : ¬ G.Home G.start := by
  have := G.size_pos
  unfold Geometry.Home
  omega

theorem Fits.slot_not_home (hf : Fits G lh) {j : ℕ} (hj : j < lh.length) :
    ¬ G.Home (G.start + j + 1) := by
  have := hf.room
  unfold Geometry.Home
  omega

theorem Fits.getD_home (hf : Fits G lh) {j : ℕ} (hj : j < lh.length) : G.Home (lh.getD j 0) := by
  rw [List.getD_eq_getElem _ _ hj]
  exact hf.home _ (List.getElem_mem hj)

theorem Fits.readHeader_writeHeader (hf : Fits G lh) (hb : Block) :
    readHeader (writeHeader hb lh) = lh := by
  have := hf.cap
  unfold LOGSIZE MAXOPBLOCKS at this
  exact Log.readHeader_writeHeader hb (by omega) fun b hb => (hf.home b hb).2

theorem ne_of_home (hb : G.Home b) {a : ℕ} (ha : ¬ G.Home a) : b ≠ a :=
  fun e => ha (e ▸ hb)

theorem getD_idxOf (hb : b ∈ lh) : lh.getD (lh.idxOf b) 0 = b := by
  rw [List.getD_eq_getElem _ _ (List.idxOf_lt_length_of_mem hb), List.getElem_idxOf]

theorem image_of_header_nil (h : readHeader (d G.start) = []) : image G d b = d b := by
  unfold image
  rw [h, if_neg List.not_mem_nil]

/-- A header written over complete copies puts those copies in the place of the home blocks. -/
theorem image_header (hh : readHeader (d G.start) = lh)
    (hlog : ∀ j < lh.length, d (G.start + j + 1) = c (lh.getD j 0))
    (hrest : b ∉ lh → d b = c b) : image G d b = c b := by
  unfold image
  rw [hh]
  split_ifs with hb
  · rw [hlog _ (List.idxOf_lt_length_of_mem hb), getD_idxOf hb]
  · exact hrest hb

/-- Copying a block home does not change what recovery makes of the disk. -/
theorem image_install (hf : Fits G lh) (hh : readHeader (d G.start) = lh) {j : ℕ}
    (hj : j < lh.length) (v : Block) :
    readHeader (Function.update d (lh.getD j 0) v G.start) = lh ∧
    (G.Home b → image G (Function.update d (lh.getD j 0) v) b = image G d b) := by
  have hhome := hf.getD_home hj
  have hstart : Function.update d (lh.getD j 0) v G.start = d G.start :=
    Function.update_of_ne (ne_of_home hhome start_not_home).symm _ _
  refine ⟨by rw [hstart, hh], fun _ => ?_⟩
  unfold image
  rw [hstart, hh]
  split_ifs with hb
  · have hslot := hf.slot_not_home (List.idxOf_lt_length_of_mem hb)
    exact Function.update_of_ne (ne_of_home hhome hslot).symm _ _
  · refine Function.update_of_ne (fun e => hb ?_) _ _
    rw [e, List.getD_eq_getElem _ _ hj]
    exact List.getElem_mem hj

/-- When every copy is home, the header is no longer needed. -/
theorem image_installed (hh : readHeader (d G.start) = lh)
    (hinst : ∀ j < lh.length, d (lh.getD j 0) = d (G.start + j + 1)) : image G d b = d b := by
  unfold image
  rw [hh]
  split_ifs with hb
  · rw [← hinst _ (List.idxOf_lt_length_of_mem hb), getD_idxOf hb]
  · rfl

end Xv6.Log
