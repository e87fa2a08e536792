import Xv6.Exec.Atomic

/-!
# The argument stack of a new program

After a successful `exec` the stack page holds the argument strings, the array of pointers to them and
nothing that overlaps; the registers point to the array.  `exec` gives up exactly when the room that the
blocks take with their alignment is more than the stack has, or when something else fails.
-/

namespace Xv6.Exec

open Memory Kernel Vm Sys Runs Stack
open Kalloc (PGSIZE)

/-- The arguments of a program as it finds them: `ps` are the pointers to them, `sp` the stack pointer. -/
structure Arguments (k : Kern) (i : Slot) (strs : List (List (BitVec 8))) (ps : List ℕ) (sp : ℕ) : Prop where
  length : ps.length = strs.length
  aligned : ∀ p ∈ ps ++ [sp], p % 16 = 0
  inside : ∀ p ∈ ps ++ [sp], (k.proc i).sz - USERSTACK * PGSIZE ≤ p ∧ p < (k.proc i).sz
  a1 : Memory.load 8 k.phys.mem ((k.proc i).trapframe + a1Off) = sp
  stackPointer : Memory.load 8 k.phys.mem ((k.proc i).trapframe + spOff) = sp
  pointer : ∀ j (hj : j < (ps ++ [0]).length), Memory.load 8 (userByte k i) (sp + 8 * j) = (ps ++ [0])[j]
  copy : ∀ x ∈ ps.zip strs, ∀ c (hc : c < (x.2 ++ [0]).length), userByte k i (x.1 + c) = (x.2 ++ [0])[c]
  /-- The ranges of the copies and of the array. -/
  disjoint : ((ps ++ [sp]).zip ((strs.map fun str => str.length + 1) ++ [8 * (ps.length + 1)])).Pairwise
    fun x y => x.1 + x.2 ≤ y.1 ∨ y.1 + y.2 ≤ x.1
  /-- The user may use the stack and not the page below. -/
  stack : ∀ x, (k.proc i).sz - USERSTACK * PGSIZE ≤ x → x < (k.proc i).sz →
    leafAt k.phys.mem (k.proc i).pagetable (x / PGSIZE) &&& PTE_U ≠ 0
  guard : leafAt k.phys.mem (k.proc i).pagetable (((k.proc i).sz - (USERSTACK + 1) * PGSIZE) / PGSIZE) &&&
    PTE_U = 0

/-- The room that the strings and the pointers take on the stack. -/
def argumentRoom (strs : List (List (BitVec 8))) : ℕ :=
  (strs.map fun str => roundUp 16 (str.length + 1)).sum + roundUp 16 (8 * (strs.length + 1))

variable {L : Image} {st st' : State} {k : Kern} {i : Slot} {strs : List (List (BitVec 8))} {ps argv : List ℕ}
  {sp : ℕ}

/-! ## The array of pointers -/

theorem getElem_words {ws : List ℕ} {j c : ℕ} (hj : j < ws.length) (hc : c < 8)
    (h : 8 * j + c < (words ws).length) : (words ws)[8 * j + c] = BitVec.ofNat 8 (ws[j] / 256 ^ c) := by
  induction ws generalizing j with
  | nil => simp at hj
  | cons w ws ih =>
    simp only [words, List.flatMap_cons]
    cases j with
    | zero =>
      rw [List.getElem_append_left (by simpa using hc)]
      simp
    | succ j =>
      rw [List.getElem_append_right (by simp; omega)]
      have hj' : j < ws.length := by simpa using hj
      have h' : 8 * j + c < (words ws).length := by
        rw [length_words]
        omega
      have := ih hj' h'
      simp only [words] at this
      simp only [List.length_map, List.length_range, List.getElem_cons_succ, ← this]
      congr 1
      omega

section Stacked

variable (h : Stacked k i (strs.map fun str => str ++ [0]) ps sp)

include h

theorem Stacked.length_eq : ps.length = strs.length := by
  have := h.pushed.length_eq
  simpa using this

theorem Stacked.zip_eq : (ps ++ [sp]).zip ((strs.map fun str => str ++ [0]) ++ [words (ps ++ [0])]) =
    ps.zip (strs.map fun str => str ++ [0]) ++ [(sp, words (ps ++ [0]))] := by
  rw [List.zip_append (by rw [List.length_map, h.length_eq])]
  rfl

theorem Stacked.room_eq : (k.proc i).sz = sp + argumentRoom strs := by
  rw [h.pushed.eq_add_room, room, List.map_append, List.sum_append, argumentRoom, ← h.length_eq]
  simp [length_words, Function.comp_def]

theorem Stacked.lt_size {p : ℕ} (hp : p ∈ ps ++ [sp]) : p < (k.proc i).sz := by
  refine h.pushed.lt_of_mem (by decide) (fun b hb => ?_) p hp
  simp only [List.mem_append, List.mem_map, List.mem_singleton] at hb
  obtain ⟨str, -, rfl⟩ | rfl := hb
  · simp
  · rw [← List.length_pos_iff, length_words]
    simp

theorem Stacked.copy {x : ℕ × List (BitVec 8)} (hx : x ∈ ps.zip strs) {c : ℕ} (hc : c < (x.2 ++ [0]).length) :
    userByte k i (x.1 + c) = (x.2 ++ [0])[c] := by
  have hm : (x.1, x.2 ++ [0]) ∈ ps.zip (strs.map fun str => str ++ [0]) := by
    rw [List.zip_map_right]
    exact List.mem_map.2 ⟨x, hx, rfl⟩
  have hz := List.mem_append_left [(sp, words (ps ++ [0]))] hm
  rw [← h.zip_eq] at hz
  exact ((h.pushed.of_mem_zip (by decide) hz).2 c hc).2

theorem Stacked.pointer {j : ℕ} (hj : j < (ps ++ [0]).length) :
    Memory.load 8 (userByte k i) (sp + 8 * j) = (ps ++ [0])[j] := by
  have hz := List.mem_append_right (ps.zip (strs.map fun str => str ++ [0]))
    (List.mem_singleton_self (sp, words (ps ++ [0])))
  rw [← h.zip_eq] at hz
  have hbyte := (h.pushed.of_mem_zip (by decide) hz).2
  have hlt : (ps ++ [0])[j] < 256 ^ 8 := by
    rcases List.mem_append.1 (List.getElem_mem hj) with hp | hp
    · exact (h.lt_size (List.mem_append_left _ hp)).trans h.size.2.2
    · rw [List.mem_singleton.1 hp]
      decide
  rw [load_of_digits (v := (ps ++ [0])[j]) fun c hc => ?_, Nat.mod_eq_of_lt hlt]
  have hidx : 8 * j + c < (words (ps ++ [0])).length := by
    rw [length_words]
    omega
  rw [add_assoc, (hbyte _ hidx).2, getElem_words hj hc]

/-- The stack is one page, which the user may use. -/
theorem Stacked.stack {x : ℕ} (hlo : (k.proc i).sz - USERSTACK * PGSIZE ≤ x) (hhi : x < (k.proc i).sz) :
    leafAt k.phys.mem (k.proc i).pagetable (x / PGSIZE) &&& PTE_U ≠ 0 := by
  have hz := List.mem_append_right (ps.zip (strs.map fun str => str ++ [0]))
    (List.mem_singleton_self (sp, words (ps ++ [0])))
  rw [← h.zip_eq] at hz
  have hpos : 0 < (words (ps ++ [0])).length := by
    rw [length_words]
    simp
  have hsp := ((h.pushed.of_mem_zip (by decide) hz).2 0 hpos).1
  have hlt := h.lt_size (List.mem_append_right _ (List.mem_singleton_self sp))
  have hsize := h.size
  have hbase := h.base
  have hpage : x / PGSIZE = (sp + 0) / PGSIZE := by
    unfold USERSTACK PGSIZE at *
    omega
  rw [hpage]
  exact hsp

theorem Stacked.disjoint :
    ((ps ++ [sp]).zip ((strs.map fun str => str.length + 1) ++ [8 * (ps.length + 1)])).Pairwise
      fun x y => x.1 + x.2 ≤ y.1 ∨ y.1 + y.2 ≤ x.1 := by
  have hlen : (strs.map fun str => str.length + 1) ++ [8 * (ps.length + 1)] =
      ((strs.map fun str => str ++ [0]) ++ [words (ps ++ [0])]).map List.length := by
    simp [length_words, Function.comp_def]
  rw [hlen, List.zip_map_right, List.pairwise_map]
  exact (h.pushed.pairwise (by decide)).imp fun hxy => .inr hxy

theorem Stacked.arguments : Arguments k i strs ps sp := by
  have hdvd : 16 ∣ (k.proc i).sz := (show 16 ∣ PGSIZE by decide).trans (Nat.dvd_of_mod_eq_zero h.size.2.1)
  have hmod : sp % 2 ^ 64 = sp :=
    Nat.mod_eq_of_lt ((h.lt_size (List.mem_append_right _ (List.mem_singleton_self sp))).trans h.size.2.2)
  constructor
  case length => exact h.length_eq
  case aligned => exact fun p hp => Nat.mod_eq_zero_of_dvd ((h.pushed.dvd hdvd).2 p hp)
  case inside => exact fun p hp => ⟨h.base.trans (h.pushed.le_of_mem p hp), h.lt_size hp⟩
  case a1 => rw [h.entered.a1, hmod]
  case stackPointer => rw [h.entered.sp, hmod]
  case pointer => exact fun j hj => h.pointer hj
  case copy => exact fun x hx c hc => h.copy hx hc
  case disjoint => exact h.disjoint
  case stack => exact fun x hlo hhi => h.stack hlo hhi
  case guard => exact h.guard

end Stacked

/-- `exec` with fewer than `MAXARG` arguments, each shorter than a page, in a state in which the pages of
the arguments are held for the call: when it succeeds the program finds its arguments, and it fails when
they do not fit on the stack. -/
theorem exec_arguments (hk : ∃ own tabs, KernOk L st.kern own tabs (fun _ => 0) argv)
    (hset : ∀ j, Settled (st.kern.proc j)) (hi : (st.kern.proc i).state = .runnable)
    (path : List (BitVec 8)) (file : Option File) (hlock : ∀ f ∈ file, st.ilocked f.ip = false)
    (hlen : argv.length < MAXARG) (hstr : ∀ a ∈ argv, (strAt st.kern.phys.mem a).length < PGSIZE) :
    ∃ res st', exec L i path file argv st = .ok (res, st') ∧ (res = -1 ∨ 0 ≤ res) ∧
      (0 ≤ res → res = argv.length ∧
        ∃ ps sp, Arguments st'.kern i (argv.map (strAt st.kern.phys.mem)) ps sp) ∧
      (USERSTACK * PGSIZE < argumentRoom (argv.map (strAt st.kern.phys.mem)) → res = -1) := by
  obtain ⟨own, tabs, hk⟩ := hk
  obtain ⟨res, st', hrun, -, hstack⟩ := exec_spec hk hset hi path file argv hlock
  refine ⟨res, st', hrun, ?_⟩
  have hargs : Args st.kern.phys.mem own argv := fun a ha => ⟨(hk.roles.held.mem_iff a).2 ha, hstr a ha⟩
  obtain rfl | hstack := hstack
  · exact ⟨.inl rfl, fun h => absurd h (by decide), fun _ => rfl⟩
  obtain ⟨rfl, ps, sp, hs⟩ := hstack hargs hlen
  have hstrs : strings st.kern.phys.mem argv =
      (argv.map (strAt st.kern.phys.mem)).map fun str => str ++ [0] := by
    rw [strings, List.map_map]
    rfl
  rw [hstrs] at hs
  have hroom := hs.room_eq
  have hbase := hs.base
  have hsize := hs.size.1
  refine ⟨.inr (Int.natCast_nonneg _), fun _ => ⟨rfl, ps, sp, hs.arguments⟩, fun hbig => ?_⟩
  unfold USERSTACK PGSIZE at *
  omega

/-! ## An example -/

/-- A program without segments. -/
def emptyProgram : File where
  ip := 3
  read := fun _ n => ([0x7f, 0x45, 0x4c, 0x46] ++ List.replicate 60 0).take n

theorem exec_emptyProgram {r : ℕ} {t u : Phys} {sz argc : ℕ} {res : ℤ} {path : List (BitVec 8)}
    (hrun : exec L i path (some emptyProgram) argv st = .ok (res, st')) (hlock : st.ilocked 3 = false)
    (htable : procPagetable L (st.kern.proc i).trapframe st.kern.phys = .ok (r, t)) (hr : r ≠ 0)
    (hpush : pushStack L r argv 0 t = .ok ((some (sp, argc), sz), u)) : res = argc := by
  have hload : load L i path emptyProgram argv (opened st 3 st.kern) =
      finish L i path argv (field (emptyProgram.read.read 0 64) 24 8) r 0 (closed st { st.kern with phys := t }) := by
    have hpt : phys _ (opened st 3 st.kern) = _ := run_phys_opened htable
    have hsegments : loadLoop L r emptyProgram.read (field (emptyProgram.read.read 0 64) 56 2)
        (field (emptyProgram.read.read 0 64) 32 8 % 2 ^ 32) 0 t = .ok ((true, 0), t) := rfl
    simp only [load]
    rw [if_neg (by decide), if_neg (by decide), run_bind (run_get _), opened_kern, run_bind hpt, if_neg hr,
      run_bind (run_phys_opened hsegments)]
    simp only [if_true]
    exact run_close hlock _ _
  rw [exec_opened path argv hlock, show emptyProgram.ip = 3 from rfl, hload, finish,
    run_bind (run_phys_closed hpush)] at hrun
  simp only [] at hrun
  obtain ⟨_, _, -, hrun⟩ := run_bind_eq_ok hrun
  obtain ⟨_, _, -, hrun⟩ := run_bind_eq_ok hrun
  obtain ⟨_, _, -, hrun⟩ := run_bind_eq_ok hrun
  obtain ⟨_, _, -, hrun⟩ := run_bind_eq_ok hrun
  obtain ⟨_, _, -, hrun⟩ := run_bind_eq_ok hrun
  obtain ⟨_, _, -, hrun⟩ := run_bind_eq_ok hrun
  obtain ⟨_, _, -, hrun⟩ := run_bind_eq_ok hrun
  cases hrun
  rfl

/-- The state in which process 0 of the small machine calls `exec` with the argument `ab`. -/
def calling (k : Kern) : Option (List ℕ × State) :=
  match fetchArgs true [some [97, 98]] [] k.phys with
  | .ok ((true, argv), t) => some (argv, idle { k with phys := t })
  | _ => none

/-- The argument, and the number of arguments on the stack. -/
def callingResult (argv : List ℕ) (st : State) : Option (List (List (BitVec 8)) × ℕ) :=
  match procPagetable smallImage (st.kern.proc ⟨0, nproc_pos⟩).trapframe st.kern.phys with
  | .error _ => none
  | .ok (r, t) =>
    if r = 0 then none
    else match pushStack smallImage r argv 0 t with
      | .ok ((some (_, argc), _), _) => some (argv.map (strAt st.kern.phys.mem), argc)
      | _ => none

/-- A program that is called with one argument. -/
theorem exec_arguments_ab : ∃ k argv st st' ps sp, Booted smallImage k ∧ calling k = some (argv, st) ∧
    exec smallImage ⟨0, by decide⟩ [97] (some emptyProgram) argv st = .ok (1, st') ∧
    Arguments st'.kern ⟨0, by decide⟩ [[97, 98]] ps sp := by
  obtain ⟨k, x, hk, hrun, hP⟩ := exists_of_smallRun [] (fun x =>
    decide ((x.kern.proc ⟨0, by decide⟩).state = .runnable) &&
      (calling x.kern).any fun y => decide (callingResult y.1 y.2 = some ([[97, 98]], 1))) (by decide +kernel)
  obtain rfl : (⟨k, none⟩ : Machine) = x := Option.some.inj hrun
  simp only [Bool.and_eq_true, decide_eq_true_eq, Option.any_eq_true] at hP
  obtain ⟨hi, ⟨argv, st⟩, hcall, hres⟩ := hP
  obtain ⟨⟨own, tabs, hok⟩, hset⟩ := (sound_run hk hrun).good
  obtain ⟨ok, argv', t, own', hfetch, hvm, hl, hframe⟩ := fetchArgs_spec true [some [97, 98]] hok.vm hok.roles.held
  have hcall' := hcall
  rw [calling, hfetch] at hcall'
  cases ok with
  | false => cases hcall'
  | true =>
    obtain ⟨rfl, rfl⟩ := Prod.mk.inj (Option.some.inj hcall')
    have hok' : KernOk smallImage { k with phys := t } own' tabs (fun _ => 0) argv' := hok.hold hvm hl hframe
    rw [callingResult] at hres
    split at hres
    · cases hres
    · next r u htable =>
      split_ifs at hres with hr
      split at hres
      · next sp argc sz v hpush =>
        obtain ⟨hstrs, rfl⟩ := Prod.mk.inj (Option.some.inj hres)
        have hlen : argv'.length = 1 := by
          rw [← List.length_map (strAt _), hstrs]
          rfl
        obtain ⟨res, st', hexec, -, hsucc, -⟩ := exec_arguments ⟨own', tabs, hok'⟩ hset hi [97]
          (some emptyProgram) (fun _ _ => rfl) (by rw [hlen]; decide) fun a ha => by
            have hmem := List.mem_map_of_mem (f := strAt (idle { k with phys := t }).kern.phys.mem) ha
            rw [hstrs, List.mem_singleton] at hmem
            rw [hmem]
            decide
        obtain rfl : res = (1 : ℕ) := exec_emptyProgram hexec rfl htable hr hpush
        obtain ⟨-, ps, sp', hargs⟩ := hsucc (by decide)
        rw [hstrs] at hargs
        exact ⟨k, argv', _, st', ps, sp', hk, hcall, hexec, hargs⟩
      · cases hres

end Xv6.Exec
