import Xv6.Sha256.Main
import Xv6.Vm.UserCopy
import Xv6.Printf.Code

/-!
# The system call `get_sha256`

`sys_get_sha256` of `kernel/sysproc.c` copies a string of at most 99 characters from the user, hashes it with the code of
`kernel/sha256.c` and prints the digest with the kernel's `printf`.  The result is what it returns and what it
prints.

`copyinstr` writes each byte to the destination when it has read it, so that what it has written is also what it
has read.
-/

namespace Xv6.Sha256

open Kernel Memory Vm

/-- `sizeof(input)` -/
def INPUTSIZE : ℕ := 100

/-- A buffer of which the first bytes have been written. -/
def overwrite (bytes buf : List U8) : List U8 := bytes ++ buf.drop bytes.length

/-- `fetchstr`, with the buffer after it. -/
def fetchstr (pagetable addr : ℕ) (buf : List U8) (max : ℕ) : K (ℤ × List U8) := do
  let (res, bytes) ← copyinstr pagetable addr max
  let buf := overwrite bytes buf
  if res < 0 then pure (-1, buf) else pure (strlen buf, buf)

/-- `sys_get_sha256`, whose argument is the address in `a0`.  The local variables have any values at the
beginning. -/
def sysGetSha256 (pagetable a0 : ℕ) (input : List U8) (ctx : Ctx) (hash : Vector U8 32) : K (ℤ × Option (List U8)) := do
  let (res, input) ← fetchstr pagetable a0 input INPUTSIZE
  if res < 0 then pure (-1, Printf.printf ("Failed to retrieve input\n".toList.map Printf.ch) [])
  else
    let ctx := sha256Update (sha256Init ctx) input (BitVec.ofNat 32 (strlen input))
    let hash := (sha256Final ctx hash).2
    let hex := (hexOutput hash).map Printf.ch ++ [0]
    pure (0, Printf.printf ("SHA-256 hash: %s\n".toList.map Printf.ch) [.str (some (hex.takeWhile (· ≠ 0)))])

variable {s : Phys} {r va k : ℕ} {T : Tree} {input : List U8}

/-- The byte of the user at `va + i`. -/
def userByte (s : Phys) (r va i : ℕ) : U8 := s.mem (physAddr s r (wrap va i))

/-- The user's string at `va` has `k` characters, with its null less than 100, and can be read. -/
structure UserString (s : Phys) (r va k : ℕ) : Prop where
  lt : k < INPUTSIZE
  readable : ∀ i ≤ k, Readable s r (wrap va i)
  before : ∀ i < k, userByte s r va i ≠ 0
  null : userByte s r va k = 0

/-- The characters of the string. -/
def userString (s : Phys) (r va k : ℕ) : List U8 := (List.range k).map (userByte s r va)

theorem zero_notMem_userString (h : ∀ i < k, userByte s r va i ≠ 0) : (0 : U8) ∉ userString s r va k := by
  intro hmem
  obtain ⟨i, hi, h0⟩ := List.mem_map.1 hmem
  exact h i (List.mem_range.1 hi) h0

theorem readable_pages (h : AddressSpace s.mem r T) (hva : va < 2 ^ 64) :
    (∀ i ≤ k, Readable s r (wrap va i)) ↔ ∀ i ≤ k, UserPage T ((va + i) / 4096) := by
  have := forall_wrap_iff (fun a (ha : Readable s r a) => ha.1) hva (n := k + 1)
  simp only [Nat.lt_succ_iff] at this
  rw [this]
  simp only [h.readable_iff]

theorem userByte_eq (h : AddressSpace s.mem r T) {i : ℕ} (hu : UserPage T ((va + i) / 4096)) :
    userByte s r va i = s.mem (T.phys (va + i)) := by
  have hlt := div_maxva.1 hu.1
  rw [userByte, wrap, Nat.mod_eq_of_lt (by unfold MAXVA at hlt; omega), h.physAddr_eq hu]

theorem UserString.unique {k' : ℕ} (h : UserString s r va k) (h' : UserString s r va k') : k = k' := by
  obtain hlt | heq | hlt := lt_trichotomy k k'
  · exact absurd h.null (h'.before k hlt)
  · exact heq
  · exact absurd h'.null (h.before k' hlt)

theorem length_overwrite {bytes : List U8} (hle : bytes.length ≤ input.length) : (overwrite bytes input).length = input.length := by
  rw [overwrite, List.length_append, List.length_drop]
  omega

theorem fetchstr_run (h : AddressSpace s.mem r T) (hva : va < 2 ^ 64) (hinput : input.length = INPUTSIZE) :
    (∀ k, UserString s r va k → fetchstr r va input INPUTSIZE s =
      .ok ((k, overwrite (userString s r va k ++ [0]) input), s)) ∧
    ((¬ ∃ k, UserString s r va k) → ∃ buf, buf.length = INPUTSIZE ∧ fetchstr r va input INPUTSIZE s = .ok ((-1, buf), s)) := by
  obtain ⟨res, bytes, hrun, hlen, hres⟩ := h.copyinstrLoop INPUTSIZE va INPUTSIZE [] le_rfl
  rw [List.nil_append] at hrun
  have hfetch : fetchstr r va input INPUTSIZE s = if res < 0 then .ok ((-1, overwrite bytes input), s) else
      .ok ((strlen (overwrite bytes input), overwrite bytes input), s) := by
    rw [fetchstr, run_bind (show copyinstr r va INPUTSIZE s = _ from hrun)]
    dsimp only
    split_ifs <;> rfl
  obtain ⟨rfl, k, hk, rfl⟩ | ⟨rfl, hnone⟩ := hres
  · have hpages := (readable_pages h hva).2 hk.page
    have hstring : UserString s r va k := by
      refine ⟨hk.lt, hpages, fun i hi => ?_, ?_⟩
      · rw [userByte_eq h (hk.page i hi.le)]
        exact hk.before i hi
      · rw [userByte_eq h (hk.page k le_rfl)]
        exact hk.null
    refine ⟨fun k' hk' => ?_, fun hno => absurd ⟨k, hstring⟩ hno⟩
    obtain rfl := hstring.unique hk'
    have hbytes : (List.range (k + 1)).map (fun i => s.mem (T.phys (va + i))) = userString s r va k ++ [0] := by
      rw [List.range_succ, List.map_append, List.map_singleton, hk.null]
      refine congrArg (· ++ [(0 : U8)]) (List.map_congr_left fun i hi => ?_)
      exact (userByte_eq h (hk.page i (List.mem_range.1 hi).le)).symm
    rw [hfetch, if_neg (by decide), hbytes]
    have hstrlen : strlen (overwrite (userString s r va k ++ [0]) input) = k := by
      rw [strlen, overwrite, List.append_assoc, List.singleton_append, takeWhile_string (zero_notMem_userString hstring.before),
        userString, List.length_map, List.length_range]
    rw [hstrlen]
  · refine ⟨fun k hk => ?_, fun _ => ⟨overwrite bytes input, ?_, by rw [hfetch, if_pos (by decide)]⟩⟩
    · have hpages := (readable_pages h hva).1 hk.readable
      refine absurd ?_ (hnone k hk.lt hpages)
      rw [← userByte_eq h (hpages k le_rfl)]
      exact hk.null
    · rw [length_overwrite (by omega), hinput]

/-- The stores of `sha256_update` and `sha256_final` at `datalen` are inside `ctx.data`. -/
theorem datalen_lt (ctx : Ctx) (data : List U8) {n : ℕ} (hn : n ≤ data.length) (hlt : n < 2 ^ 32) :
    (sha256Update (sha256Init ctx) data (BitVec.ofNat 32 n)).datalen < 64 := by
  have hfed := foldl_updateByte_fed (sha256Init_fed ctx) data hn
  rw [sha256Update, BitVec.toNat_ofNat, Nat.mod_eq_of_lt hlt, hfed.datalen]
  exact Nat.mod_lt _ (by decide)

theorem hex_ne_null (bytes : List U8) : (0 : U8) ∉ (hex bytes).map Printf.ch := by
  have hdigit : ∀ d < 16, Printf.ch (Nat.digitChar d) ≠ 0 := by decide
  intro h
  obtain ⟨c, hc, h0⟩ := List.mem_map.1 h
  obtain ⟨b, -, hc⟩ := List.mem_flatMap.1 hc
  have hb := b.isLt
  simp only [List.mem_cons, List.not_mem_nil, or_false] at hc
  obtain rfl | rfl := hc
  · exact hdigit _ (by omega) h0
  · exact hdigit _ (by omega) h0

theorem printf_digest (text : List U8) : Printf.printf ("SHA-256 hash: %s\n".toList.map Printf.ch) [.str (some text)] =
    some ("SHA-256 hash: ".toList.map Printf.ch ++ text ++ [Printf.ch '\n']) := by
  rfl

/-- For every address space and every pointer of 64 bits: if a null is among the first 100 bytes and all bytes up to it are
readable, the call prints the digest of the characters before the null and returns 0, and otherwise it prints no digest
and returns -1.  Memory does not change, what is read is the string with its null, and all stores are inside the local
arrays. -/
theorem get_sha256 (h : AddressSpace s.mem r T) (hva : va < 2 ^ 64) (hinput : input.length = INPUTSIZE) (ctx : Ctx)
    (hash : Vector U8 32) :
    (∀ k, UserString s r va k →
      sysGetSha256 r va input ctx hash s = .ok ((0, some ("SHA-256 hash: ".toList.map Printf.ch ++
        (hex (Fips.sha256 (userString s r va k))).map Printf.ch ++ [Printf.ch '\n'])), s) ∧
      fetchstr r va input INPUTSIZE s = .ok ((k, overwrite (userString s r va k ++ [0]) input), s) ∧
      (overwrite (userString s r va k ++ [0]) input).length = INPUTSIZE ∧
      (∀ j ≤ k, (sha256Update (sha256Init ctx) (overwrite (userString s r va k ++ [0]) input) (BitVec.ofNat 32 j)).datalen < 64) ∧
      ∀ hash, (hexOutput hash).length + 1 = 65) ∧
    ((¬ ∃ k, UserString s r va k) →
      sysGetSha256 r va input ctx hash s = .ok ((-1, some ("Failed to retrieve input\n".toList.map Printf.ch)), s) ∧
      ∃ buf, fetchstr r va input INPUTSIZE s = .ok ((-1, buf), s) ∧ buf.length = INPUTSIZE) := by
  obtain ⟨hfound, hnone⟩ := fetchstr_run h hva hinput
  refine ⟨fun k hk => ?_, fun hno => ?_⟩
  · have hlen : (userString s r va k).length = k := by rw [userString, List.length_map, List.length_range]
    have hk100 : k < 100 := hk.lt
    have hbuf : (overwrite (userString s r va k ++ [0]) input).length = INPUTSIZE := by
      rw [length_overwrite, hinput]
      rw [List.length_append, hlen, hinput]
      exact hk.lt
    refine ⟨?_, hfound k hk, hbuf, fun j hj => ?_, fun hash => ?_⟩
    · have hdigest := sha256Final_string ctx hash (input.drop (userString s r va k ++ [0]).length)
        (zero_notMem_userString hk.before) (by omega)
      rw [sysGetSha256, run_bind (hfound k hk)]
      dsimp only
      rw [if_neg (by omega), overwrite, List.append_assoc, List.singleton_append, hexOutput_eq, hdigest,
        takeWhile_string (hex_ne_null _), printf_digest]
      rfl
    · exact datalen_lt ctx _ (by rw [hbuf]; exact hj.trans hk.lt.le) (by omega)
    · simp [hexOutput]
  · obtain ⟨buf, hlen, hrun⟩ := hnone hno
    refine ⟨?_, buf, hrun, hlen⟩
    rw [sysGetSha256, run_bind hrun]
    rfl

/-- The empty string, two bytes before the end of the page. -/
theorem get_sha256_onePage : sysGetSha256 0x80001000 0x1ffe (.replicate 100 0xff) ⟨.replicate 64 0, 0, 0, .replicate 8 0⟩
    (.replicate 32 0) onePage = .ok ((0, some ("SHA-256 hash: ".toList.map Printf.ch ++
      (hex (Fips.sha256 [])).map Printf.ch ++ [Printf.ch '\n'])), onePage) := by
  have hpage : UserPage onePageTree ((0x1ffe + 0) / 4096) := by decide +kernel
  have hstring : UserString onePage 0x80001000 0x1ffe 0 := by
    refine ⟨by decide, fun i hi => ?_, fun i hi => absurd hi (Nat.not_lt_zero i), ?_⟩
    · obtain rfl : i = 0 := by omega
      exact onePage_space.readable_iff.2 hpage
    · rw [userByte_eq onePage_space hpage]
      decide +kernel
  exact ((get_sha256 onePage_space (by decide) rfl _ _).1 0 hstring).1

end Xv6.Sha256
