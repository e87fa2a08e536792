import Xv6.Sha256.Correct

/-!
# The user program `sha256`

The program reads the file into a buffer of 10000 bytes, one `read` after the other, each into the start
of the buffer; it replaces the last byte of what it has read by a null byte, and in the end hashes the
string in the buffer.  The buffer is on the stack, which has one page (`USERSTACK`), with a page below it
that cannot be accessed: `room` is the number of bytes of the buffer that lie below that page, and a
`read` of more bytes fails.  With a large enough stack `room` is 10000 or more.

What is hashed is what the last `read` of a nonempty part has left: the bytes after the last multiple of
10000.
-/

namespace Xv6.Sha256

/-- `sizeof(buffer)` -/
def BUFSIZE : ℕ := 10000

/-- What the program prints. -/
inductive Out
  /-- "Usage: %s <filename>\n" -/
  | usage
  /-- "Error: cannot open file %s\n" -/
  | cannotOpen
  /-- `write(1, buffer, bytesRead - 1)` -/
  | write (bytes : List U8)
  /-- "Error: reading file %s\n" -/
  | readError
  /-- "\nSHA-256 hash =  %s\n" -/
  | hash (digits : List Char)
  /-- "Computation in Ticks =  %d\n" -/
  | ticks (n : ℤ)
  deriving DecidableEq

/-- `read(fd, buffer, n)` at offset `off` of a file: the result and the buffer.  `copyout` fails if it has
to write behind the first `room` bytes; the program does not look at the buffer in that case. -/
def read (content : List U8) (room off n : ℕ) (buffer : List U8) : ℤ × List U8 :=
  let k := min n (content.length - off)
  if k ≤ room then (k, (content.drop off).take k ++ buffer.drop k) else (-1, buffer)

/-- The loop that reads the file.  Every pass but the last reads at least one byte, so that there are at
most `content.length + 1` of them. -/
def readLoop (content : List U8) (room : ℕ) : ℕ → ℕ → List U8 → List Out → ℤ × List U8 × List Out
  | 0, _, buffer, out => (0, buffer, out)
  | fuel + 1, off, buffer, out =>
    let r := read content room off BUFSIZE buffer
    let bytesRead := r.1.toNat
    if r.1 > 0 then
      let buffer := r.2.set (bytesRead - 1) 0
      readLoop content room fuel (off + bytesRead) buffer (out ++ [.write (buffer.take (bytesRead - 1))])
    else (r.1, r.2, out)

def strlen (s : List U8) : ℕ := (s.takeWhile (· ≠ 0)).length

/-- The loop that fills `hex_output`. -/
def hexOutput (hash : Vector U8 32) : List Char :=
  hash.toList.flatMap fun b => [(byteToHex b).1, (byteToHex b).2]

/-- What `main` prints, and its exit status.  `file` is the content of the file if it can be opened;
`buffer`, `ctx` and `hash` are the local variables, which have any values at the beginning. -/
def main (argc : ℕ) (file : Option (List U8)) (room : ℕ) (buffer : List U8) (ctx : Ctx) (hash : Vector U8 32)
    (finalTime : ℤ) : List Out × ℕ :=
  if argc ≠ 2 then ([.usage], 1)
  else match file with
    | none => ([.cannotOpen], 1)
    | some content =>
      let r := readLoop content room (content.length + 1) 0 buffer []
      if r.1 < 0 then (r.2.2 ++ [.readError], 1)
      else
        let buffer := r.2.1
        let ctx := sha256Update (sha256Init ctx) buffer (BitVec.ofNat 32 (strlen buffer))
        let hash := (sha256Final ctx hash).2
        (r.2.2 ++ [.hash (hexOutput hash), .ticks finalTime], 0)

/-! ## Hexadecimal digits -/

/-- The two lower-case hexadecimal digits of each byte. -/
def hex (bytes : List U8) : List Char :=
  bytes.flatMap fun b => [Nat.digitChar (b.toNat / 16), Nat.digitChar (b.toNat % 16)]

theorem byteToHex_eq (b : U8) : byteToHex b = (Nat.digitChar (b.toNat / 16), Nat.digitChar (b.toNat % 16)) := by
  have hall : ∀ n < 256, byteToHex (BitVec.ofNat 8 n) = (Nat.digitChar (n / 16), Nat.digitChar (n % 16)) := by
    decide +kernel
  have := hall b.toNat b.isLt
  rwa [BitVec.ofNat_toNat, BitVec.setWidth_eq] at this

theorem hexOutput_eq (hash : Vector U8 32) : hexOutput hash = hex hash.toList := by
  simp only [hexOutput, hex, byteToHex_eq]

theorem digitChar_inj : ∀ a < 16, ∀ b < 16, Nat.digitChar a = Nat.digitChar b → a = b := by
  decide +kernel

theorem hex_inj : ∀ {l l' : List U8}, hex l = hex l' → l = l'
  | [], [], _ => rfl
  | [], _ :: _, h => by simp [hex] at h
  | _ :: _, [], h => by simp [hex] at h
  | a :: l, b :: l', h => by
    have ha := a.isLt
    have hb := b.isLt
    simp only [hex, List.flatMap_cons, List.cons_append, List.nil_append, List.cons.injEq] at h
    obtain ⟨h₁, h₂, h₃⟩ := h
    have hdiv := digitChar_inj _ (by omega) _ (by omega) h₁
    have hmod := digitChar_inj _ (by omega) _ (by omega) h₂
    rw [BitVec.eq_of_toNat_eq (by omega : a.toNat = b.toNat), hex_inj h₃]

/-! ## The string in the buffer -/

theorem takeWhile_string {s rest : List U8} (hs : 0 ∉ s) : (s ++ 0 :: rest).takeWhile (· ≠ 0) = s := by
  rw [List.takeWhile_append_of_pos, List.takeWhile_cons_of_neg (by simp), List.append_nil]
  intro x hx
  exact decide_eq_true fun h0 => hs (h0 ▸ hx)

/-- The text that the program hashes. -/
def hashed (s : List U8) : List U8 := s.drop (BUFSIZE * (s.length / BUFSIZE))

theorem length_hashed (s : List U8) : (hashed s).length < 10000 := by
  rw [hashed, List.length_drop]
  change s.length - 10000 * (s.length / 10000) < 10000
  omega

theorem hashed_of_lt {s : List U8} (h : s.length < 10000) : hashed s = s := by
  have : s.length / BUFSIZE = 0 := Nat.div_eq_of_lt h
  rw [hashed, this, Nat.mul_zero, List.drop_zero]

variable {s : List U8} {room : ℕ}

theorem readLoop_succ {content : List U8} {off k : ℕ} (hk : min BUFSIZE (content.length - off) = k) (hpos : 0 < k)
    (hroom : k ≤ room) (fuel : ℕ) (buffer : List U8) (out : List Out) :
    readLoop content room (fuel + 1) off buffer out =
      readLoop content room fuel (off + k) (((content.drop off).take k ++ buffer.drop k).set (k - 1) 0)
        (out ++ [.write ((((content.drop off).take k ++ buffer.drop k).set (k - 1) 0).take (k - 1))]) := by
  have hread : read content room off BUFSIZE buffer = ((k : ℤ), (content.drop off).take k ++ buffer.drop k) := by
    rw [read, hk]
    exact if_pos hroom
  rw [readLoop]
  simp only [hread, Int.toNat_natCast]
  exact if_pos (Int.natCast_pos.2 hpos)

theorem readLoop_end {content : List U8} {off : ℕ} (h : content.length ≤ off) (fuel : ℕ) (buffer : List U8)
    (out : List Out) : readLoop content room fuel off buffer out = (0, buffer, out) := by
  cases fuel with
  | zero => rfl
  | succ fuel =>
    have hread : read content room off BUFSIZE buffer = (0, buffer) := by
      rw [read, Nat.sub_eq_zero_of_le h, Nat.min_zero, if_pos (Nat.zero_le _)]
      rfl
    rw [readLoop, hread]
    rfl

/-- The loop from a multiple of 10000 on, when no `read` fails.  It leaves in the buffer the rest of the file, with
a null byte for the newline. -/
theorem readLoop_string (hroom : min 10000 (s.length + 1) ≤ room) (fuel : ℕ) :
    ∀ (i : ℕ) (buffer : List U8) (out : List Out), 10000 * i ≤ s.length → s.length + 1 ≤ 10000 * i + fuel →
      ∃ rest out', readLoop (s ++ [0x0a]) room fuel (10000 * i) buffer out = (0, hashed s ++ 0 :: rest, out') ∧
        ∀ o ∈ out', o ∈ out ∨ ∃ b, o = .write b := by
  have hlen : (s ++ [(0x0a : U8)]).length = s.length + 1 := List.length_append
  induction fuel with
  | zero =>
    intro i buffer out hi hfuel
    omega
  | succ fuel ih =>
    intro i buffer out hi hfuel
    by_cases hlast : s.length < 10000 * (i + 1)
    · -- The last nonempty part.
      obtain ⟨k, hk⟩ : ∃ k, k = s.length - 10000 * i := ⟨_, rfl⟩
      have hread : min BUFSIZE ((s ++ [(0x0a : U8)]).length - 10000 * i) = k + 1 := by
        rw [hlen]
        change min 10000 _ = _
        omega
      have htext : hashed s = s.drop (10000 * i) := by
        rw [hashed, show s.length / BUFSIZE = i from Nat.div_eq_of_lt_le (by rw [Nat.mul_comm]; exact hi)
          (by rw [Nat.mul_comm]; exact hlast)]
        rfl
      have hdrop : (s.drop (10000 * i)).length = k := by rw [List.length_drop, hk]
      have hpart : (((s ++ [(0x0a : U8)]).drop (10000 * i)).take (k + 1) ++ buffer.drop (k + 1)).set k 0 =
          hashed s ++ 0 :: buffer.drop (k + 1) := by
        rw [List.drop_append_of_le_length hi, List.take_of_length_le (by simp [hdrop]), List.append_assoc,
          List.set_append_right _ _ hdrop.le, hdrop, Nat.sub_self, htext]
        rfl
      rw [readLoop_succ hread (Nat.succ_pos k) (by omega), Nat.add_sub_cancel, hpart, readLoop_end (by omega)]
      refine ⟨_, _, rfl, fun o ho => ?_⟩
      obtain ho | ho := List.mem_append.1 ho
      · exact .inl ho
      · exact .inr ⟨_, List.mem_singleton.1 ho⟩
    · have hread : min BUFSIZE ((s ++ [(0x0a : U8)]).length - 10000 * i) = 10000 := by
        rw [hlen]
        change min 10000 _ = _
        omega
      rw [readLoop_succ hread (by decide) (by omega), show 10000 * i + 10000 = 10000 * (i + 1) from rfl]
      obtain ⟨rest, out', hrun, hout⟩ := ih (i + 1) _ _ (by omega) (by omega)
      refine ⟨rest, out', hrun, fun o ho => ?_⟩
      obtain ho | hw := hout o ho
      · obtain ho | ho := List.mem_append.1 ho
        · exact .inl ho
        · exact .inr ⟨_, List.mem_singleton.1 ho⟩
      · exact .inr hw

theorem readLoop_fails (hroom : room < min 10000 (s.length + 1)) (fuel : ℕ) (buffer : List U8) (out : List Out) :
    readLoop (s ++ [0x0a]) room (fuel + 1) 0 buffer out = (-1, buffer, out) := by
  have hread : read (s ++ [0x0a]) room 0 BUFSIZE buffer = (-1, buffer) := by
    rw [read, List.length_append, Nat.sub_zero]
    exact if_neg (not_le.2 hroom)
  rw [readLoop, hread]
  rfl

/-! ## The digest -/

theorem sha256Final_string (ctx : Ctx) (hash : Vector U8 32) {text : List U8} (rest : List U8) (h0 : 0 ∉ text)
    (hlen : text.length < 2 ^ 32) :
    (sha256Final (sha256Update (sha256Init ctx) (text ++ 0 :: rest)
      (BitVec.ofNat 32 (strlen (text ++ 0 :: rest)))) hash).2.toList = Fips.sha256 text := by
  have hfed : Fed (sha256Update (sha256Init ctx) (text ++ 0 :: rest) (BitVec.ofNat 32 text.length)) text := by
    have h := foldl_updateByte_fed (sha256Init_fed ctx) (text ++ 0 :: rest) (n := text.length) (by simp)
    rw [List.take_left, List.nil_append] at h
    rwa [sha256Update, BitVec.toNat_ofNat, Nat.mod_eq_of_lt hlen]
  rw [strlen, takeWhile_string h0, Fips.sha256, ← fed_final hfed (hlen.trans (by norm_num)) hash]
  exact foldl_storeHash _ hash

end Xv6.Sha256
