import Mathlib

/-!
# `printf`

`printf` of `kernel/printf.c`, which writes to the console, and `vprintf` of `user/printf.c`, which writes to a file
descriptor.  Both return the characters that they write.

A store outside `buf` and an argument of another type than the conversion asks for have no meaning: the result
is `none` then.  `-xx` of the smallest number is that number, as the machine computes it.
-/

namespace Xv6.Printf

def ch (c : Char) : BitVec 8 := BitVec.ofNat 8 c.toNat

/-- `digits` of the kernel. -/
def lower : List (BitVec 8) := "0123456789abcdef".toList.map ch

/-- `digits` of the user library. -/
def upper : List (BitVec 8) := "0123456789ABCDEF".toList.map ch

/-! ## Numbers -/

/-- The size of `buf`. -/
def BUFSIZE : ℕ := 16

/-- `buf[i++] = c`, where `buf` has been filled up to `i`. -/
def put (buf : List (BitVec 8)) (c : BitVec 8) : Option (List (BitVec 8)) :=
  if buf.length < BUFSIZE then some (buf ++ [c]) else none

/-- The loop that stores the digits of `x`, the last one first. -/
def digitLoop (digits : List (BitVec 8)) (base : ℕ) : ℕ → ℕ → List (BitVec 8) → Option (List (BitVec 8))
  | 0, _, _ => none
  | fuel + 1, x, buf => do
    let buf ← put buf (digits.getD (x % base) 0)
    if x / base ≠ 0 then digitLoop digits base fuel (x / base) buf else some buf

/-- `printint`, whose argument is a `long long` in the kernel and an `int` in the user library. -/
def printint {w : ℕ} (digits : List (BitVec 8)) (xx : BitVec w) (base : ℕ) (sign : Bool) : Option (List (BitVec 8)) := do
  let neg := sign && decide (xx.toInt < 0)
  let x := if neg then -xx else xx
  -- One more round than `buf` has room for.
  let buf ← digitLoop digits base (BUFSIZE + 1) x.toNat []
  let buf ← if neg then put buf (ch '-') else some buf
  some buf.reverse

/-- The loop of `printptr`. -/
def ptrLoop (digits : List (BitVec 8)) : ℕ → BitVec 64 → List (BitVec 8)
  | 0, _ => []
  | n + 1, x => digits.getD (x >>> 60).toNat 0 :: ptrLoop digits n (x <<< 4)

def printptr (digits : List (BitVec 8)) (x : BitVec 64) : List (BitVec 8) := ch '0' :: ch 'x' :: ptrLoop digits 16 x

/-! ## Conversions -/

inductive NumFormat
  | d
  | u
  | x
  deriving DecidableEq

def NumFormat.base : NumFormat → ℕ
  | .d => 10
  | .u => 10
  | .x => 16

def NumFormat.sign : NumFormat → Bool
  | .d => true
  | .u => false
  | .x => false

/-- A conversion that takes an argument; a number has none, one or two `l`. -/
inductive Conv
  | num (f : NumFormat) (ls : Fin 3)
  | ptr
  | str
  deriving DecidableEq

/-- An argument: an `int`, a number of 64 bits, a pointer or a string, where the null pointer is `none`. -/
inductive Arg
  | int (v : BitVec 32)
  | long (v : BitVec 64)
  | ptr (v : BitVec 64)
  | str (s : Option (List (BitVec 8)))

/-- What the characters behind a `%` ask for. -/
inductive Directive
  /-- A conversion, and how many characters it has behind the first one. -/
  | conv (k : Conv) (skip : ℕ)
  | percent
  | unknown
  deriving DecidableEq

/-- The tests on `c0`, `c1` and `c2`, which are the same in both functions. -/
def directive (c0 c1 c2 : BitVec 8) : Directive :=
  if c0 = ch 'd' then .conv (.num .d 0) 0
  else if c0 = ch 'l' ∧ c1 = ch 'd' then .conv (.num .d 1) 1
  else if c0 = ch 'l' ∧ c1 = ch 'l' ∧ c2 = ch 'd' then .conv (.num .d 2) 2
  else if c0 = ch 'u' then .conv (.num .u 0) 0
  else if c0 = ch 'l' ∧ c1 = ch 'u' then .conv (.num .u 1) 1
  else if c0 = ch 'l' ∧ c1 = ch 'l' ∧ c2 = ch 'u' then .conv (.num .u 2) 2
  else if c0 = ch 'x' then .conv (.num .x 0) 0
  else if c0 = ch 'l' ∧ c1 = ch 'x' then .conv (.num .x 1) 1
  else if c0 = ch 'l' ∧ c1 = ch 'l' ∧ c2 = ch 'x' then .conv (.num .x 2) 2
  else if c0 = ch 'p' then .conv .ptr 0
  else if c0 = ch 's' then .conv .str 0
  else if c0 = ch '%' then .percent
  else .unknown

/-- What is printed for a string. -/
def string (s : Option (List (BitVec 8))) : List (BitVec 8) := s.getD ("(null)".toList.map ch)

/-- A conversion of the kernel: an `int` is extended to a `long long`, with its sign. -/
def kernelConv : Conv → Arg → Option (List (BitVec 8))
  | .num f 0, .int v => printint lower (v.signExtend 64) f.base f.sign
  | .num f 1, .long v => printint lower v f.base f.sign
  | .num f 2, .long v => printint lower v f.base f.sign
  | .ptr, .ptr v => some (printptr lower v)
  | .str, .str s => some (string s)
  | _, _ => none

/-- A conversion of the user library: a number of 64 bits is cut to an `int`. -/
def userConv : Conv → Arg → Option (List (BitVec 8))
  | .num f 0, .int v => printint upper v f.base f.sign
  | .num f 1, .long v => printint upper (v.setWidth 32) f.base f.sign
  | .num f 2, .long v => printint upper (v.setWidth 32) f.base f.sign
  | .ptr, .ptr v => some (printptr upper v)
  | .str, .str s => some (string s)
  | _, _ => none

/-! ## Format strings -/

/-- `c1` and `c2`: they are not read behind the end of the string. -/
def lookahead (fmt : List (BitVec 8)) : BitVec 8 × BitVec 8 :=
  let c0 := fmt.getD 0 0
  let c1 := if c0 ≠ 0 then fmt.getD 1 0 else 0
  let c2 := if c1 ≠ 0 then fmt.getD 2 0 else 0
  (c1, c2)

/-- The loop of the kernel's `printf` from a position of the format on. -/
def printfLoop : ℕ → List (BitVec 8) → List Arg → Option (List (BitVec 8))
  | 0, _, _ => none
  | fuel + 1, fmt, ap =>
    let cx := fmt.getD 0 0
    if cx = 0 then some []
    else if cx ≠ ch '%' then (cx :: ·) <$> printfLoop fuel (fmt.drop 1) ap
    else
      let fmt := fmt.drop 1
      let c0 := fmt.getD 0 0
      match directive c0 (lookahead fmt).1 (lookahead fmt).2, ap with
      | .conv _ _, [] => none
      | .conv k skip, a :: ap => do
        let out ← kernelConv k a
        (out ++ ·) <$> printfLoop fuel (fmt.drop (skip + 1)) ap
      | .percent, ap => (ch '%' :: ·) <$> printfLoop fuel (fmt.drop 1) ap
      | .unknown, ap =>
        if c0 = 0 then some []
        else (ch '%' :: c0 :: ·) <$> printfLoop fuel (fmt.drop 1) ap

/-- The kernel's `printf`. -/
def printf (fmt : List (BitVec 8)) (ap : List Arg) : Option (List (BitVec 8)) := printfLoop (fmt.length + 1) fmt ap

/-- The loop of `vprintf`; `state` says that a `%` has been read. -/
def vprintfLoop : ℕ → Bool → List (BitVec 8) → List Arg → Option (List (BitVec 8))
  | 0, _, _, _ => none
  | fuel + 1, state, fmt, ap =>
    let c0 := fmt.getD 0 0
    if c0 = 0 then some []
    else if !state then
      if c0 = ch '%' then vprintfLoop fuel true (fmt.drop 1) ap
      else (c0 :: ·) <$> vprintfLoop fuel false (fmt.drop 1) ap
    else
      match directive c0 (lookahead fmt).1 (lookahead fmt).2, ap with
      | .conv _ _, [] => none
      | .conv k skip, a :: ap => do
        let out ← userConv k a
        (out ++ ·) <$> vprintfLoop fuel false (fmt.drop (skip + 1)) ap
      | .percent, ap => (ch '%' :: ·) <$> vprintfLoop fuel false (fmt.drop 1) ap
      | .unknown, ap => (ch '%' :: c0 :: ·) <$> vprintfLoop fuel false (fmt.drop 1) ap

/-- The user library's `vprintf`. -/
def vprintf (fmt : List (BitVec 8)) (ap : List Arg) : Option (List (BitVec 8)) := vprintfLoop (fmt.length + 1) false fmt ap

example : printf ("%d, 0x%lx, %s%%".toList.map ch) [.int (-5), .long 0xbeef, .str (some [ch 'a'])] =
    some ("-5, 0xbeef, a%".toList.map ch) := by decide

example : vprintf ("%d, 0x%lx, %s%%".toList.map ch) [.int (-5), .long 0xbeef, .str (some [ch 'a'])] =
    some ("-5, 0xBEEF, a%".toList.map ch) := by decide

end Xv6.Printf
