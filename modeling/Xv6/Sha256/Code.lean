import Xv6.Lib.CArray

/-!
# The streaming SHA-256 of the kernel and of the user program

`kernel/sha256.c` and the first half of `user/sha256.c` are the same code: a context with a 64-byte
buffer, filled one byte at a time, and a compression function over it.  The unsigned types keep
their widths; `datalen`, `i` and `j`, which index arrays of at most 64 elements, are naturals.
-/

namespace Xv6.Sha256

open CArray

abbrev U8 := BitVec 8

abbrev U32 := BitVec 32

abbrev U64 := BitVec 64

def rotRight (a : U32) (b : ℕ) : U32 := (a >>> b) ||| (a <<< (32 - b))

def ch (x y z : U32) : U32 := (x &&& y) ^^^ (~~~x &&& z)

def maj (x y z : U32) : U32 := (x &&& y) ^^^ (x &&& z) ^^^ (y &&& z)

def ep0 (x : U32) : U32 := rotRight x 2 ^^^ rotRight x 13 ^^^ rotRight x 22

def ep1 (x : U32) : U32 := rotRight x 6 ^^^ rotRight x 11 ^^^ rotRight x 25

def sig0 (x : U32) : U32 := rotRight x 7 ^^^ rotRight x 18 ^^^ (x >>> 3)

def sig1 (x : U32) : U32 := rotRight x 17 ^^^ rotRight x 19 ^^^ (x >>> 10)

/-- The table `k[64]`. -/
def k : Vector U32 64 := #v[
  0x428a2f98, 0x71374491, 0xb5c0fbcf, 0xe9b5dba5, 0x3956c25b, 0x59f111f1, 0x923f82a4, 0xab1c5ed5,
  0xd807aa98, 0x12835b01, 0x243185be, 0x550c7dc3, 0x72be5d74, 0x80deb1fe, 0x9bdc06a7, 0xc19bf174,
  0xe49b69c1, 0xefbe4786, 0x0fc19dc6, 0x240ca1cc, 0x2de92c6f, 0x4a7484aa, 0x5cb0a9dc, 0x76f988da,
  0x983e5152, 0xa831c66d, 0xb00327c8, 0xbf597fc7, 0xc6e00bf3, 0xd5a79147, 0x06ca6351, 0x14292967,
  0x27b70a85, 0x2e1b2138, 0x4d2c6dfc, 0x53380d13, 0x650a7354, 0x766a0abb, 0x81c2c92e, 0x92722c85,
  0xa2bfe8a1, 0xa81a664b, 0xc24b8b70, 0xc76c51a3, 0xd192e819, 0xd6990624, 0xf40e3585, 0x106aa070,
  0x19a4c116, 0x1e376c08, 0x2748774c, 0x34b0bcb5, 0x391c0cb3, 0x4ed8aa4a, 0x5b9cca4f, 0x682e6ff3,
  0x748f82ee, 0x78a5636f, 0x84c87814, 0x8cc70208, 0x90befffa, 0xa4506ceb, 0xbef9a3f7, 0xc67178f2]

/-- `SHA256_CTX`. -/
structure Ctx where
  data : Vector U8 64
  datalen : ℕ
  bitlen : U64
  state : Vector U32 8

/-! ## The compression function -/

/-- `m[i]` for `i < 16`: the bytes are promoted before they are shifted. -/
def loadWord (data : Vector U8 64) (j : ℕ) : U32 :=
  ((load data j).setWidth 32 <<< 24) ||| ((load data (j + 1)).setWidth 32 <<< 16) |||
    ((load data (j + 2)).setWidth 32 <<< 8) ||| (load data (j + 3)).setWidth 32

/-- The two loops that fill `m[64]`. -/
def schedule (data : Vector U8 64) : Vector U32 64 :=
  storeLoop (fun m i => sig1 (load m (i - 2)) + load m (i - 7) + sig0 (load m (i - 15)) +
      load m (i - 16)) 16 48
    (storeLoop (fun _ i => loadWord data (4 * i)) 0 16 (Vector.replicate 64 0))

/-- The local variables `a … h`. -/
structure Vars where
  a : U32
  b : U32
  c : U32
  d : U32
  e : U32
  f : U32
  g : U32
  h : U32

/-- The body of the 64-round loop. -/
def round (m : Vector U32 64) (v : Vars) (i : ℕ) : Vars :=
  let t1 := v.h + ep1 v.e + ch v.e v.f v.g + load k i + load m i
  let t2 := ep0 v.a + maj v.a v.b v.c
  { h := v.g, g := v.f, f := v.e, e := v.d + t1, d := v.c, c := v.b, b := v.a, a := t1 + t2 }

def sha256Transform (ctx : Ctx) (data : Vector U8 64) : Ctx :=
  let m := schedule data
  let s := ctx.state
  let v : Vars := ⟨s[0], s[1], s[2], s[3], s[4], s[5], s[6], s[7]⟩
  let v := (List.range 64).foldl (round m) v
  { ctx with state := #v[s[0] + v.a, s[1] + v.b, s[2] + v.c, s[3] + v.d, s[4] + v.e, s[5] + v.f,
      s[6] + v.g, s[7] + v.h] }

/-! ## Streaming -/

/-- The buffer keeps whatever it held. -/
def sha256Init (ctx : Ctx) : Ctx :=
  { ctx with
    datalen := 0
    bitlen := 0
    state := #v[0x6a09e667, 0xbb67ae85, 0x3c6ef372, 0xa54ff53a, 0x510e527f, 0x9b05688c, 0x1f83d9ab,
      0x5be0cd19] }

/-- The body of the loop of `sha256_update`: one byte. -/
def updateByte (ctx : Ctx) (x : U8) : Ctx :=
  let ctx := { ctx with data := store ctx.data ctx.datalen x, datalen := ctx.datalen + 1 }
  if ctx.datalen = 64 then
    let ctx := sha256Transform ctx ctx.data
    { ctx with bitlen := ctx.bitlen + 512, datalen := 0 }
  else ctx

/-- `data` is the memory the pointer argument refers to, `len` the unsigned 32-bit length. -/
def sha256Update (ctx : Ctx) (data : List U8) (len : U32) : Ctx :=
  (List.range len.toNat).foldl (fun ctx i => updateByte ctx (data.getD i 0)) ctx

/-- The eight stores of the bit length. -/
def storeBitlen (data : Vector U8 64) (bitlen : U64) : Vector U8 64 :=
  (List.range 8).foldl (fun d r => store d (63 - r) ((bitlen >>> (8 * r)).setWidth 8)) data

/-- Padding in the first branch: the length still fits into the current block. -/
def padShort (ctx : Ctx) : Ctx :=
  let i := ctx.datalen
  { ctx with data := storeLoop (fun _ _ => 0) (i + 1) (56 - (i + 1)) (store ctx.data i 0x80) }

/-- Padding in the second branch: the block is completed and compressed, and the length goes into a
new one. -/
def padLong (ctx : Ctx) : Ctx :=
  let i := ctx.datalen
  let data := storeLoop (fun _ _ => 0) (i + 1) (64 - (i + 1)) (store ctx.data i 0x80)
  let ctx := sha256Transform { ctx with data := data } data
  { ctx with data := storeLoop (fun _ _ => 0) 0 56 ctx.data }

/-- Byte `i` of a big-endian word. -/
def hashByte (s : U32) (i : ℕ) : U8 := ((s >>> (24 - i * 8)) &&& 0x000000ff).setWidth 8

/-- The body of the loop that writes the digest. -/
def storeHash (state : Vector U32 8) (hash : Vector U8 32) (i : ℕ) : Vector U8 32 :=
  (List.range 8).foldl (fun h w => store h (i + 4 * w) (hashByte (load state w) i)) hash

def sha256Final (ctx : Ctx) (hash : Vector U8 32) : Ctx × Vector U8 32 :=
  let padded := if ctx.datalen < 56 then padShort ctx else padLong ctx
  let bitlen := padded.bitlen + BitVec.ofNat 64 (padded.datalen * 8)
  let data := storeBitlen padded.data bitlen
  let ctx := sha256Transform { padded with data := data, bitlen := bitlen } data
  (ctx, (List.range 4).foldl (storeHash ctx.state) hash)

/-- `byte_to_hex`: the two hexadecimal digits of a byte. -/
def byteToHex (byte : U8) : Char × Char :=
  let hexChars : List Char := "0123456789abcdef".toList
  (hexChars.getD ((byte >>> 4) &&& 0x0F).toNat '0', hexChars.getD (byte &&& 0x0F).toNat '0')

/-- `sha256_init`, one `sha256_update` for each string, and `sha256_final`. -/
def sha256Stream (ctx : Ctx) (hash : Vector U8 32) (chunks : List (List U8)) : Vector U8 32 :=
  (sha256Final (chunks.foldl (fun c s => sha256Update c s (BitVec.ofNat 32 s.length))
    (sha256Init ctx)) hash).2

end Xv6.Sha256
