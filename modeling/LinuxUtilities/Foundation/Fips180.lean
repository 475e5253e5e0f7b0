import LinuxUtilities.Foundation.Blocks
import Mathlib.Analysis.SpecialFunctions.Pow.NthRootLemmas

/-! SHA-256 as FIPS 180-4 defines it, over 32-bit words and byte messages. -/
namespace Fips180
open Blocks

abbrev Word := BitVec 32

section Functions
variable (x y z : Word)

def ch : Word := (x &&& y) ^^^ (~~~x &&& z)

def maj : Word := (x &&& y) ^^^ (x &&& z) ^^^ (y &&& z)

def bigSigma0 : Word := x.rotateRight 2 ^^^ x.rotateRight 13 ^^^ x.rotateRight 22

def bigSigma1 : Word := x.rotateRight 6 ^^^ x.rotateRight 11 ^^^ x.rotateRight 25

def sigma0 : Word := x.rotateRight 7 ^^^ x.rotateRight 18 ^^^ x >>> 3

def sigma1 : Word := x.rotateRight 17 ^^^ x.rotateRight 19 ^^^ x >>> 10

end Functions

/-- The first sixty-four primes. -/
def primes : List ℕ :=
  (List.range' 2 310).filter fun p => ∀ d ∈ List.range' 2 16, d < p → ¬ d ∣ p

/-- The first 32 bits of the fractional part of the `n`-th root of `p`. -/
def rootFraction (n p : ℕ) : Word := BitVec.ofNat 32 (Nat.nthRoot n (p * 2 ^ (32 * n)))

/-- The constants `K`: from the cube roots of the primes. -/
def roundConstant (t : ℕ) : Word := rootFraction 3 (primes.getD t 0)

/-- A hash value, and the eight working variables. -/
structure Hash where
  (a b c d e f g h : Word)
  deriving DecidableEq

namespace Hash

/-- The initial hash value: from the square roots of the first eight primes. -/
def initial : Hash :=
  ⟨rootFraction 2 2, rootFraction 2 3, rootFraction 2 5, rootFraction 2 7,
    rootFraction 2 11, rootFraction 2 13, rootFraction 2 17, rootFraction 2 19⟩

instance : Add Hash :=
  ⟨fun x y => ⟨x.a + y.a, x.b + y.b, x.c + y.c, x.d + y.d,
    x.e + y.e, x.f + y.f, x.g + y.g, x.h + y.h⟩⟩

def toList (x : Hash) : List Word := [x.a, x.b, x.c, x.d, x.e, x.f, x.g, x.h]

end Hash

/-- The `t`-th big-endian word of a block. -/
def blockWord (block : List UInt8) (t : ℕ) : Word :=
  let byte (i : ℕ) : BitVec 8 := (block.getD (4 * t + i) 0).toBitVec
  byte 0 ++ byte 1 ++ byte 2 ++ byte 3

/-- The message schedule `W`. -/
def schedule (block : List UInt8) (t : ℕ) : Word :=
  if t < 16 then blockWord block t
  else sigma1 (schedule block (t - 2)) + schedule block (t - 7) +
    sigma0 (schedule block (t - 15)) + schedule block (t - 16)

/-- Round `t` of the compression. -/
def round (block : List UInt8) (v : Hash) (t : ℕ) : Hash :=
  let t1 := v.h + bigSigma1 v.e + ch v.e v.f v.g + roundConstant t + schedule block t
  let t2 := bigSigma0 v.a + maj v.a v.b v.c
  ⟨t1 + t2, v.a, v.b, v.c, v.d + t1, v.e, v.f, v.g⟩

/-- The compression function. -/
def compress (value : Hash) (block : List UInt8) : Hash :=
  value + (List.range 64).foldl (round block) value

/-- `n` as `width` big-endian bytes. -/
def bigEndian (width n : ℕ) : List UInt8 :=
  (List.range width).map fun i => UInt8.ofNat (n / 256 ^ (width - 1 - i))

/-- How many zero bytes stand between the marker and the length. -/
def zeroCount (length : ℕ) : ℕ := (119 - length % 64) % 64

/-- The marker, the zeros and the length in bits that follow a message. -/
def padding (length : ℕ) : List UInt8 :=
  0x80 :: List.replicate (zeroCount length) 0 ++ bigEndian 8 (8 * length)

/-- The padded message. -/
def pad (message : List UInt8) : List UInt8 := message ++ padding message.length

/-- The SHA-256 digest. -/
def sha256 (message : List UInt8) : List UInt8 :=
  ((blocks 64 (pad message)).foldl compress Hash.initial).toList.flatMap
    fun w => bigEndian 4 w.toNat

@[simp] theorem length_bigEndian (width n : ℕ) : (bigEndian width n).length = width := by
  simp [bigEndian]

end Fips180
