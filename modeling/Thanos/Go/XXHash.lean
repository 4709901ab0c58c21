import Mathlib.Data.List.Basic

/-! # 64-bit xxHash

`xxhash.Sum64` of the Go package `github.com/cespare/xxhash/v2`, seed 0, on a byte
slice: four lanes over each 32-byte stripe when the input has one, then the
8-byte words, a 4-byte word and the bytes left, and a final avalanche. Each loop of
the Go code runs on a fuel that the length of the input bounds. -/

namespace XXHash

def prime1 : UInt64 := 0x9E3779B185EBCA87
def prime2 : UInt64 := 0xC2B2AE3D27D4EB4F
def prime3 : UInt64 := 0x165667B19E3779F9
def prime4 : UInt64 := 0x85EBCA77C2B2AE63
def prime5 : UInt64 := 0x27D4EB2F165667C5

/-- `bits.RotateLeft64`. -/
def rotl (x : UInt64) (r : UInt64) : UInt64 := (x <<< r) ||| (x >>> (64 - r))

def round (acc input : UInt64) : UInt64 := rotl (acc + input * prime2) 31 * prime1

def mergeRound (acc val : UInt64) : UInt64 := (acc ^^^ round 0 val) * prime1 + prime4

/-- The little-endian value of a few bytes (`u64`, `u32`). -/
def readLE (bs : List UInt8) : UInt64 := bs.foldr (fun b acc => b.toUInt64 ||| (acc <<< 8)) 0

structure Lanes where
  v1 : UInt64
  v2 : UInt64
  v3 : UInt64
  v4 : UInt64
  deriving DecidableEq, Repr

/-- `for len(b) >= 32`: one round per lane and 8-byte word of the stripe. -/
def stripeLoop : Nat → Lanes → List UInt8 → Lanes × List UInt8
  | 0, v, bs => (v, bs)
  | fuel + 1, v, bs =>
    if bs.length ≥ 32 then
      stripeLoop fuel ⟨round v.v1 (readLE (bs.take 8)), round v.v2 (readLE ((bs.drop 8).take 8)),
        round v.v3 (readLE ((bs.drop 16).take 8)), round v.v4 (readLE ((bs.drop 24).take 8))⟩
        (bs.drop 32)
    else (v, bs)

/-- `for ; len(b) >= 8; b = b[8:]`. -/
def wordLoop : Nat → UInt64 → List UInt8 → UInt64 × List UInt8
  | 0, h, bs => (h, bs)
  | fuel + 1, h, bs =>
    if bs.length ≥ 8 then
      wordLoop fuel (rotl (h ^^^ round 0 (readLE (bs.take 8))) 27 * prime1 + prime4) (bs.drop 8)
    else (h, bs)

/-- `for ; len(b) > 0; b = b[1:]`. -/
def byteLoop (h : UInt64) : List UInt8 → UInt64
  | [] => h
  | b :: bs => byteLoop (rotl (h ^^^ b.toUInt64 * prime5) 11 * prime1) bs

def avalanche (h : UInt64) : UInt64 :=
  let h := (h ^^^ (h >>> 33)) * prime2
  let h := (h ^^^ (h >>> 29)) * prime3
  h ^^^ (h >>> 32)

/-- `xxhash.Sum64`. -/
def sum64 (b : List UInt8) : UInt64 :=
  let n := b.length
  let (h, b) :=
    if n ≥ 32 then
      let (v, b) := stripeLoop n ⟨prime1 + prime2, prime2, 0, 0 - prime1⟩ b
      let h := rotl v.v1 1 + rotl v.v2 7 + rotl v.v3 12 + rotl v.v4 18
      (mergeRound (mergeRound (mergeRound (mergeRound h v.v1) v.v2) v.v3) v.v4, b)
    else (prime5, b)
  let h := h + n.toUInt64
  let (h, b) := wordLoop n h b
  let (h, b) :=
    if b.length ≥ 4 then (rotl (h ^^^ readLE (b.take 4) * prime1) 23 * prime2 + prime3, b.drop 4)
    else (h, b)
  avalanche (byteLoop h b)

-- the reference values of xxHash64 with seed 0
example : sum64 [] = 0xef46db3751d8e999 := by decide +kernel
example : sum64 [97, 98, 99] = 0x44bc2cf5ad770999 := by decide +kernel
example : sum64 ("Nobody inspects the spammish repetition".toList.map fun c => c.toNat.toUInt8) =
    0xfbcea83c8a378bf1 := by decide +kernel

end XXHash
