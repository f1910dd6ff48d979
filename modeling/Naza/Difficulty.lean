import Naza.CryptoNote

/-!
# 128-bit arithmetic and the difficulty check

`mul128` and `div128_32` of `int-util.h`, and `check_hash`, word by word.
-/

namespace Naza

/-- `mul128`: the high and the low word of the product. -/
def mul128 (a b : UInt64) : UInt64 × UInt64 :=
  (UInt64.ofNat (a.toNat * b.toNat / 2 ^ 64), a * b)

/-- `div_with_reminder`: the quotient and the remainder carried to the next word. -/
def divWithReminder (dividend : UInt64) (divisor remainder : UInt32) : UInt64 × UInt32 :=
  let dividend := dividend ||| (remainder.toUInt64 <<< 32)
  (dividend / divisor.toUInt64, (dividend % divisor.toUInt64).toUInt32)

def hiDword (v : UInt64) : UInt64 := v >>> 32
def loDword (v : UInt64) : UInt64 := v &&& 0xFFFFFFFF

/-- `div128_32`: long division with base `2^32`. -/
def div128By32 (dividendHi dividendLo : UInt64) (divisor : UInt32) : UInt64 × UInt64 :=
  let (q3, r3) := divWithReminder (hiDword dividendHi) divisor 0
  let (q2, r2) := divWithReminder (loDword dividendHi) divisor r3
  let (q1, r1) := divWithReminder (hiDword dividendLo) divisor r2
  let (q0, _) := divWithReminder (loDword dividendLo) divisor r1
  (q3 <<< 32 ||| q2, q1 <<< 32 ||| q0)

/-- Word `i` of a hash, little-endian in memory. -/
def hashWord (hash : Hash) (i : ℕ) : UInt64 :=
  UInt64.ofNat (Lib.bytesToNat (((Lib.natToBytes 32 hash.val).drop (8 * i)).take 8).reverse)

def cadd (a b : UInt64) : Bool := a + b < a

def cadc (a b : UInt64) (c : Bool) : Bool := a + b < a || (c && a + b == 0xFFFFFFFFFFFFFFFF)

/-- `check_hash`: the hash times the difficulty stays below `2^256`. -/
def checkHash (hash : Hash) (difficulty : Difficulty) : Bool :=
  let (high, top) := mul128 (hashWord hash 3) difficulty
  if high ≠ 0 then false
  else
    let (cur, _) := mul128 (hashWord hash 0) difficulty
    let (high, low) := mul128 (hashWord hash 1) difficulty
    let carry := cadd cur low
    let cur := high
    let (high, low) := mul128 (hashWord hash 2) difficulty
    let carry := cadc cur low carry
    let carry := cadc high top carry
    !carry

end Naza
