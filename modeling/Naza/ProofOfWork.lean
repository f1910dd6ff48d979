import Naza.Penalty
import Naza.Codec
import Naza.Lib.ByteOrder

/-!
# The proof of work

`check_hash` multiplies a hash by the difficulty word by word.  The result is a comparison with
`2^256`, whichever way the words are multiplied.
-/

open Lib

namespace Naza

/-- `mul128` out of 32-bit pieces, as it is compiled without a wider type. -/
def mul128Pieces (multiplier multiplicand : UInt64) : UInt64 × UInt64 :=
  let a := hiDword multiplier
  let b := loDword multiplier
  let c := hiDword multiplicand
  let d := loDword multiplicand
  let ac := a * c
  let ad := a * d
  let bc := b * c
  let bd := b * d
  let adbc := ad + bc
  let adbcCarry : UInt64 := if adbc < ad then 1 else 0
  let productLo := bd + adbc <<< 32
  let productLoCarry : UInt64 := if productLo < bd then 1 else 0
  (ac + adbc >>> 32 + adbcCarry <<< 32 + productLoCarry, productLo)

/-- `check_hash` over a way to multiply words. -/
def checkHashBy (mul : UInt64 → UInt64 → UInt64 × UInt64) (hash : Hash) (difficulty : Difficulty) :
    Bool :=
  let (high, top) := mul (hashWord hash 3) difficulty
  if high ≠ 0 then false
  else
    let (cur, _) := mul (hashWord hash 0) difficulty
    let (high, low) := mul (hashWord hash 1) difficulty
    let carry := cadd cur low
    let cur := high
    let (high, low) := mul (hashWord hash 2) difficulty
    let carry := cadc cur low carry
    let carry := cadc high top carry
    !carry

/-- The number that the bytes of a hash spell, least significant byte first. -/
def hashNumber (hash : Hash) : ℕ := bytesToNat (Seria.podBytes hash).reverse

/-! ## Words -/

theorem toNat_add_lt_iff {a b : UInt64} : a + b < a ↔ 2 ^ 64 ≤ a.toNat + b.toNat := by
  have ha := a.toNat_lt
  have hb := b.toNat_lt
  rw [UInt64.lt_iff_toNat_lt, UInt64.toNat_add]
  omega

/-- The carry out of two words. -/
theorem toNat_cadd (a b : UInt64) : (cadd a b).toNat = (a.toNat + b.toNat) / 2 ^ 64 := by
  have ha := a.toNat_lt
  have hb := b.toNat_lt
  by_cases h : a + b < a
  · rw [cadd, decide_eq_true h, Bool.toNat_true]
    rw [toNat_add_lt_iff] at h
    omega
  · rw [cadd, decide_eq_false h, Bool.toNat_false]
    rw [toNat_add_lt_iff] at h
    omega

/-- The carry out of two words and a carry. -/
theorem toNat_cadc (a b : UInt64) (c : Bool) :
    (cadc a b c).toNat = (a.toNat + b.toNat + c.toNat) / 2 ^ 64 := by
  have ha := a.toNat_lt
  have hb := b.toNat_lt
  cases c with
  | false =>
    rw [cadc, Bool.false_and, Bool.or_false, Bool.toNat_false, Nat.add_zero, ← toNat_cadd, cadd]
  | true =>
    have hones : (a + b == 0xFFFFFFFFFFFFFFFF) = true ↔
        (a.toNat + b.toNat) % 2 ^ 64 = 2 ^ 64 - 1 := by
      rw [beq_iff_eq, ← UInt64.toNat_inj, UInt64.toNat_add]
      rfl
    rw [cadc, Bool.true_and, Bool.toNat_true]
    cases hcarry : decide (a + b < a) || a + b == 0xFFFFFFFFFFFFFFFF with
    | true =>
      rw [Bool.or_eq_true, decide_eq_true_iff, toNat_add_lt_iff, hones] at hcarry
      rw [Bool.toNat_true]
      omega
    | false =>
      rw [← Bool.not_eq_true, Bool.or_eq_true, decide_eq_true_iff, toNat_add_lt_iff, hones]
        at hcarry
      rw [Bool.toNat_false]
      omega

theorem wide_inj {x y : UInt64 × UInt64} (h : wide x = wide y) : x = y := by
  have hx := x.2.toNat_lt
  have hy := y.2.toNat_lt
  unfold wide at h
  exact Prod.ext (UInt64.toNat_inj.1 (by omega)) (UInt64.toNat_inj.1 (by omega))

theorem toNat_shiftLeft_32 (x : UInt64) : (x <<< 32).toNat = x.toNat * 2 ^ 32 % 2 ^ 64 := by
  rw [UInt64.toNat_shiftLeft, Nat.shiftLeft_eq]
  rfl

theorem toNat_shiftRight_32 (x : UInt64) : (x >>> 32).toNat = x.toNat / 2 ^ 32 := by
  rw [UInt64.toNat_shiftRight, Nat.shiftRight_eq_div_pow]
  rfl

/-- Pieces of 32 bits are multiplied without overflow. -/
theorem toNat_mul_pieces {x y : UInt64} (hx : x.toNat < 2 ^ 32) (hy : y.toNat < 2 ^ 32) :
    (x * y).toNat = x.toNat * y.toNat ∧ x.toNat * y.toNat ≤ (2 ^ 32 - 1) * (2 ^ 32 - 1) := by
  have hle : x.toNat * y.toNat ≤ (2 ^ 32 - 1) * (2 ^ 32 - 1) :=
    Nat.mul_le_mul (by omega) (by omega)
  exact ⟨by rw [UInt64.toNat_mul]; exact Nat.mod_eq_of_lt (by omega), hle⟩

/-- The carry of an addition as it is stored. -/
theorem toNat_carry (x y : UInt64) :
    (if x + y < x then 1 else 0 : UInt64).toNat = (x.toNat + y.toNat) / 2 ^ 64 := by
  have hx := x.toNat_lt
  have hy := y.toNat_lt
  split
  · next h =>
    rw [toNat_add_lt_iff] at h
    change 1 = _
    omega
  · next h =>
    rw [toNat_add_lt_iff] at h
    change 0 = _
    omega

/-- The pieces add up to the product. -/
theorem mul128Pieces_eq (a b : UInt64) : mul128Pieces a b = mul128 a b := by
  apply wide_inj
  rw [wide_mul128, wide]
  obtain ⟨hah, hal, ha⟩ := hiDword_loDword a
  obtain ⟨hbh, hbl, hb⟩ := hiDword_loDword b
  obtain ⟨hac, bac⟩ := toNat_mul_pieces hah hbh
  obtain ⟨had, bad⟩ := toNat_mul_pieces hah hbl
  obtain ⟨hbc, bbc⟩ := toNat_mul_pieces hal hbh
  obtain ⟨hbd, bbd⟩ := toNat_mul_pieces hal hbl
  -- the product of the numbers in terms of the four partial products
  have hproduct : a.toNat * b.toNat =
      (hiDword a).toNat * (hiDword b).toNat * 2 ^ 64 +
        ((hiDword a).toNat * (loDword b).toNat + (loDword a).toNat * (hiDword b).toNat) * 2 ^ 32 +
          (loDword a).toNat * (loDword b).toNat := by
    rw [ha, hb]
    ring
  rw [hproduct, ← hac, ← had, ← hbc, ← hbd]
  rw [← hac] at bac
  rw [← had] at bad
  rw [← hbc] at bbc
  rw [← hbd] at bbd
  unfold mul128Pieces
  dsimp only
  simp only [UInt64.toNat_add, toNat_shiftLeft_32, toNat_shiftRight_32, toNat_carry]
  omega

/-! ## The comparison -/

theorem bytesToNat_append (a b : Bytes) :
    bytesToNat (a ++ b) = bytesToNat a * 256 ^ b.length + bytesToNat b := by
  rw [bytesToNat, List.foldl_append, foldl_bytes]
  rfl

theorem toNat_hashWord (hash : Hash) (i : ℕ) (hi : i < 4) :
    (hashWord hash i).toNat =
      bytesToNat (((Seria.podBytes hash).drop (8 * i)).take 8).reverse := by
  have hlt := bytesToNat_lt (((Seria.podBytes hash).drop (8 * i)).take 8).reverse
  have hlength : (((Seria.podBytes hash).drop (8 * i)).take 8).reverse.length = 8 := by
    rw [List.length_reverse, List.length_take, List.length_drop, Seria.length_podBytes]
    omega
  rw [hlength] at hlt
  exact UInt64.toNat_ofNat_of_lt' hlt

/-- The words of a hash make up its number. -/
theorem hashNumber_eq (hash : Hash) :
    hashNumber hash = (hashWord hash 3).toNat * 2 ^ 192 + (hashWord hash 2).toNat * 2 ^ 128 +
      (hashWord hash 1).toNat * 2 ^ 64 + (hashWord hash 0).toNat := by
  have hlength : (Seria.podBytes hash).length = 32 := Seria.length_podBytes hash
  have hcut : ∀ k, (Seria.podBytes hash).drop (8 * k) =
      ((Seria.podBytes hash).drop (8 * k)).take 8 ++
      (Seria.podBytes hash).drop (8 * (k + 1)) := fun k ↦ by
    rw [Nat.mul_succ, ← List.drop_drop, List.take_append_drop]
  -- the value of the bytes from a word on
  have hstep : ∀ k < 4, bytesToNat ((Seria.podBytes hash).drop (8 * k)).reverse =
      bytesToNat ((Seria.podBytes hash).drop (8 * (k + 1))).reverse * 256 ^ 8 +
        (hashWord hash k).toNat := fun k hk ↦ by
    rw [toNat_hashWord hash k hk]
    conv_lhs => rw [hcut k]
    rw [List.reverse_append, bytesToNat_append, List.length_reverse, List.length_take,
      List.length_drop, hlength, Nat.min_eq_left (by omega)]
  have hend : (Seria.podBytes hash).drop (8 * (3 + 1)) = [] := List.drop_eq_nil_of_le (by omega)
  rw [hashNumber, ← List.drop_zero (l := Seria.podBytes hash), ← Nat.mul_zero 8,
    hstep 0 (by decide), hstep 1 (by decide), hstep 2 (by decide), hstep 3 (by decide), hend]
  rw [show bytesToNat ([] : Bytes).reverse = 0 from rfl]
  ring

/-- `check_hash` is the comparison of the product with `2^256`, over either multiplication. -/
theorem checkHash_iff (hash : Hash) (difficulty : Difficulty) :
    (checkHash hash difficulty = true ↔ hashNumber hash * difficulty.toNat < 2 ^ 256) ∧
      checkHashBy mul128Pieces hash difficulty = checkHash hash difficulty := by
  have hpieces : mul128Pieces = mul128 := funext fun a ↦ funext fun b ↦ mul128Pieces_eq a b
  refine ⟨?_, by rw [hpieces]; rfl⟩
  have hword : ∀ i, (hashWord hash i).toNat * difficulty.toNat =
      (mul128 (hashWord hash i) difficulty).1.toNat * 2 ^ 64 +
        (mul128 (hashWord hash i) difficulty).2.toNat := fun i ↦ (wide_mul128 _ _).symm
  have hbound : ∀ i, (mul128 (hashWord hash i) difficulty).2.toNat < 2 ^ 64 := fun i ↦
    UInt64.toNat_lt _
  have hproduct : hashNumber hash * difficulty.toNat =
      (hashWord hash 3).toNat * difficulty.toNat * 2 ^ 192 +
        (hashWord hash 2).toNat * difficulty.toNat * 2 ^ 128 +
          (hashWord hash 1).toNat * difficulty.toNat * 2 ^ 64 +
            (hashWord hash 0).toNat * difficulty.toNat := by
    rw [hashNumber_eq]
    ring
  rw [hproduct, hword 0, hword 1, hword 2, hword 3]
  have h₀ := hbound 0
  have h₁ := hbound 1
  have h₂ := hbound 2
  have h₃ := hbound 3
  unfold checkHash
  dsimp only
  split
  · next hhigh =>
    -- the early exit: the top word alone is too large
    have hpos : (mul128 (hashWord hash 3) difficulty).1.toNat ≠ 0 := fun h ↦
      hhigh (UInt64.toNat_inj.1 h)
    refine iff_of_false Bool.false_ne_true ?_
    omega
  · next hhigh =>
    rw [not_not] at hhigh
    rw [Bool.not_eq_true', ← Bool.toNat_eq_zero, toNat_cadc, toNat_cadc, toNat_cadd, hhigh,
      UInt64.toNat_zero]
    omega

end Naza
