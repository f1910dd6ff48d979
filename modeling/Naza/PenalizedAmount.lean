import Naza.ProofOfWork

/-!
# The penalized amount in exact integers

Between the median and twice the median `get_penalized_amount` computes two exact divisions by the
median, whichever way the product of words is put together.
-/

namespace Naza

namespace Currency

/-- `penalizedWords` over a way to multiply words. -/
def penalizedWordsBy (mul : UInt64 → UInt64 → UInt64 × UInt64)
    (amount medianSize currentBlockSize : UInt64) : UInt64 × UInt64 :=
  let product := mul amount (currentBlockSize * (2 * medianSize - currentBlockSize))
  let once := div128By32 product.1 product.2 medianSize.toUInt32
  div128By32 once.1 once.2 medianSize.toUInt32

/-- What a penalty has to be for a size between the median and twice the median. -/
structure PenalizedExactly (amount median size : UInt64) : Prop where
  /-- no bit of the product is lost -/
  product : wide (mul128 amount (size * (2 * median - size))) =
    amount.toNat * size.toNat * (2 * median.toNat - size.toNat)
  /-- nor by the product out of 32-bit pieces -/
  pieces : penalizedWordsBy mul128Pieces amount median size = penalizedWords amount median size
  high : (penalizedWords amount median size).1 = 0
  value : (getPenalizedAmount amount median size).toNat =
    amount.toNat * size.toNat * (2 * median.toNat - size.toNat) / median.toNat / median.toNat
  lt_amount : 0 < amount → getPenalizedAmount amount median size < amount
  zero : size.toNat = 2 * median.toNat → getPenalizedAmount amount median size = 0
  antitone : ∀ size', size ≤ size' → size'.toNat ≤ 2 * median.toNat →
    getPenalizedAmount amount median size' ≤ getPenalizedAmount amount median size

variable {amount median size : UInt64}

theorem penalizedWordsBy_pieces (amount median size : UInt64) :
    penalizedWordsBy mul128Pieces amount median size = penalizedWords amount median size := by
  rw [penalizedWordsBy, mul128Pieces_eq, penalizedWords]

/-- Above the median the penalized amount is the low word. -/
theorem getPenalizedAmount_eq (hlarge : median.toNat < size.toNat) (hamount : amount ≠ 0) :
    getPenalizedAmount amount median size = (penalizedWords amount median size).2 := by
  have hnot : ¬ size ≤ median := UInt64.not_le.2 (UInt64.lt_iff_toNat_lt.2 hlarge)
  rw [getPenalizedAmount, if_neg hamount, if_neg hnot]

/-- The high word of the last quotient is empty. -/
theorem penalizedWords_fst (hmedian : median.toNat < 2 ^ 32) (hlarge : median.toNat < size.toNat)
    (hsize : size.toNat ≤ 2 * median.toNat) : (penalizedWords amount median size).1 = 0 := by
  have hle : wide (penalizedWords amount median size) ≤ amount.toNat := by
    rw [wide_penalizedWords hmedian hlarge hsize]
    exact Nat.div_le_of_le_mul
      (by rw [Nat.mul_comm]; exact Nat.mul_le_mul_right _ (mul_rest_lt hlarge hsize).le)
  have hbound := amount.toNat_lt
  rw [wide] at hle
  apply UInt64.toNat_inj.1
  rw [UInt64.toNat_zero]
  omega

/-- The penalized amount is two floors of a product. -/
theorem toNat_getPenalizedAmount (hmedian : median.toNat < 2 ^ 32)
    (hlarge : median.toNat < size.toNat) (hsize : size.toNat ≤ 2 * median.toNat) :
    (getPenalizedAmount amount median size).toNat =
      amount.toNat * (size.toNat * (2 * median.toNat - size.toNat)) / median.toNat /
        median.toNat := by
  rw [Nat.div_div_eq_div_mul]
  by_cases hamount : amount = 0
  · rw [hamount, getPenalizedAmount, if_pos rfl, UInt64.toNat_zero, Nat.zero_mul, Nat.zero_div]
  · rw [getPenalizedAmount_eq hlarge hamount, ← wide_penalizedWords hmedian hlarge hsize, wide,
      penalizedWords_fst hmedian hlarge hsize, UInt64.toNat_zero, Nat.zero_mul, Nat.zero_add]

/-- From the median on a larger size leaves a smaller product. -/
theorem mul_rest_antitone {m s s' : ℕ} (hlarge : m ≤ s) (hle : s ≤ s') (hs' : s' ≤ 2 * m) :
    s' * (2 * m - s') ≤ s * (2 * m - s) := by
  obtain ⟨rest, hrest⟩ := Nat.exists_eq_add_of_le hs'
  obtain ⟨step, rfl⟩ := Nat.exists_eq_add_of_le hle
  have hleft : 2 * m - s = rest + step := by omega
  rw [hleft, hrest, Nat.add_sub_cancel_left]
  nlinarith

theorem getPenalizedAmount_antitone {size' : UInt64} (hmedian : median.toNat < 2 ^ 32)
    (hlarge : median.toNat < size.toNat) (hle : size ≤ size')
    (hsize' : size'.toNat ≤ 2 * median.toNat) :
    getPenalizedAmount amount median size' ≤ getPenalizedAmount amount median size := by
  have hle := UInt64.le_iff_toNat_le.1 hle
  rw [UInt64.le_iff_toNat_le, toNat_getPenalizedAmount hmedian (by omega) hsize',
    toNat_getPenalizedAmount hmedian hlarge (by omega)]
  have hproduct := mul_rest_antitone hlarge.le hle hsize'
  exact Nat.div_le_div_right (Nat.div_le_div_right (Nat.mul_le_mul_left _ hproduct))

/-- From the median to twice the median the penalty is exact, below the amount, and falls with the
size. -/
theorem penalizedExactly (hmedian : median.toNat < 2 ^ 32) (hlarge : median < size)
    (hsize : size.toNat ≤ 2 * median.toNat) : PenalizedExactly amount median size := by
  have hlarge := UInt64.lt_iff_toNat_lt.1 hlarge
  constructor
  · rw [wide_mul128, toNat_mul_rest hmedian hlarge hsize, Nat.mul_assoc]
  · exact penalizedWordsBy_pieces amount median size
  · exact penalizedWords_fst hmedian hlarge hsize
  · rw [toNat_getPenalizedAmount hmedian hlarge hsize, Nat.mul_assoc]
  · intro hamount
    have hne : amount ≠ 0 := fun h ↦ by
      rw [h] at hamount
      exact UInt64.lt_irrefl _ hamount
    have hlt := wide_penalizedWords_lt hmedian hlarge hsize hne
    rw [wide, penalizedWords_fst hmedian hlarge hsize] at hlt
    rw [getPenalizedAmount_eq hlarge hne, UInt64.lt_iff_toNat_lt]
    simpa using hlt
  · intro htwice
    apply UInt64.toNat_inj.1
    rw [toNat_getPenalizedAmount hmedian hlarge hsize, htwice, Nat.sub_self, Nat.mul_zero,
      Nat.mul_zero, Nat.zero_div, Nat.zero_div, UInt64.toNat_zero]
  · exact fun size' hle hsize' ↦ getPenalizedAmount_antitone hmedian hlarge hle hsize'

theorem penalizedExactly_half : PenalizedExactly 1000 100 150 :=
  penalizedExactly (by decide) (by decide) (by decide)

end Currency

end Naza
