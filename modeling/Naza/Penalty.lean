import Naza.Acceptance

/-!
# The penalty on large blocks

Long division in 128 bits, and what it makes of a block's reward: up to twice the size median the
penalized amount is below the amount and nothing overflows.
-/

open Lib

namespace Naza

variable {cr : Crypto} {c : Currency}

/-! ## 128-bit arithmetic -/

/-- The number that two words stand for. -/
def wide (words : UInt64 × UInt64) : ℕ := words.1.toNat * 2 ^ 64 + words.2.toNat

theorem wide_mul128 (a b : UInt64) : wide (mul128 a b) = a.toNat * b.toNat := by
  have hlt : a.toNat * b.toNat / 2 ^ 64 < 2 ^ 64 := by
    rw [Nat.div_lt_iff_lt_mul (by norm_num)]
    exact Nat.mul_lt_mul'' a.toNat_lt b.toNat_lt
  rw [wide, mul128, UInt64.toNat_ofNat_of_lt' hlt, UInt64.toNat_mul]
  exact Nat.div_add_mod' _ _

/-- A double word set next to another one. -/
theorem toNat_or_shiftLeft {low high : UInt64} (hlow : low.toNat < 2 ^ 32)
    (hhigh : high.toNat < 2 ^ 32) :
    (low ||| high <<< 32).toNat = high.toNat * 2 ^ 32 + low.toNat := by
  have hshift : (high <<< 32).toNat = high.toNat * 2 ^ 32 := by
    rw [UInt64.toNat_shiftLeft, Nat.shiftLeft_eq]
    change high.toNat * 2 ^ 32 % 2 ^ 64 = _
    exact Nat.mod_eq_of_lt (by omega)
  rw [UInt64.toNat_or, hshift, Nat.or_comm, ← Nat.shiftLeft_eq,
    ← Nat.shiftLeft_add_eq_or_of_lt hlow, Nat.shiftLeft_eq]

/-- One step of long division. -/
theorem divWithReminder_spec {dividend : UInt64} {divisor remainder : UInt32}
    (hdividend : dividend.toNat < 2 ^ 32) (hremainder : remainder < divisor) :
    (divWithReminder dividend divisor remainder).1.toNat =
        (remainder.toNat * 2 ^ 32 + dividend.toNat) / divisor.toNat ∧
      (divWithReminder dividend divisor remainder).1.toNat < 2 ^ 32 ∧
      (divWithReminder dividend divisor remainder).2.toNat =
        (remainder.toNat * 2 ^ 32 + dividend.toNat) % divisor.toNat ∧
      (divWithReminder dividend divisor remainder).2 < divisor := by
  rw [UInt32.lt_iff_toNat_lt] at hremainder
  have hjoin : (dividend ||| remainder.toUInt64 <<< 32).toNat =
      remainder.toNat * 2 ^ 32 + dividend.toNat :=
    toNat_or_shiftLeft hdividend (by simpa using remainder.toNat_lt)
  have hpos : 0 < divisor.toNat := by omega
  have hmod : (remainder.toNat * 2 ^ 32 + dividend.toNat) % divisor.toNat < divisor.toNat :=
    Nat.mod_lt _ hpos
  have hquot : (remainder.toNat * 2 ^ 32 + dividend.toNat) / divisor.toNat < 2 ^ 32 := by
    rw [Nat.div_lt_iff_lt_mul hpos]
    nlinarith
  have hrem : (divWithReminder dividend divisor remainder).2.toNat =
      (remainder.toNat * 2 ^ 32 + dividend.toNat) % divisor.toNat := by
    rw [divWithReminder, UInt64.toNat_toUInt32, UInt64.toNat_mod, hjoin, UInt32.toNat_toUInt64]
    exact Nat.mod_eq_of_lt (hmod.trans divisor.toNat_lt)
  have hdiv : (divWithReminder dividend divisor remainder).1.toNat =
      (remainder.toNat * 2 ^ 32 + dividend.toNat) / divisor.toNat := by
    rw [divWithReminder, UInt64.toNat_div, hjoin, UInt32.toNat_toUInt64]
  exact ⟨hdiv, hdiv ▸ hquot, hrem, UInt32.lt_iff_toNat_lt.2 (hrem ▸ hmod)⟩

theorem hiDword_loDword (v : UInt64) : (hiDword v).toNat < 2 ^ 32 ∧ (loDword v).toNat < 2 ^ 32 ∧
    v.toNat = (hiDword v).toNat * 2 ^ 32 + (loDword v).toNat := by
  have hhi : (hiDword v).toNat = v.toNat / 2 ^ 32 := by
    rw [hiDword, UInt64.toNat_shiftRight, Nat.shiftRight_eq_div_pow]
    rfl
  have hlo : (loDword v).toNat = v.toNat % 2 ^ 32 := by
    rw [loDword, UInt64.toNat_and]
    exact Nat.and_two_pow_sub_one_eq_mod v.toNat 32
  have hv := v.toNat_lt
  omega

/-- Long division divides. -/
theorem wide_div128By32 (hi lo : UInt64) {divisor : UInt32} (hpos : divisor ≠ 0) :
    wide (div128By32 hi lo divisor) = wide (hi, lo) / divisor.toNat := by
  have hd : 0 < divisor.toNat := Nat.pos_of_ne_zero fun h ↦ hpos (UInt32.toNat_inj.1 h)
  obtain ⟨h₃, h₂, hhi⟩ := hiDword_loDword hi
  obtain ⟨h₁, h₀, hlo⟩ := hiDword_loDword lo
  have step₃ := @divWithReminder_spec _ divisor 0 h₃ (UInt32.lt_iff_toNat_lt.2 hd)
  have step₂ := divWithReminder_spec h₂ step₃.2.2.2
  have step₁ := divWithReminder_spec h₁ step₂.2.2.2
  have step₀ := divWithReminder_spec h₀ step₁.2.2.2
  have hwide : wide (div128By32 hi lo divisor) =
      (divWithReminder (hiDword hi) divisor 0).1.toNat * 2 ^ 96 +
      (divWithReminder (loDword hi) divisor
        (divWithReminder (hiDword hi) divisor 0).2).1.toNat * 2 ^ 64 +
      (divWithReminder (hiDword lo) divisor (divWithReminder (loDword hi) divisor
        (divWithReminder (hiDword hi) divisor 0).2).2).1.toNat * 2 ^ 32 +
      (divWithReminder (loDword lo) divisor (divWithReminder (hiDword lo) divisor
        (divWithReminder (loDword hi) divisor
          (divWithReminder (hiDword hi) divisor 0).2).2).2).1.toNat := by
    simp only [wide, div128By32]
    rw [UInt64.or_comm, toNat_or_shiftLeft step₂.2.1 step₃.2.1, UInt64.or_comm,
      toNat_or_shiftLeft step₀.2.1 step₁.2.1]
    ring
  have div_eq : ∀ {q r x : ℕ}, q = x / divisor.toNat → r = x % divisor.toNat →
      x = divisor.toNat * q + r := by
    rintro q r x rfl rfl
    exact (Nat.div_add_mod _ _).symm
  have e₃ := div_eq step₃.1 step₃.2.2.1
  have e₂ := div_eq step₂.1 step₂.2.2.1
  have e₁ := div_eq step₁.1 step₁.2.2.1
  have e₀ := div_eq step₀.1 step₀.2.2.1
  have hlast := UInt32.lt_iff_toNat_lt.1 step₀.2.2.2
  rw [UInt32.toNat_zero, Nat.zero_mul, Nat.zero_add] at e₃
  rw [hwide]
  refine (((Nat.div_mod_unique hd).2 ⟨?_, hlast⟩).1).symm
  rw [wide]
  dsimp only
  rw [hhi, hlo]
  zify at e₃ e₂ e₁ e₀ ⊢
  linear_combination -(2 ^ 96) * e₃ - 2 ^ 64 * e₂ - 2 ^ 32 * e₁ - e₀

/-! ## The penalized amount -/

section Penalty

variable {amount median size : UInt64}

/-- The product of a size above the median and what is left up to twice the median. -/
theorem mul_rest_lt (hlarge : median.toNat < size.toNat) (hsize : size.toNat ≤ 2 * median.toNat) :
    size.toNat * (2 * median.toNat - size.toNat) < median.toNat * median.toNat := by
  obtain ⟨rest, hrest⟩ := Nat.exists_eq_add_of_le hsize
  rw [hrest, Nat.add_sub_cancel_left]
  nlinarith

theorem toNat_mul_rest (hmedian : median.toNat < 2 ^ 32) (hlarge : median.toNat < size.toNat)
    (hsize : size.toNat ≤ 2 * median.toNat) :
    (size * (2 * median - size)).toNat = size.toNat * (2 * median.toNat - size.toNat) := by
  have htwice : (2 * median).toNat = 2 * median.toNat := by
    rw [UInt64.toNat_mul]
    exact Nat.mod_eq_of_lt (by change 2 * median.toNat < 2 ^ 64; omega)
  have hrest : (2 * median - size).toNat = 2 * median.toNat - size.toNat := by
    rw [UInt64.toNat_sub_of_le _ _ (by rw [UInt64.le_iff_toNat_le, htwice]; exact hsize), htwice]
  have hlt := mul_rest_lt hlarge hsize
  rw [UInt64.toNat_mul, hrest]
  exact Nat.mod_eq_of_lt (by nlinarith)

/-- Between the median and twice the median the penalty divides by the square of the median. -/
theorem wide_penalizedWords (hmedian : median.toNat < 2 ^ 32) (hlarge : median.toNat < size.toNat)
    (hsize : size.toNat ≤ 2 * median.toNat) :
    wide (Currency.penalizedWords amount median size) =
      amount.toNat * (size.toNat * (2 * median.toNat - size.toNat)) /
        (median.toNat * median.toNat) := by
  have hnat : median.toUInt32.toNat = median.toNat := by
    rw [UInt64.toNat_toUInt32]
    exact Nat.mod_eq_of_lt hmedian
  have hne : median.toUInt32 ≠ 0 := fun h ↦ by
    rw [h, UInt32.toNat_zero] at hnat
    omega
  rw [Currency.penalizedWords, wide_div128By32 _ _ hne, wide_div128By32 _ _ hne, wide_mul128,
    toNat_mul_rest hmedian hlarge hsize, hnat, Nat.div_div_eq_div_mul]

theorem wide_penalizedWords_lt (hmedian : median.toNat < 2 ^ 32)
    (hlarge : median.toNat < size.toNat) (hsize : size.toNat ≤ 2 * median.toNat)
    (hamount : amount ≠ 0) : wide (Currency.penalizedWords amount median size) < amount.toNat := by
  have hpos : 0 < amount.toNat := Nat.pos_of_ne_zero fun h ↦ hamount (UInt64.toNat_inj.1 h)
  have hmedianPos : 0 < median.toNat * median.toNat := by
    have : 0 < median.toNat := by omega
    positivity
  rw [wide_penalizedWords hmedian hlarge hsize, Nat.div_lt_iff_lt_mul hmedianPos]
  exact Nat.mul_lt_mul_of_pos_left (mul_rest_lt hlarge hsize) hpos

/-- The asserts of `get_penalized_amount` hold exactly up to twice the median. -/
theorem penalizedAsserts_iff (hmedian : median.toNat < 2 ^ 32) (hblock : size.toNat < 2 ^ 32) :
    Currency.PenalizedAsserts amount median size ↔ size.toNat ≤ 2 * median.toNat := by
  constructor
  · exact fun h ↦ h.size_le
  · intro hsize
    have hlt : amount ≠ 0 → ¬ size ≤ median →
        wide (Currency.penalizedWords amount median size) < amount.toNat := fun hamount hlarge ↦
      wide_penalizedWords_lt hmedian (UInt64.lt_iff_toNat_lt.1 (UInt64.not_le.1 hlarge)) hsize
        hamount
    refine ⟨hsize, by omega, by omega, fun hamount hlarge ↦ ?_, fun hamount hlarge ↦ ?_⟩
    · have hwide := hlt hamount hlarge
      have hbound := amount.toNat_lt
      rw [wide] at hwide
      exact UInt64.toNat_inj.1 (by rw [UInt64.toNat_zero]; omega)
    · have hwide := hlt hamount hlarge
      rw [wide] at hwide
      exact UInt64.lt_iff_toNat_lt.2 (by omega)

/-- A penalized amount is not above the amount. -/
theorem getPenalizedAmount_le (hmedian : median.toNat < 2 ^ 32)
    (hsize : size.toNat ≤ 2 * median.toNat) :
    Currency.getPenalizedAmount amount median size ≤ amount := by
  unfold Currency.getPenalizedAmount
  split
  · next hzero => rw [hzero]; exact UInt64.le_refl _
  · next hamount =>
    split
    · exact UInt64.le_refl _
    · next hlarge =>
      have hwide := wide_penalizedWords_lt hmedian
        (UInt64.lt_iff_toNat_lt.1 (UInt64.not_le.1 hlarge)) hsize hamount
      rw [wide] at hwide
      exact UInt64.le_iff_toNat_le.2 (by omega)

end Penalty

end Naza
