import Naza.DifficultyWindow
import Naza.Lib.OrderStatistics
import Naza.Penalty

/-!
# The window of the first difficulty rule

`next_difficulty_v1` cuts the outliers of the sorted timestamps but takes the work between the same
positions of the unsorted difficulties, and from the first hard fork on it does so again over the
last 17 blocks.  Every position, difference, divisor and sum of it is as it should be.
-/

open Lib

namespace Naza

namespace Currency

variable (c : Currency)

/-- A measurement between two positions of a window: they are in range and at least two apart, the
differences do not underflow, and it gives positive work and a positive divisor. -/
structure SafeSpan (timestamps : List Timestamp) (cumulativeDifficulties : List Difficulty)
    (range : ℕ × ℕ) : Prop where
  begin_le : range.1 + 2 ≤ range.2
  end_le : range.2 ≤ timestamps.length
  end_le_difficulties : range.2 ≤ cumulativeDifficulties.length
  time_le : (sortTimestamps timestamps).getD range.1 0 ≤
    (sortTimestamps timestamps).getD (range.2 - 1) 0
  work_lt : cumulativeDifficulties.getD range.1 0 < cumulativeDifficulties.getD (range.2 - 1) 0
  measured : ∃ timeSpan totalWork, spanAndWork (sortTimestamps timestamps) cumulativeDifficulties
    range = .ok (timeSpan, totalWork) ∧ 0 < timeSpan.toNat ∧ 0 < totalWork.toNat

/-- The work of a span times the target, rounded up to a multiple of its time, leaves 64 bits. -/
def SpanOverflows (timestamps : List Timestamp) (cumulativeDifficulties : List Difficulty)
    (range : ℕ × ℕ) : Prop :=
  ∃ timeSpan totalWork, spanAndWork (sortTimestamps timestamps) cumulativeDifficulties range =
      .ok (timeSpan, totalWork) ∧
    2 ^ 64 ≤ totalWork.toNat * c.difficultyTarget.toNat + (timeSpan.toNat - 1)

/-- The last entries of a list. -/
def lastEntries {α : Type} (n : ℕ) (xs : List α) : List α := xs.drop (xs.length - n)

/-- What `next_difficulty_v1` does on a window is safe in both of its measurements, and it returns
at least one unless it reports an overflow. -/
structure SafeV1 (blockIndex : Height) (timestamps : List Timestamp)
    (cumulativeDifficulties : List Difficulty) : Prop where
  window_ge : 2 ≤ c.difficultyWindow.toNat
  cut_le : 2 * c.difficultyCut ≤ c.difficultyWindow.toNat - 2
  span : 1 < (timestamps.take c.difficultyWindow.toNat).length →
    SafeSpan (timestamps.take c.difficultyWindow.toNat)
      (cumulativeDifficulties.take c.difficultyWindow.toNat)
      (c.cutRange (timestamps.take c.difficultyWindow.toNat).length)
  lastSpan : 1 < min 17 timestamps.length →
    SafeSpan (lastEntries (min 17 timestamps.length) timestamps)
      (lastEntries (min 17 timestamps.length) cumulativeDifficulties) (0, min 17 timestamps.length)
  result : ∃ difficulty, c.nextDifficultyV1 blockIndex timestamps cumulativeDifficulties =
      .ok difficulty ∧
    (1 ≤ difficulty.toNat ∨
      difficulty = 0 ∧
        (c.SpanOverflows (timestamps.take c.difficultyWindow.toNat)
            (cumulativeDifficulties.take c.difficultyWindow.toNat)
            (c.cutRange (timestamps.take c.difficultyWindow.toNat).length) ∨
          c.hardforkV1Height ≤ blockIndex ∧
            c.SpanOverflows (lastEntries (min 17 timestamps.length) timestamps)
              (lastEntries (min 17 timestamps.length) cumulativeDifficulties)
              (0, min 17 timestamps.length)))

/-! ## Spans -/

theorem getD_eq_getElem {α : Type} {xs : List α} {i : ℕ} (hi : i < xs.length) (d : α) :
    xs.getD i d = xs[i] := by
  rw [List.getD_eq_getElem?_getD, List.getElem?_eq_getElem hi, Option.getD_some]

theorem length_sortTimestamps (timestamps : List Timestamp) :
    (sortTimestamps timestamps).length = timestamps.length :=
  List.length_insertionSort _ _

theorem elementAt_eq {α : Type} {xs : List α} {i : ℕ} (hi : i < xs.length) (d : α) :
    elementAt xs i = .ok (xs.getD i d) := by
  rw [elementAt, List.getElem?_eq_getElem hi, getD_eq_getElem hi]

theorem lt_getD_of_increasing {cumulativeDifficulties : List Difficulty} {i j : ℕ}
    (hincreasing : cumulativeDifficulties.Pairwise (· < ·)) (hij : i < j)
    (hj : j < cumulativeDifficulties.length) :
    cumulativeDifficulties.getD i 0 < cumulativeDifficulties.getD j 0 := by
  rw [getD_eq_getElem (by omega), getD_eq_getElem hj]
  exact List.pairwise_iff_getElem.1 hincreasing _ _ _ _ hij

/-- A measurement in range returns. -/
theorem spanAndWork_eq {timestamps : List Timestamp} {cumulativeDifficulties : List Difficulty}
    {range : ℕ × ℕ} (hbegin : range.1 < range.2) (hend : range.2 ≤ timestamps.length)
    (hwork : range.2 ≤ cumulativeDifficulties.length) :
    spanAndWork timestamps cumulativeDifficulties range =
      .ok (if timestamps.getD (range.2 - 1) 0 - timestamps.getD range.1 0 = 0 then 1
        else timestamps.getD (range.2 - 1) 0 - timestamps.getD range.1 0,
        cumulativeDifficulties.getD (range.2 - 1) 0 - cumulativeDifficulties.getD range.1 0) := by
  rw [spanAndWork, elementAt_eq (by omega) 0, elementAt_eq (by omega) 0, elementAt_eq (by omega) 0,
    elementAt_eq (by omega) 0]
  rfl

theorem safeSpan {timestamps : List Timestamp} {cumulativeDifficulties : List Difficulty}
    {range : ℕ × ℕ} (hlength : timestamps.length = cumulativeDifficulties.length)
    (hincreasing : cumulativeDifficulties.Pairwise (· < ·)) (hbegin : range.1 + 2 ≤ range.2)
    (hend : range.2 ≤ timestamps.length) :
    SafeSpan timestamps cumulativeDifficulties range where
  begin_le := hbegin
  end_le := hend
  end_le_difficulties := hlength ▸ hend
  time_le := by
    have hsorted : (sortTimestamps timestamps).Pairwise (· ≤ ·) :=
      List.pairwise_insertionSort _ _
    have hsize := length_sortTimestamps timestamps
    rw [getD_eq_getElem (by omega), getD_eq_getElem (by omega)]
    exact List.pairwise_iff_getElem.1 hsorted _ _ _ _ (by omega)
  work_lt := lt_getD_of_increasing hincreasing (by omega) (by omega)
  measured := by
    have hsize := length_sortTimestamps timestamps
    have hwork := lt_getD_of_increasing hincreasing (i := range.1) (j := range.2 - 1)
      (by omega) (by omega)
    rw [UInt64.lt_iff_toNat_lt] at hwork
    refine ⟨_, _, spanAndWork_eq (by omega) (by omega) (by omega), ?_, ?_⟩
    · split
      · decide
      · next hne => exact Nat.pos_of_ne_zero fun h ↦ hne (UInt32.toNat_inj.1 h)
    · rw [UInt64.toNat_sub_of_le _ _ (UInt64.le_iff_toNat_le.2 hwork.le)]
      omega

/-- The overflow test is exact. -/
theorem workOverflows_iff {totalWork : Difficulty} {timeSpan : Timestamp}
    (hpos : 0 < timeSpan.toNat) :
    c.workOverflows totalWork timeSpan = true ↔
      2 ^ 64 ≤ totalWork.toNat * c.difficultyTarget.toNat + (timeSpan.toNat - 1) := by
  have hwide := wide_mul128 totalWork c.difficultyTarget.toUInt64
  have hlow := (mul128 totalWork c.difficultyTarget.toUInt64).2.toNat_lt
  rw [UInt32.toNat_toUInt64, wide] at hwide
  have hspan : (timeSpan - 1).toUInt64.toNat = timeSpan.toNat - 1 := by
    rw [UInt32.toNat_toUInt64, UInt32.toNat_sub_of_le _ _ (show 1 ≤ timeSpan from
      UInt32.le_iff_toNat_le.2 hpos)]
    rfl
  have hroom : (0xFFFFFFFFFFFFFFFF - (mul128 totalWork c.difficultyTarget.toUInt64).2).toNat =
      2 ^ 64 - 1 - (mul128 totalWork c.difficultyTarget.toUInt64).2.toNat :=
    UInt64.toNat_sub_of_le _ _ (UInt64.le_iff_toNat_le.2 (Nat.le_of_lt_succ hlow))
  have hlt := timeSpan.toNat_lt
  have hhigh : (mul128 totalWork c.difficultyTarget.toUInt64).1 ≠ 0 ↔
      0 < (mul128 totalWork c.difficultyTarget.toUInt64).1.toNat := by
    rw [Nat.pos_iff_ne_zero, Ne, ← UInt64.toNat_inj]
    rfl
  rw [workOverflows]
  dsimp only
  rw [decide_eq_true_iff, hhigh, UInt64.lt_iff_toNat_lt, hroom, hspan]
  omega

/-- Work that does not overflow gives a quotient of at least one, without a wrap on the way. -/
theorem one_le_quotient {totalWork : Difficulty} {timeSpan : Timestamp}
    (htarget : 0 < c.difficultyTarget.toNat) (hwork : 0 < totalWork.toNat)
    (hspan : 0 < timeSpan.toNat) (hfits : ¬2 ^ 64 ≤ totalWork.toNat * c.difficultyTarget.toNat +
      (timeSpan.toNat - 1)) :
    1 ≤ ((totalWork * c.difficultyTarget.toUInt64 + timeSpan.toUInt64 - 1) /
      timeSpan.toUInt64).toNat := by
  have hproduct : 0 < totalWork.toNat * c.difficultyTarget.toNat := Nat.mul_pos hwork htarget
  have hlt := timeSpan.toNat_lt
  have hmul : (totalWork * c.difficultyTarget.toUInt64).toNat =
      totalWork.toNat * c.difficultyTarget.toNat := by
    rw [UInt64.toNat_mul, UInt32.toNat_toUInt64]
    exact Nat.mod_eq_of_lt (by omega)
  have hround : (totalWork * c.difficultyTarget.toUInt64 + timeSpan.toUInt64 - 1).toNat =
      totalWork.toNat * c.difficultyTarget.toNat + (timeSpan.toNat - 1) := by
    rw [UInt64.toNat_sub, UInt64.toNat_add, hmul, UInt32.toNat_toUInt64]
    change (2 ^ 64 - 1 + _) % 2 ^ 64 = _
    omega
  rw [UInt64.toNat_div, hround, UInt32.toNat_toUInt64]
  exact (Nat.one_le_div_iff hspan).2 (by omega)

/-- The cut leaves a range inside the window. -/
theorem cutRange_bounds {length : ℕ} (hwindow : 2 ≤ c.difficultyWindow.toNat)
    (hcut : 2 * c.difficultyCut ≤ c.difficultyWindow.toNat - 2) (hlarge : 1 < length) :
    (c.cutRange length).1 + 2 ≤ (c.cutRange length).2 ∧ (c.cutRange length).2 ≤ length := by
  rw [cutRange]
  dsimp only
  split_ifs <;> omega

/-- The last 17 blocks give a quotient of at least 100 unless they report an overflow. -/
theorem nextDifficultyZ_ge {timestamps : List Timestamp} {cumulativeDifficulties : List Difficulty}
    (hsafe : 1 < min 17 timestamps.length →
      SafeSpan (lastEntries (min 17 timestamps.length) timestamps)
        (lastEntries (min 17 timestamps.length) cumulativeDifficulties)
          (0, min 17 timestamps.length)) :
    ∃ difficulty, c.nextDifficultyZ timestamps cumulativeDifficulties = .ok difficulty ∧
      (1 ≤ difficulty.toNat ∨
        difficulty = 0 ∧ c.SpanOverflows (lastEntries (min 17 timestamps.length) timestamps)
          (lastEntries (min 17 timestamps.length) cumulativeDifficulties)
            (0, min 17 timestamps.length)) := by
  -- the two drops of the code are `lastEntries`, but for the length after the first of them
  have hlast : cumulativeDifficulties.drop (cumulativeDifficulties.length -
      min 17 timestamps.length) =
      lastEntries (min 17 timestamps.length) cumulativeDifficulties := rfl
  rw [nextDifficultyZ]
  dsimp only
  split
  · exact ⟨1, rfl, Or.inl (le_refl 1)⟩
  · next hlarge =>
    obtain ⟨timeSpan, totalWork, hmeasured, htime, -⟩ := (hsafe (Nat.lt_of_not_le hlarge)).measured
    have hspan : spanAndWork (sortTimestamps (timestamps.drop (timestamps.length -
        min 17 timestamps.length))) (cumulativeDifficulties.drop (cumulativeDifficulties.length -
        min 17 timestamps.length)) (0, min 17 timestamps.length) =
        .ok (timeSpan, totalWork) := hmeasured
    rw [hspan]
    change ∃ difficulty, (if c.workOverflows totalWork timeSpan then _ else _) = _ ∧ _
    split
    · next hoverflows =>
      exact ⟨0, rfl, Or.inr ⟨rfl, _, _, hmeasured, (c.workOverflows_iff htime).1 hoverflows⟩⟩
    · refine ⟨_, rfl, Or.inl ?_⟩
      split
      · exact show 1 ≤ 100 by decide
      · next hsmall =>
        have h := UInt64.lt_iff_toNat_lt.1 (UInt64.not_le.1 hsmall)
        change 100 < _ at h
        omega

variable {c}

theorem safeV1 (hwindow : 2 ≤ c.difficultyWindow.toNat)
    (hcut : 2 * c.difficultyCut ≤ c.difficultyWindow.toNat - 2)
    (htarget : 0 < c.difficultyTarget.toNat) {blockIndex : Height} {timestamps : List Timestamp}
    {cumulativeDifficulties : List Difficulty}
    (hlength : timestamps.length = cumulativeDifficulties.length)
    (hincreasing : cumulativeDifficulties.Pairwise (· < ·)) :
    c.SafeV1 blockIndex timestamps cumulativeDifficulties := by
  have hspan : 1 < (timestamps.take c.difficultyWindow.toNat).length →
      SafeSpan (timestamps.take c.difficultyWindow.toNat)
        (cumulativeDifficulties.take c.difficultyWindow.toNat)
          (c.cutRange (timestamps.take c.difficultyWindow.toNat).length) := fun hlarge ↦ by
    obtain ⟨hbegin, hend⟩ := c.cutRange_bounds hwindow hcut hlarge
    exact safeSpan (by rw [List.length_take, List.length_take, hlength])
      (hincreasing.sublist (List.take_sublist _ _)) hbegin hend
  have hlastSpan : 1 < min 17 timestamps.length →
      SafeSpan (lastEntries (min 17 timestamps.length) timestamps)
        (lastEntries (min 17 timestamps.length) cumulativeDifficulties)
          (0, min 17 timestamps.length) := fun hlarge ↦ by
    refine safeSpan ?_ (hincreasing.sublist (List.drop_sublist _ _)) hlarge ?_
    · rw [lastEntries, lastEntries, List.length_drop, List.length_drop, hlength]
    · rw [lastEntries, List.length_drop]
      dsimp only
      omega
  refine ⟨hwindow, hcut, hspan, hlastSpan, ?_⟩
  rw [nextDifficultyV1]
  dsimp only
  split
  · exact ⟨1, rfl, Or.inl (le_refl 1)⟩
  · next hlarge =>
    obtain ⟨timeSpan, totalWork, hmeasured, htime, hwork⟩ :=
      (hspan (Nat.lt_of_not_le hlarge)).measured
    rw [hmeasured]
    change ∃ difficulty, (if c.workOverflows totalWork timeSpan then _ else _) = _ ∧ _
    split
    · next hoverflows =>
      exact ⟨0, rfl, Or.inr ⟨rfl, Or.inl ⟨_, _, hmeasured,
        (c.workOverflows_iff htime).1 hoverflows⟩⟩⟩
    · next hfits =>
      split
      · next hfork =>
        obtain ⟨difficulty, hok, hresult⟩ := c.nextDifficultyZ_ge hlastSpan
        exact ⟨difficulty, hok, hresult.imp_right fun h ↦ ⟨h.1, Or.inr ⟨hfork, h.2⟩⟩⟩
      · exact ⟨_, rfl, Or.inl (c.one_le_quotient htarget hwork htime
          fun h ↦ hfits ((c.workOverflows_iff htime).2 h))⟩

end Currency

theorem make_difficultyWindow (cr : Crypto) (isTestnet : Bool) :
    (Currency.make cr isTestnet).difficultyWindow.toNat = if isTestnet then 86400 else 1440 := by
  cases isTestnet <;> rfl

/-- `next_difficulty_v1` is safe on every window with increasing difficulties. -/
theorem Currency.safeV1_make (cr : Crypto) (isTestnet : Bool) (blockIndex : Height)
    {timestamps : List Timestamp} {cumulativeDifficulties : List Difficulty}
    (hlength : timestamps.length = cumulativeDifficulties.length)
    (hincreasing : cumulativeDifficulties.Pairwise (· < ·)) :
    (Currency.make cr isTestnet).SafeV1 blockIndex timestamps cumulativeDifficulties := by
  have hwindow := make_difficultyWindow cr isTestnet
  have hcut : (Currency.make cr isTestnet).difficultyCut = 60 := rfl
  refine safeV1 ?_ ?_ make_difficultyTarget.1 hlength hincreasing
  · rw [hwindow]
    split <;> decide
  · rw [hwindow, hcut]
    split <;> decide

/-- Three blocks whose timestamps run backwards, after the first hard fork. -/
theorem Currency.safeV1_make_three :
    (Currency.make sampleCrypto false).SafeV1 7075 [300, 100, 200] [10, 25, 70] :=
  Currency.safeV1_make sampleCrypto false 7075 rfl (by decide)

end Naza
