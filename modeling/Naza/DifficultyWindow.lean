import Naza.Concrete

/-!
# The window of the second difficulty rule

`next_difficulty_v2` divides the work of 61 blocks by the solve times weighted by their position,
unless the last three of them are short.  The median rule lets timestamps repeat and run backwards,
so the weighted sum may be zero or negative; and the work of a slow window may be too small for a
quotient of at least one.  The weighted sum is the sum of the times by which the blocks of the
window lie before the last one.
-/

open Lib

namespace Naza

/-! ## Signed words -/

theorem toNat_ofInt {x : ℤ} (hnonneg : 0 ≤ x) (hlt : x < 2 ^ 64) :
    ((UInt64.ofInt x).toNat : ℤ) = x := by
  have hnat : x.toNat < UInt64.size := by
    change x.toNat < 2 ^ 64
    omega
  rw [UInt64.ofInt, Int.emod_eq_of_lt hnonneg hlt, UInt64.toNat_ofNat_of_lt' hnat]
  exact Int.toNat_of_nonneg hnonneg

/-- A tenth more of a small number, computed with signs. -/
theorem toNat_tenthMore (x : UInt64) (h : x.toNat * 110 < 2 ^ 63) :
    (x.toInt64 * 110 / 100).toUInt64.toNat = x.toNat * 110 / 100 := by
  have hx : x.toInt64.toInt = x.toNat := by
    rw [← Int64.toInt_toBitVec, UInt64.toBitVec_toInt64, BitVec.toInt_eq_toNat_of_lt]
    · rfl
    · simp only [UInt64.toNat_toBitVec]
      omega
  have hmul : (x.toInt64 * 110).toInt = x.toNat * 110 := by
    rw [Int64.toInt_mul, hx]
    exact Int.bmod_eq_of_le (by change _ ≤ (x.toNat : ℤ) * 110; omega)
      (by change (x.toNat : ℤ) * 110 < _; omega)
  have hdiv : (x.toInt64 * 110 / 100).toInt = ((x.toNat * 110 / 100 : ℕ) : ℤ) := by
    have htdiv : (x.toInt64 * 110).toInt.tdiv (100 : Int64).toInt =
        ((x.toNat * 110 / 100 : ℕ) : ℤ) := by
      rw [hmul]
      exact Int.tdiv_eq_ediv_of_nonneg (by omega)
    rw [Int64.toInt_div, htdiv]
    exact Int.bmod_eq_of_le (by omega) (by omega)
  have hnonneg : 0 ≤ x.toInt64 * 110 / 100 := by
    rw [Int64.le_iff_toInt_le, hdiv]
    exact Int.natCast_nonneg _
  rw [Int64.toNat_toUInt64_of_le hnonneg, ← Int64.toNat_toInt, hdiv, Int.toNat_natCast]

namespace Currency

variable (c : Currency)

/-! ## Windows -/

/-- A window that blocks accepted one after the other can leave, the timestamps before it
included: each timestamp is at least the median of the check window before it and at most the
future limit, and the cumulative difficulties increase. -/
structure AdmitsWindow (futureLimit : Timestamp) (earlier timestamps : List Timestamp)
    (cumulativeDifficulties : List Difficulty) : Prop where
  length_timestamps : timestamps.length = c.difficultyWindowV2.toNat + 1
  length_difficulties : cumulativeDifficulties.length = c.difficultyWindowV2.toNat + 1
  increasing : cumulativeDifficulties.Pairwise (· < ·)
  future : ∀ timestamp ∈ earlier ++ timestamps, timestamp ≤ futureLimit
  median : ∀ i < (earlier ++ timestamps).length, c.timestampCheckWindowV2.toNat ≤ i →
    medianValue (((earlier ++ timestamps).take i).drop (i - c.timestampCheckWindowV2.toNat)) ≤
      (earlier ++ timestamps).getD i 0

/-- The work of a window, as a number. -/
def windowWork (cumulativeDifficulties : List Difficulty) (i j : ℕ) : ℕ :=
  (cumulativeDifficulties.getD j 0).toNat - (cumulativeDifficulties.getD i 0).toNat

/-- Where `next_difficulty_v2` divides it does so by a positive number, no product or sum of it
leaves its type, and the difficulty is at least one. -/
structure SafeV2 (timestamps : List Timestamp) (cumulativeDifficulties : List Difficulty) :
    Prop where
  divisor_pos : 8 * (c.difficultyTarget.toNat : ℤ) / 10 ≤ c.lastSolveTimes timestamps →
    0 < c.weightedSolveTimes timestamps
  divisor_lt : 100 * 2 * c.weightedSolveTimes timestamps < 2 ^ 63
  product_lt : windowWork cumulativeDifficulties 0 c.difficultyWindowV2.toNat *
    c.difficultyTarget.toNat * (c.difficultyWindowV2.toNat + 1) * 99 < 2 ^ 64
  previous_lt : windowWork cumulativeDifficulties (c.difficultyWindowV2.toNat - 1)
    c.difficultyWindowV2.toNat * 110 < 2 ^ 63
  result : ∃ difficulty, c.nextDifficultyV2 timestamps cumulativeDifficulties = .ok difficulty ∧
    1 ≤ difficulty.toNat ∧ difficulty.toNat < 2 ^ 63

/-- The time from a block to the next one, at least minus the future limit and at most six
targets. -/
def gap (timestamps : List Timestamp) (i : ℕ) : ℤ :=
  max (-(c.blockFutureTimeLimitV2.toNat : ℤ))
    (min (((timestamps.getD (i + 1) 0).toNat : ℤ) - (timestamps.getD i 0).toNat)
      (6 * c.difficultyTarget.toNat))

/-- The time of a block after the first one of the window, by the limited gaps. -/
def limitedTime (timestamps : List Timestamp) (i : ℕ) : ℤ :=
  ∑ j ∈ Finset.range i, c.gap timestamps j

/-- How far the blocks of the window lie before the last one, all together. -/
def distance (timestamps : List Timestamp) : ℤ :=
  ∑ i ∈ Finset.range 60, (c.limitedTime timestamps 60 - c.limitedTime timestamps i)

/-- The work of a window is not too large for a word.  If the last three gaps take eight tenths of
a target, the last block lies after the average of the blocks before it, and the work is not too
small for the distance. -/
structure Steady (timestamps : List Timestamp) (cumulativeDifficulties : List Difficulty) :
    Prop where
  work_lt : windowWork cumulativeDifficulties 0 60 * c.difficultyTarget.toNat * 6039 < 2 ^ 64
  distance_pos : 8 * (c.difficultyTarget.toNat : ℤ) / 10 ≤
      c.limitedTime timestamps 60 - c.limitedTime timestamps 57 → 0 < c.distance timestamps
  distance_le : 8 * (c.difficultyTarget.toNat : ℤ) / 10 ≤
      c.limitedTime timestamps 60 - c.limitedTime timestamps 57 →
    200 * c.distance timestamps ≤
      windowWork cumulativeDifficulties 0 60 * c.difficultyTarget.toNat * 6039

end Currency

variable {cr : Crypto} {isTestnet : Bool}

theorem make_difficultyWindowV2 : (Currency.make cr isTestnet).difficultyWindowV2.toNat = 60 := rfl

theorem make_timestampCheckWindowV2 :
    (Currency.make cr isTestnet).timestampCheckWindowV2.toNat = 11 := rfl

theorem make_difficultyTarget : 0 < (Currency.make cr isTestnet).difficultyTarget.toNat ∧
    (Currency.make cr isTestnet).difficultyTarget.toNat ≤ 60 := by
  cases isTestnet with
  | false => exact ⟨show 0 < (60 : UInt32).toNat by decide, show (60 : UInt32).toNat ≤ 60 by decide⟩
  | true => exact ⟨show 0 < (1 : UInt32).toNat by decide, show (1 : UInt32).toNat ≤ 60 by decide⟩

/-- Counted from its end, a walk passes its `i`-th step `i` times. -/
theorem sum_mul_eq_sum_sub (f : ℕ → ℤ) (n : ℕ) :
    ∑ i ∈ Finset.range n, f i * (i + 1) =
      ∑ i ∈ Finset.range n, (∑ j ∈ Finset.range n, f j - ∑ j ∈ Finset.range i, f j) := by
  induction n with
  | zero => rfl
  | succ n ih =>
    have hlater : ∑ i ∈ Finset.range n,
        (∑ j ∈ Finset.range (n + 1), f j - ∑ j ∈ Finset.range i, f j) =
        ∑ i ∈ Finset.range n, (∑ j ∈ Finset.range n, f j - ∑ j ∈ Finset.range i, f j) +
          n * f n := by
      simp only [Finset.sum_range_succ, add_sub_right_comm, Finset.sum_add_distrib,
        Finset.sum_const, Finset.card_range, nsmul_eq_mul]
    rw [Finset.sum_range_succ, ih, Finset.sum_range_succ, hlater, Finset.sum_range_succ]
    ring

/-- The weighted sum of the rule is the distance of the blocks from the last one. -/
theorem weightedSolveTimes_eq (timestamps : List Timestamp) :
    (Currency.make cr isTestnet).weightedSolveTimes timestamps =
      (Currency.make cr isTestnet).distance timestamps := by
  have hsum : (Currency.make cr isTestnet).weightedSolveTimes timestamps =
      ∑ i ∈ Finset.range 60, (Currency.make cr isTestnet).gap timestamps i * (i + 1) := rfl
  rw [hsum, sum_mul_eq_sum_sub]
  simp only [Currency.distance, Currency.limitedTime]

theorem lastSolveTimes_eq (timestamps : List Timestamp) :
    (Currency.make cr isTestnet).lastSolveTimes timestamps =
      (Currency.make cr isTestnet).limitedTime timestamps 60 -
        (Currency.make cr isTestnet).limitedTime timestamps 57 := by
  have hlast : (Currency.make cr isTestnet).lastSolveTimes timestamps =
      (Currency.make cr isTestnet).gap timestamps 57 +
        (Currency.make cr isTestnet).gap timestamps 58 +
        (Currency.make cr isTestnet).gap timestamps 59 := rfl
  rw [hlast, Currency.limitedTime, Currency.limitedTime, Finset.sum_range_succ _ 59,
    Finset.sum_range_succ _ 58, Finset.sum_range_succ _ 57]
  ring

theorem gap_le (timestamps : List Timestamp) (i : ℕ) :
    (Currency.make cr isTestnet).gap timestamps i ≤ 360 := by
  have htarget := (@make_difficultyTarget cr isTestnet).2
  refine max_le (by omega) ((min_le_right _ _).trans (by omega))

theorem distance_le (timestamps : List Timestamp) :
    (Currency.make cr isTestnet).distance timestamps ≤ 658800 := by
  have hsum : ∑ i ∈ Finset.range 60, (360 : ℤ) * (i + 1) = 658800 := by decide
  rw [Currency.distance]
  simp only [Currency.limitedTime]
  rw [← sum_mul_eq_sum_sub, ← hsum]
  refine Finset.sum_le_sum fun i _ ↦ ?_
  exact mul_le_mul_of_nonneg_right (gap_le timestamps i) (by omega)

/-- Increasing cumulative difficulties do not wrap when they are subtracted. -/
theorem windowWork_eq {cumulativeDifficulties : List Difficulty} {i j : ℕ}
    (hincreasing : cumulativeDifficulties.Pairwise (· < ·)) (hij : i < j)
    (hj : j < cumulativeDifficulties.length) :
    (cumulativeDifficulties.getD j 0 - cumulativeDifficulties.getD i 0).toNat =
        Currency.windowWork cumulativeDifficulties i j ∧
      0 < Currency.windowWork cumulativeDifficulties i j := by
  have hlt := (List.pairwise_iff_getElem.1 hincreasing) i j (by omega) hj hij
  rw [Currency.windowWork, List.getD_eq_getElem _ _ hj, List.getD_eq_getElem _ _ (by omega)]
  rw [UInt64.lt_iff_toNat_lt] at hlt
  exact ⟨UInt64.toNat_sub_of_le _ _ (UInt64.le_iff_toNat_le.2 hlt.le), by omega⟩

/-- The product of the work with the weights of the rule. -/
theorem toNat_product {work : UInt64} {target : UInt32}
    (h : work.toNat * target.toNat * 6039 < 2 ^ 64) :
    (work * target.toUInt64 * (UInt64.ofNat 60 + 1) * 99).toNat =
      work.toNat * target.toNat * 6039 := by
  have hfirst : (work * target.toUInt64).toNat = work.toNat * target.toNat := by
    rw [UInt64.toNat_mul, UInt32.toNat_toUInt64, Nat.mod_eq_of_lt (by omega)]
  have hsecond : (work * target.toUInt64 * (UInt64.ofNat 60 + 1)).toNat =
      work.toNat * target.toNat * 61 := by
    rw [UInt64.toNat_mul, hfirst]
    exact Nat.mod_eq_of_lt (by change work.toNat * target.toNat * 61 < 2 ^ 64; omega)
  rw [UInt64.toNat_mul, hsecond]
  change work.toNat * target.toNat * 61 * 99 % 2 ^ 64 = _
  rw [Nat.mod_eq_of_lt (by omega)]
  omega

section Window

variable {futureLimit : Timestamp} {earlier timestamps : List Timestamp}
  {cumulativeDifficulties : List Difficulty}

/-- The work of the last block is a part of the work of the window. -/
theorem windowWork_last_le (h : (Currency.make cr isTestnet).AdmitsWindow futureLimit earlier
      timestamps cumulativeDifficulties) :
    Currency.windowWork cumulativeDifficulties 59 60 ≤
      Currency.windowWork cumulativeDifficulties 0 60 := by
  have hdifficulties : cumulativeDifficulties.length = 61 := h.length_difficulties
  have hstart := (windowWork_eq (i := 0) (j := 59) h.increasing (by omega) (by omega)).2
  unfold Currency.windowWork at hstart ⊢
  omega

/-- The rule on an admitted window: its two branches, and the fault of the second one. -/
theorem nextDifficultyV2_eq (h : (Currency.make cr isTestnet).AdmitsWindow futureLimit earlier
      timestamps cumulativeDifficulties) :
    (Currency.make cr isTestnet).nextDifficultyV2 timestamps cumulativeDifficulties =
      if (Currency.make cr isTestnet).limitedTime timestamps 60 -
          (Currency.make cr isTestnet).limitedTime timestamps 57 <
          8 * (Currency.make cr isTestnet).difficultyTarget.toNat / 10 then
        .ok ((cumulativeDifficulties.getD 60 0 - cumulativeDifficulties.getD 59 0).toInt64 * 110 /
          100).toUInt64
      else if UInt64.ofInt (100 * 2 * (Currency.make cr isTestnet).distance timestamps) = 0 then
        .error .divisionByZero
      else .ok ((cumulativeDifficulties.getD 60 0 - cumulativeDifficulties.getD 0 0) *
        (Currency.make cr isTestnet).difficultyTarget.toUInt64 * (UInt64.ofNat 60 + 1) * 99 /
        UInt64.ofInt (100 * 2 * (Currency.make cr isTestnet).distance timestamps)) := by
  have htimestamps : timestamps.length = 61 := h.length_timestamps
  rw [Currency.nextDifficultyV2]
  dsimp only
  rw [if_neg (by rw [make_difficultyWindowV2, htimestamps]; decide), weightedSolveTimes_eq,
    lastSolveTimes_eq, make_difficultyWindowV2]

/-- After short gaps the difficulty is that of the last block and a tenth more. -/
theorem nextDifficultyV2_of_short (h : (Currency.make cr isTestnet).AdmitsWindow futureLimit
      earlier timestamps cumulativeDifficulties)
    (hshort : (Currency.make cr isTestnet).limitedTime timestamps 60 -
      (Currency.make cr isTestnet).limitedTime timestamps 57 <
        8 * (Currency.make cr isTestnet).difficultyTarget.toNat / 10)
    (hwork : Currency.windowWork cumulativeDifficulties 59 60 * 110 < 2 ^ 63) :
    ∃ difficulty, (Currency.make cr isTestnet).nextDifficultyV2 timestamps cumulativeDifficulties =
      .ok difficulty ∧
      difficulty.toNat = Currency.windowWork cumulativeDifficulties 59 60 * 110 / 100 := by
  have hdifficulties : cumulativeDifficulties.length = 61 := h.length_difficulties
  obtain ⟨hlast, -⟩ := windowWork_eq (i := 59) (j := 60) h.increasing (by omega) (by omega)
  rw [nextDifficultyV2_eq h, if_pos hshort]
  refine ⟨_, rfl, ?_⟩
  rw [toNat_tenthMore _ (by rw [hlast]; exact hwork), hlast]

/-- Elsewhere, over a positive distance and while the product fits, the rule computes in unbounded
numbers. -/
theorem nextDifficultyV2_of_long (h : (Currency.make cr isTestnet).AdmitsWindow futureLimit earlier
      timestamps cumulativeDifficulties)
    (hlong : 8 * ((Currency.make cr isTestnet).difficultyTarget.toNat : ℤ) / 10 ≤
      (Currency.make cr isTestnet).limitedTime timestamps 60 -
        (Currency.make cr isTestnet).limitedTime timestamps 57)
    (hdistance : 0 < (Currency.make cr isTestnet).distance timestamps)
    (hwork : Currency.windowWork cumulativeDifficulties 0 60 *
      (Currency.make cr isTestnet).difficultyTarget.toNat * 6039 < 2 ^ 64) :
    ∃ difficulty, (Currency.make cr isTestnet).nextDifficultyV2 timestamps cumulativeDifficulties =
      .ok difficulty ∧ difficulty.toNat = Currency.windowWork cumulativeDifficulties 0 60 *
        (Currency.make cr isTestnet).difficultyTarget.toNat * 6039 /
          (200 * (Currency.make cr isTestnet).distance timestamps).toNat := by
  have hle := @distance_le cr isTestnet timestamps
  have hdifficulties : cumulativeDifficulties.length = 61 := h.length_difficulties
  obtain ⟨hall, -⟩ := windowWork_eq (i := 0) (j := 60) h.increasing (by omega) (by omega)
  have hdivisor :
      (UInt64.ofInt (100 * 2 * (Currency.make cr isTestnet).distance timestamps)).toNat =
      (200 * (Currency.make cr isTestnet).distance timestamps).toNat := by
    have hofInt := toNat_ofInt (x := 100 * 2 * (Currency.make cr isTestnet).distance timestamps)
      (by omega) (by omega)
    omega
  have hne : UInt64.ofInt (100 * 2 * (Currency.make cr isTestnet).distance timestamps) ≠ 0 :=
    fun hzero ↦ by
      rw [hzero, UInt64.toNat_zero] at hdivisor
      omega
  have hproduct := @toNat_product (cumulativeDifficulties.getD 60 0 -
    cumulativeDifficulties.getD 0 0) (Currency.make cr isTestnet).difficultyTarget
    (by rw [hall]; exact hwork)
  rw [nextDifficultyV2_eq h, if_neg (not_lt.2 hlong), if_neg hne]
  refine ⟨_, rfl, ?_⟩
  rw [UInt64.toNat_div, hproduct, hdivisor, hall]

end Window

/-! ## A window that divides by zero -/

/-- Cumulative difficulties of blocks of one difficulty. -/
def evenDifficulties (difficulty : Difficulty) : List Difficulty :=
  (List.range 61).map fun i ↦ difficulty * UInt64.ofNat (i + 1)

/-- Equal timestamps, and a last one that comes later. -/
def timestampsUpTo (last : Timestamp) : List Timestamp := List.replicate 60 1000 ++ [last]

/-- Equal timestamps are admitted, and a later one after them. -/
theorem admitsWindow_timestampsUpTo {last : Timestamp} (hfirst : 1000 ≤ last)
    (hlast : last ≤ 10000) :
    mainnet.AdmitsWindow 10000 [] (timestampsUpTo last) (evenDifficulties 1000) where
  length_timestamps := by
    rw [make_difficultyWindowV2]
    rfl
  length_difficulties := by
    rw [make_difficultyWindowV2]
    rfl
  increasing := by decide +kernel
  future := by
    intro timestamp hmem
    rw [List.nil_append, timestampsUpTo, List.mem_append, List.mem_singleton] at hmem
    rcases hmem with hmem | rfl
    · rw [List.eq_of_mem_replicate hmem]
      decide
    · exact hlast
  median := by
    intro i hi hwindow
    rw [make_timestampCheckWindowV2] at hwindow ⊢
    have hlength : (timestampsUpTo last).length = 61 := rfl
    rw [List.nil_append] at hi ⊢
    have hbefore : ((timestampsUpTo last).take i).drop (i - 11) = List.replicate 11 1000 := by
      rw [timestampsUpTo, List.take_append_of_le_length (by rw [List.length_replicate]; omega),
        List.take_replicate, List.drop_replicate]
      congr 1
      omega
    have hmedian : medianValue (List.replicate 11 1000) = 1000 := by decide +kernel
    rw [hbefore, hmedian]
    by_cases hin : i < 60
    · rw [timestampsUpTo, List.getD_append _ _ _ _ (by rw [List.length_replicate]; exact hin),
        List.getD_replicate _ hin]
      exact UInt32.le_refl _
    · have heq : i = 60 := by omega
      rw [heq]
      exact hfirst

/-- Sixteen blocks of the window ahead of the others by the future limit, and a last one that is
48 seconds ahead. -/
def balancedTimestamps : List Timestamp :=
  [(5, 1000), (5, 1180), (6, 1000), (5, 1180), (6, 1000), (5, 1180), (8, 1000), (1, 1180),
    (19, 1000), (1, 1048)].flatMap fun stretch ↦ List.replicate stretch.1 stretch.2

/-- No more than five of eleven blocks in a row are ahead, so that the median stays behind. -/
theorem admitsWindow_balancedTimestamps :
    mainnet.AdmitsWindow 1180 [] balancedTimestamps (evenDifficulties 1000) where
  length_timestamps := by
    rw [make_difficultyWindowV2]
    rfl
  length_difficulties := by
    rw [make_difficultyWindowV2]
    rfl
  increasing := by decide +kernel
  future := by
    have hall : ([] ++ balancedTimestamps).all (· ≤ 1180) = true := by decide +kernel
    intro timestamp hmem
    exact of_decide_eq_true (List.all_eq_true.1 hall timestamp hmem)
  median := by
    rw [make_timestampCheckWindowV2]
    decide +kernel

end Naza
