import Naza.MiningTemplate

/-!
# Amounts in parts

`decompose_amount` takes an amount apart by its decimal digits, and `construct_miner_tx` adds the
last parts up again until there are few enough.  Nothing is lost on either way.
-/

open Lib

namespace Naza

/-! ## What a decomposition is -/

/-- A decimal digit times a power of ten. -/
def IsRound (amount : Amount) : Prop :=
  ∃ digit < 10, ∃ order < 20, amount.toNat = digit * 10 ^ order

instance : DecidablePred IsRound := fun _ ↦ inferInstanceAs (Decidable (∃ digit < 10, ∃ _, _))

/-- The sum of some amounts as a number. -/
def totalOf (amounts : List Amount) : ℕ := (amounts.map UInt64.toNat).sum

/-- The sum of those amounts that are not round. -/
def restOf (amounts : List Amount) : ℕ := totalOf (amounts.filter fun amount ↦ ¬ IsRound amount)

/-- The parts that an amount may be taken apart into. -/
structure Decomposes (dustThreshold amount : Amount) (parts : List Amount) : Prop where
  total_eq : totalOf parts = amount.toNat
  ne_zero : ∀ part ∈ parts, part ≠ 0
  round : ∀ part ∈ parts, dustThreshold < part → IsRound part
  rest_le : restOf parts ≤ dustThreshold.toNat

@[simp]
theorem totalOf_nil : totalOf [] = 0 := rfl

@[simp]
theorem totalOf_cons (amount : Amount) (amounts : List Amount) :
    totalOf (amount :: amounts) = amount.toNat + totalOf amounts := rfl

theorem totalOf_append (amounts amounts' : List Amount) :
    totalOf (amounts ++ amounts') = totalOf amounts + totalOf amounts' := by
  rw [totalOf, List.map_append, List.sum_append]
  rfl

theorem totalOf_reverse (amounts : List Amount) : totalOf amounts.reverse = totalOf amounts := by
  rw [totalOf, List.map_reverse, List.sum_reverse]
  rfl

theorem restOf_append (amounts amounts' : List Amount) :
    restOf (amounts ++ amounts') = restOf amounts + restOf amounts' := by
  rw [restOf, List.filter_append, totalOf_append]
  rfl

theorem restOf_le (amounts : List Amount) : restOf amounts ≤ totalOf amounts := by
  induction amounts with
  | nil => exact Nat.le_refl _
  | cons amount amounts ih =>
    have hcons := restOf_append [amount] amounts
    have hone : restOf [amount] ≤ amount.toNat := by
      rw [restOf, List.filter_cons]
      split <;> simp
    rw [List.singleton_append] at hcons
    rw [hcons, totalOf_cons]
    omega

theorem restOf_singleton {amount : Amount} (h : IsRound amount) : restOf [amount] = 0 := by
  rw [restOf, List.filter_cons, if_neg (by simpa using h)]
  rfl

/-- A sum that does not reach `2^64` is the sum of the words. -/
theorem toNat_sum {amounts : List Amount} (h : totalOf amounts < 2 ^ 64) :
    amounts.sum.toNat = totalOf amounts := by
  induction amounts with
  | nil => rfl
  | cons amount amounts ih =>
    rw [totalOf_cons] at h
    rw [List.sum_cons, UInt64.toNat_add, ih (by omega), totalOf_cons]
    exact Nat.mod_eq_of_lt h

/-! ## The digits -/

section Digits

variable {dustThreshold dust order amount : Amount}

/-- The two parts of the dust. -/
theorem totalOf_dustAmounts (dust : Amount) : totalOf (dustAmounts dust) = dust.toNat := by
  have hle : (dust % 1000).toNat ≤ dust.toNat := by
    rw [UInt64.toNat_mod]
    exact Nat.mod_le _ _
  have hsub : (dust - dust % 1000).toNat = dust.toNat - (dust % 1000).toNat :=
    UInt64.toNat_sub_of_le _ _ (UInt64.le_iff_toNat_le.2 hle)
  have hone : ∀ a : Amount, totalOf (if a ≠ 0 then [a] else []) = a.toNat := by
    intro a
    split_ifs with ha
    · simp
    · rw [not_not.1 ha]
      rfl
  rw [dustAmounts, totalOf_append, hone, hone, hsub]
  omega

theorem mem_dustAmounts {part : Amount} (h : part ∈ dustAmounts dust) :
    part ≠ 0 ∧ part.toNat ≤ dust.toNat := by
  constructor
  · rw [dustAmounts] at h
    grind
  · have hsum : part.toNat ≤ totalOf (dustAmounts dust) :=
      List.single_le_sum (by simp) _ (List.mem_map_of_mem h)
    rwa [totalOf_dustAmounts] at hsum

/-- Where the loop stands: `order` is the weight of the next digit, and dust that was paid out is
followed by amounts above the threshold only. -/
structure AtDigit (dustThreshold : Amount) (isDustHandled : Bool) (dust order amount : Amount)
    (k : ℕ) : Prop where
  order_eq : amount ≠ 0 → order.toNat = 10 ^ k
  fits : dust.toNat + amount.toNat * 10 ^ k < 2 ^ 64
  dust_le : dust.toNat ≤ dustThreshold.toNat
  handled : isDustHandled = true → dustThreshold.toNat < dust.toNat + 10 ^ k

/-- What the loop pays out from there on. -/
structure PaysOut (dustThreshold : Amount) (isDustHandled : Bool) (total : ℕ)
    (parts : List Amount) : Prop where
  total_eq : totalOf parts = total
  ne_zero : ∀ part ∈ parts, part ≠ 0
  round : ∀ part ∈ parts, dustThreshold < part → IsRound part
  rest_le : restOf parts ≤ if isDustHandled then 0 else dustThreshold.toNat

variable {isDustHandled : Bool} {k : ℕ}

/-- The value of the digit that the loop looks at. -/
theorem AtDigit.toNat_chunk (h : AtDigit dustThreshold isDustHandled dust order amount k)
    (hamount : amount ≠ 0) :
    (amount % 10 * order).toNat = amount.toNat % 10 * 10 ^ k := by
  have hfits := h.fits
  have hle : amount.toNat % 10 * 10 ^ k ≤ amount.toNat * 10 ^ k :=
    Nat.mul_le_mul_right _ (Nat.mod_le _ _)
  rw [UInt64.toNat_mul, UInt64.toNat_mod, h.order_eq hamount]
  exact Nat.mod_eq_of_lt (by change amount.toNat % 10 * 10 ^ k < 2 ^ 64; omega)

/-- The digit and the digits above it. -/
theorem amount_split (a k : ℕ) : a * 10 ^ k = a % 10 * 10 ^ k + a / 10 * 10 ^ (k + 1) := by
  have hdigits := Nat.mod_add_div a 10
  calc a * 10 ^ k = (a % 10 + 10 * (a / 10)) * 10 ^ k := by rw [hdigits]
    _ = a % 10 * 10 ^ k + a / 10 * 10 ^ (k + 1) := by rw [pow_succ]; ring

/-- The weight of the next digit, if there is one. -/
theorem AtDigit.order_mul (h : AtDigit dustThreshold isDustHandled dust order amount k)
    (hnext : amount / 10 ≠ 0) : (order * 10).toNat = 10 ^ (k + 1) := by
  have hfits := h.fits
  have hdiv : (amount / 10).toNat = amount.toNat / 10 := by rw [UInt64.toNat_div]; rfl
  have hpos : 0 < amount.toNat / 10 := by
    rw [← hdiv]
    exact Nat.pos_of_ne_zero fun h ↦ hnext (UInt64.toNat_inj.1 h)
  have hamount : amount ≠ 0 := by
    rintro rfl
    exact hnext rfl
  have hle : 10 ^ (k + 1) ≤ amount.toNat / 10 * 10 ^ (k + 1) := Nat.le_mul_of_pos_left _ hpos
  have hsplit := amount_split amount.toNat k
  rw [UInt64.toNat_mul, h.order_eq hamount]
  change 10 ^ k * 10 % 2 ^ 64 = _
  rw [← pow_succ]
  exact Nat.mod_eq_of_lt (by omega)

theorem AtDigit.toNat_add_chunk (h : AtDigit dustThreshold isDustHandled dust order amount k)
    (hamount : amount ≠ 0) :
    (dust + amount % 10 * order).toNat = dust.toNat + amount.toNat % 10 * 10 ^ k := by
  have hfits := h.fits
  have hsplit := amount_split amount.toNat k
  rw [UInt64.toNat_add, h.toNat_chunk hamount]
  exact Nat.mod_eq_of_lt (by omega)

/-- The digit goes to the dust. -/
theorem AtDigit.accumulate (h : AtDigit dustThreshold isDustHandled dust order amount k)
    (hamount : amount ≠ 0) (hle : dust + amount % 10 * order ≤ dustThreshold) :
    AtDigit dustThreshold isDustHandled (dust + amount % 10 * order) (order * 10) (amount / 10)
      (k + 1) := by
  have hsplit := amount_split amount.toNat k
  have hdiv : (amount / 10).toNat = amount.toNat / 10 := by rw [UInt64.toNat_div]; rfl
  have hfits := h.fits
  constructor
  · exact h.order_mul
  · rw [h.toNat_add_chunk hamount, hdiv]
    omega
  · exact UInt64.le_iff_toNat_le.1 hle
  · intro hhandled
    have hbound := h.handled hhandled
    rw [h.toNat_add_chunk hamount, pow_succ]
    omega

/-- The digit is paid out. -/
theorem AtDigit.payOut (h : AtDigit dustThreshold isDustHandled dust order amount k)
    (hamount : amount ≠ 0) (hlt : ¬ dust + amount % 10 * order ≤ dustThreshold) :
    AtDigit dustThreshold (isDustHandled || dust ≠ 0) dust (order * 10) (amount / 10) (k + 1) := by
  have hsplit := amount_split amount.toNat k
  have hdiv : (amount / 10).toNat = amount.toNat / 10 := by rw [UInt64.toNat_div]; rfl
  have hfits := h.fits
  constructor
  · exact h.order_mul
  · rw [hdiv]
    omega
  · exact h.dust_le
  · intro _
    rw [UInt64.le_iff_toNat_le, h.toNat_add_chunk hamount] at hlt
    have hdigit : amount.toNat % 10 * 10 ^ k ≤ 10 * 10 ^ k :=
      Nat.mul_le_mul_right _ (Nat.mod_lt _ (by norm_num)).le
    rw [pow_succ]
    omega

/-- Once the dust was paid out only a zero is added to it. -/
theorem AtDigit.digit_eq_zero (h : AtDigit dustThreshold true dust order amount k)
    (hamount : amount ≠ 0) (hle : dust + amount % 10 * order ≤ dustThreshold) :
    amount.toNat % 10 * 10 ^ k = 0 := by
  have hbound := h.handled rfl
  rw [UInt64.le_iff_toNat_le, h.toNat_add_chunk hamount] at hle
  by_contra hne
  have hpos : 0 < amount.toNat % 10 := Nat.pos_of_ne_zero fun h ↦ hne (by rw [h, Nat.zero_mul])
  have hdigit : 10 ^ k ≤ amount.toNat % 10 * 10 ^ k := Nat.le_mul_of_pos_left _ hpos
  omega

/-- A digit that is paid out is round. -/
theorem AtDigit.isRound_chunk (h : AtDigit dustThreshold isDustHandled dust order amount k)
    (hamount : amount ≠ 0) : IsRound (amount % 10 * order) := by
  have hfits := h.fits
  have hpos : 0 < amount.toNat := Nat.pos_of_ne_zero fun h ↦ hamount (UInt64.toNat_inj.1 h)
  have hle : 10 ^ k ≤ amount.toNat * 10 ^ k := Nat.le_mul_of_pos_left _ hpos
  have hk : k < 20 := by
    by_contra hge
    have hpow : 10 ^ 20 ≤ 10 ^ k := Nat.pow_le_pow_right (by norm_num) (Nat.not_lt.1 hge)
    omega
  exact ⟨amount.toNat % 10, Nat.mod_lt _ (by norm_num), k, hk, h.toNat_chunk hamount⟩

/-! ## What is paid out -/

theorem PaysOut.nil (dustThreshold : Amount) (isDustHandled : Bool) :
    PaysOut dustThreshold isDustHandled 0 [] := by
  constructor
  · rfl
  · simp
  · simp
  · exact Nat.zero_le _

/-- Dust paid out, and behind it what is paid out of handled dust. -/
theorem PaysOut.dustFirst (hle : dust.toNat ≤ dustThreshold.toNat) {total : ℕ} {parts : List Amount}
    (h : PaysOut dustThreshold true total parts) :
    PaysOut dustThreshold false (dust.toNat + total) (dustAmounts dust ++ parts) := by
  constructor
  · rw [totalOf_append, totalOf_dustAmounts, h.total_eq]
  · intro part hmem
    rcases List.mem_append.1 hmem with hmem | hmem
    · exact (mem_dustAmounts hmem).1
    · exact h.ne_zero part hmem
  · intro part hmem hlt
    rcases List.mem_append.1 hmem with hmem | hmem
    · have hpart := (mem_dustAmounts hmem).2
      have hlt := UInt64.lt_iff_toNat_lt.1 hlt
      omega
    · exact h.round part hmem hlt
  · have hrest := h.rest_le
    have hdust := restOf_le (dustAmounts dust)
    rw [totalOf_dustAmounts] at hdust
    rw [if_pos rfl] at hrest
    rw [restOf_append, if_neg Bool.false_ne_true]
    omega

/-- A round amount paid out in front. -/
theorem PaysOut.cons {total : ℕ} {parts : List Amount} {chunk : Amount} (hround : IsRound chunk)
    (h : PaysOut dustThreshold isDustHandled total parts) :
    PaysOut dustThreshold isDustHandled (chunk.toNat + total)
      ((if chunk ≠ 0 then [chunk] else []) ++ parts) := by
  split_ifs with hzero
  · constructor
    · rw [List.singleton_append, totalOf_cons, h.total_eq]
    · intro part hmem
      rcases List.mem_cons.1 hmem with rfl | hmem
      · exact hzero
      · exact h.ne_zero part hmem
    · intro part hmem hlt
      rcases List.mem_cons.1 hmem with rfl | hmem
      · exact hround
      · exact h.round part hmem hlt
    · rw [restOf_append, restOf_singleton hround, Nat.zero_add]
      exact h.rest_le
  · rw [not_not.1 hzero, UInt64.toNat_zero, Nat.zero_add, List.nil_append]
    exact h

/-- The dust is paid out once, where there is any. -/
theorem PaysOut.flush (hle : dust.toNat ≤ dustThreshold.toNat) {total : ℕ} {parts : List Amount}
    (h : PaysOut dustThreshold (isDustHandled || dust ≠ 0) total parts) :
    PaysOut dustThreshold isDustHandled ((if isDustHandled then 0 else dust.toNat) + total)
      ((if isDustHandled = false ∧ dust ≠ 0 then dustAmounts dust else []) ++ parts) := by
  cases isDustHandled with
  | true => simpa using h
  | false =>
    by_cases hdust : dust = 0
    · simpa [hdust] using h
    · rw [if_neg Bool.false_ne_true, if_pos ⟨rfl, hdust⟩]
      exact PaysOut.dustFirst hle (by simpa [hdust] using h)

/-- The loop pays out the dust that it has not yet paid out and the digits that are left. -/
theorem AtDigit.decomposeFrom_paysOut {fuel : ℕ}
    (h : AtDigit dustThreshold isDustHandled dust order amount k)
    (hfuel : amount.toNat < 10 ^ fuel) :
    PaysOut dustThreshold isDustHandled
      ((if isDustHandled then 0 else dust.toNat) + amount.toNat * 10 ^ k)
      (decomposeFrom dustThreshold fuel isDustHandled dust order amount) := by
  induction fuel generalizing isDustHandled dust order amount k with
  | zero =>
    have hzero : amount = 0 := UInt64.toNat_inj.1 (by rw [UInt64.toNat_zero]; omega)
    have hflush := PaysOut.flush h.dust_le (PaysOut.nil dustThreshold (isDustHandled || dust ≠ 0))
    rw [decomposeFrom, if_pos hzero, hzero, UInt64.toNat_zero, Nat.zero_mul]
    rwa [List.append_nil] at hflush
  | succ fuel ih =>
    have hdiv : (amount / 10).toNat = amount.toNat / 10 := by rw [UInt64.toNat_div]; rfl
    have hsplit := amount_split amount.toNat k
    have hfuel' : (amount / 10).toNat < 10 ^ fuel := by
      rw [hdiv]
      omega
    rw [decomposeFrom]
    by_cases hamount : amount = 0
    · have hflush := PaysOut.flush h.dust_le (PaysOut.nil dustThreshold (isDustHandled || dust ≠ 0))
      rw [if_pos hamount, hamount, UInt64.toNat_zero, Nat.zero_mul]
      rwa [List.append_nil] at hflush
    rw [if_neg hamount]
    dsimp only
    by_cases hle : dust + amount % 10 * order ≤ dustThreshold
    · rw [if_pos hle]
      have hnext := ih (h.accumulate hamount hle) hfuel'
      rw [h.toNat_add_chunk hamount, hdiv] at hnext
      cases isDustHandled with
      | true =>
        have hzero := h.digit_eq_zero hamount hle
        rw [if_pos rfl] at hnext ⊢
        rwa [hsplit, hzero, Nat.zero_add]
      | false =>
        rw [if_neg Bool.false_ne_true] at hnext ⊢
        rwa [hsplit, ← Nat.add_assoc]
    · rw [if_neg hle]
      have hnext := ih (h.payOut hamount hle) hfuel'
      -- no dust is left to be paid out
      have hpaid : (if (isDustHandled || decide (dust ≠ 0)) = true then 0 else dust.toNat) = 0 := by
        split_ifs with hor
        · rfl
        · have hnone : isDustHandled = false ∧ dust = 0 := by simpa using hor
          rw [hnone.2, UInt64.toNat_zero]
      rw [hpaid, Nat.zero_add, hdiv] at hnext
      have hchunk := PaysOut.cons (h.isRound_chunk hamount) hnext
      rw [h.toNat_chunk hamount, ← hsplit] at hchunk
      exact PaysOut.flush h.dust_le hchunk

end Digits

theorem decomposes (dustThreshold amount : Amount) :
    Decomposes dustThreshold amount (decomposeAmount amount dustThreshold) := by
  have hlt := amount.toNat_lt
  have hstart : AtDigit dustThreshold false 0 1 amount 0 := by
    refine ⟨fun _ ↦ rfl, ?_, Nat.zero_le _, fun h ↦ absurd h Bool.false_ne_true⟩
    rw [UInt64.toNat_zero, pow_zero]
    omega
  have hfuel : amount.toNat < 10 ^ 20 := by omega
  have hpays := hstart.decomposeFrom_paysOut hfuel
  constructor
  · have htotal := hpays.total_eq
    rw [if_neg Bool.false_ne_true, UInt64.toNat_zero, pow_zero, Nat.zero_add, Nat.mul_one] at htotal
    exact htotal
  · exact hpays.ne_zero
  · exact hpays.round
  · exact hpays.rest_le

/-! ## The outputs of the coinbase -/

/-- Adding the last amounts up keeps the sum. -/
theorem totalOf_mergeLast {maxOuts fuel : ℕ} {amounts : List Amount}
    (hfits : totalOf amounts < 2 ^ 64) :
    totalOf (mergeLast maxOuts fuel amounts) = totalOf amounts := by
  induction fuel generalizing amounts with
  | zero =>
    unfold mergeLast
    rfl
  | succ fuel ih =>
    match amounts with
    | [] => rfl
    | [amount] => rfl
    | last :: before :: amounts =>
      rw [mergeLast]
      split_ifs with hlt
      · have hsum : totalOf ((before + last) :: amounts) = totalOf (last :: before :: amounts) := by
          simp only [totalOf_cons] at hfits ⊢
          rw [UInt64.toNat_add, Nat.mod_eq_of_lt (by omega)]
          omega
        rw [ih (hsum ▸ hfits), hsum]
      · rfl

theorem length_mergeLast_le {maxOuts fuel : ℕ} {amounts : List Amount} (hpos : 1 ≤ maxOuts)
    (hfuel : amounts.length ≤ fuel + maxOuts) :
    (mergeLast maxOuts fuel amounts).length ≤ maxOuts := by
  induction fuel generalizing amounts with
  | zero =>
    have hid : mergeLast maxOuts 0 amounts = amounts := by
      unfold mergeLast
      rfl
    rw [hid]
    omega
  | succ fuel ih =>
    match amounts with
    | [] => simp [mergeLast]
    | [amount] => simpa [mergeLast] using hpos
    | last :: before :: amounts =>
      rw [mergeLast]
      split_ifs with hlt
      · refine ih ?_
        simp only [List.length_cons] at hfuel ⊢
        omega
      · simp only [List.length_cons]
        omega

/-- There are at most as many outputs as allowed, and always one is. -/
theorem length_minerAmounts_le (blockReward : Amount) (maxOuts : ℕ) :
    (minerAmounts blockReward maxOuts).length ≤ max 1 maxOuts := by
  rw [minerAmounts, List.length_reverse]
  have hlimit : (if maxOuts = 0 then 1 else maxOuts) = max 1 maxOuts := by
    split_ifs <;> omega
  rw [hlimit]
  refine length_mergeLast_le (Nat.le_max_left _ _) ?_
  rw [List.length_reverse]
  omega

theorem totalOf_minerAmounts (blockReward : Amount) (maxOuts : ℕ) :
    totalOf (minerAmounts blockReward maxOuts) = blockReward.toNat := by
  have htotal := (decomposes Parameters.defaultDustThreshold blockReward).total_eq
  have hreverse := totalOf_reverse (decomposeAmount blockReward Parameters.defaultDustThreshold)
  have hlt := blockReward.toNat_lt
  rw [minerAmounts, totalOf_reverse, totalOf_mergeLast (by omega), hreverse, htotal]

/-- The sum that `construct_miner_tx` compares with the reward. -/
theorem sum_minerAmounts (blockReward : Amount) (maxOuts : ℕ) :
    (minerAmounts blockReward maxOuts).sum = blockReward := by
  have hlt := blockReward.toNat_lt
  have htotal := totalOf_minerAmounts blockReward maxOuts
  apply UInt64.toNat_inj.1
  rw [toNat_sum (by omega), htotal]

theorem mapM_eq_none_iff {α β : Type} {f : α → Option β} {l : List α} :
    l.mapM f = none ↔ ∃ x ∈ l, f x = none := by
  induction l with
  | nil => simp
  | cons x l ih =>
    rw [List.mapM_cons, List.exists_mem_cons_iff, ← ih]
    cases hx : f x with
    | none => simp
    | some y => cases l.mapM f <;> simp

theorem bind_some_eq_none_iff {α β γ : Type} {x : Option α} {y : Option β} {f : α → β → γ} :
    (x.bind fun a ↦ y.bind fun b ↦ some (f a b)) = none ↔ x = none ∨ y = none := by
  cases x with
  | none => simp
  | some a => cases y <;> simp

theorem map_of_mapM_eq_some {α β γ : Type} {f : α → Option β} {g : β → γ} {h : α → γ}
    {l : List α} {ys : List β} (hf : ∀ x y, f x = some y → g y = h x) (hl : l.mapM f = some ys) :
    ys.map g = l.map h := by
  induction l generalizing ys with
  | nil =>
    rw [List.mapM_nil] at hl
    rw [← Option.some.inj hl]
    rfl
  | cons x l ih =>
    simp only [List.mapM_cons, Option.bind_eq_bind, Option.bind_eq_some_iff] at hl
    obtain ⟨y, hy, ys', hys, hl⟩ := hl
    rw [← Option.some.inj hl, List.map_cons, List.map_cons, hf x y hy, ih hys]

/-- The key of an output of the coinbase cannot be derived. -/
def OutputKeyFails (w : WalletCrypto) (txkey : KeyPair) (minerAddress : AccountPublicAddress)
    (no : ℕ) : Prop :=
  (w.generateKeyDerivation minerAddress.1 txkey.secretKey).bind
    (fun derivation ↦ w.derivePublicKey derivation no minerAddress.2) = none

/-- The coinbase pays out the reward, and is refused for its keys or its nonce only. -/
structure PaysReward (reward : Amount) (maxOuts : ℕ) (keyFails : ℕ → Prop)
    (extraNonce : BinaryArray)
    (coinbase : Option Transaction) : Prop where
  total_eq : totalOf (minerAmounts reward maxOuts) = reward.toNat
  length_le : (minerAmounts reward maxOuts).length ≤ max 1 maxOuts
  eq_none_iff : coinbase = none ↔ txExtraNonceMaxCount < extraNonce.length ∨
    ∃ no < (minerAmounts reward maxOuts).length, keyFails no
  outputs : ∀ tx, coinbase = some tx →
    tx.outputs.map TransactionOutput.amount = minerAmounts reward maxOuts

theorem addExtraNonce_eq_none_iff (extra extraNonce : BinaryArray) :
    (if extraNonce = [] then some extra
      else addExtraNonceToTransactionExtra extra extraNonce) = none ↔
        txExtraNonceMaxCount < extraNonce.length := by
  unfold addExtraNonceToTransactionExtra
  by_cases hempty : extraNonce = []
  · simp [hempty]
  · simp [hempty]

/-- The outputs fail where one of the keys does. -/
theorem minerOutputs_eq_none_iff {w : WalletCrypto} {txkey : KeyPair}
    {minerAddress : AccountPublicAddress} {outAmounts : List Amount} :
    (outAmounts.zipIdx.mapM fun (amount, no) ↦ do
      let derivation ← w.generateKeyDerivation minerAddress.1 txkey.secretKey
      let key ← w.derivePublicKey derivation no minerAddress.2
      some { amount, target := .keyOutput { key } : TransactionOutput }) = none ↔
        ∃ no < outAmounts.length, OutputKeyFails w txkey minerAddress no := by
  have hfails : ∀ (amount : Amount) (no : ℕ), (do
      let derivation ← w.generateKeyDerivation minerAddress.1 txkey.secretKey
      let key ← w.derivePublicKey derivation no minerAddress.2
      some { amount, target := .keyOutput { key } : TransactionOutput }) = none ↔
        OutputKeyFails w txkey minerAddress no := by
    intro amount no
    rw [OutputKeyFails]
    cases w.generateKeyDerivation minerAddress.1 txkey.secretKey with
    | none => simp
    | some derivation =>
      cases hkey : w.derivePublicKey derivation no minerAddress.2 <;> simp [hkey]
  rw [mapM_eq_none_iff]
  constructor
  · rintro ⟨⟨amount, no⟩, hmem, hnone⟩
    have hget := List.mem_zipIdx_iff_getElem?.1 hmem
    exact ⟨no, (List.getElem?_eq_some_iff.1 hget).1, (hfails amount no).1 hnone⟩
  · rintro ⟨no, hlt, hnone⟩
    refine ⟨(outAmounts[no], no), List.mem_zipIdx_iff_getElem?.2 (List.getElem?_eq_getElem hlt), ?_⟩
    exact (hfails _ no).2 hnone

theorem Currency.constructMinerTx_paysReward (c : Currency) (w : WalletCrypto) (txkey : KeyPair)
    (blockMajorVersion : UInt8) (height : Height) (effectiveMedianSize : UInt64)
    (alreadyGeneratedCoins : Amount) (currentBlockSize : UInt64) (fee : Amount)
    (minerAddress : AccountPublicAddress) (extraNonce : BinaryArray) (maxOuts : ℕ) :
    PaysReward (c.getBlockReward blockMajorVersion effectiveMedianSize currentBlockSize
        alreadyGeneratedCoins fee).1 maxOuts (OutputKeyFails w txkey minerAddress) extraNonce
      (c.constructMinerTx w txkey blockMajorVersion height effectiveMedianSize
        alreadyGeneratedCoins currentBlockSize fee minerAddress extraNonce maxOuts) := by
  generalize hreward : c.getBlockReward blockMajorVersion effectiveMedianSize currentBlockSize
    alreadyGeneratedCoins fee = reward
  unfold constructMinerTx
  rw [hreward]
  obtain ⟨reward, emissionChange⟩ := reward
  have hsum := sum_minerAmounts reward maxOuts
  constructor
  · exact totalOf_minerAmounts _ _
  · exact length_minerAmounts_le _ _
  · rw [← addExtraNonce_eq_none_iff (addTransactionPublicKeyToExtra [] txkey.publicKey),
      ← minerOutputs_eq_none_iff]
    simp only [hsum, ne_eq, not_true_eq_false, if_false]
    exact bind_some_eq_none_iff
  · intro tx htx
    simp only [Option.bind_eq_bind, Option.bind_eq_some_iff, hsum, ne_eq, not_true_eq_false,
      if_false, Option.some.injEq] at htx
    obtain ⟨extra, -, outputs, houtputs, rfl⟩ := htx
    have hamounts := map_of_mapM_eq_some (g := TransactionOutput.amount) (h := Prod.fst) ?_ houtputs
    · rw [hamounts, List.zipIdx_map_fst]
    · rintro ⟨amount, no⟩ output houtput
      simp only [Option.bind_eq_some_iff] at houtput
      obtain ⟨_, -, _, -, houtput⟩ := houtput
      rw [← Option.some.inj houtput]

/-- Every amount is taken apart without loss, and the coinbase pays out all of its reward. -/
theorem decomposeAmount_exact :
    (∀ amount dustThreshold,
      Decomposes dustThreshold amount (decomposeAmount amount dustThreshold)) ∧
    ∀ (c : Currency) (w : WalletCrypto) (txkey : KeyPair) (blockMajorVersion : UInt8)
      (height : Height) (effectiveMedianSize : UInt64) (alreadyGeneratedCoins : Amount)
      (currentBlockSize : UInt64) (fee : Amount) (minerAddress : AccountPublicAddress)
      (extraNonce : BinaryArray) (maxOuts : ℕ),
      PaysReward (c.getBlockReward blockMajorVersion effectiveMedianSize currentBlockSize
          alreadyGeneratedCoins fee).1 maxOuts (OutputKeyFails w txkey minerAddress) extraNonce
        (c.constructMinerTx w txkey blockMajorVersion height effectiveMedianSize
          alreadyGeneratedCoins currentBlockSize fee minerAddress extraNonce maxOuts) :=
  ⟨fun amount dustThreshold ↦ decomposes dustThreshold amount,
    Currency.constructMinerTx_paysReward⟩

end Naza
