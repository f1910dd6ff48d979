import Naza.Lib.Stacks
import Naza.Wallet.State

/-!
# Choosing the coins of a transaction

`UnspentSelector`: coins are filed by their leading digit, a greedy search takes some of them, and
the fee is raised until it covers the size of the transaction.  Sums of amounts are natural numbers;
the one difference that the search lets wrap is taken modulo `2 ^ 64`.
-/

open Lib

namespace Naza

/-! ## Data -/

/-- Coins by number of digits and by leading digit; the top of a stack is the end of the vector. -/
abbrev HaveCoins := Store ℕ (Stacks ℕ Api.Output)

abbrev DustCoins := Stacks Amount Api.Output

/-- What the search works on. -/
structure Picking where
  haveCoins : HaveCoins := ∅
  dustCoins : DustCoins := ∅
  optimizationUnspents : List Api.Output := []
  usedTotal : ℕ := 0
  inputsCount : ℕ := 0

/-- How `select_optimal_outputs` ends.  The last fee is told where funds are missing. -/
inductive Selection where
  | notEnoughFunds (lastFee : ℕ)
  | doesNotFitInBlock
  | selected (change : ℕ) (usedUnspents : List Api.Output) (usedTotal : ℕ) (raAmounts : List Amount)
  deriving DecidableEq

/-- `MINIMUM_FEE` and `DEFAULT_DUST_THRESHOLD`. -/
def minimumFee : ℕ := 1000000
def defaultDustThreshold : ℕ := 1000000

/-- `fake_large`. -/
def fakeLarge : ℕ := 1000000000000000000

/-- `STACK_OPTIMIZATION_THRESHOLD` and `TWO_THRESHOLD`. -/
def stackOptimizationThreshold : ℕ := 20
def twoThreshold : ℕ := 10

/-- `get_maximum_tx_size`. -/
def getMaximumTxSize (inputCount outputCount mixinCount : ℕ) : ℕ :=
  let amountSize := 8 + 2
  let outputsSize := outputCount * (1 + 32 + amountSize)
  let headerSize := 1 + 8 + 1 + 32
  let inputSize := 1 + amountSize + 32 + 64 + 1 + 4 + mixinCount * (4 + 64)
  headerSize + outputsSize + inputSize * inputCount

/-! ## Taking and returning coins -/

/-- Number of digits less one, and leading digit; an amount has at most 20 digits. -/
def leadingDigit : ℕ → ℕ → ℕ × ℕ
  | 0, am => (0, am)
  | steps + 1, am =>
    if 9 < am then ((leadingDigit steps (am / 10)).1 + 1, (leadingDigit steps (am / 10)).2)
    else (0, am)

namespace HaveCoins

/-- `have_coins[digit][am].push_back(un)`. -/
def push (coins : HaveCoins) (digit am : ℕ) (un : Api.Output) : HaveCoins :=
  Store.put coins digit (Stacks.push ((Store.get coins digit).getD ∅) am un)

/-- The last coin of a stack; a stack and a digit without coins are erased. -/
def pop (coins : HaveCoins) (digit am : ℕ) : Option (Api.Output × HaveCoins) :=
  match Store.get coins digit with
  | none => none
  | some piles =>
    match Stacks.pop piles am with
    | none => none
    | some (un, piles) =>
      some (un, if piles.toList.isEmpty then Store.remove coins digit
        else Store.put coins digit piles)

/-- All stacks in the order of the map. -/
def allStacks (coins : HaveCoins) : List (ℕ × ℕ × List Api.Output) :=
  coins.toList.flatMap fun e ↦ e.2.toList.map fun f ↦ (e.1, f.1, f.2)

end HaveCoins

/-- A coin, filed as not being dust. -/
def Picking.fileCoin (un : Api.Output) (s : Picking) : Picking :=
  let digits := leadingDigit 20 un.amount.toNat
  { s with haveCoins := HaveCoins.push s.haveCoins digits.1 digits.2 un }

/-- A coin, filed as dust. -/
def Picking.fileDust (un : Api.Output) (s : Picking) : Picking :=
  { s with dustCoins := Stacks.push s.dustCoins un.amount un }

section createHaveCoins

variable (c : Currency) (blockHeight : Height) (blockTime : Timestamp) (confirmedHeight : Height)

/-- One coin of `create_have_coins`. -/
def fileUnspent (coins : ℕ × Picking) (un : Api.Output) : ℕ × Picking :=
  if confirmedHeight ≤ un.height then coins
  else if c.isTransactionSpendTimeUnlocked un.unlockTime blockHeight blockTime = false then coins
  else if isDust un.amount then (coins.1, coins.2.fileDust un)
  else (max coins.1 (leadingDigit 20 un.amount.toNat).1, coins.2.fileCoin un)

/-- `create_have_coins`: the largest number of digits less one, and the coins. -/
def createHaveCoins (unspents : List Api.Output) : ℕ × Picking :=
  unspents.reverse.foldl (fileUnspent c blockHeight blockTime confirmedHeight) (0, {})

end createHaveCoins

namespace Picking

/-- A coin taken for the transaction. -/
def use (un : Api.Output) (s : Picking) : Picking :=
  { s with
    optimizationUnspents := s.optimizationUnspents ++ [un]
    usedTotal := s.usedTotal + un.amount.toNat
    inputsCount := s.inputsCount + 1 }

/-- The top of a stack of coins; there is no value where the code would read an empty vector. -/
def takeCoin (digit am : ℕ) (s : Picking) : Option Picking :=
  match HaveCoins.pop s.haveCoins digit am with
  | none => none
  | some (un, haveCoins) => some (({ s with haveCoins } : Picking).use un)

/-- The top of a stack of dust. -/
def takeDust (amount : Amount) (s : Picking) : Option Picking :=
  match Stacks.pop s.dustCoins amount with
  | none => none
  | some (un, dustCoins) => some (({ s with dustCoins } : Picking).use un)

/-- One coin of `unoptimize_amounts`, given back. -/
def giveBack (s : Picking) (un : Api.Output) : Picking :=
  let s := { s with
    usedTotal := s.usedTotal - un.amount.toNat
    inputsCount := s.inputsCount - 1 }
  if un.dust = false then s.fileCoin un else s.fileDust un

/-- `unoptimize_amounts`. -/
def unoptimizeAmounts (s : Picking) : Picking :=
  { s.optimizationUnspents.foldl giveBack s with optimizationUnspents := [] }

/-! ## Optimizing -/

/-- The best two leading digits of `optimize_amounts` that complete a digit. -/
def bestPair (am : ℕ) (piles : List (ℕ × List Api.Output)) : Option (ℕ × ℕ) :=
  ((piles.flatMap fun a ↦ piles.map fun b ↦ (a, b)).foldl (fun best (a, b) ↦
    if (a.1 + b.1 + am) % 10 = 0 ∧ (twoThreshold ≤ a.2.length ∨ twoThreshold ≤ b.2.length) ∧
        best.1 < a.2.length + b.2.length then
      (a.2.length + b.2.length, some (a.1, b.1))
    else best) (0, none)).2

/-- The best single leading digit, zero if there is none. -/
def bestSingle (am : ℕ) : List (ℕ × List Api.Output) → ℕ → ℕ → ℕ
  | [], best, _ => best
  | (a, uns) :: piles, best, weight =>
    if (a + am) % 10 = 0 then a
    else if 10 - am < a ∧ weight < uns.length then bestSingle am piles a uns.length
    else bestSingle am piles best weight

/-- The digit that is missing to the total. -/
def missingDigit (totalAmount digit : ℕ) (s : Picking) : ℕ :=
  10 - (fakeLarge + totalAmount + 10 ^ digit - 1 + 2 ^ 64 - s.usedTotal) % 2 ^ 64 / 10 ^ digit % 10

/-- One digit of `optimize_amounts`. -/
def optimizeDigit (totalAmount digit : ℕ) (s : Picking) : Option Picking :=
  match Store.get s.haveCoins digit with
  | none => some s
  | some piles =>
    match bestPair (s.missingDigit totalAmount digit) piles.toList with
    | some (a, b) => (s.takeCoin digit a).bind (takeCoin digit b)
    | none =>
      if s.missingDigit totalAmount digit = 10 then some s
      else if bestSingle (s.missingDigit totalAmount digit) piles.toList 0 0 = 0 then some s
      else s.takeCoin digit (bestSingle (s.missingDigit totalAmount digit) piles.toList 0 0)

/-- `optimize_amounts`, over the digits that are left. -/
def optimizeDigits (totalAmount : ℕ) : List ℕ → Picking → Option Picking
  | [], s => some s
  | digit :: digits, s =>
    if totalAmount ≤ s.usedTotal ∧ s.usedTotal < 10 ^ digit then some s
    else (s.optimizeDigit totalAmount digit).bind (optimizeDigits totalAmount digits)

/-- `optimize_amounts`. -/
def optimizeAmounts (maxDigit totalAmount : ℕ) (s : Picking) : Option Picking :=
  optimizeDigits totalAmount (List.range (maxDigit + 1)) s

/-! ## Selecting for a fixed fee -/

/-- A single dust coin that is large enough. -/
def takeLargeDust (totalAmount : ℕ) (s : Picking) : Option Picking :=
  if s.usedTotal < totalAmount then
    match s.dustCoins.toList.find? fun e ↦ totalAmount - s.usedTotal ≤ e.1.toNat with
    | some (amount, _) => s.takeDust amount
    | none => some s
  else some s

/-- The key of the largest dust. -/
def largestDust (s : Picking) : Option Amount := s.dustCoins.toList.getLast?.map Prod.fst

/-- The largest dust coins, at most `optimizationCount` of them; the count that is left. -/
def takeLargestDust (totalAmount : ℕ) : ℕ → Picking → Option (ℕ × Picking)
  | 0, s => some (0, s)
  | optimizationCount + 1, s =>
    if s.usedTotal < totalAmount ∧ s.largestDust.isSome then
      (s.takeDust (s.largestDust.getD 0)).bind (takeLargestDust totalAmount optimizationCount)
    else some (optimizationCount + 1, s)

/-- The highest stack above the threshold. -/
def bestStack (s : Picking) : Option (ℕ × ℕ) :=
  ((HaveCoins.allStacks s.haveCoins).foldl (fun best e ↦
    if best.1 < e.2.2.length then (e.2.2.length, some (e.1, e.2.1)) else best)
    (stackOptimizationThreshold, none)).2

/-- Coins of one stack. -/
def takeCoins (digit am : ℕ) : ℕ → Picking → Option Picking
  | 0, s => some s
  | n + 1, s => (s.takeCoin digit am).bind (takeCoins digit am n)

/-- Ten coins of the highest stack, if there is one. -/
def takeStack (s : Picking) : Option Picking :=
  match s.bestStack with
  | none => some s
  | some (digit, am) => s.takeCoins digit am 10

/-- The rounds of ten: as many as the optimization count allows. -/
def takeStacks : ℕ → Picking → Option Picking
  | 0, s => some s
  | rounds + 1, s => if s.bestStack.isNone then some s else s.takeStack.bind (takeStacks rounds)

/-- The first stack whose coins are large enough. -/
def largeCoin (maxDigit totalAmount : ℕ) (s : Picking) : Option (ℕ × ℕ) :=
  (List.range (maxDigit + 1)).findSome? fun digit ↦
    (Store.get s.haveCoins digit).bind fun piles ↦
      (piles.toList.find? fun e ↦
        e.2 ≠ [] ∧ totalAmount - s.usedTotal ≤ e.1 * 10 ^ digit).map fun e ↦ (digit, e.1)

/-- A single coin that is large enough. -/
def takeLargeCoin (maxDigit totalAmount : ℕ) (s : Picking) : Option Picking :=
  match s.largeCoin maxDigit totalAmount with
  | none => some s
  | some (digit, am) => s.takeCoin digit am

/-- The largest coin that is not dust: where it is and what it is worth. -/
def largestCoin (s : Picking) : Option (ℕ × ℕ × ℕ) :=
  match s.haveCoins.toList.getLast? with
  | none => none
  | some (digit, piles) =>
    match piles.toList.getLast? with
    | some (am, un :: _) => some (digit, am, un.amount.toNat)
    | _ => none

/-- What the largest dust is worth. -/
def largestDustAmount (s : Picking) : ℕ :=
  match s.dustCoins.toList.getLast? with
  | some (_, un :: _) => un.amount.toNat
  | _ => 0

/-- The larger of the largest coin and the largest dust. -/
def takeFiller (anonymity : ℕ) (s : Picking) : Option Picking :=
  let duAmount := if anonymity = 0 then s.largestDustAmount else 0
  match s.largestCoin with
  | some (digit, am, haAmount) =>
    if duAmount < haAmount then s.takeCoin digit am else s.takeDust (s.largestDust.getD 0)
  | none => s.takeDust (s.largestDust.getD 0)

/-- The filler loop: whether the amount was reached. -/
def takeFillers (totalAmount anonymity : ℕ) : ℕ → Picking → Option (Bool × Picking)
  | 0, _ => none
  | fuel + 1, s =>
    if totalAmount ≤ s.usedTotal then some (true, s)
    else if s.haveCoins.toList = [] ∧ (anonymity ≠ 0 ∨ s.dustCoins.toList = []) then some (false, s)
    else (s.takeFiller anonymity).bind (takeFillers totalAmount anonymity fuel)

/-- The dust that is taken first; the optimization count that is left. -/
def takeDustFirst (totalAmount anonymity optimizationCount : ℕ) (s : Picking) :
    Option (ℕ × Picking) :=
  if anonymity = 0 then
    (s.takeLargeDust totalAmount).bind (takeLargestDust totalAmount optimizationCount)
  else some (optimizationCount, s)

/-- The end of the search, once optimizing did not reach the amount. -/
def fill (fuel maxDigit totalAmount anonymity : ℕ) (s : Picking) : Option (Bool × Picking) :=
  (s.unoptimizeAmounts.takeFillers totalAmount anonymity fuel).bind fun (reached, s) ↦
    if reached then (s.optimizeAmounts maxDigit totalAmount).map fun s ↦ (true, s)
    else some (false, s)

/-- `select_optimal_outputs` for an amount that includes the fee. -/
def selectFor (fuel maxDigit totalAmount anonymity optimizationCount : ℕ) (s : Picking) :
    Option (Bool × Picking) :=
  (s.takeDustFirst totalAmount anonymity optimizationCount).bind fun (optimizationCount, s) ↦
    (s.takeStacks (optimizationCount / 10)).bind fun s ↦
      (s.optimizeAmounts maxDigit totalAmount).bind fun s ↦
        if totalAmount ≤ s.usedTotal then some (true, s)
        else (s.takeLargeCoin maxDigit totalAmount).bind fun s ↦
          if totalAmount ≤ s.usedTotal then some (true, s)
          else s.fill fuel maxDigit totalAmount anonymity

end Picking

/-! ## Selecting and the fee -/

/-- What does not change while a transaction is tried. -/
structure SelectionRequest where
  anonymity : ℕ
  totalAmount : ℕ
  totalOutputs : ℕ
  feePerByte : ℕ
  effectiveMedianSize : ℕ
  optimizationMedian : ℕ

/-- The size that is paid for. -/
def SelectionRequest.txSize (r : SelectionRequest) (s : Picking) : ℕ :=
  getMaximumTxSize s.inputsCount (r.totalOutputs + 8) r.anonymity

/-- What follows a search that reached the amount: an end, or the next fee and optimization count
with the coins given back. -/
def SelectionRequest.tryFee (r : SelectionRequest) (fee optimizations : ℕ) (s : Picking) :
    Selection ⊕ (ℕ × ℕ × Picking) :=
  let changeDustFee := (s.usedTotal - r.totalAmount - fee) % defaultDustThreshold
  let sizeFee := r.feePerByte * r.txSize s
  if r.optimizationMedian < r.txSize s ∧ 0 < optimizations then
    .inr (fee, if optimizations / 2 < 10 then 0 else optimizations / 2, s.unoptimizeAmounts)
  else if r.effectiveMedianSize < r.txSize s then .inl .doesNotFitInBlock
  else if sizeFee ≤ fee + changeDustFee then
    .inl (.selected (s.usedTotal - r.totalAmount - fee - changeDustFee) s.optimizationUnspents
      s.usedTotal (s.optimizationUnspents.map Api.Output.amount))
  else
    .inr ((sizeFee - changeDustFee + defaultDustThreshold - 1) / defaultDustThreshold *
      defaultDustThreshold, optimizations, s.unoptimizeAmounts)

/-- The loop of `select_optimal_outputs`; there is no result where the fuel runs out. -/
def SelectionRequest.selectLoop (r : SelectionRequest) (maxDigit : ℕ) :
    ℕ → ℕ → ℕ → Picking → Option Selection
  | 0, _, _, _ => none
  | fuel + 1, fee, optimizations, s =>
    match s.selectFor (fuel + 1) maxDigit (r.totalAmount + fee) r.anonymity optimizations with
    | none => none
    | some (false, _) => some (.notEnoughFunds fee)
    | some (true, s) =>
      match r.tryFee fee optimizations s with
      | .inl result => some result
      | .inr (fee, optimizations, s) => r.selectLoop maxDigit fuel fee optimizations s

/-- `select_optimal_outputs` of a new selector. -/
def selectOptimalOutputs (c : Currency) (fuel : ℕ) (unspents : List Api.Output)
    (blockHeight : Height) (blockTime : Timestamp) (confirmedHeight : Height)
    (effectiveMedianSize anonymity totalAmount totalOutputs feePerByte : ℕ)
    (optimizationLevel : String) : Option Selection :=
  let effectiveMedianSize := 120 * effectiveMedianSize / 100
  let coins := createHaveCoins c blockHeight blockTime confirmedHeight unspents
  let optimizations :=
    if optimizationLevel = "aggressive" then 200
    else if optimizationLevel = "minimal" then 9 else 50
  let optimizationMedianPercent := if optimizationLevel = "aggressive" then 30 else 12
  let r : SelectionRequest := {
    anonymity, totalAmount, totalOutputs, feePerByte, effectiveMedianSize
    optimizationMedian := effectiveMedianSize * optimizationMedianPercent / 100 }
  r.selectLoop coins.1 fuel minimumFee optimizations coins.2

end Naza
