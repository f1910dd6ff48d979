import Naza.BlockHash
import Naza.Difficulty

/-!
# Currency

The consensus parameters of `CryptoNoteConfig.hpp` and the rules of `Currency`: block versions,
size limits, block rewards, the difficulty of the next block, proof of work and unlock times.
The asserts of the source are compiled out and appear here as predicates.
-/

namespace Naza

/-! ## Parameters -/

namespace Parameters

def difficultyTarget : UInt32 := 60
def difficultyWindowV2 : UInt32 := 60
def difficultyBlocksCountV2 : UInt32 := difficultyWindowV2 + 1
def difficultyScatterV2 : UInt64 := 32
def blockchainTimestampCheckWindowV2 : UInt32 := 11
def blockchainTimestampCheckWindow : UInt32 := 60
def cryptonoteBlockFutureTimeLimitV2 : UInt32 := difficultyTarget * 3
def cryptonoteMaxBlockNumber : UInt32 := 500000000
def cryptonoteMaxTxSize : UInt32 := 1000000000
def cryptonoteMinedMoneyUnlockWindow : UInt32 := 10
def cryptonoteBlockFutureTimeLimit : UInt32 := 60 * 60 * 2
def cryptonoteRewardBlocksWindow : UInt32 := 100
def cryptonoteBlockGrantedFullRewardZone : UInt32 := 100000
def cryptonoteBlockGrantedFullRewardZoneV2 : UInt32 := 20000
def cryptonoteBlockGrantedFullRewardZoneV1 : UInt32 := 10000
def cryptonoteCoinbaseBlobReservedSize : UInt32 := 600
def moneySupply : UInt64 := 0xFFFFFFFFFFFFFFFF
def emissionSpeedFactor : UInt64 := 16
def hardforkV1Height : UInt32 := 7070
def hardforkV2Height : UInt32 := 7080
def difficultyWindow (difficultyTarget : UInt32) : UInt32 := 24 * 60 * 60 / difficultyTarget
def difficultyCut : ℕ := 60
def difficultyLag : UInt32 := 15
def maxBlockSizeInitial : UInt64 := 20 * 1024
def maxBlockSizeGrowthSpeedNumerator : UInt64 := 100 * 1024
def maxBlockSizeGrowthSpeedDenominator (difficultyTarget : UInt32) : UInt64 :=
  (365 * 24 * 60 * 60 / difficultyTarget).toUInt64
def cryptonoteLockedTxAllowedDeltaBlocks : UInt32 := 1
def cryptonoteLockedTxAllowedDeltaSeconds (difficultyTarget : UInt32) : UInt32 :=
  difficultyTarget * cryptonoteLockedTxAllowedDeltaBlocks
def upgradeHeightV2 : UInt32 := 1
def upgradeHeightV3 : UInt32 := 2
def upgradeHeightV4 : UInt32 := hardforkV2Height

end Parameters

structure CheckpointData where
  height : Height
  hash : Hash
  deriving DecidableEq

/-- `CHECKPOINTS`. -/
def checkpoints : List CheckpointData :=
  [⟨7100, 0x57319d5fda1e7c573abaa9b75bffbb02ead36b6f9a84fd9557cdfa22de071f16⟩,
    ⟨15000, 0x76f1ac86b83c4faedd9fd6b16789e59a477ceb7faa0188aa7a48cd1b7032f905⟩,
    ⟨20000, 0x750b7d1699fc8b770133863205bf5460e3278d47e306430596935dd98c793a0e⟩,
    ⟨30000, 0x9eeacb09ea68f9d40570dffefba8fe385bccd605e9e1fda45dff937027b3c336⟩,
    ⟨80000, 0x10274d477f19178dde88d4f199240f090273b4aadcb5f6f24fbfde3ec4cdc28d⟩]

structure Currency where
  isTestnet : Bool
  genesisBlockTemplate : BlockTemplate
  genesisBlockHash : Hash
  maxBlockHeight : Height
  maxTxSize : UInt32
  minedMoneyUnlockWindow : Height
  timestampCheckWindow : Height
  blockFutureTimeLimit : Timestamp
  moneySupply : Amount
  emissionSpeedFactor : UInt64
  rewardBlocksWindow : Height
  blockGrantedFullRewardZone : UInt32
  minerTxBlobReservedSize : UInt32
  difficultyTarget : Timestamp
  difficultyWindow : Height
  difficultyLag : Height
  difficultyCut : ℕ
  maxBlockSizeInitial : UInt64
  maxBlockSizeGrowthSpeedNumerator : UInt64
  maxBlockSizeGrowthSpeedDenominator : UInt64
  lockedTxAllowedDeltaSeconds : Timestamp
  lockedTxAllowedDeltaBlocks : Height
  upgradeHeightV2 : Height
  upgradeHeightV3 : Height
  upgradeHeightV4 : Height
  hardforkV1Height : Height
  hardforkV2Height : Height
  timestampCheckWindowV2 : Height
  blockFutureTimeLimitV2 : Timestamp
  difficultyWindowV2 : Height
  difficultyBlocksCountV2 : Height

/-- The hard coded coinbase of the genesis block. -/
def genesisCoinbaseTxBlob : BinaryArray :=
  Lib.natToBytes 80
    0x010a01ff0001ffffffffffff3f029b2e4c0281c0b02e7c53291a94d1d0cbff8883f8024f5142ee494ffbbd088071210152bfaef5e5681a5d7eaeaca878d53ed2a80445e4f6adc5550fc4b4b0e69b765a

/-- The genesis block: the nonce tells the networks apart. -/
def genesisBlockTemplate (isTestnet : Bool) : BlockTemplate :=
  { majorVersion := 1, minorVersion := 0, timestamp := 0,
    nonce := if isTestnet then 71 else 70,
    baseTransaction := (Seria.fromBinary Seria.serTransaction {} genesisCoinbaseTxBlob).1 }

/-- The constructor.  The genesis block is hard coded and serializes. -/
def Currency.make (cr : Crypto) (isTestnet : Bool) : Currency :=
  let target := if isTestnet then 1 else Parameters.difficultyTarget
  { isTestnet
    genesisBlockTemplate := Naza.genesisBlockTemplate isTestnet
    genesisBlockHash := (getBlockHash cr (Naza.genesisBlockTemplate isTestnet)).getD 0
    maxBlockHeight := Parameters.cryptonoteMaxBlockNumber
    maxTxSize := Parameters.cryptonoteMaxTxSize
    minedMoneyUnlockWindow := Parameters.cryptonoteMinedMoneyUnlockWindow
    timestampCheckWindow := Parameters.blockchainTimestampCheckWindow
    blockFutureTimeLimit := Parameters.cryptonoteBlockFutureTimeLimit
    moneySupply := Parameters.moneySupply
    emissionSpeedFactor := Parameters.emissionSpeedFactor
    rewardBlocksWindow := Parameters.cryptonoteRewardBlocksWindow
    blockGrantedFullRewardZone := Parameters.cryptonoteBlockGrantedFullRewardZone
    minerTxBlobReservedSize := Parameters.cryptonoteCoinbaseBlobReservedSize
    difficultyTarget := target
    difficultyWindow := Parameters.difficultyWindow target
    difficultyLag := Parameters.difficultyLag
    difficultyCut := Parameters.difficultyCut
    maxBlockSizeInitial := Parameters.maxBlockSizeInitial
    maxBlockSizeGrowthSpeedNumerator := Parameters.maxBlockSizeGrowthSpeedNumerator
    maxBlockSizeGrowthSpeedDenominator := Parameters.maxBlockSizeGrowthSpeedDenominator target
    lockedTxAllowedDeltaSeconds := Parameters.cryptonoteLockedTxAllowedDeltaSeconds target
    lockedTxAllowedDeltaBlocks := Parameters.cryptonoteLockedTxAllowedDeltaBlocks
    upgradeHeightV2 := if isTestnet then 0 else Parameters.upgradeHeightV2
    upgradeHeightV3 := if isTestnet then 0xFFFFFFFF else Parameters.upgradeHeightV3
    upgradeHeightV4 := Parameters.upgradeHeightV4
    hardforkV1Height := Parameters.hardforkV1Height
    hardforkV2Height := Parameters.hardforkV2Height
    timestampCheckWindowV2 := Parameters.blockchainTimestampCheckWindowV2
    blockFutureTimeLimitV2 := Parameters.cryptonoteBlockFutureTimeLimitV2
    difficultyWindowV2 := Parameters.difficultyWindowV2
    difficultyBlocksCountV2 := Parameters.difficultyBlocksCountV2 }

namespace Currency

variable (c : Currency)

/-! ## Checkpoints -/

/-- `is_in_sw_checkpoint_zone`. -/
def isInSwCheckpointZone (index : Height) : Bool :=
  if c.isTestnet then index = 0 else index ≤ (checkpoints.getLast?.map CheckpointData.height).getD 0

/-- `check_sw_checkpoint`: whether the hash may stand at this height, and whether the height is a
checkpoint. -/
def checkSwCheckpoint (index : Height) (h : Hash) : Bool × Bool :=
  if c.isTestnet ∨ index = 0 then
    (if index = 0 then h = c.genesisBlockHash else true, index = 0)
  else
    match checkpoints.find? (fun da ↦ ¬ da.height < index) with
    | none => (true, false)
    | some it => if it.height ≠ index then (true, false) else (h = it.hash, true)

/-! ## Versions and sizes -/

/-- `get_block_major_version_for_height`. -/
def getBlockMajorVersionForHeight (height : Height) : UInt8 :=
  if height ≤ c.upgradeHeightV2 then 1
  else if c.upgradeHeightV2 < height ∧ height ≤ c.upgradeHeightV3 then 2
  else if c.upgradeHeightV3 < height ∧ height ≤ c.upgradeHeightV4 then 3
  else 4

/-- `block_granted_full_reward_zone_by_block_version`. -/
def blockGrantedFullRewardZoneByBlockVersion (blockMajorVersion : UInt8) : UInt32 :=
  if 3 ≤ blockMajorVersion then c.blockGrantedFullRewardZone
  else if blockMajorVersion = 2 then Parameters.cryptonoteBlockGrantedFullRewardZoneV2
  else Parameters.cryptonoteBlockGrantedFullRewardZoneV1

/-- `max_block_cumulative_size`: a limit that grows with the height. -/
def maxBlockCumulativeSize (height : Height) : UInt32 :=
  (c.maxBlockSizeInitial + height.toUInt64 * c.maxBlockSizeGrowthSpeedNumerator /
    c.maxBlockSizeGrowthSpeedDenominator).toUInt32

/-- `max_transaction_allowed_size`. -/
def maxTransactionAllowedSize (effectiveBlockSizeMedian : UInt32) : UInt32 :=
  min c.maxTxSize (effectiveBlockSizeMedian * 2 - c.minerTxBlobReservedSize)

/-! ## Rewards -/

/-- `calc_base_reward`. -/
def calcBaseReward (blockMajorVersion : UInt8) (alreadyGeneratedCoins : Amount) : Amount :=
  let baseReward := (c.moneySupply - alreadyGeneratedCoins) >>> c.emissionSpeedFactor
  if 4 ≤ blockMajorVersion then
    if Parameters.difficultyScatterV2 ≤ baseReward then baseReward / Parameters.difficultyScatterV2
    else baseReward
  else baseReward

/-- The two words of the penalized amount, before the high one is dropped. -/
def penalizedWords (amount : UInt64) (medianSize currentBlockSize : UInt64) : UInt64 × UInt64 :=
  let product := mul128 amount (currentBlockSize * (2 * medianSize - currentBlockSize))
  let once := div128By32 product.1 product.2 medianSize.toUInt32
  div128By32 once.1 once.2 medianSize.toUInt32

/-- `get_penalized_amount`. -/
def getPenalizedAmount (amount : UInt64) (medianSize currentBlockSize : UInt64) : UInt64 :=
  if amount = 0 then 0
  else if currentBlockSize ≤ medianSize then amount
  else (penalizedWords amount medianSize currentBlockSize).2

/-- The asserts that `get_penalized_amount` passes on its way. -/
structure PenalizedAsserts (amount : UInt64) (medianSize currentBlockSize : UInt64) : Prop where
  size_le : currentBlockSize.toNat ≤ 2 * medianSize.toNat
  median_le : medianSize.toNat ≤ 2 ^ 32 - 1
  block_le : currentBlockSize.toNat ≤ 2 ^ 32 - 1
  hi_eq : amount ≠ 0 → ¬ currentBlockSize ≤ medianSize →
    (penalizedWords amount medianSize currentBlockSize).1 = 0
  lo_lt : amount ≠ 0 → ¬ currentBlockSize ≤ medianSize →
    (penalizedWords amount medianSize currentBlockSize).2 < amount

/-- `get_block_reward`: the reward and the emission change.  It never refuses. -/
def getBlockReward (blockMajorVersion : UInt8) (effectiveMedianSize currentBlockSize : UInt64)
    (alreadyGeneratedCoins fee : Amount) : Amount × Int64 :=
  let baseReward := c.calcBaseReward blockMajorVersion alreadyGeneratedCoins
  let penalizedBaseReward := getPenalizedAmount baseReward effectiveMedianSize currentBlockSize
  let penalizedFee :=
    if 2 ≤ blockMajorVersion then getPenalizedAmount fee effectiveMedianSize currentBlockSize
    else fee
  (penalizedBaseReward + penalizedFee, (penalizedBaseReward - (fee - penalizedFee)).toInt64)

/-! ## Difficulty -/

/-- `difficulty_blocks_count`. -/
def difficultyBlocksCount : Height := c.difficultyWindow + c.difficultyLag

/-- `get_difficulty_blocks_count`. -/
def getDifficultyBlocksCount (height : Height) : Height :=
  if height ≤ c.hardforkV2Height then c.difficultyBlocksCount else c.difficultyBlocksCountV2

/-- `get_timestamp_check_window`. -/
def getTimestampCheckWindow (height : Height) : Height :=
  if c.hardforkV2Height ≤ height then c.timestampCheckWindowV2 else c.timestampCheckWindow

/-- `get_block_future_time_limit`. -/
def getBlockFutureTimeLimit (height : Height) : Timestamp :=
  if c.hardforkV2Height ≤ height then c.blockFutureTimeLimitV2 else c.blockFutureTimeLimit

def sortTimestamps (timestamps : List Timestamp) : List Timestamp :=
  timestamps.insertionSort (· ≤ ·)

/-- An element of a vector; an index out of range is a fault. -/
def elementAt {α : Type} (xs : List α) (i : ℕ) : Except Fault α :=
  match xs[i]? with
  | some x => .ok x
  | none => .error .outOfRange

/-- The positions between which `next_difficulty_v1` measures a window of this length. -/
def cutRange (length : ℕ) : ℕ × ℕ :=
  let window := c.difficultyWindow.toNat
  let cut := c.difficultyCut
  let cutBegin := if length ≤ window - 2 * cut then 0 else (length - (window - 2 * cut) + 1) / 2
  (cutBegin, if length ≤ window - 2 * cut then length else cutBegin + (window - 2 * cut))

/-- Time span (at least one second) and work between two positions of a window. -/
def spanAndWork (timestamps : List Timestamp) (cumulativeDifficulties : List Difficulty)
    (range : ℕ × ℕ) : Except Fault (Timestamp × Difficulty) := do
  let lastTime ← elementAt timestamps (range.2 - 1)
  let firstTime ← elementAt timestamps range.1
  let lastWork ← elementAt cumulativeDifficulties (range.2 - 1)
  let firstWork ← elementAt cumulativeDifficulties range.1
  return (if lastTime - firstTime = 0 then 1 else lastTime - firstTime, lastWork - firstWork)

/-- The overflow test made before the work is divided by the time span. -/
def workOverflows (totalWork : Difficulty) (timeSpan : Timestamp) : Bool :=
  let (high, low) := mul128 totalWork c.difficultyTarget.toUInt64
  high ≠ 0 ∨ 0xFFFFFFFFFFFFFFFF - low < (timeSpan - 1).toUInt64

/-- The window of 17 blocks that `next_difficulty_v1` turns to at the first hard fork. -/
def nextDifficultyZ (timestamps : List Timestamp) (cumulativeDifficulties : List Difficulty) :
    Except Fault Difficulty := do
  let window := min 17 timestamps.length
  let timestamps := timestamps.drop (timestamps.length - window)
  let cumulativeDifficulties := cumulativeDifficulties.drop (cumulativeDifficulties.length - window)
  if window ≤ 1 then return 1
  else
    let (timeSpan, totalWork) ←
      spanAndWork (sortTimestamps timestamps) cumulativeDifficulties (0, window)
    if c.workOverflows totalWork timeSpan then return 0
    else
      let nextDiffZ := totalWork * c.difficultyTarget.toUInt64 / timeSpan.toUInt64
      return if nextDiffZ ≤ 100 then 100 else nextDiffZ

/-- `next_difficulty_v1`. -/
def nextDifficultyV1 (blockIndex : Height) (timestamps : List Timestamp)
    (cumulativeDifficulties : List Difficulty) : Except Fault Difficulty := do
  let window := c.difficultyWindow.toNat
  let shortTimestamps := timestamps.take window
  let length := shortTimestamps.length
  if length ≤ 1 then return 1
  else
    let (timeSpan, totalWork) ← spanAndWork (sortTimestamps shortTimestamps)
      (cumulativeDifficulties.take window) (c.cutRange length)
    if c.workOverflows totalWork timeSpan then return 0
    else if c.hardforkV1Height ≤ blockIndex then c.nextDifficultyZ timestamps cumulativeDifficulties
    else
      return (totalWork * c.difficultyTarget.toUInt64 + timeSpan.toUInt64 - 1) / timeSpan.toUInt64

/-- Solve time of block `i` of the window, between the future limit and six targets. -/
def solveTime (timestamps : List Timestamp) (i : ℕ) : ℤ :=
  max (-(c.blockFutureTimeLimitV2.toNat : ℤ))
    (min (((timestamps.getD i 0).toNat : ℤ) - (timestamps.getD (i - 1) 0).toNat)
      (6 * c.difficultyTarget.toNat))

/-- `L`: the solve times weighted by their position. -/
def weightedSolveTimes (timestamps : List Timestamp) : ℤ :=
  ((List.range c.difficultyWindowV2.toNat).map fun i ↦
    c.solveTime timestamps (i + 1) * ((i + 1 : ℕ) : ℤ)).sum

/-- `sum_3_ST`: the last three solve times. -/
def lastSolveTimes (timestamps : List Timestamp) : ℤ :=
  let n := c.difficultyWindowV2.toNat
  c.solveTime timestamps (n - 2) + c.solveTime timestamps (n - 1) + c.solveTime timestamps n

/-- `next_difficulty_v2`.  The products are unsigned; the divisor is computed as a signed number
and then converted.  The quotient is needed only where the last three solve times are not short:
elsewhere it is overwritten before it is read, so that its divisor may be zero. -/
def nextDifficultyV2 (timestamps : List Timestamp) (cumulativeDifficulties : List Difficulty) :
    Except Fault Difficulty :=
  let n := c.difficultyWindowV2.toNat
  if timestamps.length ≤ n then .ok 1000
  else
    let work := cumulativeDifficulties.getD n 0 - cumulativeDifficulties.getD 0 0
    let prevD := (cumulativeDifficulties.getD n 0 - cumulativeDifficulties.getD (n - 1) 0).toInt64
    if c.lastSolveTimes timestamps < 8 * c.difficultyTarget.toNat / 10 then
      .ok (prevD * 110 / 100).toUInt64
    else
      let divisor := UInt64.ofInt (100 * 2 * c.weightedSolveTimes timestamps)
      if divisor = 0 then .error .divisionByZero
      else .ok (work * c.difficultyTarget.toUInt64 * (UInt64.ofNat n + 1) * 99 / divisor)

/-- `next_difficulty`. -/
def nextDifficulty (blockIndex : Height) (timestamps : List Timestamp)
    (cumulativeDifficulties : List Difficulty) : Except Fault Difficulty :=
  if blockIndex ≤ c.hardforkV2Height then
    c.nextDifficultyV1 blockIndex timestamps cumulativeDifficulties
  else c.nextDifficultyV2 timestamps cumulativeDifficulties

/-! ## Proof of work -/

/-- `check_proof_of_work_v1`. -/
def checkProofOfWorkV1 (longBlockHash : Hash) (block : BlockTemplate)
    (currentDifficulty : Difficulty) : Bool :=
  if block.majorVersion ≠ 1 then false else checkHash longBlockHash currentDifficulty

/-- `check_proof_of_work_v2`. -/
def checkProofOfWorkV2 (cr : Crypto) (longBlockHash : Hash) (block : BlockTemplate)
    (currentDifficulty : Difficulty) : Except Fault Bool :=
  if block.majorVersion < 2 then .ok false
  else
    match getMergeMiningTagFromExtra block.parentBlock.baseTransaction.extra with
    | none => .ok false
    | some mmTag =>
      if 8 * 32 < block.parentBlock.blockchainBranch.length then .ok false
      else
        match getAuxiliaryBlockHeaderHash cr block with
        | none => .error .serialization
        | some auxHash =>
          let auxBlocksMerkleRoot :=
            treeHashFromBranch cr block.parentBlock.blockchainBranch auxHash
            (some c.genesisBlockHash)
          if auxBlocksMerkleRoot ≠ mmTag.merkleRoot then .ok false
          else .ok (checkHash longBlockHash currentDifficulty)

/-- `check_proof_of_work`. -/
def checkProofOfWork (cr : Crypto) (longBlockHash : Hash) (block : BlockTemplate)
    (currentDifficulty : Difficulty) : Except Fault Bool :=
  if block.majorVersion = 1 then
    .ok (checkProofOfWorkV1 longBlockHash block currentDifficulty)
  else if block.majorVersion = 2 ∨ block.majorVersion = 3 ∨ block.majorVersion = 4 then
    c.checkProofOfWorkV2 cr longBlockHash block currentDifficulty
  else .ok false

/-! ## Unlock times -/

/-- `is_transaction_spend_time_unlocked`: the sums are 32 bits wide. -/
def isTransactionSpendTimeUnlocked (unlockTime : UnlockMoment) (blockIndex : Height)
    (blockTime : Timestamp) : Bool :=
  if unlockTime < c.maxBlockHeight.toUInt64 then
    unlockTime ≤ (blockIndex + c.lockedTxAllowedDeltaBlocks).toUInt64
  else unlockTime ≤ (blockTime + c.lockedTxAllowedDeltaSeconds).toUInt64

end Currency

/-! ## Fees and medians -/

/-- Both sums of `get_tx_fee`, 64 bits wide. -/
def amountIn (tx : TransactionPrefix) : Amount := (tx.keyInputs.map KeyInput.amount).sum

def amountOut (tx : TransactionPrefix) : Amount := (tx.outputs.map TransactionOutput.amount).sum

/-- `get_tx_fee`, which refuses a transaction that pays out more than it takes in. -/
def getTxFee? (tx : TransactionPrefix) : Option Amount :=
  if amountIn tx < amountOut tx then none else some (amountIn tx - amountOut tx)

/-- `get_tx_fee` with zero in place of a refusal. -/
def getTxFee (tx : TransactionPrefix) : Amount := (getTxFee? tx).getD 0

/-- `median_value`: the middle one, or the mean of the middle two, in the elements' own width. -/
def medianValue (v : List UInt32) : UInt32 :=
  if v = [] then 0
  else
    let n := v.length / 2
    let sorted := v.insertionSort (· ≤ ·)
    if v.length % 2 = 1 then sorted.getD n 0
    else (sorted.getD (n - 1) 0 + sorted.getD n 0) / 2

end Naza
