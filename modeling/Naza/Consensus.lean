import Naza.Transactions

/-!
# Standalone consensus

`check_standalone_consensus`: everything a block is asked before it is stored.  What it takes from
the block tree is gathered first (`consensusValues`, `difficultyWindow`); the rest depends on the
block and on the previous header alone.
-/

open Lib

namespace Naza

variable (cr : Crypto) (c : Currency)

namespace State

variable (s : State)

/-! ## Windows of ancestors -/

/-- Headers from `pi` down, newest first, until the window is full or genesis is met; and the
header where the walk stands. -/
def walkBack : ℕ → Api.BlockHeader → Except Fault (List Api.BlockHeader × Api.BlockHeader)
  | 0, pi => .ok ([], pi)
  | window + 1, pi =>
    if pi.height = 0 then .ok ([], pi)
    else do
      let prev ← s.readHeader pi.previousBlockHash
      let (result, last) ← walkBack window prev
      return (pi :: result, last)

/-- `get_tip_segment`, oldest first. -/
def getTipSegment (prevInfo : Api.BlockHeader) (window : Height) (addGenesis : Bool) :
    Except Fault (List Api.BlockHeader) :=
  if prevInfo.height = 0xFFFFFFFF then .ok []
  else do
    let (result, pi) ← s.walkBack window.toNat prevInfo
    if result.length < window.toNat ∧ addGenesis then
      invariant (pi.height = 0)
        "Invariant dead - window size not reached, but genesis not found in get_tip_segment"
      return (result ++ [pi]).reverse
    else return result.reverse

/-- The median of the timestamps of a full window, zero for a shorter one. -/
def timestampMedian (window : Height) (headers : List Api.BlockHeader) : Timestamp :=
  if window.toNat ≤ headers.length then medianValue (headers.map Api.BlockHeader.timestamp) else 0

/-- `calculate_consensus_values`: the size median and the timestamp median after a header.  The
timestamp window is the one of the tip. -/
def calculateConsensusValues (prevInfo : Api.BlockHeader) : Except Fault (UInt32 × Timestamp) := do
  let sizes ← s.getTipSegment prevInfo c.rewardBlocksWindow true
  let checkWindow := c.getTimestampCheckWindow (s.tipHeight + 1)
  let window ← s.getTipSegment prevInfo checkWindow false
  return (medianValue (sizes.map Api.BlockHeader.blockSize), timestampMedian checkWindow window)

/-- The medians used for a block: the cached ones on top of the tip. -/
def consensusValues (prevInfo : Api.BlockHeader) : Except Fault (UInt32 × Timestamp) :=
  if s.tipBid = prevInfo.hash then .ok (s.nextMedianSize, s.nextMedianTimestamp)
  else s.calculateConsensusValues c prevInfo

/-- The window that the next difficulty is computed from. -/
def difficultyWindow (prevInfo : Api.BlockHeader) : Except Fault (List Api.BlockHeader) :=
  s.getTipSegment prevInfo
    (min prevInfo.height (c.getDifficultyBlocksCount (s.tipHeight + 1))) false

end State

/-! ## Checks of the block -/

/-- Sizes and identities of the transactions: their cumulative size. -/
def checkTransactions (maxSize : UInt32) : List BinaryArray → List Transaction → List Hash →
    Check Fault String ℕ
  | raw :: raws, tx :: txs, tid :: tids => do
    .require (raw.length ≤ maxSize.toNat) "RAW_TRANSACTION_SIZE_TOO_BIG"
    let hash ← .lift (orThrow (getTransactionHash cr tx))
    .require (hash = tid) "TRANSACTION_ABSENT_IN_POOL"
    let rest ← checkTransactions maxSize raws txs tids
    return raw.length + rest
  | _, _, _ => .accept 0

/-- The outputs of the coinbase: their sum. -/
def checkMinerOutputs (checkKeys : Bool) (outputs : List TransactionOutput) :
    Except String Amount :=
  validateOutputs cr checkKeys outputs 0

/-- The version and the size of the parent block. -/
def checkParentBlock (pb : PreparedBlock) (height : Height) : Check Fault String Unit := do
  let header := pb.block.header
  .require (header.majorVersion = c.getBlockMajorVersionForHeight height) "WRONG_VERSION"
  .require (¬ (header.majorVersion = 2 ∧ 1 < header.parentBlock.majorVersion))
    "PARENT_BLOCK_WRONG_VERSION"
  .require (¬ (2 ≤ header.majorVersion ∧ 2048 < pb.parentBlockSize)) "PARENT_BLOCK_SIZE_TOO_BIG"

/-- The timestamp against the clock and against the median. -/
def checkTimestamp (timestamp futureLimit timestampMedian : Timestamp) :
    Check Fault String Unit := do
  .require (timestamp ≤ futureLimit) "TIMESTAMP_TOO_FAR_IN_FUTURE"
  .require (timestampMedian ≤ timestamp) "TIMESTAMP_TOO_FAR_IN_PAST"

/-- The shape of the coinbase: its reward. -/
def checkCoinbase (coinbase : Transaction) (height : Height) : Check Fault String Amount := do
  match coinbase.inputs with
  | [.coinbaseInput input] =>
    .require (input.blockIndex = height) "BASE_INPUT_WRONG_BLOCK_INDEX"
    .require (coinbase.unlockTime = (height + c.minedMoneyUnlockWindow).toUInt64)
      "WRONG_TRANSACTION_UNLOCK_TIME"
    .ofExcept (checkMinerOutputs cr (!c.isInSwCheckpointZone height) coinbase.outputs)
  | [.keyInput _] => .reject "INPUT_UNEXPECTED_TYPE"
  | _ => .reject "INPUT_WRONG_COUNT"

/-- The fees of the block's transactions, added up in 64 bits. -/
def cumulativeFee : List Transaction → Except String Amount
  | [] => .ok 0
  | tx :: txs =>
    match getTxFee? tx.toTransactionPrefix with
    | none => .error "WRONG_AMOUNT"
    | some fee => do
      let rest ← cumulativeFee txs
      return fee + rest

/-- The semantic validation of every transaction. -/
def validateTransactions (checkKeys : Bool) : List Transaction → Except String Unit
  | [] => .ok ()
  | tx :: txs => do
    let _ ← validateSemantic cr false tx checkKeys
    validateTransactions checkKeys txs

/-- The checkpoint inside the zone, the proof of work outside. -/
def checkIdentity (pb : PreparedBlock) (height : Height) (hash : Hash) (difficulty : Difficulty)
    (checkPow : Bool) : Check Fault String Unit :=
  if c.isInSwCheckpointZone height then
    .require (c.checkSwCheckpoint height hash).1 "CHECKPOINT_BLOCK_HASH_MISMATCH"
  else if checkPow then do
    let longHash ← .lift (if pb.longBlockHash ≠ 0 then .ok pb.longBlockHash
      else getBlockLongHash cr pb.block.header)
    let work ← .lift (c.checkProofOfWork cr longHash pb.block.header difficulty)
    .require work "PROOF_OF_WORK_TOO_WEAK"
  else .accept ()

/-! ## The whole check -/

/-- The header fields that `add_block` fills before the check. -/
def blockInfo (pb : PreparedBlock) (prevInfo : Api.BlockHeader) : Api.BlockHeader :=
  { majorVersion := pb.block.header.majorVersion
    minorVersion := pb.block.header.minorVersion
    timestamp := pb.block.header.timestamp
    previousBlockHash := pb.block.header.previousBlockHash
    nonce := pb.block.header.nonce
    hash := pb.bid
    height := prevInfo.height + 1 }

/-- What the check takes from the state and the clock. -/
structure ConsensusContext where
  values : Except Fault (UInt32 × Timestamp)
  window : Except Fault (List Api.BlockHeader)
  futureLimit : Timestamp

/-- The context of a state: the future limit is the one of its tip. -/
def State.consensusContext (s : State) (now : Timestamp) (prevInfo : Api.BlockHeader) :
    ConsensusContext where
  values := s.consensusValues c prevInfo
  window := s.difficultyWindow c prevInfo
  futureLimit := now + c.getBlockFutureTimeLimit (s.tipHeight + 1)

/-- `check_standalone_consensus` in its context: the header info filled in, or the text of the
first check that fails. -/
def checkInContext (context : ConsensusContext) (pb : PreparedBlock) (info : Api.BlockHeader)
    (prevInfo : Api.BlockHeader) (checkPow : Bool) : Check Fault String Api.BlockHeader := do
  let block := pb.block
  .require (block.transactions.length = block.header.transactionHashes.length ∧
    block.transactions.length = pb.rawBlock.transactions.length) "WRONG_TRANSACTIONS_COUNT"
  let (sizeMedian, timestampMedian) ← .lift context.values
  let effectiveSizeMedian := max sizeMedian
    (c.blockGrantedFullRewardZoneByBlockVersion block.header.majorVersion)
  let cumulativeSize ← checkTransactions cr (c.maxTransactionAllowedSize effectiveSizeMedian)
    pb.rawBlock.transactions block.transactions block.header.transactionHashes
  let blockSize := UInt32.ofNat (pb.coinbaseTxSize + cumulativeSize)
  .require (blockSize ≤ c.maxBlockCumulativeSize info.height) "CUMULATIVE_BLOCK_SIZE_TOO_BIG"
  checkParentBlock c pb info.height
  checkTimestamp block.header.timestamp context.futureLimit timestampMedian
  let minerReward ← checkCoinbase cr c block.header.baseTransaction info.height
  let window ← .lift context.window
  let difficulty ← .lift (c.nextDifficulty prevInfo.height
    (window.map Api.BlockHeader.timestamp) (window.map Api.BlockHeader.cumulativeDifficulty))
  .require (difficulty ≠ 0) "DIFFICULTY_OVERHEAD"
  let fee ← .ofExcept (cumulativeFee block.transactions)
  let baseReward := (c.getBlockReward block.header.majorVersion effectiveSizeMedian.toUInt64 0
    prevInfo.alreadyGeneratedCoins 0).1
  let (reward, emissionChange) := c.getBlockReward block.header.majorVersion
    effectiveSizeMedian.toUInt64 blockSize.toUInt64 prevInfo.alreadyGeneratedCoins fee
  .require (minerReward = reward) "BLOCK_REWARD_MISMATCH"
  .ofExcept (validateTransactions cr (!c.isInSwCheckpointZone info.height) block.transactions)
  checkIdentity cr c pb info.height info.hash difficulty checkPow
  return { info with
    sizeMedian, timestampMedian, effectiveSizeMedian, blockSize, difficulty
    cumulativeDifficulty := prevInfo.cumulativeDifficulty + difficulty
    baseReward, reward
    alreadyGeneratedCoins := prevInfo.alreadyGeneratedCoins + emissionChange.toUInt64
    alreadyGeneratedTransactions :=
      prevInfo.alreadyGeneratedTransactions + UInt64.ofNat block.transactions.length + 1
    totalFeeAmount := fee
    transactionsCumulativeSize := UInt32.ofNat cumulativeSize }

/-- `check_standalone_consensus`. -/
def State.checkStandaloneConsensus (s : State) (now : Timestamp) (pb : PreparedBlock)
    (info prevInfo : Api.BlockHeader) (checkPow : Bool) : Check Fault String Api.BlockHeader :=
  checkInContext cr c (s.consensusContext c now prevInfo) pb info prevInfo checkPow

/-- `tip_changed`: the medians for the block after the tip. -/
def State.tipChanged (s : State) : Except Fault State := do
  let tip ← s.getTip
  let (nextMedianSize, nextMedianTimestamp) ← s.calculateConsensusValues c tip
  return { s with nextMedianSize, nextMedianTimestamp }

end Naza
