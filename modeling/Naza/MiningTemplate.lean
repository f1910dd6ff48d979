import Naza.Base58
import Naza.ExtraFields
import Naza.MemoryPool
import Naza.Wallet.Redo

/-!
# Block templates for miners

`Currency::construct_miner_tx`, `create_mining_block_template` and `Node::getblocktemplate`.  The
key pair of each coinbase is drawn at random: the draws are given as a sequence.
-/

open Lib

namespace Naza

structure KeyPair where
  publicKey : PublicKey := 0
  secretKey : SecretKey := 0
  deriving DecidableEq

namespace Parameters

def defaultDustThreshold : Amount := 1000000
def currentTransactionVersion : UInt8 := 1
def cryptonotePublicAddressBase58Prefix : UInt64 := 126

end Parameters

/-! ## The coinbase -/

/-- The dust handler of `decompose_amount`. -/
def dustAmounts (dust : Amount) : List Amount :=
  let du0 := dust % 1000
  let du1 := dust - du0
  (if du0 ≠ 0 then [du0] else []) ++ if du1 ≠ 0 then [du1] else []

/-- The digits that are left, the lowest one first. -/
def decomposeFrom (dustThreshold : Amount) : ℕ → Bool → Amount → Amount → Amount → List Amount
  | fuel, isDustHandled, dust, order, amount =>
    if amount = 0 then if isDustHandled = false ∧ dust ≠ 0 then dustAmounts dust else []
    else
      match fuel with
      | 0 => []
      | fuel + 1 =>
        let chunk := amount % 10 * order
        if dust + chunk ≤ dustThreshold then
          decomposeFrom dustThreshold fuel isDustHandled (dust + chunk) (order * 10) (amount / 10)
        else
          (if isDustHandled = false ∧ dust ≠ 0 then dustAmounts dust else []) ++
            ((if chunk ≠ 0 then [chunk] else []) ++
              decomposeFrom dustThreshold fuel (isDustHandled || dust ≠ 0) dust (order * 10)
                (amount / 10))

/-- `decompose_amount`; an amount has at most 20 digits. -/
def decomposeAmount (amount dustThreshold : Amount) : List Amount :=
  decomposeFrom dustThreshold 20 false 0 1 amount

/-- While there are too many amounts the last one is added to the one before; the list stands in
reverse. -/
def mergeLast (maxOuts : ℕ) : ℕ → List Amount → List Amount
  | fuel + 1, last :: before :: amounts =>
    if maxOuts < amounts.length + 2 then mergeLast maxOuts fuel ((before + last) :: amounts)
    else last :: before :: amounts
  | _, amounts => amounts

/-- The amounts of the outputs. -/
def minerAmounts (blockReward : Amount) (maxOuts : ℕ) : List Amount :=
  let outAmounts := decomposeAmount blockReward Parameters.defaultDustThreshold
  let maxOuts := if maxOuts = 0 then 1 else maxOuts
  (mergeLast maxOuts outAmounts.length outAmounts.reverse).reverse

/-- `construct_miner_tx` with the key pair drawn; `none` where it answers `false`. -/
def Currency.constructMinerTx (c : Currency) (w : WalletCrypto) (txkey : KeyPair)
    (blockMajorVersion : UInt8) (height : Height) (effectiveMedianSize : UInt64)
    (alreadyGeneratedCoins : Amount) (currentBlockSize : UInt64) (fee : Amount)
    (minerAddress : AccountPublicAddress) (extraNonce : BinaryArray) (maxOuts : ℕ) :
    Option Transaction := do
  let extra := addTransactionPublicKeyToExtra [] txkey.publicKey
  let extra ← (if extraNonce = [] then some extra
    else addExtraNonceToTransactionExtra extra extraNonce)
  let (blockReward, _) := c.getBlockReward blockMajorVersion effectiveMedianSize currentBlockSize
    alreadyGeneratedCoins fee
  let outAmounts := minerAmounts blockReward maxOuts
  let outputs ← outAmounts.zipIdx.mapM fun (amount, no) ↦ do
    let derivation ← w.generateKeyDerivation minerAddress.1 txkey.secretKey
    let key ← w.derivePublicKey derivation no minerAddress.2
    some { amount, target := .keyOutput { key } }
  if outAmounts.sum ≠ blockReward then none
  else some {
    version := Parameters.currentTransactionVersion
    unlockTime := (height + c.minedMoneyUnlockWindow).toUInt64
    inputs := [.coinbaseInput { blockIndex := height }]
    outputs, extra }

/-- `binary_size` of a coinbase. -/
def minerTxSize (tx : Transaction) : Except Fault ℕ := do
  let bytes ← orThrow (Seria.transactionToBinary tx)
  return bytes.length

/-- The loop that looks for a coinbase of the size that its reward was computed for: `k` counts the
key pairs drawn so far. -/
def tryMinerTx (construct : ℕ → ℕ → Option Transaction) (txsSize : ℕ) :
    ℕ → ℕ → ℕ → Except Fault (Option Transaction)
  | 0, _, _ => .ok none
  | tries + 1, k, cumulativeSize =>
    match construct k cumulativeSize with
    | none => .ok none
    | some tx => do
      let size ← minerTxSize tx
      if cumulativeSize - txsSize < size then
        tryMinerTx construct txsSize tries (k + 1) (txsSize + size)
      else if size < cumulativeSize - txsSize then
        let delta := cumulativeSize - txsSize - size
        let padded := { tx with extra := tx.extra ++ List.replicate delta 0 }
        let paddedSize ← minerTxSize padded
        if cumulativeSize = txsSize + paddedSize then return some padded
        else if cumulativeSize + 1 ≠ txsSize + paddedSize then return none
        else
          let shorter := { padded with extra := padded.extra.take (padded.extra.length - 1) }
          let shorterSize ← minerTxSize shorter
          if cumulativeSize ≠ txsSize + shorterSize then
            tryMinerTx construct txsSize tries (k + 1) (cumulativeSize + (delta - 1))
          else return some shorter
      else return some tx

/-! ## The template -/

section Template

variable (cr : Crypto) (c : Currency) (w : WalletCrypto)

/-- The pool loop: the size, the fee and the hashes of the transactions taken. -/
def selectTransactions (s : State) (blockSizeLimit : ℕ) :
    List Hash → DeltaState → ℕ → Amount → List Hash → Except Fault (ℕ × Amount × List Hash)
  | [], _, txsSize, fee, hashes => .ok (txsSize, fee, hashes)
  | tid :: tids, memoryState, txsSize, fee, hashes =>
    match s.pool.tx.get tid with
    | none => selectTransactions s blockSizeLimit tids memoryState txsSize fee hashes
    | some p =>
      if blockSizeLimit < txsSize + p.binaryTx.length then
        selectTransactions s blockSizeLimit tids memoryState txsSize fee hashes
      else
        match redoTransactionGetError cr c p.tx s.reads memoryState true with
        | .fault f => .error f
        | .reject _ => selectTransactions s blockSizeLimit tids memoryState txsSize fee hashes
        | .accept (memoryState, _, _) =>
          selectTransactions s blockSizeLimit tids memoryState (txsSize + p.binaryTx.length)
            (fee + p.fee) (hashes ++ [tid])

/-- The versions and the parent block of a template. -/
def templateVersions (majorVersion : UInt8) : BlockTemplate :=
  if majorVersion = 1 then
    { majorVersion, minorVersion := if c.upgradeHeightV2 = 0xFFFFFFFF then 1 else 0 }
  else if 2 ≤ majorVersion then
    { majorVersion
      minorVersion := if c.upgradeHeightV3 = 0xFFFFFFFF ∧ majorVersion = 2 then 1 else 0
      parentBlock := {
        majorVersion := 1
        minorVersion := 0
        transactionCount := 1
        baseTransaction := { extra := appendMergeMiningTagToExtra [] {} } } }
  else { majorVersion }

/-- `create_mining_block_template`: the template, the difficulty and the height; `none` where it
answers `false`.  The transactions kept for the miner's answer are left out. -/
def State.createMiningBlockTemplate (s : State) (now : Timestamp) (keys : ℕ → KeyPair)
    (adr : AccountPublicAddress) (extraNonce : BinaryArray) :
    Except Fault (Option (BlockTemplate × Difficulty × Height)) := do
  let height := s.tipHeight + 1
  let majorVersion := c.getBlockMajorVersionForHeight height
  let tip ← s.getTip
  let window ← s.getTipSegment tip
    (min s.tipHeight (c.getDifficultyBlocksCount (s.tipHeight + 1))) false
  let difficulty ← c.nextDifficulty height (window.map Api.BlockHeader.timestamp)
    (window.map Api.BlockHeader.cumulativeDifficulty)
  if difficulty = 0 then return none
  else
    let timestamp := max now s.nextMedianTimestamp
    let effectiveSizeMedian :=
      max s.nextMedianSize (c.blockGrantedFullRewardZoneByBlockVersion majorVersion)
    let maxTotalSize := min (125 * effectiveSizeMedian / 100) (c.maxBlockCumulativeSize height) -
      c.minerTxBlobReservedSize
    let poolHashes := (s.pool.feeTx.toList.flatMap fun msf ↦ msf.2.toList.map Prod.fst).reverse
    let (txsSize, fee, transactionHashes) ← selectTransactions cr c s maxTotalSize.toNat poolHashes
      { blockHeight := height, unlockTimestamp := timestamp } 0 0 []
    let construct := fun k currentBlockSize ↦ c.constructMinerTx w (keys k) majorVersion height
      effectiveSizeMedian.toUInt64 tip.alreadyGeneratedCoins (UInt64.ofNat currentBlockSize) fee adr
      extraNonce 11
    match construct 0 txsSize with
    | none => return none
    | some first =>
      let size ← minerTxSize first
      match ← tryMinerTx construct txsSize 10 1 (txsSize + size) with
      | none => return none
      | some baseTransaction =>
        let b := templateVersions c majorVersion
        return some ({ b with
          timestamp, previousBlockHash := s.tipBid, baseTransaction, transactionHashes },
          difficulty, height)

/-! ## The answer -/

/-- The members of an address: the spend key, then the view key. -/
def Seria.serAccountPublicAddress : Reader AccountPublicAddress :=
  Reader.andThen (Reader.field Prod.snd (fun v x ↦ (v.1, x)) Seria.serPod)
    (Reader.field Prod.fst (fun v x ↦ (x, v.2)) Seria.serPod)

/-- The static `parse_account_address_string`, which leaves the tag to its callers. -/
def parseTaggedAddressString (str : Bytes) : Option (UInt64 × AccountPublicAddress) :=
  match Base58.decodeAddr cr str with
  | none => none
  | some (tag, data) =>
    match Seria.fromBinary Seria.serAccountPublicAddress (0, 0) data with
    | (_, false) => none
    | (adr, true) =>
      if cr.keyIsvalid adr.2 && cr.keyIsvalid adr.1 then some (tag, adr) else none

/-- `parse_account_address_string`. -/
def parseAccountAddressString (str : Bytes) : Option AccountPublicAddress :=
  match parseTaggedAddressString cr str with
  | none => none
  | some (tag, adr) =>
    if tag ≠ Parameters.cryptonotePublicAddressBase58Prefix then none else some adr

namespace GetBlockTemplate

structure Request where
  reserveSize : UInt32 := 0
  walletAddress : Bytes

structure Response where
  difficulty : Difficulty
  height : Height
  reservedOffset : UInt32
  blocktemplateBlob : BinaryArray
  status : String
  topBlockHash : Hash
  transactionPoolVersion : UInt32
  previousBlockHash : Hash

/-- A JSON RPC error, or an exception of another kind. -/
inductive Error where
  | rpc (code : ℤ) (message : String)
  | fault (f : Fault)

end GetBlockTemplate

open GetBlockTemplate

def orFault {α : Type} (x : Except Fault α) : Except GetBlockTemplate.Error α :=
  match x with
  | .ok a => .ok a
  | .error f => .error (.fault f)

/-- Where the key is found in the blob; zero stands for nothing found. -/
def findKey (key : PublicKey) (blockBlob : BinaryArray) : UInt32 :=
  UInt32.ofNat ((slowMemmem (Seria.podBytes key) blockBlob).getD 0)

/-- `getblocktemplate`. -/
def State.getblocktemplate (s : State) (now : Timestamp) (keys : ℕ → KeyPair) (req : Request) :
    Except GetBlockTemplate.Error Response :=
  if txExtraNonceMaxCount < req.reserveSize.toNat then
    .error (.rpc (-3) "To big reserved size, maximum 255")
  else
    match (if req.walletAddress = [] then none
        else parseAccountAddressString cr req.walletAddress) with
    | none => .error (.rpc (-4) "Failed to parse wallet address")
    | some acc => do
      let blobReserve := List.replicate req.reserveSize.toNat 0
      match ← orFault (s.createMiningBlockTemplate cr c w now keys acc blobReserve) with
      | none => .error (.rpc (-5) "Internal error: failed to create block template")
      | some (blockTemplate, difficulty, height) =>
        let blockBlob ← orFault (orThrow (Seria.blockTemplateToBinary blockTemplate))
        let txPubKey := getTransactionPublicKeyFromExtra blockTemplate.baseTransaction.extra
        if txPubKey = 0 then
          .error (.rpc (-5) "Internal error: failed to find tx pub key in coinbase extra")
        else
          let found := findKey txPubKey blockBlob
          let reservedOffset := if 0 < req.reserveSize then found + (32 + 3) else 0
          if 0 < req.reserveSize ∧ (found = 0 ∨
              blockBlob.length < (reservedOffset + req.reserveSize).toNat) then
            .error (.rpc (-5) "Internal error: failed to create block template")
          else
            let tip ← orFault s.getTip
            return {
              difficulty, height, reservedOffset
              blocktemplateBlob := blockBlob
              status := "OK"
              topBlockHash := s.tipBid
              transactionPoolVersion := s.txPoolVersion
              previousBlockHash := tip.previousBlockHash }

end Template

end Naza
