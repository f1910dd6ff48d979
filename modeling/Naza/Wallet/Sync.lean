import Naza.ChainSync
import Naza.StringTools
import Naza.TransactionIndex
import Naza.Wallet.Balance

/-!
# Synchronizing a wallet

The answer of a node to `sync_blocks`, and what a wallet does with it.  The status that is sent
along is left out.
-/

open Lib

namespace Naza

/-! ## Messages -/

/-- What ends a request: an error sent back, or an exception of the node. -/
inductive RpcFault where
  | refused (text : String)
  | fault (f : Fault)
  deriving DecidableEq, Inhabited

/-- Code of the node inside a request. -/
def serving {α : Type} (x : Except Fault α) : Except RpcFault α :=
  match x with
  | .ok a => .ok a
  | .error f => .error (.fault f)

@[simp]
theorem serving_eq_ok_iff {α : Type} {x : Except Fault α} {a : α} :
    serving x = .ok a ↔ x = .ok a := by
  cases x <;> simp [serving]

/-- `api::nazad::GetRawBlock::Response`. -/
structure SyncBlock where
  header : Api.BlockHeader
  rawHeader : BlockTemplate
  rawTransactions : List TransactionPrefix
  baseTransactionHash : Hash
  globalIndices : BlockGlobalIndices

structure SyncBlocksRequest where
  sparseChain : List Hash := []
  firstBlockTimestamp : Timestamp := 0
  maxCount : UInt32 := 100

/-- `SyncBlocks::Request::MAX_COUNT`. -/
def SyncBlocksRequest.limit : UInt32 := 1000

structure SyncBlocksResponse where
  blocks : List SyncBlock := []
  startHeight : Height := 0

/-- The block of an answer at a height. -/
def SyncBlocksResponse.blockAt (resp : SyncBlocksResponse) (height : Height) :
    Except Fault SyncBlock :=
  match resp.blocks[(height - resp.startHeight).toNat]? with
  | some b => .ok b
  | none => .error .outOfRange

theorem SyncBlocksResponse.blockAt_eq_ok_iff {resp : SyncBlocksResponse} {height : Height}
    {b : SyncBlock} : resp.blockAt height = .ok b ↔
      resp.blocks[(height - resp.startHeight).toNat]? = some b := by
  unfold blockAt
  split <;> simp_all

/-! ## The node -/

namespace State

/-- `get_timestamp_lower_bound_block_index`: the first entry from a timestamp on. -/
def getTimestampLowerBoundBlockIndex (s : State) (ts : Timestamp) : Height :=
  match s.db.timestamps.toList.find? fun e ↦ ts ≤ e.1.1 with
  | some ((_, height), _) => height
  | none => s.tipHeight

/-- The ids of the main chain from a height on, until one is missing or there are enough. -/
def readChainFrom (s : State) : ℕ → Height → List Hash
  | 0, _ => []
  | maxCount + 1, height =>
    match s.db.chain.get height with
    | some bid => bid :: s.readChainFrom maxCount (height + 1)
    | none => []

/-- The earliest timestamp asked for, less the future limit. -/
def firstTimestamp (c : Currency) (s : State) (firstBlockTimestamp : Timestamp) : Timestamp :=
  let limit := c.getBlockFutureTimeLimit (s.tipHeight + 1)
  if firstBlockTimestamp < limit then 0 else firstBlockTimestamp - limit

/-- The part of `on_wallet_sync3` that finds the start height and the ids. -/
def syncSupplement (c : Currency) (s : State) (req : SyncBlocksRequest) :
    Except Fault (Height × List Hash) := do
  let fullOffset :=
    s.getTimestampLowerBoundBlockIndex (s.firstTimestamp c req.firstBlockTimestamp)
  let (start, supplement) ← s.getSyncHeadersChain req.maxCount.toNat req.sparseChain
  return if start.toNat + supplement.length ≤ fullOffset.toNat then
      (fullOffset, s.readChainFrom req.maxCount.toNat fullOffset)
    else if start < fullOffset then (fullOffset, supplement.drop (fullOffset - start).toNat)
    else (start, supplement)

/-- One block of the answer. -/
def syncBlock (cr : Crypto) (s : State) (bid : Hash) : Except Fault SyncBlock := do
  let header ← expect (s.db.headers.get bid) "Block header must be there, but it is not there"
  let (_, raw) ← expect (← s.readBlock bid) "Block must be there, but it is not there"
  let (block, verdict) := Block.fromRawBlock raw
  invariant (verdict = true) "RawBlock failed to convert into block"
  let baseTransactionHash ← orThrow (getTransactionHash cr block.header.baseTransaction)
  let globalIndices ← expect (s.db.globalIndices.get bid)
    "Invariant dead - bid is in chain but blockchain has no block indices"
  return {
    header, rawHeader := block.header, baseTransactionHash, globalIndices
    rawTransactions := block.transactions.map Transaction.toTransactionPrefix }

/-- `on_wallet_sync3`. -/
def onWalletSync3 (cr : Crypto) (c : Currency) (s : State) (req : SyncBlocksRequest) :
    Except RpcFault SyncBlocksResponse :=
  if req.sparseChain = [] then
    .error (.refused "Empty sparse chain - must include at least genesis block")
  else if req.sparseChain.getLast? ≠ some c.genesisBlockHash then
    .error (.refused
      ("Wrong currency - different genesis block. Must be " ++ podToHex c.genesisBlockHash))
  else if SyncBlocksRequest.limit < req.maxCount then
    .error (.refused ("Too big max_count - must be < " ++ toString SyncBlocksRequest.limit))
  else do
    let (startHeight, supplement) ← serving (s.syncSupplement c req)
    let blocks ← serving (supplement.mapM (s.syncBlock cr))
    return { blocks, startHeight }

end State

/-! ## The wallet -/

/-- The constructor of `PreparedWalletBlock`. -/
def SyncBlock.prepare (wc : WalletCrypto) (b : SyncBlock) (viewSecretKey : SecretKey) :
    PreparedWalletBlock where
  header := b.rawHeader
  baseTransaction :=
    .make wc b.rawHeader.baseTransaction.toTransactionPrefix viewSecretKey
  baseTransactionHash := b.baseTransactionHash
  transactions := b.rawTransactions.map fun tx ↦ .make wc tx viewSecretKey

namespace WalletStateBasic

/-- `WalletStateBasic::get_sparse_chain`. -/
def getSparseChain (c : Currency) (w : WalletStateBasic) : Except Fault (List Hash) := do
  let tipPath ← (if w.tailHeight < w.tipHeight + 1 then
      sparseEntries (fun height ↦ Api.BlockHeader.hash <$> w.readChain height) w.tailHeight
        w.tipHeight 40 0 0
    else .ok [])
  return withGenesis c.genesisBlockHash tipPath

/-- Blocks taken back while the chain is not empty and a condition holds. -/
def popWhile (p : WalletStateBasic → Bool) :
    ℕ → WalletStateBasic → Except WalletFault WalletStateBasic
  | fuel, w =>
    if p w = true ∧ w.emptyChain = false then
      match fuel with
      | 0 => .error (.exception .diverged)
      | fuel + 1 => do
        let w ← w.popChain
        popWhile p fuel w
    else .ok w

/-- Whether the tip stays, and with which verdict: it does where it is the block that the answer
has there, and where even the genesis blocks differ. -/
def compareTip (resp : SyncBlocksResponse) (w : WalletStateBasic) :
    Except WalletFault (Option Bool) :=
  if resp.startHeight ≤ w.tipHeight ∧ w.emptyChain = false then do
    let other ← throwing (resp.blockAt w.tipHeight)
    return if w.tip.hash = other.header.hash then some true
      else if w.tipHeight = 0 then some false
      else none
  else return some true

/-- Blocks taken back until the tip stays. -/
def popDiffering (resp : SyncBlocksResponse) :
    ℕ → WalletStateBasic → Except WalletFault (Bool × WalletStateBasic)
  | 0, w => do
    match ← w.compareTip resp with
    | some fits => return (fits, w)
    | none => .error (.exception .diverged)
  | fuel + 1, w => do
    match ← w.compareTip resp with
    | some fits => return (fits, w)
    | none =>
      let w ← w.popChain
      popDiffering resp fuel w

/-- The blocks in a chain. -/
def chainLength (w : WalletStateBasic) : ℕ := (w.tipHeight + 1 - w.tailHeight).toNat

end WalletStateBasic

namespace WalletState

variable (wc : WalletCrypto) (c : Currency) (keys : WalletKeys) (oldestTimestamp : Timestamp)

/-- A block of an answer as the wallet passes it: redone unless it is too old. -/
def processed (height : Height) (b : SyncBlock) : ProcessedBlock where
  keys
  header := b.header
  redone :=
    if oldestTimestamp ≤ b.header.timestamp + c.getBlockFutureTimeLimit height then
      some (b.prepare wc keys.viewSecretKey, b.globalIndices)
    else none

/-- The block of an answer that comes next, or the verdict of the loop. -/
def nextBlock (resp : SyncBlocksResponse) (w : WalletStateBasic) :
    Except WalletFault (Bool ⊕ SyncBlock) :=
  if (w.tipHeight + 1).toNat < resp.startHeight.toNat + resp.blocks.length then do
    let b ← throwing (resp.blockAt (w.tipHeight + 1))
    return if w.emptyChain = false ∧ b.header.previousBlockHash ≠ w.tip.hash then .inl false
      else .inr b
  else return .inl true

/-- The loop over the blocks of an answer. -/
def processBlocks (resp : SyncBlocksResponse) :
    ℕ → WalletStateBasic → Except WalletFault (Bool × WalletStateBasic)
  | 0, w => do
    match ← nextBlock resp w with
    | .inl fits => return (fits, w)
    | .inr _ => .error (.exception .diverged)
  | fuel + 1, w => do
    match ← nextBlock resp w with
    | .inl fits => return (fits, w)
    | .inr b =>
      let w ← w.applyBlock wc c (processed wc c keys oldestTimestamp (w.tipHeight + 1) b)
      processBlocks resp fuel w

/-- `sync_with_blockchain`: whether the answer fitted, and the database after it. -/
def syncWithBlockchain (resp : SyncBlocksResponse) (w : WalletStateBasic) :
    Except WalletFault (Bool × WalletStateBasic) :=
  if resp.blocks = [] then .ok (true, w)
  else do
    let w ← w.popWhile
      (fun w ↦ resp.startHeight.toNat + resp.blocks.length - 1 < w.tipHeight.toNat) w.chainLength
    let (fits, w) ← w.popDiffering resp w.chainLength
    if fits = false then return (false, w)
    else do
      let w ← (if w.tipHeight < resp.startHeight then w.popWhile (fun _ ↦ true) w.chainLength
        else .ok w)
      let w ← (if w.emptyChain = true then w.resetChain resp.startHeight else .ok w)
      let (fits, w) ← processBlocks wc c keys oldestTimestamp resp resp.blocks.length w
      if fits = false then return (false, w)
      else do
        let w ← w.fixEmptyChain c
        return (true, w)

end WalletState

/-- The databases of a wallet with a fixed oldest timestamp that synchronizes with nodes of a kind:
each time it sends its locator, and the keys it has may have changed. -/
inductive SyncedWallet (wc : WalletCrypto) (cr : Crypto) (c : Currency)
    (oldestTimestamp : Timestamp) (node : State → Prop) : WalletStateBasic → Prop where
  | start {w : WalletStateBasic} :
      WalletStateBasic.fixEmptyChain c {} = .ok w → SyncedWallet wc cr c oldestTimestamp node w
  | sync {w w' : WalletStateBasic} {s : State} {keys : WalletKeys} {maxCount : UInt32}
      {sparseChain : List Hash} {resp : SyncBlocksResponse} {fits : Bool} :
      SyncedWallet wc cr c oldestTimestamp node w → node s →
        w.getSparseChain c = .ok sparseChain →
        s.onWalletSync3 cr c { sparseChain, firstBlockTimestamp := oldestTimestamp, maxCount } =
          .ok resp →
        WalletState.syncWithBlockchain wc c keys oldestTimestamp resp w = .ok (fits, w') →
        SyncedWallet wc cr c oldestTimestamp node w'

end Naza
