import Naza.MemoryPool
import Naza.Consensus

/-!
# The block chain

`BlockChain`: the tip and the index of the main chain, the counters of the block tree, redoing and
undoing a block together with its timestamp and transaction indices, reorganization, and
`add_block`.  A fault is an exception: `add_block` turns one that is raised after the block was
checked into the exit of the process.
-/

open Lib

namespace Naza

variable (cr : Crypto) (c : Currency)

inductive BroadcastAction where
  | broadcastAll
  | nothing
  | ban
  deriving DecidableEq, Inhabited

/-- `slow_memmem`: where the pattern first stands.  The count of bytes left that the source keeps
is too large after a failed candidate, which matters only if there is no match. -/
def slowMemmem (pat : BinaryArray) : BinaryArray → Option ℕ
  | [] => none
  | b :: buf =>
    if pat ≠ [] ∧ pat.isPrefixOf (b :: buf) then some 0
    else (slowMemmem pat buf).map (· + 1)

namespace State

/-! ## Redo and undo with the indices -/

/-- One entry of the transaction index; the search goes on behind the entry before it. -/
def indexTransaction (blockData : BinaryArray) (tid : Hash) (binaryTx : BinaryArray)
    (text : String) (tpos : TransactionPos) (s : State) :
    Except Fault (TransactionPos × State) := do
  let start := tpos.offset.toNat + tpos.size.toNat
  let position ← expect (slowMemmem binaryTx (blockData.drop start)) text
  let tpos := { tpos with
    offset := UInt32.ofNat (start + position), size := UInt32.ofNat binaryTx.length }
  let transactions ← dbWrite (s.db.transactions.putNew tid tpos)
  return (tpos, { s with db := { s.db with transactions } })

/-- The loop over the transactions of a block in `redo_block`, the next one having index `index`. -/
def indexTransactions (blockData : BinaryArray) : ℕ → List Transaction → List Hash →
    List BinaryArray → TransactionPos → State → Except Fault State
  | _, [], _, _, _, s => .ok s
  | index, _ :: txs, tid :: tids, binaryTx :: raws, tpos, s => do
    let (tpos, s) ← s.indexTransaction blockData tid binaryTx
      "binary tx not found in binary block" { tpos with index := UInt32.ofNat index }
    indexTransactions blockData (index + 1) txs tids raws tpos s
  | _, _ :: _, _, _, _, _ => .error .outOfRange

/-- The timestamp and transaction indices of a block that has been redone. -/
def indexBlock (blockData : BinaryArray) (raw : RawBlock) (block : Block) (info : Api.BlockHeader)
    (baseTransactionHash : Hash) (s : State) : Except Fault State := do
  let timestamps ← dbWrite (s.db.timestamps.putNew (info.timestamp, info.height) ())
  let s := { s with db := { s.db with timestamps } }
  let coinbase ← orThrow (Seria.transactionToBinary block.header.baseTransaction)
  let (tpos, s) ← s.indexTransaction blockData baseTransactionHash coinbase
    "binary coinbase tx not found in binary block" { height := info.height }
  indexTransactions blockData 1 block.transactions block.header.transactionHashes raw.transactions
    tpos s

/-- `BlockChain::redo_block`: `none` where it returns false. -/
def redoBlockIndexed (bhash : Hash) (blockData : BinaryArray) (raw : RawBlock) (block : Block)
    (info : Api.BlockHeader) (baseTransactionHash : Hash) (s : State) :
    Except Fault (Option State) := do
  match ← s.redoBlock cr c bhash block info with
  | none => return none
  | some s =>
    let s ← s.indexBlock blockData raw block info baseTransactionHash
    return some s

/-- Erase entries of the transaction index. -/
def unindexTransactions : List Transaction → List Hash → State → Except Fault State
  | [], _, s => .ok s
  | _ :: txs, tid :: tids, s => do
    let transactions ← dbWrite (s.db.transactions.removeExisting tid)
    unindexTransactions txs tids { s with db := { s.db with transactions } }
  | _ :: _, [], _ => .error .outOfRange

/-- The timestamp and transaction indices of a block that has been undone. -/
def unindexBlock (block : Block) (height : Height) (s : State) : Except Fault State := do
  let timestamps ← dbWrite (s.db.timestamps.removeExisting (block.header.timestamp, height))
  let s := { s with db := { s.db with timestamps } }
  let tid ← orThrow (getTransactionHash cr block.header.baseTransaction)
  let transactions ← dbWrite (s.db.transactions.removeExisting tid)
  let s := { s with db := { s.db with transactions } }
  unindexTransactions block.transactions block.header.transactionHashes s

/-- `BlockChain::undo_block`. -/
def undoBlockIndexed (bhash : Hash) (block : Block) (height : Height) (s : State) :
    Except Fault State := do
  let s ← s.undoBlock bhash block
  s.unindexBlock cr block height

/-! ## The tip -/

/-- `push_chain`. -/
def pushChain (header : Api.BlockHeader) (s : State) : Except Fault State := do
  let tipHeight := s.tipHeight + 1
  let chain ← dbWrite (s.db.chain.putNew tipHeight header.hash)
  State.tipChanged c { s with
    db := { s.db with chain }
    tipHeight
    tipBid := header.hash
    tipCumulativeDifficulty := header.cumulativeDifficulty }

/-- `pop_chain`. -/
def popChain (newTipBid : Hash) (s : State) : Except Fault State := do
  invariant (s.tipHeight ≠ 0) "pop_chain tip_height == 0"
  let chain ← dbWrite (s.db.chain.removeExisting s.tipHeight)
  let s := { s with
    db := { s.db with chain }
    tipHeight := s.tipHeight - 1
    tipBid := newTipBid }
  let bid ← s.readChain s.tipHeight
  invariant (bid = s.tipBid) "After undo tip does not match read_chain "
  let tip ← s.getTip
  return { s with tipCumulativeDifficulty := tip.cumulativeDifficulty }

/-! ## The block tree -/

/-- The number of children of a block; one when it is not stored. -/
def childrenCounter (s : State) (bid : Hash) : UInt32 := (s.db.children.get bid).getD 1

/-- `check_children_counter`: a block without children is in the index of tips, and no other. -/
def checkChildrenCounter (cd : Difficulty) (bid : Hash) (value : UInt32) (s : State) :
    Except Fault Unit := do
  let counter := s.childrenCounter bid
  invariant (counter = value) "check_children_counter index corrupted"
  invariant (counter ≠ 0 ∨ s.db.cdTips.get (cd, bid) ≠ none)
    "check_children_counter tip is not in index"
  invariant (counter = 0 ∨ s.db.cdTips.get (cd, bid) = none)
    "check_children_counter non-tip is in index"

/-- `modify_children_counter`. -/
def modifyChildrenCounter (cd : Difficulty) (bid : Hash) (delta : UInt32) (s : State) : State :=
  let counter := s.childrenCounter bid + delta
  { s with db := { s.db with
    children := if counter = 1 then s.db.children.remove bid else s.db.children.put bid counter
    cdTips :=
      if counter = 0 then s.db.cdTips.put (cd, bid) () else s.db.cdTips.remove (cd, bid) } }

/-- The loops of `get_common_block` that bring the higher of two blocks down: the blocks passed. -/
def descend (s : State) (target : Height) : ℕ → Hash → Api.BlockHeader →
    Except Fault (List Hash × Hash × Api.BlockHeader)
  | fuel, hid, ha =>
    if target < ha.height then
      match fuel with
      | 0 => .error .diverged
      | fuel + 1 => do
        let prev ← s.readHeader ha.previousBlockHash
        let (chain, last) ← s.descend target fuel ha.previousBlockHash prev
        return (hid :: chain, last)
    else .ok ([], hid, ha)

/-- The last loop of `get_common_block`: the blocks passed on both sides and the common one. -/
def descendBoth (s : State) : ℕ → Hash → Api.BlockHeader → Hash → Api.BlockHeader →
    Except Fault (List Hash × List Hash × Hash)
  | fuel, hid1, ha1, hid2, ha2 =>
    if hid1 = hid2 then .ok ([], [], hid1)
    else
      match fuel with
      | 0 => .error .diverged
      | fuel + 1 => do
        let prev1 ← s.readHeader ha1.previousBlockHash
        let prev2 ← s.readHeader ha2.previousBlockHash
        let (chain1, chain2, common) ←
          s.descendBoth fuel ha1.previousBlockHash prev1 ha2.previousBlockHash prev2
        return (hid1 :: chain1, hid2 :: chain2, common)

/-- `get_common_block`: both branches, newest block first, and the common block.  Heights bound
the rounds. -/
def getCommonBlock (s : State) (bid1 bid2 : Hash) :
    Except Fault (List Hash × List Hash × Hash) := do
  let ha1 ← s.readHeader bid1
  let ha2 ← s.readHeader bid2
  let (chain1, hid1, ha1) ← s.descend ha2.height ha1.height.toNat bid1 ha1
  let (chain2, hid2, ha2) ← s.descend ha1.height ha2.height.toNat bid2 ha2
  let (rest1, rest2, common) ← s.descendBoth ha1.height.toNat hid1 ha1 hid2 ha2
  return (chain1 ++ rest1, chain2 ++ rest2, common)

/-! ## Reorganization -/

abbrev UndoneTransactions := Store Hash (Transaction × BinaryArray)

/-- Transactions taken out of the chain, by hash; `insert` keeps the first of a hash. -/
def collectUndone : List Hash → List Transaction → List BinaryArray → UndoneTransactions →
    UndoneTransactions
  | tid :: tids, tx :: txs, raw :: raws, undone =>
    collectUndone tids txs raws
      (match undone.get tid with
        | none => undone.put tid (tx, raw)
        | some _ => undone)
  | _, _, _, undone => undone

/-- One round of the undo loop of `reorganize_blocks`. -/
def undoTip (undone : UndoneTransactions) (s : State) :
    Except Fault (UndoneTransactions × State) := do
  let stored ← s.readBlock s.tipBid
  let (_, raw) ← expect stored "Block to undo not found or failed to convert"
  let (block, verdict) := Block.fromRawBlock raw
  invariant (verdict = true) "Block to undo not found or failed to convert"
  let s ← s.undoBlockIndexed cr s.tipBid block s.tipHeight
  let undone :=
    collectUndone block.header.transactionHashes block.transactions raw.transactions undone
  let s ← s.popChain block.header.previousBlockHash
  let s ← State.tipChanged c s
  return (undone, s)

/-- The undo loop, down to the common block; the height of the tip bounds the rounds. -/
def undoTo (common : Hash) : ℕ → UndoneTransactions → State →
    Except Fault (UndoneTransactions × State)
  | fuel, undone, s =>
    if s.tipBid = common then .ok (undone, s)
    else
      match fuel with
      | 0 => .error .diverged
      | fuel + 1 => do
        let (undone, s) ← s.undoTip cr c undone
        undoTo common fuel undone s

/-- One block of the branch switched to: `none` where it cannot be read or redone. -/
def redoOne (recentPb : PreparedBlock) (recentInfo : Api.BlockHeader) (chha : Hash)
    (undone : UndoneTransactions) (s : State) :
    Except Fault (Option (UndoneTransactions × State)) := do
  if chha = recentPb.bid then
    invariant (recentPb.block.header.previousBlockHash = s.tipBid)
      "Unexpected block prev, invariant dead"
    match ← s.redoBlockIndexed cr c recentPb.bid recentPb.blockData recentPb.rawBlock
      recentPb.block recentInfo recentPb.baseTransactionHash with
    | none => return none
    | some s =>
      let s ← s.pushChain c recentInfo
      return some (recentPb.block.header.transactionHashes.foldl Store.remove undone, s)
  else
    match ← s.readBlock chha with
    | none => return none
    | some (blockData, raw) =>
      let (block, verdict) := Block.fromRawBlock raw
      if verdict = false then return none
      else
        invariant (block.header.previousBlockHash = s.tipBid)
          "Unexpected block prev, invariant dead"
        let info ← s.readHeader chha
        let baseTransactionHash ← orThrow (getTransactionHash cr block.header.baseTransaction)
        match ← s.redoBlockIndexed cr c chha blockData raw block info baseTransactionHash with
        | none => return none
        | some s =>
          let s ← s.pushChain c info
          return some (block.header.transactionHashes.foldl Store.remove undone, s)

/-- The redo loop over the branch, oldest block first: what is left undone, the state reached and
whether the whole branch was redone. -/
def redoBranch (recentPb : PreparedBlock) (recentInfo : Api.BlockHeader) :
    List Hash → UndoneTransactions → State → Except Fault (UndoneTransactions × State × Bool)
  | [], undone, s => .ok (undone, s, true)
  | chha :: branch, undone, s => do
    match ← s.redoOne cr c recentPb recentInfo chha undone with
    | none => return (undone, s, false)
    | some (undone, s) => redoBranch recentPb recentInfo branch undone s

/-- `reorganize_blocks`: the verdict and the state. -/
def reorganizeBlocks (switchToChain : Hash) (recentPb : PreparedBlock)
    (recentInfo : Api.BlockHeader) (s : State) : Except Fault (Bool × State) := do
  let (_, chain2, common) ← s.getCommonBlock s.tipBid switchToChain
  if chain2.all s.hasBlock = false then return (false, s)
  else
    let undoneBlocks : Bool := s.tipBid ≠ common
    let (undone, s) ← s.undoTo cr c common s.tipHeight.toNat ∅
    let (undone, s, result) ← s.redoBranch cr c recentPb recentInfo chain2.reverse undone
    let s ← s.onReorganization cr c undone undoneBlocks
    return (result, s)

/-! ## Adding a block -/

/-- The header above a block: for the genesis block, one at height -1. -/
def prevInfo (s : State) (pb : PreparedBlock) : Option Api.BlockHeader :=
  if pb.bid = c.genesisBlockHash then some { height := 0xFFFFFFFF }
  else s.db.headers.get pb.block.header.previousBlockHash

/-- The block and its header stored. -/
def storeBlock (pb : PreparedBlock) (info : Api.BlockHeader) (s : State) : Except Fault State := do
  let blocks ← (if s.hasBlock pb.bid then .ok s.db.blocks
    else dbWrite (s.db.blocks.putNew pb.bid pb.blockData))
  let headers ← dbWrite (s.db.headers.putNew pb.bid info)
  return { s with db := { s.db with blocks, headers } }

/-- The genesis block redone and pushed. -/
def applyGenesis (pb : PreparedBlock) (info : Api.BlockHeader) (s : State) :
    Except Fault State := do
  let applied ← s.redoBlockIndexed cr c pb.bid pb.blockData pb.rawBlock pb.block info
    pb.baseTransactionHash
  let s ← expect applied "Failed to apply genesis block"
  s.pushChain c info

/-- The block hung into the tree; the genesis block is applied at once. -/
def linkBlock (pb : PreparedBlock) (info prevInfo : Api.BlockHeader) (s : State) :
    Except Fault State := do
  let s ← (if pb.bid = c.genesisBlockHash then s.applyGenesis cr c pb info
    else .ok (s.modifyChildrenCounter prevInfo.cumulativeDifficulty
      pb.block.header.previousBlockHash 1))
  s.checkChildrenCounter info.cumulativeDifficulty pb.bid 1
  return s.modifyChildrenCounter info.cumulativeDifficulty pb.bid (-1)

/-- The choice of the chain: `none` where the block on top of the tip is refused. -/
def chooseChain (pb : PreparedBlock) (info : Api.BlockHeader) (s : State) :
    Except Fault (Option State) :=
  if s.tipCumulativeDifficulty < info.cumulativeDifficulty then
    if s.tipBid = pb.block.header.previousBlockHash then do
      match ← s.redoBlockIndexed cr c pb.bid pb.blockData pb.rawBlock pb.block info
        pb.baseTransactionHash with
      | none => return none
      | some s =>
        let s ← s.pushChain c info
        return some s
    else do
      let (_, s) ← s.reorganizeBlocks cr c pb.bid pb info
      return some s
  else .ok (some s)

/-- The part of `add_block` behind the check. -/
def insertBlock (pb : PreparedBlock) (info prevInfo : Api.BlockHeader) (s : State) :
    Except Fault (BroadcastAction × State) := do
  let s ← s.storeBlock pb info
  let s ← s.linkBlock cr c pb info prevInfo
  match ← s.chooseChain cr c pb info with
  | none => return (.ban, s)
  | some s => return (if info.hash = s.tipBid then .broadcastAll else .nothing, s)

/-- `add_block`.  The header info of a banned block is not read by its callers; it is given as far
as `add_block` itself fills it. -/
def addBlock (now : Timestamp) (pb : PreparedBlock) (s : State) :
    Except Fault (BroadcastAction × Api.BlockHeader × State) :=
  match s.db.headers.get pb.bid, s.hasBlock pb.bid with
  | some info, true => .ok (.nothing, info, s)
  | header, _ =>
    match s.prevInfo c pb with
    | none => .ok (.nothing, header.getD {}, s)
    | some prevInfo =>
      match s.checkStandaloneConsensus cr c now pb (blockInfo pb prevInfo) prevInfo true with
      | .fault f => .error f
      | .reject _ => .ok (.ban, blockInfo pb prevInfo, s)
      | .accept info => do
        let (action, s) ← s.insertBlock cr c pb info prevInfo
        return (action, info, s)

/-! ## Runs -/

/-- The genesis block added to an empty database. -/
def addGenesis (now : Timestamp) (s : State) : Except Fault State := do
  let raw ← expect (Block.toRawBlock { header := c.genesisBlockTemplate })
    "Genesis block failed to convert into raw block"
  let pb ← PreparedBlock.ofRawBlock cr raw false
  let (action, _, s) ← s.addBlock cr c now pb
  invariant (action ≠ .ban) "Genesis block failed to add"
  return s

/-- `read_tip` of a database that has a chain. -/
def readTip (db : Database) : Except Fault State := do
  let (tipHeight, tipBid) ← expect db.chain.toList.getLast? "Expected header was not found"
  let s : State := { db, tipHeight, tipBid }
  let tip ← s.readHeader tipBid
  return { s with tipCumulativeDifficulty := tip.cumulativeDifficulty }

/-- The constructor: on an empty database the genesis block is added, else the tip is read. -/
def start (now : Timestamp) (db : Database) : Except Fault State :=
  match db.chain.get 0 with
  | none => do
    let s ← State.addGenesis cr c now { db }
    State.tipChanged c s
  | some genesis =>
    if genesis ≠ c.genesisBlockHash then
      .error (.invariant "Database starts with different genesis_block")
    else do
      let s ← readTip db
      State.tipChanged c s

end State

/-- What happens to a node. -/
inductive Event where
  /-- a raw block is offered; `context` tells whether its long hash was computed beforehand -/
  | addBlock (now : Timestamp) (raw : SizedRawBlock) (context : Bool)
  /-- a transaction arrives -/
  | addTransaction (binaryTx : BinaryArray)
  /-- the next global index of an amount is looked up and cached -/
  | cacheNextIndex (amount : Amount)
  /-- the process is started again on its database -/
  | restart (now : Timestamp)

/-- One event.  A raw block or a transaction that cannot be prepared is dropped by its sender's
connection. -/
def State.step (s : State) : Event → Except Fault State
  | .addBlock now raw context =>
    match PreparedBlock.ofRawBlock cr raw.val context with
    | .error _ => .ok s
    | .ok pb => do
      let (_, _, s) ← s.addBlock cr c now pb
      return s
  | .addTransaction binaryTx =>
    match Seria.fromBinary Seria.serTransaction {} binaryTx with
    | (_, false) => .ok s
    | (tx, true) =>
      match getTransactionHash cr tx with
      | none => .ok s
      | some tid => do
        let (_, _, s) ← s.addTransaction cr c tid tx binaryTx
        return s
  | .cacheNextIndex amount =>
    .ok { s with nextGiForAmount :=
      s.nextGiForAmount.put amount (s.nextGlobalIndexForAmount amount) }
  | .restart now => State.start cr c now s.db

/-- The states of a node that was started on an empty database and whose events all meet a
condition. -/
inductive Run (ok : State → Event → Prop) : State → Prop where
  | start {now : Timestamp} {s : State} : State.start cr c now {} = .ok s → Run ok s
  | step {s t : State} {e : Event} : Run ok s → ok s e → s.step cr c e = .ok t → Run ok t

/-- The states a node can be in. -/
abbrev Reachable : State → Prop := Run cr c fun _ _ ↦ True

end Naza
