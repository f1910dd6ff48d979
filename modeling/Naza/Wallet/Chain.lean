import Naza.Wallet.Walk

/-!
# The chain of the wallet

`WalletStateBasic`: the headers of the blocks processed, from a tail height up to the tip, and for
each of them the undo map with which `pop_chain` takes the block back.
-/

open Lib

namespace Naza

/-- The undo map of a block, table by table. -/
structure UndoMap where
  transactions : Store Hash (Option (TransactionPrefix × Api.Transaction)) := ∅
  history : Store (String × Height × Hash) (Option Unit) := ∅
  balances : Store String (Option Api.Balance) := ∅
  keyImages : Store KeyImage (Option HeightAmounGi) := ∅
  unspent : Store HeightAmounGi (Option Api.Output) := ∅
  unspentByAddress : Store (String × HeightAmounGi) (Option Unit) := ∅
  unlocked : Store HeightAmounGi (Option Api.Output) := ∅
  lockedByKeyImage : Store (KeyImage × Amount × UInt32) (Option UnlockMoment) := ∅
  lockedByHeight : Store (UInt32 × Amount × UInt32) (Option Api.Output) := ∅
  lockedByTimestamp : Store (UInt32 × Amount × UInt32) (Option Api.Output) := ∅

def UndoMap.isEmpty (u : UndoMap) : Bool :=
  u.transactions.isEmpty && u.history.isEmpty && u.balances.isEmpty && u.keyImages.isEmpty &&
    u.unspent.isEmpty && u.unspentByAddress.isEmpty && u.unlocked.isEmpty &&
    u.lockedByKeyImage.isEmpty && u.lockedByHeight.isEmpty && u.lockedByTimestamp.isEmpty

namespace WalletTables

/-- `current_undo_map`. -/
def pending (t : WalletTables) : UndoMap where
  transactions := t.transactions.pending
  history := t.history.pending
  balances := t.balances.pending
  keyImages := t.keyImages.pending
  unspent := t.unspent.pending
  unspentByAddress := t.unspentByAddress.pending
  unlocked := t.unlocked.pending
  lockedByKeyImage := t.lockedByKeyImage.pending
  lockedByHeight := t.lockedByHeight.pending
  lockedByTimestamp := t.lockedByTimestamp.pending

/-- `current_undo_map.clear()`. -/
def settle (t : WalletTables) : WalletTables where
  transactions := t.transactions.settle
  history := t.history.settle
  balances := t.balances.settle
  keyImages := t.keyImages.settle
  unspent := t.unspent.settle
  unspentByAddress := t.unspentByAddress.settle
  unlocked := t.unlocked.settle
  lockedByKeyImage := t.lockedByKeyImage.settle
  lockedByHeight := t.lockedByHeight.settle
  lockedByTimestamp := t.lockedByTimestamp.settle

/-- The values of an undo map written back. -/
def restore (t : WalletTables) (u : UndoMap) : WalletTables where
  transactions := { t.transactions with table := t.transactions.table.restore u.transactions }
  history := { t.history with table := t.history.table.restore u.history }
  balances := { t.balances with table := t.balances.table.restore u.balances }
  keyImages := { t.keyImages with table := t.keyImages.table.restore u.keyImages }
  unspent := { t.unspent with table := t.unspent.table.restore u.unspent }
  unspentByAddress := { t.unspentByAddress with
    table := t.unspentByAddress.table.restore u.unspentByAddress }
  unlocked := { t.unlocked with table := t.unlocked.table.restore u.unlocked }
  lockedByKeyImage := { t.lockedByKeyImage with
    table := t.lockedByKeyImage.table.restore u.lockedByKeyImage }
  lockedByHeight := { t.lockedByHeight with
    table := t.lockedByHeight.table.restore u.lockedByHeight }
  lockedByTimestamp := { t.lockedByTimestamp with
    table := t.lockedByTimestamp.table.restore u.lockedByTimestamp }

end WalletTables

structure WalletStateBasic where
  tables : WalletTables := {}
  chain : Store Height Api.BlockHeader := ∅
  undo : Store Height UndoMap := ∅
  tipHeight : Height := 0xFFFFFFFF
  tailHeight : Height := 0
  tip : Api.BlockHeader := {}

namespace WalletStateBasic

/-- `empty_chain`. -/
def emptyChain (s : WalletStateBasic) : Bool := s.tipHeight + 1 = s.tailHeight

/-- `save_db_state` of the current undo map. -/
def saveDbState (height : Height) (s : WalletStateBasic) :
    Except WalletFault WalletStateBasic :=
  if s.tables.pending.isEmpty then .ok s
  else do
    let undo ← walletWrite (s.undo.putNew height s.tables.pending)
    return { s with undo }

/-- `push_chain`. -/
def pushChain (header : Api.BlockHeader) (s : WalletStateBasic) :
    Except WalletFault WalletStateBasic := do
  let tipHeight := s.tipHeight + 1
  let chain ← walletWrite (s.chain.putNew tipHeight header)
  let s ← saveDbState tipHeight { s with chain, tipHeight, tip := header }
  return { s with tables := s.tables.settle }

/-- `undo_db_state`. -/
def undoDbState (height : Height) (s : WalletStateBasic) : WalletStateBasic :=
  match s.undo.get height with
  | none => s
  | some u => { s with undo := s.undo.remove height, tables := s.tables.restore u }

/-- `read_chain` with its invariant. -/
def readChain (height : Height) (s : WalletStateBasic) : Except Fault Api.BlockHeader :=
  expect (s.chain.get height) "read_header_chain failed"

/-- `pop_chain`. -/
def popChain (s : WalletStateBasic) : Except WalletFault WalletStateBasic := do
  throwing (invariant (s.tipHeight + 1 ≠ s.tailHeight) "pop_chain tip_height == -1")
  let s := s.undoDbState s.tipHeight
  let chain ← walletWrite (s.chain.removeExisting s.tipHeight)
  let s := { s with chain, tipHeight := s.tipHeight - 1 }
  let tip ← throwing (if s.tipHeight + 1 = s.tailHeight then .ok ({} : Api.BlockHeader)
    else s.readChain s.tipHeight)
  return { s with tip }

/-- `reset_chain`. -/
def resetChain (newTailHeight : Height) (s : WalletStateBasic) :
    Except WalletFault WalletStateBasic := do
  throwing (invariant (s.emptyChain = true) "reset_chain chain should be empty")
  return { s with tailHeight := newTailHeight, tipHeight := newTailHeight - 1 }

end WalletStateBasic

/-- `fill_genesis`. -/
def fillGenesis (genesisBid : Hash) (g : BlockTemplate) : Api.BlockHeader where
  majorVersion := g.majorVersion
  minorVersion := g.minorVersion
  previousBlockHash := g.previousBlockHash
  timestamp := g.timestamp
  nonce := g.nonce
  hash := genesisBid

/-- `fix_empty_chain`. -/
def WalletStateBasic.fixEmptyChain (c : Currency) (s : WalletStateBasic) :
    Except WalletFault WalletStateBasic :=
  if s.tipHeight + 1 = s.tailHeight then
    { s with tailHeight := 0, tipHeight := 0xFFFFFFFF }.pushChain
      (fillGenesis c.genesisBlockHash c.genesisBlockTemplate)
  else .ok s

/-! ## Blocks -/

/-- A block that a wallet has passed, with the keys it had: redone, or skipped as too old. -/
structure ProcessedBlock where
  keys : WalletKeys
  header : Api.BlockHeader
  redone : Option (PreparedWalletBlock × List (List UInt32))

namespace WalletStateBasic

variable (wc : WalletCrypto) (c : Currency)

/-- One block of the loop of `sync_with_blockchain`: `redo_block` and `push_chain`. -/
def applyBlock (b : ProcessedBlock) (s : WalletStateBasic) :
    Except WalletFault WalletStateBasic := do
  let tables ← (match b.redone with
    | none => .ok s.tables
    | some (pb, globalIndices) =>
      WalletState.redoBlock wc c b.keys b.header pb globalIndices (s.tipHeight + 1) s.tables)
  { s with tables }.pushChain b.header

/-- Blocks applied, the first one first. -/
def applyBlocks (blocks : List ProcessedBlock) (s : WalletStateBasic) :
    Except WalletFault WalletStateBasic :=
  blocks.foldlM (fun s b ↦ s.applyBlock wc c b) s

/-- So many blocks taken back. -/
def popBlocks : ℕ → WalletStateBasic → Except WalletFault WalletStateBasic
  | 0, s => .ok s
  | n + 1, s => do
    let s ← s.popChain
    popBlocks n s

end WalletStateBasic

/-- The states of a wallet database: the blocks processed since its chain was last empty, the last
one first, and the tail height set then. -/
inductive WalletRun (wc : WalletCrypto) (c : Currency) :
    Height → List ProcessedBlock → WalletStateBasic → Prop where
  | start : WalletRun wc c 0 [] {}
  | reset {tail newTail : Height} {s t : WalletStateBasic} :
      WalletRun wc c tail [] s → s.resetChain newTail = .ok t → WalletRun wc c newTail [] t
  | apply {tail : Height} {blocks : List ProcessedBlock} {s t : WalletStateBasic}
      (b : ProcessedBlock) :
      WalletRun wc c tail blocks s → s.applyBlock wc c b = .ok t →
        WalletRun wc c tail (b :: blocks) t
  | pop {tail : Height} {b : ProcessedBlock} {blocks : List ProcessedBlock}
      {s t : WalletStateBasic} :
      WalletRun wc c tail (b :: blocks) s → s.popChain = .ok t → WalletRun wc c tail blocks t

end Naza
