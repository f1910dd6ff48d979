import Naza.Currency

/-!
# Prepared blocks

`Block::from_raw_block` and the constructor of `PreparedBlock`.  A failed parse is swallowed: the
block stays as far as it had been filled and the block id keeps its default.
-/

open Lib

namespace Naza

open Seria

/-- The transaction loop of `from_raw_block`: those parsed before the first failure are kept. -/
def parseTransactions : List BinaryArray → List Transaction × Bool
  | [] => ([], true)
  | raw :: raws =>
    match fromBinary serTransaction {} raw with
    | (tx, true) =>
      let (txs, verdict) := parseTransactions raws
      (tx :: txs, verdict)
    | (_, false) => ([], false)

/-- `Block::from_raw_block` on a fresh block: the block as filled, and the verdict. -/
def Block.fromRawBlock (raw : RawBlock) : Block × Bool :=
  match fromBinary serBlockTemplate {} raw.block with
  | (header, true) =>
    let (transactions, verdict) := parseTransactions raw.transactions
    ({ header, transactions }, verdict)
  | (header, false) => ({ header }, false)

/-- `Block::to_raw_block`. -/
def Block.toRawBlock (block : Block) : Option RawBlock := do
  let header ← blockTemplateToBinary block.header
  let transactions ← block.transactions.mapM transactionToBinary
  some { block := header, transactions }

structure PreparedBlock where
  blockData : BinaryArray := []
  rawBlock : RawBlock := {}
  block : Block := {}
  bid : Hash := 0
  baseTransactionHash : Hash := 0
  coinbaseTxSize : ℕ := 0
  parentBlockSize : ℕ := 0
  longBlockHash : Hash := 0
  deriving DecidableEq, Inhabited

/-- The constructor of `PreparedBlock` from a raw block, with or without a hashing context. -/
def PreparedBlock.ofRawBlock (cr : Crypto) (raw : RawBlock) (context : Bool) :
    Except Fault PreparedBlock := do
  let (block, verdict) := Block.fromRawBlock raw
  let bid ← (if verdict then orThrow (getBlockHash cr block.header) else .ok 0)
  let parentBlockSize :=
    if 2 ≤ block.header.majorVersion then (plainParentBlockBytes block.header.parentBlock).length
    else 0
  let coinbase ← orThrow (transactionToBinary block.header.baseTransaction)
  let longBlockHash ← (if context then getBlockLongHash cr block.header else .ok 0)
  return {
    blockData := rawBlockBytes raw, rawBlock := raw, block, bid,
    baseTransactionHash := cr.cnFastHash coinbase, coinbaseTxSize := coinbase.length,
    parentBlockSize, longBlockHash }

end Naza
