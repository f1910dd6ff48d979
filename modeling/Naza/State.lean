import Naza.Lib.Store
import Naza.PreparedBlock

/-!
# The state of the node

The tables of the database, the transaction pool and the cached values of `BlockChainState`, with
the primitive reads and writes of `BlockChain` and `BlockChainState`.  Headers cached in memory
are copies of stored ones, so header reads go to the table.
-/

open Lib

namespace Naza

structure TransactionPos where
  height : Height := 0
  offset : UInt32 := 0
  size : UInt32 := 0
  index : UInt32 := 0
  deriving DecidableEq, Inhabited

structure UnlockTimePublickKeyHeightSpent where
  unlockTime : UnlockMoment := 0
  publicKey : PublicKey := 0
  height : Height := 0
  spent : Bool := false
  deriving DecidableEq, Inhabited

abbrev BlockGlobalIndices := List (List UInt32)

instance instTransOrdDifficultyHash : Std.TransOrd (Difficulty × Hash) := inferInstance

/-- The database, one store for each key prefix. -/
structure Database where
  blocks : Store Hash BinaryArray := ∅
  headers : Store Hash Api.BlockHeader := ∅
  children : Store Hash UInt32 := ∅
  cdTips : Store (Difficulty × Hash) Unit := ∅
  chain : Store Height Hash := ∅
  timestamps : Store (Timestamp × Height) Unit := ∅
  transactions : Store Hash TransactionPos := ∅
  globalIndices : Store Hash BlockGlobalIndices := ∅
  keyImages : Store KeyImage Height := ∅
  outputs : Store (Amount × UInt32) UnlockTimePublickKeyHeightSpent := ∅

structure PoolTransaction where
  tx : Transaction
  binaryTx : BinaryArray
  fee : Amount
  deriving DecidableEq

/-- `fee_per_byte`. -/
def PoolTransaction.feePerByte (p : PoolTransaction) : Amount :=
  p.fee / UInt64.ofNat p.binaryTx.length

/-- The memory pool: transactions, the transaction that spends each key image, the fee index and
the total size. -/
structure Pool where
  tx : Store Hash PoolTransaction := ∅
  kiTx : Store KeyImage Hash := ∅
  feeTx : Store Amount (Store Hash Unit) := ∅
  totalSize : ℕ := 0

structure State where
  db : Database := {}
  /-- `m_next_gi_for_amount`, a cache -/
  nextGiForAmount : Store Amount UInt32 := ∅
  pool : Pool := {}
  txPoolVersion : UInt32 := 2
  tipBid : Hash := 0
  tipHeight : Height := 0xFFFFFFFF
  tipCumulativeDifficulty : Difficulty := 0
  nextMedianSize : UInt32 := 0
  nextMedianTimestamp : Timestamp := 0

/-- A database write or erase that the database may refuse. -/
def dbWrite {α : Type} (x : Except StoreError α) : Except Fault α :=
  match x with
  | .ok a => .ok a
  | .error _ => .error .database

@[simp]
theorem dbWrite_eq_ok_iff {α : Type} {x : Except StoreError α} {a : α} :
    dbWrite x = .ok a ↔ x = .ok a := by
  cases x <;> simp [dbWrite]

/-! ## Reads -/

namespace State

variable (s : State)

/-- `read_header` with its invariant. -/
def readHeader (bid : Hash) : Except Fault Api.BlockHeader :=
  expect (s.db.headers.get bid) "Expected header was not found"

/-- `read_chain` with its invariant. -/
def readChain (height : Height) : Except Fault Hash :=
  expect (s.db.chain.get height) "read_header_chain failed"

/-- `get_tip`: the last header of the tip window. -/
def getTip : Except Fault Api.BlockHeader :=
  expect (s.db.headers.get s.tipBid) "tip window corrupted"

/-- `read_block`: the stored bytes and the raw block decoded from them. -/
def readBlock (bid : Hash) : Except Fault (Option (BinaryArray × RawBlock)) :=
  match s.db.blocks.get bid with
  | none => .ok none
  | some rb =>
    match Seria.fromBinary Seria.serRawBlock {} rb with
    | (raw, true) => .ok (some (rb, raw))
    | (_, false) => .error .serialization

def hasBlock (bid : Hash) : Bool := (s.db.blocks.get bid).isSome

/-- `next_global_index_for_amount`: cached, or one above the last stored index of the amount. -/
def nextGlobalIndexForAmount (amount : Amount) : UInt32 :=
  match s.nextGiForAmount.get amount with
  | some index => index
  | none =>
    match s.db.outputs.lastWhere (fun k ↦ k.1 = amount) with
    | some ((_, index), _) => index + 1
    | none => 0

end State

/-- What a `DeltaState` reads from the state under it. -/
structure StateReads where
  readKeyimage : KeyImage → Option Height
  nextGlobalIndexForAmount : Amount → UInt32
  readAmountOutput : Amount → UInt32 → Option UnlockTimePublickKeyHeightSpent

def State.reads (s : State) : StateReads where
  readKeyimage ki := s.db.keyImages.get ki
  nextGlobalIndexForAmount := s.nextGlobalIndexForAmount
  readAmountOutput amount index := s.db.outputs.get (amount, index)

end Naza
