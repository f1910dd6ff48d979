import Naza.Transactions

/-!
# The memory pool

`add_transaction` with its three parts: the checks, which may send the transaction back, the
displacement of conflicting transactions, and the insertion followed by trimming the pool.
-/

open Lib

namespace Naza

variable (cr : Crypto) (c : Currency)

inductive AddTransactionResult where
  | ban
  | broadcastAll
  | alreadyInPool
  | increaseFee
  | failedToRedo
  | outputAlreadySpent
  deriving DecidableEq, Inhabited

def maxPoolSize : ℕ := 2000000

/-! ## The pool alone -/

namespace Pool

/-- `minimum_pool_fee_per_byte`. -/
def minimumPoolFeePerByte (pool : Pool) : Except Fault (Amount × Hash) :=
  match pool.feeTx.first with
  | none => .ok (0, 0)
  | some (fee, hashes) => do
    let (tid, _) ← expect hashes.first "Invariant dead, memory_state_fee_tx empty set"
    return (fee, tid)

/-- Whether a transaction gives way to one already in the pool. -/
def yieldsTo (myFeePerByte : Amount) (tid : Hash) (otherFeePerByte : Amount) (other : Hash) :
    Bool :=
  myFeePerByte < otherFeePerByte ∨ (myFeePerByte = otherFeePerByte ∧ tid < other)

/-- The first conflict loop: it looks at the first input with a conflict and no further. -/
def firstConflictYields (pool : Pool) (myFeePerByte : Amount) (tid : Hash) :
    List KeyInput → Except Fault Bool
  | [] => .ok false
  | input :: inputs =>
    match pool.kiTx.get input.keyImage with
    | none => pool.firstConflictYields myFeePerByte tid inputs
    | some other =>
      match pool.tx.get other with
      | none => .error .outOfRange
      | some p => .ok (yieldsTo myFeePerByte tid p.feePerByte other)

/-- The second conflict loop, over the key images of the delta in their order: conflicting
transactions are removed until one is met that does not give way. -/
def displace (myFeePerByte : Amount) (tid : Hash) : List KeyImage → Pool →
    Except Fault (Pool × Bool)
  | [], pool => .ok (pool, true)
  | ki :: kis, pool =>
    match pool.kiTx.get ki with
    | none => displace myFeePerByte tid kis pool
    | some other =>
      match pool.tx.get other with
      | none => .error .outOfRange
      | some p =>
        if yieldsTo myFeePerByte tid p.feePerByte other then .ok (pool, false)
        else do
          let pool ← pool.removeFromPool other
          displace myFeePerByte tid kis pool

/-- Map a key image to its new transaction unless it is mapped already. -/
def insertKeyimage (tid : Hash) (acc : Store KeyImage Hash × Bool) (ki : KeyImage) :
    Store KeyImage Hash × Bool :=
  match acc.1.get ki with
  | none => (acc.1.put ki tid, acc.2)
  | some _ => (acc.1, false)

/-- Map the key images to their new transaction; the verdict is whether all were new. -/
def insertKeyimages (tid : Hash) (kis : List KeyImage) (kiTx : Store KeyImage Hash) :
    Store KeyImage Hash × Bool :=
  kis.foldl (insertKeyimage tid) (kiTx, true)

/-- Insertion into the three maps. -/
def insert (pool : Pool) (tid : Hash) (p : PoolTransaction) (kis : List KeyImage) :
    Except Fault Pool := do
  let (kiTx, kiInserted) := insertKeyimages tid kis pool.kiTx
  let (tx, txInserted) :=
    match pool.tx.get tid with
    | none => (pool.tx.put tid p, true)
    | some _ => (pool.tx, false)
  let hashes := (pool.feeTx.get p.feePerByte).getD ∅
  let feeTx := pool.feeTx.put p.feePerByte (hashes.put tid ())
  invariant (kiInserted ∧ txInserted ∧ hashes.get tid = none) "memory_state_fee_tx empty"
  return { tx, kiTx, feeTx, totalSize := pool.totalSize + p.binaryTx.length }

/-- The condition and the first half of a round of the trimming loop: the transaction with the
lowest fee, while the pool stays at its maximal size without it. -/
def trimVictim (pool : Pool) : Except Fault (Option Hash) :=
  if pool.totalSize ≤ maxPoolSize then .ok none
  else do
    let (_, hashes) ← expect pool.feeTx.first "memory_state_fee_tx empty"
    let (rhash, _) ← expect hashes.first "memory_state_fee_tx empty set"
    match pool.tx.get rhash with
    | none => .error .outOfRange
    | some p =>
      return if pool.totalSize < maxPoolSize + p.binaryTx.length then none else some rhash

/-- The trimming loop.  Each round removes one transaction. -/
def trim : ℕ → Pool → Except Fault Pool
  | 0, pool => do
    match ← pool.trimVictim with
    | none => return pool
    | some _ => .error .diverged
  | fuel + 1, pool => do
    match ← pool.trimVictim with
    | none => return pool
    | some rhash =>
      let pool ← pool.removeFromPool rhash
      trim fuel pool

end Pool

/-! ## Adding a transaction -/

namespace State

/-- What sends a transaction back: the result and the conflict height reported with it. -/
abbrev Refusal := AddTransactionResult × Height

/-- Everything before the pool changes: the delta of the transaction and the conflict height.  The
timestamp of the tip and the height above it decide which outputs are unlocked. -/
def checkTransaction (s : State) (tid : Hash) (tx : Transaction) (binaryTx : BinaryArray)
    (unlockHeight : Height) (unlockTimestamp : Timestamp) (checkSigs : Bool) :
    Check Fault Refusal (DeltaState × Height) := do
  .require (s.pool.tx.get tid = none) (.alreadyInPool, 0)
  let myFee := getTxFee tx.toTransactionPrefix
  .lift (if UInt64.ofNat binaryTx.length = 0 then .error .divisionByZero else .ok ())
  let myFeePerByte := myFee / UInt64.ofNat binaryTx.length
  let (minimalFee, minimalTid) ← .lift s.pool.minimumPoolFeePerByte
  .require (¬ (maxPoolSize ≤ s.pool.totalSize ∧ myFeePerByte < minimalFee)) (.increaseFee, 0)
  .require (¬ (maxPoolSize ≤ s.pool.totalSize ∧ myFeePerByte = minimalFee ∧ tid < minimalTid))
    (.increaseFee, 0)
  let yields ← .lift (s.pool.firstConflictYields myFeePerByte tid tx.keyInputs)
  .require (yields = false) (.increaseFee, 0)
  match tx.keyInputs.findSome? fun input ↦ s.db.keyImages.get input.keyImage with
  | some height => .reject (.outputAlreadySpent, height)
  | none =>
    match validateSemantic cr false tx checkSigs with
    | .error _ => .reject (.ban, 0)
    | .ok _ =>
      match redoTransactionGetError cr c tx s.reads
        { blockHeight := unlockHeight, unlockTimestamp } checkSigs with
      | .fault f => .fault f
      | .reject error => .reject (.failedToRedo, error.conflictHeight)
      | .accept (delta, _, conflictHeight) => .accept (delta, conflictHeight)

/-- `add_transaction` with explicit unlock values: the result, the conflict height and the state
afterwards. -/
def addTransactionAt (s : State) (tid : Hash) (tx : Transaction) (binaryTx : BinaryArray)
    (unlockHeight : Height) (unlockTimestamp : Timestamp) (checkSigs : Bool) :
    Except Fault (AddTransactionResult × Height × State) :=
  match s.checkTransaction cr c tid tx binaryTx unlockHeight unlockTimestamp checkSigs with
  | .fault f => .error f
  | .reject (result, conflictHeight) => .ok (result, conflictHeight, s)
  | .accept (delta, conflictHeight) => do
    let p : PoolTransaction := { tx, binaryTx, fee := getTxFee tx.toTransactionPrefix }
    let kis := delta.keyimages.toList.map Prod.fst
    let (pool, displaced) ← Pool.displace p.feePerByte tid kis s.pool
    if displaced then
      let pool ← pool.insert tid p kis
      let pool ← Pool.trim pool.tx.size pool
      return (.broadcastAll, conflictHeight,
        { s with pool, txPoolVersion := s.txPoolVersion + 1 })
    else return (.increaseFee, conflictHeight, { s with pool })

/-- `add_transaction` on top of the current tip. -/
def addTransaction (s : State) (tid : Hash) (tx : Transaction) (binaryTx : BinaryArray) :
    Except Fault (AddTransactionResult × Height × State) := do
  let tip ← s.getTip
  s.addTransactionAt cr c tid tx binaryTx (s.tipHeight + 1) tip.timestamp true

/-- One transaction given back to the pool, whatever the result. -/
def readdTransaction (tid : Hash) (tx : Transaction) (binaryTx : BinaryArray) (s : State) :
    Except Fault State := do
  let (_, _, s) ← s.addTransaction cr c tid tx binaryTx
  return s

/-- `on_reorganization`: after an undo the pool is rebuilt from what it held, and the undone
transactions follow. -/
def onReorganization (undoneTransactions : Store Hash (Transaction × BinaryArray))
    (undoneBlocks : Bool) (s : State) : Except Fault State := do
  let s ← (if undoneBlocks then
      s.pool.tx.toList.foldlM (fun s (tid, p) ↦ s.readdTransaction cr c tid p.tx p.binaryTx)
        { s with pool := {} }
    else .ok s)
  let s ← undoneTransactions.toList.foldlM
    (fun s (tid, tx, binaryTx) ↦ s.readdTransaction cr c tid tx binaryTx) s
  return { s with txPoolVersion := 2 }

end State

end Naza
