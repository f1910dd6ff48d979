import Naza.State

/-!
# Delta states

The writes of `IBlockChainState` on the database and the pool, and `DeltaState`: the changes of one
block or one transaction, stacked over another state and replayed on it in the order of its maps.
-/

open Lib

namespace Naza

/-! ## Removal from the pool -/

/-- Erase the key images of a transaction; the verdict is whether each one was there. -/
def eraseKeyimages (kiTx : Store KeyImage Hash) (keyImages : List KeyImage) :
    Store KeyImage Hash × Bool :=
  keyImages.foldl (fun acc ki ↦ (acc.1.remove ki, acc.2 && (acc.1.get ki).isSome)) (kiTx, true)

/-- Erase a transaction from the fee index, with its set when that becomes empty. -/
def eraseFee (feeTx : Store Amount (Store Hash Unit)) (feePerByte : Amount) (tid : Hash) :
    Store Amount (Store Hash Unit) × Bool :=
  let hashes := (feeTx.get feePerByte).getD ∅
  let left := hashes.remove tid
  (if left.first.isNone then feeTx.remove feePerByte else feeTx.put feePerByte left,
    (hashes.get tid).isSome)

/-- `remove_from_pool`. -/
def Pool.removeFromPool (pool : Pool) (tid : Hash) : Except Fault Pool :=
  match pool.tx.get tid with
  | none => .ok pool
  | some p => do
    let (kiTx, kiErased) := eraseKeyimages pool.kiTx p.tx.keyImages
    let (feeTx, feeErased) := eraseFee pool.feeTx p.feePerByte tid
    invariant (kiErased ∧ feeErased) "remove_memory_pool failed to erase everything"
    return {
      tx := pool.tx.remove tid, kiTx, feeTx, totalSize := pool.totalSize - p.binaryTx.length }

/-! ## Writes -/

/-- The writes of `IBlockChainState` that a delta is replayed through. -/
structure StateWrites (σ : Type) where
  storeKeyimage : KeyImage → Height → σ → Except Fault σ
  pushAmountOutput : Amount → UnlockMoment → Height → PublicKey → σ → Except Fault σ
  spendOutput : Amount → UInt32 → σ → Except Fault σ

namespace State

/-- `store_keyimage`: a pool transaction with this key image is dropped. -/
def storeKeyimage (ki : KeyImage) (height : Height) (s : State) : Except Fault State := do
  let keyImages ← dbWrite (s.db.keyImages.putNew ki height)
  let s := { s with db := { s.db with keyImages } }
  match s.pool.kiTx.get ki with
  | none => return s
  | some tid =>
    let pool ← s.pool.removeFromPool tid
    return { s with pool }

/-- `delete_keyimage`. -/
def deleteKeyimage (ki : KeyImage) (s : State) : Except Fault State := do
  let keyImages ← dbWrite (s.db.keyImages.removeExisting ki)
  return { s with db := { s.db with keyImages } }

/-- `push_amount_output`. -/
def pushAmountOutput (amount : Amount) (unlockTime : UnlockMoment) (blockHeight : Height)
    (pk : PublicKey) (s : State) : Except Fault State := do
  let myGi := s.nextGlobalIndexForAmount amount
  let outputs ← dbWrite (s.db.outputs.putNew (amount, myGi)
    { unlockTime, publicKey := pk, height := blockHeight })
  return { s with
    db := { s.db with outputs }
    nextGiForAmount := s.nextGiForAmount.put amount (myGi + 1) }

/-- `pop_amount_output`. -/
def popAmountOutput (amount : Amount) (unlockTime : UnlockMoment) (pk : PublicKey) (s : State) :
    Except Fault State := do
  let nextGi := s.nextGlobalIndexForAmount amount
  invariant (nextGi ≠ 0) "BlockChainState::pop_amount_output underflow"
  let nextGi := nextGi - 1
  let unp ← expect (s.db.outputs.get (amount, nextGi))
    "BlockChainState::pop_amount_output element does not exist"
  invariant (unp.spent = false ∧ unp.unlockTime = unlockTime ∧ unp.publicKey = pk)
    "BlockChainState::pop_amount_output popping wrong element"
  let outputs ← dbWrite (s.db.outputs.removeExisting (amount, nextGi))
  return { s with
    db := { s.db with outputs }
    nextGiForAmount := s.nextGiForAmount.put amount nextGi }

/-- `spend_output` with its flag: an output that is not stored is passed over. -/
def setSpent (amount : Amount) (globalIndex : UInt32) (spent : Bool) (s : State) : State :=
  match s.db.outputs.get (amount, globalIndex) with
  | none => s
  | some was =>
    { s with db := { s.db with
      outputs := s.db.outputs.put (amount, globalIndex) { was with spent } } }

def writes : StateWrites State where
  storeKeyimage := storeKeyimage
  pushAmountOutput := pushAmountOutput
  spendOutput amount index s := .ok (s.setSpent amount index true)

end State

/-! ## Deltas -/

structure DeltaState where
  keyimages : Store KeyImage Height := ∅
  globalAmounts : Store Amount (List (UnlockMoment × PublicKey)) := ∅
  spentOutputs : List (Amount × UInt32) := []
  blockHeight : Height
  unlockTimestamp : Timestamp

namespace DeltaState

/-- `store_keyimage`, which expects the key image to be new in this delta. -/
def storeKeyimage (ki : KeyImage) (height : Height) (d : DeltaState) :
    Except Fault DeltaState :=
  match d.keyimages.putNew ki height with
  | .ok keyimages => .ok { d with keyimages }
  | .error _ => .error (.invariant "m_keyimages.insert")

/-- `push_amount_output`; the height given is not kept. -/
def pushAmountOutput (amount : Amount) (unlockTime : UnlockMoment) (pk : PublicKey)
    (d : DeltaState) : DeltaState :=
  let ga := (d.globalAmounts.get amount).getD [] ++ [(unlockTime, pk)]
  { d with globalAmounts := d.globalAmounts.put amount ga }

/-- `spend_output`. -/
def spendOutput (amount : Amount) (globalIndex : UInt32) (d : DeltaState) : DeltaState :=
  { d with spentOutputs := d.spentOutputs ++ [(amount, globalIndex)] }

def writes : StateWrites DeltaState where
  storeKeyimage := storeKeyimage
  pushAmountOutput amount unlockTime _ pk d := .ok (d.pushAmountOutput amount unlockTime pk)
  spendOutput amount index d := .ok (d.spendOutput amount index)

/-- The reads of a delta over its parent state. -/
def reads (d : DeltaState) (parent : StateReads) : StateReads where
  readKeyimage ki :=
    match d.keyimages.get ki with
    | none => parent.readKeyimage ki
    | some _ => some d.blockHeight
  nextGlobalIndexForAmount amount :=
    match d.globalAmounts.get amount with
    | none => parent.nextGlobalIndexForAmount amount
    | some ga => UInt32.ofNat ga.length + parent.nextGlobalIndexForAmount amount
  readAmountOutput amount globalIndex :=
    let pg := parent.nextGlobalIndexForAmount amount
    if globalIndex < pg then parent.readAmountOutput amount globalIndex
    else
      match ((d.globalAmounts.get amount).getD [])[(globalIndex - pg).toNat]? with
      | none => none
      | some (unlockTime, publicKey) =>
        some { unlockTime, publicKey, height := d.blockHeight, spent := false }

/-- `apply`: replay the delta on its parent, key images first, then outputs, then spends. -/
def apply {σ : Type} (d : DeltaState) (w : StateWrites σ) (s : σ) : Except Fault σ := do
  let s ← d.keyimages.toList.foldlM (fun s (ki, height) ↦ w.storeKeyimage ki height s) s
  let s ← d.globalAmounts.toList.foldlM (fun s (amount, ga) ↦
    ga.foldlM (fun s (unlockTime, pk) ↦ w.pushAmountOutput amount unlockTime d.blockHeight pk s) s)
    s
  d.spentOutputs.foldlM (fun s (amount, index) ↦ w.spendOutput amount index s) s

end DeltaState

end Naza
