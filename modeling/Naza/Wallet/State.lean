import Naza.Lib.UndoLog
import Naza.Currency

/-!
# The wallet database

The tables of `WalletStateBasic`, one for each key prefix, each with its part of the undo map of
the block being processed, and the operations that receive, lock, unlock and spend outputs.
Totals of `Uint128` and counts of outputs are natural numbers; a subtraction that would go below
zero is a fault of its own.
-/

open Lib

namespace Naza

/-! ## Data -/

structure Api.Output where
  amount : Amount := 0
  publicKey : PublicKey := 0
  globalIndex : UInt32 := 0
  unlockTime : UnlockMoment := 0
  indexInTransaction : UInt32 := 0
  height : Height := 0
  keyImage : KeyImage := 0
  transactionPublicKey : PublicKey := 0
  address : String := ""
  dust : Bool := false
  deriving DecidableEq, Inhabited

abbrev SignedAmount := Int64

structure Api.Transfer where
  address : String := ""
  amount : SignedAmount := 0
  ours : Bool := false
  locked : Bool := false
  outputs : List Api.Output := []
  deriving DecidableEq, Inhabited

structure Api.Transaction where
  unlockTime : UnlockMoment := 0
  transfers : List Api.Transfer := []
  paymentId : Hash := 0
  anonymity : UInt32 := 0
  hash : Hash := 0
  fee : SignedAmount := 0
  publicKey : PublicKey := 0
  extra : BinaryArray := []
  coinbase : Bool := false
  amount : Amount := 0
  blockHeight : Height := 0
  blockHash : Hash := 0
  timestamp : Timestamp := 0
  binarySize : UInt32 := 0
  deriving DecidableEq, Inhabited

@[ext]
structure Api.Balance where
  spendable : ℕ := 0
  spendableDust : ℕ := 0
  lockedOrUnconfirmed : ℕ := 0
  spendableOutputs : ℕ := 0
  spendableDustOutputs : ℕ := 0
  lockedOrUnconfirmedOutputs : ℕ := 0
  deriving DecidableEq, Inhabited

/-- `total`. -/
def Api.Balance.total (b : Api.Balance) : ℕ := b.spendable + b.spendableDust + b.lockedOrUnconfirmed

/-- `total_outputs`. -/
def Api.Balance.totalOutputs (b : Api.Balance) : ℕ :=
  b.spendableOutputs + b.spendableDustOutputs + b.lockedOrUnconfirmedOutputs

/-- `PRETTY_AMOUNTS`: one digit and zeros. -/
def prettyAmounts : List Amount :=
  (List.range 19).flatMap (fun zeros ↦
    (List.range 9).map fun digit ↦ UInt64.ofNat ((digit + 1) * 10 ^ zeros)) ++
    [10000000000000000000]

/-- `is_dust`. -/
def isDust (amount : Amount) : Bool :=
  match prettyAmounts.find? (amount ≤ ·) with
  | none => true
  | some pretty => pretty ≠ amount ∨ amount < 1000000

/-- Height, amount and global index of an output. -/
abbrev HeightAmounGi := Height × Amount × UInt32

instance instTransOrdHeightAmounGi : Std.TransOrd HeightAmounGi := inferInstance
instance instLawfulEqOrdHeightAmounGi : Std.LawfulEqOrd HeightAmounGi := inferInstance
instance instTransOrdAddressOutput : Std.TransOrd (String × HeightAmounGi) := inferInstance
instance instLawfulEqOrdAddressOutput : Std.LawfulEqOrd (String × HeightAmounGi) := inferInstance
instance instTransOrdHistoryKey : Std.TransOrd (String × Height × Hash) := inferInstance
instance instLawfulEqOrdHistoryKey : Std.LawfulEqOrd (String × Height × Hash) := inferInstance
instance instTransOrdLockedKey : Std.TransOrd (KeyImage × Amount × UInt32) := inferInstance
instance instLawfulEqOrdLockedKey : Std.LawfulEqOrd (KeyImage × Amount × UInt32) := inferInstance

/-- The key of an output in the unspent index. -/
def Api.Output.heightAmounGi (o : Api.Output) : HeightAmounGi := (o.height, o.amount, o.globalIndex)

/-! ## Faults -/

/-- Why a wallet operation unwinds: an exception, or a balance that went below zero. -/
inductive WalletFault where
  | exception (f : Fault)
  | underflow
  deriving DecidableEq, Inhabited

/-- Code that throws, inside a wallet operation. -/
def throwing {α : Type} (x : Except Fault α) : Except WalletFault α :=
  match x with
  | .ok a => .ok a
  | .error f => .error (.exception f)

/-- A database write or erase that the database may refuse. -/
def walletWrite {α : Type} (x : Except StoreError α) : Except WalletFault α :=
  match x with
  | .ok a => .ok a
  | .error _ => .error (.exception .database)

@[simp]
theorem throwing_eq_ok_iff {α : Type} {x : Except Fault α} {a : α} :
    throwing x = .ok a ↔ x = .ok a := by
  cases x <;> simp [throwing]

@[simp]
theorem throwing_ne_underflow {α : Type} {x : Except Fault α} :
    throwing x ≠ .error .underflow := by
  cases x <;> simp [throwing]

@[simp]
theorem walletWrite_eq_ok_iff {α : Type} {x : Except StoreError α} {a : α} :
    walletWrite x = .ok a ↔ x = .ok a := by
  cases x <;> simp [walletWrite]

@[simp]
theorem walletWrite_ne_underflow {α : Type} {x : Except StoreError α} :
    walletWrite x ≠ .error .underflow := by
  cases x <;> simp [walletWrite]

/-! ## Balances -/

/-- A total changed by an amount, added or taken away as the sign of `op` says. -/
def changeTotal (total amount : ℕ) (op : Int) : Except WalletFault ℕ :=
  if 0 < op then .ok (total + amount)
  else if op < 0 then if amount ≤ total then .ok (total - amount) else .error .underflow
  else .ok total

/-- A count of outputs changed by `op`. -/
def changeCount (count : ℕ) (op : Int) : Except WalletFault ℕ :=
  if 0 ≤ count + op then .ok (count + op).toNat else .error .underflow

/-- `combine_balance`. -/
def combineBalance (balance : Api.Balance) (output : Api.Output) (lockedOp spendableOp : Int) :
    Except WalletFault Api.Balance := do
  let amount := output.amount.toNat
  let lockedOrUnconfirmed ← changeTotal balance.lockedOrUnconfirmed amount lockedOp
  let lockedOrUnconfirmedOutputs ← changeCount balance.lockedOrUnconfirmedOutputs lockedOp
  let balance := { balance with lockedOrUnconfirmed, lockedOrUnconfirmedOutputs }
  if output.dust then
    let spendableDust ← changeTotal balance.spendableDust amount spendableOp
    let spendableDustOutputs ← changeCount balance.spendableDustOutputs spendableOp
    return { balance with spendableDust, spendableDustOutputs }
  else
    let spendable ← changeTotal balance.spendable amount spendableOp
    let spendableOutputs ← changeCount balance.spendableOutputs spendableOp
    return { balance with spendable, spendableOutputs }

/-! ## Tables -/

/-- The logged tables of the wallet database. -/
structure WalletTables where
  transactions : LoggedTable Hash (TransactionPrefix × Api.Transaction) := {}
  history : LoggedTable (String × Height × Hash) Unit := {}
  balances : LoggedTable String Api.Balance := {}
  keyImages : LoggedTable KeyImage HeightAmounGi := {}
  unspent : LoggedTable HeightAmounGi Api.Output := {}
  unspentByAddress : LoggedTable (String × HeightAmounGi) Unit := {}
  unlocked : LoggedTable HeightAmounGi Api.Output := {}
  lockedByKeyImage : LoggedTable (KeyImage × Amount × UInt32) UnlockMoment := {}
  lockedByHeight : LoggedTable (UInt32 × Amount × UInt32) Api.Output := {}
  lockedByTimestamp : LoggedTable (UInt32 × Amount × UInt32) Api.Output := {}

namespace WalletTables

variable (c : Currency)

/-- `modify_balance`: the balance of the address and that of the whole wallet. -/
def modifyBalance (output : Api.Output) (lockedOp spendableOp : Int) (t : WalletTables) :
    Except WalletFault WalletTables := do
  let balance := (t.balances.table.get output.address).getD {}
  let balance2 := (t.balances.table.get "").getD {}
  let balance ← combineBalance balance output lockedOp spendableOp
  let balance2 ← combineBalance balance2 output lockedOp spendableOp
  let balances :=
    if balance.total = 0 ∧ balance.totalOutputs = 0 then t.balances.remove output.address
    else t.balances.put output.address balance
  let balances :=
    if balance2.total = 0 ∧ balance2.totalOutputs = 0 then balances.remove ""
    else balances.put "" balance2
  return { t with balances }

/-! ### Key images and unspent outputs -/

/-- `read_from_unspent_index`. -/
def readFromUnspentIndex (t : WalletTables) (value : HeightAmounGi) : Option Api.Output :=
  t.unspent.table.get value

/-- `read_by_keyimage`. -/
def readByKeyimage (t : WalletTables) (ki : KeyImage) : Option HeightAmounGi :=
  t.keyImages.table.get ki

/-- `update_keyimage`: nothing is recorded for the zero key image. -/
def updateKeyimage (ki : KeyImage) (value : HeightAmounGi) (nooverwrite : Bool)
    (t : WalletTables) : Except WalletFault WalletTables :=
  if ki = 0 then .ok t
  else if nooverwrite then do
    let keyImages ← walletWrite (t.keyImages.putNew ki value)
    return { t with keyImages }
  else .ok { t with keyImages := t.keyImages.put ki value }

/-- `add_to_unspent_index`. -/
def addToUnspentIndex (output : Api.Output) (t : WalletTables) :
    Except WalletFault WalletTables := do
  let t ← t.modifyBalance output 0 1
  let unspent ← walletWrite (t.unspent.putNew output.heightAmounGi output)
  let unspentByAddress ←
    walletWrite (t.unspentByAddress.putNew (output.address, output.heightAmounGi) ())
  return { t with unspent, unspentByAddress }

/-- `remove_from_unspent_index`. -/
def removeFromUnspentIndex (output : Api.Output) (t : WalletTables) :
    Except WalletFault WalletTables := do
  let t ← t.modifyBalance output 0 (-1)
  let unspent ← walletWrite (t.unspent.removeExisting output.heightAmounGi)
  let unspentByAddress ←
    walletWrite (t.unspentByAddress.removeExisting (output.address, output.heightAmounGi))
  return { t with unspent, unspentByAddress }

/-! ### Locked outputs -/

/-- An unlock time cut to 32 bits. -/
def clampUnlockTime (unlockTime : UnlockMoment) : UInt32 :=
  (min unlockTime 0xFFFFFFFF).toUInt32

/-- The key of an output in its lock index. -/
def lockKey (output : Api.Output) : UInt32 × Amount × UInt32 :=
  (clampUnlockTime output.unlockTime, output.amount, output.globalIndex)

/-- `is_transaction_spend_time_block`. -/
def isTransactionSpendTimeBlock (unlockTime : UnlockMoment) : Bool :=
  unlockTime < c.maxBlockHeight.toUInt64

/-- The lock index for an unlock time, by height or by timestamp. -/
def lockIndex (unlockTime : UnlockMoment) (t : WalletTables) :
    LoggedTable (UInt32 × Amount × UInt32) Api.Output :=
  if isTransactionSpendTimeBlock c unlockTime then t.lockedByHeight else t.lockedByTimestamp

/-- That lock index replaced. -/
def withLockIndex (unlockTime : UnlockMoment)
    (index : LoggedTable (UInt32 × Amount × UInt32) Api.Output) (t : WalletTables) : WalletTables :=
  if isTransactionSpendTimeBlock c unlockTime then { t with lockedByHeight := index }
  else { t with lockedByTimestamp := index }

/-- `add_to_lock_index`. -/
def addToLockIndex (output : Api.Output) (t : WalletTables) :
    Except WalletFault WalletTables := do
  let t ← t.modifyBalance output 1 0
  let index ← walletWrite ((t.lockIndex c output.unlockTime).putNew (lockKey output) output)
  let t := t.withLockIndex c output.unlockTime index
  if output.keyImage ≠ 0 then
    let lockedByKeyImage ← walletWrite (t.lockedByKeyImage.putNew
      (output.keyImage, output.amount, output.globalIndex) output.unlockTime)
    return { t with lockedByKeyImage }
  else return t

/-- `remove_from_lock_index`. -/
def removeFromLockIndex (output : Api.Output) (t : WalletTables) :
    Except WalletFault WalletTables := do
  let t ← t.modifyBalance output (-1) 0
  let index ← walletWrite ((t.lockIndex c output.unlockTime).removeExisting (lockKey output))
  let t := t.withLockIndex c output.unlockTime index
  if output.keyImage ≠ 0 then
    let lockedByKeyImage ← walletWrite (t.lockedByKeyImage.removeExisting
      (output.keyImage, output.amount, output.globalIndex))
    return { t with lockedByKeyImage }
  else return t

/-! ### Receiving, unlocking and spending -/

/-- `add_incoming_output`: the amount added, which is lower where another output with the same key
image is replaced. -/
def addIncomingOutput (output : Api.Output) (justUnlocked : Bool) (t : WalletTables) :
    Except WalletFault (Amount × WalletTables) :=
  let heamgi := t.readByKeyimage output.keyImage
  let existing := heamgi.bind t.readFromUnspentIndex
  if heamgi ≠ none ∧ existing = none then .ok (0, t)
  else if output.unlockTime ≠ 0 ∧ justUnlocked = false then do
    let t ← t.addToLockIndex c output
    return (output.amount, t)
  else
    match heamgi, existing with
    | some (_, amount, _), some existingOutput =>
      if output.amount ≤ amount ∨ output.address ≠ existingOutput.address then .ok (0, t)
      else do
        let t ← t.removeFromUnspentIndex existingOutput
        let t ← t.addToUnspentIndex output
        let t ← t.updateKeyimage output.keyImage output.heightAmounGi false
        return (output.amount - amount, t)
    | _, _ => do
      let t ← t.addToUnspentIndex output
      let t ← t.updateKeyimage output.keyImage output.heightAmounGi true
      return (output.amount, t)

/-- `unlock` of one output. -/
def unlockOutput (nowHeight : Height) (output : Api.Output) (t : WalletTables) :
    Except WalletFault WalletTables := do
  let t ← t.removeFromLockIndex c output
  let (adjustedAmount, t) ← t.addIncomingOutput c output true
  let unlocked ← walletWrite (t.unlocked.putNew (nowHeight, output.amount, output.globalIndex)
    { output with amount := adjustedAmount })
  return { t with unlocked }

/-- The locked outputs with a key image, read through the two lock indexes. -/
def lockedWithKeyimage (keyImage : KeyImage) (t : WalletTables) :
    Except WalletFault (List Api.Output) :=
  (t.lockedByKeyImage.table.toList.filter fun e ↦ e.1.1 = keyImage).mapM
    fun ((_, amount, globalIndex), unlockTime) ↦
      throwing (expect
        ((t.lockIndex c unlockTime).table.get (clampUnlockTime unlockTime, amount, globalIndex)) "")

/-- `add_incoming_keyimage`: the amount spent. -/
def addIncomingKeyimage (blockHeight : Height) (keyImage : KeyImage) (t : WalletTables) :
    Except WalletFault (Amount × WalletTables) := do
  let foundInLocked ← t.lockedWithKeyimage c keyImage
  let t ← foundInLocked.foldlM (fun t lo ↦ t.unlockOutput c blockHeight lo) t
  match (t.readByKeyimage keyImage).bind t.readFromUnspentIndex with
  | some existingOutput =>
    let t ← t.removeFromUnspentIndex existingOutput
    return (existingOutput.amount, t)
  | none => return (0, t)

/-- `read_unlock_index`: the outputs of an address, or all, under the keys behind `begin` up to
`last`; the value -1 of `begin` stands before all keys. -/
def readUnlockIndex (index : Store (UInt32 × Amount × UInt32) Api.Output) (address : String)
    (begin last : UInt32) (add : Store (Amount × UInt32) Api.Output) :
    Except WalletFault (Store (Amount × UInt32) Api.Output) :=
  if begin ≠ 0xFFFFFFFF ∧ last ≤ begin then .ok add
  else
    (index.toList.filter fun e ↦ begin + 1 ≤ e.1.1 ∧ e.1.1 ≤ last).foldlM
      (fun add ((_, amount, globalIndex), output) ↦ do
        throwing (invariant (output.globalIndex = globalIndex) "Index corrupted")
        if address = "" ∨ output.address = address then
          match add.get (amount, output.globalIndex) with
          | none => return add.put (amount, output.globalIndex) output
          | some _ => throwing (.error
              (.invariant "Invariant dead read_unlock_index adding output twice"))
        else return add) add

/-- `unlock` at the end of a block. -/
def unlock (nowHeight : Height) (now : Timestamp) (t : WalletTables) :
    Except WalletFault WalletTables := do
  let toUnlock ← readUnlockIndex t.lockedByHeight.table "" 0xFFFFFFFF nowHeight ∅
  let toUnlock ← readUnlockIndex t.lockedByTimestamp.table "" 0xFFFFFFFF now toUnlock
  toUnlock.toList.foldlM (fun t unl ↦ t.unlockOutput c nowHeight unl.2) t

/-! ### Transactions -/

/-- `add_transaction`: the transaction and an entry for each address it touches. -/
def addTransaction (height : Height) (tid : Hash) (tx : TransactionPrefix)
    (ptx : Api.Transaction) (t : WalletTables) : Except WalletFault WalletTables := do
  let transactions ← walletWrite (t.transactions.putNew tid (tx, ptx))
  let addresses : Store String Unit :=
    ptx.transfers.foldl (fun addresses transfer ↦ addresses.put transfer.address ())
      ((∅ : Store String Unit).put "" ())
  let history ← addresses.toList.foldlM
    (fun history addr ↦ walletWrite (history.putNew (addr.1, height, tid) ())) t.history
  return { t with transactions, history }

/-- `try_add_incoming_output`: the change of the balance, where the output would be taken. -/
def tryAddIncomingOutput (output : Api.Output) (t : WalletTables) : Option Amount :=
  let heamgi := t.readByKeyimage output.keyImage
  let existing := heamgi.bind t.readFromUnspentIndex
  if heamgi ≠ none ∧ existing = none then none
  else if output.unlockTime ≠ 0 then some output.amount
  else
    match heamgi, existing with
    | some (_, amount, _), some existingOutput =>
      if output.amount ≤ amount ∨ output.address ≠ existingOutput.address then none
      else some (output.amount - amount)
    | _, _ => some output.amount

/-- A locked output found by its key image, with the checks of the source. -/
def readLocked (t : WalletTables) (unlockTime : UnlockMoment) (amount : Amount)
    (globalIndex : UInt32) : Except WalletFault Api.Output := throwing do
  let output ← expect
    ((t.lockIndex c unlockTime).table.get (clampUnlockTime unlockTime, amount, globalIndex)) ""
  invariant (output.amount = amount ∧ output.globalIndex = globalIndex) ""
  return output

/-- `try_adding_incoming_keyimage`: the output that the key image would spend. -/
def tryAddingIncomingKeyimage (keyImage : KeyImage) (t : WalletTables) :
    Except WalletFault (Option Api.Output) :=
  (t.lockedByKeyImage.table.toList.filter fun e ↦ e.1.1 = keyImage).foldlM
    (fun spending ((_, amount, globalIndex), unlockTime) ↦
      match spending with
      | some spendingOutput =>
        if amount ≤ spendingOutput.amount then .ok spending
        else do
          let output ← t.readLocked c unlockTime amount globalIndex
          return if output.address ≠ spendingOutput.address then spending else some output
      | none => do
        let output ← t.readLocked c unlockTime amount globalIndex
        return some output)
    ((t.readByKeyimage keyImage).bind t.readFromUnspentIndex)

end WalletTables

end Naza
