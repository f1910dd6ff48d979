import Naza.Wallet.State
import Naza.TransactionExtra

/-!
# Processing a block

`WalletState::redo_block`: what a transaction of a block means for the keys of the wallet, and the
writes that follow from it.  The curve operations are parameters.  Of the wallet file only the keys
are read here.
-/

open Lib

namespace Naza

abbrev SecretKey := Pod32
abbrev KeyDerivation := Pod32

/-- The view key and the spend key, in the order in which addresses are compared. -/
abbrev AccountPublicAddress := PublicKey × PublicKey

instance instTransOrdAccountPublicAddress : Std.TransOrd AccountPublicAddress := inferInstance

/-- The curve operations of the wallet. -/
structure WalletCrypto where
  generateKeyDerivation : PublicKey → SecretKey → Option KeyDerivation
  derivePublicKey : KeyDerivation → ℕ → PublicKey → Option PublicKey
  underivePublicKey : KeyDerivation → ℕ → PublicKey → PublicKey
  deriveSecretKey : KeyDerivation → ℕ → SecretKey → SecretKey
  generateKeyImage : PublicKey → SecretKey → KeyImage
  /-- the secret key of `deterministic_keys_from_seed`, from the inputs and the seed -/
  deterministicSecretKey : List TransactionInput → Hash → SecretKey
  /-- `account_address_as_string` -/
  accountAddressAsString : AccountPublicAddress → String

structure WalletRecord where
  spendPublicKey : PublicKey := 0
  spendSecretKey : SecretKey := 0
  creationTimestamp : Timestamp := 0
  deriving DecidableEq, Inhabited

/-- The keys of a wallet, and the addresses that it recorded as paid by its own transactions. -/
structure WalletKeys where
  records : Store PublicKey WalletRecord := ∅
  viewPublicKey : PublicKey := 0
  viewSecretKey : SecretKey := 0
  txDerivationSeed : Hash := 0
  loadHistory : Hash → List AccountPublicAddress := fun _ ↦ []

structure PreparedWalletTransaction where
  tx : TransactionPrefix := {}
  derivation : KeyDerivation := 0
  spendKeys : List PublicKey := []
  deriving Inhabited

structure PreparedWalletBlock where
  header : BlockTemplate := {}
  baseTransaction : PreparedWalletTransaction := {}
  baseTransactionHash : Hash := 0
  transactions : List PreparedWalletTransaction := []
  deriving Inhabited

/-- `get_transaction_public_key_from_extra`. -/
def getTransactionPublicKeyFromExtra (extra : BinaryArray) : PublicKey :=
  ((TransactionExtra.parse extra).1.findSome? fun
    | .publicKey key => some key
    | _ => none).getD 0

/-- `TX_EXTRA_NONCE_PAYMENT_ID`. -/
def txExtraNoncePaymentId : UInt8 := 0x00

/-- `get_payment_id_from_tx_extra`, of the first nonce. -/
def getPaymentIdFromTxExtra (extra : BinaryArray) : Option Hash :=
  match (TransactionExtra.parse extra).1.findSome? fun
    | .nonce nonce => some nonce
    | _ => none with
  | some (tag :: paymentId) =>
    if paymentId.length = 32 ∧ tag = txExtraNoncePaymentId then some (Seria.podOfBytes paymentId)
    else none
  | _ => none

variable (wc : WalletCrypto) (c : Currency) (w : WalletKeys)

/-- The constructor of a prepared transaction. -/
def PreparedWalletTransaction.make (tx : TransactionPrefix) (viewSecretKey : SecretKey) :
    PreparedWalletTransaction :=
  match wc.generateKeyDerivation (getTransactionPublicKeyFromExtra tx.extra) viewSecretKey with
  | none => { tx }
  | some derivation =>
    { tx, derivation
      spendKeys := tx.outputs.mapIdx fun keyIndex output ↦
        wc.underivePublicKey derivation keyIndex output.key }

namespace WalletState

/-! ## Reading a transaction -/

abbrev TransferMap := Store AccountPublicAddress Api.Transfer

/-- An output put to the transfer of its address. -/
def TransferMap.addOutput (transfers : TransferMap) (address : AccountPublicAddress)
    (delta : Option Amount) (out : Api.Output) : TransferMap :=
  let transfer := (transfers.get address).getD {}
  let transfer := { transfer with address := wc.accountAddressAsString address }
  transfers.put address (match delta with
    | none => transfer
    | some delta => { transfer with
        amount := transfer.amount + delta.toInt64, outputs := transfer.outputs ++ [out] })

/-- What the loop over the outputs collects. -/
structure ParsedOutputs where
  ours : TransferMap := ∅
  theirs : TransferMap := ∅
  fee : SignedAmount := 0
  outputAmount : Amount := 0
  ourTransaction : Bool := false

/-- An output as the wallet records it. -/
def recordedOutput (tx : TransactionPrefix) (output : TransactionOutput) (outIndex : ℕ)
    (globalIndex : UInt32) (blockHeight : Height) : Api.Output where
  amount := output.amount
  globalIndex
  dust := isDust output.amount
  height := blockHeight
  indexInTransaction := UInt32.ofNat outIndex
  publicKey := output.key
  transactionPublicKey := getTransactionPublicKeyFromExtra tx.extra
  unlockTime := tx.unlockTime

/-- An output that pays to a key of the wallet. -/
def parseOurOutput (t : WalletTables) (rec : WalletRecord) (ephemeral : PublicKey)
    (derivation : KeyDerivation) (spendKey : PublicKey) (out : Api.Output) (outIndex : ℕ)
    (parsed : ParsedOutputs) : ParsedOutputs :=
  let address : AccountPublicAddress := (w.viewPublicKey, spendKey)
  let keyImage :=
    if rec.spendSecretKey ≠ 0 then
      wc.generateKeyImage ephemeral (wc.deriveSecretKey derivation outIndex rec.spendSecretKey)
    else 0
  let out := { out with keyImage, address := wc.accountAddressAsString address }
  { parsed with
    ours := TransferMap.addOutput wc parsed.ours address (t.tryAddIncomingOutput out) out
    ourTransaction := true }

/-- An output of a transaction made by the wallet itself, guessed from its recorded addresses. -/
def parseTheirOutput (tx : TransactionPrefix) (history : List AccountPublicAddress)
    (key : PublicKey) (out : Api.Output) (outIndex : ℕ) (parsed : ParsedOutputs) : ParsedOutputs :=
  let txSecretKey := wc.deterministicSecretKey tx.inputs w.txDerivationSeed
  history.foldl (fun parsed addr ↦
    let guess := ((wc.generateKeyDerivation addr.1 txSecretKey).bind fun derivation ↦
      wc.derivePublicKey derivation outIndex addr.2).getD 0
    if guess = key then
      let out := { out with address := wc.accountAddressAsString addr }
      { parsed with theirs := TransferMap.addOutput wc parsed.theirs addr (some out.amount) out }
    else parsed) parsed

/-- One round of the loop over the outputs. -/
def parseOutput (t : WalletTables) (pwtx : PreparedWalletTransaction)
    (history : List AccountPublicAddress) (globalIndices : List UInt32) (blockHeight : Height)
    (parsed : ParsedOutputs) (outIndex : ℕ) (output : TransactionOutput) :
    Except WalletFault ParsedOutputs := do
  let parsed := { parsed with
    outputAmount := parsed.outputAmount + output.amount
    fee := parsed.fee - output.amount.toInt64 }
  let spendKey ← throwing (match pwtx.spendKeys[outIndex]? with
    | some key => .ok key
    | none => .error .outOfRange)
  let globalIndex ← throwing (match globalIndices[outIndex]? with
    | some index => .ok index
    | none => .error .outOfRange)
  let out := recordedOutput pwtx.tx output outIndex globalIndex blockHeight
  let ours := (if spendKey = 0 then none else w.records.get spendKey).bind fun rec ↦
    (wc.derivePublicKey pwtx.derivation outIndex spendKey).map fun ephemeral ↦ (rec, ephemeral)
  return match ours with
    | some (rec, ephemeral) =>
      parseOurOutput wc w t rec ephemeral pwtx.derivation spendKey out outIndex parsed
    | none => parseTheirOutput wc w pwtx.tx history output.key out outIndex parsed

/-- The transfers to addresses of others and to the wallet's own, where they move an amount. -/
def ParsedOutputs.transfers (parsed : ParsedOutputs) (unlockTime : UnlockMoment) :
    List Api.Transfer :=
  let collect (ours : Bool) (transfers : TransferMap) : List Api.Transfer :=
    (transfers.toList.map fun e ↦ { e.2 with locked := decide (unlockTime ≠ 0), ours }).filter
      fun transfer ↦ transfer.amount ≠ 0
  collect false parsed.theirs ++ collect true parsed.ours

/-- What the loop over the inputs collects. -/
structure ParsedInputs where
  transfers : Store String Api.Transfer := ∅
  fee : SignedAmount := 0
  anonymity : UInt32 := 0xFFFFFFFF
  inputAmount : Amount := 0
  unrecognizedAmount : Amount := 0
  ourTransaction : Bool := false

/-- One round of the loop over the inputs. -/
def parseInput (t : WalletTables) (parsed : ParsedInputs) (input : KeyInput) :
    Except WalletFault ParsedInputs := do
  let parsed := { parsed with
    inputAmount := parsed.inputAmount + input.amount
    fee := parsed.fee + input.amount.toInt64
    anonymity := min parsed.anonymity (UInt32.ofNat input.outputIndexes.length - 1) }
  match ← t.tryAddingIncomingKeyimage c input.keyImage with
  | some existingOutput =>
    let transfer := (parsed.transfers.get existingOutput.address).getD {}
    return { parsed with
      transfers := parsed.transfers.put existingOutput.address { transfer with
        amount := transfer.amount - existingOutput.amount.toInt64
        ours := true
        outputs := transfer.outputs ++ [existingOutput] }
      ourTransaction := true }
  | none => return { parsed with unrecognizedAmount := parsed.unrecognizedAmount + input.amount }

/-- A transaction read with the keys of the wallet. -/
structure ParsedTransaction where
  ptx : Api.Transaction
  inputTransfers : List Api.Transfer
  unrecognizedInputsAmount : Amount

/-- `parse_raw_transaction`: `none` where it is not a transaction of the wallet. -/
def parseRawTransaction (t : WalletTables) (pwtx : PreparedWalletTransaction) (tid : Hash)
    (globalIndices : List UInt32) (blockHeight : Height) :
    Except WalletFault (Option ParsedTransaction) :=
  if globalIndices.length ≠ pwtx.tx.outputs.length ∨ pwtx.derivation = 0 then .ok none
  else do
    let tx := pwtx.tx
    let history := w.loadHistory tid
    let outputs ← tx.outputs.zipIdx.foldlM (fun parsed (output, outIndex) ↦
      parseOutput wc w t pwtx history globalIndices blockHeight parsed outIndex output) {}
    let inputs ← tx.keyInputs.foldlM (parseInput c t) {
      fee := outputs.fee, ourTransaction := outputs.ourTransaction }
    let inputTransfers := inputs.transfers.toList.map fun e ↦ { e.2 with address := e.1 }
    let ptx : Api.Transaction := {
      hash := tid
      blockHeight
      unlockTime := tx.unlockTime
      publicKey := getTransactionPublicKeyFromExtra tx.extra
      extra := tx.extra
      paymentId := (getPaymentIdFromTxExtra tx.extra).getD 0
      fee := inputs.fee
      transfers := outputs.transfers tx.unlockTime
      amount := max inputs.inputAmount outputs.outputAmount
      anonymity := if inputs.anonymity = 0xFFFFFFFF then 0 else inputs.anonymity }
    return if inputs.ourTransaction then
      some { ptx, inputTransfers, unrecognizedInputsAmount := inputs.unrecognizedAmount }
      else none

/-! ## Writing it -/

/-- The outputs of one transfer received, with the amounts added. -/
def receiveTransfer (transfer : Api.Transfer) (t : WalletTables) :
    Except WalletFault (Api.Transfer × WalletTables) := do
  let (outputs, t) ← transfer.outputs.foldlM (fun (received, t) out ↦ do
    let (adjustedAmount, t) ← t.addIncomingOutput c out false
    return (received ++ [{ out with amount := adjustedAmount }], t))
    (([] : List Api.Output), t)
  return ({ transfer with outputs }, t)

/-- `redo_transaction`: one that is not of the wallet is passed over. -/
def redoTransaction (pwtx : PreparedWalletTransaction) (globalIndices : List UInt32)
    (isBase : Bool) (tid : Hash) (blockHeight : Height) (bid : Hash) (txTimestamp : Timestamp)
    (t : WalletTables) : Except WalletFault WalletTables := do
  match ← parseRawTransaction wc c w t pwtx tid globalIndices blockHeight with
  | none => return t
  | some parsed =>
    let ptx := { parsed.ptx with
      fee := if isBase then 0 else parsed.ptx.fee
      blockHash := bid
      coinbase := isBase
      timestamp := txTimestamp }
    let (transfers, t) ← ptx.transfers.foldlM (fun (done, t) transfer ↦ do
      if transfer.ours then
        let (transfer, t) ← receiveTransfer c transfer t
        return (done ++ [transfer], t)
      else return (done ++ [transfer], t)) (([] : List Api.Transfer), t)
    let t ← (parsed.inputTransfers.flatMap Api.Transfer.outputs).foldlM (fun t out ↦ do
      let (_, t) ← t.addIncomingKeyimage c blockHeight out.keyImage
      return t) t
    t.addTransaction blockHeight tid pwtx.tx
      { ptx with transfers := transfers ++ parsed.inputTransfers }

/-- The transactions of a block behind the coinbase. -/
def redoTransactions (header : Api.BlockHeader) (blockHeight : Height) (timestamp : Timestamp) :
    List PreparedWalletTransaction → List Hash → List (List UInt32) → WalletTables →
      Except WalletFault WalletTables
  | [], _, _, t => .ok t
  | pwtx :: pwtxs, tid :: tids, indices :: rest, t => do
    let t ← redoTransaction wc c w pwtx indices false tid blockHeight header.hash timestamp t
    redoTransactions header blockHeight timestamp pwtxs tids rest t
  | _ :: _, _, _, _ => throwing (.error .outOfRange)

/-- `redo_block`, whose verdict no caller reads: a block with other counts of global indices
writes nothing. -/
def redoBlock (header : Api.BlockHeader) (pb : PreparedWalletBlock)
    (globalIndices : List (List UInt32)) (height : Height) (t : WalletTables) :
    Except WalletFault WalletTables :=
  match globalIndices with
  | [] => .ok t
  | baseIndices :: globalIndices =>
    if globalIndices.length ≠ pb.transactions.length then .ok t
    else do
      let t ← redoTransaction wc c w pb.baseTransaction baseIndices true pb.baseTransactionHash
        height header.hash pb.header.timestamp t
      let t ← redoTransactions wc c w header height pb.header.timestamp pb.transactions
        pb.header.transactionHashes globalIndices t
      t.unlock c height header.timestampMedian

end WalletState

end Naza
