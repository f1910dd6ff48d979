import Naza.Lib.Check
import Naza.DeltaState

/-!
# Transactions

Semantic validation of a transaction, its application to a stack of deltas, the ring checks of a
whole block against the parent state, and the application and removal of a block on the database.
-/

open Lib

namespace Naza

variable (cr : Crypto) (c : Currency)

/-! ## Semantic validation -/

/-- The output loop of `validate_semantic`: the sum of the amounts. -/
def validateOutputs (checkOutputKey : Bool) : List TransactionOutput → Amount →
    Except String Amount
  | [], sum => .ok sum
  | output :: outputs, sum =>
    if output.amount = 0 then .error "OUTPUT_ZERO_AMOUNT"
    else if checkOutputKey && !cr.keyIsvalid output.key then .error "OUTPUT_INVALID_KEY"
    else if 0xFFFFFFFFFFFFFFFF - output.amount < sum then .error "OUTPUTS_AMOUNT_OVERFLOW"
    else validateOutputs checkOutputKey outputs (sum + output.amount)

/-- What the input loop of `validate_semantic` asks of one input; `ki` are the key images seen. -/
def inputError (generating : Bool) (ki : List KeyImage) : TransactionInput → Option String
  | .coinbaseInput _ => if generating then none else some "INPUT_UNKNOWN_TYPE"
  | .keyInput input =>
    if generating then some "INPUT_UNKNOWN_TYPE"
    else if input.keyImage ∈ ki then some "INPUT_IDENTICAL_KEYIMAGES"
    else if input.outputIndexes = [] then some "INPUT_EMPTY_OUTPUT_USAGE"
    else if 0 ∈ input.outputIndexes.tail then some "INPUT_IDENTICAL_OUTPUT_INDEXES"
    else none

def TransactionInput.amount : TransactionInput → Amount
  | .coinbaseInput _ => 0
  | .keyInput input => input.amount

def TransactionInput.keyImages : TransactionInput → List KeyImage
  | .coinbaseInput _ => []
  | .keyInput input => [input.keyImage]

/-- The input loop of `validate_semantic`: the sum of the amounts. -/
def validateInputs (generating : Bool) : List TransactionInput → List KeyImage → Amount →
    Except String Amount
  | [], _, sum => .ok sum
  | input :: inputs, ki, sum =>
    match inputError generating ki input with
    | some error => .error error
    | none =>
      if 0xFFFFFFFFFFFFFFFF - input.amount < sum then .error "INPUTS_AMOUNT_OVERFLOW"
      else validateInputs generating inputs (input.keyImages ++ ki) (sum + input.amount)

/-- `validate_semantic`: the fee, or the text of the error. -/
def validateSemantic (generating : Bool) (tx : Transaction) (checkOutputKey : Bool) :
    Except String Amount :=
  if tx.inputs = [] then .error "EMPTY_INPUTS"
  else
    match validateOutputs cr checkOutputKey tx.outputs 0 with
    | .error error => .error error
    | .ok summaryOutputAmount =>
      match validateInputs generating tx.inputs [] 0 with
      | .error error => .error error
      | .ok summaryInputAmount =>
        if summaryInputAmount < summaryOutputAmount ∧ generating = false then
          .error "WRONG_AMOUNT"
        else if tx.signatures.length ≠ tx.inputs.length ∧ generating = false then
          .error "INPUT_UNKNOWN_TYPE"
        else if tx.signatures ≠ [] ∧ generating = true then .error "INPUT_UNKNOWN_TYPE"
        else .ok (summaryInputAmount - summaryOutputAmount)

/-! ## Rings -/

/-- The absolute output indices of an input: sums of its relative ones, 32 bits wide. -/
def globalIndexes : List UInt32 → List UInt32
  | [] => []
  | index :: relative => relative.scanl (· + ·) index

/-- What one ring asks of the state below a block: the keys, or the reason why not. -/
inductive RingError where
  | keyimageAlreadySpent (height : Height)
  | emptyRing
  | invalidGlobalIndex
  | spendLockedOut
  deriving DecidableEq

def RingError.text : RingError → String
  | .keyimageAlreadySpent _ => "INPUT_KEYIMAGE_ALREADY_SPENT"
  | .emptyRing => "INPUT_UNKNOWN_TYPE"
  | .invalidGlobalIndex => "INPUT_INVALID_GLOBAL_INDEX"
  | .spendLockedOut => "INPUT_SPEND_LOCKED_OUT"

/-- The member loop of both ring checks: the referenced outputs, or the reason why not together
with the outputs read before, the offending one included. -/
def readRing (reads : StateReads) (unlockHeight : Height) (unlockTimestamp : Timestamp)
    (amount : Amount) : List UInt32 →
    Except (RingError × List UnlockTimePublickKeyHeightSpent)
      (List UnlockTimePublickKeyHeightSpent)
  | [] => .ok []
  | index :: indexes =>
    match reads.readAmountOutput amount index with
    | none => .error (.invalidGlobalIndex, [])
    | some unp =>
      if c.isTransactionSpendTimeUnlocked unp.unlockTime unlockHeight unlockTimestamp then
        match readRing reads unlockHeight unlockTimestamp amount indexes with
        | .ok unps => .ok (unp :: unps)
        | .error (error, unps) => .error (error, unp :: unps)
      else .error (.spendLockedOut, [unp])

/-- The work item that a key input gives to the ring checker threads. -/
structure RingSignatureArg where
  txPrefixHash : Hash
  keyImage : KeyImage
  outputKeys : List PublicKey
  signatures : List Signature
  deriving DecidableEq

/-- `check_ring_signature` on a work item. -/
def RingSignatureArg.check (arg : RingSignatureArg) : RingCheck :=
  cr.checkRingSignature arg.txPrefixHash arg.keyImage arg.outputKeys arg.signatures

/-- One key input in `start_work_get_error`. -/
def startInput (reads : StateReads) (unlockHeight : Height) (unlockTimestamp : Timestamp)
    (txPrefixHash : Hash) (input : KeyInput) (signatures : List Signature) :
    Except String RingSignatureArg :=
  if (reads.readKeyimage input.keyImage).isSome then .error "INPUT_KEYIMAGE_ALREADY_SPENT"
  else if input.outputIndexes = [] then .error "INPUT_UNKNOWN_TYPE"
  else
    match readRing c reads unlockHeight unlockTimestamp input.amount
      (globalIndexes input.outputIndexes) with
    | .error (error, _) => .error error.text
    | .ok unps =>
      .ok { txPrefixHash, keyImage := input.keyImage
            outputKeys := unps.map UnlockTimePublickKeyHeightSpent.publicKey, signatures }

/-- The inputs of one transaction in `start_work_get_error`; signatures stand at input positions. -/
def startInputs (reads : StateReads) (unlockHeight : Height) (unlockTimestamp : Timestamp)
    (txPrefixHash : Hash) : List TransactionInput → List (List Signature) →
    Except String (List RingSignatureArg)
  | [], _ => .ok []
  | .coinbaseInput _ :: inputs, signatures =>
    startInputs reads unlockHeight unlockTimestamp txPrefixHash inputs signatures.tail
  | .keyInput input :: inputs, signatures => do
    let arg ← startInput c reads unlockHeight unlockTimestamp txPrefixHash input
      (signatures.headD [])
    let args ← startInputs reads unlockHeight unlockTimestamp txPrefixHash inputs signatures.tail
    return arg :: args

/-- `start_work_get_error`: the work of all rings of a block, read from the state below it. -/
def startWorkGetError (reads : StateReads) (unlockHeight : Height) (unlockTimestamp : Timestamp) :
    List Transaction → Except String (List RingSignatureArg)
  | [] => .ok []
  | tx :: txs => do
    let args ← startInputs c reads unlockHeight unlockTimestamp
      (getTransactionPrefixHash cr tx.toTransactionPrefix) tx.inputs tx.signatures
    let rest ← startWorkGetError reads unlockHeight unlockTimestamp txs
    return args ++ rest

/-- `signatures_valid`: every thread reported success. -/
def signaturesValid (args : List RingSignatureArg) : Bool :=
  args.all fun arg ↦ arg.check cr = .valid

/-! ## Redoing a transaction -/

/-- The text of an error together with the conflict height reported with it. -/
structure RedoError where
  text : String
  conflictHeight : Height
  deriving DecidableEq

/-- The highest output read so far. -/
def conflictHeightOf (start : Height) (unps : List UnlockTimePublickKeyHeightSpent) : Height :=
  unps.foldl (fun height unp ↦ max height unp.height) start

/-- The checks of one key input in `redo_transaction_get_error`, with `check_sigs` set: the new
conflict height. -/
def checkInput (reads : StateReads) (blockHeight : Height) (unlockTimestamp : Timestamp)
    (txPrefixHash : Hash) (input : KeyInput) (signatures : List Signature)
    (conflictHeight : Height) : Except RedoError Height :=
  match reads.readKeyimage input.keyImage with
  | some height => .error ⟨(RingError.keyimageAlreadySpent height).text, height⟩
  | none =>
    if input.outputIndexes = [] then .error ⟨RingError.emptyRing.text, conflictHeight⟩
    else
      match readRing c reads blockHeight unlockTimestamp input.amount
        (globalIndexes input.outputIndexes) with
      | .error (.invalidGlobalIndex, _) =>
        .error ⟨RingError.invalidGlobalIndex.text, c.maxBlockHeight⟩
      | .error (error, unps) => .error ⟨error.text, conflictHeightOf conflictHeight unps⟩
      | .ok unps =>
        let conflictHeight := conflictHeightOf conflictHeight unps
        match cr.checkRingSignature txPrefixHash input.keyImage
          (unps.map UnlockTimePublickKeyHeightSpent.publicKey) signatures with
        | .valid => .ok conflictHeight
        | .corrupted => .error ⟨"INPUT_CORRUPTED_SIGNATURES", conflictHeight⟩
        | .invalid => .error ⟨"INPUT_INVALID_SIGNATURES", conflictHeight⟩

/-- The member of a ring of one is marked as spent. -/
def DeltaState.spendRing (input : KeyInput) (txDelta : DeltaState) : DeltaState :=
  match input.outputIndexes with
  | [index] => txDelta.spendOutput input.amount index
  | _ => txDelta

/-- The input loop of `redo_transaction_get_error` on the transaction's own delta. -/
def redoInputs (parent : StateReads) (checkSigs : Bool) (txPrefixHash : Hash) :
    List TransactionInput → List (List Signature) → DeltaState → Height →
    Check Fault RedoError (DeltaState × Height)
  | [], _, txDelta, conflictHeight => .accept (txDelta, conflictHeight)
  | .coinbaseInput _ :: inputs, signatures, txDelta, conflictHeight =>
    redoInputs parent checkSigs txPrefixHash inputs signatures.tail txDelta conflictHeight
  | .keyInput input :: inputs, signatures, txDelta, conflictHeight => do
    let conflictHeight ← (if checkSigs then
        .ofExcept (checkInput cr c (txDelta.reads parent) txDelta.blockHeight
          txDelta.unlockTimestamp txPrefixHash input (signatures.headD []) conflictHeight)
      else .accept conflictHeight)
    let txDelta := txDelta.spendRing input
    let txDelta ← .lift (txDelta.storeKeyimage input.keyImage txDelta.blockHeight)
    redoInputs parent checkSigs txPrefixHash inputs signatures.tail txDelta conflictHeight

/-- The output loop of `redo_transaction_get_error`: the delta and the global index of each
output. -/
def redoOutputs (parent : StateReads) (unlockTime : UnlockMoment) :
    List TransactionOutput → DeltaState → DeltaState × List UInt32
  | [], txDelta => (txDelta, [])
  | output :: outputs, txDelta =>
    let txDelta := txDelta.pushAmountOutput output.amount unlockTime output.key
    let globalIndex := (txDelta.reads parent).nextGlobalIndexForAmount output.amount - 1
    let (txDelta, indices) := redoOutputs parent unlockTime outputs txDelta
    (txDelta, globalIndex :: indices)

/-- `redo_transaction_get_error`: the delta with the transaction applied, the global indices of its
outputs and the conflict height.  `parent` are the reads of the state under `delta`. -/
def redoTransactionGetError (tx : Transaction) (parent : StateReads) (delta : DeltaState)
    (checkSigs : Bool) : Check Fault RedoError (DeltaState × List UInt32 × Height) := do
  let txPrefixHash := if checkSigs then getTransactionPrefixHash cr tx.toTransactionPrefix else 0
  let reads := delta.reads parent
  let txDelta : DeltaState :=
    { blockHeight := delta.blockHeight, unlockTimestamp := delta.unlockTimestamp }
  let (txDelta, conflictHeight) ←
    redoInputs cr c reads checkSigs txPrefixHash tx.inputs tx.signatures txDelta 0
  let (txDelta, myIndices) := redoOutputs reads tx.unlockTime tx.outputs txDelta
  let delta ← .lift (txDelta.apply DeltaState.writes delta)
  return (delta, myIndices, conflictHeight)

/-! ## Redoing and undoing a block -/

/-- The transactions of a block applied to its delta one after the other. -/
def redoTransactions (parent : StateReads) : List Transaction → DeltaState →
    Check Fault RedoError (DeltaState × BlockGlobalIndices)
  | [], delta => .accept (delta, [])
  | tx :: txs, delta => do
    let (delta, indices, _) ← redoTransactionGetError cr c tx parent delta false
    let (delta, globalIndices) ← redoTransactions parent txs delta
    return (delta, indices :: globalIndices)

namespace State

/-- Whether the signatures of a block that is being redone are checked: the zone test is made for
the height after it. -/
def checkSigs (height : Height) : Bool := !c.isInSwCheckpointZone (height + 1)

/-- The work items of a block when its signatures are checked. -/
def ringWork (s : State) (block : Block) (info : Api.BlockHeader) :
    Except String (List RingSignatureArg) :=
  if checkSigs c info.height then
    startWorkGetError cr c s.reads info.height info.timestamp block.transactions
  else .ok []

/-- `BlockChainState::redo_block`: the new state, or `none` where it returns false, which leaves the
state alone. -/
def redoBlock (bhash : Hash) (block : Block) (info : Api.BlockHeader) (s : State) :
    Except Fault (Option State) :=
  match s.ringWork cr c block info with
  | .error _ => .ok none
  | .ok args =>
    match redoTransactions cr c s.reads (block.header.baseTransaction :: block.transactions)
      { blockHeight := info.height, unlockTimestamp := info.timestamp } with
    | .fault f => .error f
    | .reject _ => .ok none
    | .accept (delta, globalIndices) =>
      if signaturesValid cr args then do
        let s ← delta.apply writes s
        let table ← dbWrite (s.db.globalIndices.putNew bhash globalIndices)
        return some { s with txPoolVersion := 2, db := { s.db with globalIndices := table } }
      else .ok none

/-- The inputs of a transaction undone in reverse order. -/
def undoInputs (inputs : List TransactionInput) (s : State) : Except Fault State :=
  inputs.reverse.foldlM (fun s input ↦
    match input with
    | .coinbaseInput _ => .ok s
    | .keyInput input => do
      let s ← s.deleteKeyimage input.keyImage
      match input.outputIndexes with
      | [index] => return s.setSpent input.amount index false
      | _ => return s) s

/-- The outputs of a transaction popped in reverse order. -/
def undoOutputs (unlockTime : UnlockMoment) (outputs : List TransactionOutput) (s : State) :
    Except Fault State :=
  outputs.reverse.foldlM (fun s output ↦ s.popAmountOutput output.amount unlockTime output.key) s

/-- `undo_transaction`. -/
def undoTransaction (tx : Transaction) (s : State) : Except Fault State := do
  let s ← s.undoOutputs tx.unlockTime tx.outputs
  s.undoInputs tx.inputs

/-- `BlockChainState::undo_block`: the transactions in reverse order, the coinbase last. -/
def undoBlock (bhash : Hash) (block : Block) (s : State) : Except Fault State := do
  let s ← block.transactions.reverse.foldlM (fun s tx ↦ s.undoTransaction tx) s
  let s ← s.undoTransaction block.header.baseTransaction
  let table ← dbWrite (s.db.globalIndices.removeExisting bhash)
  return { s with db := { s.db with globalIndices := table } }

/-- `get_largest_referenced_height`. -/
def largestIndices (inputs : List KeyInput) : Option (Store Amount UInt32) :=
  inputs.foldlM (fun largest input ↦
    match input.outputIndexes with
    | [] => none
    | indexes =>
      let largestIndex := indexes.foldl (· + ·) 0
      let lit := (largest.get input.amount).getD 0
      some (largest.put input.amount (max lit largestIndex))) ∅

def getLargestReferencedHeight (s : State) (tx : TransactionPrefix) : Option Height := do
  let largest ← largestIndices tx.keyInputs
  largest.toList.foldlM (fun maxHeight (amount, index) ↦ do
    let unp ← s.db.outputs.get (amount, index)
    return max maxHeight unp.height) 0

end State

end Naza
