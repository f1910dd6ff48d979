import Naza.TransactionExtra

/-!
# Serialization of transactions and blocks

The `ser_members` functions of `rpc_api_serialization.cpp` and `CryptoNoteTools.cpp`, in input
mode (`ser…`, an in-place reader) and in output mode (`…ToBinary`, `none` where it throws).
-/

open Lib

namespace Naza.Seria

/-! ## Transactions: input mode -/

def serCoinbaseInput : Reader CoinbaseInput :=
  Reader.field CoinbaseInput.blockIndex (fun v x ↦ { v with blockIndex := x }) serUInt32

def serKeyInput : Reader KeyInput :=
  ((Reader.field KeyInput.amount (fun v x ↦ { v with amount := x }) serUInt64).andThen
    (Reader.field KeyInput.outputIndexes (fun v x ↦ { v with outputIndexes := x })
      (serVector 4 0 serUInt32))).andThen
    (Reader.field KeyInput.keyImage (fun v x ↦ { v with keyImage := x }) serPod)

def baseTag : UInt8 := 0xff
def keyTag : UInt8 := 0x02

/-- The input is assigned only once its members have been read. -/
def serTransactionInput : Reader TransactionInput := fun v b ↦
  match b with
  | [] => (v, none)
  | tag :: b =>
    if tag = baseTag then
      match serCoinbaseInput {} b with
      | (x, some rest) => (.coinbaseInput x, some rest)
      | (_, none) => (v, none)
    else if tag = keyTag then
      match serKeyInput {} b with
      | (x, some rest) => (.keyInput x, some rest)
      | (_, none) => (v, none)
    else (v, none)

def serTransactionOutputTarget : Reader TransactionOutputTarget := fun v b ↦
  match b with
  | [] => (v, none)
  | tag :: b =>
    if tag = keyTag then
      match serPod 0 b with
      | (x, some rest) => (.keyOutput { key := x }, some rest)
      | (_, none) => (v, none)
    else (v, none)

def serTransactionOutput : Reader TransactionOutput :=
  (Reader.field TransactionOutput.amount (fun v x ↦ { v with amount := x }) serUInt64).andThen
    (Reader.field TransactionOutput.target (fun v x ↦ { v with target := x })
      serTransactionOutputTarget)

/-- `sizeof(TransactionInput)` and `sizeof(TransactionOutput)`. -/
def transactionInputSize : ℕ := 72
def transactionOutputSize : ℕ := 48

def serTransactionPrefix : Reader TransactionPrefix :=
  ((((Reader.field TransactionPrefix.version (fun v x ↦ { v with version := x }) serUInt8).andThen
    (Reader.field TransactionPrefix.unlockTime (fun v x ↦ { v with unlockTime := x })
      serUInt64)).andThen
    (Reader.field TransactionPrefix.inputs (fun v x ↦ { v with inputs := x })
      (serVector transactionInputSize default serTransactionInput))).andThen
    (Reader.field TransactionPrefix.outputs (fun v x ↦ { v with outputs := x })
      (serVector transactionOutputSize default serTransactionOutput))).andThen
    (Reader.field TransactionPrefix.extra (fun v x ↦ { v with extra := x }) serBinaryArray)

/-- From version 2 on one more integer follows, which is not kept. -/
def serBaseTransaction : Reader BaseTransaction :=
  serTransactionPrefix.andThen (Reader.dependent fun v ↦
    if 2 ≤ v.version then fun v b ↦ (v, (serUInt64 0 b).2) else Reader.done)

def isBase (inputs : List TransactionInput) : Bool :=
  match inputs with
  | [.coinbaseInput _] => true
  | _ => false

def getSignaturesCount : TransactionInput → ℕ
  | .coinbaseInput _ => 0
  | .keyInput input => input.outputIndexes.length

/-- One vector of signatures for each input; a vector is assigned only when it is complete. -/
def serSignatures : List TransactionInput → Bytes → List (List Signature) × Option Bytes
  | [], b => ([], some b)
  | input :: inputs, b =>
    match Reader.elements serSignature {} (getSignaturesCount input) b with
    | (_, none) => ([] :: List.replicate inputs.length [], none)
    | (sigs, some b) =>
      let (rest, b) := serSignatures inputs b
      (sigs :: rest, b)

def serTransaction : Reader Transaction :=
  (Reader.field Transaction.toTransactionPrefix (fun v x ↦ { v with toTransactionPrefix := x })
    serTransactionPrefix).andThen
    (Reader.dependent fun v ↦
      Reader.field Transaction.signatures (fun v x ↦ { v with signatures := x })
        (fun _ b ↦ if isBase v.inputs then ([], some b) else serSignatures v.inputs b))

/-! ## Transactions: output mode -/

def keyInputBytes (v : KeyInput) : Bytes :=
  writeVarint v.amount.toNat ++
    (vectorBytes (fun i ↦ writeVarint i.toNat) v.outputIndexes ++ podBytes v.keyImage)

def transactionInputBytes : TransactionInput → Bytes
  | .coinbaseInput v => baseTag :: writeVarint v.blockIndex.toNat
  | .keyInput v => keyTag :: keyInputBytes v

def transactionOutputTargetBytes : TransactionOutputTarget → Bytes
  | .keyOutput v => keyTag :: podBytes v.key

def transactionOutputBytes (v : TransactionOutput) : Bytes :=
  writeVarint v.amount.toNat ++ transactionOutputTargetBytes v.target

def transactionPrefixBytes (v : TransactionPrefix) : Bytes :=
  (((writeVarint v.version.toNat ++ writeVarint v.unlockTime.toNat) ++
    vectorBytes transactionInputBytes v.inputs) ++
    vectorBytes transactionOutputBytes v.outputs) ++
    binaryArrayBytes v.extra

def baseTransactionBytes (v : BaseTransaction) : Bytes :=
  transactionPrefixBytes v ++ if 2 ≤ v.version then writeVarint 0 else []

/-- The signatures are written only if their numbers fit the inputs; a coinbase and a transaction
without inputs have none written. -/
def signaturesToBinary (v : Transaction) : Option Bytes :=
  if isBase v.inputs ∨ v.inputs = [] then some []
  else if v.signatures.map List.length = v.inputs.map getSignaturesCount then
    some ((v.signatures.map fun sigs ↦ (sigs.map signatureBytes).flatten).flatten)
  else none

def transactionToBinary (v : Transaction) : Option Bytes := do
  let signatures ← signaturesToBinary v
  some (transactionPrefixBytes v.toTransactionPrefix ++ signatures)

/-! ## Blocks: input mode -/

/-- `tree_depth`: the position of the highest bit, found by halving the shift. -/
def treeDepth (count : ℕ) : ℕ :=
  ([32, 16, 8, 4, 2, 1].foldl (fun (acc : ℕ × ℕ) i ↦
    if 0 < acc.1 / 2 ^ i then (acc.1 / 2 ^ i, acc.2 + i) else acc) (count, 0)).2

def serBlockHeader : Reader BlockHeader :=
  ((Reader.field BlockHeader.majorVersion (fun v x ↦ { v with majorVersion := x })
    serUInt8).andThen
    (Reader.field BlockHeader.minorVersion (fun v x ↦ { v with minorVersion := x })
      serUInt8)).andThen
    (Reader.dependent fun v ↦
      if v.majorVersion = 1 then
        ((Reader.field BlockHeader.timestamp (fun v x ↦ { v with timestamp := x })
          serUInt32).andThen
          (Reader.field BlockHeader.previousBlockHash (fun v x ↦ { v with previousBlockHash := x })
            serPod)).andThen
          (Reader.field BlockHeader.nonce (fun v x ↦ { v with nonce := x }) serNonce)
      else if 2 ≤ v.majorVersion then
        Reader.field BlockHeader.previousBlockHash (fun v x ↦ { v with previousBlockHash := x })
          serPod
      else Reader.throw)

/-- A member of the parent block inside the template. -/
def parentField {β : Type} (get : ParentBlock → β) (set : ParentBlock → β → ParentBlock)
    (r : Reader β) : Reader BlockTemplate :=
  Reader.field (fun v ↦ get v.parentBlock)
    (fun v x ↦ { v with parentBlock := set v.parentBlock x }) r

/-- `ser_members(ParentBlockSerializer)` in input mode, without hashing: the parent block together
with the timestamp and the nonce of the template.  The transaction count is read as 64 bits and
kept as 16. -/
def serParentBlock : Reader BlockTemplate :=
  (parentField ParentBlock.majorVersion (fun p x ↦ { p with majorVersion := x })
    serUInt8).andThen <|
  (parentField ParentBlock.minorVersion (fun p x ↦ { p with minorVersion := x })
    serUInt8).andThen <|
  (Reader.field (fun v ↦ v.timestamp) (fun (v : BlockTemplate) x ↦ { v with timestamp := x })
    serUInt32).andThen <|
  (parentField ParentBlock.previousBlockHash (fun p x ↦ { p with previousBlockHash := x })
    serPod).andThen <|
  (Reader.field (fun v ↦ v.nonce) (fun (v : BlockTemplate) x ↦ { v with nonce := x })
    serNonce).andThen <|
  (parentField (fun p ↦ p.transactionCount) (fun p x ↦ { p with transactionCount := x })
    (serVarint 64 UInt16.ofNat)).andThen <|
  Reader.dependent fun v ↦
    if v.parentBlock.transactionCount < 1 then Reader.throw
    else
      (parentField ParentBlock.baseTransactionBranch
        (fun p x ↦ { p with baseTransactionBranch := x })
        (serFixedVector (treeDepth v.parentBlock.transactionCount.toNat) 0 serPod)).andThen <|
      (parentField ParentBlock.baseTransaction (fun p x ↦ { p with baseTransaction := x })
        serBaseTransaction).andThen <|
      Reader.dependent fun v ↦
        match getMergeMiningTagFromExtra v.parentBlock.baseTransaction.extra with
        | none => Reader.throw
        | some tag =>
          if 8 * 32 < tag.depth.toNat then Reader.throw
          else parentField ParentBlock.blockchainBranch (fun p x ↦ { p with blockchainBranch := x })
            (serFixedVector tag.depth.toNat 0 serPod)

def serBlockTemplate : Reader BlockTemplate :=
  (Reader.field BlockTemplate.toBlockHeader (fun v x ↦ { v with toBlockHeader := x })
    serBlockHeader).andThen <|
  (Reader.dependent fun v ↦ if 2 ≤ v.majorVersion then serParentBlock else Reader.done).andThen <|
  (Reader.field BlockTemplate.baseTransaction (fun v x ↦ { v with baseTransaction := x })
    serTransaction).andThen
    (Reader.field BlockTemplate.transactionHashes (fun v x ↦ { v with transactionHashes := x })
      (serVector 32 0 serPod))

def serRawBlock : Reader RawBlock :=
  (Reader.field RawBlock.block (fun v x ↦ { v with block := x }) serBinaryArray).andThen
    (Reader.field RawBlock.transactions (fun v x ↦ { v with transactions := x })
      (serVector 24 [] serBinaryArray))

/-! ## Blocks: output mode -/

def blockHeaderToBinary (v : BlockHeader) : Option Bytes :=
  let versions := writeVarint v.majorVersion.toNat ++ writeVarint v.minorVersion.toNat
  if v.majorVersion = 1 then
    some (versions ++ (writeVarint v.timestamp.toNat ++ podBytes v.previousBlockHash ++
      nonceBytes v.nonce))
  else if 2 ≤ v.majorVersion then some (versions ++ podBytes v.previousBlockHash)
  else none

/-- What the parent block serializer writes up to the nonce. -/
def parentBlockHeadBytes (v : BlockTemplate) : Bytes :=
  writeVarint v.parentBlock.majorVersion.toNat ++ (writeVarint v.parentBlock.minorVersion.toNat ++
    (writeVarint v.timestamp.toNat ++ (podBytes v.parentBlock.previousBlockHash ++
      nonceBytes v.nonce)))

/-- What it writes after the transaction count; `none` where the branch sizes do not fit. -/
def parentBlockTailToBinary (v : ParentBlock) : Option Bytes :=
  if v.baseTransactionBranch.length = treeDepth v.transactionCount.toNat then
    match getMergeMiningTagFromExtra v.baseTransaction.extra with
    | none => none
    | some tag =>
      if 8 * 32 < tag.depth.toNat then none
      else if tag.depth.toNat = v.blockchainBranch.length then
        some ((v.baseTransactionBranch.map podBytes).flatten ++
          (baseTransactionBytes v.baseTransaction ++ (v.blockchainBranch.map podBytes).flatten))
      else none
  else none

/-- `ser_members(ParentBlockSerializer)` in output mode, without hashing. -/
def parentBlockToBinary (v : BlockTemplate) : Option Bytes :=
  if v.parentBlock.transactionCount < 1 then none
  else do
    let tail ← parentBlockTailToBinary v.parentBlock
    some (parentBlockHeadBytes v ++
      (writeVarint v.parentBlock.transactionCount.toNat ++ tail))

def blockTemplateToBinary (v : BlockTemplate) : Option Bytes := do
  let header ← blockHeaderToBinary v.toBlockHeader
  let parent ← (if 2 ≤ v.majorVersion then parentBlockToBinary v else some [])
  let miner ← transactionToBinary v.baseTransaction
  some (header ++ (parent ++ (miner ++ vectorBytes podBytes v.transactionHashes)))

def rawBlockBytes (v : RawBlock) : Bytes :=
  binaryArrayBytes v.block ++ vectorBytes binaryArrayBytes v.transactions

/-- `ser_members(ParentBlock)`, of which only the size is used. -/
def plainParentBlockBytes (v : ParentBlock) : Bytes :=
  writeVarint v.majorVersion.toNat ++ writeVarint v.minorVersion.toNat ++
    podBytes v.previousBlockHash ++ writeVarint v.transactionCount.toNat ++
    vectorBytes podBytes v.baseTransactionBranch ++ baseTransactionBytes v.baseTransaction ++
    vectorBytes podBytes v.blockchainBranch

end Naza.Seria
