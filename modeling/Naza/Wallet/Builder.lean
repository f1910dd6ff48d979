import Naza.Crypto.OneTimeKeys
import Naza.ExtraFields
import Naza.MiningTemplate
import Naza.Transactions
import Naza.Wallet.Redo

/-!
# Building transactions

`TransactionBuilder`: inputs with their rings, outputs with one-time keys, and the ring signatures
over both.  `std::shuffle` is a parameter; equal global indices keep their order in `std::sort`.
-/

open Lib

namespace Naza

open CryptoOps

variable {P : Type} [AddCommGroup P] (cv : Curve P)

/-- The secret key of `deterministic_keys_from_seed`. -/
def Curve.deterministicSecretKey (inputs : List TransactionInput) (txDerivationSeed : Hash) :
    SecretKey :=
  let txInputsHash := cv.cnFastHash (Seria.vectorBytes Seria.transactionInputBytes inputs)
  cv.hashToScalar (Seria.podBytes txInputsHash ++ Seria.podBytes txDerivationSeed)

/-- The curve operations of the wallet.  A key that cannot be underived is left zero. -/
def Curve.walletCrypto (accountAddressAsString : AccountPublicAddress → String) : WalletCrypto where
  generateKeyDerivation := cv.generateKeyDerivation
  derivePublicKey := cv.derivePublicKey
  underivePublicKey derivation outputIndex key :=
    (cv.underivePublicKey derivation outputIndex key).getD 0
  deriveSecretKey := cv.deriveSecretKey
  generateKeyImage := cv.generateKeyImage
  deterministicSecretKey := cv.deterministicSecretKey
  accountAddressAsString

/-- The curve operations of the node; slow hashes are not part of it. -/
def Curve.crypto [DecidableEq P] (cnSlowHash cnLiteSlowHashV1 : BinaryArray → Hash) : Crypto where
  cnFastHash := cv.cnFastHash
  cnSlowHash
  cnLiteSlowHashV1
  keyIsvalid := cv.keyIsvalid
  checkRingSignature prefixHash image keys sigs :=
    cv.checkRingSignature prefixHash image keys sigs true

structure AccountKeys where
  address : AccountPublicAddress
  spendSecretKey : SecretKey
  viewSecretKey : SecretKey

/-! ## The transaction extra -/

namespace TransactionExtra

/-- Fields of one type. -/
def sameType : TransactionExtraField → TransactionExtraField → Bool
  | .padding _, .padding _ => true
  | .publicKey _, .publicKey _ => true
  | .nonce _, .nonce _ => true
  | .mergeMiningTag _, .mergeMiningTag _ => true
  | _, _ => false

/-- `TransactionExtra::set`: the first field of the type is replaced. -/
def setField (value : TransactionExtraField) :
    List TransactionExtraField → List TransactionExtraField
  | [] => [value]
  | field :: fields =>
    if sameType field value then value :: fields else field :: setField value fields

/-- `write_transaction_extra` into the array; a field that cannot be written is the last. -/
def writeFields (extra : BinaryArray) : List TransactionExtraField → BinaryArray
  | [] => extra
  | field :: fields =>
    match serializeExtraField extra field with
    | none => extra
    | some extra => writeFields extra fields

/-- `TransactionExtra::serialize`. -/
def serialize (fields : List TransactionExtraField) : BinaryArray := writeFields [] fields

end TransactionExtra

/-- `set_payment_id_to_transaction_extra_nonce`. -/
def setPaymentIdToTransactionExtraNonce (paymentId : Hash) : BinaryArray :=
  txExtraNoncePaymentId :: Seria.podBytes paymentId

namespace TransactionBuilder

structure InputDesc where
  outputs : List Api.Output := []
  realOutputIndex : ℕ := 0
  ephKeys : KeyPair := {}
  input : KeyInput := {}
  deriving Inhabited

structure OutputDesc where
  amount : Amount
  addr : AccountPublicAddress
  deriving Inhabited

end TransactionBuilder

open TransactionBuilder in
structure TransactionBuilder where
  transaction : Transaction := {}
  inputDescs : List InputDesc := []
  outputDescs : List OutputDesc := []
  extra : List TransactionExtraField := []
  outputsAmount : Amount := 0
  inputsAmount : Amount := 0
  deriving Inhabited

namespace TransactionBuilder

/-- `derive_public_key`. -/
def derivePublicKey (addr : AccountPublicAddress) (txKey : SecretKey) (outputIndex : ℕ) :
    Option PublicKey :=
  (cv.generateKeyDerivation addr.1 txKey).bind fun derivation ↦
    cv.derivePublicKey derivation outputIndex addr.2

/-- The constructor; `current_transaction_version` is given. -/
def make (currentTransactionVersion : UInt8) (unlockTime : UnlockMoment) : TransactionBuilder where
  transaction := { version := currentTransactionVersion, unlockTime }

def setExtraNonce (b : TransactionBuilder) (nonce : BinaryArray) : TransactionBuilder :=
  let extra := TransactionExtra.setField (.nonce nonce) b.extra
  { b with extra, transaction := { b.transaction with extra := TransactionExtra.serialize extra } }

def setPaymentId (b : TransactionBuilder) (hash : Hash) : TransactionBuilder :=
  b.setExtraNonce (setPaymentIdToTransactionExtraNonce hash)

def addOutput (b : TransactionBuilder) (amount : Amount) (addr : AccountPublicAddress) :
    TransactionBuilder :=
  { b with
    outputsAmount := b.outputsAmount + amount
    outputDescs := b.outputDescs ++ [⟨amount, addr⟩] }

/-- `generate_key_image_helper`. -/
def generateKeyImageHelper (ack : AccountKeys) (txPublicKey : PublicKey) (realOutputIndex : ℕ) :
    Option (KeyPair × KeyImage) := do
  let derivation ← cv.generateKeyDerivation txPublicKey ack.viewSecretKey
  let publicKey ← cv.derivePublicKey derivation realOutputIndex ack.address.2
  let secretKey := cv.deriveSecretKey derivation realOutputIndex ack.spendSecretKey
  return (⟨publicKey, secretKey⟩, cv.generateKeyImage publicKey secretKey)

/-- `absolute_output_offsets_to_relative`. -/
def absoluteOutputOffsetsToRelative : List UInt32 → List UInt32
  | [] => []
  | off :: offs => off :: List.zipWith (· - ·) offs (off :: offs)

/-- `APIOutputLessGlobalIndex`, as the order of `std::sort`. -/
def globalIndexLe (a b : Api.Output) : Bool := a.globalIndex ≤ b.globalIndex

/-- The ring of `add_input`, and the place of the real output in it. -/
def ring (realOutput : Api.Output) (mixOutputs : List Api.Output) : List Api.Output × ℕ :=
  let outputs := mixOutputs.mergeSort globalIndexLe
  let realOutputIndex := outputs.findIdx fun out ↦ ¬(out.globalIndex < realOutput.globalIndex)
  (outputs.insertIdx realOutputIndex realOutput, realOutputIndex)

/-- `add_input`, with the texts of its exceptions. -/
def addInput (b : TransactionBuilder) (senderKeys : AccountKeys) (realOutput : Api.Output)
    (mixOutputs : List Api.Output) : Except String TransactionBuilder :=
  let (outputs, realOutputIndex) := ring realOutput mixOutputs
  match generateKeyImageHelper cv senderKeys realOutput.transactionPublicKey
    realOutput.indexInTransaction.toNat with
  | none => .error "generating key_image failed"
  | some (ephKeys, keyImage) =>
    if keyImage ≠ realOutput.keyImage then .error "generated key_image does not match input"
    else if ¬ outputs.all (fun out ↦ out.amount = realOutput.amount) then
      .error "Mixin outputs with different amounts is not allowed"
    else
      let outputIndexes :=
        absoluteOutputOffsetsToRelative (outputs.map Api.Output.globalIndex)
      .ok { b with
        inputsAmount := b.inputsAmount + realOutput.amount
        inputDescs := b.inputDescs ++
          [{ outputs, realOutputIndex, ephKeys
             input := { amount := realOutput.amount, outputIndexes, keyImage } }] }

/-- `deterministic_keys_from_seed`. -/
def deterministicKeysFromSeed (inputs : List TransactionInput) (txDerivationSeed : Hash) :
    KeyPair :=
  let secretKey := cv.deterministicSecretKey inputs txDerivationSeed
  ⟨(cv.secretKeyToPublicKey secretKey).getD 0, secretKey⟩

/-- The loop over the outputs in `sign`. -/
def signOutputs (txSecretKey : SecretKey) :
    ℕ → List OutputDesc → Except String (List TransactionOutput)
  | _, [] => .ok []
  | i, desc :: descs =>
    match derivePublicKey cv desc.addr txSecretKey i with
    | none => .error "output keys detected as corrupted during output key derivation"
    | some key => do
      let outputs ← signOutputs txSecretKey (i + 1) descs
      return ⟨desc.amount, .keyOutput ⟨key⟩⟩ :: outputs

/-- The loop over the inputs in `sign`; each ring has its own random numbers. -/
def signInputs (hash : Hash) (draws : ℕ → ℕ → Bytes) :
    ℕ → List InputDesc → Except String (List (List Signature))
  | _, [] => .ok []
  | i, desc :: descs =>
    let keys := desc.outputs.map Api.Output.publicKey
    match cv.generateRingSignature hash desc.input.keyImage keys desc.ephKeys.secretKey
      desc.realOutputIndex (draws i) (List.replicate keys.length {}) with
    | none => .error "output keys detected as corrupted during ring signing"
    | some signatures => do
      let rest ← signInputs hash draws (i + 1) descs
      return signatures :: rest

/-- `sign`. -/
def sign (shuffleOutputs : List OutputDesc → List OutputDesc)
    (shuffleInputs : List InputDesc → List InputDesc) (draws : ℕ → ℕ → Bytes)
    (b : TransactionBuilder) (txDerivationSeed : Hash) : Except String Transaction := do
  let outputDescs := (shuffleOutputs b.outputDescs).mergeSort fun x y ↦ x.amount ≤ y.amount
  let inputDescs := (shuffleInputs b.inputDescs).mergeSort fun x y ↦ x.input.amount ≤ y.input.amount
  let inputs := inputDescs.map fun desc ↦ .keyInput desc.input
  let txKeys := deterministicKeysFromSeed cv inputs txDerivationSeed
  let extra := TransactionExtra.serialize
    (TransactionExtra.setField (.publicKey txKeys.publicKey) b.extra)
  let outputs ← signOutputs cv txKeys.secretKey 0 outputDescs
  let tx := { b.transaction with inputs, extra, outputs }
  let hash := cv.cnFastHash (Seria.transactionPrefixBytes tx.toTransactionPrefix)
  let signatures ← signInputs cv hash draws 0 inputDescs
  return { tx with signatures }

/-! ## Rings -/

theorem globalIndexes_absoluteOutputOffsetsToRelative (offs : List UInt32) :
    globalIndexes (absoluteOutputOffsetsToRelative offs) = offs := by
  cases offs with
  | nil => rfl
  | cons off offs =>
    rw [absoluteOutputOffsetsToRelative, globalIndexes]
    induction offs generalizing off with
    | nil => rfl
    | cons next offs ih =>
      rw [List.zipWith_cons_cons, List.scanl_cons, add_sub_cancel, ih]

theorem insertIdx_findIdx {real : Api.Output} {outputs : List Api.Output}
    (hsorted : outputs.Pairwise fun a b ↦ globalIndexLe a b) :
    ∃ before after, before ++ after = outputs ∧
      (outputs.findIdx fun out ↦ ¬(out.globalIndex < real.globalIndex)) = before.length ∧
      outputs.insertIdx before.length real = before ++ real :: after ∧
      (∀ out ∈ before, out.globalIndex < real.globalIndex) ∧
      ∀ out ∈ after, real.globalIndex ≤ out.globalIndex := by
  induction outputs with
  | nil => exact ⟨[], [], rfl, rfl, rfl, by simp, by simp⟩
  | cons first outputs ih =>
    obtain ⟨hfirst, hsorted⟩ := List.pairwise_cons.1 hsorted
    by_cases hlt : first.globalIndex < real.globalIndex
    · obtain ⟨before, after, rfl, hidx, hinsert, hbefore, hafter⟩ := ih hsorted
      refine ⟨first :: before, after, rfl, ?_, ?_, ?_, hafter⟩
      · rw [List.findIdx_cons, hidx]
        simp [hlt]
      · rw [List.length_cons, List.insertIdx_succ_cons, hinsert, List.cons_append]
      · exact List.forall_mem_cons.2 ⟨hlt, hbefore⟩
    · refine ⟨[], first :: outputs, rfl, ?_, rfl, by simp, ?_⟩
      · rw [List.findIdx_cons]
        simp [hlt]
      · have hle : real.globalIndex ≤ first.globalIndex := UInt32.not_lt.1 hlt
        refine List.forall_mem_cons.2 ⟨hle, fun out hout ↦ UInt32.le_trans hle ?_⟩
        simpa [globalIndexLe] using hfirst out hout

theorem pairwise_mergeSort_globalIndexLe (outputs : List Api.Output) :
    (outputs.mergeSort globalIndexLe).Pairwise fun a b ↦ globalIndexLe a b := by
  refine List.pairwise_mergeSort (fun a b c hab hbc ↦ ?_) (fun a b ↦ ?_) outputs
  · simp only [globalIndexLe, decide_eq_true_eq] at hab hbc ⊢
    exact UInt32.le_trans hab hbc
  · simpa only [globalIndexLe, Bool.or_eq_true, decide_eq_true_eq] using
      UInt32.le_total a.globalIndex b.globalIndex

/-- The ring is the sorted outputs with the real one in its place. -/
theorem ring_eq (real : Api.Output) (mixOutputs : List Api.Output) :
    ∃ before after, before ++ after = mixOutputs.mergeSort globalIndexLe ∧
      ring real mixOutputs = (before ++ real :: after, before.length) ∧
      (∀ out ∈ before, out.globalIndex < real.globalIndex) ∧
      ∀ out ∈ after, real.globalIndex ≤ out.globalIndex := by
  obtain ⟨before, after, hsplit, hidx, hinsert, hbefore, hafter⟩ :=
    @insertIdx_findIdx real _ (pairwise_mergeSort_globalIndexLe mixOutputs)
  refine ⟨before, after, hsplit, ?_, hbefore, hafter⟩
  rw [ring]
  simp only [hidx, hinsert]

theorem mem_ring {real out : Api.Output} {mixOutputs : List Api.Output} :
    out ∈ (ring real mixOutputs).1 ↔ out = real ∨ out ∈ mixOutputs := by
  obtain ⟨before, after, hsplit, hring, -, -⟩ := ring_eq real mixOutputs
  have hmem : out ∈ mixOutputs ↔ out ∈ before ++ after := by rw [hsplit, List.mem_mergeSort]
  rw [hring, hmem]
  simp only [List.mem_append, List.mem_cons]
  tauto

/-! ## Inputs -/

/-- An output that an account can spend. -/
structure Owned (keys : AccountKeys) (out : Api.Output) : Prop where
  spendKeys : cv.secretKeyToPublicKey keys.spendSecretKey = some keys.address.2
  derived : ∃ derivation,
    cv.generateKeyDerivation out.transactionPublicKey keys.viewSecretKey = some derivation ∧
      cv.derivePublicKey derivation out.indexInTransaction.toNat keys.address.2 =
        some out.publicKey

/-- An input that its keys can sign: the member of the ring at the place of the real output has
them, and the members are valid keys. -/
structure Signable (desc : InputDesc) : Prop where
  real : ∃ before real after, desc.outputs = before ++ real :: after ∧
    desc.realOutputIndex = before.length ∧
    (∀ out ∈ before ++ after, cv.keyIsvalid out.publicKey = true) ∧
    cv.secretKeyToPublicKey desc.ephKeys.secretKey = some real.publicKey ∧
    desc.input.keyImage = cv.generateKeyImage real.publicKey desc.ephKeys.secretKey
  indexes : globalIndexes desc.input.outputIndexes = desc.outputs.map Api.Output.globalIndex
  amounts : ∀ out ∈ desc.outputs, out.amount = desc.input.amount

variable {cv}

/-- `add_input` throws only where the key image is another one, or an amount. -/
theorem addInput_eq_ok {keys : AccountKeys} {real : Api.Output} {mixOutputs : List Api.Output}
    {ephKeys : KeyPair}
    (hhelper : generateKeyImageHelper cv keys real.transactionPublicKey
      real.indexInTransaction.toNat = some (ephKeys, real.keyImage))
    (hamounts : ∀ out ∈ mixOutputs, out.amount = real.amount) (b : TransactionBuilder) :
    ∃ b', b.addInput cv keys real mixOutputs = .ok b' := by
  have hall : (ring real mixOutputs).1.all (fun out ↦ out.amount = real.amount) = true := by
    rw [List.all_eq_true]
    intro out hout
    obtain rfl | hout := mem_ring.1 hout
    · exact decide_eq_true rfl
    · exact decide_eq_true (hamounts out hout)
  rw [addInput]
  simp only [hhelper, ne_eq, not_true_eq_false, if_false, hall]
  exact ⟨_, rfl⟩

/-- The keys that the helper derives are those of the output. -/
theorem Owned.generateKeyImageHelper {keys : AccountKeys} {out : Api.Output}
    (h : Owned cv keys out) :
    ∃ ephKeys : KeyPair,
      generateKeyImageHelper cv keys out.transactionPublicKey out.indexInTransaction.toNat =
        some (ephKeys, cv.generateKeyImage out.publicKey ephKeys.secretKey) ∧
      cv.secretKeyToPublicKey ephKeys.secretKey = some out.publicKey := by
  obtain ⟨derivation, hderivation, hkey⟩ := h.derived
  refine ⟨⟨out.publicKey, cv.deriveSecretKey derivation out.indexInTransaction.toNat
    keys.spendSecretKey⟩, ?_, ?_⟩
  · simp [TransactionBuilder.generateKeyImageHelper, hderivation, hkey]
  · exact (Curve.secretKeyToPublicKey_deriveSecretKey h.spendKeys).2 hkey

/-- What `add_input` adds can be signed. -/
theorem signable_of_addInput {b b' : TransactionBuilder} {keys : AccountKeys} {real : Api.Output}
    {mixOutputs : List Api.Output} (howned : Owned cv keys real)
    (hvalid : ∀ out ∈ mixOutputs, cv.keyIsvalid out.publicKey = true)
    (h : b.addInput cv keys real mixOutputs = .ok b') :
    ∃ desc, Signable cv desc ∧
      desc.outputs = (ring real mixOutputs).1 ∧
      b' = { b with
        inputsAmount := b.inputsAmount + real.amount, inputDescs := b.inputDescs ++ [desc] } := by
  obtain ⟨ephKeys, hhelper, hsecret⟩ := howned.generateKeyImageHelper
  obtain ⟨before, after, hsplit, hring, -, -⟩ := ring_eq real mixOutputs
  rw [addInput, hring, hhelper] at h
  simp only [] at h
  split at h
  · cases h
  · split at h
    · cases h
    · next himage hamounts =>
      rw [not_not, List.all_eq_true] at hamounts
      have hb' := (Except.ok.inj h).symm
      refine ⟨_, ?_, ?_, hb'⟩
      · refine ⟨⟨before, real, after, rfl, rfl, fun out hout ↦ ?_, hsecret, rfl⟩, ?_, ?_⟩
        · exact hvalid out (List.mem_mergeSort.1 (hsplit ▸ hout))
        · exact globalIndexes_absoluteOutputOffsetsToRelative _
        · exact fun out hout ↦ by simpa using hamounts out hout
      · rw [hring]

/-! ## Runs of the builder -/

/-- A builder after any calls: real outputs are those of the accounts that spend them, the keys of
other members are valid, addresses too, and nonces fit the transaction extra. -/
inductive Built (cv : Curve P) : TransactionBuilder → Prop
  | make (currentTransactionVersion : UInt8) (unlockTime : UnlockMoment) :
    Built cv (make currentTransactionVersion unlockTime)
  | setExtraNonce {b : TransactionBuilder} {nonce : BinaryArray} (h : Built cv b)
    (hnonce : nonce.length ≤ txExtraNonceMaxCount) : Built cv (b.setExtraNonce nonce)
  | addOutput {b : TransactionBuilder} {amount : Amount} {addr : AccountPublicAddress}
    (h : Built cv b) (hview : cv.keyIsvalid addr.1 = true) (hspend : cv.keyIsvalid addr.2 = true) :
    Built cv (b.addOutput amount addr)
  | addInput {b b' : TransactionBuilder} {keys : AccountKeys} {real : Api.Output}
    {mixOutputs : List Api.Output} (h : Built cv b) (howned : Owned cv keys real)
    (hvalid : ∀ out ∈ mixOutputs, cv.keyIsvalid out.publicKey = true)
    (hadded : b.addInput cv keys real mixOutputs = .ok b') : Built cv b'

theorem Built.setPaymentId {b : TransactionBuilder} (h : Built cv b) (hash : Hash) :
    Built cv (b.setPaymentId hash) :=
  h.setExtraNonce (by
    rw [setPaymentIdToTransactionExtraNonce, List.length_cons, Seria.length_podBytes]
    decide)

/-- What every call keeps. -/
structure Ready (cv : Curve P) (b : TransactionBuilder) : Prop where
  inputs : ∀ desc ∈ b.inputDescs, Signable cv desc
  outputs : ∀ desc ∈ b.outputDescs,
    cv.keyIsvalid desc.addr.1 = true ∧ cv.keyIsvalid desc.addr.2 = true
  extra : b.extra = [] ∨
    ∃ nonce : BinaryArray, nonce.length ≤ txExtraNonceMaxCount ∧ b.extra = [.nonce nonce]

theorem Built.ready {b : TransactionBuilder} (h : Built cv b) : Ready cv b := by
  induction h with
  | make currentTransactionVersion unlockTime =>
    exact ⟨by simp [TransactionBuilder.make], by simp [TransactionBuilder.make], Or.inl rfl⟩
  | setExtraNonce h hnonce ih =>
    refine ⟨ih.inputs, ih.outputs, Or.inr ⟨_, hnonce, ?_⟩⟩
    obtain hextra | ⟨nonce, -, hextra⟩ := ih.extra
    · simp [TransactionBuilder.setExtraNonce, hextra, TransactionExtra.setField]
    · simp [TransactionBuilder.setExtraNonce, hextra, TransactionExtra.setField,
        TransactionExtra.sameType]
  | addOutput h hview hspend ih =>
    refine ⟨ih.inputs, fun desc hdesc ↦ ?_, ih.extra⟩
    obtain hdesc | rfl := by
      simpa [TransactionBuilder.addOutput] using hdesc
    · exact ih.outputs desc hdesc
    · exact ⟨hview, hspend⟩
  | addInput h howned hvalid hadded ih =>
    obtain ⟨desc, hsignable, -, rfl⟩ := signable_of_addInput howned hvalid hadded
    refine ⟨fun desc' hdesc' ↦ ?_, ih.outputs, ih.extra⟩
    obtain hdesc' | rfl := by simpa using hdesc'
    · exact ih.inputs desc' hdesc'
    · exact hsignable

/-! ## Signing -/

theorem writeFields_eq {fields : List TransactionExtraField}
    (h : TransactionExtra.WellFormed fields) (extra : BinaryArray) :
    TransactionExtra.writeFields extra fields =
      extra ++ fields.flatMap TransactionExtra.fieldBytes := by
  induction fields generalizing extra with
  | nil => rw [TransactionExtra.writeFields, List.flatMap_nil, List.append_nil]
  | cons field fields ih =>
    rw [TransactionExtra.writeFields, TransactionExtra.serializeExtraField_eq h]
    simp only []
    rw [ih h.tail, List.flatMap_cons, List.append_assoc]

/-- The key of the transaction is read from the extra that `sign` writes. -/
theorem Ready.publicKey {b : TransactionBuilder} (h : Ready cv b) (key : PublicKey) :
    getTransactionPublicKeyFromExtra (TransactionExtra.serialize
      (TransactionExtra.setField (.publicKey key) b.extra)) = key := by
  obtain hextra | ⟨nonce, hnonce, hextra⟩ := h.extra
  · have hfields : TransactionExtra.setField (.publicKey key) b.extra = [.publicKey key] := by
      rw [hextra]
      rfl
    have hwell : TransactionExtra.WellFormed [.publicKey key] := trivial
    rw [hfields, TransactionExtra.serialize, writeFields_eq hwell, List.nil_append,
      getTransactionPublicKeyFromExtra, TransactionExtra.parse,
      TransactionExtra.parseFields_flatMap hwell le_rfl]
    rfl
  · have hfields : TransactionExtra.setField (.publicKey key) b.extra =
        [.nonce nonce, .publicKey key] := by
      rw [hextra]
      rfl
    have hwell : TransactionExtra.WellFormed [.nonce nonce, .publicKey key] := ⟨hnonce, trivial⟩
    rw [hfields, TransactionExtra.serialize, writeFields_eq hwell, List.nil_append,
      getTransactionPublicKeyFromExtra, TransactionExtra.parse,
      TransactionExtra.parseFields_flatMap hwell le_rfl]
    rfl

theorem derivePublicKey_isSome {addr : AccountPublicAddress} (hview : cv.keyIsvalid addr.1 = true)
    (hspend : cv.keyIsvalid addr.2 = true) (txKey : SecretKey) (outputIndex : ℕ) :
    ∃ key, derivePublicKey cv addr txKey outputIndex = some key := by
  obtain ⟨view, hview⟩ := Option.isSome_iff_exists.1 hview
  obtain ⟨spend, hspend⟩ := Option.isSome_iff_exists.1 hspend
  exact ⟨_, by
    rw [derivePublicKey, Curve.generateKeyDerivation, hview, Option.map_some, Option.bind_some,
      Curve.derivePublicKey, hspend, Option.map_some]⟩

theorem signOutputs_eq {txSecretKey : SecretKey} {descs : List OutputDesc}
    (h : ∀ desc ∈ descs, cv.keyIsvalid desc.addr.1 = true ∧ cv.keyIsvalid desc.addr.2 = true)
    (i : ℕ) :
    ∃ keys : List PublicKey, keys.length = descs.length ∧
      signOutputs cv txSecretKey i descs = .ok (List.zipWith
        (fun desc key ↦ ⟨desc.amount, .keyOutput ⟨key⟩⟩) descs keys) ∧
      ∀ k desc key, descs[k]? = some desc → keys[k]? = some key →
        derivePublicKey cv desc.addr txSecretKey (i + k) = some key := by
  induction descs generalizing i with
  | nil => exact ⟨[], rfl, rfl, by simp⟩
  | cons desc descs ih =>
    obtain ⟨hview, hspend⟩ := h desc List.mem_cons_self
    obtain ⟨key, hkey⟩ := derivePublicKey_isSome hview hspend txSecretKey i
    obtain ⟨keys, hlength, hkeys, hderived⟩ :=
      ih (fun d hd ↦ h d (List.mem_cons_of_mem _ hd)) (i + 1)
    refine ⟨key :: keys, by simp [hlength], ?_, fun k d e hd he ↦ ?_⟩
    · rw [signOutputs, hkey]
      simp only [hkeys]
      rfl
    · cases k with
      | zero =>
        obtain rfl := Option.some.inj hd
        obtain rfl := Option.some.inj he
        exact hkey
      | succ k =>
        rw [show i + (k + 1) = i + 1 + k by ring]
        exact hderived k d e hd he

/-- A ring signed over a hash. -/
def Signed [DecidableEq P] (cv : Curve P) (hash : Hash) (desc : InputDesc)
    (signatures : List Signature) : Prop :=
  signatures.length = desc.outputs.length ∧
    cv.checkRingSignature hash desc.input.keyImage (desc.outputs.map Api.Output.publicKey)
      signatures true = .valid

theorem signInputs_eq [DecidableEq P] {hash : Hash} {descs : List InputDesc}
    (h : ∀ desc ∈ descs, Signable cv desc) (draws : ℕ → ℕ → Bytes) (i : ℕ) :
    ∃ signatures, signInputs cv hash draws i descs = .ok signatures ∧
      List.Forall₂ (Signed cv hash) descs signatures := by
  induction descs generalizing i with
  | nil => exact ⟨[], rfl, .nil⟩
  | cons desc descs ih =>
    obtain ⟨rest, hrest, hsigned⟩ := ih (fun d hd ↦ h d (List.mem_cons_of_mem _ hd)) (i + 1)
    obtain ⟨before, real, after, houtputs, hidx, hvalid, hkeys, himage⟩ :=
      (h desc List.mem_cons_self).real
    have hmap : desc.outputs.map Api.Output.publicKey = before.map Api.Output.publicKey ++
        real.publicKey :: after.map Api.Output.publicKey := by
      rw [houtputs, List.map_append, List.map_cons]
    obtain ⟨signatures, hgenerate, hlength, hcheck⟩ :=
      @Curve.checkRingSignature_generateRingSignature P _ cv _ hash
        (before.map Api.Output.publicKey) (after.map Api.Output.publicKey) real.publicKey
        (by simpa [or_imp, forall_and] using hvalid) _ hkeys (draws i)
        (List.replicate (desc.outputs.map Api.Output.publicKey).length {})
        (by rw [List.length_replicate, hmap]) true
    rw [← himage, ← hmap, List.length_map, ← hidx] at hgenerate
    rw [← himage, ← hmap] at hcheck
    rw [← hmap, List.length_map] at hlength
    refine ⟨signatures :: rest, ?_, .cons ⟨hlength, hcheck⟩ hsigned⟩
    rw [signInputs]
    simp only [hgenerate, hrest]
    rfl

theorem pairwise_mergeSort_amount {α : Type} (amount : α → Amount) (descs : List α) :
    (descs.mergeSort fun x y ↦ amount x ≤ amount y).Pairwise fun x y ↦ amount x ≤ amount y := by
  have hle : ∀ x y z : α, decide (amount x ≤ amount y) = true →
      decide (amount y ≤ amount z) = true → decide (amount x ≤ amount z) = true := by
    intro x y z hxy hyz
    rw [decide_eq_true_eq] at hxy hyz ⊢
    exact UInt64.le_trans hxy hyz
  have htotal : ∀ x y : α,
      (decide (amount x ≤ amount y) || decide (amount y ≤ amount x)) = true := by
    intro x y
    simpa only [Bool.or_eq_true, decide_eq_true_eq] using UInt64.le_total (amount x) (amount y)
  exact (List.pairwise_mergeSort hle htotal descs).imp fun h ↦ by simpa using h

/-- What `sign` makes of a builder: its inputs and outputs in the order of their amounts, the key
of the transaction in the extra, one-time keys derived from it, and a signature for each ring. -/
structure SignedBy [DecidableEq P] (cv : Curve P) (b : TransactionBuilder) (seed : Hash)
    (inputDescs : List InputDesc) (outputDescs : List OutputDesc) (tx : Transaction) : Prop where
  inputPerm : inputDescs.Perm b.inputDescs
  outputPerm : outputDescs.Perm b.outputDescs
  inputsSorted : inputDescs.Pairwise fun x y ↦ x.input.amount ≤ y.input.amount
  outputsSorted : outputDescs.Pairwise fun x y ↦ x.amount ≤ y.amount
  inputs : tx.inputs = inputDescs.map fun desc ↦ .keyInput desc.input
  publicKey : cv.secretKeyToPublicKey (cv.deterministicSecretKey tx.inputs seed) =
    some (getTransactionPublicKeyFromExtra tx.extra)
  outputs : ∃ keys : List PublicKey, keys.length = outputDescs.length ∧
    tx.outputs = List.zipWith (fun desc key ↦ ⟨desc.amount, .keyOutput ⟨key⟩⟩) outputDescs keys ∧
    ∀ k desc key, outputDescs[k]? = some desc → keys[k]? = some key →
      derivePublicKey cv desc.addr (cv.deterministicSecretKey tx.inputs seed) k = some key
  signatures : List.Forall₂
    (Signed cv (cv.cnFastHash (Seria.transactionPrefixBytes tx.toTransactionPrefix))) inputDescs
    tx.signatures

theorem Ready.sign [DecidableEq P] {b : TransactionBuilder} (h : Ready cv b)
    {shuffleOutputs : List OutputDesc → List OutputDesc}
    {shuffleInputs : List InputDesc → List InputDesc}
    (hshuffleOutputs : ∀ descs, (shuffleOutputs descs).Perm descs)
    (hshuffleInputs : ∀ descs, (shuffleInputs descs).Perm descs) (draws : ℕ → ℕ → Bytes)
    (seed : Hash) :
    ∃ tx inputDescs outputDescs, sign cv shuffleOutputs shuffleInputs draws b seed = .ok tx ∧
      SignedBy cv b seed inputDescs outputDescs tx := by
  set outputDescs := (shuffleOutputs b.outputDescs).mergeSort fun x y ↦ x.amount ≤ y.amount
    with houtputDescs
  set inputDescs := (shuffleInputs b.inputDescs).mergeSort fun x y ↦
    x.input.amount ≤ y.input.amount with hinputDescs
  have houtputPerm : outputDescs.Perm b.outputDescs :=
    (List.mergeSort_perm _ _).trans (hshuffleOutputs _)
  have hinputPerm : inputDescs.Perm b.inputDescs :=
    (List.mergeSort_perm _ _).trans (hshuffleInputs _)
  set secretKey := cv.deterministicSecretKey (inputDescs.map fun desc ↦ .keyInput desc.input) seed
    with hsecretKey
  obtain ⟨publicKey, hpublicKey⟩ :
      ∃ publicKey, cv.secretKeyToPublicKey secretKey = some publicKey :=
    ⟨_, cv.secretKeyToPublicKey_eq_some_iff.2 ⟨cv.reduced_hashToScalar _, rfl⟩⟩
  obtain ⟨keys, hlength, houtputs, hderived⟩ := @signOutputs_eq P _ cv secretKey outputDescs
    (fun desc hdesc ↦ h.outputs desc (houtputPerm.mem_iff.1 hdesc)) 0
  obtain ⟨signatures, hsignatures, hsigned⟩ := @signInputs_eq P _ cv _
    (cv.cnFastHash (Seria.transactionPrefixBytes { b.transaction with
      inputs := inputDescs.map fun desc ↦ .keyInput desc.input
      extra := TransactionExtra.serialize
        (TransactionExtra.setField (.publicKey publicKey) b.extra)
      outputs := List.zipWith (fun desc key ↦ ⟨desc.amount, .keyOutput ⟨key⟩⟩) outputDescs keys }))
    inputDescs (fun desc hdesc ↦ h.inputs desc (hinputPerm.mem_iff.1 hdesc)) draws 0
  have hextra := h.publicKey publicKey
  refine ⟨{ b.transaction with
      inputs := inputDescs.map fun desc ↦ .keyInput desc.input
      extra := TransactionExtra.serialize
        (TransactionExtra.setField (.publicKey publicKey) b.extra)
      outputs := List.zipWith (fun desc key ↦ ⟨desc.amount, .keyOutput ⟨key⟩⟩) outputDescs keys
      signatures }, inputDescs, outputDescs, ?_,
    ⟨hinputPerm, houtputPerm,
      pairwise_mergeSort_amount (fun desc : InputDesc ↦ desc.input.amount) _,
      pairwise_mergeSort_amount _ _, rfl,
      by rw [hextra]; exact hpublicKey, ⟨keys, hlength, rfl, fun k desc key hdesc hkey ↦ ?_⟩,
      hsigned⟩⟩
  · rw [TransactionBuilder.sign]
    simp only [deterministicKeysFromSeed, ← houtputDescs, ← hinputDescs, ← hsecretKey, hpublicKey,
      Option.getD_some, houtputs, bind, Except.bind]
    dsimp only at hsignatures
    rw [hsignatures]
    rfl
  · have hkey := hderived k desc key hdesc hkey
    rwa [zero_add] at hkey

/-! ## What the node says -/

/-- The node has an output as the wallet was told of it, and it is not locked. -/
def Known (c : Currency) (reads : StateReads) (unlockHeight : Height)
    (unlockTimestamp : Timestamp) (out : Api.Output) : Prop :=
  ∃ unp, reads.readAmountOutput out.amount out.globalIndex = some unp ∧
    unp.publicKey = out.publicKey ∧
    c.isTransactionSpendTimeUnlocked unp.unlockTime unlockHeight unlockTimestamp = true

theorem readRing_of_known {c : Currency} {reads : StateReads} {unlockHeight : Height}
    {unlockTimestamp : Timestamp} {amount : Amount} {outputs : List Api.Output}
    (hamounts : ∀ out ∈ outputs, out.amount = amount)
    (hknown : ∀ out ∈ outputs, Known c reads unlockHeight unlockTimestamp out) :
    ∃ unps, readRing c reads unlockHeight unlockTimestamp amount
        (outputs.map Api.Output.globalIndex) = .ok unps ∧
      unps.map UnlockTimePublickKeyHeightSpent.publicKey = outputs.map Api.Output.publicKey := by
  induction outputs with
  | nil => exact ⟨[], rfl, rfl⟩
  | cons out outputs ih =>
    obtain ⟨unps, hunps, hkeys⟩ := ih (fun o ho ↦ hamounts o (List.mem_cons_of_mem _ ho))
      (fun o ho ↦ hknown o (List.mem_cons_of_mem _ ho))
    obtain ⟨unp, hread, hkey, hunlocked⟩ := hknown out List.mem_cons_self
    rw [hamounts out List.mem_cons_self] at hread
    refine ⟨unp :: unps, ?_, by rw [List.map_cons, List.map_cons, hkey, hkeys]⟩
    rw [List.map_cons, readRing]
    simp only [hread, hunlocked, hunps, if_true]

theorem startInputs_of_signed [DecidableEq P] {c : Currency} {reads : StateReads}
    {unlockHeight : Height} {unlockTimestamp : Timestamp} {hash : Hash} {descs : List InputDesc}
    {signatures : List (List Signature)} (hsigned : List.Forall₂ (Signed cv hash) descs signatures)
    (hsignable : ∀ desc ∈ descs, Signable cv desc)
    (hunspent : ∀ desc ∈ descs, reads.readKeyimage desc.input.keyImage = none)
    (hknown : ∀ desc ∈ descs, ∀ out ∈ desc.outputs, Known c reads unlockHeight unlockTimestamp out)
    (cnSlowHash cnLiteSlowHashV1 : BinaryArray → Hash) :
    ∃ args, startInputs c reads unlockHeight unlockTimestamp hash
        (descs.map fun desc ↦ .keyInput desc.input) signatures = .ok args ∧
      ∀ arg ∈ args, arg.check (cv.crypto cnSlowHash cnLiteSlowHashV1) = .valid := by
  induction hsigned with
  | nil => exact ⟨[], rfl, by simp⟩
  | @cons desc sigs descs signatures hsig hsigned ih =>
    obtain ⟨args, hargs, hvalid⟩ := ih (fun d hd ↦ hsignable d (List.mem_cons_of_mem _ hd))
      (fun d hd ↦ hunspent d (List.mem_cons_of_mem _ hd))
      (fun d hd ↦ hknown d (List.mem_cons_of_mem _ hd))
    have hdesc := hsignable desc List.mem_cons_self
    obtain ⟨unps, hunps, hkeys⟩ :=
      readRing_of_known hdesc.amounts (hknown desc List.mem_cons_self)
    have hnonempty : desc.input.outputIndexes ≠ [] := by
      obtain ⟨before, real, after, houtputs, -⟩ := hdesc.real
      intro hnil
      have hindexes := hdesc.indexes
      rw [hnil, globalIndexes, houtputs] at hindexes
      simp at hindexes
    have hstart : startInput c reads unlockHeight unlockTimestamp hash desc.input sigs =
        .ok { txPrefixHash := hash, keyImage := desc.input.keyImage
              outputKeys := desc.outputs.map Api.Output.publicKey, signatures := sigs } := by
      rw [startInput, hunspent desc List.mem_cons_self, hdesc.indexes]
      simp only [Option.isSome_none, Bool.false_eq_true, if_false, hnonempty, hunps, hkeys]
    refine ⟨{ txPrefixHash := hash, keyImage := desc.input.keyImage
              outputKeys := desc.outputs.map Api.Output.publicKey, signatures := sigs } :: args, ?_,
      List.forall_mem_cons.2 ⟨hsig.2, hvalid⟩⟩
    rw [List.map_cons, startInputs, List.headD_cons, List.tail_cons, hstart, hargs]
    rfl

/-- A transaction that the builder signs passes the ring checks of a node that has the outputs of
its rings as the wallet was told of them, whatever is drawn and however the entries are shuffled. -/
theorem Built.signaturesValid_sign [DecidableEq P] {b : TransactionBuilder} (h : Built cv b)
    {shuffleOutputs : List OutputDesc → List OutputDesc}
    {shuffleInputs : List InputDesc → List InputDesc}
    (hshuffleOutputs : ∀ descs, (shuffleOutputs descs).Perm descs)
    (hshuffleInputs : ∀ descs, (shuffleInputs descs).Perm descs) (draws : ℕ → ℕ → Bytes)
    (seed : Hash) (c : Currency) (cnSlowHash cnLiteSlowHashV1 : BinaryArray → Hash)
    {reads : StateReads} {unlockHeight : Height} {unlockTimestamp : Timestamp}
    (hunspent : ∀ desc ∈ b.inputDescs, reads.readKeyimage desc.input.keyImage = none)
    (hknown : ∀ desc ∈ b.inputDescs, ∀ out ∈ desc.outputs,
      Known c reads unlockHeight unlockTimestamp out) :
    ∃ tx args, sign cv shuffleOutputs shuffleInputs draws b seed = .ok tx ∧
      startWorkGetError (cv.crypto cnSlowHash cnLiteSlowHashV1) c reads unlockHeight
        unlockTimestamp [tx] = .ok args ∧
      signaturesValid (cv.crypto cnSlowHash cnLiteSlowHashV1) args = true := by
  obtain ⟨tx, inputDescs, outputDescs, hsign, hsigned⟩ := h.ready.sign hshuffleOutputs
    hshuffleInputs draws seed
  have hmem : ∀ desc, desc ∈ inputDescs ↔ desc ∈ b.inputDescs := fun _ ↦
    hsigned.inputPerm.mem_iff
  obtain ⟨args, hargs, hvalid⟩ := startInputs_of_signed hsigned.signatures
    (fun desc hdesc ↦ h.ready.inputs desc ((hmem desc).1 hdesc))
    (fun desc hdesc ↦ hunspent desc ((hmem desc).1 hdesc))
    (fun desc hdesc ↦ hknown desc ((hmem desc).1 hdesc)) cnSlowHash cnLiteSlowHashV1
  refine ⟨tx, args, hsign, ?_, ?_⟩
  · rw [startWorkGetError, hsigned.inputs]
    rw [show getTransactionPrefixHash (cv.crypto cnSlowHash cnLiteSlowHashV1)
      tx.toTransactionPrefix = cv.cnFastHash (Seria.transactionPrefixBytes tx.toTransactionPrefix)
      from rfl, hargs]
    change Except.ok (args ++ []) = _
    rw [List.append_nil]
  · rw [signaturesValid, List.all_eq_true]
    exact fun arg harg ↦ decide_eq_true (hvalid arg harg)

/-- An account over the numbers, and an output of a transaction that pays to it. -/
def sampleKeys : AccountKeys :=
  ⟨(Curve.numbers.geTobytes 24, Curve.numbers.geTobytes 40), Curve.scalarOf 5, Curve.scalarOf 3⟩

def sampleDerivation : KeyDerivation :=
  (Curve.numbers.generateKeyDerivation (Curve.numbers.geTobytes 56) (Curve.scalarOf 3)).getD 0

def sampleReal : Api.Output :=
  let publicKey :=
    (Curve.numbers.derivePublicKey sampleDerivation 0 (Curve.numbers.geTobytes 40)).getD 0
  { amount := 100, publicKey, globalIndex := 2
    keyImage := Curve.numbers.generateKeyImage publicKey
      (Curve.numbers.deriveSecretKey sampleDerivation 0 (Curve.scalarOf 5))
    transactionPublicKey := Curve.numbers.geTobytes 56, address := "own" }

def sampleOthers : List Api.Output :=
  [{ amount := 100, publicKey := Curve.numbers.geTobytes 88, globalIndex := 5 },
    { amount := 100, publicKey := Curve.numbers.geTobytes 16, globalIndex := 1 }]

/-- One input with a ring of three, and one output to the same account. -/
def sampleBuilder : TransactionBuilder :=
  (((make 1 0).addOutput 90 sampleKeys.address).addInput Curve.numbers sampleKeys sampleReal
    sampleOthers).toOption.getD {}

/-- A node that knows the three outputs. -/
def sampleReads : StateReads where
  readKeyimage _ := none
  nextGlobalIndexForAmount _ := 6
  readAmountOutput _ index := ((sampleReal :: sampleOthers).find? fun out ↦
    out.globalIndex = index).map fun out ↦ { publicKey := out.publicKey }

/-- What is computed of the sample, at once. -/
theorem sample_facts :
    Curve.numbers.secretKeyToPublicKey sampleKeys.spendSecretKey = some sampleKeys.address.2 ∧
    Curve.numbers.generateKeyDerivation sampleReal.transactionPublicKey sampleKeys.viewSecretKey =
      some sampleDerivation ∧
    Curve.numbers.derivePublicKey sampleDerivation sampleReal.indexInTransaction.toNat
      sampleKeys.address.2 = some sampleReal.publicKey ∧
    generateKeyImageHelper Curve.numbers sampleKeys sampleReal.transactionPublicKey
      sampleReal.indexInTransaction.toNat =
        some (⟨sampleReal.publicKey, Curve.numbers.deriveSecretKey sampleDerivation 0
          (Curve.scalarOf 5)⟩, sampleReal.keyImage) ∧
    (∀ out ∈ sampleOthers, out.amount = 100 ∧ Curve.numbers.keyIsvalid out.publicKey = true) ∧
    Curve.numbers.keyIsvalid sampleKeys.address.1 = true ∧
    Curve.numbers.keyIsvalid sampleKeys.address.2 = true ∧
    (∀ out ∈ sampleReal :: sampleOthers, sampleReads.readAmountOutput out.amount out.globalIndex =
      some { publicKey := out.publicKey }) ∧
    mainnet.isTransactionSpendTimeUnlocked 0 100 1000 = true := by
  decide +kernel

theorem owned_sampleReal : Owned Curve.numbers sampleKeys sampleReal := by
  obtain ⟨hspend, hderivation, hderived, -⟩ := sample_facts
  exact ⟨hspend, sampleDerivation, hderivation, hderived⟩

theorem addInput_sampleReal (b : TransactionBuilder) {mixOutputs : List Api.Output}
    (hamounts : ∀ out ∈ mixOutputs, out.amount = 100) :
    ∃ b', b.addInput Curve.numbers sampleKeys sampleReal mixOutputs = .ok b' := by
  obtain ⟨-, -, -, hhelper, -⟩ := sample_facts
  exact addInput_eq_ok hhelper hamounts b

theorem sampleOthers_valid :
    ∀ out ∈ sampleOthers, Curve.numbers.keyIsvalid out.publicKey = true := by
  obtain ⟨-, -, -, -, hothers, -⟩ := sample_facts
  exact fun out hout ↦ (hothers out hout).2

theorem addInput_sampleBuilder :
    ((make 1 0).addOutput 90 sampleKeys.address).addInput Curve.numbers sampleKeys sampleReal
      sampleOthers = .ok sampleBuilder := by
  obtain ⟨-, -, -, -, hothers, -⟩ := sample_facts
  obtain ⟨b, hadded⟩ := addInput_sampleReal ((make 1 0).addOutput 90 sampleKeys.address)
    fun out hout ↦ (hothers out hout).1
  rw [sampleBuilder, hadded]
  rfl

theorem built_sampleBuilder : Built Curve.numbers sampleBuilder := by
  obtain ⟨-, -, -, -, -, hview, hspend, -⟩ := sample_facts
  exact .addInput (.addOutput (.make 1 0) hview hspend) owned_sampleReal sampleOthers_valid
    addInput_sampleBuilder

theorem known_sampleBuilder :
    ∀ desc ∈ sampleBuilder.inputDescs, ∀ out ∈ desc.outputs,
      Known mainnet sampleReads 100 1000 out := by
  obtain ⟨desc, -, houtputs, hb⟩ := signable_of_addInput owned_sampleReal sampleOthers_valid
    addInput_sampleBuilder
  obtain ⟨-, -, -, -, -, -, -, hknown, hunlocked⟩ := sample_facts
  intro desc' hdesc' out hout
  rw [hb] at hdesc'
  obtain rfl := List.mem_singleton.1 (show desc' ∈ [desc] from hdesc')
  rw [houtputs] at hout
  exact ⟨_, hknown out (List.mem_cons.2 (mem_ring.1 hout)), rfl, hunlocked⟩

theorem signaturesValid_sign_sampleBuilder :
    ∃ tx args, sign Curve.numbers id id (fun _ _ ↦ []) sampleBuilder 9 = .ok tx ∧
      startWorkGetError (Curve.numbers.crypto (fun _ ↦ 0) fun _ ↦ 0) mainnet sampleReads 100 1000
        [tx] = .ok args ∧
      signaturesValid (Curve.numbers.crypto (fun _ ↦ 0) fun _ ↦ 0) args = true :=
  built_sampleBuilder.signaturesValid_sign (fun _ ↦ .refl _) (fun _ ↦ .refl _) (fun _ _ ↦ []) 9
    mainnet (fun _ ↦ 0) (fun _ ↦ 0) (fun _ _ ↦ rfl) known_sampleBuilder

/-! ## What the receiver says -/

theorem getElem?_spendKeys {f : AccountPublicAddress → String} {tx : TransactionPrefix}
    {viewSecretKey : SecretKey} {derivation : KeyDerivation}
    (hderivation : cv.generateKeyDerivation (getTransactionPublicKeyFromExtra tx.extra)
      viewSecretKey = some derivation) {k : ℕ} {output : TransactionOutput}
    (houtput : tx.outputs[k]? = some output) :
    (PreparedWalletTransaction.make (cv.walletCrypto f) tx viewSecretKey).spendKeys[k]? =
      some ((cv.underivePublicKey derivation k output.key).getD 0) := by
  have hmake : PreparedWalletTransaction.make (cv.walletCrypto f) tx viewSecretKey =
      { tx, derivation
        spendKeys := tx.outputs.mapIdx fun keyIndex output ↦
          (cv.underivePublicKey derivation keyIndex output.key).getD 0 } := by
    rw [PreparedWalletTransaction.make]
    change (match cv.generateKeyDerivation _ _ with | none => _ | some _ => _) = _
    rw [hderivation]
    rfl
  rw [hmake, List.getElem?_mapIdx, houtput]
  rfl

theorem map_amount_zipWith {descs : List OutputDesc} {keys : List PublicKey}
    (hlength : keys.length = descs.length) :
    (List.zipWith (fun desc key ↦ (⟨desc.amount, .keyOutput ⟨key⟩⟩ : TransactionOutput)) descs
      keys).map TransactionOutput.amount = descs.map OutputDesc.amount := by
  induction descs generalizing keys with
  | nil => rfl
  | cons desc descs ih =>
    obtain ⟨key, keys, rfl⟩ := List.exists_cons_of_length_eq_add_one hlength
    rw [List.zipWith_cons_cons, List.map_cons, List.map_cons, ih (Nat.succ.inj hlength)]

/-- The receiver finds the outputs that the builder made for its address, and can spend them. -/
theorem Built.received_sign [DecidableEq P] {b : TransactionBuilder} (h : Built cv b)
    {shuffleOutputs : List OutputDesc → List OutputDesc}
    {shuffleInputs : List InputDesc → List InputDesc}
    (hshuffleOutputs : ∀ descs, (shuffleOutputs descs).Perm descs)
    (hshuffleInputs : ∀ descs, (shuffleInputs descs).Perm descs) (draws : ℕ → ℕ → Bytes)
    (seed : Hash) (f : AccountPublicAddress → String) (hcount : b.outputDescs.length < 2 ^ 32) :
    ∃ (tx : Transaction) (outputDescs : List OutputDesc),
      sign cv shuffleOutputs shuffleInputs draws b seed = .ok tx ∧
      outputDescs.Perm b.outputDescs ∧
      tx.outputs.map TransactionOutput.amount = outputDescs.map OutputDesc.amount ∧
      ∀ k desc output, outputDescs[k]? = some desc → tx.outputs[k]? = some output →
        ∀ keys : AccountKeys, keys.address = desc.addr →
          cv.secretKeyToPublicKey keys.viewSecretKey = some desc.addr.1 →
          cv.secretKeyToPublicKey keys.spendSecretKey = some desc.addr.2 →
          (PreparedWalletTransaction.make (cv.walletCrypto f) tx.toTransactionPrefix
            keys.viewSecretKey).spendKeys[k]? = some desc.addr.2 ∧
          ∀ globalIndex blockHeight, Owned cv keys (WalletState.recordedOutput
            tx.toTransactionPrefix output k globalIndex blockHeight) := by
  obtain ⟨tx, inputDescs, outputDescs, hsign, hsigned⟩ := h.ready.sign hshuffleOutputs
    hshuffleInputs draws seed
  obtain ⟨keys, hlength, houtputs, hderived⟩ := hsigned.outputs
  refine ⟨tx, outputDescs, hsign, hsigned.outputPerm, ?_, ?_⟩
  · rw [houtputs, map_amount_zipWith hlength]
  · intro k desc output hdesc houtput account haddress hview hspend
    rw [houtputs, List.getElem?_zipWith, hdesc] at houtput
    obtain ⟨key, hkey, rfl⟩ : ∃ key, keys[k]? = some key ∧
        output = ⟨desc.amount, .keyOutput ⟨key⟩⟩ := by
      cases hkey : keys[k]? with
      | none => simp [hkey] at houtput
      | some key => exact ⟨key, rfl, by simpa [hkey] using houtput.symm⟩
    obtain ⟨derivation, hderivation, hderive⟩ :=
      Option.bind_eq_some_iff.1 (hderived k desc key hdesc hkey)
    rw [Curve.generateKeyDerivation_comm hsigned.publicKey hview] at hderivation
    have hk : (UInt32.ofNat k).toNat = k := by
      have hlt := (List.getElem?_eq_some_iff.1 hdesc).1
      rw [hsigned.outputPerm.length_eq] at hlt
      exact UInt32.toNat_ofNat_of_lt' (hlt.trans hcount)
    refine ⟨?_, fun globalIndex blockHeight ↦
      ⟨by rw [haddress]; exact hspend, derivation, hderivation, ?_⟩⟩
    · have houtput' : tx.outputs[k]? = some ⟨desc.amount, .keyOutput ⟨key⟩⟩ := by
        rw [houtputs, List.getElem?_zipWith, hdesc, hkey]
      rw [getElem?_spendKeys hderivation houtput',
        show TransactionOutput.key ⟨desc.amount, .keyOutput ⟨key⟩⟩ = key from rfl,
        Curve.underivePublicKey_eq_some_iff.2 hderive, Option.getD_some]
    · rw [haddress]
      change cv.derivePublicKey derivation (UInt32.ofNat k).toNat desc.addr.2 = some key
      rw [hk]
      exact hderive

theorem received_sign_sampleBuilder :
    ∃ (tx : Transaction) (outputDescs : List OutputDesc),
      sign Curve.numbers id id (fun _ _ ↦ []) sampleBuilder 9 = .ok tx ∧
      outputDescs.Perm sampleBuilder.outputDescs ∧
      tx.outputs.map TransactionOutput.amount = outputDescs.map OutputDesc.amount ∧
      ∀ k desc output, outputDescs[k]? = some desc → tx.outputs[k]? = some output →
        ∀ keys : AccountKeys, keys.address = desc.addr →
          Curve.numbers.secretKeyToPublicKey keys.viewSecretKey = some desc.addr.1 →
          Curve.numbers.secretKeyToPublicKey keys.spendSecretKey = some desc.addr.2 →
          (PreparedWalletTransaction.make (Curve.numbers.walletCrypto fun _ ↦ "own")
            tx.toTransactionPrefix keys.viewSecretKey).spendKeys[k]? = some desc.addr.2 ∧
          ∀ globalIndex blockHeight, Owned Curve.numbers keys (WalletState.recordedOutput
            tx.toTransactionPrefix output k globalIndex blockHeight) :=
  built_sampleBuilder.received_sign (fun _ ↦ .refl _) (fun _ ↦ .refl _) (fun _ _ ↦ []) 9
    (fun _ ↦ "own") (by
      obtain ⟨desc, -, -, hb⟩ := signable_of_addInput owned_sampleReal sampleOthers_valid
        addInput_sampleBuilder
      have hone : (1 : ℕ) < 2 ^ 32 := by decide
      rw [hb]
      exact hone)

/-- An output that the wallet has recorded as its own with a key image is the account's, and
`add_input` throws for it only where other outputs have other amounts. -/
theorem addInput_recorded {keys : AccountKeys} {f : AccountPublicAddress → String}
    {tx : TransactionPrefix} {k : ℕ} {output : TransactionOutput} {ephemeral : PublicKey}
    (houtput : tx.outputs[k]? = some output) (hk : k < 2 ^ 32)
    (hspend : (PreparedWalletTransaction.make (cv.walletCrypto f) tx
      keys.viewSecretKey).spendKeys[k]? = some keys.address.2)
    (hne : keys.address.2 ≠ 0)
    (hsecret : cv.secretKeyToPublicKey keys.spendSecretKey = some keys.address.2)
    (hephemeral : cv.derivePublicKey (PreparedWalletTransaction.make (cv.walletCrypto f) tx
      keys.viewSecretKey).derivation k keys.address.2 = some ephemeral)
    (b : TransactionBuilder) (globalIndex : UInt32) (blockHeight : Height) (address : String)
    {mixOutputs : List Api.Output} (hamounts : ∀ out ∈ mixOutputs, out.amount = output.amount) :
    let real := { WalletState.recordedOutput tx output k globalIndex blockHeight with
      keyImage := cv.generateKeyImage ephemeral (cv.deriveSecretKey
        (PreparedWalletTransaction.make (cv.walletCrypto f) tx keys.viewSecretKey).derivation k
          keys.spendSecretKey)
      address }
    Owned cv keys real ∧ ∃ b', b.addInput cv keys real mixOutputs = .ok b' := by
  intro real
  cases hderivation : cv.generateKeyDerivation (getTransactionPublicKeyFromExtra tx.extra)
    keys.viewSecretKey with
  | none =>
    rw [PreparedWalletTransaction.make,
      show (cv.walletCrypto f).generateKeyDerivation = cv.generateKeyDerivation from rfl,
      hderivation] at hspend
    cases hspend
  | some derivation =>
    have hmake : (PreparedWalletTransaction.make (cv.walletCrypto f) tx
        keys.viewSecretKey).derivation = derivation := by
      rw [PreparedWalletTransaction.make,
        show (cv.walletCrypto f).generateKeyDerivation = cv.generateKeyDerivation from rfl,
        hderivation]
    have hunderive : cv.underivePublicKey derivation k output.key = some keys.address.2 := by
      rw [getElem?_spendKeys hderivation houtput, Option.some_inj] at hspend
      cases hkey : cv.underivePublicKey derivation k output.key with
      | none => exact absurd (by rw [← hspend, hkey]; rfl) hne
      | some key => rw [hkey, Option.getD_some] at hspend; rw [hspend]
    have hderive := Curve.underivePublicKey_eq_some_iff.1 hunderive
    rw [hmake, hderive] at hephemeral
    obtain rfl := Option.some.inj hephemeral
    have hk' : (UInt32.ofNat k).toNat = k := UInt32.toNat_ofNat_of_lt' hk
    have hreal : real.indexInTransaction.toNat = k := hk'
    refine ⟨⟨hsecret, derivation, hderivation, by rw [hreal]; exact hderive⟩, ?_⟩
    have hhelper : generateKeyImageHelper cv keys real.transactionPublicKey
        real.indexInTransaction.toNat =
          some (⟨output.key, cv.deriveSecretKey derivation k keys.spendSecretKey⟩,
            real.keyImage) := by
      rw [hreal, generateKeyImageHelper,
        show real.transactionPublicKey = getTransactionPublicKeyFromExtra tx.extra from rfl,
        hderivation]
      simp only [Option.bind_eq_bind, Option.bind_some, hderive]
      simp only [real, hmake]
      rfl
    exact addInput_eq_ok hhelper hamounts b

/-- The output of a transaction with the key of the sample. -/
theorem addInput_recorded_sampleReal :
    let tx : TransactionPrefix := {
      extra := addTransactionPublicKeyToExtra [] (Curve.numbers.geTobytes 56)
      outputs := [⟨100, .keyOutput ⟨sampleReal.publicKey⟩⟩] }
    let real := { WalletState.recordedOutput tx ⟨100, .keyOutput ⟨sampleReal.publicKey⟩⟩ 0 2 7 with
      keyImage := Curve.numbers.generateKeyImage sampleReal.publicKey
        (Curve.numbers.deriveSecretKey (PreparedWalletTransaction.make
          (Curve.numbers.walletCrypto fun _ ↦ "own") tx sampleKeys.viewSecretKey).derivation 0
          sampleKeys.spendSecretKey)
      address := "own" }
    Owned Curve.numbers sampleKeys real ∧
      ∃ b', (make 1 0).addInput Curve.numbers sampleKeys real sampleOthers = .ok b' :=
  addInput_recorded (by decide +kernel) (by decide +kernel) (by decide +kernel)
    (by decide +kernel) (by decide +kernel) (by decide +kernel) _ _ _ _ (by decide +kernel)

end TransactionBuilder

end Naza
