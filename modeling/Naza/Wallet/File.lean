import Naza.Codec
import Naza.Wallet.Redo

/-!
# The wallet file

The keys of a wallet in memory and in its file, and the operations that change both.  The file
system does what it is asked to; the cipher and the curve operations are parameters, random numbers
are inputs.  Files of the legacy format are left out.
-/

open Lib

namespace Naza

/-! ## Data -/

abbrev WalletKey := Pod32
abbrev ChachaIv := UInt64

/-- The primitives that the wallet file rests on. -/
structure WalletFileCrypto where
  generateChacha8Key : String → WalletKey
  chacha8 : WalletKey → ChachaIv → BinaryArray → BinaryArray
  secretKeyToPublicKey : SecretKey → Option PublicKey
  keyIsvalid : PublicKey → Bool

/-- `keys_match`. -/
def WalletFileCrypto.keysMatch (K : WalletFileCrypto) (sk : SecretKey) (pk : PublicKey) : Bool :=
  K.secretKeyToPublicKey sk = some pk

/-- What `random_keypair` draws: a secret key and its public key.  That the key is zero, which
happens with probability about `2 ^ (-252)`, is left out. -/
structure Keypair (K : WalletFileCrypto) where
  publicKey : PublicKey
  secretKey : SecretKey
  matching : K.secretKeyToPublicKey secretKey = some publicKey
  ne_zero : secretKey ≠ 0

structure EncryptedWalletRecord where
  iv : ChachaIv := 0
  data : BinaryArray := []
  deriving Inhabited

/-- The parts of a wallet file. -/
structure WalletFile where
  version : UInt8
  encryptedViewKeys : EncryptedWalletRecord
  itemCapacity : ℕ
  itemCount : ℕ
  records : List EncryptedWalletRecord

/-- Why an operation of the wallet ended: an exception with its code, a file that ends early, or a
search for a new random key that does not end. -/
inductive WalletError where
  | exception (returnCode : ℕ) (what : String)
  | stream
  | diverged
  deriving DecidableEq, Inhabited

/-- The codes of exceptions. -/
def Api.walletFileUnknownVersion : ℕ := 206
def Api.walletFileDecryptError : ℕ := 207
def Api.walletFileWriteError : ℕ := 208

structure Wallet where
  password : String := ""
  walletKey : WalletKey := 0
  viewPublicKey : PublicKey := 0
  viewSecretKey : SecretKey := 0
  firstRecord : WalletRecord := {}
  records : Store PublicKey WalletRecord := ∅
  oldestTimestamp : Timestamp := 0xFFFFFFFF
  file : Option WalletFile := none

/-- `SERIALIZATION_VERSION_V2`. -/
def serializationVersionV2 : UInt8 := 6

/-- `CHECK_KEYS_COUNT`. -/
def checkKeysCount : ℕ := 100

variable (K : WalletFileCrypto)

/-- `encrypt_key_pair`. -/
def encryptKeyPair (iv : ChachaIv) (pk : PublicKey) (sk : SecretKey) (ct : Timestamp)
    (key : WalletKey) : EncryptedWalletRecord where
  iv
  data := K.chacha8 key iv (Seria.podBytes pk ++ (Seria.podBytes sk ++ natToBytes 8 ct.toNat))

/-- `decrypt_key_pair`. -/
def decryptKeyPair (r : EncryptedWalletRecord) (key : WalletKey) : WalletRecord :=
  let plain := K.chacha8 key r.iv r.data
  { spendPublicKey := Seria.podOfBytes (plain.take 32)
    spendSecretKey := Seria.podOfBytes ((plain.drop 32).take 32)
    creationTimestamp := UInt32.ofNat (bytesToNat ((plain.drop 64).take 8)) }

/-- A record as it is written. -/
def encryptRecord (iv : ChachaIv) (rec : WalletRecord) (key : WalletKey) : EncryptedWalletRecord :=
  encryptKeyPair K iv rec.spendPublicKey rec.spendSecretKey rec.creationTimestamp key

namespace Wallet

/-! ## Loading -/

/-- `is_view_only`. -/
def isViewOnly (w : Wallet) : Bool := w.firstRecord.spendSecretKey = 0

/-- `insert` of a record: a record with the same key stays. -/
def insertRecord (rec : WalletRecord) (w : Wallet) : Wallet :=
  match w.records.get rec.spendPublicKey with
  | some _ => w
  | none => { w with records := w.records.put rec.spendPublicKey rec }

/-- One record of the file. -/
def loadRecord (itemCount : ℕ) (w : Wallet) (i : ℕ) (encrypted : EncryptedWalletRecord) :
    Except WalletError Wallet := do
  let record := decryptKeyPair K encrypted w.walletKey
  let w := if i = 0 then { w with firstRecord := record } else w
  if w.isViewOnly ≠ decide (record.spendSecretKey = 0) then
    .error (.exception Api.walletFileDecryptError "All addresses must be either tracking or not")
  else do
    if i < checkKeysCount ∨ checkKeysCount ≤ itemCount ∧ itemCount - checkKeysCount ≤ i then
      if record.spendSecretKey ≠ 0 then
        if K.keysMatch record.spendSecretKey record.spendPublicKey = false then
          .error (.exception Api.walletFileDecryptError
            "Restored spend public key doesn't correspond to secret key")
      else if K.keyIsvalid record.spendPublicKey = false then
        .error (.exception Api.walletFileDecryptError "Public spend key is incorrect")
    return insertRecord record
      { w with oldestTimestamp := min w.oldestTimestamp record.creationTimestamp }

/-- `load_container_storage`. -/
def loadContainerStorage (file : WalletFile) (w : Wallet) : Except WalletError Wallet :=
  if file.version < serializationVersionV2 then
    .error (.exception Api.walletFileDecryptError "Wallet version too old")
  else
    let view := decryptKeyPair K file.encryptedViewKeys w.walletKey
    let w := { w with viewPublicKey := view.spendPublicKey, viewSecretKey := view.spendSecretKey }
    if K.keysMatch w.viewSecretKey w.viewPublicKey = false then
      .error (.exception Api.walletFileDecryptError
        "Restored view public key doesn't correspond to secret key")
    else
      let itemCount := min file.itemCount file.itemCapacity
      if file.records.length < itemCount then .error .stream
      else (file.records.take itemCount).zipIdx.foldlM
        (fun w (encrypted, i) ↦ loadRecord K itemCount w i encrypted) w

/-- The end of the constructor: the file is loaded into the wallet. -/
def openFile (file : WalletFile) (w : Wallet) : Except WalletError Wallet := do
  if serializationVersionV2 < file.version then
    .error (.exception Api.walletFileUnknownVersion "Unknown version")
  else do
    let w ← w.loadContainerStorage K file
    if w.records.toList = [] then
      .error (.exception Api.walletFileDecryptError "Error reading wallet file")
    else return { w with file := some file }

/-! ## Saving -/

/-- `save`: the first record leads. -/
def save (ivs : ℕ → ChachaIv) (viewOnly : Bool) (w : Wallet) : WalletFile :=
  let stored (rec : WalletRecord) : WalletRecord :=
    { rec with spendSecretKey := if viewOnly then 0 else rec.spendSecretKey }
  let others := (w.records.toList.map Prod.snd).filter fun rec ↦
    rec.spendPublicKey ≠ w.firstRecord.spendPublicKey
  { version := serializationVersionV2
    encryptedViewKeys :=
      encryptKeyPair K (ivs 0) w.viewPublicKey w.viewSecretKey w.oldestTimestamp w.walletKey
    itemCapacity := w.records.toList.length
    itemCount := w.records.toList.length
    records := (w.firstRecord :: others).mapIdx fun i rec ↦
      encryptRecord K (ivs (i + 1)) (stored rec) w.walletKey }

/-- `operator==`. -/
def same (w other : Wallet) : Bool :=
  w.viewPublicKey = other.viewPublicKey ∧ w.viewSecretKey = other.viewSecretKey ∧
    w.oldestTimestamp = other.oldestTimestamp ∧ w.records.toList = other.records.toList

/-- `save_and_check`. -/
def saveAndCheck (ivs : ℕ → ChachaIv) (w : Wallet) : Except WalletError Wallet := do
  let file := w.save K ivs false
  let other ← openFile K file
    { password := w.password, walletKey := K.generateChacha8Key w.password }
  if w.same other = false then
    .error (.exception Api.walletFileWriteError
      "Error writing wallet file - records do not match")
  else return { w with file := some file }

/-! ## Creating -/

/-- Where the keys of a new wallet come from: drawn, or read from the import string in one of its
two forms. -/
inductive Source (K : WalletFileCrypto) where
  | random (now : Timestamp) (view spend : Keypair K)
  | secretKeys (spendSecretKey viewSecretKey : SecretKey)
  | keyPairs (spendPublicKey viewPublicKey : PublicKey) (spendSecretKey viewSecretKey : SecretKey)

/-- A wallet from imported keys. -/
def ofImported (password : String) (rec : WalletRecord) (viewPublicKey : PublicKey)
    (viewSecretKey : SecretKey) : Except WalletError Wallet :=
  if K.keysMatch viewSecretKey viewPublicKey = false then
    .error (.exception Api.walletFileDecryptError
      "Imported secret view key does not match corresponding public key")
  else if rec.spendSecretKey ≠ 0 ∧ K.keysMatch rec.spendSecretKey rec.spendPublicKey = false then
    .error (.exception Api.walletFileDecryptError
      "Imported secret spend key does not match corresponding public key")
  else .ok {
    password, walletKey := K.generateChacha8Key password, viewPublicKey, viewSecretKey
    firstRecord := rec
    records := (∅ : Store PublicKey WalletRecord).put rec.spendPublicKey rec
    oldestTimestamp := 0 }

/-- The keys of a new wallet. -/
def ofSource (password : String) : Source K → Except WalletError Wallet
  | .random now view spend =>
    let first : WalletRecord := {
      spendPublicKey := spend.publicKey
      spendSecretKey := spend.secretKey
      creationTimestamp := now }
    .ok {
      password, walletKey := K.generateChacha8Key password
      viewPublicKey := view.publicKey
      viewSecretKey := view.secretKey
      firstRecord := first
      records := (∅ : Store PublicKey WalletRecord).put first.spendPublicKey first
      oldestTimestamp := now }
  | .secretKeys spendSecretKey viewSecretKey =>
    ofImported K password
      { spendPublicKey := (K.secretKeyToPublicKey spendSecretKey).getD 0, spendSecretKey }
      ((K.secretKeyToPublicKey viewSecretKey).getD 0) viewSecretKey
  | .keyPairs spendPublicKey viewPublicKey spendSecretKey viewSecretKey =>
    ofImported K password { spendPublicKey, spendSecretKey } viewPublicKey viewSecretKey

/-- The constructor that creates a wallet: it is saved, and its file loaded once more. -/
def create (password : String) (source : Source K) (ivs : ℕ → ChachaIv) :
    Except WalletError Wallet := do
  let w ← ofSource K password source
  let w ← w.saveAndCheck K ivs
  match w.file with
  | some file => w.openFile K file
  | none => .error .stream

/-! ## Changing -/

/-- `generate_new_addresses` between two keys of its list. -/
structure Generating (K : WalletFileCrypto) where
  wallet : Wallet
  file : WalletFile
  /-- the record of the file that is written next -/
  position : ℕ
  result : List WalletRecord := []
  rescanFromCt : Bool := false
  draws : List (Keypair K)

/-- The first random key that the wallet does not have, and the draws behind it. -/
def drawNew (w : Wallet) : List (Keypair K) → Option (Keypair K × List (Keypair K))
  | [] => none
  | keys :: draws =>
    if w.records.get keys.publicKey = none then some (keys, draws) else w.drawNew draws

/-- The record for one key of the list, and whether it was drawn. -/
def newRecord (ct now : Timestamp) (sk : SecretKey) (g : Generating K) :
    Except WalletError (WalletRecord × Generating K) :=
  if sk = 0 then
    match g.wallet.drawNew K g.draws with
    | none => .error .diverged
    | some (keys, draws) => .ok ({
        spendPublicKey := keys.publicKey
        spendSecretKey := keys.secretKey
        creationTimestamp := now },
      { g with
        draws
        wallet := { g.wallet with oldestTimestamp := min g.wallet.oldestTimestamp now } })
  else
    match K.secretKeyToPublicKey sk with
    | none => .error (.exception 101 "Imported keypair is invalid")
    | some spendPublicKey =>
      .ok ({ spendPublicKey, spendSecretKey := sk, creationTimestamp := ct }, g)

/-- A record put over what the file has at a position. -/
def WalletFile.writeAt (position : ℕ) (encrypted : EncryptedWalletRecord) (file : WalletFile) :
    WalletFile :=
  { file with
    records := file.records.take position ++ encrypted :: file.records.drop (position + 1) }

/-- The record taken over: a known key is only made older, a new one appended. -/
def takeRecord (iv : ChachaIv) (rec : WalletRecord) (g : Generating K) : Generating K :=
  let w := g.wallet
  let w := if w.firstRecord.spendPublicKey = rec.spendPublicKey ∧
      rec.creationTimestamp < w.firstRecord.creationTimestamp then
    { w with firstRecord := { w.firstRecord with creationTimestamp := rec.creationTimestamp } }
    else w
  match w.records.get rec.spendPublicKey with
  | some old =>
    if rec.creationTimestamp < old.creationTimestamp then
      let old := { old with creationTimestamp := rec.creationTimestamp }
      { g with
        wallet := { w with
          records := w.records.put rec.spendPublicKey old
          oldestTimestamp := min w.oldestTimestamp rec.creationTimestamp }
        rescanFromCt := true
        result := g.result ++ [old] }
    else { g with wallet := w, result := g.result ++ [old] }
  | none =>
    { g with
      wallet := { w with records := w.records.put rec.spendPublicKey rec }
      file := WalletFile.writeAt g.position (encryptRecord K iv rec w.walletKey) g.file
      position := g.position + 1
      result := g.result ++ [rec] }

/-- The loop over the list: where it is left by an exception, what was done stays done. -/
def generateLoop (ct now : Timestamp) (ivs : ℕ → ChachaIv) :
    List SecretKey → Generating K → Option WalletError × Generating K
  | [], g => (none, g)
  | sk :: sks, g =>
    match newRecord K ct now sk g with
    | .error e => (some e, g)
    | .ok (rec, g) => generateLoop ct now ivs sks (takeRecord K (ivs g.position) rec g)

/-- The end of `generate_new_addresses`: the number of records is written, and where a known key
became older the whole file. -/
def finishGenerating (ivs : ℕ → ChachaIv) : Option WalletError × Generating K →
    Except WalletError (List WalletRecord × Bool) × Wallet
  | (some e, g) => (.error e, { g.wallet with file := some g.file })
  | (none, g) =>
    let itemCount := g.wallet.records.toList.length
    let w := { g.wallet with file := some { g.file with itemCapacity := itemCount, itemCount } }
    if g.rescanFromCt then
      match w.saveAndCheck K ivs with
      | .error e => (.error e, w)
      | .ok w => (.ok (g.result, true), w)
    else (.ok (g.result, false), w)

/-- `generate_new_addresses`: what it returns or throws, and the wallet after it. -/
def generateNewAddresses (sks : List SecretKey) (ct now : Timestamp) (draws : List (Keypair K))
    (ivs : ℕ → ChachaIv) (w : Wallet) :
    Except WalletError (List WalletRecord × Bool) × Wallet :=
  if w.isViewOnly then
    (.error (.exception 101 "Generate new addresses impossible for view-only wallet"), w)
  else
    let opened : Except WalletError (WalletFile × Wallet) := match w.file with
      | some file => .ok (file, w)
      | none => do
        let w ← w.saveAndCheck K ivs
        match w.file with
        | some file => .ok (file, w)
        | none => .error .stream
    match opened with
    | .error e => (.error e, w)
    | .ok (file, w) =>
      finishGenerating K ivs (generateLoop K ct now ivs sks
        { wallet := w, file, position := w.records.toList.length, draws })

/-- A creation timestamp raised to `ts`. -/
def raiseTo (ts : Timestamp) (rec : WalletRecord) : WalletRecord :=
  if rec.creationTimestamp < ts then { rec with creationTimestamp := ts } else rec

/-- `on_first_output_found`. -/
def onFirstOutputFound (ts : Timestamp) (ivs : ℕ → ChachaIv) (w : Wallet) :
    Except WalletError Unit × Wallet :=
  if ts = 0 ∨ ts ≤ w.oldestTimestamp then (.ok (), w)
  else
    let w := { w with
      oldestTimestamp := ts
      firstRecord := raiseTo ts w.firstRecord
      records := w.records.map fun _ rec ↦ raiseTo ts rec }
    match w.saveAndCheck K ivs with
    | .error e => (.error e, w)
    | .ok w => (.ok (), w)

/-- `set_password`. -/
def setPassword (password : String) (ivs : ℕ → ChachaIv) (w : Wallet) :
    Except WalletError Unit × Wallet :=
  let w := { w with password, walletKey := K.generateChacha8Key password }
  match w.saveAndCheck K ivs with
  | .error e => (.error e, w)
  | .ok w => (.ok (), w)

end Wallet

/-! ## Runs -/

/-- What is done with a wallet file. -/
inductive WalletOperation (K : WalletFileCrypto) where
  | generateNewAddresses (sks : List SecretKey) (ct now : Timestamp) (draws : List (Keypair K))
  | onFirstOutputFound (ts : Timestamp)
  | setPassword (password : String)

/-- An operation: the error it ended with, whether it asks for a rescan, and the wallet after it. -/
def WalletOperation.run {K : WalletFileCrypto} (ivs : ℕ → ChachaIv) (w : Wallet) :
    WalletOperation K → Option WalletError × Bool × Wallet
  | .generateNewAddresses sks ct now draws =>
    match w.generateNewAddresses K sks ct now draws ivs with
    | (.ok (_, rescanFromCt), w) => (none, rescanFromCt, w)
    | (.error e, w) => (some e, false, w)
  | .onFirstOutputFound ts =>
    match w.onFirstOutputFound K ts ivs with
    | (.ok (), w) => (none, false, w)
    | (.error e, w) => (some e, false, w)
  | .setPassword password =>
    match w.setPassword K password ivs with
    | (.ok (), w) => (none, false, w)
    | (.error e, w) => (some e, false, w)

/-- The wallets that were created from keys with a spend key, and changed by operations that meet a
condition and end. -/
inductive WalletFileRun (K : WalletFileCrypto) (ok : Wallet → WalletOperation K → Prop) :
    Wallet → Prop where
  | create {password : String} {source : Wallet.Source K} {ivs : ℕ → ChachaIv} {new w : Wallet} :
      Wallet.ofSource K password source = .ok new → new.isViewOnly = false →
        Wallet.create K password source ivs = .ok w → WalletFileRun K ok w
  | step {w w' : Wallet} {op : WalletOperation K} {ivs : ℕ → ChachaIv}
      {failed : Option WalletError} {rescan : Bool} :
      WalletFileRun K ok w → ok w op → op.run ivs w = (failed, rescan, w') →
        failed ≠ some .diverged → WalletFileRun K ok w'

end Naza
