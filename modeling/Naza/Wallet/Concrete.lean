import Naza.Concrete
import Naza.Wallet.Chain

/-!
# A wallet that can be evaluated

Curve operations for which wallet runs are closed computations, the keys of a wallet with two
addresses, and blocks that pay to them.
-/

open Lib

namespace Naza

/-- The computation returns, and its result passes the test. -/
def yields {ε α : Type} (r : Except ε α) (test : α → Bool) : Bool :=
  match r with
  | .ok a => test a
  | .error _ => false

theorem yields_iff {ε α : Type} {r : Except ε α} {test : α → Bool} :
    yields r test = true ↔ ∃ a, r = .ok a ∧ test a = true := by
  cases r <;> simp [yields]

/-- The derivation is the transaction key, an output key is the sum of the spend key and a mask of
derivation and index, and the key image is the output key. -/
def sampleWalletCrypto : WalletCrypto where
  generateKeyDerivation publicKey _ := some publicKey
  derivePublicKey derivation index spendKey :=
    some (spendKey + derivation * 100 + Fin.ofNat _ index)
  underivePublicKey derivation index key := key - derivation * 100 - Fin.ofNat _ index
  deriveSecretKey derivation index secretKey :=
    secretKey + derivation * 100 + Fin.ofNat _ index
  generateKeyImage publicKey _ := publicKey
  deterministicSecretKey _ seed := seed
  accountAddressAsString address := if address.2 = 5 then "A" else "B"

/-- A wallet with the spend keys 5 and 6. -/
def sampleKeys : WalletKeys where
  records := ((∅ : Store PublicKey WalletRecord).put 5
    { spendPublicKey := 5, spendSecretKey := 5 }).put 6 { spendPublicKey := 6, spendSecretKey := 6 }
  viewPublicKey := 1
  viewSecretKey := 1

/-- A transaction under a transaction key that pays amounts to spend keys. -/
def samplePayment (txKey : PublicKey) (unlockTime : UnlockMoment) (inputs : List KeyInput)
    (outputs : List (Amount × PublicKey)) : TransactionPrefix where
  version := 1
  unlockTime
  inputs := inputs.map .keyInput
  outputs := outputs.mapIdx fun index (amount, spendKey) ↦
    { amount, target := .keyOutput { key := spendKey + txKey * 100 + Fin.ofNat _ index } }
  extra := TransactionExtra.publicKeyTag :: Seria.podBytes txKey

/-- A block whose coinbase and further transactions come with global indices. -/
def sampleWalletBlock (header : Api.BlockHeader) (coinbase : TransactionPrefix)
    (txs : List TransactionPrefix) (globalIndices : List (List UInt32)) : ProcessedBlock where
  keys := sampleKeys
  header
  redone := some
    ({ header := { timestamp := header.timestamp, transactionHashes := txs.mapIdx fun index _ ↦
         header.hash + 1000 + Fin.ofNat _ index }
       baseTransaction := .make sampleWalletCrypto coinbase sampleKeys.viewSecretKey
       baseTransactionHash := header.hash + 999
       transactions := txs.map fun tx ↦ .make sampleWalletCrypto tx sampleKeys.viewSecretKey },
     globalIndices)

/-- A block of a coinbase that pays both addresses. -/
def samplePaidBlock : ProcessedBlock :=
  sampleWalletBlock { hash := 10, timestamp := 100, timestampMedian := 100 }
    (samplePayment 7 0 [] [(5000000, 5), (3, 6)]) [] [[0, 0]]

end Naza
