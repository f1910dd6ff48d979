import Naza.Lib.Stream

/-!
# Chain data

The data of `CryptoNote.hpp` and `api::BlockHeader`: hashes and keys, transactions, block
templates, raw blocks and the header records of the block tree.  Fixed-width integers keep their
width, so arithmetic on them wraps as the code's does.  Cryptographic primitives are a parameter.
-/

namespace Naza

abbrev Height := UInt32
abbrev Difficulty := UInt64
abbrev Amount := UInt64
abbrev Timestamp := UInt32
abbrev UnlockMoment := UInt64
abbrev BinaryArray := Lib.Bytes

/-- 32 bytes read as one number, most significant byte first: `std::memcmp` is then `<`. -/
abbrev Pod32 := Fin (2 ^ 256)

abbrev Hash := Pod32
abbrev PublicKey := Pod32
abbrev KeyImage := Pod32

instance instNeZeroPod32 : NeZero (2 ^ 256 : ℕ) := inferInstance
instance instTransOrdPod32 : Std.TransOrd Pod32 := inferInstance
instance instLawfulEqOrdPod32 : Std.LawfulEqOrd Pod32 := inferInstance
instance instLawfulBEqPod32 : LawfulBEq Pod32 := inferInstance

structure Signature where
  c : Pod32 := 0
  r : Pod32 := 0
  deriving DecidableEq, Inhabited

/-! ## Transactions -/

structure CoinbaseInput where
  blockIndex : Height := 0
  deriving DecidableEq, Inhabited

structure KeyInput where
  amount : Amount := 0
  outputIndexes : List UInt32 := []
  keyImage : KeyImage := 0
  deriving DecidableEq, Inhabited

structure KeyOutput where
  key : PublicKey := 0
  deriving DecidableEq, Inhabited

inductive TransactionInput where
  | coinbaseInput (input : CoinbaseInput)
  | keyInput (input : KeyInput)
  deriving DecidableEq

instance : Inhabited TransactionInput := ⟨.coinbaseInput {}⟩

/-- A variant with a single alternative, so that no output has an unknown type. -/
inductive TransactionOutputTarget where
  | keyOutput (output : KeyOutput)
  deriving DecidableEq

instance : Inhabited TransactionOutputTarget := ⟨.keyOutput {}⟩

structure TransactionOutput where
  amount : Amount := 0
  target : TransactionOutputTarget := default
  deriving DecidableEq, Inhabited

structure TransactionPrefix where
  version : UInt8 := 0
  unlockTime : UnlockMoment := 0
  inputs : List TransactionInput := []
  outputs : List TransactionOutput := []
  extra : BinaryArray := []
  deriving DecidableEq, Inhabited

structure Transaction extends TransactionPrefix where
  signatures : List (List Signature) := []
  deriving DecidableEq, Inhabited

/-- The coinbase of a merge-mined parent chain. -/
abbrev BaseTransaction := TransactionPrefix

/-- The key inputs of a transaction, in input order. -/
def TransactionPrefix.keyInputs (tx : TransactionPrefix) : List KeyInput :=
  tx.inputs.filterMap fun
    | .coinbaseInput _ => none
    | .keyInput input => some input

/-- The key images a transaction spends. -/
def TransactionPrefix.keyImages (tx : TransactionPrefix) : List KeyImage :=
  tx.keyInputs.map KeyInput.keyImage

/-- The key of an output. -/
def TransactionOutput.key (output : TransactionOutput) : PublicKey :=
  match output.target with
  | .keyOutput target => target.key

/-! ## Blocks -/

structure ParentBlock where
  majorVersion : UInt8 := 0
  minorVersion : UInt8 := 0
  previousBlockHash : Hash := 0
  transactionCount : UInt16 := 0
  baseTransactionBranch : List Hash := []
  baseTransaction : BaseTransaction := {}
  blockchainBranch : List Hash := []
  deriving DecidableEq, Inhabited

structure BlockHeader where
  majorVersion : UInt8 := 0
  minorVersion : UInt8 := 0
  nonce : UInt32 := 0
  timestamp : Timestamp := 0
  previousBlockHash : Hash := 0
  deriving DecidableEq, Inhabited

structure BlockTemplate extends BlockHeader where
  parentBlock : ParentBlock := {}
  baseTransaction : Transaction := {}
  transactionHashes : List Hash := []
  deriving DecidableEq, Inhabited

/-- A block as it travels and is stored: the template's bytes and each transaction's bytes. -/
structure RawBlock where
  block : BinaryArray := []
  transactions : List BinaryArray := []
  deriving DecidableEq, Inhabited

/-- The vectors of the raw block are no larger than `max_size` of a `std::vector`. -/
def RawBlock.FitsMemory (raw : RawBlock) : Prop :=
  raw.block.length < 2 ^ 63 ∧ 24 * raw.transactions.length < 2 ^ 63 ∧
    ∀ tx ∈ raw.transactions, tx.length < 2 ^ 63

instance (raw : RawBlock) : Decidable raw.FitsMemory :=
  inferInstanceAs (Decidable (_ ∧ _ ∧ _))

/-- A raw block that can be in memory. -/
abbrev SizedRawBlock := { raw : RawBlock // raw.FitsMemory }

structure Block where
  header : BlockTemplate := {}
  transactions : List Transaction := []
  deriving DecidableEq, Inhabited

/-- A node of the block tree, as kept in the header table. -/
structure Api.BlockHeader where
  majorVersion : UInt8 := 0
  minorVersion : UInt8 := 0
  timestamp : Timestamp := 0
  previousBlockHash : Hash := 0
  nonce : UInt32 := 0
  height : Height := 0
  hash : Hash := 0
  reward : Amount := 0
  cumulativeDifficulty : Difficulty := 0
  difficulty : Difficulty := 0
  baseReward : Amount := 0
  blockSize : UInt32 := 0
  transactionsCumulativeSize : UInt32 := 0
  alreadyGeneratedCoins : Amount := 0
  alreadyGeneratedTransactions : UInt64 := 0
  sizeMedian : UInt32 := 0
  effectiveSizeMedian : UInt32 := 0
  timestampMedian : Timestamp := 0
  totalFeeAmount : Amount := 0
  deriving DecidableEq, Inhabited

/-! ## Cryptographic primitives -/

/-- What `check_ring_signature` reports: acceptance, a bad signature, or a ring member that is no
curve point. -/
inductive RingCheck where
  | valid
  | invalid
  | corrupted
  deriving DecidableEq, Inhabited

/-- The primitives of `src/crypto` that validation calls. -/
structure Crypto where
  cnFastHash : BinaryArray → Hash
  cnSlowHash : BinaryArray → Hash
  cnLiteSlowHashV1 : BinaryArray → Hash
  keyIsvalid : PublicKey → Bool
  checkRingSignature : Hash → KeyImage → List PublicKey → List Signature → RingCheck

/-! ## Failures -/

/-- Why a call ended in an exception. -/
inductive Fault where
  /-- an `invariant` failed, with its text -/
  | invariant (text : String)
  /-- a write or erase with `nooverwrite` or `mustexist` set was refused by the database -/
  | database
  /-- `at` on a container that lacks the element -/
  | outOfRange
  /-- a serializer threw -/
  | serialization
  /-- the exception of `get_block_long_hash` -/
  | unknownVersion
  /-- an integer division by zero -/
  | divisionByZero
  /-- a loop of the code that did not end within its bound -/
  | diverged
  deriving DecidableEq, Inhabited

/-- The `invariant` macro. -/
def invariant (p : Prop) [Decidable p] (text : String) : Except Fault Unit :=
  if p then .ok () else .error (.invariant text)

/-- A value that an `invariant` expects to be there. -/
def expect {α : Type} (x : Option α) (text : String) : Except Fault α :=
  match x with
  | some a => .ok a
  | none => .error (.invariant text)

/-- A serializer's result, where an exception ends the call. -/
def orThrow {α : Type} (x : Option α) : Except Fault α :=
  match x with
  | some a => .ok a
  | none => .error .serialization

@[simp]
theorem invariant_eq_ok_iff {p : Prop} [Decidable p] {text : String} {u : Unit} :
    invariant p text = .ok u ↔ p := by
  unfold invariant
  split <;> simp_all

@[simp]
theorem expect_eq_ok_iff {α : Type} {x : Option α} {text : String} {a : α} :
    expect x text = .ok a ↔ x = some a := by
  cases x <;> simp [expect]

@[simp]
theorem orThrow_eq_ok_iff {α : Type} {x : Option α} {a : α} :
    orThrow x = .ok a ↔ x = some a := by
  cases x <;> simp [orThrow]

/-- A computation that may throw goes on only from a result. -/
theorem bind_eq_ok_iff {ε α β : Type} {x : Except ε α} {f : α → Except ε β} {b : β} :
    (x >>= f) = .ok b ↔ ∃ a, x = .ok a ∧ f a = .ok b := by
  cases x <;> simp [bind, Except.bind]

end Naza
