import Naza.Serialization

/-!
# Hashes of transactions and blocks

The identities of transactions and blocks, Merkle trees, and the hashes of the proof of work.
`none` stands for the exception of a serializer.
-/

open Lib

namespace Naza

open Seria

variable (cr : Crypto)

/-- `get_transaction_hash`. -/
def getTransactionHash (tx : Transaction) : Option Hash :=
  (transactionToBinary tx).map cr.cnFastHash

/-- `get_transaction_prefix_hash`. -/
def getTransactionPrefixHash (tx : TransactionPrefix) : Hash :=
  cr.cnFastHash (transactionPrefixBytes tx)

/-! ## Merkle trees -/

/-- Hash of two adjacent slots. -/
def hashPair (a b : Hash) : Hash := cr.cnFastHash (podBytes a ++ podBytes b)

/-- One level of the tree: adjacent pairs are hashed. -/
def hashPairs : List Hash → List Hash
  | a :: b :: rest => hashPair cr a b :: hashPairs rest
  | _ => []

/-- `tree_hash`: the first level leaves a power of two of slots, the others halve them. -/
def treeHash (hashes : List Hash) : Hash :=
  match hashes with
  | [] => 0
  | [h] => h
  | [a, b] => hashPair cr a b
  | _ =>
    let count := hashes.length
    let cnt := 2 ^ (count - 1).log2
    let ints := hashes.take (2 * cnt - count) ++ hashPairs cr (hashes.drop (2 * cnt - count))
    ((hashPairs cr)^[(count - 1).log2] ints).headD 0

/-- The side on which the branch hash stands at a depth: bit `depth` of the path. -/
def pathBit (path : Option Hash) (depth : ℕ) : Bool :=
  match path with
  | none => false
  | some path => ((podBytes path).getD (depth / 8) 0).toNat.testBit (depth % 8)

/-- `tree_hash_from_branch`, from the deepest branch hash to the root. -/
def treeHashFromBranch (branch : List Hash) (leaf : Hash) (path : Option Hash) : Hash :=
  branch.zipIdx.foldr (fun (h, depth) node ↦
    if pathBit path depth then hashPair cr h node else hashPair cr node h) leaf

/-! ## Block identities -/

/-- The second of the three hashes from which a version 2 base transaction is identified. -/
def baseTransactionMiddle : Bytes :=
  [0xbc, 0x36, 0x78, 0x9e, 0x7a, 0x1e, 0x28, 0x14, 0x36, 0x46, 0x42, 0x29, 0x82, 0x8f, 0x81, 0x7d,
    0x66, 0x12, 0xf7, 0xb4, 0x77, 0xd6, 0x65, 0x91, 0xff, 0x96, 0xa9, 0xe0, 0x64, 0xbc, 0xc9, 0x8a]

/-- `get_base_transaction_hash`. -/
def getBaseTransactionHash (tx : BaseTransaction) : Hash :=
  if tx.version < 2 then cr.cnFastHash (baseTransactionBytes tx)
  else
    cr.cnFastHash (podBytes (cr.cnFastHash (transactionPrefixBytes tx)) ++
      (baseTransactionMiddle ++ List.replicate 32 0))

/-- The parent block serializer in hashing mode, up to the transaction count. -/
def parentBlockHashingHeadToBinary (b : BlockTemplate) : Option Bytes :=
  let minerTxHash := getBaseTransactionHash cr b.parentBlock.baseTransaction
  let merkleRoot := treeHashFromBranch cr b.parentBlock.baseTransactionBranch minerTxHash none
  if b.parentBlock.transactionCount < 1 then none
  else
    some (parentBlockHeadBytes b ++
      (podBytes merkleRoot ++ writeVarint b.parentBlock.transactionCount.toNat))

/-- `get_block_hashing_binary_array`. -/
def getBlockHashingBinaryArray (b : BlockTemplate) : Option Bytes := do
  let header ← blockHeaderToBinary b.toBlockHeader
  let minerHash ← getTransactionHash cr b.baseTransaction
  some (header ++ (podBytes (treeHash cr (minerHash :: b.transactionHashes)) ++
    writeVarint (b.transactionHashes.length + 1)))

/-- `get_block_hash`: the hash of the hashing array as a byte array, its size in front. -/
def getBlockHash (b : BlockTemplate) : Option Hash := do
  let ba ← getBlockHashingBinaryArray cr b
  if 2 ≤ b.majorVersion then
    let head ← parentBlockHashingHeadToBinary cr b
    let tail ← parentBlockTailToBinary b.parentBlock
    some (cr.cnFastHash (binaryArrayBytes (ba ++ (head ++ tail))))
  else some (cr.cnFastHash (binaryArrayBytes ba))

/-- `get_auxiliary_block_header_hash`: the identity without the parent block. -/
def getAuxiliaryBlockHeaderHash (b : BlockTemplate) : Option Hash := do
  let ba ← getBlockHashingBinaryArray cr b
  some (cr.cnFastHash (binaryArrayBytes ba))

/-- `get_block_long_hash`. -/
def getBlockLongHash (b : BlockTemplate) : Except Fault Hash :=
  if b.majorVersion = 1 then
    match getBlockHashingBinaryArray cr b with
    | some ba => .ok (cr.cnSlowHash ba)
    | none => .error .serialization
  else if 2 ≤ b.majorVersion then
    match parentBlockHashingHeadToBinary cr b with
    | some ba => .ok (if b.majorVersion < 4 then cr.cnSlowHash ba else cr.cnLiteSlowHashV1 ba)
    | none => .error .serialization
  else .error .unknownVersion

end Naza
