import Naza.Seria

/-!
# Transaction extra

The extra field of a transaction is a list of tagged fields.  `parse_transaction_extra` keeps the
fields read before the point where it fails, and the lookup of the merge-mining tag ignores its
verdict.
-/

open Lib

namespace Naza

def txExtraPaddingMaxCount : ℕ := 255
def txExtraNonceMaxCount : ℕ := 255

structure TransactionExtraMergeMiningTag where
  depth : UInt64 := 0
  merkleRoot : Hash := 0
  deriving DecidableEq, Inhabited

inductive TransactionExtraField where
  | padding (size : ℕ)
  | publicKey (key : PublicKey)
  | nonce (nonce : BinaryArray)
  | mergeMiningTag (tag : TransactionExtraMergeMiningTag)
  deriving DecidableEq

namespace TransactionExtra

def paddingTag : UInt8 := 0x00
def publicKeyTag : UInt8 := 0x01
def nonceTag : UInt8 := 0x02
def mergeMiningTag : UInt8 := 0x03

/-- The padding loop: zero bytes up to the end of the field, at most 255 with the tag. -/
def parsePadding : ℕ → Bytes → Option ℕ
  | size, [] => if txExtraPaddingMaxCount < size then none else some size
  | size, b :: rest =>
    if txExtraPaddingMaxCount < size then none
    else if b ≠ 0 then none
    else parsePadding (size + 1) rest

/-- `do_serialize` of the merge-mining tag out of its own string; bytes left over are ignored. -/
def parseMergeMiningTag (b : Bytes) : Option (TransactionExtraMergeMiningTag × Bytes) := do
  let (size, rest) ← Seria.readVarint 64 b
  if size ≤ rest.length then
    let (depth, field) ← Seria.readVarint 64 (rest.take size)
    if 32 ≤ field.length then
      some ({ depth := UInt64.ofNat depth, merkleRoot := Seria.podOfBytes (field.take 32) },
        rest.drop size)
    else none
  else none

/-- `parse_transaction_extra`: the fields read, and the verdict.  Every round consumes the tag
byte, so the length of the extra field bounds the rounds. -/
def parseFields : ℕ → Bytes → List TransactionExtraField × Bool
  | _, [] => ([], true)
  | 0, _ :: _ => ([], false)
  | fuel + 1, tag :: b =>
    if tag = paddingTag then
      match parsePadding 1 b with
      | some size => ([.padding size], true)
      | none => ([], false)
    else if tag = publicKeyTag then
      if 32 ≤ b.length then
        let (fields, verdict) := parseFields fuel (b.drop 32)
        (.publicKey (Seria.podOfBytes (b.take 32)) :: fields, verdict)
      else ([], false)
    else if tag = nonceTag then
      match b with
      | [] => ([], false)
      | size :: b =>
        if size.toNat ≤ b.length then
          let (fields, verdict) := parseFields fuel (b.drop size.toNat)
          (.nonce (b.take size.toNat) :: fields, verdict)
        else ([], false)
    else if tag = mergeMiningTag then
      match parseMergeMiningTag b with
      | some (field, rest) =>
        let (fields, verdict) := parseFields fuel rest
        (.mergeMiningTag field :: fields, verdict)
      | none => ([], false)
    else parseFields fuel b

def parse (extra : BinaryArray) : List TransactionExtraField × Bool :=
  parseFields extra.length extra

end TransactionExtra

/-- `get_merge_mining_tag_from_extra`: the first merge-mining tag among the fields read. -/
def getMergeMiningTagFromExtra (extra : BinaryArray) : Option TransactionExtraMergeMiningTag :=
  (TransactionExtra.parse extra).1.findSome? fun
    | .mergeMiningTag tag => some tag
    | _ => none

/-- `append_merge_mining_tag_to_extra`. -/
def appendMergeMiningTagToExtra (extra : BinaryArray) (tag : TransactionExtraMergeMiningTag) :
    BinaryArray :=
  extra ++ TransactionExtra.mergeMiningTag ::
    Seria.binaryArrayBytes (Seria.writeVarint tag.depth.toNat ++ Seria.podBytes tag.merkleRoot)

end Naza
