import Naza.MiningTemplate
import Naza.StringTools

/-!
# Send proofs as text

`ser_members` of `SendProof` over JSON, in both directions, and the text in which a proof travels
from a wallet to a node.  A blob is written in hexadecimal, an address and the signature in base 58.
-/

open Lib

namespace Naza

/-! ## Blobs -/

namespace Json

/-- `JsonOutputStream::binary`: a blob of zeros is an empty text. -/
def binaryText (data : Bytes) : Bytes :=
  let hex := toHex data
  if hex.all (· = ascii '0') then [] else hex

/-- `JsonInputValue::binary` into a pod. -/
def readBinary (str : Bytes) : Option Pod32 :=
  if str.length = 32 * 2 then (bytesFromHex str).map Seria.podOfBytes
  else if str = [] then some 0
  else none

/-- A pod comes back from its text, zero out of the empty one. -/
theorem readBinary_binaryText (v : Pod32) :
    readBinary (binaryText (Seria.podBytes v)) = some v := by
  have hlength : (toHex (Seria.podBytes v)).length = 32 * 2 := by
    rw [length_toHex, Seria.length_podBytes]
  rw [binaryText]
  split
  next hall =>
    have hzeros : toHex (Seria.podBytes v) = List.replicate (32 * 2) (ascii '0') :=
      List.eq_replicate_iff.2 ⟨hlength, fun c hc ↦ of_decide_eq_true (List.all_eq_true.1 hall c hc)⟩
    have hzero : toHex (Seria.podBytes 0) = List.replicate (32 * 2) (ascii '0') := by
      decide +kernel
    have hbytes := congrArg bytesFromHex (hzeros.trans hzero.symm)
    rw [bytesFromHex_toHex, bytesFromHex_toHex, Option.some_inj] at hbytes
    have hv : v = 0 := by
      rw [← Seria.podOfBytes_podBytes v, hbytes, Seria.podOfBytes_podBytes]
    rw [hv]
    rfl
  · rw [readBinary, if_pos hlength, bytesFromHex_toHex, Option.map_some, Seria.podOfBytes_podBytes]

/-- Neither text of a blob has the character that the reader of strings refuses. -/
theorem contains_binaryText (data : Bytes) : (binaryText data).contains 0x7F = false := by
  have hletter : ∀ n < 16, hexLetter n ≠ 0x7F := by decide
  rw [List.contains_eq_mem, decide_eq_false_iff_not, binaryText]
  split
  · exact List.not_mem_nil
  · rw [toHex, List.mem_flatMap]
    rintro ⟨byte, -, hmem⟩
    rw [List.mem_pair] at hmem
    rcases hmem with h | h
    · exact hletter _ (by have := byte.toNat_lt; omega) h.symm
    · exact hletter _ (Nat.mod_lt _ (by decide)) h.symm

/-! ## Members -/

variable {R : Type}

/-- `seria_v` of a string; where the member is missing, the string stays. -/
def stringMember (v : Bytes) : Option (JsonValue R) → Option Bytes
  | none => some v
  | some (.string value) => some value
  | some _ => none

/-- `get_unsigned`. -/
def unsignedMember (v : UInt64) : Option (JsonValue R) → Option UInt64
  | none => some v
  | some (.signedInteger value) => some value.toUInt64
  | some (.unsignedInteger value) => some value
  | some _ => none

/-- `binary` of a pod. -/
def binaryMember (v : Pod32) : Option (JsonValue R) → Option Pod32
  | none => some v
  | some (.string value) => readBinary value
  | some _ => none

end Json

namespace Base58

theorem contains_encode (data : Bytes) : (encode data).contains 0x7F = false := by
  have hletter : (0x7F : UInt8) ∉ alphabet := by decide
  rw [List.contains_eq_mem, decide_eq_false_iff_not]
  exact fun hmem ↦ hletter (mem_alphabet_of_mem_encode data _ hmem)

end Base58

/-! ## Addresses -/

namespace Seria

def accountPublicAddressBytes (v : AccountPublicAddress) : Bytes := podBytes v.2 ++ podBytes v.1

theorem reads_serAccountPublicAddress (a v : AccountPublicAddress) :
    Reader.Reads serAccountPublicAddress (accountPublicAddressBytes v) a v :=
  (Reader.Reads.field (reads_serPod _ v.2)).andThen (Reader.Reads.field (reads_serPod _ v.1))

end Seria

/-- `get_account_address_as_str`. -/
def accountAddressAsStr (cr : Crypto) (tag : UInt64) (adr : AccountPublicAddress) : Bytes :=
  Base58.encodeAddr cr tag (Seria.accountPublicAddressBytes adr)

/-- An address of two points comes back from its text, with its tag. -/
theorem parseTaggedAddressString_accountAddressAsStr {cr : Crypto} {adr : AccountPublicAddress}
    (hview : cr.keyIsvalid adr.1 = true) (hspend : cr.keyIsvalid adr.2 = true) (tag : UInt64) :
    parseTaggedAddressString cr (accountAddressAsStr cr tag adr) = some (tag, adr) := by
  have hread := Seria.fromBinary_of_reads (Seria.reads_serAccountPublicAddress (0, 0) adr)
  rw [parseTaggedAddressString, accountAddressAsStr, Base58.decodeAddr_encodeAddr]
  simp only [hread, hview, hspend, Bool.and_self, if_true]

/-! ## Proofs -/

structure SendProof where
  transactionHash : Hash := 0
  address : AccountPublicAddress := (0, 0)
  amount : Amount := 0
  message : Bytes := []
  derivation : KeyDerivation := 0
  signature : Signature := {}

namespace SendProof

open Json

variable {R : Type} (cr : Crypto) (io : DoubleText R)

/-- The constant of `ser_members`, which has no currency at hand. -/
def addressPrefix : UInt64 := 126

def binaryProof (sp : SendProof) : Bytes :=
  Seria.podBytes sp.derivation ++ Seria.signatureBytes sp.signature

/-- `ser_members` to JSON; the map has its members in the order of their keys. -/
def toJson (sp : SendProof) : JsonValue R :=
  .object [
    (text "address", .string (accountAddressAsStr cr addressPrefix sp.address)),
    (text "amount", .unsignedInteger sp.amount),
    (text "message", .string sp.message),
    (text "proof", .string (Base58.encode sp.binaryProof)),
    (text "transaction_hash", .string (binaryText (Seria.podBytes sp.transactionHash)))]

/-- `ser_members` from JSON: none where it throws. -/
def ofJson : JsonValue R → Option SendProof
  | .object entries => do
    let addr ← stringMember [] (entries.lookup (text "address"))
    let (tag, address) ← parseTaggedAddressString cr addr
    guard (tag = addressPrefix)
    let proof ← stringMember [] (entries.lookup (text "proof"))
    let binaryProof ← Base58.decode proof
    guard (binaryProof.length = 32 + 32 + 32)
    let transactionHash ← binaryMember 0 (entries.lookup (text "transaction_hash"))
    let message ← stringMember [] (entries.lookup (text "message"))
    let amount ← unsignedMember 0 (entries.lookup (text "amount"))
    some {
      transactionHash, address, amount, message
      derivation := Seria.podOfBytes (binaryProof.take 32)
      signature := ⟨Seria.podOfBytes ((binaryProof.drop 32).take 32),
        Seria.podOfBytes ((binaryProof.drop (32 + 32)).take 32)⟩ }
  | _ => none

/-- What `handle_create_sendproof3` puts into its response. -/
def toText (sp : SendProof) : Bytes := write io (toJson cr sp)

/-- What `handle_check_sendproof3` reads out of its request. -/
def ofText (str : Bytes) : Option SendProof := (fromString io str).bind (ofJson cr)

variable {cr} {sp : SendProof}

theorem doubleFree_toJson : DoubleFree (toJson cr sp : JsonValue R) := by
  refine ⟨?_, trivial, trivial, trivial, trivial, trivial, trivial⟩
  have hkeys : [text "address", text "amount", text "message", text "proof",
      text "transaction_hash"].Pairwise (· < ·) := by
    decide
  exact hkeys

/-- Of the texts in a proof only the message is not chosen by the code. -/
theorem deleteFree_toJson :
    deleteFree (toJson cr sp : JsonValue R) = !sp.message.contains 0x7F := by
  have hkeys : ∀ key ∈ [text "address", text "amount", text "message", text "proof",
      text "transaction_hash"], key.contains 0x7F = false := by
    decide
  simp only [List.forall_mem_cons] at hkeys
  simp only [toJson, deleteFree, deleteFreeEntries, hkeys, accountAddressAsStr, Base58.encodeAddr,
    Base58.contains_encode, contains_binaryText, Bool.not_false, Bool.true_and, Bool.and_true]

theorem length_binaryProof (sp : SendProof) : sp.binaryProof.length = 32 + 32 + 32 := by
  rw [binaryProof, Seria.signatureBytes, List.length_append, List.length_append,
    Seria.length_podBytes, Seria.length_podBytes, Seria.length_podBytes]

theorem ofJson_toJson (hview : cr.keyIsvalid sp.address.1 = true)
    (hspend : cr.keyIsvalid sp.address.2 = true) :
    ofJson cr (toJson cr sp : JsonValue R) = some sp := by
  have haddress := parseTaggedAddressString_accountAddressAsStr hview hspend addressPrefix
  have hproof : Base58.decode (Base58.encode sp.binaryProof) = some sp.binaryProof :=
    Base58.decode_eq_some_iff.2 rfl
  have hderivation : sp.binaryProof.take 32 = Seria.podBytes sp.derivation :=
    List.take_left' (Seria.length_podBytes _)
  have hsignature : sp.binaryProof.drop 32 = Seria.signatureBytes sp.signature :=
    List.drop_left' (Seria.length_podBytes _)
  have hc : (Seria.signatureBytes sp.signature).take 32 = Seria.podBytes sp.signature.c :=
    List.take_left' (Seria.length_podBytes _)
  have hr : (sp.binaryProof.drop (32 + 32)).take 32 = Seria.podBytes sp.signature.r := by
    rw [← List.drop_drop, hsignature, Seria.signatureBytes,
      List.drop_left' (Seria.length_podBytes _), List.take_of_length_le]
    rw [Seria.length_podBytes]
  have hlookup : ∀ (address amount message proof hash : JsonValue R),
      let entries := [(text "address", address), (text "amount", amount),
        (text "message", message), (text "proof", proof), (text "transaction_hash", hash)]
      entries.lookup (text "address") = some address ∧
        entries.lookup (text "amount") = some amount ∧
        entries.lookup (text "message") = some message ∧
        entries.lookup (text "proof") = some proof ∧
        entries.lookup (text "transaction_hash") = some hash := fun _ _ _ _ _ ↦
    ⟨rfl, rfl, rfl, rfl, rfl⟩
  obtain ⟨h₁, h₂, h₃, h₄, h₅⟩ := hlookup (.string (accountAddressAsStr cr addressPrefix sp.address))
    (.unsignedInteger sp.amount) (.string sp.message) (.string (Base58.encode sp.binaryProof))
    (.string (binaryText (Seria.podBytes sp.transactionHash)))
  simp only [toJson, ofJson, h₁, h₂, h₃, h₄, h₅, stringMember, unsignedMember, binaryMember,
    haddress,
    hproof, readBinary_binaryText, length_binaryProof, hderivation, hsignature, hc, hr,
    Seria.podOfBytes_podBytes, Option.bind_eq_bind, Option.bind_some, guard, if_true]
  rfl

/-- A node reads the proof that a wallet has written, unless its message has the character that the
reader of strings refuses. -/
theorem ofText_toText (hview : cr.keyIsvalid sp.address.1 = true)
    (hspend : cr.keyIsvalid sp.address.2 = true) :
    ofText cr io (toText cr io sp) = if sp.message.contains 0x7F then none else some sp := by
  rw [ofText, toText, fromString_write io doubleFree_toJson, deleteFree_toJson]
  have hnormal : normalize (toJson cr sp : JsonValue R) = toJson cr sp := rfl
  cases sp.message.contains 0x7F with
  | true => rfl
  | false =>
    rw [if_pos ⟨rfl, rfl⟩, hnormal]
    exact ofJson_toJson hview hspend

end SendProof

end Naza
