import Naza.Codec
import Naza.TransactionExtra

/-!
# Writing the transaction extra

`write_transaction_extra` and the functions that append one field.  A list of fields is read back
from its bytes when its nonces fit their one-byte length and padding stands only at the end.
-/

open Lib

namespace Naza

/-- `add_transaction_public_key_to_extra`. -/
def addTransactionPublicKeyToExtra (txExtra : BinaryArray) (txPubKey : PublicKey) : BinaryArray :=
  txExtra ++ TransactionExtra.publicKeyTag :: Seria.podBytes txPubKey

/-- `add_extra_nonce_to_transaction_extra`; `none` where it answers `false`. -/
def addExtraNonceToTransactionExtra (txExtra extraNonce : BinaryArray) : Option BinaryArray :=
  if txExtraNonceMaxCount < extraNonce.length then none
  else some (txExtra ++ TransactionExtra.nonceTag :: UInt8.ofNat extraNonce.length :: extraNonce)

/-- `ExtraSerializerVisitor`. -/
def serializeExtraField (extra : BinaryArray) : TransactionExtraField → Option BinaryArray
  | .padding size =>
    if txExtraPaddingMaxCount < size then none else some (extra ++ List.replicate size 0)
  | .publicKey key => some (addTransactionPublicKeyToExtra extra key)
  | .nonce nonce => addExtraNonceToTransactionExtra extra nonce
  | .mergeMiningTag tag => some (appendMergeMiningTagToExtra extra tag)

/-- `write_transaction_extra`. -/
def writeTransactionExtra (txExtra : BinaryArray) (fields : List TransactionExtraField) :
    Option BinaryArray :=
  fields.foldlM serializeExtraField txExtra

namespace TransactionExtra

/-- Nonces fit one byte of length, and padding is the last field and not empty. -/
def WellFormed : List TransactionExtraField → Prop
  | [] => True
  | [.padding size] => 1 ≤ size ∧ size ≤ txExtraPaddingMaxCount
  | .padding _ :: _ :: _ => False
  | .publicKey _ :: fields => WellFormed fields
  | .nonce nonce :: fields => nonce.length ≤ txExtraNonceMaxCount ∧ WellFormed fields
  | .mergeMiningTag _ :: fields => WellFormed fields

/-- The bytes of one field. -/
def fieldBytes : TransactionExtraField → Bytes
  | .padding size => List.replicate size 0
  | .publicKey key => publicKeyTag :: Seria.podBytes key
  | .nonce nonce => nonceTag :: UInt8.ofNat nonce.length :: nonce
  | .mergeMiningTag tag => mergeMiningTag ::
      Seria.binaryArrayBytes (Seria.writeVarint tag.depth.toNat ++ Seria.podBytes tag.merkleRoot)

theorem WellFormed.tail {field : TransactionExtraField} {fields : List TransactionExtraField}
    (h : WellFormed (field :: fields)) : WellFormed fields := by
  cases field with
  | padding size =>
    cases fields with
    | nil => trivial
    | cons _ _ => exact h.elim
  | publicKey key => exact h
  | nonce nonce => exact h.2
  | mergeMiningTag tag => exact h

theorem serializeExtraField_eq {field : TransactionExtraField}
    {fields : List TransactionExtraField} (h : WellFormed (field :: fields)) (extra : BinaryArray) :
    serializeExtraField extra field = some (extra ++ fieldBytes field) := by
  cases field with
  | padding size =>
    cases fields with
    | nil => exact if_neg (Nat.not_lt.2 h.2)
    | cons _ _ => exact h.elim
  | publicKey key => rfl
  | nonce nonce => exact if_neg (Nat.not_lt.2 h.1)
  | mergeMiningTag tag => rfl

/-- What is written: the bytes of the fields one after the other. -/
theorem writeTransactionExtra_eq {fields : List TransactionExtraField} (h : WellFormed fields)
    (extra : BinaryArray) :
    writeTransactionExtra extra fields = some (extra ++ fields.flatMap fieldBytes) := by
  induction fields generalizing extra with
  | nil => rw [List.flatMap_nil, List.append_nil]; rfl
  | cons field fields ih =>
    rw [writeTransactionExtra, List.foldlM_cons, serializeExtraField_eq h, Option.bind_eq_bind,
      Option.bind_some, List.flatMap_cons, ← List.append_assoc]
    exact ih h.tail _

/-- Zero bytes up to the end are padding. -/
theorem parsePadding_replicate {size n : ℕ} (h : size + n ≤ txExtraPaddingMaxCount) :
    parsePadding size (List.replicate n 0) = some (size + n) := by
  induction n generalizing size with
  | zero => exact if_neg (by omega)
  | succ n ih =>
    rw [List.replicate_succ, parsePadding, if_neg (by omega), if_neg (by simp), ih (by omega)]
    congr 1
    omega

theorem length_writeVarintBytes_le (fuel i : ℕ) :
    (Seria.writeVarintBytes fuel i).length ≤ fuel := by
  induction fuel generalizing i with
  | zero => exact le_refl 0
  | succ fuel ih =>
    rw [Seria.writeVarintBytes]
    split
    · rw [List.length_singleton]
      omega
    · rw [List.length_cons]
      exact Nat.succ_le_succ (ih _)

/-- The tag is read back out of its own string. -/
theorem parseMergeMiningTag_append (tag : TransactionExtraMergeMiningTag) (rest : Bytes) :
    parseMergeMiningTag (Seria.binaryArrayBytes
        (Seria.writeVarint tag.depth.toNat ++ Seria.podBytes tag.merkleRoot) ++ rest) =
      some (tag, rest) := by
  have hroot := Seria.length_podBytes tag.merkleRoot
  have hdepth : (Seria.writeVarint tag.depth.toNat).length ≤ 10 := length_writeVarintBytes_le 10 _
  have hfield : (Seria.writeVarint tag.depth.toNat ++ Seria.podBytes tag.merkleRoot).length <
      2 ^ 64 := by
    rw [List.length_append, hroot]
    omega
  rw [parseMergeMiningTag, Seria.binaryArrayBytes, List.append_assoc,
    Seria.readVarint_writeVarint hfield (le_refl 64), Option.bind_eq_bind, Option.bind_some]
  dsimp only
  rw [if_pos (by simp only [List.length_append]; omega), List.take_left,
    List.drop_left, Seria.readVarint_writeVarint tag.depth.toNat_lt (le_refl 64), Option.bind_some]
  dsimp only
  rw [if_pos hroot.ge, ← hroot, List.take_length, Seria.podOfBytes_podBytes, UInt64.ofNat_toNat]

/-- Fields are read back one after the other. -/
theorem parseFields_flatMap {fields : List TransactionExtraField} (h : WellFormed fields)
    {fuel : ℕ} (hfuel : (fields.flatMap fieldBytes).length ≤ fuel) :
    parseFields fuel (fields.flatMap fieldBytes) = (fields, true) := by
  induction fields generalizing fuel with
  | nil => cases fuel <;> rfl
  | cons field fields ih =>
    rw [List.flatMap_cons, List.length_append] at hfuel
    rw [List.flatMap_cons]
    cases field with
    | padding size =>
      cases fields with
      | cons _ _ => exact h.elim
      | nil =>
        obtain ⟨n, rfl⟩ : ∃ n, size = n + 1 := ⟨size - 1, by have := h.1; omega⟩
        have hlarge : 1 + n ≤ txExtraPaddingMaxCount := by have := h.2; omega
        rw [fieldBytes, List.length_replicate] at hfuel
        obtain ⟨fuel, rfl⟩ : ∃ fuel', fuel = fuel' + 1 := ⟨fuel - 1, by omega⟩
        rw [fieldBytes, List.flatMap_nil, List.append_nil, List.replicate_succ, parseFields.eq_def]
        dsimp only
        rw [if_pos (by rfl), parsePadding_replicate hlarge, Nat.add_comm]
    | publicKey key =>
      have hkey := Seria.length_podBytes key
      rw [fieldBytes, List.length_cons] at hfuel
      obtain ⟨fuel, rfl⟩ : ∃ fuel', fuel = fuel' + 1 := ⟨fuel - 1, by omega⟩
      rw [fieldBytes, List.cons_append, parseFields.eq_def]
      dsimp only
      rw [if_neg (by decide), if_pos rfl, if_pos (by rw [List.length_append]; omega), ← hkey,
        List.take_left, List.drop_left,
        ih h.tail (by omega), Seria.podOfBytes_podBytes]
    | nonce nonce =>
      have hnonce : (UInt8.ofNat nonce.length).toNat = nonce.length :=
        UInt8.toNat_ofNat_of_lt' (Nat.lt_succ_of_le h.1)
      rw [fieldBytes, List.length_cons, List.length_cons] at hfuel
      obtain ⟨fuel, rfl⟩ : ∃ fuel', fuel = fuel' + 1 := ⟨fuel - 1, by omega⟩
      rw [fieldBytes, List.cons_append, List.cons_append, parseFields.eq_def]
      dsimp only
      rw [if_neg (by decide), if_neg (by decide), if_pos rfl, hnonce,
        if_pos (by rw [List.length_append]; omega), List.take_left, List.drop_left,
        ih h.tail (by omega)]
    | mergeMiningTag tag =>
      rw [fieldBytes, List.length_cons] at hfuel
      obtain ⟨fuel, rfl⟩ : ∃ fuel', fuel = fuel' + 1 := ⟨fuel - 1, by omega⟩
      rw [fieldBytes, List.cons_append, parseFields.eq_def]
      dsimp only
      rw [if_neg (by decide), if_neg (by decide), if_neg (by decide), if_pos rfl,
        parseMergeMiningTag_append]
      dsimp only
      rw [ih h.tail (by omega)]

end TransactionExtra

/-- What is written for a list of fields is read back as that list. -/
theorem parse_writeTransactionExtra {fields : List TransactionExtraField}
    (h : TransactionExtra.WellFormed fields) :
    ∃ extra, writeTransactionExtra [] fields = some extra ∧
      TransactionExtra.parse extra = (fields, true) :=
  ⟨fields.flatMap TransactionExtra.fieldBytes, TransactionExtra.writeTransactionExtra_eq h [],
    TransactionExtra.parseFields_flatMap h (le_refl _)⟩

/-- A key, an empty nonce, a merge-mining tag and padding. -/
theorem parse_writeTransactionExtra_four :
    ∃ extra, writeTransactionExtra []
        [.publicKey 5, .nonce [], .mergeMiningTag { depth := 300, merkleRoot := 7 }, .padding 3] =
          some extra ∧
      TransactionExtra.parse extra =
        ([.publicKey 5, .nonce [], .mergeMiningTag { depth := 300, merkleRoot := 7 }, .padding 3],
          true) :=
  parse_writeTransactionExtra ⟨by decide, by decide, by decide⟩

end Naza
