import Naza.RoundTrip
import Naza.PreparedBlock

/-!
# The binary format of transactions and blocks

What the writers of `rpc_api_serialization.cpp` and `CryptoNoteTools.cpp` produce for a well-formed
value is read back as that value, whatever follows it in the stream.
-/

open Lib

namespace Naza

/-! ## Well-formed values -/

/-- The vectors of an input are no larger than a vector may be. -/
def TransactionInput.Sized : TransactionInput → Prop
  | .coinbaseInput _ => True
  | .keyInput input => input.outputIndexes.length ≤ Seria.maxVectorSize 4

/-- The vectors of a transaction prefix are no larger than a vector may be. -/
structure TransactionPrefix.Sized (v : TransactionPrefix) : Prop where
  inputs : v.inputs.length ≤ Seria.maxVectorSize Seria.transactionInputSize
  input : ∀ input ∈ v.inputs, input.Sized
  outputs : v.outputs.length ≤ Seria.maxVectorSize Seria.transactionOutputSize
  extra : v.extra.length < 2 ^ 64

/-- No signatures are kept that are not written. -/
structure Transaction.WellFormed (v : Transaction) : Prop where
  sized : v.toTransactionPrefix.Sized
  signatures : Seria.isBase v.inputs = true ∨ v.inputs = [] → v.signatures = []

/-- No parent block is kept that is not written. -/
structure BlockTemplate.WellFormed (v : BlockTemplate) : Prop where
  parent : v.majorVersion = 1 → v.parentBlock = {}
  parentBase : v.parentBlock.baseTransaction.Sized
  base : v.baseTransaction.WellFormed
  hashes : v.transactionHashes.length ≤ Seria.maxVectorSize 32

namespace Seria

/-! ## Pods -/

@[simp]
theorem length_podBytes (v : Pod32) : (podBytes v).length = 32 := length_natToBytes _ _

@[simp]
theorem podOfBytes_podBytes (v : Pod32) : podOfBytes (podBytes v) = v := by
  have hlt : v.val < 256 ^ 32 := v.isLt
  refine Fin.ext ?_
  rw [podOfBytes, podBytes, bytesToNat_natToBytes, Nat.mod_eq_of_lt hlt]
  exact Nat.mod_eq_of_lt v.isLt

theorem reads_serPod (a v : Pod32) : Reader.Reads serPod (podBytes v) a v := by
  intro rest
  have htake : (podBytes v ++ rest).take 32 = podBytes v :=
    List.take_left' (length_podBytes v)
  have hdrop : (podBytes v ++ rest).drop 32 = rest := List.drop_left' (length_podBytes v)
  rw [serPod, if_pos (by simp), htake, hdrop, podOfBytes_podBytes]

@[simp]
theorem length_nonceBytes (v : UInt32) : (nonceBytes v).length = 4 := by
  rw [nonceBytes, List.length_reverse, length_natToBytes]

theorem reads_serNonce (a v : UInt32) : Reader.Reads serNonce (nonceBytes v) a v := by
  intro rest
  have htake : (nonceBytes v ++ rest).take 4 = nonceBytes v :=
    List.take_left' (length_nonceBytes v)
  have hdrop : (nonceBytes v ++ rest).drop 4 = rest := List.drop_left' (length_nonceBytes v)
  have hlt : v.toNat < 256 ^ 4 := v.toNat_lt
  rw [serNonce, if_pos (by simp), htake, hdrop, nonceBytes, List.reverse_reverse,
    bytesToNat_natToBytes, Nat.mod_eq_of_lt hlt, UInt32.ofNat_toNat]

theorem reads_serSignature (a v : Signature) :
    Reader.Reads serSignature (signatureBytes v) a v :=
  (Reader.Reads.field (reads_serPod _ v.c)).andThen (Reader.Reads.field (reads_serPod _ v.r))

/-- A vector of known size is read back when each of its elements is. -/
theorem reads_serFixedVector {α : Type} {fresh : α} {r : Reader α} {w : α → Bytes}
    (a v : List α) (h : ∀ x ∈ v, Reader.Reads r (w x) fresh x) :
    Reader.Reads (serFixedVector v.length fresh r) (v.map w).flatten a v := by
  intro rest
  have helements : List.Forall₂ (fun x bs ↦ Reader.Reads r bs fresh x) v (v.map w) := by
    rw [List.forall₂_map_right_iff, List.forall₂_same]
    exact h
  exact Reader.elements_flatten helements rest

/-! ## Transactions -/

theorem reads_serKeyInput (v : KeyInput) (hv : v.outputIndexes.length ≤ maxVectorSize 4) :
    Reader.Reads serKeyInput (keyInputBytes v) {} v := by
  rw [keyInputBytes, ← List.append_assoc]
  exact ((Reader.Reads.field (reads_serUInt64 _ v.amount)).andThen
    (Reader.Reads.field (reads_serVector _ v.outputIndexes hv fun x _ ↦
      reads_serUInt32 _ x))).andThen
    (Reader.Reads.field (reads_serPod _ v.keyImage))

theorem reads_serTransactionInput (a v : TransactionInput) (hv : v.Sized) :
    Reader.Reads serTransactionInput (transactionInputBytes v) a v := by
  intro rest
  cases v with
  | coinbaseInput v =>
    have hread : Reader.Reads serCoinbaseInput (writeVarint v.blockIndex.toNat) {} v :=
      Reader.Reads.field (reads_serUInt32 _ v.blockIndex)
    simp only [transactionInputBytes, List.cons_append, serTransactionInput, if_true,
      hread rest]
  | keyInput v =>
    have hne : keyTag ≠ baseTag := by decide
    simp only [transactionInputBytes, List.cons_append, serTransactionInput, if_neg hne, if_true,
      reads_serKeyInput v hv rest]

theorem reads_serTransactionOutputTarget (a v : TransactionOutputTarget) :
    Reader.Reads serTransactionOutputTarget (transactionOutputTargetBytes v) a v := by
  intro rest
  cases v with
  | keyOutput v =>
    simp only [transactionOutputTargetBytes, List.cons_append, serTransactionOutputTarget,
      if_true, reads_serPod _ v.key rest]

theorem reads_serTransactionOutput (a v : TransactionOutput) :
    Reader.Reads serTransactionOutput (transactionOutputBytes v) a v :=
  (Reader.Reads.field (reads_serUInt64 _ v.amount)).andThen
    (Reader.Reads.field (reads_serTransactionOutputTarget _ v.target))

theorem reads_serTransactionPrefix (a v : TransactionPrefix) (hv : v.Sized) :
    Reader.Reads serTransactionPrefix (transactionPrefixBytes v) a v :=
  ((((Reader.Reads.field (reads_serUInt8 _ v.version)).andThen
    (Reader.Reads.field (reads_serUInt64 _ v.unlockTime))).andThen
    (Reader.Reads.field (reads_serVector _ v.inputs hv.inputs fun x hx ↦
      reads_serTransactionInput _ x (hv.input x hx)))).andThen
    (Reader.Reads.field (reads_serVector _ v.outputs hv.outputs fun x _ ↦
      reads_serTransactionOutput _ x))).andThen
    (Reader.Reads.field (reads_serBinaryArray _ v.extra hv.extra))

theorem reads_serBaseTransaction (a v : BaseTransaction) (hv : v.Sized) :
    Reader.Reads serBaseTransaction (baseTransactionBytes v) a v := by
  refine (reads_serTransactionPrefix a v hv).andThen (Reader.Reads.dependent ?_)
  split
  · intro rest
    have hzero : (serUInt64 0 (writeVarint 0 ++ rest)).2 = some rest :=
      congrArg Prod.snd (reads_serUInt64 0 0 rest)
    dsimp only
    rw [hzero]
  · exact Reader.Reads.done v

/-- Signatures whose numbers fit the inputs are read back. -/
theorem serSignatures_flatten (inputs : List TransactionInput) (signatures : List (List Signature))
    (h : signatures.map List.length = inputs.map getSignaturesCount) (rest : Bytes) :
    serSignatures inputs
      ((signatures.map fun sigs ↦ (sigs.map signatureBytes).flatten).flatten ++ rest) =
      (signatures, some rest) := by
  induction inputs generalizing signatures with
  | nil =>
    rw [List.map_nil, List.map_eq_nil_iff] at h
    rw [h]
    rfl
  | cons input inputs ih =>
    cases signatures with
    | nil => simp at h
    | cons sigs signatures =>
      rw [List.map_cons, List.map_cons, List.cons.injEq] at h
      have hread := @reads_serFixedVector _ {} _ _ [] sigs fun x _ ↦ reads_serSignature {} x
      rw [List.map_cons, List.flatten_cons, List.append_assoc, serSignatures, ← h.1]
      have hfirst := hread
        ((signatures.map fun sigs ↦ (sigs.map signatureBytes).flatten).flatten ++ rest)
      rw [serFixedVector] at hfirst
      rw [hfirst]
      dsimp only
      rw [ih signatures h.2]

/-- The bytes of a well-formed transaction are read back. -/
theorem reads_serTransaction (a v : Transaction) {bs : Bytes} (hv : v.WellFormed)
    (hbin : transactionToBinary v = some bs) : Reader.Reads serTransaction bs a v := by
  obtain ⟨signatures, hsigs, hbs⟩ := Option.bind_eq_some_iff.1 hbin
  rw [Option.some.injEq] at hbs
  rw [← hbs]
  refine (Reader.Reads.field (reads_serTransactionPrefix _ v.toTransactionPrefix hv.sized)).andThen
    (Reader.Reads.dependent (Reader.Reads.field fun rest ↦ ?_))
  dsimp only
  unfold signaturesToBinary at hsigs
  split at hsigs
  · next hnone =>
    rw [hv.signatures hnone, ← Option.some.inj hsigs]
    rcases hnone with hbase | hnil
    · rw [if_pos hbase, List.nil_append]
    · rw [hnil]
      rfl
  · next hsome =>
    rw [not_or] at hsome
    split at hsigs
    · next hcount =>
      rw [if_neg hsome.1, ← Option.some.inj hsigs, serSignatures_flatten _ _ hcount]
    · cases hsigs

/-! ## Blocks -/

theorem reads_serBlockHeader {v : BlockHeader} {bs : Bytes}
    (hbin : blockHeaderToBinary v = some bs) :
    Reader.Reads serBlockHeader bs {} (if v.majorVersion = 1 then v
      else { v with
        nonce := 0
        timestamp := 0 }) := by
  unfold blockHeaderToBinary at hbin
  dsimp only at hbin
  split at hbin
  · next hone =>
    rw [if_pos hone, ← Option.some.inj hbin]
    refine ((Reader.Reads.field (reads_serUInt8 _ v.majorVersion)).andThen
      (Reader.Reads.field (reads_serUInt8 _ v.minorVersion))).andThen (Reader.Reads.dependent ?_)
    rw [if_pos hone]
    exact ((Reader.Reads.field (reads_serUInt32 _ v.timestamp)).andThen
      (Reader.Reads.field (reads_serPod _ v.previousBlockHash))).andThen
      (Reader.Reads.field (reads_serNonce _ v.nonce))
  · next hone =>
    split at hbin
    · next htwo =>
      rw [if_neg hone, ← Option.some.inj hbin]
      refine ((Reader.Reads.field (reads_serUInt8 _ v.majorVersion)).andThen
        (Reader.Reads.field (reads_serUInt8 _ v.minorVersion))).andThen (Reader.Reads.dependent ?_)
      rw [if_neg hone, if_pos htwo]
      exact Reader.Reads.field (reads_serPod _ v.previousBlockHash)
    · cases hbin

theorem reads_parentField {β : Type} {get : ParentBlock → β} {set : ParentBlock → β → ParentBlock}
    {r : Reader β} {bs : Bytes} {a : BlockTemplate} {x : β}
    (h : Reader.Reads r bs (get a.parentBlock) x) :
    Reader.Reads (parentField get set r) bs a
      { a with parentBlock := set a.parentBlock x } :=
  Reader.Reads.field h

/-- The parent block is read back with the timestamp and the nonce of the template. -/
theorem reads_serParentBlock {v : BlockTemplate} {bs : Bytes} (a : BlockTemplate)
    (hv : v.parentBlock.baseTransaction.Sized) (hbin : parentBlockToBinary v = some bs) :
    Reader.Reads serParentBlock bs a
      { a with
        timestamp := v.timestamp
        nonce := v.nonce
        parentBlock := v.parentBlock } := by
  unfold parentBlockToBinary at hbin
  split at hbin
  · cases hbin
  · next hcount =>
    obtain ⟨tail, htail, hbs⟩ := Option.bind_eq_some_iff.1 hbin
    rw [Option.some.injEq] at hbs
    unfold parentBlockTailToBinary at htail
    split at htail
    · next hbranch =>
      split at htail
      · cases htail
      · next tag htag =>
        split at htail
        · cases htail
        · next hdepth =>
          split at htail
          · next hlength =>
            rw [← hbs, ← Option.some.inj htail, parentBlockHeadBytes]
            simp only [List.append_assoc]
            have hcountRead : Reader.Reads (serVarint 64 UInt16.ofNat)
                (writeVarint v.parentBlock.transactionCount.toNat) a.parentBlock.transactionCount
                v.parentBlock.transactionCount := by
              have hlt : v.parentBlock.transactionCount.toNat < 2 ^ 64 :=
                v.parentBlock.transactionCount.toNat_lt.trans (by norm_num)
              have h := @reads_serVarint _ _ _ UInt16.ofNat a.parentBlock.transactionCount
                hlt (le_refl 64)
              rwa [UInt16.ofNat_toNat] at h
            refine Reader.Reads.andThen (reads_parentField (reads_serUInt8 _ _)) <|
              Reader.Reads.andThen (reads_parentField (reads_serUInt8 _ _)) <|
              Reader.Reads.andThen (Reader.Reads.field (reads_serUInt32 _ _)) <|
              Reader.Reads.andThen (reads_parentField (reads_serPod _ _)) <|
              Reader.Reads.andThen (Reader.Reads.field (reads_serNonce _ _)) <|
              Reader.Reads.andThen (reads_parentField hcountRead) <|
              Reader.Reads.dependent ?_
            rw [if_neg hcount]
            have hfixed := @reads_serFixedVector _ (0 : Hash) _ _
              a.parentBlock.baseTransactionBranch v.parentBlock.baseTransactionBranch
              fun x _ ↦ reads_serPod 0 x
            rw [hbranch] at hfixed
            refine Reader.Reads.andThen (reads_parentField hfixed) <|
              Reader.Reads.andThen (reads_parentField (reads_serBaseTransaction _ _ hv)) <|
              Reader.Reads.dependent ?_
            dsimp only
            rw [htag]
            dsimp only
            rw [if_neg hdepth, hlength]
            exact reads_parentField (@reads_serFixedVector _ (0 : Hash) _ _ _ _
              fun x _ ↦ reads_serPod 0 x)
          · cases htail
    · cases htail

/-- The bytes of a well-formed block template are read back. -/
theorem reads_serBlockTemplate {v : BlockTemplate} {bs : Bytes} (hv : v.WellFormed)
    (hbin : blockTemplateToBinary v = some bs) : Reader.Reads serBlockTemplate bs {} v := by
  obtain ⟨header, hheader, hbin⟩ := Option.bind_eq_some_iff.1 hbin
  obtain ⟨parent, hparent, hbin⟩ := Option.bind_eq_some_iff.1 hbin
  obtain ⟨miner, hminer, hbs⟩ := Option.bind_eq_some_iff.1 hbin
  rw [Option.some.injEq] at hbs
  rw [← hbs]
  have hparentRead : Reader.Reads
      (Reader.dependent fun v ↦ if 2 ≤ v.majorVersion then serParentBlock else Reader.done) parent
      { toBlockHeader := if v.majorVersion = 1 then v.toBlockHeader
          else { v.toBlockHeader with
            nonce := 0
            timestamp := 0 } }
      { toBlockHeader := v.toBlockHeader
        parentBlock := v.parentBlock } := by
    refine Reader.Reads.dependent ?_
    by_cases hone : v.majorVersion = 1
    · have hsmall : ¬ 2 ≤ v.majorVersion := by
        rw [hone]
        decide
      rw [if_neg hsmall, Option.some.injEq] at hparent
      simp only [if_pos hone, if_neg hsmall, ← hparent, hv.parent hone]
      exact Reader.Reads.done _
    · simp only [if_neg hone]
      by_cases htwo : 2 ≤ v.majorVersion
      · rw [if_pos htwo] at hparent
        rw [if_pos htwo]
        exact reads_serParentBlock _ hv.parentBase hparent
      · rw [blockHeaderToBinary, if_neg hone, if_neg htwo] at hheader
        cases hheader
  exact Reader.Reads.andThen (Reader.Reads.field (reads_serBlockHeader hheader)) <|
    hparentRead.andThen <|
    Reader.Reads.andThen (Reader.Reads.field (reads_serTransaction _ _ hv.base hminer)) <|
    Reader.Reads.field (reads_serVector _ _ hv.hashes fun x _ ↦ reads_serPod 0 x)

/-! ## Whole objects -/

theorem fromBinary_of_reads {α : Type} {r : Reader α} {fresh v : α} {bs : Bytes}
    (h : Reader.Reads r bs fresh v) : fromBinary r fresh bs = (v, true) := by
  have hread := h []
  rw [List.append_nil] at hread
  simp only [fromBinary, hread]

end Seria

end Naza
