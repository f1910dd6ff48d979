import Naza.Codec
import Naza.Concrete

/-!
# Accepted bytes are written bytes

What a reader of the binary format accepts is what the writer makes of the value it has read.  Two
fields of a merge-mined block are not kept whole: the number of transactions of the parent block is
cut to 16 bits, and the integer after a parent base transaction of version 2 is ignored.
-/

open Lib

namespace Naza.Seria

/-! ## Integers -/

/-- A minimal encoding of the rest of an integer is what the writer produces for it. -/
theorem writeVarintBytes_of_readVarintFrom {bits shift temp n : ℕ} {b rest : Bytes}
    (h : readVarintFrom bits shift temp b = some (n, rest)) {fuel : ℕ}
    (hfuel : bits ≤ shift + 7 * (fuel + 1)) :
    ∃ i, n = temp + i * 2 ^ shift ∧ i < 2 ^ (bits - shift) ∧ (shift ≠ 0 → i ≠ 0) ∧
      b = writeVarintBytes (fuel + 1) i ++ rest := by
  induction b generalizing shift temp fuel with
  | nil => cases h
  | cons piece b ih =>
    have hpiece := piece.toNat_lt
    rw [readVarintFrom] at h
    split at h
    · cases h
    · next hfits =>
      -- a piece that is not the last one leaves more than seven bits
      have hbits : 0x80 ≤ piece.toNat → 7 < bits - shift := by
        intro hlarge
        by_contra hle
        refine hfits ⟨by omega, ?_⟩
        have := Nat.pow_le_pow_right (n := 2) (by norm_num) (Nat.le_of_not_lt hle)
        omega
      split at h
      · next hlast =>
        split at h
        · cases h
        · next hminimal =>
          obtain ⟨hn, hrest⟩ := Prod.mk.inj (Option.some.inj h)
          have hmod : piece.toNat % 0x80 = piece.toNat := Nat.mod_eq_of_lt hlast
          refine ⟨piece.toNat, by rw [← hn, hmod], ?_, fun hshift hzero ↦ hminimal ⟨?_, hshift⟩, ?_⟩
          · by_cases hend : bits - 7 ≤ shift
            · by_contra hge
              exact hfits ⟨hend, Nat.le_of_not_lt hge⟩
            · have := Nat.pow_le_pow_right (n := 2) (by norm_num) (show 7 ≤ bits - shift by omega)
              omega
          · exact UInt8.toNat_inj.1 hzero
          · rw [writeVarintBytes, if_pos hlast, UInt8.ofNat_toNat, hrest, List.singleton_append]
      · next hmore =>
        have hmore : 0x80 ≤ piece.toNat := Nat.le_of_not_lt hmore
        have hroom := hbits hmore
        obtain ⟨fuel, rfl⟩ : ∃ fuel', fuel = fuel' + 1 := ⟨fuel - 1, by omega⟩
        have hbound : bits ≤ shift + 7 + 7 * (fuel + 1) := by omega
        obtain ⟨i, hn, hi, hpos, hb⟩ := ih h hbound
        have hipos := Nat.pos_of_ne_zero (hpos (by omega))
        have hsplit : 2 ^ (bits - shift) = 2 ^ (bits - (shift + 7)) * 0x80 := by
          rw [show (0x80 : ℕ) = 2 ^ 7 by norm_num, ← pow_add]
          congr 1
          omega
        refine ⟨piece.toNat % 0x80 + i * 0x80, ?_, by omega, fun _ ↦ by omega, ?_⟩
        · rw [hn, pow_add]
          ring
        · have hbyte : (piece.toNat % 0x80 + i * 0x80) % 0x80 + 0x80 = piece.toNat := by omega
          have hdiv : (piece.toNat % 0x80 + i * 0x80) / 0x80 = i := by omega
          rw [writeVarintBytes, if_neg (by omega), hbyte, hdiv, UInt8.ofNat_toNat, List.cons_append,
            ← hb]

/-- An integer that was read had been written. -/
theorem writeVarint_of_readVarint {bits n : ℕ} {b rest : Bytes} (hbits : bits ≤ 64)
    (h : readVarint bits b = some (n, rest)) : n < 2 ^ bits ∧ b = writeVarint n ++ rest := by
  have hbound : bits ≤ 0 + 7 * (9 + 1) := by omega
  obtain ⟨i, hn, hi, -, hb⟩ := writeVarintBytes_of_readVarintFrom h hbound
  rw [pow_zero, Nat.mul_one, Nat.zero_add] at hn
  subst hn
  exact ⟨hi, hb⟩

theorem yields_serVarint {α : Type} {bits : ℕ} {ofNat : ℕ → α} (hbits : bits ≤ 64) :
    Reader.Yields (serVarint bits ofNat) fun _ v bs ↦
      ∃ n < 2 ^ bits, v = ofNat n ∧ bs = writeVarint n := by
  intro a b v rest h
  unfold serVarint at h
  split at h
  · next n rest' hread =>
    obtain ⟨hv, hrest⟩ := Prod.mk.inj h
    obtain ⟨hn, hb⟩ := writeVarint_of_readVarint hbits hread
    rw [← Option.some.inj hrest]
    exact ⟨_, hb, n, hn, hv.symm, rfl⟩
  · cases (Prod.mk.inj h).2

theorem yields_serUInt8 : Reader.Yields serUInt8 fun _ v bs ↦ bs = writeVarint v.toNat := by
  refine (yields_serVarint (by norm_num)).imp ?_
  rintro _ _ _ ⟨n, hn, rfl, rfl⟩
  rw [UInt8.toNat_ofNat_of_lt' hn]

theorem yields_serUInt32 : Reader.Yields serUInt32 fun _ v bs ↦ bs = writeVarint v.toNat := by
  refine (yields_serVarint (by norm_num)).imp ?_
  rintro _ _ _ ⟨n, hn, rfl, rfl⟩
  rw [UInt32.toNat_ofNat_of_lt' hn]

theorem yields_serUInt64 : Reader.Yields serUInt64 fun _ v bs ↦ bs = writeVarint v.toNat := by
  refine (yields_serVarint (by norm_num)).imp ?_
  rintro _ _ _ ⟨n, hn, rfl, rfl⟩
  rw [UInt64.toNat_ofNat_of_lt' hn]

/-! ## Pods -/

theorem podBytes_podOfBytes {bs : Bytes} (h : bs.length = 32) : podBytes (podOfBytes bs) = bs := by
  have hlt : bytesToNat bs < 2 ^ 256 := by
    have := bytesToNat_lt bs
    rw [h] at this
    exact this
  have hval : (podOfBytes bs).val = bytesToNat bs := Nat.mod_eq_of_lt hlt
  rw [podBytes, hval, ← h, natToBytes_bytesToNat]

theorem yields_serPod : Reader.Yields serPod fun _ v bs ↦ bs = podBytes v := by
  intro a b v rest h
  unfold serPod at h
  split at h
  · next hlen =>
    obtain ⟨hv, hrest⟩ := Prod.mk.inj h
    refine ⟨b.take 32, ?_, ?_⟩
    · rw [← Option.some.inj hrest, List.take_append_drop]
    · dsimp only
      rw [← hv, podBytes_podOfBytes (by rw [List.length_take]; omega)]
  · cases (Prod.mk.inj h).2

theorem yields_serNonce : Reader.Yields serNonce fun _ v bs ↦ bs = nonceBytes v := by
  intro a b v rest h
  unfold serNonce at h
  split at h
  · next hlen =>
    obtain ⟨hv, hrest⟩ := Prod.mk.inj h
    have hfour : (b.take 4).reverse.length = 4 := by
      rw [List.length_reverse, List.length_take]
      omega
    have hlt := bytesToNat_lt (b.take 4).reverse
    rw [hfour] at hlt
    refine ⟨b.take 4, ?_, ?_⟩
    · rw [← Option.some.inj hrest, List.take_append_drop]
    · have hbytes := natToBytes_bytesToNat (b.take 4).reverse
      rw [hfour] at hbytes
      dsimp only
      rw [← hv, nonceBytes, UInt32.toNat_ofNat_of_lt' hlt, hbytes, List.reverse_reverse]
  · cases (Prod.mk.inj h).2

theorem yields_serSignature : Reader.Yields serSignature fun _ v bs ↦ bs = signatureBytes v := by
  refine ((Reader.Yields.field yields_serPod).andThen (Reader.Yields.field yields_serPod)).imp ?_
  rintro _ _ _ ⟨_, _, _, rfl, ⟨c, rfl, rfl⟩, r, rfl, rfl⟩
  rfl

/-! ## Arrays -/

theorem yields_serBinaryArray : Reader.Yields serBinaryArray fun _ v bs ↦
    bs = binaryArrayBytes v := by
  intro a b v rest h
  unfold serBinaryArray at h
  split at h
  · cases (Prod.mk.inj h).2
  · next size b' hsize =>
    split at h
    · next hle =>
      obtain ⟨hv, hrest⟩ := Prod.mk.inj h
      obtain ⟨-, hb⟩ := writeVarint_of_readVarint (le_refl 64) hsize
      have hlen : v.length = size := by
        rw [← hv, List.length_take]
        omega
      refine ⟨_, ?_, rfl⟩
      rw [hb, binaryArrayBytes, hlen, List.append_assoc, ← hv, ← Option.some.inj hrest,
        List.take_append_drop]
    · cases (Prod.mk.inj h).2

theorem yields_serVector {α : Type} {elementSize : ℕ} {fresh : α} {r : Reader α} {w : α → Bytes}
    (h : Reader.Yields r fun _ x bs ↦ bs = w x) :
    Reader.Yields (serVector elementSize fresh r) fun _ v bs ↦ bs = vectorBytes w v := by
  intro a b v rest hr
  unfold serVector at hr
  split at hr
  · cases (Prod.mk.inj hr).2
  · next size b' hsize =>
    split at hr
    · cases (Prod.mk.inj hr).2
    · obtain ⟨-, hb⟩ := writeVarint_of_readVarint (le_refl 64) hsize
      obtain ⟨hb', hlen⟩ := Reader.elements_yields h hr
      refine ⟨_, ?_, rfl⟩
      rw [hb, hb', vectorBytes, hlen, List.append_assoc]

theorem yields_serFixedVector {α : Type} {size : ℕ} {fresh : α} {r : Reader α} {w : α → Bytes}
    (h : Reader.Yields r fun _ x bs ↦ bs = w x) :
    Reader.Yields (serFixedVector size fresh r) fun _ v bs ↦
      bs = (v.map w).flatten ∧ v.length = size := by
  intro a b v rest hr
  obtain ⟨hb, hlen⟩ := Reader.elements_yields h hr
  exact ⟨_, hb, rfl, hlen⟩

/-! ## Transactions -/

theorem yields_serKeyInput : Reader.Yields serKeyInput fun _ v bs ↦ bs = keyInputBytes v := by
  refine (((Reader.Yields.field yields_serUInt64).andThen (Reader.Yields.field
    (yields_serVector yields_serUInt32))).andThen (Reader.Yields.field yields_serPod)).imp ?_
  rintro _ _ _ ⟨_, _, _, rfl, ⟨_, _, _, rfl, ⟨amount, rfl, rfl⟩, indexes, rfl, rfl⟩, image, rfl,
    rfl⟩
  exact List.append_assoc _ _ _

theorem yields_serCoinbaseInput : Reader.Yields serCoinbaseInput fun _ v bs ↦
    bs = writeVarint v.blockIndex.toNat := by
  refine (Reader.Yields.field yields_serUInt32).imp ?_
  rintro _ _ _ ⟨index, rfl, rfl⟩
  rfl

theorem yields_serTransactionInput : Reader.Yields serTransactionInput fun _ v bs ↦
    bs = transactionInputBytes v := by
  intro a b v rest h
  cases b with
  | nil => cases (Prod.mk.inj h).2
  | cons tag b =>
    unfold serTransactionInput at h
    dsimp only at h
    split at h
    · next htag =>
      split at h
      · next x rest' hread =>
        obtain ⟨bs, hb, rfl⟩ := yields_serCoinbaseInput {} b x rest' hread
        obtain ⟨rfl, hrest⟩ := Prod.mk.inj h
        rw [← Option.some.inj hrest]
        exact ⟨_, by rw [hb, htag]; rfl, rfl⟩
      · cases (Prod.mk.inj h).2
    · split at h
      · next htag =>
        split at h
        · next x rest' hread =>
          obtain ⟨bs, hb, rfl⟩ := yields_serKeyInput {} b x rest' hread
          obtain ⟨rfl, hrest⟩ := Prod.mk.inj h
          rw [← Option.some.inj hrest]
          exact ⟨_, by rw [hb, htag]; rfl, rfl⟩
        · cases (Prod.mk.inj h).2
      · cases (Prod.mk.inj h).2

theorem yields_serTransactionOutputTarget : Reader.Yields serTransactionOutputTarget fun _ v bs ↦
    bs = transactionOutputTargetBytes v := by
  intro a b v rest h
  cases b with
  | nil => cases (Prod.mk.inj h).2
  | cons tag b =>
    unfold serTransactionOutputTarget at h
    dsimp only at h
    split at h
    · next htag =>
      split at h
      · next x rest' hread =>
        obtain ⟨bs, hb, rfl⟩ := yields_serPod 0 b x rest' hread
        obtain ⟨rfl, hrest⟩ := Prod.mk.inj h
        rw [← Option.some.inj hrest]
        exact ⟨_, by rw [hb, htag]; rfl, rfl⟩
      · cases (Prod.mk.inj h).2
    · cases (Prod.mk.inj h).2

theorem yields_serTransactionOutput : Reader.Yields serTransactionOutput fun _ v bs ↦
    bs = transactionOutputBytes v := by
  refine ((Reader.Yields.field yields_serUInt64).andThen
    (Reader.Yields.field yields_serTransactionOutputTarget)).imp ?_
  rintro _ _ _ ⟨_, _, _, rfl, ⟨amount, rfl, rfl⟩, target, rfl, rfl⟩
  rfl

theorem yields_serTransactionPrefix : Reader.Yields serTransactionPrefix fun _ v bs ↦
    bs = transactionPrefixBytes v := by
  refine (((((Reader.Yields.field yields_serUInt8).andThen
    (Reader.Yields.field yields_serUInt64)).andThen
    (Reader.Yields.field (yields_serVector yields_serTransactionInput))).andThen
    (Reader.Yields.field (yields_serVector yields_serTransactionOutput))).andThen
    (Reader.Yields.field yields_serBinaryArray)).imp ?_
  rintro _ _ _ ⟨_, _, _, rfl, ⟨_, _, _, rfl, ⟨_, _, _, rfl, ⟨_, _, _, rfl, ⟨version, rfl, rfl⟩,
    unlockTime, rfl, rfl⟩, inputs, rfl, rfl⟩, outputs, rfl, rfl⟩, extra, rfl, rfl⟩
  rfl

/-- A parent base transaction with the integer that follows it from version 2 on. -/
def baseTransactionWire (v : BaseTransaction) (ignored : ℕ) : Bytes :=
  transactionPrefixBytes v ++ if 2 ≤ v.version then writeVarint ignored else []

theorem yields_serBaseTransaction : Reader.Yields serBaseTransaction fun _ v bs ↦
    ∃ ignored, bs = baseTransactionWire v ignored := by
  have hignored : ∀ v : BaseTransaction, @Reader.Yields BaseTransaction
      (if 2 ≤ v.version then fun v b ↦ (v, (serUInt64 0 b).2) else Reader.done)
      fun a a' bs ↦ a' = a ∧ ∃ ignored,
        bs = if 2 ≤ v.version then writeVarint ignored else [] := by
    intro v
    split
    · intro a b a' rest h
      obtain ⟨ha, hrest⟩ := Prod.mk.inj h
      obtain ⟨bs, hb, rfl⟩ := yields_serUInt64 0 b (serUInt64 0 b).1 rest (Prod.ext rfl hrest)
      exact ⟨_, hb, ha.symm, _, rfl⟩
    · exact Reader.Yields.done.imp fun _ _ _ h ↦ ⟨h.1, 0, h.2⟩
  refine (yields_serTransactionPrefix.andThen (Reader.Yields.dependent hignored)).imp ?_
  rintro _ _ _ ⟨v, _, _, rfl, rfl, rfl, ignored, rfl⟩
  exact ⟨ignored, rfl⟩

theorem serSignatures_yields {inputs : List TransactionInput} {b rest : Bytes}
    {signatures : List (List Signature)} (h : serSignatures inputs b = (signatures, some rest)) :
    b = (signatures.map fun sigs ↦ (sigs.map signatureBytes).flatten).flatten ++ rest ∧
      signatures.map List.length = inputs.map getSignaturesCount := by
  induction inputs generalizing b signatures with
  | nil =>
    obtain ⟨rfl, hrest⟩ := Prod.mk.inj h
    exact ⟨Option.some.inj hrest, rfl⟩
  | cons input inputs ih =>
    unfold serSignatures at h
    split at h
    · cases (Prod.mk.inj h).2
    · next sigs b' hsigs =>
      generalize hothers : serSignatures inputs b' = e at h
      obtain ⟨others, tail⟩ := e
      obtain ⟨rfl, rfl⟩ := Prod.mk.inj h
      obtain ⟨hb', hcounts⟩ := ih hothers
      obtain ⟨hb, hcount⟩ := Reader.elements_yields yields_serSignature hsigs
      rw [hb, hb']
      exact ⟨by simp, by simp [hcount, hcounts]⟩

theorem yields_serTransaction : Reader.Yields serTransaction fun _ v bs ↦
    transactionToBinary v = some bs := by
  have hsignatures : ∀ v : Transaction, @Reader.Yields (List (List Signature))
      (fun _ b ↦ if isBase v.inputs then ([], some b) else serSignatures v.inputs b)
      fun _ signatures bs ↦ if isBase v.inputs then signatures = [] ∧ bs = [] else
        bs = (signatures.map fun sigs ↦ (sigs.map signatureBytes).flatten).flatten ∧
          signatures.map List.length = v.inputs.map getSignaturesCount := by
    intro v a b signatures rest h
    dsimp only at h
    split at h
    · next hbase =>
      obtain ⟨hnil, hrest⟩ := Prod.mk.inj h
      refine ⟨[], Option.some.inj hrest, ?_⟩
      dsimp only
      rw [if_pos hbase]
      exact ⟨hnil.symm, rfl⟩
    · next hbase =>
      obtain ⟨hb, hcounts⟩ := serSignatures_yields h
      refine ⟨_, hb, ?_⟩
      dsimp only
      rw [if_neg hbase]
      exact ⟨rfl, hcounts⟩
  refine ((Reader.Yields.field yields_serTransactionPrefix).andThen
    (Reader.Yields.dependent fun v ↦ Reader.Yields.field (hsignatures v))).imp ?_
  rintro _ _ _ ⟨_, _, bs, rfl, ⟨v, rfl, rfl⟩, signatures, rfl, h⟩
  have hbin : signaturesToBinary { toTransactionPrefix := v, signatures := signatures } =
      some bs := by
    unfold signaturesToBinary
    dsimp only at h ⊢
    split at h
    · next hbase => rw [if_pos (.inl hbase), h.2]
    · next hbase =>
      by_cases hnil : v.inputs = []
      · rw [hnil, List.map_nil, List.map_eq_nil_iff] at h
        rw [if_pos (.inr hnil), h.1, h.2]
        rfl
      · rw [if_neg (not_or.2 ⟨hbase, hnil⟩), if_pos h.2, h.1]
  rw [transactionToBinary, hbin]
  rfl

/-! ## Blocks -/

theorem yields_serBlockHeader : Reader.Yields serBlockHeader fun _ v bs ↦
    blockHeaderToBinary v = some bs := by
  have hrest : ∀ v : BlockHeader, @Reader.Yields BlockHeader
      (if v.majorVersion = 1 then
        ((Reader.field BlockHeader.timestamp (fun v x ↦ { v with timestamp := x })
          serUInt32).andThen
          (Reader.field BlockHeader.previousBlockHash (fun v x ↦ { v with previousBlockHash := x })
            serPod)).andThen
          (Reader.field BlockHeader.nonce (fun v x ↦ { v with nonce := x }) serNonce)
      else if 2 ≤ v.majorVersion then
        Reader.field BlockHeader.previousBlockHash (fun v x ↦ { v with previousBlockHash := x })
          serPod
      else Reader.throw)
      fun a a' bs ↦ a'.majorVersion = a.majorVersion ∧ a'.minorVersion = a.minorVersion ∧
        if v.majorVersion = 1 then bs = writeVarint a'.timestamp.toNat ++
          podBytes a'.previousBlockHash ++ nonceBytes a'.nonce
        else 2 ≤ v.majorVersion ∧ bs = podBytes a'.previousBlockHash := by
    intro v
    by_cases hone : v.majorVersion = 1
    · simp only [if_pos hone]
      refine (((Reader.Yields.field yields_serUInt32).andThen
        (Reader.Yields.field yields_serPod)).andThen (Reader.Yields.field yields_serNonce)).imp ?_
      rintro _ _ _ ⟨_, _, _, rfl, ⟨_, _, _, rfl, ⟨timestamp, rfl, rfl⟩, prev, rfl, rfl⟩, nonce, rfl,
        rfl⟩
      exact ⟨rfl, rfl, rfl⟩
    · simp only [if_neg hone]
      by_cases htwo : 2 ≤ v.majorVersion
      · simp only [htwo, if_true, true_and]
        refine (Reader.Yields.field yields_serPod).imp ?_
        rintro _ _ _ ⟨prev, rfl, rfl⟩
        exact ⟨rfl, rfl, rfl⟩
      · simp only [if_neg htwo]
        exact Reader.Yields.throw.imp fun _ _ _ h ↦ h.elim
  refine (((Reader.Yields.field yields_serUInt8).andThen
    (Reader.Yields.field yields_serUInt8)).andThen (Reader.Yields.dependent hrest)).imp ?_
  rintro _ v _ ⟨_, _, _, rfl, ⟨_, _, _, rfl, ⟨major, rfl, rfl⟩, minor, rfl, rfl⟩, hmajor, hminor,
    hbytes⟩
  dsimp only at hmajor hminor hbytes
  unfold blockHeaderToBinary
  rw [hmajor, hminor]
  dsimp only
  split at hbytes
  · next hone => rw [if_pos hone, hbytes]
  · next hone => rw [if_neg hone, if_pos hbytes.1, hbytes.2]

/-- What follows the transaction count, with the integer after the base transaction. -/
def parentBlockTailWire (v : ParentBlock) (ignored : ℕ) : Option Bytes :=
  if v.baseTransactionBranch.length = treeDepth v.transactionCount.toNat then
    match getMergeMiningTagFromExtra v.baseTransaction.extra with
    | none => none
    | some tag =>
      if 8 * 32 < tag.depth.toNat then none
      else if tag.depth.toNat = v.blockchainBranch.length then
        some ((v.baseTransactionBranch.map podBytes).flatten ++
          (baseTransactionWire v.baseTransaction ignored ++
            (v.blockchainBranch.map podBytes).flatten))
      else none
  else none

/-- A parent block with the transaction count it was read from. -/
def parentBlockWire (v : BlockTemplate) (count ignored : ℕ) : Option Bytes :=
  if v.parentBlock.transactionCount < 1 then none
  else do
    let tail ← parentBlockTailWire v.parentBlock ignored
    some (parentBlockHeadBytes v ++ (writeVarint count ++ tail))

/-- A block template with the two integers of the parent block that are not kept. -/
def blockTemplateWire (v : BlockTemplate) (count ignored : ℕ) : Option Bytes := do
  let header ← blockHeaderToBinary v.toBlockHeader
  let parent ← (if 2 ≤ v.majorVersion then parentBlockWire v count ignored else some [])
  let miner ← transactionToBinary v.baseTransaction
  some (header ++ (parent ++ (miner ++ vectorBytes podBytes v.transactionHashes)))

/-- The writer puts the 16-bit count and zero there. -/
theorem blockTemplateWire_eq (v : BlockTemplate) :
    blockTemplateWire v v.parentBlock.transactionCount.toNat 0 = blockTemplateToBinary v := rfl

theorem yields_parentBlockTail (v : BlockTemplate) : @Reader.Yields BlockTemplate
    (if v.parentBlock.transactionCount < 1 then Reader.throw
    else
      (parentField ParentBlock.baseTransactionBranch
        (fun p x ↦ { p with baseTransactionBranch := x })
        (serFixedVector (treeDepth v.parentBlock.transactionCount.toNat) 0 serPod)).andThen <|
      (parentField ParentBlock.baseTransaction (fun p x ↦ { p with baseTransaction := x })
        serBaseTransaction).andThen <|
      Reader.dependent fun v ↦
        match getMergeMiningTagFromExtra v.parentBlock.baseTransaction.extra with
        | none => Reader.throw
        | some tag =>
          if 8 * 32 < tag.depth.toNat then Reader.throw
          else parentField ParentBlock.blockchainBranch (fun p x ↦ { p with blockchainBranch := x })
            (serFixedVector tag.depth.toNat 0 serPod))
    fun a a' bs ↦ ¬ v.parentBlock.transactionCount < 1 ∧ ∃ branch base chain ignored,
      a' = { a with parentBlock := { a.parentBlock with
        baseTransactionBranch := branch
        baseTransaction := base
        blockchainBranch := chain } } ∧
      (a.parentBlock.transactionCount = v.parentBlock.transactionCount →
        parentBlockTailWire a'.parentBlock ignored = some bs) := by
  have hlast : ∀ v : BlockTemplate, @Reader.Yields BlockTemplate
      (match getMergeMiningTagFromExtra v.parentBlock.baseTransaction.extra with
        | none => Reader.throw
        | some tag =>
          if 8 * 32 < tag.depth.toNat then Reader.throw
          else parentField ParentBlock.blockchainBranch (fun p x ↦ { p with blockchainBranch := x })
            (serFixedVector tag.depth.toNat 0 serPod))
      fun a a' bs ↦ ∃ tag chain, getMergeMiningTagFromExtra v.parentBlock.baseTransaction.extra =
          some tag ∧ ¬ 8 * 32 < tag.depth.toNat ∧
        a' = { a with parentBlock := { a.parentBlock with blockchainBranch := chain } } ∧
        bs = (chain.map podBytes).flatten ∧ chain.length = tag.depth.toNat := by
    intro v
    split
    · exact Reader.Yields.throw.imp fun _ _ _ h ↦ h.elim
    · next tag htag =>
      split
      · exact Reader.Yields.throw.imp fun _ _ _ h ↦ h.elim
      · next hdepth =>
        refine (Reader.Yields.field (yields_serFixedVector yields_serPod)).imp ?_
        rintro _ _ _ ⟨chain, rfl, rfl, hlen⟩
        exact ⟨tag, chain, htag, hdepth, rfl, rfl, hlen⟩
  split
  · exact Reader.Yields.throw.imp fun _ _ _ h ↦ h.elim
  · next hcount =>
    refine ((Reader.Yields.field (yields_serFixedVector yields_serPod)).andThen
      ((Reader.Yields.field yields_serBaseTransaction).andThen
        (Reader.Yields.dependent hlast))).imp ?_
    rintro a _ _ ⟨_, _, _, rfl, ⟨branch, rfl, rfl, hbranch⟩, _, _, _, rfl,
      ⟨base, rfl, ignored, rfl⟩, tag, chain, htag, hdepth, rfl, rfl, hchain⟩
    refine ⟨hcount, branch, base, chain, ignored, rfl, fun hsame ↦ ?_⟩
    dsimp only at htag ⊢
    rw [parentBlockTailWire]
    dsimp only
    rw [hsame, if_pos hbranch, htag]
    dsimp only
    rw [if_neg hdepth, if_pos hchain.symm]

theorem yields_serParentBlock : Reader.Yields serParentBlock fun a v bs ↦ ∃ count ignored,
    UInt16.ofNat count = v.parentBlock.transactionCount ∧
    parentBlockWire v count ignored = some bs ∧
    v = { a with
      timestamp := v.timestamp
      nonce := v.nonce
      parentBlock := v.parentBlock } := by
  refine ((Reader.Yields.field yields_serUInt8).andThen <|
    (Reader.Yields.field yields_serUInt8).andThen <|
    (Reader.Yields.field yields_serUInt32).andThen <|
    (Reader.Yields.field yields_serPod).andThen <|
    (Reader.Yields.field yields_serNonce).andThen <|
    (Reader.Yields.field (yields_serVarint (le_refl 64))).andThen <|
    Reader.Yields.dependent yields_parentBlockTail).imp ?_
  rintro a _ _ ⟨_, _, _, rfl, ⟨major, rfl, rfl⟩, _, _, _, rfl, ⟨minor, rfl, rfl⟩, _, _, _, rfl,
    ⟨timestamp, rfl, rfl⟩, _, _, _, rfl, ⟨prev, rfl, rfl⟩, _, _, _, rfl, ⟨nonce, rfl, rfl⟩, _, _, _,
    rfl, ⟨_, rfl, count, -, rfl, rfl⟩, hcount, branch, base, chain, ignored, rfl, htail⟩
  refine ⟨count, ignored, rfl, ?_, rfl⟩
  rw [parentBlockWire, if_neg hcount, htail rfl, parentBlockHeadBytes]
  simp only [List.append_assoc]
  rfl

/-- Accepted bytes of a block template are its own, but for the two integers. -/
theorem yields_serBlockTemplate : Reader.Yields serBlockTemplate fun _ v bs ↦ ∃ count ignored,
    (2 ≤ v.majorVersion → UInt16.ofNat count = v.parentBlock.transactionCount) ∧
    blockTemplateWire v count ignored = some bs := by
  have hparent : ∀ v : BlockTemplate, @Reader.Yields BlockTemplate
      (if 2 ≤ v.majorVersion then serParentBlock else Reader.done)
      fun a a' bs ↦ ∃ count ignored,
        (2 ≤ v.majorVersion → UInt16.ofNat count = a'.parentBlock.transactionCount) ∧
        (if 2 ≤ v.majorVersion then parentBlockWire a' count ignored else some []) = some bs ∧
        a' = { a with
          timestamp := a'.timestamp
          nonce := a'.nonce
          parentBlock := a'.parentBlock } ∧
        (¬ 2 ≤ v.majorVersion → a' = a) := by
    intro v
    by_cases htwo : 2 ≤ v.majorVersion
    · simp only [if_pos htwo]
      refine yields_serParentBlock.imp ?_
      rintro a v' bs ⟨count, ignored, hcount, hwire, hv⟩
      exact ⟨count, ignored, fun _ ↦ hcount, hwire, hv, fun hnot ↦ absurd htwo hnot⟩
    · simp only [if_neg htwo]
      refine Reader.Yields.done.imp ?_
      rintro a _ _ ⟨rfl, rfl⟩
      exact ⟨0, 0, fun h ↦ absurd h htwo, rfl, rfl, fun _ ↦ rfl⟩
  refine ((Reader.Yields.field yields_serBlockHeader).andThen <|
    (Reader.Yields.dependent hparent).andThen <|
    (Reader.Yields.field yields_serTransaction).andThen <|
    Reader.Yields.field (yields_serVector yields_serPod)).imp ?_
  rintro a _ _ ⟨_, _, _, rfl, ⟨header, rfl, hheader⟩, v, parent, _, rfl,
    ⟨count, ignored, hcount, hwire, hv, hsame⟩, _, _, _, rfl, ⟨miner, rfl, hminer⟩, hashes, rfl,
    rfl⟩
  dsimp only at hcount hwire hv hsame
  have hmajor : v.majorVersion = header.majorVersion := by rw [hv]
  have hsameHeader : blockHeaderToBinary v.toBlockHeader = blockHeaderToBinary header := by
    by_cases htwo : 2 ≤ header.majorVersion
    · -- from version 2 on the header writes neither timestamp nor nonce
      have hone : header.majorVersion ≠ 1 := fun hone ↦ by
        rw [hone] at htwo
        exact absurd htwo (by decide)
      rw [hv]
      simp only [blockHeaderToBinary, if_neg hone]
    · rw [hsame htwo]
  refine ⟨count, ignored, fun htwo ↦ hcount (hmajor ▸ htwo), ?_⟩
  have hparentWire : (if 2 ≤ v.majorVersion then parentBlockWire
      { v with
        baseTransaction := miner
        transactionHashes := hashes } count ignored else some []) = some parent := by
    rw [hmajor]
    exact hwire
  rw [blockTemplateWire]
  dsimp only
  rw [hsameHeader, hheader, hparentWire, hminer]
  rfl

/-! ## Whole objects -/

theorem of_fromBinary {α : Type} {r : Reader α} {fresh v : α} {blob : BinaryArray}
    {P : α → α → Bytes → Prop} (hr : Reader.Yields r P)
    (h : fromBinary r fresh blob = (v, true)) : P fresh v blob := by
  unfold fromBinary at h
  split at h
  · next v' hread =>
    obtain ⟨rfl, -⟩ := Prod.mk.inj h
    obtain ⟨bs, hblob, hP⟩ := hr _ _ _ _ hread
    rw [List.append_nil] at hblob
    exact hblob ▸ hP
  · cases (Prod.mk.inj h).2

theorem yields_serRawBlock : Reader.Yields serRawBlock fun _ v bs ↦ bs = rawBlockBytes v := by
  refine ((Reader.Yields.field yields_serBinaryArray).andThen
    (Reader.Yields.field (yields_serVector yields_serBinaryArray))).imp ?_
  rintro _ _ _ ⟨_, _, _, rfl, ⟨block, rfl, rfl⟩, transactions, rfl, rfl⟩
  rfl

/-- The binary format in both directions.  Transactions and raw blocks are written as they were
read; so is a block template but for the two integers of its parent block, which are written as
the 16-bit count and zero; and what is written for a well-formed value is read back as it. -/
theorem binaryFormat_exact :
    (∀ (blob : BinaryArray) (tx : Transaction), fromBinary serTransaction {} blob = (tx, true) →
      transactionToBinary tx = some blob) ∧
    (∀ (blob : BinaryArray) (raw : RawBlock), fromBinary serRawBlock {} blob = (raw, true) →
      rawBlockBytes raw = blob) ∧
    (∀ (blob : BinaryArray) (v : BlockTemplate), fromBinary serBlockTemplate {} blob = (v, true) →
      ∃ count ignored,
        (2 ≤ v.majorVersion → UInt16.ofNat count = v.parentBlock.transactionCount) ∧
        blockTemplateWire v count ignored = some blob ∧
        (count < 2 ^ 16 → ignored = 0 → blockTemplateToBinary v = some blob)) ∧
    (∀ (tx : Transaction) (bs : Bytes), tx.WellFormed → transactionToBinary tx = some bs →
      fromBinary serTransaction {} bs = (tx, true)) ∧
    (∀ raw : RawBlock, raw.FitsMemory →
      fromBinary serRawBlock {} (rawBlockBytes raw) = (raw, true)) ∧
    ∀ (v : BlockTemplate) (bs : Bytes), v.WellFormed → blockTemplateToBinary v = some bs →
      fromBinary serBlockTemplate {} bs = (v, true) := by
  refine ⟨fun blob tx h ↦ of_fromBinary yields_serTransaction h,
    fun blob raw h ↦ (of_fromBinary yields_serRawBlock h).symm, fun blob v h ↦ ?_,
    fun tx bs hwf hbin ↦ fromBinary_of_reads (reads_serTransaction {} tx hwf hbin),
    fun raw hfits ↦ fromBinary_rawBlockBytes raw hfits,
    fun v bs hwf hbin ↦ fromBinary_of_reads (reads_serBlockTemplate hwf hbin)⟩
  obtain ⟨count, ignored, hcount, hwire⟩ := of_fromBinary yields_serBlockTemplate h
  refine ⟨count, ignored, hcount, hwire, fun hlt hzero ↦ ?_⟩
  rw [← hwire, hzero, ← blockTemplateWire_eq]
  by_cases htwo : 2 ≤ v.majorVersion
  · rw [← hcount htwo, UInt16.toNat_ofNat_of_lt' hlt]
  · simp only [blockTemplateWire, if_neg htwo]

end Naza.Seria

namespace Naza

/-! ## An ignored integer -/

/-- The bytes of `firstTestnetBlock` with a parent base transaction of version 2 and the integer
that follows it. -/
def ignoredIntegerBlob (ignored : ℕ) : BinaryArray :=
  let block := Seria.blockTemplateWire { firstTestnetBlock with
    parentBlock := { firstTestnetBlock.parentBlock with
      baseTransaction := { firstTestnetBlock.parentBlock.baseTransaction with version := 2 } } }
    1 ignored
  block.getD []

/-- Two byte strings are accepted as one block template. -/
theorem ignoredIntegerBlob_accepted :
    Seria.fromBinary Seria.serBlockTemplate {} (ignoredIntegerBlob 0) =
      Seria.fromBinary Seria.serBlockTemplate {} (ignoredIntegerBlob 1) ∧
    (Seria.fromBinary Seria.serBlockTemplate {} (ignoredIntegerBlob 1)).2 = true ∧
    ignoredIntegerBlob 0 ≠ ignoredIntegerBlob 1 := by
  decide +kernel

/-- The bytes of the first testnet block, which is merge-mined. -/
def firstTestnetBlob : BinaryArray := (Seria.blockTemplateToBinary firstTestnetBlock).getD []

theorem wellFormed_firstTestnetBlock : firstTestnetBlock.WellFormed where
  parent h := absurd h (by decide)
  parentBase := ⟨by decide, fun _ h ↦ absurd h List.not_mem_nil, by decide, by decide⟩
  base :=
    ⟨⟨by decide, fun _ h ↦ List.mem_singleton.1 h ▸ trivial, by decide, by decide⟩, fun _ ↦ rfl⟩
  hashes := by decide

/-- The raw block of the first testnet block, with a transaction in it. -/
def firstTestnetRawBlock : RawBlock := ⟨firstTestnetBlob, [(sampleCoinbase 1 7 [1, 2]).bytes]⟩

/-- A coinbase, a merge-mined template and a raw block: each is read from its bytes, and the bytes
are those that it was read from. -/
theorem binaryFormat_exact_firstTestnetBlock :
    Seria.transactionToBinary (sampleCoinbase 1 7 [1, 2]) =
      some (sampleCoinbase 1 7 [1, 2]).bytes ∧
    (Seria.fromBinary Seria.serBlockTemplate {} firstTestnetBlob = (firstTestnetBlock, true) ∧
      ∃ count ignored,
        UInt16.ofNat count = 1 ∧
        Seria.blockTemplateWire firstTestnetBlock count ignored = some firstTestnetBlob) ∧
    Seria.fromBinary Seria.serRawBlock {} (Seria.rawBlockBytes firstTestnetRawBlock) =
      (firstTestnetRawBlock, true) := by
  have hbin : Seria.blockTemplateToBinary firstTestnetBlock = some firstTestnetBlob := by
    decide +kernel
  obtain ⟨htransaction, -, htemplate, -, hraw, hback⟩ := Seria.binaryFormat_exact
  have hread := hback firstTestnetBlock firstTestnetBlob wellFormed_firstTestnetBlock hbin
  obtain ⟨count, ignored, hcount, hwire, -⟩ := htemplate _ _ hread
  exact ⟨htransaction _ _ (by decide +kernel), ⟨hread, count, ignored, hcount (by decide), hwire⟩,
    hraw firstTestnetRawBlock (by decide +kernel)⟩

end Naza
