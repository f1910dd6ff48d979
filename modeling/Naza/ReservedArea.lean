import Naza.AmountParts
import Naza.Concrete
import Naza.TransactionIndex

/-!
# The reserved area of a block template

Where the extra nonce of the coinbase stands in a block template, and where `getblocktemplate` says
it does: the search finds the transaction key, behind which the tag and the size of the nonce take
two bytes, and three are added.
-/

open Lib

namespace Naza

/-- The extra field that `construct_miner_tx` and the padding leave. -/
def minerExtra (key : PublicKey) (nonce : BinaryArray) (padding : ℕ) : BinaryArray :=
  (TransactionExtra.publicKeyTag :: Seria.podBytes key) ++
    ((TransactionExtra.nonceTag :: UInt8.ofNat nonce.length :: nonce) ++ List.replicate padding 0)

theorem length_minerExtra (key : PublicKey) (nonce : BinaryArray) (padding : ℕ) :
    (minerExtra key nonce padding).length = 35 + nonce.length + padding := by
  simp only [minerExtra, List.length_append, List.length_cons, Seria.length_podBytes,
    List.length_replicate]
  omega

/-- The key is what `get_transaction_public_key_from_extra` finds. -/
theorem getTransactionPublicKeyFromExtra_minerExtra (key : PublicKey) (nonce : BinaryArray)
    (padding : ℕ) : getTransactionPublicKeyFromExtra (minerExtra key nonce padding) = key := by
  have hkey := Seria.length_podBytes key
  have hparse : (TransactionExtra.parse (minerExtra key nonce padding)).1.head? =
      some (.publicKey key) := by
    rw [TransactionExtra.parse, length_minerExtra, minerExtra, List.cons_append,
      show 35 + nonce.length + padding = 34 + nonce.length + padding + 1 by omega,
      TransactionExtra.parseFields.eq_def]
    dsimp only
    rw [if_neg (by decide), if_pos rfl, if_pos (by rw [List.length_append]; omega), ← hkey,
      List.take_left, Seria.podOfBytes_podBytes]
    rfl
  obtain ⟨fields, hfields⟩ := List.head?_eq_some_iff.1 hparse
  rw [getTransactionPublicKeyFromExtra, hfields]
  rfl

/-! ## The coinbase -/

/-- A coinbase as `construct_miner_tx` leaves it, with padding. -/
structure IsMinerTx (key : PublicKey) (nonce : BinaryArray) (padding : ℕ) (tx : Transaction) :
    Prop where
  extra : tx.extra = minerExtra key nonce padding
  input : ∃ height, tx.inputs = [.coinbaseInput { blockIndex := height }]
  outputs : tx.outputs.length ≤ 11
  signatures : tx.signatures = []
  nonce_le : nonce.length ≤ txExtraNonceMaxCount

theorem length_of_mapM {α β : Type} {f : α → Option β} {l : List α} {ys : List β}
    (h : l.mapM f = some ys) : ys.length = l.length := by
  induction l generalizing ys with
  | nil =>
    rw [List.mapM_nil] at h
    exact Option.some.inj h ▸ rfl
  | cons x l ih =>
    simp only [List.mapM_cons, Option.bind_eq_bind, Option.bind_eq_some_iff] at h
    obtain ⟨y, -, ys', hys, h⟩ := h
    rw [← Option.some.inj h, List.length_cons, List.length_cons, ih hys]

theorem isMinerTx_of_constructMinerTx {c : Currency} {w : WalletCrypto} {txkey : KeyPair}
    {blockMajorVersion : UInt8} {height : Height} {effectiveMedianSize currentBlockSize : UInt64}
    {alreadyGeneratedCoins fee : Amount} {minerAddress : AccountPublicAddress}
    {nonce : BinaryArray} {tx : Transaction} (hnonce : nonce ≠ [])
    (h : c.constructMinerTx w txkey blockMajorVersion height effectiveMedianSize
      alreadyGeneratedCoins currentBlockSize fee minerAddress nonce 11 = some tx) :
    IsMinerTx txkey.publicKey nonce 0 tx := by
  simp only [Currency.constructMinerTx, if_neg hnonce, Option.bind_eq_bind,
    Option.bind_eq_some_iff] at h
  obtain ⟨extra, hextra, outputs, houtputs, h⟩ := h
  split_ifs at h with hsum
  have h := Option.some.inj h
  subst h
  unfold addExtraNonceToTransactionExtra at hextra
  split_ifs at hextra with hlong
  refine ⟨?_, ⟨height, rfl⟩, ?_, rfl, Nat.not_lt.1 hlong⟩
  · rw [← Option.some.inj hextra, minerExtra, addTransactionPublicKeyToExtra, List.replicate_zero,
      List.append_nil, List.nil_append]
  · change outputs.length ≤ 11
    rw [length_of_mapM houtputs, List.length_zipIdx]
    exact length_minerAmounts_le _ _

/-- Padding at the end of the extra field. -/
theorem IsMinerTx.pad {key : PublicKey} {nonce : BinaryArray} {padding : ℕ} {tx : Transaction}
    (h : IsMinerTx key nonce 0 tx) :
    IsMinerTx key nonce padding { tx with extra := tx.extra ++ List.replicate padding 0 } where
  extra := by
    change tx.extra ++ List.replicate padding 0 = _
    rw [h.extra, minerExtra, minerExtra, List.replicate_zero, List.append_nil, List.append_assoc]
  input := h.input
  outputs := h.outputs
  signatures := h.signatures
  nonce_le := h.nonce_le

/-- The loop ends with a coinbase that was constructed, and padding. -/
theorem isMinerTx_of_tryMinerTx {construct : ℕ → ℕ → Option Transaction} {keys : ℕ → KeyPair}
    {nonce : BinaryArray} {txsSize : ℕ}
    (hconstruct : ∀ k size tx, construct k size = some tx → IsMinerTx (keys k).publicKey nonce 0 tx)
    {tries k cumulativeSize : ℕ} {tx : Transaction}
    (h : tryMinerTx construct txsSize tries k cumulativeSize = .ok (some tx)) :
    ∃ k padding, IsMinerTx (keys k).publicKey nonce padding tx := by
  induction tries generalizing k cumulativeSize with
  | zero => cases h
  | succ tries ih =>
    unfold tryMinerTx at h
    split at h
    · cases h
    · next first hfirst =>
      have hminer := hconstruct _ _ _ hfirst
      simp only [bind_eq_ok_iff] at h
      obtain ⟨size, hsize, h⟩ := h
      split_ifs at h with hlarge hsmall
      · exact ih h
      · simp only [bind_eq_ok_iff] at h
        obtain ⟨paddedSize, hpadded, h⟩ := h
        split_ifs at h with hfits hone
        · exact ⟨k, _, Option.some.inj (Except.ok.inj h) ▸ hminer.pad⟩
        · cases h
        · simp only [bind_eq_ok_iff] at h
          obtain ⟨shorterSize, hshorter, h⟩ := h
          split_ifs at h with hretry
          · exact ih h
          · have h := Option.some.inj (Except.ok.inj h)
            -- one byte of padding is taken back
            obtain ⟨n, hn⟩ : ∃ n, cumulativeSize - txsSize - size = n + 1 :=
              ⟨cumulativeSize - txsSize - size - 1, by omega⟩
            have hshort : (first.extra ++ List.replicate (n + 1) 0).take
                ((first.extra ++ List.replicate (n + 1) 0).length - 1) =
                first.extra ++ List.replicate n 0 := by
              rw [List.replicate_succ', ← List.append_assoc, List.length_append,
                List.length_singleton, Nat.add_sub_cancel, List.take_left]
            simp only [hn, hshort] at h
            exact ⟨k, n, h ▸ hminer.pad⟩
      · exact ⟨k, 0, Option.some.inj (Except.ok.inj h) ▸ hminer⟩

/-! ## The template -/

/-- A template as `create_mining_block_template` leaves it. -/
structure IsMiningTemplate (c : Currency) (key : PublicKey) (nonce : BinaryArray) (padding : ℕ)
    (b : BlockTemplate) : Prop where
  coinbase : IsMinerTx key nonce padding b.baseTransaction
  version : b.majorVersion = 1 ∨ 2 ≤ b.majorVersion
  parent : b.parentBlock = (templateVersions c b.majorVersion).parentBlock

theorem one_or_two_le_getBlockMajorVersionForHeight (c : Currency) (height : Height) :
    c.getBlockMajorVersionForHeight height = 1 ∨ 2 ≤ c.getBlockMajorVersionForHeight height := by
  unfold Currency.getBlockMajorVersionForHeight
  split_ifs
  · exact .inl rfl
  · exact .inr (by decide)
  · exact .inr (by decide)
  · exact .inr (by decide)

theorem templateVersions_majorVersion (c : Currency) (majorVersion : UInt8) :
    (templateVersions c majorVersion).majorVersion = majorVersion := by
  unfold templateVersions
  split_ifs <;> rfl

theorem isMiningTemplate_of_create {cr : Crypto} {c : Currency} {w : WalletCrypto} {s : State}
    {now : Timestamp} {keys : ℕ → KeyPair} {adr : AccountPublicAddress} {nonce : BinaryArray}
    {b : BlockTemplate} {difficulty : Difficulty} {height : Height} (hnonce : nonce ≠ [])
    (h : s.createMiningBlockTemplate cr c w now keys adr nonce =
      .ok (some (b, difficulty, height))) :
    ∃ k padding, IsMiningTemplate c (keys k).publicKey nonce padding b := by
  simp only [State.createMiningBlockTemplate, bind_eq_ok_iff] at h
  obtain ⟨tip, -, window, -, difficulty', -, h⟩ := h
  split_ifs at h with hzero
  · cases h
  · simp only [bind_eq_ok_iff, Prod.exists] at h
    obtain ⟨txsSize, fee, hashes, -, h⟩ := h
    split at h
    · cases h
    · next first hfirst =>
      simp only [bind_eq_ok_iff] at h
      obtain ⟨size, -, chosen, htry, h⟩ := h
      cases chosen with
      | none => cases h
      | some baseTransaction =>
        obtain ⟨k, padding, hminer⟩ := isMinerTx_of_tryMinerTx
          (fun k size tx hc ↦ isMinerTx_of_constructMinerTx hnonce hc) htry
        obtain ⟨rfl, -⟩ := Prod.mk.inj (Option.some.inj (Except.ok.inj h))
        refine ⟨k, padding, hminer, ?_, ?_⟩
        · simp only [templateVersions_majorVersion]
          exact one_or_two_le_getBlockMajorVersionForHeight c _
        · simp only [templateVersions_majorVersion]

/-! ## The layout of the blob -/

/-- What the serializer writes of a template in front of the extra field of its coinbase. -/
def BlockTemplate.frontBytes (b : BlockTemplate) : Bytes :=
  (Seria.blockHeaderToBinary b.toBlockHeader).getD [] ++
    ((if 2 ≤ b.majorVersion then Seria.parentBlockToBinary b else some []).getD [] ++
      ((((Seria.writeVarint b.baseTransaction.version.toNat ++
          Seria.writeVarint b.baseTransaction.unlockTime.toNat) ++
        Seria.vectorBytes Seria.transactionInputBytes b.baseTransaction.inputs) ++
        Seria.vectorBytes Seria.transactionOutputBytes b.baseTransaction.outputs) ++
        Seria.writeVarint b.baseTransaction.extra.length))

/-- The template with another extra field in its coinbase. -/
def BlockTemplate.withExtra (b : BlockTemplate) (extra : BinaryArray) : BlockTemplate :=
  { b with baseTransaction := { b.baseTransaction with extra } }

theorem BlockTemplate.frontBytes_withExtra {b : BlockTemplate} {extra : BinaryArray}
    (hlength : extra.length = b.baseTransaction.extra.length) :
    (b.withExtra extra).frontBytes = b.frontBytes := by
  have heq : (b.withExtra extra).baseTransaction.extra.length = b.baseTransaction.extra.length :=
    hlength
  rw [frontBytes, heq]
  rfl

theorem transactionToBinary_of_isBase {tx : Transaction} (hbase : Seria.isBase tx.inputs = true) :
    Seria.transactionToBinary tx = some (Seria.transactionPrefixBytes tx.toTransactionPrefix) := by
  rw [Seria.transactionToBinary, Seria.signaturesToBinary, if_pos (.inl hbase)]
  simp

/-- The blob: the bytes in front, the extra field, and the hashes of the transactions. -/
theorem blockTemplateToBinary_eq {b : BlockTemplate} {blob : Bytes}
    (hbase : Seria.isBase b.baseTransaction.inputs = true)
    (h : Seria.blockTemplateToBinary b = some blob) :
    blob = b.frontBytes ++ (b.baseTransaction.extra ++
      Seria.vectorBytes Seria.podBytes b.transactionHashes) := by
  simp only [Seria.blockTemplateToBinary, Option.bind_eq_bind, Option.bind_eq_some_iff,
    transactionToBinary_of_isBase hbase] at h
  obtain ⟨header, hheader, parent, hparent, miner, hminer, h⟩ := h
  rw [← Option.some.inj h, ← Option.some.inj hminer, BlockTemplate.frontBytes, hheader, hparent,
    Seria.transactionPrefixBytes, Seria.binaryArrayBytes]
  simp only [Option.getD_some, List.append_assoc]

/-- An extra field of the same size leaves the rest of the blob as it is. -/
theorem blockTemplateToBinary_withExtra {b : BlockTemplate} {blob : Bytes} {extra : BinaryArray}
    (hbase : Seria.isBase b.baseTransaction.inputs = true)
    (h : Seria.blockTemplateToBinary b = some blob)
    (hlength : extra.length = b.baseTransaction.extra.length) :
    Seria.blockTemplateToBinary (b.withExtra extra) = some (b.frontBytes ++ (extra ++
      Seria.vectorBytes Seria.podBytes b.transactionHashes)) := by
  have hbase' : Seria.isBase (b.withExtra extra).baseTransaction.inputs = true := hbase
  have hsome : ∃ blob', Seria.blockTemplateToBinary (b.withExtra extra) = some blob' := by
    simp only [Seria.blockTemplateToBinary, Option.bind_eq_bind, Option.bind_eq_some_iff,
      transactionToBinary_of_isBase hbase, transactionToBinary_of_isBase hbase'] at h ⊢
    obtain ⟨header, hheader, parent, hparent, miner, hminer, h⟩ := h
    exact ⟨_, header, hheader, parent, hparent, _, rfl, rfl⟩
  obtain ⟨blob', hblob'⟩ := hsome
  rw [hblob', blockTemplateToBinary_eq hbase' hblob', BlockTemplate.frontBytes_withExtra hlength]
  rfl

/-- Bytes written over a part of a blob. -/
def overwrite (blob : Bytes) (offset : ℕ) (w : Bytes) : Bytes :=
  blob.take offset ++ (w ++ blob.drop (offset + w.length))

/-- Writing over the place of the nonce writes another nonce. -/
theorem overwrite_minerExtra (front back : Bytes) (key : PublicKey) {nonce w : BinaryArray}
    (padding : ℕ) (hlength : w.length = nonce.length) :
    overwrite (front ++ (minerExtra key nonce padding ++ back)) (front.length + 35) w =
      front ++ (minerExtra key w padding ++ back) := by
  have hsplit : ∀ v : BinaryArray, v.length = nonce.length →
      front ++ (minerExtra key v padding ++ back) =
        (front ++ ((TransactionExtra.publicKeyTag :: Seria.podBytes key) ++
          [TransactionExtra.nonceTag, UInt8.ofNat nonce.length])) ++
          (v ++ (List.replicate padding 0 ++ back)) := by
    intro v hv
    simp [minerExtra, hv]
  have hfront : (front ++ ((TransactionExtra.publicKeyTag :: Seria.podBytes key) ++
      [TransactionExtra.nonceTag, UInt8.ofNat nonce.length])).length = front.length + 35 := by
    simp
  rw [overwrite, hsplit nonce rfl, hsplit w hlength, List.take_left' hfront, hlength,
    ← List.drop_drop, List.drop_left' hfront, List.drop_left]

/-! ## What a miner may write -/

section MiningTemplate

variable {c : Currency} {key : PublicKey} {nonce : BinaryArray} {padding : ℕ} {b : BlockTemplate}

theorem IsMinerTx.isBase {tx : Transaction} (h : IsMinerTx key nonce padding tx) :
    Seria.isBase tx.inputs = true := by
  obtain ⟨height, hinput⟩ := h.input
  rw [hinput]
  rfl

theorem length_podVector (hashes : List Hash) :
    32 * hashes.length ≤ (Seria.vectorBytes Seria.podBytes hashes).length := by
  have hflatten : ((hashes.map Seria.podBytes).flatten).length = 32 * hashes.length := by
    induction hashes with
    | nil => rfl
    | cons hash hashes ih =>
      rw [List.map_cons, List.flatten_cons, List.length_append, ih, Seria.length_podBytes,
        List.length_cons]
      omega
  rw [Seria.vectorBytes, List.length_append, hflatten]
  omega

/-- The parent block of every template from version 2 on. -/
def miningParentBlock : ParentBlock where
  majorVersion := 1
  transactionCount := 1
  baseTransaction := { extra := appendMergeMiningTagToExtra [] {} }

theorem templateVersions_parentBlock (c : Currency) (majorVersion : UInt8) :
    (templateVersions c majorVersion).parentBlock =
      if majorVersion ≠ 1 ∧ 2 ≤ majorVersion then miningParentBlock else {} := by
  by_cases hone : majorVersion = 1
  · have hnot : ¬(majorVersion ≠ 1 ∧ 2 ≤ majorVersion) := fun h ↦ h.1 hone
    rw [templateVersions, if_pos hone, if_neg hnot]
  · by_cases htwo : 2 ≤ majorVersion
    · have hboth : majorVersion ≠ 1 ∧ 2 ≤ majorVersion := ⟨hone, htwo⟩
      rw [templateVersions, if_neg hone, if_pos htwo, if_pos hboth]
      rfl
    · have hnot : ¬(majorVersion ≠ 1 ∧ 2 ≤ majorVersion) := fun h ↦ htwo h.2
      rw [templateVersions, if_neg hone, if_neg htwo, if_neg hnot]

theorem parent_sized (c : Currency) (majorVersion : UInt8) :
    (templateVersions c majorVersion).parentBlock.baseTransaction.Sized := by
  rw [templateVersions_parentBlock]
  split_ifs
  · exact ⟨Nat.zero_le _, by simp [miningParentBlock], Nat.zero_le _, by decide⟩
  · exact ⟨Nat.zero_le _, by simp, Nat.zero_le _, by decide⟩

/-- With another nonce of the same size the template is still read back from its bytes. -/
theorem IsMiningTemplate.fromBinary_withExtra (h : IsMiningTemplate c key nonce padding b)
    {blob : Bytes} (hblob : Seria.blockTemplateToBinary b = some blob)
    (hmemory : blob.length < 2 ^ 63) {w : BinaryArray} (hlength : w.length = nonce.length) :
    Seria.fromBinary Seria.serBlockTemplate {} (b.frontBytes ++ (minerExtra key w padding ++
      Seria.vectorBytes Seria.podBytes b.transactionHashes)) =
      (b.withExtra (minerExtra key w padding), true) := by
  have hextra : (minerExtra key w padding).length = b.baseTransaction.extra.length := by
    rw [h.coinbase.extra, length_minerExtra, length_minerExtra, hlength]
  have hbase := h.coinbase.isBase
  have heq := blockTemplateToBinary_eq hbase hblob
  have hhashes := length_podVector b.transactionHashes
  have hbound : b.baseTransaction.extra.length +
      (Seria.vectorBytes Seria.podBytes b.transactionHashes).length < 2 ^ 63 := by
    rw [heq, List.length_append, List.length_append] at hmemory
    omega
  obtain ⟨height, hinput⟩ := h.coinbase.input
  refine Seria.fromBinary_of_reads
    (Seria.reads_serBlockTemplate ⟨?_, ?_, ⟨⟨?_, ?_, ?_, ?_⟩, ?_⟩, ?_⟩
    (blockTemplateToBinary_withExtra hbase hblob hextra))
  · intro hone
    change b.parentBlock = {}
    rw [h.parent, show b.majorVersion = 1 from hone]
    rfl
  · change b.parentBlock.baseTransaction.Sized
    rw [h.parent]
    exact parent_sized c _
  · change b.baseTransaction.inputs.length ≤ _
    rw [hinput, List.length_singleton]
    decide
  · intro input hmem
    change input ∈ b.baseTransaction.inputs at hmem
    rw [hinput, List.mem_singleton] at hmem
    rw [hmem]
    trivial
  · exact h.coinbase.outputs.trans (by decide)
  · change (minerExtra key w padding).length < 2 ^ 64
    omega
  · intro _
    exact h.coinbase.signatures
  · change b.transactionHashes.length ≤ Seria.maxVectorSize 32
    rw [Seria.maxVectorSize, Nat.le_div_iff_mul_le (by norm_num)]
    omega

/-! ## Where the key is found -/

theorem length_writeVarint_le (n : ℕ) : (Seria.writeVarint n).length ≤ 10 :=
  TransactionExtra.length_writeVarintBytes_le 10 n

theorem length_blockHeaderToBinary_le (header : BlockHeader) :
    ((Seria.blockHeaderToBinary header).getD []).length ≤ 66 := by
  have h₁ := length_writeVarint_le header.majorVersion.toNat
  have h₂ := length_writeVarint_le header.minorVersion.toNat
  have h₃ := length_writeVarint_le header.timestamp.toNat
  unfold Seria.blockHeaderToBinary
  split_ifs
  · simp only [Option.getD_some, List.length_append, Seria.length_podBytes, Seria.length_nonceBytes]
    omega
  · simp only [Option.getD_some, List.length_append, Seria.length_podBytes]
    omega
  · exact Nat.zero_le _

theorem length_parentBlockTail :
    ((Seria.parentBlockTailToBinary miningParentBlock).getD []).length ≤ 100 := by
  decide

theorem length_parentBlockToBinary_le (h : b.parentBlock = miningParentBlock) :
    ((Seria.parentBlockToBinary b).getD []).length ≤ 200 := by
  have h₁ := length_writeVarint_le b.parentBlock.majorVersion.toNat
  have h₂ := length_writeVarint_le b.parentBlock.minorVersion.toNat
  have h₃ := length_writeVarint_le b.timestamp.toNat
  have h₄ := length_writeVarint_le b.parentBlock.transactionCount.toNat
  have htail := length_parentBlockTail
  rw [← h] at htail
  unfold Seria.parentBlockToBinary
  split_ifs
  · exact Nat.zero_le _
  · cases hsome : Seria.parentBlockTailToBinary b.parentBlock with
    | none => exact Nat.zero_le _
    | some tail =>
      rw [hsome] at htail
      simp only [Option.getD_some] at htail
      simp only [Option.bind_eq_bind, Option.bind_some, Option.getD_some, List.length_append,
        Seria.parentBlockHeadBytes, Seria.length_podBytes, Seria.length_nonceBytes]
      omega

theorem length_outputs_le (outputs : List TransactionOutput) :
    (Seria.vectorBytes Seria.transactionOutputBytes outputs).length ≤ 10 + 43 * outputs.length := by
  have hflatten : ((outputs.map Seria.transactionOutputBytes).flatten).length ≤
      43 * outputs.length := by
    induction outputs with
    | nil => exact Nat.zero_le _
    | cons output outputs ih =>
      have hamount := length_writeVarint_le output.amount.toNat
      have hlength : (Seria.transactionOutputBytes output).length =
          (Seria.writeVarint output.amount.toNat).length + 33 := by
        rw [Seria.transactionOutputBytes, List.length_append]
        rfl
      rw [List.map_cons, List.flatten_cons, List.length_append, hlength, List.length_cons]
      omega
  have hcount := length_writeVarint_le outputs.length
  rw [Seria.vectorBytes, List.length_append]
  omega

/-- What stands in front of the extra field is short. -/
theorem IsMiningTemplate.length_frontBytes (h : IsMiningTemplate c key nonce padding b) :
    b.frontBytes.length ≤ 1000 := by
  have hheader := length_blockHeaderToBinary_le b.toBlockHeader
  have hparent : ((if 2 ≤ b.majorVersion then Seria.parentBlockToBinary b else some []).getD
      []).length ≤ 200 := by
    split_ifs with htwo
    · refine length_parentBlockToBinary_le ?_
      have hone : b.majorVersion ≠ 1 := by
        intro hone
        rw [hone] at htwo
        exact absurd htwo (by decide)
      rw [h.parent, templateVersions_parentBlock, if_pos ⟨hone, htwo⟩]
    · exact Nat.zero_le _
  have hversion := length_writeVarint_le b.baseTransaction.version.toNat
  have hunlock := length_writeVarint_le b.baseTransaction.unlockTime.toNat
  have hinputs : (Seria.vectorBytes Seria.transactionInputBytes
      b.baseTransaction.inputs).length ≤ 21 := by
    obtain ⟨height, hinput⟩ := h.coinbase.input
    have hcount := length_writeVarint_le 1
    have hheight := length_writeVarint_le
      ({ blockIndex := height } : CoinbaseInput).blockIndex.toNat
    rw [hinput, Seria.vectorBytes, List.length_append, List.map_singleton, List.flatten_singleton,
      Seria.transactionInputBytes, List.length_singleton, List.length_cons]
    omega
  have houtputs := length_outputs_le b.baseTransaction.outputs
  have hcount := h.coinbase.outputs
  have hextra := length_writeVarint_le b.baseTransaction.extra.length
  rw [BlockTemplate.frontBytes]
  simp only [List.length_append]
  omega

end MiningTemplate

/-- Bytes that stand one place further behind one more byte are all that byte. -/
theorem eq_replicate_of_prefix_cons {a : UInt8} {pat rest : Bytes}
    (h : pat <+: a :: (pat ++ rest)) : pat = List.replicate pat.length a := by
  induction pat generalizing a with
  | nil => rfl
  | cons b pat ih =>
    rw [List.cons_prefix_cons] at h
    obtain ⟨rfl, h⟩ := h
    rw [List.length_cons, List.replicate_succ, ← ih h]

/-- Where the key of the extra field is found, and that it is not found before. -/
theorem exists_slowMemmem_eq {pat buf : BinaryArray} {position : ℕ} (hne : pat ≠ [])
    (hat : pat <+: buf.drop position) :
    ∃ first ≤ position, slowMemmem pat buf = some first ∧ pat <+: buf.drop first ∧
      ∀ j < first, ¬pat <+: buf.drop j := by
  classical
  have hex : ∃ j, pat <+: buf.drop j := ⟨position, hat⟩
  refine ⟨Nat.find hex, Nat.find_le hat, slowMemmem_eq_some hne ?_ fun j hj ↦ ?_, Nat.find_spec hex,
    fun j hj ↦ Nat.find_min hex hj⟩
  · rw [List.isPrefixOf_iff_prefix]
    exact Nat.find_spec hex
  · rw [Bool.eq_false_iff, ne_eq, List.isPrefixOf_iff_prefix]
    exact Nat.find_min hex hj

/-! ## The reserved area -/

open GetBlockTemplate

/-- The bytes given away are those of the nonce: they stand where the nonce does, and whatever is
written there, the blob is read as the template with this nonce. -/
structure ReservesNonce (b : BlockTemplate) (key : PublicKey) (padding : ℕ) (size : ℕ)
    (res : Response) : Prop where
  range : res.reservedOffset.toNat = b.frontBytes.length + 35
  reads : ∀ w : BinaryArray, w.length = size →
    Seria.fromBinary Seria.serBlockTemplate {}
        (overwrite res.blocktemplateBlob res.reservedOffset.toNat w) =
      (b.withExtra (minerExtra key w padding), true)

/-- The key is 32 times the tag in front of it, and does not stand in front of this tag. -/
structure KeyRepeatsTag (front : Bytes) (key : PublicKey) : Prop where
  key_eq : Seria.podBytes key = List.replicate 32 TransactionExtra.publicKeyTag
  first : ∀ j < front.length, ¬Seria.podBytes key <+:
    (front ++ TransactionExtra.publicKeyTag :: Seria.podBytes key).drop j

theorem orFault_eq_ok_iff {α : Type} {x : Except Fault α} {a : α} :
    orFault x = .ok a ↔ x = .ok a := by
  cases x <;> simp [orFault]

/-- What an answer to a request for reserved bytes comes from. -/
theorem getblocktemplate_eq {cr : Crypto} {c : Currency} {w : WalletCrypto} {s : State}
    {now : Timestamp} {keys : ℕ → KeyPair} {req : Request} {res : Response}
    (hsize : 0 < req.reserveSize)
    (h : s.getblocktemplate cr c w now keys req = .ok res) :
    ∃ acc b, s.createMiningBlockTemplate cr c w now keys acc
        (List.replicate req.reserveSize.toNat 0) = .ok (some (b, res.difficulty, res.height)) ∧
      Seria.blockTemplateToBinary b = some res.blocktemplateBlob ∧
      res.reservedOffset = findKey (getTransactionPublicKeyFromExtra b.baseTransaction.extra)
        res.blocktemplateBlob + (32 + 3) := by
  unfold State.getblocktemplate at h
  split_ifs at h with hlarge
  split at h
  · cases h
  · next acc hacc =>
    simp only [bind_eq_ok_iff, orFault_eq_ok_iff] at h
    obtain ⟨created, hcreated, h⟩ := h
    cases created with
    | none => cases h
    | some created =>
      obtain ⟨b, difficulty, height⟩ := created
      simp only [bind_eq_ok_iff, orFault_eq_ok_iff, orThrow_eq_ok_iff] at h
      obtain ⟨blob, hblob, h⟩ := h
      split_ifs at h with hzero hfound
      simp only [bind_eq_ok_iff, orFault_eq_ok_iff] at h
      obtain ⟨tip, -, h⟩ := h
      have h := Except.ok.inj h
      subst h
      exact ⟨acc, b, hcreated, hblob, rfl⟩

/-- An answer with the template it was made from, and the place where the key was found. -/
structure Answered (c : Currency) (key : PublicKey) (padding size : ℕ) (res : Response)
    (b : BlockTemplate) (first : ℕ) : Prop where
  template : IsMiningTemplate c key (List.replicate size 0) padding b
  blob : Seria.blockTemplateToBinary b = some res.blocktemplateBlob
  /-- the key stands behind its tag -/
  front : ∃ rest, res.blocktemplateBlob =
    b.frontBytes ++ TransactionExtra.publicKeyTag :: Seria.podBytes key ++ rest
  found : Seria.podBytes key <+: res.blocktemplateBlob.drop first
  first_le : first ≤ b.frontBytes.length + 1
  not_before : ∀ j < first, ¬Seria.podBytes key <+: res.blocktemplateBlob.drop j
  offset : res.reservedOffset.toNat = first + 35

theorem answered_of_getblocktemplate {cr : Crypto} {c : Currency} {w : WalletCrypto} {s : State}
    {now : Timestamp} {keys : ℕ → KeyPair} {req : Request} {res : Response}
    (hsize : 0 < req.reserveSize) (h : s.getblocktemplate cr c w now keys req = .ok res) :
    ∃ b k padding first,
      Answered c (keys k).publicKey padding req.reserveSize.toNat res b first := by
  obtain ⟨acc, b, hcreated, hblob, hoffset⟩ := getblocktemplate_eq hsize h
  have hnonce : List.replicate req.reserveSize.toNat (0 : UInt8) ≠ [] := by
    intro hnil
    have hlength := congrArg List.length hnil
    rw [List.length_replicate, List.length_nil] at hlength
    rw [UInt32.lt_iff_toNat_lt, hlength] at hsize
    exact Nat.lt_irrefl _ hsize
  obtain ⟨k, padding, htemplate⟩ := isMiningTemplate_of_create hnonce hcreated
  have hextra := htemplate.coinbase.extra
  have hlayout := blockTemplateToBinary_eq htemplate.coinbase.isBase hblob
  rw [hextra, getTransactionPublicKeyFromExtra_minerExtra] at hoffset
  have hkeyLength := Seria.length_podBytes (keys k).publicKey
  have hne : Seria.podBytes (keys k).publicKey ≠ [] := by
    intro hnil
    rw [hnil] at hkeyLength
    cases hkeyLength
  obtain ⟨rest, hfront⟩ : ∃ rest, res.blocktemplateBlob =
      b.frontBytes ++ TransactionExtra.publicKeyTag :: Seria.podBytes (keys k).publicKey ++
        rest := by
    rw [hlayout, hextra, minerExtra]
    simp only [List.cons_append, List.append_assoc]
    exact ⟨_, rfl⟩
  have hplace : Seria.podBytes (keys k).publicKey <+:
      res.blocktemplateBlob.drop (b.frontBytes.length + 1) := by
    rw [hfront, List.append_assoc, ← List.drop_drop, List.drop_left, List.cons_append,
      List.drop_succ_cons, List.drop_zero]
    exact List.prefix_append _ _
  obtain ⟨first, hle, hsearch, hat, hfirst⟩ := exists_slowMemmem_eq hne hplace
  have hshort := htemplate.length_frontBytes
  refine ⟨b, k, padding, first, htemplate, hblob, ⟨rest, hfront⟩, hat, hle, hfirst, ?_⟩
  have hsmall : first < 2 ^ 32 := by omega
  rw [hoffset, findKey, hsearch, Option.getD_some, UInt32.toNat_add, UInt32.toNat_ofNat',
    Nat.mod_eq_of_lt hsmall]
  change (first + 35) % 2 ^ 32 = first + 35
  exact Nat.mod_eq_of_lt (by omega)

/-- The right offset is given only where the key is found in the place of its tag. -/
theorem Answered.range_iff {c : Currency} {key : PublicKey} {padding size : ℕ} {res : Response}
    {b : BlockTemplate} {first : ℕ} (h : Answered c key padding size res b first) :
    res.reservedOffset.toNat = b.frontBytes.length + 35 ↔ KeyRepeatsTag b.frontBytes key := by
  obtain ⟨rest, hfront⟩ := h.front
  have hoffset := h.offset
  have hdrop : res.blocktemplateBlob.drop b.frontBytes.length =
      TransactionExtra.publicKeyTag :: (Seria.podBytes key ++ rest) := by
    rw [hfront, List.append_assoc, List.drop_left, List.cons_append]
  -- in front of the tag only the bytes up to the key decide
  have hbefore : ∀ j ≤ b.frontBytes.length, Seria.podBytes key <+: res.blocktemplateBlob.drop j ↔
      Seria.podBytes key <+:
        (b.frontBytes ++ TransactionExtra.publicKeyTag :: Seria.podBytes key).drop j := by
    intro j hj
    rw [hfront, List.drop_append_of_le_length (by rw [List.length_append]; omega)]
    refine ⟨fun hat ↦ List.prefix_of_prefix_length_le hat (List.prefix_append _ _) ?_,
      fun hat ↦ hat.trans (List.prefix_append _ _)⟩
    rw [List.length_drop, List.length_append, List.length_cons]
    omega
  constructor
  · intro hrange
    have heq : first = b.frontBytes.length := by omega
    have hat := h.found
    rw [heq, hdrop] at hat
    have hkey := eq_replicate_of_prefix_cons hat
    rw [Seria.length_podBytes] at hkey
    exact ⟨hkey, fun j hj hat ↦ h.not_before j (heq ▸ hj) ((hbefore j hj.le).2 hat)⟩
  · intro hrepeats
    have hthere : Seria.podBytes key <+: res.blocktemplateBlob.drop b.frontBytes.length := by
      rw [hdrop, hrepeats.key_eq]
      exact List.prefix_append _ _
    have hge : ¬first < b.frontBytes.length := fun hlt ↦
      hrepeats.first first hlt ((hbefore first hlt.le).1 h.found)
    have hle : ¬b.frontBytes.length < first := fun hlt ↦ h.not_before _ hlt hthere
    omega

/-- The reserved area is the nonce exactly where the key that was drawn repeats the tag in front of
it and stands nowhere before. -/
theorem getblocktemplate_reservesNonce_iff {cr : Crypto} {c : Currency} {w : WalletCrypto}
    {s : State} {now : Timestamp} {keys : ℕ → KeyPair} {req : Request} {res : Response}
    (hsize : 0 < req.reserveSize) (h : s.getblocktemplate cr c w now keys req = .ok res)
    (hmemory : res.blocktemplateBlob.length < 2 ^ 63) :
    ∃ (b : BlockTemplate) (k padding : ℕ) (back : Bytes),
      Seria.blockTemplateToBinary b = some res.blocktemplateBlob ∧
      b.baseTransaction.extra = minerExtra (keys k).publicKey
        (List.replicate req.reserveSize.toNat 0) padding ∧
      res.blocktemplateBlob = b.frontBytes ++ (b.baseTransaction.extra ++ back) ∧
      (ReservesNonce b (keys k).publicKey padding req.reserveSize.toNat res ↔
        KeyRepeatsTag b.frontBytes (keys k).publicKey) := by
  obtain ⟨b, k, padding, first, hanswered⟩ := answered_of_getblocktemplate hsize h
  have htemplate := hanswered.template
  have hextra := htemplate.coinbase.extra
  have hlayout := blockTemplateToBinary_eq htemplate.coinbase.isBase hanswered.blob
  refine ⟨b, k, padding, _, hanswered.blob, hextra, hlayout,
    fun hreserves ↦ hanswered.range_iff.1 hreserves.range, fun hrepeats ↦ ?_⟩
  have hrange := hanswered.range_iff.2 hrepeats
  refine ⟨hrange, fun w hw ↦ ?_⟩
  have hw' : w.length = (List.replicate req.reserveSize.toNat (0 : UInt8)).length := by
    rw [hw, List.length_replicate]
  rw [hrange, hlayout, hextra, overwrite_minerExtra _ _ _ _ hw']
  exact htemplate.fromBinary_withExtra hanswered.blob hmemory hw'

/-! ## A template above the genesis block -/

/-- Curve operations that give every output a key of its own. -/
def templateWalletCrypto : WalletCrypto where
  generateKeyDerivation _ _ := some 0
  derivePublicKey _ index _ := some (Fin.ofNat _ (1000 + index))
  underivePublicKey _ _ key := key
  deriveSecretKey _ _ key := key
  generateKeyImage key _ := key
  deterministicSecretKey _ _ := 0
  accountAddressAsString _ := ""

/-- A request for two bytes. -/
def sampleRequest : Request where
  reserveSize := 2
  walletAddress := Base58.encodeAddr sampleCrypto Parameters.cryptonotePublicAddressBase58Prefix
    (Seria.podBytes 3 ++ Seria.podBytes 4)

theorem runFromStart_template : returns (runFromStart sampleCrypto testnet []) (fun s ↦
      match s.getblocktemplate sampleCrypto testnet templateWalletCrypto 1000 (fun _ ↦ ⟨5, 6⟩)
        sampleRequest with
      | .ok res => decide (res.blocktemplateBlob.length = 539 ∧ res.reservedOffset = 537)
      | .error _ => false) = true := by
  decide +kernel

theorem template_answered : ∃ (s : State) (res : Response), Reachable sampleCrypto testnet s ∧
    s.getblocktemplate sampleCrypto testnet templateWalletCrypto 1000 (fun _ ↦ ⟨5, 6⟩)
      sampleRequest =
      .ok res ∧ res.blocktemplateBlob.length = 539 ∧ res.reservedOffset = 537 := by
  obtain ⟨s, hrun, htest⟩ := returns_iff.1 runFromStart_template
  split at htest
  · next res hres => exact ⟨s, res, reachable_of_runFromStart hrun, hres, of_decide_eq_true htest⟩
  · cases htest

/-- Two bytes reserved: the second one given away counts the transactions of the block. -/
theorem not_reservesNonce : ∃ (s : State) (res : Response) (b : BlockTemplate) (padding : ℕ),
    Reachable sampleCrypto testnet s ∧
    s.getblocktemplate sampleCrypto testnet templateWalletCrypto 1000 (fun _ ↦ ⟨5, 6⟩)
      sampleRequest =
      .ok res ∧
    Seria.blockTemplateToBinary b = some res.blocktemplateBlob ∧
    b.baseTransaction.extra = minerExtra 5 [0, 0] padding ∧
    ¬ReservesNonce b 5 padding 2 res := by
  obtain ⟨s, res, hreach, hres, -, -⟩ := template_answered
  obtain ⟨b, k, padding, first, hanswered⟩ := answered_of_getblocktemplate (by decide) hres
  refine ⟨s, res, b, padding, hreach, hres, hanswered.blob, hanswered.template.coinbase.extra,
    fun hreserves ↦ ?_⟩
  have hkey := (hanswered.range_iff.1 hreserves.range).key_eq
  exact absurd hkey (by decide)

/-- A key that repeats its tag. -/
def tagKey : PublicKey := Seria.podOfBytes (List.replicate 32 TransactionExtra.publicKeyTag)

theorem runFromStart_tagKey : returns (runFromStart sampleCrypto testnet []) (fun s ↦
      match s.getblocktemplate sampleCrypto testnet templateWalletCrypto 1000 (fun _ ↦ ⟨tagKey, 6⟩)
        sampleRequest with
      | .ok res => decide (res.blocktemplateBlob.length = 539 ∧
          slowMemmem (Seria.podBytes tagKey) res.blocktemplateBlob = some 501 ∧
          res.blocktemplateBlob[534]? = some 2)
      | .error _ => false) = true := by
  decide +kernel

theorem podBytes_tagKey :
    Seria.podBytes tagKey = List.replicate 32 TransactionExtra.publicKeyTag := by
  decide +kernel

/-- With a key that repeats its tag, the two bytes given away are those of the nonce. -/
theorem getblocktemplate_reservesNonce_iff_two : ∃ (s : State) (res : Response),
    Reachable sampleCrypto testnet s ∧
    s.getblocktemplate sampleCrypto testnet templateWalletCrypto 1000 (fun _ ↦ ⟨tagKey, 6⟩)
      sampleRequest = .ok res ∧
    ∃ (b : BlockTemplate) (padding : ℕ),
      Seria.blockTemplateToBinary b = some res.blocktemplateBlob ∧
      b.baseTransaction.extra = minerExtra tagKey [0, 0] padding ∧
      KeyRepeatsTag b.frontBytes tagKey ∧ ReservesNonce b tagKey padding 2 res := by
  obtain ⟨s, hrun, htest⟩ := returns_iff.1 runFromStart_tagKey
  split at htest
  · next res hres =>
    obtain ⟨hlength, hsearch, hmark⟩ := of_decide_eq_true htest
    obtain ⟨b, k, padding, back, hblob, hextra, hlayout, hiff⟩ :=
      getblocktemplate_reservesNonce_iff (by decide) hres (by rw [hlength]; decide)
    have hextra : b.baseTransaction.extra = minerExtra tagKey [0, 0] padding := hextra
    obtain ⟨rest, hfront⟩ : ∃ rest, res.blocktemplateBlob =
        b.frontBytes ++ TransactionExtra.publicKeyTag :: Seria.podBytes tagKey ++ rest := by
      rw [hlayout, hextra, minerExtra]
      simp only [List.cons_append, List.append_assoc]
      exact ⟨_, rfl⟩
    have hle : b.frontBytes.length ≤ 502 := by
      have hlengths := congrArg List.length hlayout
      rw [hlength, hextra, List.length_append, List.length_append, length_minerExtra] at hlengths
      have htwo : ([0, 0] : Bytes).length = 2 := rfl
      omega
    have hne : b.frontBytes.length ≠ 502 := by
      intro heq
      rw [hfront, List.append_assoc, List.getElem?_append_right (by omega), heq, List.cons_append,
        show 534 - 502 = 31 + 1 from rfl, List.getElem?_cons_succ, podBytes_tagKey,
        List.getElem?_append_left (by decide)] at hmark
      exact absurd hmark (by decide)
    have hplace : Seria.podBytes tagKey <+:
        res.blocktemplateBlob.drop (b.frontBytes.length + 1) := by
      rw [hfront, List.append_assoc, ← List.drop_drop, List.drop_left, List.cons_append,
        List.drop_succ_cons, List.drop_zero]
      exact List.prefix_append _ _
    obtain ⟨first, -, hfirst, -, hnone⟩ :=
      exists_slowMemmem_eq (by rw [podBytes_tagKey]; decide) hplace
    rw [hsearch, Option.some_inj] at hfirst
    have hrepeats : KeyRepeatsTag b.frontBytes tagKey := by
      refine ⟨podBytes_tagKey, fun j hj hat ↦ hnone j (by omega) (hat.trans ?_)⟩
      rw [hfront]
      exact (List.prefix_append _ _).drop j
    exact ⟨s, res, reachable_of_runFromStart hrun, hres, b, padding, hblob, hextra, hrepeats,
      hiff.2 hrepeats⟩
  · cases htest

end Naza
