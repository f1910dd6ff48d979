import Naza.RoundTrip
import Naza.Frames
import Naza.Acceptance

/-!
# Runs as sequences of elementary changes

`add_block` stores a block, counts children, connects and disconnects blocks and gives
transactions back to the pool.  `Change` names these elementary changes, and every event of a run
is shown to be a sequence of them, so that an invariant is proved by looking at each change once.
-/

open Lib Relation

namespace Naza

variable {cr : Crypto} {c : Currency}

/-! ## Prepared blocks -/

/-- A prepared block as the constructor leaves it, whatever the raw block was. -/
structure PreparedBlock.Built (cr : Crypto) (pb : PreparedBlock) : Prop where
  fits : pb.rawBlock.FitsMemory
  blockData_eq : pb.blockData = Seria.rawBlockBytes pb.rawBlock
  block_eq : pb.block = (Block.fromRawBlock pb.rawBlock).1
  bid_eq : if (Block.fromRawBlock pb.rawBlock).2 then
    getBlockHash cr pb.block.header = some pb.bid else pb.bid = 0
  coinbase : ∃ coinbase, Seria.transactionToBinary pb.block.header.baseTransaction = some coinbase ∧
    pb.baseTransactionHash = cr.cnFastHash coinbase ∧ pb.coinbaseTxSize = coinbase.length
  longHash : pb.longBlockHash = 0 ∨ getBlockLongHash cr pb.block.header = .ok pb.longBlockHash

theorem PreparedBlock.built_of_ofRawBlock {raw : RawBlock} {context : Bool} {pb : PreparedBlock}
    (hfits : raw.FitsMemory) (h : PreparedBlock.ofRawBlock cr raw context = .ok pb) :
    pb.Built cr ∧ pb.rawBlock = raw := by
  simp only [PreparedBlock.ofRawBlock, bind_eq_ok_iff, orThrow_eq_ok_iff] at h
  obtain ⟨bid, hbid, coinbase, hcoinbase, longHash, hlong, h⟩ := h
  have h := Except.ok.inj h
  subst h
  refine ⟨⟨hfits, rfl, rfl, ?_, ⟨coinbase, hcoinbase, rfl, rfl⟩, ?_⟩, rfl⟩
  · dsimp only
    split at hbid
    · next hv => rw [if_pos hv]; simpa using hbid
    · next hv => rw [if_neg hv]; exact (Except.ok.inj hbid).symm
  · dsimp only
    cases context with
    | false => exact .inl (Except.ok.inj hlong).symm
    | true => exact .inr hlong

/-- The base transaction hash is the hash of the coinbase. -/
theorem PreparedBlock.Built.getTransactionHash_eq {pb : PreparedBlock} (h : pb.Built cr) :
    getTransactionHash cr pb.block.header.baseTransaction = some pb.baseTransactionHash := by
  obtain ⟨coinbase, hcoinbase, hhash, -⟩ := h.coinbase
  rw [getTransactionHash, hcoinbase, hhash]
  rfl

/-! ## Stored blocks -/

/-- Every header stored in one state is stored in the other. -/
def HeadersWithin (s t : State) : Prop :=
  ∀ bid info, s.db.headers.get bid = some info → t.db.headers.get bid = some info

/-- The block passed the check of `add_block` in a state. -/
structure State.Accepts (cr : Crypto) (c : Currency) (s : State) (now : Timestamp)
    (pb : PreparedBlock) (prev info : Api.BlockHeader) : Prop where
  fresh : s.db.headers.get pb.bid = none
  prev_eq : s.prevInfo c pb = some prev
  check : s.checkStandaloneConsensus cr c now pb (blockInfo pb prev) prev true = .accept info

/-- A block of the tree: stored with its header since it passed the check in an earlier state. -/
structure State.Stores (cr : Crypto) (c : Currency) (s : State) (pb : PreparedBlock)
    (info : Api.BlockHeader) : Prop where
  built : pb.Built cr
  header : s.db.headers.get pb.bid = some info
  block : s.db.blocks.get pb.bid = some pb.blockData
  accepted : ∃ s₀ now prev, HeadersWithin s₀ s ∧ s₀.Accepts cr c now pb prev info

theorem State.Stores.info_eq {s : State} {pb : PreparedBlock} {info : Api.BlockHeader}
    (h : s.Stores cr c pb info) : ∃ (prev : Api.BlockHeader) (m : Measures),
      info = m.info c pb (blockInfo pb prev) prev := by
  obtain ⟨s₀, now, prev, -, haccepts⟩ := h.accepted
  obtain ⟨m, -, hinfo⟩ := checkStandaloneConsensus_eq_accept_iff.1 haccepts.check
  exact ⟨prev, m, hinfo⟩

theorem State.Stores.hash_eq {s : State} {pb : PreparedBlock} {info : Api.BlockHeader}
    (h : s.Stores cr c pb info) : info.hash = pb.bid := by
  obtain ⟨prev, m, rfl⟩ := h.info_eq
  rfl

theorem State.Stores.previousBlockHash_eq {s : State} {pb : PreparedBlock}
    {info : Api.BlockHeader} (h : s.Stores cr c pb info) :
    info.previousBlockHash = pb.block.header.previousBlockHash := by
  obtain ⟨prev, m, rfl⟩ := h.info_eq
  rfl

theorem State.Stores.timestamp_eq {s : State} {pb : PreparedBlock} {info : Api.BlockHeader}
    (h : s.Stores cr c pb info) : info.timestamp = pb.block.header.timestamp := by
  obtain ⟨prev, m, rfl⟩ := h.info_eq
  rfl

/-- A stored block stays stored while headers and blocks do. -/
theorem State.Stores.mono {s t : State} {pb : PreparedBlock} {info : Api.BlockHeader}
    (h : s.Stores cr c pb info) (hheaders : HeadersWithin s t)
    (hblock : t.db.blocks.get pb.bid = s.db.blocks.get pb.bid) : t.Stores cr c pb info := by
  obtain ⟨s₀, now, prev, hwithin, haccepts⟩ := h.accepted
  exact {
    built := h.built
    header := hheaders _ _ h.header
    block := hblock.trans h.block
    accepted :=
      ⟨s₀, now, prev, fun bid info hget ↦ hheaders _ _ (hwithin bid info hget), haccepts⟩ }

/-- The stored bytes decode to the raw block they were made from. -/
theorem State.Stores.readBlock_eq {s : State} {pb : PreparedBlock} {info : Api.BlockHeader}
    (h : s.Stores cr c pb info) : s.readBlock pb.bid = .ok (some (pb.blockData, pb.rawBlock)) := by
  rw [State.readBlock, h.block, h.built.blockData_eq]
  simp only [Seria.fromBinary_rawBlockBytes _ h.built.fits]

/-! ## Elementary changes -/

/-- One elementary change of a run; blocks are stored only where `P` allows it. -/
inductive Change (cr : Crypto) (c : Currency) (P : State → PreparedBlock → Prop) :
    State → State → Prop where
  | addTransaction {s s' : State} {tid : Hash} {tx : Transaction} {binaryTx : BinaryArray}
      {result : AddTransactionResult} {conflictHeight : Height} :
      s.addTransaction cr c tid tx binaryTx = .ok (result, conflictHeight, s') → Change cr c P s s'
  | clearPool (s : State) : Change cr c P s { s with pool := {} }
  | poolVersion (s : State) (version : UInt32) : Change cr c P s { s with txPoolVersion := version }
  | cacheNextIndex (s : State) (amount : Amount) : Change cr c P s { s with
      nextGiForAmount := s.nextGiForAmount.put amount (s.nextGlobalIndexForAmount amount) }
  | storeBlock {s s' : State} {now : Timestamp} {pb : PreparedBlock} {prev info : Api.BlockHeader} :
      P s pb → pb.Built cr → (pb.bid = c.genesisBlockHash ∨ s.db.chain.get 0 ≠ none) →
        s.Accepts cr c now pb prev info → s.storeBlock pb info = .ok s' → Change cr c P s s'
  | countChild {s : State} {bid : Hash} (cd : Difficulty) (delta : UInt32) :
      s.db.headers.get bid ≠ none → Change cr c P s (s.modifyChildrenCounter cd bid delta)
  | connect {s s₁ s' : State} {pb : PreparedBlock} {info : Api.BlockHeader} :
      s.Stores cr c pb info →
        (pb.bid ≠ c.genesisBlockHash ∧ pb.block.header.previousBlockHash = s.tipBid ∨
          pb.bid = c.genesisBlockHash ∧ s.db.chain.get 0 = none) →
        s.redoBlockIndexed cr c pb.bid pb.blockData pb.rawBlock pb.block info
          pb.baseTransactionHash = .ok (some s₁) →
        s₁.pushChain c info = .ok s' → Change cr c P s s'
  | disconnect {s s' : State} {undone undone' : State.UndoneTransactions} :
      s.undoTip cr c undone = .ok (undone', s') → Change cr c P s s'
  | readTip {s s₁ s' : State} :
      s.db.chain.get 0 = some c.genesisBlockHash → State.readTip s.db = .ok s₁ →
        s₁.tipChanged c = .ok s' → Change cr c P s s'
  | tipChanged {s s' : State} : s.tipChanged c = .ok s' → Change cr c P s s'

/-- Any number of changes. -/
abbrev Changes (cr : Crypto) (c : Currency) (P : State → PreparedBlock → Prop) :
    State → State → Prop :=
  ReflTransGen (Change cr c P)

/-! ## Frames of the tip -/

namespace State

variable {s s' : State}

theorem tipChanged_eq (h : s.tipChanged c = .ok s') : ∃ tip size timestamp,
    s.getTip = .ok tip ∧ s.calculateConsensusValues c tip = .ok (size, timestamp) ∧
      s' = { s with nextMedianSize := size, nextMedianTimestamp := timestamp } := by
  simp only [State.tipChanged, bind_eq_ok_iff, Prod.exists] at h
  obtain ⟨tip, htip, size, timestamp, hvalues, h⟩ := h
  exact ⟨tip, size, timestamp, htip, hvalues, (Except.ok.inj h).symm⟩

theorem pushChain_eq {header : Api.BlockHeader} (h : s.pushChain c header = .ok s') :
    s.db.chain.get (s.tipHeight + 1) = none ∧ ∃ size timestamp,
      s' = { s with
        db := { s.db with chain := s.db.chain.put (s.tipHeight + 1) header.hash }
        tipHeight := s.tipHeight + 1
        tipBid := header.hash
        tipCumulativeDifficulty := header.cumulativeDifficulty
        nextMedianSize := size
        nextMedianTimestamp := timestamp } := by
  simp only [pushChain, bind_eq_ok_iff, dbWrite_eq_ok_iff, Store.putNew_eq_ok_iff] at h
  obtain ⟨chain, ⟨hnone, rfl⟩, h⟩ := h
  obtain ⟨-, size, timestamp, -, -, rfl⟩ := tipChanged_eq h
  exact ⟨hnone, size, timestamp, rfl⟩

theorem popChain_eq {newTipBid : Hash} (h : s.popChain newTipBid = .ok s') :
    s.tipHeight ≠ 0 ∧ (s.db.chain.remove s.tipHeight).get (s.tipHeight - 1) = some newTipBid ∧
      ∃ tip, s.db.headers.get newTipBid = some tip ∧
        s' = { s with
          db := { s.db with chain := s.db.chain.remove s.tipHeight }
          tipHeight := s.tipHeight - 1
          tipBid := newTipBid
          tipCumulativeDifficulty := tip.cumulativeDifficulty } := by
  simp only [popChain, bind_eq_ok_iff, dbWrite_eq_ok_iff, Store.removeExisting_eq_ok_iff,
    invariant_eq_ok_iff, readChain, getTip, expect_eq_ok_iff] at h
  obtain ⟨⟨⟩, hne, chain, ⟨-, rfl⟩, bid, hbid, ⟨⟩, rfl, tip, htip, h⟩ := h
  exact ⟨hne, hbid, tip, htip, (Except.ok.inj h).symm⟩

theorem undoTip_eq {undone undone' : UndoneTransactions} (h : s.undoTip cr c undone =
    .ok (undone', s')) : ∃ blockData raw block s₁ s₂,
      s.readBlock s.tipBid = .ok (some (blockData, raw)) ∧
      Block.fromRawBlock raw = (block, true) ∧
      s.undoBlockIndexed cr s.tipBid block s.tipHeight = .ok s₁ ∧
      s₁.popChain block.header.previousBlockHash = .ok s₂ ∧ s₂.tipChanged c = .ok s' := by
  simp only [undoTip, bind_eq_ok_iff, invariant_eq_ok_iff, expect_eq_ok_iff, Prod.exists] at h
  obtain ⟨stored, hread, blockData, raw, hstored, ⟨⟩, hverdict, s₁, h₁, s₂, h₂, s₃, h₃, h⟩ := h
  have h := (Prod.mk.inj (Except.ok.inj h)).2
  exact ⟨blockData, raw, (Block.fromRawBlock raw).1, s₁, s₂, hstored ▸ hread,
    Prod.ext rfl hverdict, h₁, h₂, h ▸ h₃⟩

theorem storeBlock_eq {pb : PreparedBlock} {info : Api.BlockHeader}
    (h : s.storeBlock pb info = .ok s') :
    s.db.headers.get pb.bid = none ∧ ∃ blocks,
      (s.db.blocks.get pb.bid = none → blocks = s.db.blocks.put pb.bid pb.blockData) ∧
      (s.db.blocks.get pb.bid ≠ none → blocks = s.db.blocks) ∧
      s' = { s with db := { s.db with
        blocks, headers := s.db.headers.put pb.bid info } } := by
  simp only [storeBlock, bind_eq_ok_iff, dbWrite_eq_ok_iff, Store.putNew_eq_ok_iff] at h
  obtain ⟨blocks, hblocks, headers, ⟨hnone, rfl⟩, h⟩ := h
  refine ⟨hnone, blocks, ?_, ?_, (Except.ok.inj h).symm⟩
  · intro hblock
    simp only [hasBlock, hblock, Option.isSome_none, Bool.false_eq_true, if_false,
      dbWrite_eq_ok_iff, Store.putNew_eq_ok_iff] at hblocks
    exact hblocks.2
  · intro hblock
    rw [hasBlock, if_pos (Option.isSome_iff_ne_none.2 hblock)] at hblocks
    exact (Except.ok.inj hblocks).symm

theorem modifyChildrenCounter_tipCumulativeDifficulty (cd : Difficulty) (bid : Hash)
    (delta : UInt32) :
    (s.modifyChildrenCounter cd bid delta).tipCumulativeDifficulty =
      s.tipCumulativeDifficulty := rfl

theorem modifyChildrenCounter_chain (cd : Difficulty) (bid : Hash) (delta : UInt32) :
    (s.modifyChildrenCounter cd bid delta).db.chain = s.db.chain := rfl

end State

end Naza
