import Naza.Consensus

/-!
# Accepted blocks

`Accepted` lists what `check_standalone_consensus` has established about a block when it returns
the empty string, and `Measures` the quantities it has computed on the way.
-/

open Lib

namespace Naza

variable {cr : Crypto} {c : Currency}

/-- The quantities computed by an accepting check. -/
structure Measures where
  sizeMedian : UInt32
  timestampMedian : Timestamp
  cumulativeSize : ℕ
  window : List Api.BlockHeader
  difficulty : Difficulty
  fee : Amount

namespace Measures

variable (c) (m : Measures) (pb : PreparedBlock)

def effectiveSizeMedian : UInt32 :=
  max m.sizeMedian (c.blockGrantedFullRewardZoneByBlockVersion pb.block.header.majorVersion)

def blockSize : UInt32 := UInt32.ofNat (pb.coinbaseTxSize + m.cumulativeSize)

/-- The reward of a block that carries no penalty and no fee. -/
def baseReward (alreadyGeneratedCoins : Amount) : Amount :=
  (c.getBlockReward pb.block.header.majorVersion (m.effectiveSizeMedian c pb).toUInt64 0
    alreadyGeneratedCoins 0).1

/-- The reward and the emission change of the block. -/
def rewards (alreadyGeneratedCoins : Amount) : Amount × Int64 :=
  c.getBlockReward pb.block.header.majorVersion (m.effectiveSizeMedian c pb).toUInt64
    (m.blockSize pb).toUInt64 alreadyGeneratedCoins m.fee

/-- The header info of the accepted block. -/
def info (info₀ prevInfo : Api.BlockHeader) : Api.BlockHeader :=
  { info₀ with
    sizeMedian := m.sizeMedian
    timestampMedian := m.timestampMedian
    effectiveSizeMedian := m.effectiveSizeMedian c pb
    blockSize := m.blockSize pb
    difficulty := m.difficulty
    cumulativeDifficulty := prevInfo.cumulativeDifficulty + m.difficulty
    baseReward := m.baseReward c pb prevInfo.alreadyGeneratedCoins
    reward := (m.rewards c pb prevInfo.alreadyGeneratedCoins).1
    alreadyGeneratedCoins := prevInfo.alreadyGeneratedCoins +
      (m.rewards c pb prevInfo.alreadyGeneratedCoins).2.toUInt64
    alreadyGeneratedTransactions :=
      prevInfo.alreadyGeneratedTransactions + UInt64.ofNat pb.block.transactions.length + 1
    totalFeeAmount := m.fee
    transactionsCumulativeSize := UInt32.ofNat m.cumulativeSize }

end Measures

/-- What holds of a block that passes the check in a context, and of its measures. -/
structure Accepted (cr : Crypto) (c : Currency) (context : ConsensusContext) (pb : PreparedBlock)
    (info prevInfo : Api.BlockHeader) (checkPow : Bool) (m : Measures) : Prop where
  count_eq : pb.block.transactions.length = pb.block.header.transactionHashes.length ∧
    pb.block.transactions.length = pb.rawBlock.transactions.length
  values_eq : context.values = .ok (m.sizeMedian, m.timestampMedian)
  transactions : checkTransactions cr
    (c.maxTransactionAllowedSize (m.effectiveSizeMedian c pb)) pb.rawBlock.transactions
    pb.block.transactions pb.block.header.transactionHashes = .accept m.cumulativeSize
  size_le : m.blockSize pb ≤ c.maxBlockCumulativeSize info.height
  version : checkParentBlock c pb info.height = .accept ()
  timestamp : checkTimestamp pb.block.header.timestamp context.futureLimit m.timestampMedian =
    .accept ()
  coinbase : checkCoinbase cr c pb.block.header.baseTransaction info.height =
    .accept (m.rewards c pb prevInfo.alreadyGeneratedCoins).1
  window_eq : context.window = .ok m.window
  difficulty_eq : c.nextDifficulty prevInfo.height (m.window.map Api.BlockHeader.timestamp)
    (m.window.map Api.BlockHeader.cumulativeDifficulty) = .ok m.difficulty
  difficulty_ne : m.difficulty ≠ 0
  fee_eq : cumulativeFee pb.block.transactions = .ok m.fee
  semantic : validateTransactions cr (!c.isInSwCheckpointZone info.height) pb.block.transactions =
    .ok ()
  identity : checkIdentity cr c pb info.height info.hash m.difficulty checkPow = .accept ()

/-- A block is accepted exactly when it has measures that the checks agree with. -/
theorem checkInContext_eq_accept_iff {context : ConsensusContext} {pb : PreparedBlock}
    {info₀ prevInfo info : Api.BlockHeader} {checkPow : Bool} :
    checkInContext cr c context pb info₀ prevInfo checkPow = .accept info ↔
      ∃ m : Measures, Accepted cr c context pb info₀ prevInfo checkPow m ∧
        info = m.info c pb info₀ prevInfo := by
  simp only [checkInContext, Check.bind_eq_accept_iff, Check.require_eq_accept_iff,
    Check.lift_eq_accept_iff, Check.ofExcept_eq_accept_iff, Check.pure_eq, Check.accept.injEq,
    Prod.exists]
  constructor
  · rintro ⟨-, hcount, sizeMedian, timestampMedian, hvalues, cumulativeSize, htxs, -, hsize, ⟨⟩,
      hversion, ⟨⟩, htime, minerReward, hcoinbase, window, hwindow, difficulty, hdiff, -, hne, fee,
      hfee, -, hreward, ⟨⟩, hsemantic, ⟨⟩, hidentity, hinfo⟩
    refine ⟨⟨sizeMedian, timestampMedian, cumulativeSize, window, difficulty, fee⟩, ?_, hinfo.symm⟩
    exact {
      count_eq := hcount
      values_eq := hvalues
      transactions := htxs
      size_le := hsize
      version := hversion
      timestamp := htime
      coinbase := hreward ▸ hcoinbase
      window_eq := hwindow
      difficulty_eq := hdiff
      difficulty_ne := hne
      fee_eq := hfee
      semantic := hsemantic
      identity := hidentity }
  · rintro ⟨m, h, hinfo⟩
    exact ⟨(), h.count_eq, m.sizeMedian, m.timestampMedian, h.values_eq, m.cumulativeSize,
      h.transactions, (), h.size_le, (), h.version, (), h.timestamp, _, h.coinbase, m.window,
      h.window_eq, m.difficulty, h.difficulty_eq, (), h.difficulty_ne, m.fee, h.fee_eq, (), rfl, (),
      h.semantic, (), h.identity, hinfo.symm⟩

theorem checkStandaloneConsensus_eq_accept_iff {s : State} {now : Timestamp} {pb : PreparedBlock}
    {info₀ prevInfo info : Api.BlockHeader} {checkPow : Bool} :
    s.checkStandaloneConsensus cr c now pb info₀ prevInfo checkPow = .accept info ↔
      ∃ m : Measures,
        Accepted cr c (s.consensusContext c now prevInfo) pb info₀ prevInfo checkPow m ∧
          info = m.info c pb info₀ prevInfo :=
  checkInContext_eq_accept_iff

namespace Accepted

variable {context : ConsensusContext} {pb : PreparedBlock} {info prevInfo : Api.BlockHeader}
  {checkPow : Bool} {m : Measures}

/-- In the checkpoint zone the hash is one that may stand at its height. -/
theorem checkpoint (h : Accepted cr c context pb info prevInfo checkPow m)
    (hzone : c.isInSwCheckpointZone info.height = true) :
    (c.checkSwCheckpoint info.height info.hash).1 = true := by
  have hid := h.identity
  rw [checkIdentity, if_pos hzone, Check.require_eq_accept_iff] at hid
  exact hid

/-- Only the genesis block stands at height zero. -/
theorem height_ne_zero (h : Accepted cr c context pb info prevInfo checkPow m)
    (hhash : info.hash ≠ c.genesisBlockHash) : info.height ≠ 0 := by
  intro hzero
  have hzone : c.isInSwCheckpointZone info.height = true := by
    simp [Currency.isInSwCheckpointZone, hzero]
  have hcheck := h.checkpoint hzone
  simp only [Currency.checkSwCheckpoint, hzero, or_true, if_true, decide_eq_true_eq] at hcheck
  exact hhash hcheck

end Accepted

end Naza
