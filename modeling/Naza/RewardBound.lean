import Naza.Penalty
import Naza.Concrete
import Naza.Lib.OrderStatistics

/-!
# The reward of an accepted block

`get_block_reward` never refuses a size.  The size limit of `check_standalone_consensus` grows with
the height, the penalty knows the median only, so a block may lie above twice the median; there
the asserts of `get_penalized_amount` fail, and without them its subtraction wraps.
-/

open Lib Relation

namespace Naza

/-- The asserts of `get_penalized_amount` hold for a block, and the coinbase takes no more than
the base reward and the fees. -/
structure RewardBounded (c : Currency) (alreadyGeneratedCoins : Amount)
    (info : Api.BlockHeader) : Prop where
  size_le : info.blockSize.toNat ≤ 2 * info.effectiveSizeMedian.toNat
  base_asserts : Currency.PenalizedAsserts
    (c.calcBaseReward info.majorVersion alreadyGeneratedCoins) info.effectiveSizeMedian.toUInt64
    info.blockSize.toUInt64
  fee_asserts : 2 ≤ info.majorVersion → Currency.PenalizedAsserts info.totalFeeAmount
    info.effectiveSizeMedian.toUInt64 info.blockSize.toUInt64
  base_le : Currency.getPenalizedAmount
    (c.calcBaseReward info.majorVersion alreadyGeneratedCoins) info.effectiveSizeMedian.toUInt64
    info.blockSize.toUInt64 ≤ c.calcBaseReward info.majorVersion alreadyGeneratedCoins
  reward_le : info.reward.toNat ≤
    (c.calcBaseReward info.majorVersion alreadyGeneratedCoins).toNat + info.totalFeeAmount.toNat

/-- The bytes of a block that count for its size, in the 32 bits of `block_size`. -/
def PreparedBlock.size (pb : PreparedBlock) : UInt32 :=
  UInt32.ofNat (pb.coinbaseTxSize + (pb.rawBlock.transactions.map List.length).sum)

/-- The last blocks up to a header bear a size: it lies within twice the mean of two sizes, the
first of which more than half of the blocks reach, and the second at least half of them. -/
def State.LastBlocksBear (s : State) (c : Currency) (prevInfo : Api.BlockHeader) (size : ℕ) :
    Prop :=
  ∃ headers low high, s.getTipSegment prevInfo c.rewardBlocksWindow true = .ok headers ∧
    size ≤ 2 * ((low + high) / 2) ∧
    headers.length < 2 * headers.countP (low ≤ ·.blockSize.toNat) ∧
    headers.length ≤ 2 * headers.countP (high ≤ ·.blockSize.toNat)

variable {cr : Crypto} {c : Currency} {P : State → PreparedBlock → Prop} {isTestnet : Bool}

/-! ## Medians by counting -/

theorem le_toNat_getD_insertionSort_iff {v : List UInt32} {k b : ℕ} (hk : k < v.length)
    (hb : b < 2 ^ 32) : b ≤ ((v.insertionSort (· ≤ ·)).getD k 0).toNat ↔
      v.length ≤ k + v.countP (b ≤ ·.toNat) := by
  have hlength : k < (v.insertionSort (· ≤ ·)).length := by rwa [List.length_insertionSort]
  have hword : ∀ x : UInt32, UInt32.ofNat b ≤ x ↔ b ≤ x.toNat := fun x ↦ by
    rw [UInt32.le_iff_toNat_le, UInt32.toNat_ofNat_of_lt' hb]
  have hcount := rel_getElem_insertionSort_iff hlength (UInt32.ofNat b)
  simp only [hword] at hcount
  rw [List.getD_eq_getElem _ _ hlength]
  exact hcount

/-- Twice the median of sizes that are not too large for it. -/
theorem le_two_mul_medianValue_iff {v : List UInt32} (hsmall : ∀ x ∈ v, x.toNat < 2 ^ 31) {size : ℕ}
    (hpos : 0 < size) : size ≤ 2 * (medianValue v).toNat ↔ ∃ low high,
      size ≤ 2 * ((low + high) / 2) ∧ v.length < 2 * v.countP (low ≤ ·.toNat) ∧
        v.length ≤ 2 * v.countP (high ≤ ·.toNat) := by
  have hget : ∀ k < v.length, ((v.insertionSort (· ≤ ·)).getD k 0).toNat < 2 ^ 31 := by
    intro k hk
    have hlength : k < (v.insertionSort (· ≤ ·)).length := by rwa [List.length_insertionSort]
    rw [List.getD_eq_getElem _ _ hlength]
    exact hsmall _ ((List.perm_insertionSort _ v).mem_iff.1 (List.getElem_mem hlength))
  have hreach : ∀ k < v.length, v.length ≤ k + v.countP
      (((v.insertionSort (· ≤ ·)).getD k 0).toNat ≤ ·.toNat) := fun k hk ↦
    (le_toNat_getD_insertionSort_iff hk (by have := hget k hk; omega)).1 le_rfl
  -- what enough elements reach is no larger than the element at the place
  have hplace : ∀ k < v.length, ∀ b, v.length ≤ k + v.countP (b ≤ ·.toNat) →
      b ≤ ((v.insertionSort (· ≤ ·)).getD k 0).toNat := by
    intro k hk b hcount
    rcases Nat.lt_or_ge b (2 ^ 32) with hb | hb
    · exact (le_toNat_getD_insertionSort_iff hk hb).2 hcount
    · have hnone : v.countP (b ≤ ·.toNat) = 0 := List.countP_eq_zero.2 fun x hx ↦ by
        have := hsmall x hx
        simp only [decide_eq_true_eq]
        omega
      omega
  rw [medianValue]
  split
  · next hnil =>
    subst hnil
    refine iff_of_false (by rw [UInt32.toNat_zero]; omega) ?_
    rintro ⟨low, high, -, hlow, -⟩
    simp at hlow
  next hne =>
  have hlength : 0 < v.length := List.length_pos_iff.2 hne
  dsimp only
  split
  · next hodd =>
    have hmiddle := hreach (v.length / 2) (by omega)
    constructor
    · intro hsize
      exact ⟨_, _, hsize.trans (by rw [← two_mul, Nat.mul_div_cancel_left _ two_pos]),
        by omega, by omega⟩
    · rintro ⟨low, high, hsize, hlow, hhigh⟩
      have hlow := hplace (v.length / 2) (by omega) low (by omega)
      have hhigh := hplace (v.length / 2) (by omega) high (by omega)
      omega
  · next heven =>
    have hlower := hget (v.length / 2 - 1) (by omega)
    have hupper := hget (v.length / 2) (by omega)
    have hmean : (((v.insertionSort (· ≤ ·)).getD (v.length / 2 - 1) 0 +
        (v.insertionSort (· ≤ ·)).getD (v.length / 2) 0) / 2).toNat =
        (((v.insertionSort (· ≤ ·)).getD (v.length / 2 - 1) 0).toNat +
          ((v.insertionSort (· ≤ ·)).getD (v.length / 2) 0).toNat) / 2 := by
      rw [UInt32.toNat_div, UInt32.toNat_add, Nat.mod_eq_of_lt (by omega)]
      rfl
    have hlow := hreach (v.length / 2 - 1) (by omega)
    have hhigh := hreach (v.length / 2) (by omega)
    rw [hmean]
    constructor
    · intro hsize
      exact ⟨_, _, hsize, by omega, by omega⟩
    · rintro ⟨low, high, hsize, hlow, hhigh⟩
      have hlow := hplace (v.length / 2 - 1) (by omega) low (by omega)
      have hhigh := hplace (v.length / 2) (by omega) high (by omega)
      omega

/-! ## The median of the tip -/

/-- The size median kept in a state is that of the last blocks up to the tip. -/
def State.MedianOfTip (c : Currency) (s : State) : Prop :=
  ∀ tip, s.db.headers.get s.tipBid = some tip → ∃ headers,
    s.getTipSegment tip c.rewardBlocksWindow true = .ok headers ∧
      s.nextMedianSize = medianValue (headers.map Api.BlockHeader.blockSize)

namespace State

variable {s t : State}

theorem walkBack_mono (h : HeadersWithin s t) {window : ℕ} {pi : Api.BlockHeader}
    {r : List Api.BlockHeader × Api.BlockHeader} (hok : s.walkBack window pi = .ok r) :
    t.walkBack window pi = .ok r := by
  induction window generalizing pi r with
  | zero => exact hok
  | succ window ih =>
    unfold walkBack at hok ⊢
    split at hok
    · next hzero => rw [if_pos hzero, hok]
    · next hzero =>
      simp only [bind_eq_ok_iff, readHeader, expect_eq_ok_iff] at hok
      obtain ⟨prev, hprev, rest, hrest, hok⟩ := hok
      simp only [if_neg hzero, bind_eq_ok_iff, readHeader, expect_eq_ok_iff]
      exact ⟨prev, h _ _ hprev, rest, ih hrest, hok⟩

/-- Further headers do not change the last blocks up to a header. -/
theorem getTipSegment_mono (h : HeadersWithin s t) {prevInfo : Api.BlockHeader} {window : Height}
    {addGenesis : Bool} {headers : List Api.BlockHeader}
    (hok : s.getTipSegment prevInfo window addGenesis = .ok headers) :
    t.getTipSegment prevInfo window addGenesis = .ok headers := by
  unfold getTipSegment at hok ⊢
  split at hok
  · next htop => rw [if_pos htop, hok]
  · next htop =>
    obtain ⟨r, hwalk, hok⟩ := bind_eq_ok_iff.1 hok
    rw [if_neg htop, walkBack_mono h hwalk]
    exact hok

/-- The last blocks up to a stored header are stored. -/
theorem mem_walkBack {window : ℕ} {pi : Api.BlockHeader}
    {r : List Api.BlockHeader × Api.BlockHeader} (hok : s.walkBack window pi = .ok r)
    (hpi : ∃ bid, s.db.headers.get bid = some pi) {info : Api.BlockHeader}
    (hmem : info ∈ r.1 ∨ info = r.2) : ∃ bid, s.db.headers.get bid = some info := by
  induction window generalizing pi r with
  | zero =>
    obtain rfl := Except.ok.inj hok
    rcases hmem with hmem | rfl
    · simp at hmem
    · exact hpi
  | succ window ih =>
    unfold walkBack at hok
    split at hok
    · obtain rfl := Except.ok.inj hok
      rcases hmem with hmem | rfl
      · simp at hmem
      · exact hpi
    · simp only [bind_eq_ok_iff, readHeader, expect_eq_ok_iff, Prod.exists] at hok
      obtain ⟨prev, hprev, rest, last, hrest, hok⟩ := hok
      obtain rfl := Except.ok.inj hok
      rw [List.mem_cons] at hmem
      rcases hmem with (rfl | hmem) | rfl
      · exact hpi
      · exact ih hrest ⟨_, hprev⟩ (.inl hmem)
      · exact ih hrest ⟨_, hprev⟩ (.inr rfl)

theorem mem_getTipSegment {prevInfo : Api.BlockHeader} {window : Height} {addGenesis : Bool}
    {headers : List Api.BlockHeader}
    (hok : s.getTipSegment prevInfo window addGenesis = .ok headers)
    (hprev : ∃ bid, s.db.headers.get bid = some prevInfo) {info : Api.BlockHeader}
    (hmem : info ∈ headers) : ∃ bid, s.db.headers.get bid = some info := by
  unfold getTipSegment at hok
  split at hok
  · rw [← Except.ok.inj hok] at hmem
    simp at hmem
  · obtain ⟨r, hwalk, hok⟩ := bind_eq_ok_iff.1 hok
    refine mem_walkBack hwalk hprev ?_
    dsimp only at hok
    split at hok
    · obtain ⟨-, -, hok⟩ := bind_eq_ok_iff.1 hok
      rw [← Except.ok.inj hok, List.mem_reverse, List.mem_append, List.mem_singleton] at hmem
      exact hmem
    · rw [← Except.ok.inj hok, List.mem_reverse] at hmem
      exact .inl hmem

theorem MedianOfTip.mono (h : MedianOfTip c s) (hwithin : HeadersWithin s t)
    (htip : t.tipBid = s.tipBid) (hmedian : t.nextMedianSize = s.nextMedianSize)
    (hstored : s.db.headers.get s.tipBid ≠ none) : MedianOfTip c t := by
  intro tip hget
  obtain ⟨tip', hget'⟩ := Option.ne_none_iff_exists'.1 hstored
  obtain ⟨headers, hok, hvalue⟩ := h tip' hget'
  rw [htip, hwithin _ _ hget', Option.some.injEq] at hget
  subst hget
  exact ⟨headers, getTipSegment_mono hwithin hok, hmedian.trans hvalue⟩

theorem medianOfTip_of_tipChanged (h : s.tipChanged c = .ok t) : MedianOfTip c t := by
  obtain ⟨tip, size, timestamp, htip, hvalues, rfl⟩ := tipChanged_eq h
  intro tip' hget
  simp only [getTip, expect_eq_ok_iff] at htip
  have heq : tip = tip' := Option.some.inj (htip.symm.trans hget)
  subst heq
  simp only [calculateConsensusValues, bind_eq_ok_iff] at hvalues
  obtain ⟨headers, hheaders, window, -, hvalues⟩ := hvalues
  have hwithin : HeadersWithin s
      { s with nextMedianSize := size, nextMedianTimestamp := timestamp } := fun _ _ hx ↦ hx
  exact ⟨headers, getTipSegment_mono hwithin hheaders,
    (Prod.mk.inj (Except.ok.inj hvalues)).1.symm⟩

/-- Every change of the tip takes the median anew, and the last blocks up to the tip stay. -/
theorem medianOfTip_preserved : Preserves (Change cr c P) fun s ↦
    Linked cr c s ∧ (Started s → MedianOfTip c s) := by
  refine Preserves.and linked_preserved ?_
  intro s t hchange hlinked hmedian
  have hframe : t.db.chain = s.db.chain → HeadersWithin s t → t.tipBid = s.tipBid →
      t.nextMedianSize = s.nextMedianSize → Started t → MedianOfTip c t := by
    intro hchain hwithin htip hsize hstarted
    have hs : Started s := by rwa [Started, ← hchain]
    obtain ⟨tip, hget, -⟩ := (hlinked.mainChain hs).tip_header
    exact (hmedian hs).mono hwithin htip hsize (by rw [hget]; simp)
  cases hchange with
  | addTransaction hok =>
    obtain ⟨pool, version, rfl⟩ := addTransaction_frame hok
    exact hframe rfl (fun _ _ hx ↦ hx) rfl rfl
  | clearPool => exact hframe rfl (fun _ _ hx ↦ hx) rfl rfl
  | poolVersion => exact hframe rfl (fun _ _ hx ↦ hx) rfl rfl
  | cacheNextIndex => exact hframe rfl (fun _ _ hx ↦ hx) rfl rfl
  | storeBlock _ _ _ haccepts hstore =>
    obtain ⟨hfresh, blocks, -, -, rfl⟩ := storeBlock_eq hstore
    refine hframe rfl (fun bid info hx ↦ ?_) rfl rfl
    rw [Store.get_put_of_ne]
    · exact hx
    · rintro rfl
      rw [hfresh] at hx
      cases hx
  | countChild => exact hframe rfl (fun _ _ hx ↦ hx) rfl rfl
  | connect _ _ _ hpush =>
    obtain ⟨chain, -, htip⟩ := bind_eq_ok_iff.1 hpush
    exact fun _ ↦ medianOfTip_of_tipChanged htip
  | disconnect hundo =>
    obtain ⟨_, _, _, _, _, -, -, -, -, htip⟩ := undoTip_eq hundo
    exact fun _ ↦ medianOfTip_of_tipChanged htip
  | readTip _ _ htip => exact fun _ ↦ medianOfTip_of_tipChanged htip
  | tipChanged htip => exact fun _ ↦ medianOfTip_of_tipChanged htip

end State

theorem Visited.medianOfTip {s : State} (h : Visited cr c s) (hs : Started s) :
    s.MedianOfTip c :=
  (State.medianOfTip_preserved.star h ⟨linked_empty, fun hs ↦ absurd rfl hs⟩).2 hs

/-- The median used for a block above a stored header is that of the last blocks up to it. -/
theorem Visited.consensusValues_eq {s : State} (h : Visited cr c s) (hs : Started s)
    {bid : Hash} {prevInfo : Api.BlockHeader} (hprev : s.db.headers.get bid = some prevInfo)
    {sizeMedian : UInt32} {timestampMedian : Timestamp}
    (hvalues : s.consensusValues c prevInfo = .ok (sizeMedian, timestampMedian)) :
    ∃ headers, s.getTipSegment prevInfo c.rewardBlocksWindow true = .ok headers ∧
      sizeMedian = medianValue (headers.map Api.BlockHeader.blockSize) := by
  rw [State.consensusValues] at hvalues
  split at hvalues
  · next htip =>
    obtain ⟨pb, rfl, hstores⟩ := h.linked.stored _ _ hprev
    rw [← hstores.hash_eq, ← htip] at hprev
    obtain ⟨headers, hok, hsize⟩ := h.medianOfTip hs prevInfo hprev
    exact ⟨headers, hok, (Prod.mk.inj (Except.ok.inj hvalues)).1 ▸ hsize⟩
  · simp only [State.calculateConsensusValues, bind_eq_ok_iff] at hvalues
    obtain ⟨headers, hheaders, window, -, hvalues⟩ := hvalues
    exact ⟨headers, hheaders, (Prod.mk.inj (Except.ok.inj hvalues)).1.symm⟩

/-- The limit of a block's size at every height leaves room for the sum of two sizes. -/
theorem maxBlockCumulativeSize_lt (height : Height) :
    ((Currency.make cr isTestnet).maxBlockCumulativeSize height).toNat < 2 ^ 31 := by
  have hheight := height.toNat_lt
  obtain ⟨denominator, hdenominator, hlarge⟩ : ∃ denominator : UInt64,
      (Currency.make cr isTestnet).maxBlockSizeGrowthSpeedDenominator = denominator ∧
        525600 ≤ denominator.toNat := by
    cases isTestnet with
    | false => exact ⟨525600, rfl, le_refl 525600⟩
    | true => exact ⟨31536000, rfl, show 525600 ≤ 31536000 by decide⟩
  have hproduct : (height.toUInt64 * 102400).toNat = height.toNat * 102400 := by
    rw [UInt64.toNat_mul, UInt32.toNat_toUInt64]
    exact Nat.mod_eq_of_lt (by change height.toNat * 102400 < 2 ^ 64; omega)
  have hgrowth : (height.toUInt64 * 102400 / denominator).toNat < 836889000 := by
    rw [UInt64.toNat_div, hproduct]
    exact Nat.div_lt_of_lt_mul (by nlinarith)
  have hlimit : (Currency.make cr isTestnet).maxBlockCumulativeSize height =
      (20480 + height.toUInt64 * 102400 / denominator).toUInt32 := by
    rw [← hdenominator]
    rfl
  rw [hlimit, UInt64.toNat_toUInt32, UInt64.toNat_add]
  change (20480 + _) % 2 ^ 64 % 2 ^ 32 < _
  omega

/-- Stored blocks kept to the limit. -/
theorem Linked.blockSize_lt {s : State} (h : Linked cr (Currency.make cr isTestnet) s) {bid : Hash}
    {info : Api.BlockHeader} (hget : s.db.headers.get bid = some info) :
    info.blockSize.toNat < 2 ^ 31 := by
  obtain ⟨pb, -, hstores⟩ := h.stored _ _ hget
  obtain ⟨s₀, now, prev, -, haccepts⟩ := hstores.accepted
  obtain ⟨m, haccepted, rfl⟩ := checkStandaloneConsensus_eq_accept_iff.1 haccepts.check
  exact (UInt32.le_iff_toNat_le.1 haccepted.size_le).trans_lt (maxBlockCumulativeSize_lt _)

/-! ## The bound -/

theorem toNat_max (a b : UInt32) : (max a b).toNat = max a.toNat b.toNat := by
  have hmax : max a b = if a ≤ b then b else a := rfl
  rw [hmax]
  split
  · next h => exact (max_eq_right (UInt32.le_iff_toNat_le.1 h)).symm
  · next h => exact (max_eq_left (UInt32.lt_iff_toNat_lt.1 (UInt32.not_le.1 h)).le).symm

/-- The cumulative size counts every raw transaction, when each has its transaction and hash. -/
theorem checkTransactions_size {maxSize : UInt32} {raws : List BinaryArray}
    {txs : List Transaction} {tids : List Hash} {size : ℕ} (hraws : txs.length = raws.length)
    (htids : txs.length = tids.length)
    (h : checkTransactions cr maxSize raws txs tids = .accept size) :
    size = (raws.map List.length).sum := by
  induction raws generalizing txs tids size with
  | nil =>
    rw [checkTransactions] at h
    · exact (Check.accept.inj h).symm
    · simp
  | cons raw raws ih =>
    cases txs with
    | nil => simp at hraws
    | cons tx txs =>
      cases tids with
      | nil => simp at htids
      | cons tid tids =>
        simp only [checkTransactions, Check.bind_eq_accept_iff, Check.pure_eq,
          Check.accept.injEq] at h
        obtain ⟨-, -, -, -, -, -, rest, hrest, rfl⟩ := h
        rw [ih (by simpa using hraws) (by simpa using htids) hrest, List.map_cons, List.sum_cons]

namespace Accepted

variable {context : ConsensusContext} {pb : PreparedBlock} {info prevInfo : Api.BlockHeader}
  {checkPow : Bool} {m : Measures}

/-- The size of the header info is the size of the block. -/
theorem blockSize_eq (h : Accepted cr c context pb info prevInfo checkPow m) :
    m.blockSize pb = pb.size := by
  rw [Measures.blockSize, PreparedBlock.size,
    checkTransactions_size h.count_eq.2 h.count_eq.1 h.transactions]

/-- Up to twice the effective median no amount grows by its penalty. -/
theorem reward_le (hsize : (m.blockSize pb).toNat ≤ 2 * (m.effectiveSizeMedian c pb).toNat)
    (coins : Amount) : (m.rewards c pb coins).1.toNat ≤
      (c.calcBaseReward pb.block.header.majorVersion coins).toNat + m.fee.toNat := by
  have hmedian : (m.effectiveSizeMedian c pb).toUInt64.toNat < 2 ^ 32 := by
    rw [UInt32.toNat_toUInt64]
    exact UInt32.toNat_lt _
  have hsize' : (m.blockSize pb).toUInt64.toNat ≤
      2 * (m.effectiveSizeMedian c pb).toUInt64.toNat := by
    simpa only [UInt32.toNat_toUInt64] using hsize
  have hbase := UInt64.le_iff_toNat_le.1 (@getPenalizedAmount_le
    (c.calcBaseReward pb.block.header.majorVersion coins) _ _ hmedian hsize')
  have hpenalized := UInt64.le_iff_toNat_le.1 (@getPenalizedAmount_le m.fee _ _ hmedian hsize')
  rw [Measures.rewards, Currency.getBlockReward]
  dsimp only
  refine le_trans (UInt64.toNat_add _ _ ▸ Nat.mod_le _ _) (Nat.add_le_add hbase ?_)
  split
  · exact hpenalized
  · exact le_refl _

theorem rewardBounded_iff_size (h : Accepted cr c context pb info prevInfo checkPow m)
    (hversion : info.majorVersion = pb.block.header.majorVersion) :
    RewardBounded c prevInfo.alreadyGeneratedCoins (m.info c pb info prevInfo) ↔
      pb.size.toNat ≤ 2 * (m.effectiveSizeMedian c pb).toNat := by
  rw [← h.blockSize_eq]
  constructor
  · exact fun hbounded ↦ hbounded.size_le
  · intro hsize
    have hmedian : (m.effectiveSizeMedian c pb).toUInt64.toNat < 2 ^ 32 := by
      rw [UInt32.toNat_toUInt64]
      exact UInt32.toNat_lt _
    have hblock : (m.blockSize pb).toUInt64.toNat < 2 ^ 32 := by
      rw [UInt32.toNat_toUInt64]
      exact UInt32.toNat_lt _
    have hsize' : (m.blockSize pb).toUInt64.toNat ≤
        2 * (m.effectiveSizeMedian c pb).toUInt64.toNat := by
      simpa only [UInt32.toNat_toUInt64] using hsize
    exact {
      size_le := hsize
      base_asserts := (penalizedAsserts_iff hmedian hblock).2 hsize'
      fee_asserts := fun _ ↦ (penalizedAsserts_iff hmedian hblock).2 hsize'
      base_le := getPenalizedAmount_le hmedian hsize'
      reward_le := by
        change (m.rewards c pb prevInfo.alreadyGeneratedCoins).1.toNat ≤
          (c.calcBaseReward info.majorVersion prevInfo.alreadyGeneratedCoins).toNat + m.fee.toNat
        rw [hversion]
        exact reward_le hsize _ }

end Accepted

/-- The reward of an accepted block is bounded exactly up to twice the median of the check. -/
theorem State.rewardBounded_iff_median {s : State} {now : Timestamp} {pb : PreparedBlock}
    {prevInfo info : Api.BlockHeader} {checkPow : Bool} {sizeMedian : UInt32}
    {timestampMedian : Timestamp}
    (h : s.checkStandaloneConsensus cr c now pb (blockInfo pb prevInfo) prevInfo checkPow =
      .accept info)
    (hvalues : s.consensusValues c prevInfo = .ok (sizeMedian, timestampMedian)) :
    RewardBounded c prevInfo.alreadyGeneratedCoins info ↔
      pb.size.toNat ≤ 2 * (c.blockGrantedFullRewardZoneByBlockVersion
        pb.block.header.majorVersion).toNat ∨ pb.size.toNat ≤ 2 * sizeMedian.toNat := by
  obtain ⟨m, haccepted, rfl⟩ := checkStandaloneConsensus_eq_accept_iff.1 h
  have hmedian : sizeMedian = m.sizeMedian := by
    have hother : s.consensusValues c prevInfo = .ok (m.sizeMedian, m.timestampMedian) :=
      haccepted.values_eq
    rw [hvalues, Except.ok.injEq, Prod.mk.injEq] at hother
    exact hother.1
  rw [haccepted.rewardBounded_iff_size rfl, Measures.effectiveSizeMedian, toNat_max, hmedian]
  omega

/-- While the limit at the height is within twice the reward zone, every reward is bounded. -/
theorem State.rewardBounded_of_limit {s : State} {now : Timestamp} {pb : PreparedBlock}
    {prevInfo info : Api.BlockHeader} {checkPow : Bool}
    (h : s.checkStandaloneConsensus cr c now pb (blockInfo pb prevInfo) prevInfo checkPow =
      .accept info)
    (hlimit : (c.maxBlockCumulativeSize (prevInfo.height + 1)).toNat ≤
      2 * (c.blockGrantedFullRewardZoneByBlockVersion pb.block.header.majorVersion).toNat) :
    RewardBounded c prevInfo.alreadyGeneratedCoins info := by
  obtain ⟨m, haccepted, rfl⟩ := checkStandaloneConsensus_eq_accept_iff.1 h
  have hsize := UInt32.le_iff_toNat_le.1 haccepted.size_le
  rw [haccepted.rewardBounded_iff_size rfl, Measures.effectiveSizeMedian, toNat_max,
    ← haccepted.blockSize_eq]
  exact (hsize.trans hlimit).trans (Nat.mul_le_mul_left 2 (le_max_right _ _))

/-! ## A block above twice the median -/

/-- A block at height 1 of the main network with 20001 bytes, which twice the reward zone of
version 1 does not cover; the coinbase takes what the wrapped penalty leaves. -/
def spaciousBlock : BlockTemplate :=
  sampleTemplate 1 mainnet.genesisBlockHash 0
    (sampleCoinbase 1 15078988360154113076 (List.replicate 19949 0)) []

theorem runFromStart_spaciousBlock : returns (runFromStart sampleCrypto mainnet []) (fun s ↦
      returns (PreparedBlock.ofRawBlock sampleCrypto (spaciousBlock.rawBlock []) false)
        fun pb ↦
          match s.prevInfo mainnet pb with
          | none => false
          | some prev =>
            match s.checkStandaloneConsensus sampleCrypto mainnet 1000 pb (blockInfo pb prev) prev
              true with
            | .accept info => decide (2 * info.effectiveSizeMedian.toNat < info.blockSize.toNat ∧
                (mainnet.calcBaseReward info.majorVersion prev.alreadyGeneratedCoins).toNat +
                  info.totalFeeAmount.toNat < info.reward.toNat)
            | _ => false) = true := by
  decide +kernel

theorem size_firstTestnetBlock : returns
    (PreparedBlock.ofRawBlock sampleCrypto (firstTestnetBlock.rawBlock []) false) (fun pb ↦
      pb.size.toNat ≤ 2 * (testnet.blockGrantedFullRewardZoneByBlockVersion
        pb.block.header.majorVersion).toNat) = true := by
  decide +kernel

end Naza
