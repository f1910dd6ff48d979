import Naza.Wallet.Sync

/-!
# Where an answer starts

The start of an answer to `sync_blocks` is the last common block or the block with the least
timestamp that is late enough, whichever is higher.
-/

open Lib

namespace Naza

variable {cr : Crypto} {c : Currency} {s t : State}

/-! ## The timestamp index -/

/-- The timestamp index of a chain of blocks. -/
theorem tablesOf_timestamps {chain : List (Hash × RawBlock)} {ts : Timestamp} {k : Height} :
    (tablesOf cr chain).timestamps.get (ts, k) ≠ none ↔ ∃ height bid raw,
      chain[height]? = some (bid, raw) ∧ UInt32.ofNat height = k ∧
        raw.decoded.header.timestamp = ts := by
  induction chain using List.reverseRecOn with
  | nil =>
    change (∅ : Store (Timestamp × Height) Unit).get (ts, k) ≠ none ↔ _
    simp
  | append_singleton chain e ih =>
    obtain ⟨bid, raw⟩ := e
    rw [tablesOf_concat]
    change ((tablesOf cr chain).timestamps.put
      (raw.decoded.header.timestamp, UInt32.ofNat chain.length) ()).get (ts, k) ≠ none ↔ _
    rw [Store.get_put]
    split
    · next heq =>
      obtain ⟨hts, hk⟩ := Prod.mk.inj heq
      simp only [ne_eq, reduceCtorEq, not_false_eq_true, true_iff]
      exact ⟨chain.length, bid, raw, by simp, hk, hts⟩
    · next hne =>
      rw [ih]
      constructor
      · rintro ⟨height, bid', raw', hat, hk, hts⟩
        refine ⟨height, bid', raw', ?_, hk, hts⟩
        rw [List.getElem?_append_left (List.getElem?_eq_some_iff.1 hat).1, hat]
      · rintro ⟨height, bid', raw', hat, hk, hts⟩
        refine ⟨height, bid', raw', ?_, hk, hts⟩
        rcases Nat.lt_or_ge height chain.length with hlt | hge
        · rwa [List.getElem?_append_left hlt] at hat
        · rw [List.getElem?_append_right hge, List.getElem?_singleton] at hat
          split at hat
          · next hzero =>
            obtain ⟨-, rfl⟩ := Prod.mk.inj (Option.some.inj hat)
            have hheight : height = chain.length := by omega
            exact absurd (Prod.mk.injEq .. ▸ ⟨hts, hheight ▸ hk⟩) hne
          · cases hat

/-- The timestamp of the main chain at a height. -/
def State.timestampAt (s : State) (height : Height) : Option Timestamp :=
  ((s.db.chain.get height).bind s.db.headers.get).map Api.BlockHeader.timestamp

/-- The timestamp index is that of the main chain. -/
theorem FollowsChain.timestamps_get (h : FollowsChain cr s) (hlinked : Linked cr c s)
    (hs : Started s) {ts : Timestamp} {height : Height} :
    s.db.timestamps.get (ts, height) ≠ none ↔ s.timestampAt height = some ts := by
  have hat : ∀ k bid raw, s.rawAt k = some (bid, raw) →
      s.timestampAt k = some raw.decoded.header.timestamp := by
    intro k bid raw hraw
    obtain ⟨hchain, -, -, -⟩ := State.rawAt_spec hlinked hraw
    obtain ⟨info, hinfo, -⟩ := (hlinked.mainChain hs).header k bid hchain
    obtain ⟨pb, rfl, hstores⟩ := hlinked.stored bid info hinfo
    rw [State.rawAt_of_stores hstores hchain, Option.some.injEq, Prod.mk.injEq] at hraw
    have htimestamp : info.timestamp = raw.decoded.header.timestamp := by
      rw [hstores.timestamp_eq, ← hraw.2, hstores.built.block_eq]
    simp [State.timestampAt, hchain, hinfo, htimestamp]
  rw [h.holds.timestamps]
  refine tablesOf_timestamps.trans ⟨?_, fun hget ↦ ?_⟩
  · rintro ⟨k, bid, raw, hk, rfl, rfl⟩
    rw [State.getElem?_mainRaw hlinked hs] at hk
    split at hk
    · exact hat _ bid raw hk
    · cases hk
  · obtain ⟨bid, hchain, hheader⟩ : ∃ bid, s.db.chain.get height = some bid ∧
        (s.db.headers.get bid).map Api.BlockHeader.timestamp = some ts := by
      rw [State.timestampAt] at hget
      cases hchain : s.db.chain.get height with
      | none => simp [hchain] at hget
      | some bid => exact ⟨bid, rfl, by simpa [hchain] using hget⟩
    have hle := (hlinked.mainChain hs).height_le height bid hchain
    rw [UInt32.le_iff_toNat_le] at hle
    obtain ⟨info, hinfo, -⟩ := (hlinked.mainChain hs).header height bid hchain
    obtain ⟨pb, rfl, hstores⟩ := hlinked.stored bid info hinfo
    have hraw := State.rawAt_of_stores hstores hchain
    refine ⟨height.toNat, pb.bid, pb.rawBlock, ?_, UInt32.ofNat_toNat, ?_⟩
    · rw [State.getElem?_mainRaw hlinked hs, if_pos (by omega), UInt32.ofNat_toNat, hraw]
    · exact Option.some.inj ((hat _ _ _ hraw).symm.trans hget)

/-- The block at a height has the least timestamp from `bound` on, and is the lowest such block. -/
def State.Earliest (s : State) (bound : Timestamp) (height : Height) : Prop :=
  ∃ ts, s.timestampAt height = some ts ∧ bound ≤ ts ∧
    ∀ (k : Height) (ts' : Timestamp), s.timestampAt k = some ts' → bound ≤ ts' →
      ts < ts' ∨ ts = ts' ∧ height ≤ k

theorem State.Earliest.unique {bound : Timestamp} {k k' : Height} (h : s.Earliest bound k)
    (h' : s.Earliest bound k') : k = k' := by
  obtain ⟨ts, hts, hle, hleast⟩ := h
  obtain ⟨ts', hts', hle', hleast'⟩ := h'
  have := hleast k' ts' hts' hle'
  have := hleast' k ts hts hle
  grind

/-- `get_timestamp_lower_bound_block_index` finds the earliest block, or ends at the tip. -/
theorem FollowsChain.getTimestampLowerBoundBlockIndex (h : FollowsChain cr s)
    (hlinked : Linked cr c s) (hs : Started s) (bound : Timestamp) :
    s.Earliest bound (s.getTimestampLowerBoundBlockIndex bound) ∨
      s.getTimestampLowerBoundBlockIndex bound = s.tipHeight ∧
        ∀ (k : Height) (ts : Timestamp), s.timestampAt k = some ts → ts < bound := by
  unfold State.getTimestampLowerBoundBlockIndex
  cases hfind : s.db.timestamps.toList.find? fun e ↦ decide (bound ≤ e.1.1) with
  | none =>
    refine .inr ⟨rfl, fun k ts hts ↦ UInt32.not_le.1 fun hle ↦ ?_⟩
    obtain ⟨u, hget⟩ := Option.ne_none_iff_exists'.1 ((h.timestamps_get hlinked hs).2 hts)
    have hnot := List.find?_eq_none.1 hfind _ (Store.mem_toList_iff.2 hget)
    exact hnot (decide_eq_true hle)
  | some e =>
    obtain ⟨⟨ts, height⟩, u⟩ := e
    have hle : bound ≤ ts := by simpa using List.find?_some hfind
    have hget := Store.mem_toList_iff.1 (List.mem_of_find?_eq_some hfind)
    have hat := (h.timestamps_get hlinked hs).1 (by rw [hget]; simp)
    refine .inl ⟨ts, hat, hle, fun k ts' hts' hle' ↦ ?_⟩
    obtain ⟨u', hget'⟩ := Option.ne_none_iff_exists'.1 ((h.timestamps_get hlinked hs).2 hts')
    have hnot := Store.compare_ne_lt_of_find? hfind hget' (decide_eq_true hle')
    have hlex : compare (ts', k) (ts, height) = (compare ts' ts).then (compare k height) := rfl
    rw [hlex] at hnot
    dsimp only at hnot ⊢
    rcases Nat.lt_trichotomy ts.toNat ts'.toNat with hlt | heq | hgt
    · exact .inl (UInt32.lt_iff_toNat_lt.2 hlt)
    · obtain rfl : ts = ts' := UInt32.toNat_inj.1 heq
      refine .inr ⟨rfl, UInt32.not_lt.1 fun hlt ↦ hnot ?_⟩
      rw [Std.ReflOrd.compare_self, Ordering.eq_then]
      exact compareOfLessAndEq_eq_lt.2 hlt
    · refine absurd ?_ hnot
      have hcompare : compare ts' ts = .lt :=
        compareOfLessAndEq_eq_lt.2 (UInt32.lt_iff_toNat_lt.2 hgt)
      rw [hcompare]
      rfl

/-! ## The ids of an answer -/

/-- The walk from any stored block ends on the main chain. -/
theorem State.leaveSideBranch_returns (hlinked : Linked cr c s) (hmain : MainChain c s)
    (fuel : ℕ) {bid : Hash} {header : Api.BlockHeader} (hget : s.db.headers.get bid = some header)
    (hfuel : header.height.toNat ≤ fuel) : ∃ common header',
      s.leaveSideBranch fuel header = .ok header' ∧
        s.db.chain.get header'.height = some common := by
  induction fuel generalizing bid header with
  | zero =>
    have hzero : header.height = 0 := UInt32.toNat_inj.1 (by simpa using hfuel)
    exact ⟨_, header, by rw [leaveSideBranch, if_pos (.inl hzero)], hzero ▸ hmain.root⟩
  | succ fuel ih =>
    rw [leaveSideBranch]
    split
    · next hstop =>
      rcases hstop with hzero | hstop
      · exact ⟨_, header, rfl, hzero ▸ hmain.root⟩
      · exact ⟨_, header, rfl, hstop⟩
    · next hgo =>
      obtain ⟨hzero, -⟩ := not_or.1 hgo
      have hne : bid ≠ c.genesisBlockHash := by
        rintro rfl
        exact hzero (hlinked.genesis header hget)
      obtain ⟨prev, hprev, hheight, -⟩ := hlinked.parent bid header hget hne
      have hprevFuel : prev.height.toNat ≤ fuel := by
        have hlt := prev.height.toNat_lt
        have hone : (1 : UInt32).toNat = 1 := rfl
        have hpos : header.height.toNat ≠ 0 := fun hn ↦ hzero (UInt32.toNat_inj.1 hn)
        rw [hheight, UInt32.toNat_add] at hpos hfuel
        omega
      obtain ⟨common, header', hwalk, hcommon⟩ := ih hprev hprevFuel
      exact ⟨common, header', by rw [readHeader, hprev]; exact hwalk, hcommon⟩

/-- Every locator with the genesis block is answered. -/
theorem State.getSyncHeadersChain_returns (hlinked : Linked cr c s) (hmain : MainChain c s)
    (htip : s.tipHeight ≠ 0xFFFFFFFF) (maxCount : ℕ) {locator : List Hash}
    (hgenesis : c.genesisBlockHash ∈ locator) :
    ∃ start chain, s.getSyncHeadersChain maxCount locator = .ok (start, chain) ∧
      start ≤ s.tipHeight ∧ chain.length = min maxCount (s.tipHeight.toNat + 1 - start.toNat) ∧
      ∀ i bid, chain[i]? = some bid → s.db.chain.get (start + UInt32.ofNat i) = some bid := by
  induction locator with
  | nil => cases hgenesis
  | cons lit rest ih =>
    rw [getSyncHeadersChain]
    cases hget : s.db.headers.get lit with
    | none =>
      refine ih (List.mem_of_ne_of_mem ?_ hgenesis)
      rintro rfl
      obtain ⟨info, hinfo, -⟩ := hmain.header 0 _ hmain.root
      rw [hget] at hinfo
      cases hinfo
    | some header =>
      obtain ⟨common, header', hwalk, hcommon⟩ :=
        leaveSideBranch_returns hlinked hmain _ hget (Nat.le_refl _)
      have hle := hmain.height_le _ _ hcommon
      rw [UInt32.le_iff_toNat_le] at hle
      obtain ⟨chain, hchain, hlength, hrun⟩ :=
        chainFrom_spec hmain htip maxCount header'.height (by omega)
      refine ⟨header'.height, chain, ?_, UInt32.le_iff_toNat_le.2 hle, hlength, hrun⟩
      simp only [hwalk, bind_eq_ok_iff]
      exact ⟨header', rfl, chain, hchain, rfl⟩

/-- The ids from a height of the main chain on. -/
theorem State.readChainFrom_spec (hmain : MainChain c s) (htip : s.tipHeight ≠ 0xFFFFFFFF) :
    ∀ (maxCount : ℕ) (height : Height), height.toNat ≤ s.tipHeight.toNat + 1 →
      (s.readChainFrom maxCount height).length =
          min maxCount (s.tipHeight.toNat + 1 - height.toNat) ∧
        ∀ i bid, (s.readChainFrom maxCount height)[i]? = some bid →
          s.db.chain.get (height + UInt32.ofNat i) = some bid := by
  intro maxCount
  induction maxCount with
  | zero => exact fun height _ ↦ ⟨by simp [readChainFrom], by simp [readChainFrom]⟩
  | succ n ih =>
    intro height hheight
    rw [readChainFrom]
    cases hget : s.db.chain.get height with
    | none =>
      have hgt : ¬ height ≤ s.tipHeight := fun hle ↦ hmain.present height hle hget
      rw [UInt32.le_iff_toNat_le] at hgt
      exact ⟨by simp; omega, by simp⟩
    | some bid =>
      have hle := hmain.height_le height bid hget
      rw [UInt32.le_iff_toNat_le] at hle
      have hnext : (height + 1).toNat = height.toNat + 1 := by
        have hlt := s.tipHeight.toNat_lt
        have hmax : s.tipHeight.toNat ≠ 4294967295 := fun hn ↦ htip (UInt32.toNat_inj.1 hn)
        have hone : (1 : UInt32).toNat = 1 := rfl
        rw [UInt32.toNat_add]
        omega
      obtain ⟨hlength, hrun⟩ := ih (height + 1) (by omega)
      refine ⟨by rw [List.length_cons, hlength]; omega, fun i bid' hi ↦ ?_⟩
      cases i with
      | zero =>
        rw [List.getElem?_cons_zero, Option.some.injEq] at hi
        simpa [hi] using hget
      | succ i =>
        rw [List.getElem?_cons_succ] at hi
        have hadd : height + UInt32.ofNat (i + 1) = height + 1 + UInt32.ofNat i := by
          rw [UInt32.ofNat_add, UInt32.add_assoc, UInt32.add_comm (UInt32.ofNat i)]
          rfl
        rw [hadd]
        exact hrun i bid' hi

/-- The higher one of two heights. -/
def higher (k k' : Height) : Height := if k < k' then k' else k

/-- The answer starts at the last common block or at the earliest block asked for, whichever is
higher, and goes up the main chain. -/
theorem State.syncSupplement_spec (hlinked : Linked cr c s) (hmain : MainChain c s)
    (htip : s.tipHeight ≠ 0xFFFFFFFF) (req : SyncBlocksRequest)
    (hgenesis : c.genesisBlockHash ∈ req.sparseChain)
    (hfull : s.getTimestampLowerBoundBlockIndex (s.firstTimestamp c req.firstBlockTimestamp) ≤
      s.tipHeight) : ∃ common chain start supplement,
      s.getSyncHeadersChain req.maxCount.toNat req.sparseChain = .ok (common, chain) ∧
      s.syncSupplement c req = .ok (start, supplement) ∧
      start = higher common
        (s.getTimestampLowerBoundBlockIndex (s.firstTimestamp c req.firstBlockTimestamp)) ∧
      start.toNat + supplement.length ≤ s.tipHeight.toNat + 1 ∧
      supplement.length ≤ req.maxCount.toNat ∧
      ∀ i bid, supplement[i]? = some bid → s.db.chain.get (start + UInt32.ofNat i) = some bid := by
  obtain ⟨common, chain, hok, hcommon, hlength, hrun⟩ :=
    getSyncHeadersChain_returns hlinked hmain htip req.maxCount.toNat hgenesis
  revert hfull
  generalize hoffset :
    s.getTimestampLowerBoundBlockIndex (s.firstTimestamp c req.firstBlockTimestamp) = offset
  intro hfull
  rw [UInt32.le_iff_toNat_le] at hfull hcommon
  have hresult : s.syncSupplement c req = .ok (if common.toNat + chain.length ≤ offset.toNat then
        (offset, s.readChainFrom req.maxCount.toNat offset)
      else if common < offset then (offset, chain.drop (offset - common).toNat)
      else (common, chain)) := by
    rw [syncSupplement, hoffset, hok]
    rfl
  unfold higher
  split at hresult
  · next hbehind =>
    obtain ⟨hlength', hrun'⟩ :=
      readChainFrom_spec hmain htip req.maxCount.toNat offset (by omega)
    refine ⟨common, chain, _, _, hok, hresult, ?_, by omega, by omega, hrun'⟩
    split
    · rfl
    · next hnot =>
      rw [UInt32.lt_iff_toNat_lt] at hnot
      exact UInt32.toNat_inj.1 (by omega)
  · next hwithin =>
    split at hresult
    · next hlt =>
      rw [UInt32.lt_iff_toNat_lt] at hlt
      have hsub : (offset - common).toNat = offset.toNat - common.toNat :=
        UInt32.toNat_sub_of_le _ _ (UInt32.le_iff_toNat_le.2 (by omega))
      refine ⟨common, chain, _, _, hok, hresult, by rw [if_pos (UInt32.lt_iff_toNat_lt.2 hlt)],
        ?_, ?_, fun i bid hi ↦ ?_⟩
      · rw [List.length_drop, hsub]
        omega
      · rw [List.length_drop]
        omega
      · rw [List.getElem?_drop] at hi
        have hadd : common + UInt32.ofNat ((offset - common).toNat + i) =
            offset + UInt32.ofNat i := by
          rw [UInt32.ofNat_add, UInt32.ofNat_toNat]
          grind
        rw [← hadd]
        exact hrun _ bid hi
    · next hnot =>
      exact ⟨common, chain, _, _, hok, hresult, by rw [if_neg hnot], by omega, by omega, hrun⟩

/-! ## Skipped blocks -/

/-- No block above the last common one that is as late as asked for is below the start. -/
def State.SkipsNothing (s : State) (firstBlockTimestamp : Timestamp) (common start : Height) :
    Prop :=
  ∀ (height : Height) (ts : Timestamp), common < height → s.timestampAt height = some ts →
    firstBlockTimestamp ≤ ts → start ≤ height

/-- No block above the last common one that is as late as asked for is below the block with the
least timestamp that is at most the future limit earlier. -/
def State.EarliestBelow (c : Currency) (s : State) (firstBlockTimestamp : Timestamp)
    (common : Height) : Prop :=
  ∀ (height earliest : Height) (ts : Timestamp), common < height →
    s.timestampAt height = some ts → firstBlockTimestamp ≤ ts →
    s.Earliest (s.firstTimestamp c firstBlockTimestamp) earliest → earliest ≤ height

theorem State.firstTimestamp_le (c : Currency) (s : State) (first : Timestamp) :
    s.firstTimestamp c first ≤ first := by
  unfold firstTimestamp
  dsimp only
  split
  · exact UInt32.zero_le
  · next hnot =>
    have hle := UInt32.not_lt.1 hnot
    rw [UInt32.le_iff_toNat_le, UInt32.toNat_sub_of_le _ _ hle]
    omega

theorem FollowsChain.getTimestampLowerBoundBlockIndex_le (h : FollowsChain cr s)
    (hlinked : Linked cr c s) (hs : Started s) (bound : Timestamp) :
    s.getTimestampLowerBoundBlockIndex bound ≤ s.tipHeight := by
  rcases h.getTimestampLowerBoundBlockIndex hlinked hs bound with ⟨ts, hts, -⟩ | ⟨htip, -⟩
  · rw [State.timestampAt] at hts
    cases hget : s.db.chain.get (s.getTimestampLowerBoundBlockIndex bound) with
    | none => simp [hget] at hts
    | some bid => exact (hlinked.mainChain hs).height_le _ _ hget
  · rw [htip]
    exact UInt32.le_refl _

/-- An answer skips nothing exactly if the earliest block is low enough. -/
theorem FollowsChain.skipsNothing_from_iff (h : FollowsChain cr s) (hlinked : Linked cr c s)
    (hs : Started s) (first : Timestamp) (common : Height) :
    s.SkipsNothing first common
        (higher common (s.getTimestampLowerBoundBlockIndex (s.firstTimestamp c first))) ↔
      s.EarliestBelow c first common := by
  have hle := s.firstTimestamp_le c first
  rcases h.getTimestampLowerBoundBlockIndex hlinked hs (s.firstTimestamp c first) with
    hearliest | ⟨-, hnone⟩
  · constructor
    · intro hskip height earliest ts habove hts hfirst hearliest'
      have hstart := hskip height ts habove hts hfirst
      rw [hearliest'.unique hearliest]
      unfold higher at hstart
      grind
    · intro hbelow height ts habove hts hfirst
      have hoffset := hbelow height _ ts habove hts hfirst hearliest
      unfold higher
      grind
  · constructor
    · intro _ height earliest ts _ hts hfirst _
      have hlt := hnone height ts hts
      grind
    · intro _ height ts _ hts hfirst
      have hlt := hnone height ts hts
      grind

/-! ## Answers -/

/-- What an answer holds: headers of the main chain from its start on. -/
structure State.Answers (s : State) (resp : SyncBlocksResponse) : Prop where
  start_le : resp.startHeight.toNat + resp.blocks.length ≤ s.tipHeight.toNat + 1
  block : ∀ i b, resp.blocks[i]? = some b →
    s.db.chain.get (resp.startHeight + UInt32.ofNat i) = some b.header.hash ∧
      s.db.headers.get b.header.hash = some b.header

theorem State.syncBlock_header (hlinked : Linked cr c s) {bid : Hash} {b : SyncBlock}
    (hok : s.syncBlock cr bid = .ok b) :
    s.db.headers.get bid = some b.header ∧ b.header.hash = bid := by
  simp only [syncBlock, bind_eq_ok_iff, expect_eq_ok_iff] at hok
  obtain ⟨header, hheader, read, -, raw, -, -, -, baseHash, -, indices, -, hok⟩ := hok
  rw [← Except.ok.inj hok]
  obtain ⟨pb, rfl, hstores⟩ := hlinked.stored bid header hheader
  exact ⟨hheader, hstores.hash_eq⟩

/-- What holds in the states of a node, as long as its chain is not full. -/
structure State.Sound (cr : Crypto) (c : Currency) (s : State) : Prop where
  linked : Linked cr c s
  started : Started s
  tables : FollowsChain cr s
  notFull : s.tipHeight ≠ 0xFFFFFFFF

theorem State.Sound.mainChain (h : s.Sound cr c) : MainChain c s := h.linked.mainChain h.started

/-- The answer of a node. -/
theorem State.Sound.onWalletSync3 (h : s.Sound cr c) {req : SyncBlocksRequest}
    {resp : SyncBlocksResponse} (hok : s.onWalletSync3 cr c req = .ok resp) :
    s.Answers resp ∧ resp.blocks.length ≤ req.maxCount.toNat ∧ ∃ common chain,
      s.getSyncHeadersChain req.maxCount.toNat req.sparseChain = .ok (common, chain) ∧
      resp.startHeight = higher common
        (s.getTimestampLowerBoundBlockIndex (s.firstTimestamp c req.firstBlockTimestamp)) := by
  rw [State.onWalletSync3] at hok
  split at hok
  · cases hok
  split at hok
  · cases hok
  next hlast =>
  split at hok
  · cases hok
  have hgenesis : c.genesisBlockHash ∈ req.sparseChain :=
    List.mem_of_getLast? (not_not.1 hlast)
  obtain ⟨common, chain, start, supplement, hchain, hsupplement, hstart, hlength, hcount, hrun⟩ :=
    syncSupplement_spec h.linked h.mainChain h.notFull req hgenesis
      (h.tables.getTimestampLowerBoundBlockIndex_le h.linked h.started _)
  simp only [bind_eq_ok_iff, serving_eq_ok_iff] at hok
  obtain ⟨⟨start', supplement'⟩, hsupplement', blocks, hblocks, hok⟩ := hok
  rw [hsupplement, Except.ok.injEq, Prod.mk.injEq] at hsupplement'
  obtain ⟨rfl, rfl⟩ := hsupplement'
  have hall : List.Forall₂ (fun bid b ↦ s.syncBlock cr bid = .ok b) supplement blocks := by
    have hends : Ends (List.Forall₂ (fun bid b ↦ s.syncBlock cr bid = .ok b) supplement)
        (fun _ ↦ False) (supplement.mapM (s.syncBlock cr)) :=
      Ends.mapM fun bid _ ↦ by
        cases hb : s.syncBlock cr bid with
        | ok b => exact Ends.ok_iff.2 rfl
        | error f => exact not_false
    exact hends.of_ok hblocks
  rw [← Except.ok.inj hok]
  rw [hall.length_eq] at hlength hcount
  refine ⟨⟨hlength, fun i b hi ↦ ?_⟩, hcount, common, chain, hchain, hstart⟩
  have hlt : i < blocks.length := (List.getElem?_eq_some_iff.1 hi).1
  have hlt' : i < supplement.length := hall.length_eq ▸ hlt
  have hb := hall.get hlt' hlt
  rw [List.get_eq_getElem, List.get_eq_getElem, (List.getElem?_eq_some_iff.1 hi).2] at hb
  obtain ⟨hheader, hhash⟩ := syncBlock_header h.linked hb
  rw [hhash]
  exact ⟨hrun i _ (List.getElem?_eq_getElem hlt'), hheader⟩

end Naza
