import Naza.Concrete

/-!
# Block identities

A block is stored under the hash of the header that its stored bytes decode to, unless its parser
threw: a raw block that is cut off or has bytes left over keeps the default id and goes through the
same checks.
-/

open Lib Relation

namespace Naza

variable {cr : Crypto} {c : Currency}

/-! ## Identified blocks -/

/-- The stored bytes decode to a block, and `bid` is its hash. -/
def IdentifiedBlock (cr : Crypto) (bid : Hash) (blockData : BinaryArray) : Prop :=
  ∃ raw block, Seria.fromBinary Seria.serRawBlock {} blockData = (raw, true) ∧
    Block.fromRawBlock raw = (block, true) ∧ getBlockHash cr block.header = some bid

/-- Every block is stored under its hash, with its header, and only stored blocks are linked. -/
structure State.Identified (cr : Crypto) (s : State) : Prop where
  blocks : ∀ bid blockData, s.db.blocks.get bid = some blockData →
    IdentifiedBlock cr bid blockData
  headers : ∀ bid info, s.db.headers.get bid = some info →
    info.hash = bid ∧ s.db.blocks.get bid ≠ none
  chain : ∀ height bid, s.db.chain.get height = some bid → s.db.headers.get bid ≠ none
  tip : s.db.headers.get s.tipBid ≠ none
  children : ∀ bid, s.db.children.get bid ≠ none → s.db.headers.get bid ≠ none
  cdTips : ∀ cd bid, s.db.cdTips.get (cd, bid) ≠ none → s.db.headers.get bid ≠ none

/-- A prepared block whose parser went through has the hash of its header. -/
theorem PreparedBlock.Built.bid_eq_of_parses {pb : PreparedBlock} (h : pb.Built cr)
    (hverdict : (Block.fromRawBlock pb.rawBlock).2 = true) :
    IdentifiedBlock cr pb.bid pb.blockData := by
  refine ⟨pb.rawBlock, pb.block, ?_, Prod.ext h.block_eq.symm hverdict, ?_⟩
  · rw [h.blockData_eq]
    exact Seria.fromBinary_rawBlockBytes _ h.fits
  · have hbid := h.bid_eq
    rwa [if_pos hverdict] at hbid

/-! ## What changes keep -/

/-- Every block of a table is identified, and the counters belong to stored headers. -/
structure State.Recorded (cr : Crypto) (s : State) : Prop where
  blocks : ∀ bid blockData, s.db.blocks.get bid = some blockData →
    IdentifiedBlock cr bid blockData
  children : ∀ bid, s.db.children.get bid ≠ none → s.db.headers.get bid ≠ none
  cdTips : ∀ cd bid, s.db.cdTips.get (cd, bid) ≠ none → s.db.headers.get bid ≠ none

/-- The tables that `Recorded` speaks about. -/
def State.records (s : State) := (s.db.blocks, s.db.children, s.db.cdTips)

theorem HeadersWithin.ne_none {s t : State} (h : HeadersWithin s t) {bid : Hash}
    (hne : s.db.headers.get bid ≠ none) : t.db.headers.get bid ≠ none := by
  obtain ⟨info, hinfo⟩ := Option.ne_none_iff_exists'.1 hne
  rw [h bid info hinfo]
  simp

theorem State.Recorded.of_records {s t : State} (h : s.Recorded cr)
    (hrecords : t.records = s.records) (hheaders : HeadersWithin s t) : t.Recorded cr := by
  simp only [records, Prod.mk.injEq] at hrecords
  obtain ⟨hblocks, hchildren, hcdTips⟩ := hrecords
  exact ⟨hblocks ▸ h.blocks, fun bid hne ↦ hheaders.ne_none (h.children bid (hchildren ▸ hne)),
    fun cd bid hne ↦ hheaders.ne_none (h.cdTips cd bid (hcdTips ▸ hne))⟩

theorem State.records_of_treePart {s t : State} (h : t.treePart = s.treePart) :
    t.records = s.records := by
  have hrecords : t.treePart.records = s.treePart.records := by rw [h]
  exact hrecords

/-- Only blocks whose parser went through are offered. -/
abbrev Parses (_ : State) (pb : PreparedBlock) : Prop := (Block.fromRawBlock pb.rawBlock).2 = true

theorem recorded_preserved :
    Preserves (Change cr c Parses) fun s ↦ Linked cr c s ∧ s.Recorded cr := by
  refine Preserves.and linked_preserved ?_
  intro s t hchange hlinked h
  have hheaders := hchange.stored.1
  cases hchange with
  | addTransaction hok =>
    obtain ⟨pool, version, rfl⟩ := State.addTransaction_frame hok
    exact h.of_records rfl hheaders
  | clearPool => exact h.of_records rfl hheaders
  | poolVersion => exact h.of_records rfl hheaders
  | cacheNextIndex => exact h.of_records rfl hheaders
  | storeBlock hparses hbuilt _ haccepts hok =>
    obtain ⟨hfresh, blocks, hnew, -, rfl⟩ := State.storeBlock_eq hok
    obtain rfl := hnew (by_contra fun hne ↦ hlinked.blocks _ hne hfresh)
    refine ⟨fun bid blockData hget ↦ ?_, fun bid hne ↦ ?_, fun cd bid hne ↦ ?_⟩
    · change (s.db.blocks.put _ _).get bid = some blockData at hget
      rw [Store.get_put] at hget
      split at hget
      · next heq =>
        rw [← heq, ← Option.some.inj hget]
        exact hbuilt.bid_eq_of_parses hparses
      · exact h.blocks bid blockData hget
    · exact HeadersWithin.ne_none hheaders (h.children bid hne)
    · exact HeadersWithin.ne_none hheaders (h.cdTips cd bid hne)
  | @countChild bid cd delta hstored =>
    refine ⟨h.blocks, fun bid' hne ↦ ?_, fun cd' bid' hne ↦ ?_⟩
    · by_cases heq : bid = bid'
      · exact heq ▸ hstored
      · refine h.children bid' fun hnone ↦ hne ?_
        change (if _ then s.db.children.remove bid else s.db.children.put bid _).get bid' = none
        split
        · rw [Store.get_remove_of_ne _ heq, hnone]
        · rw [Store.get_put_of_ne _ _ heq, hnone]
    · by_cases heq : (cd, bid) = (cd', bid')
      · exact (Prod.mk.inj heq).2 ▸ hstored
      · refine h.cdTips cd' bid' fun hnone ↦ hne ?_
        change (if _ then s.db.cdTips.put (cd, bid) () else s.db.cdTips.remove (cd, bid)).get
          (cd', bid') = none
        split
        · rw [Store.get_put_of_ne _ _ heq, hnone]
        · rw [Store.get_remove_of_ne _ heq, hnone]
  | connect hstores _ hredo hpush =>
    have hrecords := State.records_of_treePart (State.redoBlockIndexed_treePart hredo)
    obtain ⟨-, _, _, rfl⟩ := State.pushChain_eq hpush
    exact h.of_records hrecords hheaders
  | disconnect hundo =>
    obtain ⟨_, _, _, s₁, s₂, -, -, h₁, h₂, h₃⟩ := State.undoTip_eq hundo
    have hrecords := State.records_of_treePart (State.undoBlockIndexed_treePart h₁)
    obtain ⟨-, -, _, -, rfl⟩ := State.popChain_eq h₂
    obtain ⟨-, _, _, -, -, rfl⟩ := State.tipChanged_eq h₃
    exact h.of_records hrecords hheaders
  | readTip hroot hread htip =>
    obtain ⟨-, hdb⟩ := hlinked.readTip (by rw [hroot]; simp) hread
    obtain ⟨-, _, _, -, -, rfl⟩ := State.tipChanged_eq htip
    exact h.of_records (by simp only [State.records, hdb]) hheaders
  | tipChanged htip =>
    obtain ⟨-, _, _, -, -, rfl⟩ := State.tipChanged_eq htip
    exact h.of_records rfl hheaders

/-! ## Runs -/

/-- The event brings a block whose parser goes through, or one that its check refuses. -/
def Event.ParsesOrRefused (cr : Crypto) (c : Currency) (s : State) : Event → Prop
  | .addBlock now raw context => (Block.fromRawBlock raw.val).2 = true ∨
    ∀ pb prev info, PreparedBlock.ofRawBlock cr raw.val context = .ok pb →
      ¬ s.Accepts cr c now pb prev info
  | _ => True

theorem genesis_parses (isTestnet : Bool) (raw : RawBlock)
    (h : Block.toRawBlock { header := genesisBlockTemplate isTestnet } = some raw) :
    (Block.fromRawBlock raw).2 = true := by
  have hall : ∀ isTestnet, ∀ raw ∈ Block.toRawBlock { header := genesisBlockTemplate isTestnet },
      (Block.fromRawBlock raw).2 = true := by decide +kernel
  exact hall isTestnet raw h

variable {isTestnet : Bool}

/-- A run whose blocks meet `Q` or are refused only stores blocks that meet `Q`. -/
theorem Run.changes_of {Q : RawBlock → Prop} {E : State → Event → Prop}
    (hgenesis : ∀ raw, Block.toRawBlock { header := genesisBlockTemplate isTestnet } = some raw →
      Q raw)
    (hE : ∀ s now raw context, E s (.addBlock now raw context) → Q raw.val ∨
      ∀ pb prev info, PreparedBlock.ofRawBlock cr raw.val context = .ok pb →
        ¬ s.Accepts cr (Currency.make cr isTestnet) now pb prev info)
    {s : State} (h : Run cr (Currency.make cr isTestnet) E s) :
    Changes cr (Currency.make cr isTestnet) (fun _ pb ↦ Q pb.rawBlock) {} s ∧ Started s := by
  induction h with
  | start hok =>
    refine State.start_changes (genesis_fitsMemory isTestnet) ?_ hok
    intro raw pb hraw hprep
    rw [(PreparedBlock.built_of_ofRawBlock (genesis_fitsMemory isTestnet raw hraw) hprep).2]
    exact hgenesis raw hraw
  | @step s t e _ hevent hok ih =>
    obtain ⟨hchanges, hs⟩ := ih
    have hlinked := linked_empty.changes hchanges
    have hmore : Changes cr (Currency.make cr isTestnet) (fun _ pb ↦ Q pb.rawBlock) s t := by
      by_cases hmeets : ∀ now raw context pb, e = .addBlock now raw context →
          PreparedBlock.ofRawBlock cr raw.val context = .ok pb → Q pb.rawBlock
      · exact State.step_changes hlinked hs hmeets hok
      · -- a block that is refused leaves the state alone
        simp only [not_forall] at hmeets
        obtain ⟨now, raw, context, pb, rfl, hprep, hnot⟩ := hmeets
        rw [(PreparedBlock.built_of_ofRawBlock raw.property hprep).2] at hnot
        have hrefused := (hE s now raw context hevent).resolve_left hnot
        simp only [State.step, hprep, bind_eq_ok_iff, Prod.exists] at hok
        obtain ⟨action, info, t', hadd, hok⟩ := hok
        rw [← Except.ok.inj hok]
        rcases State.addBlock_cases hlinked hadd with ⟨rfl, -⟩ | ⟨prev, haccepts, -⟩
        · exact .refl
        · exact absurd haccepts (hrefused pb prev info hprep)
    exact ⟨hchanges.trans hmore, (started_preserved.star hmore ⟨hlinked, hs⟩).2⟩

theorem Run.changes_parses {s : State}
    (h : Run cr (Currency.make cr isTestnet)
      (fun s e ↦ e.ParsesOrRefused cr (Currency.make cr isTestnet) s) s) :
    Changes cr (Currency.make cr isTestnet) Parses {} s ∧ Started s :=
  h.changes_of (genesis_parses isTestnet) fun _ _ _ _ hevent ↦ hevent

/-- While every block offered parses or is refused, blocks are stored, linked and announced under
the hash of the header that their stored bytes decode to. -/
theorem Run.identified {s : State}
    (h : Run cr (Currency.make cr isTestnet)
      (fun s e ↦ e.ParsesOrRefused cr (Currency.make cr isTestnet) s) s) :
    s.Identified cr ∧
    ∀ now raw context pb action info t,
      (Event.addBlock now raw context).ParsesOrRefused cr (Currency.make cr isTestnet) s →
      PreparedBlock.ofRawBlock cr raw.val context = .ok pb →
      s.addBlock cr (Currency.make cr isTestnet) now pb = .ok (action, info, t) →
      action = .broadcastAll →
        (Block.fromRawBlock raw.val).2 = true ∧
        getBlockHash cr pb.block.header = some info.hash := by
  obtain ⟨hchanges, hs⟩ := h.changes_parses
  obtain ⟨hlinked, hrecorded⟩ :=
    recorded_preserved.star hchanges ⟨linked_empty, ⟨by simp, by simp, by simp⟩⟩
  have hmain := hlinked.mainChain hs
  constructor
  · refine ⟨hrecorded.blocks, fun bid info hget ↦ ?_, fun height bid hget ↦ ?_, ?_,
      hrecorded.children, hrecorded.cdTips⟩
    · obtain ⟨pb, rfl, hstores⟩ := hlinked.stored bid info hget
      exact ⟨hstores.hash_eq, by rw [hstores.block]; simp⟩
    · obtain ⟨info, hinfo, -⟩ := hmain.header height bid hget
      rw [hinfo]
      simp
    · obtain ⟨tip, htip, -⟩ := hmain.tip_header
      rw [htip]
      simp
  · intro now raw context pb action info t hevent hprep hadd haction
    rcases State.addBlock_cases hlinked hadd with ⟨-, hne⟩ | ⟨prev, haccepts, -⟩
    · exact absurd haction hne
    · have hverdict : (Block.fromRawBlock raw.val).2 = true :=
        hevent.resolve_right fun hrefused ↦ hrefused pb prev info hprep haccepts
      obtain ⟨hbuilt, hraw⟩ := PreparedBlock.built_of_ofRawBlock raw.property hprep
      have hbid := hbuilt.bid_eq
      rw [hraw, if_pos hverdict] at hbid
      obtain ⟨m, -, rfl⟩ := checkStandaloneConsensus_eq_accept_iff.1 haccepts.check
      exact ⟨hverdict, hbid⟩

theorem addBlock_firstTestnetBlock : returns (runFromStart sampleCrypto testnet []) (fun s ↦
      returns (PreparedBlock.ofRawBlock sampleCrypto (firstTestnetBlock.rawBlock []) false) fun pb ↦
        returns (s.addBlock sampleCrypto testnet 1000 pb) fun r ↦
          r.1 = .broadcastAll ∧ r.2.2.tipBid = firstTestnetBlock.sampleHash) = true := by
  decide +kernel

/-- A block offered to a node that has started is stored and announced under its hash. -/
theorem Run.identified_firstTestnetBlock : ∃ (s t : State) (pb : PreparedBlock)
    (info : Api.BlockHeader), Reachable sampleCrypto testnet s ∧
    s.addBlock sampleCrypto testnet 1000 pb = .ok (.broadcastAll, info, t) ∧
    t.tipBid = firstTestnetBlock.sampleHash ∧ t.Identified sampleCrypto ∧
    getBlockHash sampleCrypto pb.block.header = some info.hash := by
  obtain ⟨s, hrun, htest⟩ := returns_iff.1 addBlock_firstTestnetBlock
  obtain ⟨s₀, hstart, hs⟩ := bind_eq_ok_iff.1 hrun
  obtain rfl := Except.ok.inj hs
  obtain ⟨pb, hprep, htest⟩ := returns_iff.1 htest
  obtain ⟨⟨action, info, t⟩, hadd, htest⟩ := returns_iff.1 htest
  simp only [decide_eq_true_eq] at htest
  obtain ⟨rfl, htip⟩ := htest
  have hfits : (firstTestnetBlock.rawBlock []).FitsMemory := by decide +kernel
  have hverdict : (Block.fromRawBlock (firstTestnetBlock.rawBlock [])).2 = true := by decide +kernel
  have hparses : (Event.addBlock 1000 ⟨firstTestnetBlock.rawBlock [], hfits⟩ false).ParsesOrRefused
      sampleCrypto testnet s₀ := .inl hverdict
  have hstep : s₀.step sampleCrypto testnet
      (.addBlock 1000 ⟨firstTestnetBlock.rawBlock [], hfits⟩ false) = .ok t := by
    simp only [State.step, hprep, hadd]
    rfl
  have hstarted : Run sampleCrypto testnet
      (fun s e ↦ e.ParsesOrRefused sampleCrypto testnet s) s₀ := .start hstart
  exact ⟨s₀, t, pb, info, .start hstart, hadd, htip,
    (@Run.identified sampleCrypto true t (hstarted.step hparses hstep)).1,
    ((@Run.identified sampleCrypto true s₀ hstarted).2 1000 _ false pb _ info t hparses hprep hadd
      rfl).2⟩

/-! ## A block with a byte left over -/

/-- The bytes of a block at height 1 of the main network, and one byte more. -/
def trailingByteBlock : RawBlock :=
  { block := ((sampleTemplate 1 mainnet.genesisBlockHash 0
      (sampleCoinbase 1 281470681743360 [1, 2]) []).rawBlock []).block ++ [0] }

theorem runFromStart_trailingByteBlock : returns (runFromStart sampleCrypto mainnet
      [.offer 1000 trailingByteBlock])
    (fun s ↦ s.tipBid = 0 ∧ s.db.blocks.get 0 = some (Seria.rawBlockBytes trailingByteBlock)) =
      true := by
  decide +kernel

/-- It becomes the tip under the id zero, and its stored bytes do not decode. -/
theorem State.trailingByteBlock_stored : ∃ s, Reachable sampleCrypto mainnet s ∧
    s.db.blocks.get s.tipBid = some (Seria.rawBlockBytes trailingByteBlock) ∧
    ¬ s.Identified sampleCrypto := by
  obtain ⟨s, hrun, htest⟩ := returns_iff.1 runFromStart_trailingByteBlock
  simp only [decide_eq_true_eq] at htest
  obtain ⟨htip, hblock⟩ := htest
  refine ⟨s, reachable_of_runFromStart hrun, by rw [htip, hblock], fun hidentified ↦ ?_⟩
  obtain ⟨raw, block, hraw, hparsed, -⟩ := hidentified.blocks _ _ hblock
  rw [Seria.fromBinary_rawBlockBytes _ (by decide +kernel)] at hraw
  have hverdict : (Block.fromRawBlock trailingByteBlock).2 = false := by decide +kernel
  rw [(Prod.mk.inj hraw).1, hparsed] at hverdict
  cases hverdict

end Naza
