import Naza.BlockImport
import Naza.Concrete

/-!
# Imports of an exported chain

The importers of `BlockImport` over the block chain itself, and files written by
`export_blockchain2`: while the preloading thread stays inside the files, every run offers the
blocks above the tip once each and in ascending order, and ends.
-/

open Lib Relation

namespace Naza

variable {cr : Crypto} {c : Currency}

/-! ## Lists of computations -/

theorem forall₂_of_mapM {α β : Type} {f : α → Except Fault β} {l : List α} {ys : List β}
    (h : l.mapM f = .ok ys) : List.Forall₂ (fun x y ↦ f x = .ok y) l ys := by
  induction l generalizing ys with
  | nil =>
    rw [List.mapM_nil] at h
    exact Except.ok.inj h ▸ .nil
  | cons x l ih =>
    simp only [List.mapM_cons, bind_eq_ok_iff] at h
    obtain ⟨y, hy, ys', hys, h⟩ := h
    exact Except.ok.inj h ▸ .cons hy (ih hys)

theorem mapM_of_forall₂ {α β : Type} {f : α → Except Fault β} {l : List α} {ys : List β}
    (h : List.Forall₂ (fun x y ↦ f x = .ok y) l ys) : l.mapM f = .ok ys := by
  induction h with
  | nil => rfl
  | cons hx _ ih =>
    rw [List.mapM_cons, hx, ih]
    rfl

/-! ## The block chain as a target -/

/-- The constructor of `PreparedBlock` from the bytes of a raw block. -/
def PreparedBlock.ofBytes (cr : Crypto) (ba : BinaryArray) : Option PreparedBlock :=
  match Seria.fromBinary Seria.serRawBlock {} ba with
  | (raw, true) => (PreparedBlock.ofRawBlock cr raw false).toOption
  | (_, false) => none

/-- `add_block` at some time; the state behind an exception is left open. -/
def State.Adds (cr : Crypto) (c : Currency) (s : State) (pb : PreparedBlock) (t : State)
    (broadcast : Bool) : Prop :=
  ∃ now, match s.addBlock cr c now pb with
    | .ok (action, _, t') => t = t' ∧ broadcast = decide (action = .broadcastAll)
    | .error _ => broadcast = false

/-- The block chain as an importer uses it. -/
def importTarget (cr : Crypto) (c : Currency) : ImportTarget State PreparedBlock where
  tipHeight s := s.tipHeight.toNat
  adds := State.Adds cr c
  prepare := PreparedBlock.ofBytes cr
  blockData := PreparedBlock.blockData

/-! ## The blocks exported -/

/-- A stored block is prepared again from its raw block. -/
theorem PreparedBlock.Built.ofRawBlock {pb : PreparedBlock} (h : pb.Built cr) :
    ∃ pb', PreparedBlock.ofRawBlock cr pb.rawBlock false = .ok pb' ∧ pb'.Built cr ∧
      pb'.rawBlock = pb.rawBlock ∧ pb'.bid = pb.bid ∧ pb'.block = pb.block := by
  obtain ⟨coinbase, hcoinbase, -, -⟩ := h.coinbase
  have hbid := h.bid_eq
  rw [h.block_eq] at hcoinbase hbid
  have hok : ∃ pb', PreparedBlock.ofRawBlock cr pb.rawBlock false = .ok pb' ∧ pb'.bid = pb.bid := by
    simp only [PreparedBlock.ofRawBlock, hcoinbase]
    cases hverdict : (Block.fromRawBlock pb.rawBlock).2 with
    | true =>
      rw [hverdict, if_pos rfl] at hbid
      simp only [hbid]
      exact ⟨_, rfl, rfl⟩
    | false =>
      rw [hverdict, if_neg (by simp)] at hbid
      exact ⟨_, rfl, hbid.symm⟩
  obtain ⟨pb', hprep, hbid'⟩ := hok
  obtain ⟨hbuilt, hraw⟩ := PreparedBlock.built_of_ofRawBlock h.fits hprep
  exact ⟨pb', hprep, hbuilt, hraw, hbid', by rw [hbuilt.block_eq, h.block_eq, hraw]⟩

theorem PreparedBlock.Built.ofBytes {pb : PreparedBlock} (h : pb.Built cr)
    (hprep : PreparedBlock.ofRawBlock cr pb.rawBlock false = .ok pb) :
    PreparedBlock.ofBytes cr pb.blockData = some pb := by
  rw [PreparedBlock.ofBytes, h.blockData_eq, Seria.fromBinary_rawBlockBytes _ h.fits]
  simp only [hprep]
  rfl

/-- The block of an exported chain at a height. -/
structure ExportedAt (cr : Crypto) (e : State) (i : ℕ) (pb : PreparedBlock) : Prop where
  built : pb.Built cr
  prepared : PreparedBlock.ofRawBlock cr pb.rawBlock false = .ok pb
  chain : e.db.chain.get (UInt32.ofNat i) = some pb.bid
  header : ∃ info, e.db.headers.get pb.bid = some info ∧
    info.previousBlockHash = pb.block.header.previousBlockHash

/-- The raw block read at a height is the one that the header at this height was made from. -/
theorem exportedAt_of_read {e : State} (h : Linked cr c e) {ha : ℕ} {raw : RawBlock}
    (hread : (do
      let bid ← e.readChain (UInt32.ofNat ha)
      let stored ← e.readBlock bid
      let (_, raw) ← expect stored "block_chain.read_block failed"
      return raw : Except Fault RawBlock) = .ok raw) :
    ∃ pb, PreparedBlock.ofRawBlock cr raw false = .ok pb ∧ ExportedAt cr e ha pb := by
  simp only [bind_eq_ok_iff, State.readChain, expect_eq_ok_iff, Prod.exists] at hread
  obtain ⟨bid, hchain, stored, hstored, data, raw', rfl, hraw⟩ := hread
  have hraw := Except.ok.inj hraw
  subst hraw
  have hmain := h.mainChain (h.started_of_get hchain)
  obtain ⟨info, hinfo, -, -⟩ := hmain.header _ _ hchain
  obtain ⟨pb, rfl, hstores⟩ := h.stored _ _ hinfo
  rw [hstores.readBlock_eq] at hstored
  obtain ⟨-, rfl⟩ := Prod.mk.inj (Option.some.inj (Except.ok.inj hstored))
  obtain ⟨pb', hprep, hbuilt, hraw, hbid, hblock⟩ := hstores.built.ofRawBlock
  refine ⟨pb', hprep, hbuilt, hraw ▸ hprep, hbid ▸ hchain, info, hbid ▸ hinfo, ?_⟩
  rw [hblock, hstores.previousBlockHash_eq]

/-- What `export_blockchain2` reads are the blocks of the main chain. -/
theorem exported_of_readRawBlocks {e : State} (h : Linked cr c e) {raws : List RawBlock}
    (hread : LegacyBlockChainWriter.readRawBlocks e = .ok raws) :
    ∃ blocks, raws.mapM (fun raw ↦ PreparedBlock.ofRawBlock cr raw false) = .ok blocks ∧
      blocks.length = (e.tipHeight + 1).toNat ∧
      blocks.map PreparedBlock.blockData = raws.map Seria.rawBlockBytes ∧
      ∀ i pb, blocks[i]? = some pb → ExportedAt cr e i pb := by
  replace hread := forall₂_of_mapM hread
  have hblocks : ∃ blocks, List.Forall₂ (fun raw pb ↦
      PreparedBlock.ofRawBlock cr raw false = .ok pb) raws blocks ∧
      List.Forall₂ (ExportedAt cr e) (List.range (e.tipHeight + 1).toNat) blocks := by
    generalize List.range (e.tipHeight + 1).toNat = heights at hread
    induction hread with
    | nil => exact ⟨[], .nil, .nil⟩
    | cons hx _ ih =>
      obtain ⟨blocks, hraws, hexported⟩ := ih
      obtain ⟨pb, hprep, hat⟩ := exportedAt_of_read h hx
      exact ⟨pb :: blocks, .cons hprep hraws, .cons hat hexported⟩
  obtain ⟨blocks, hraws, hexported⟩ := hblocks
  refine ⟨blocks, mapM_of_forall₂ hraws, ?_, ?_, fun i pb hget ↦ ?_⟩
  · rw [← hexported.length_eq, List.length_range]
  · symm
    rw [← List.forall₂_eq_eq_eq, List.forall₂_map_left_iff, List.forall₂_map_right_iff]
    refine hraws.imp fun raw pb hprep ↦ ?_
    simp only [PreparedBlock.ofRawBlock, bind_eq_ok_iff] at hprep
    obtain ⟨_, _, _, _, _, _, hprep⟩ := hprep
    rw [← Except.ok.inj hprep]
  · obtain ⟨hlt, rfl⟩ := List.getElem?_eq_some_iff.mp hget
    have hat := hexported.get (by rw [hexported.length_eq]; exact hlt) hlt
    simpa using hat

/-! ## The importing chain -/

/-- Two nodes that store a block under one hash agree on the block before it. -/
def SamePredecessors (e s : State) : Prop :=
  ∀ bid info info', e.db.headers.get bid = some info → s.db.headers.get bid = some info' →
    info'.previousBlockHash = info.previousBlockHash

/-- The block has the predecessor that the exporting node has stored under its hash. -/
def Matches (e : State) (_ : State) (pb : PreparedBlock) : Prop :=
  ∀ info, e.db.headers.get pb.bid = some info →
    pb.block.header.previousBlockHash = info.previousBlockHash

theorem ExportedAt.matches {e : State} {i : ℕ} {pb : PreparedBlock} (h : ExportedAt cr e i pb)
    (s : State) : Matches e s pb := by
  obtain ⟨info, hinfo, hprev⟩ := h.header
  intro info' hinfo'
  rw [hinfo, Option.some.injEq] at hinfo'
  rw [← hinfo', hprev]

/-- Storing blocks that match keeps the agreement. -/
theorem samePredecessors_preserved (e : State) :
    Preserves (Change cr c (Matches e)) (SamePredecessors e) := by
  intro s t hchange h
  have hsame : ∀ {t : State}, t.db.headers = s.db.headers → SamePredecessors e t := fun heq ↦ by
    rw [SamePredecessors, heq]
    exact h
  cases hchange with
  | addTransaction hok =>
    obtain ⟨pool, version, rfl⟩ := State.addTransaction_frame hok
    exact h
  | clearPool => exact h
  | poolVersion => exact h
  | cacheNextIndex => exact h
  | storeBlock hmatches hbuilt hroot haccepts hok =>
    rename_i now pb prev info
    obtain ⟨-, _, -, -, rfl⟩ := State.storeBlock_eq hok
    intro bid info₀ info' hinfo₀ hinfo'
    by_cases hbid : pb.bid = bid
    · subst hbid
      change (s.db.headers.put pb.bid info).get pb.bid = some info' at hinfo'
      rw [Store.get_put_self, Option.some.injEq] at hinfo'
      obtain ⟨m, -, hinfo⟩ := checkStandaloneConsensus_eq_accept_iff.1 haccepts.check
      rw [← hinfo', hinfo, ← hmatches _ hinfo₀]
      rfl
    · change (s.db.headers.put pb.bid info).get bid = some info' at hinfo'
      rw [Store.get_put_of_ne _ _ hbid] at hinfo'
      exact h bid info₀ info' hinfo₀ hinfo'
  | countChild => exact h
  | connect _ _ hredo hpush =>
    obtain ⟨-, _, _, rfl⟩ := State.pushChain_eq hpush
    exact hsame (State.links_eq_iff.1 (State.links_of_treePart
      (State.redoBlockIndexed_treePart hredo))).1
  | disconnect hundo =>
    obtain ⟨_, _, _, s₁, s₂, -, -, h₁, h₂, h₃⟩ := State.undoTip_eq hundo
    obtain ⟨-, _, _, -, -, rfl⟩ := State.tipChanged_eq h₃
    obtain ⟨-, -, _, -, rfl⟩ := State.popChain_eq h₂
    exact hsame (State.links_eq_iff.1 (State.links_of_treePart
      (State.undoBlockIndexed_treePart h₁))).1
  | readTip _ hread htip =>
    obtain ⟨-, _, _, -, -, rfl⟩ := State.tipChanged_eq htip
    simp only [State.readTip, bind_eq_ok_iff, Prod.exists] at hread
    obtain ⟨_, _, -, _, -, hread⟩ := hread
    rw [← Except.ok.inj hread]
    exact h
  | tipChanged htip =>
    obtain ⟨-, _, _, -, -, rfl⟩ := State.tipChanged_eq htip
    exact h

/-- What the importing chain keeps. -/
structure Importing (cr : Crypto) (c : Currency) (e s : State) : Prop where
  linked : Linked cr c s
  started : Started s
  agrees : SamePredecessors e s

theorem ofNat_succ_ne_zero {i : ℕ} (hi : i + 1 < 2 ^ 32) : UInt32.ofNat (i + 1) ≠ 0 := by
  intro hzero
  have hnat : (UInt32.ofNat (i + 1)).toNat = 0 := by
    rw [hzero]
    rfl
  rw [UInt32.toNat_ofNat', Nat.mod_eq_of_lt hi] at hnat
  omega

theorem ofNat_succ_sub_one (i : ℕ) : UInt32.ofNat (i + 1) - 1 = UInt32.ofNat i := by
  rw [UInt32.ofNat_add]
  exact UInt32.add_sub_cancel _ _

/-- A block that both nodes have stands at the same height in both. -/
theorem Importing.height_eq {e s : State} (he : Linked cr c e) (h : Importing cr c e s) {i : ℕ}
    (hi : i ≤ e.tipHeight.toNat) {bid : Hash} (hchain : e.db.chain.get (UInt32.ofNat i) = some bid)
    {info : Api.BlockHeader} (hinfo : s.db.headers.get bid = some info) :
    info.height = UInt32.ofNat i := by
  have hmain := he.mainChain (he.started_of_get hchain)
  induction i generalizing bid info with
  | zero =>
    have hroot : some bid = some c.genesisBlockHash := hchain.symm.trans hmain.root
    rw [Option.some.injEq] at hroot
    subst hroot
    exact h.linked.genesis info hinfo
  | succ i ih =>
    obtain ⟨info₀, hinfo₀, hheight, hbefore⟩ := hmain.header _ _ hchain
    have hlt := e.tipHeight.toNat_lt
    have hne : UInt32.ofNat (i + 1) ≠ 0 := ofNat_succ_ne_zero (by omega)
    have hprev := hbefore hne
    rw [ofNat_succ_sub_one] at hprev
    have hgenesis : bid ≠ c.genesisBlockHash := by
      rintro rfl
      exact hne (hheight ▸ he.genesis info₀ hinfo₀)
    obtain ⟨prev, hparent, hsucc, -⟩ := h.linked.parent bid info hinfo hgenesis
    rw [h.agrees bid info₀ info hinfo₀ hinfo] at hparent
    rw [hsucc, ih (by omega) hprev hparent, UInt32.ofNat_add]
    rfl

/-- A block of the files that is broadcast is the new tip, one above the tip before. -/
theorem Importing.adds {e s t : State} (he : Linked cr c e) (h : Importing cr c e s)
    {pb : PreparedBlock} (hexported : ExportedAt cr e (s.tipHeight.toNat + 1) pb)
    (hlt : s.tipHeight.toNat + 1 ≤ e.tipHeight.toNat) (hadds : State.Adds cr c s pb t true) :
    Importing cr c e t ∧ t.tipHeight.toNat = s.tipHeight.toNat + 1 ∧
      e.db.chain.get t.tipHeight = some t.tipBid := by
  obtain ⟨now, hadds⟩ := hadds
  split at hadds
  · next action info t' hok =>
    obtain ⟨rfl, haction⟩ := hadds
    have haction : action = .broadcastAll := by simpa using haction.symm
    subst haction
    have hroot : s.db.headers.get pb.bid = none →
        (pb.bid = c.genesisBlockHash ↔ s.db.chain.get 0 = none) := fun hfresh ↦
      iff_of_false (h.linked.fresh_ne_genesis h.started hfresh) h.started
    have hchanges := (State.addBlock_changes (P := Matches e) h.linked (hexported.matches s)
      hexported.built hroot hok).1
    obtain ⟨hlinked, hstarted⟩ := started_preserved.star hchanges ⟨h.linked, h.started⟩
    have hafter : Importing cr c e t :=
      ⟨hlinked, hstarted, (samePredecessors_preserved e).star hchanges h.agrees⟩
    refine ⟨hafter, ?_⟩
    obtain ⟨-, hne⟩ | ⟨prev, haccepts, hinsert⟩ := State.addBlock_cases h.linked hok
    · exact absurd rfl hne
    -- the answer is given only where the block is the tip
    have htip : info.hash = t.tipBid := by
      simp only [State.insertBlock, bind_eq_ok_iff] at hinsert
      obtain ⟨s₁, -, s₂, -, chosen, -, hinsert⟩ := hinsert
      cases chosen with
      | none => cases (Prod.mk.inj (Except.ok.inj hinsert)).1
      | some u =>
        obtain ⟨hverdict, rfl⟩ := Prod.mk.inj (Except.ok.inj hinsert)
        by_contra hne
        rw [if_neg hne] at hverdict
        cases hverdict
    obtain ⟨m, -, hinfo⟩ := checkStandaloneConsensus_eq_accept_iff.1 haccepts.check
    have hhash : info.hash = pb.bid := by
      rw [hinfo]
      rfl
    obtain ⟨tip, htipInfo, hheight⟩ := (hlinked.mainChain hstarted).tip_header
    rw [← htip, hhash] at htipInfo
    have heq := hafter.height_eq he hlt hexported.chain htipInfo
    have hbound := e.tipHeight.toNat_lt
    refine ⟨?_, ?_⟩
    · rw [← hheight, heq, UInt32.toNat_ofNat', Nat.mod_eq_of_lt (by omega)]
    · rw [← hheight, heq, hexported.chain, ← htip, hhash]
  · cases hadds

/-- The files of an exported chain, as the importers of another node see them. -/
theorem holds_of_exported {e : State} (he : Linked cr c e) {blocks : List PreparedBlock}
    (hlength : blocks.length = (e.tipHeight + 1).toNat)
    (hexported : ∀ i pb, blocks[i]? = some pb → ExportedAt cr e i pb)
    (hsizes : ∀ pb ∈ blocks, pb.blockData.length < 2 ^ 32) :
    Holds (importTarget cr c) (blockFiles (blocks.map PreparedBlock.blockData)) blocks
      (Importing cr c e) ∧
    Holds (importTarget cr c) (blockFiles (blocks.map PreparedBlock.blockData)) blocks
      fun s ↦ Importing cr c e s ∧ e.db.chain.get s.tipHeight = some s.tipBid := by
  have hle : ∀ i, i < blocks.length → i ≤ e.tipHeight.toNat := by
    intro i hi
    rw [hlength, UInt32.toNat_add] at hi
    have hmod := Nat.mod_le (e.tipHeight.toNat + (1 : UInt32).toNat) (2 ^ 32)
    have hone : (1 : UInt32).toNat = 1 := rfl
    omega
  have hadds : ∀ s pb t, Importing cr c e s → blocks[s.tipHeight.toNat + 1]? = some pb →
      State.Adds cr c s pb t true → Importing cr c e t ∧
        t.tipHeight.toNat = s.tipHeight.toNat + 1 ∧ e.db.chain.get t.tipHeight = some t.tipBid :=
    fun s pb t hinv hget hadds ↦ hinv.adds he (hexported _ _ hget)
      (hle _ (List.getElem?_eq_some_iff.mp hget).1) hadds
  have hholds : Holds (importTarget cr c) (blockFiles (blocks.map PreparedBlock.blockData)) blocks
      (Importing cr c e) := by
    refine ⟨fun i ↦ ?_, fun chain p ↦ ?_,
      fun chain p chain' hinv hget h ↦ (hadds chain p chain' hinv hget h).1,
      fun chain p chain' hinv hget h ↦ (hadds chain p chain' hinv hget h).2.1⟩
    · have hdata : ∀ ba ∈ blocks.map PreparedBlock.blockData, ba.length < 2 ^ 32 := by
        simpa using hsizes
      have hread := getBlockDataByIndex_blockFiles hdata i
      rw [List.length_map] at hread
      rw [loadBlock, hread, List.getElem?_map]
      cases hget : blocks[i]? with
      | none => rfl
      | some pb => exact (hexported i pb hget).built.ofBytes (hexported i pb hget).prepared
    · change ∃ t broadcast now, _
      cases hok : chain.addBlock cr c 0 p with
      | error f => exact ⟨chain, false, 0, by rw [hok]⟩
      | ok r => exact ⟨r.2.2, _, 0, by rw [hok]; exact ⟨rfl, rfl⟩⟩
  exact ⟨hholds, hholds.and fun chain p chain' hinv hget h ↦ (hadds chain p chain' hinv hget h).2.2⟩

/-- Below a common tip the two chains are the same. -/
theorem Importing.chain_eq {e s : State} (he : Linked cr c e) (h : Importing cr c e s)
    (htip : e.db.chain.get s.tipHeight = some s.tipBid) {height : Height}
    (hle : height ≤ s.tipHeight) : s.db.chain.get height = e.db.chain.get height := by
  have hmain := h.linked.mainChain h.started
  have hmain' := he.mainChain (he.started_of_get htip)
  have hlt := s.tipHeight.toNat_lt
  have hdown : ∀ j k, k + j = s.tipHeight.toNat →
      s.db.chain.get (UInt32.ofNat k) = e.db.chain.get (UInt32.ofNat k) := by
    intro j
    induction j with
    | zero =>
      intro k hk
      rw [Nat.add_zero] at hk
      rw [hk, UInt32.ofNat_toNat, htip, hmain.tip]
    | succ j ih =>
      intro k hk
      have heq := ih (k + 1) (by omega)
      have hne : UInt32.ofNat (k + 1) ≠ 0 := ofNat_succ_ne_zero (by omega)
      cases hget : s.db.chain.get (UInt32.ofNat (k + 1)) with
      | none =>
        refine absurd hget (hmain.present _ ?_)
        rw [UInt32.le_iff_toNat_le, UInt32.toNat_ofNat', Nat.mod_eq_of_lt (by omega)]
        omega
      | some bid =>
        obtain ⟨info', hinfo', -, hprev'⟩ := hmain.header _ _ hget
        obtain ⟨info, hinfo, -, hprev⟩ := hmain'.header _ _ (heq ▸ hget)
        have hbefore' := hprev' hne
        have hbefore := hprev hne
        rw [ofNat_succ_sub_one] at hbefore hbefore'
        rw [hbefore, hbefore', h.agrees _ _ _ hinfo hinfo']
  have hall := hdown (s.tipHeight.toNat - height.toNat) height.toNat (by
    rw [UInt32.le_iff_toNat_le] at hle
    omega)
  rwa [UInt32.ofNat_toNat] at hall

/-- The files that `export_blockchain2` writes, and the blocks in them. -/
theorem holds_of_readRawBlocks {e : State} (he : Linked cr c e) {raws : List RawBlock}
    (hread : LegacyBlockChainWriter.readRawBlocks e = .ok raws)
    (hsizes : ∀ raw ∈ raws, (Seria.rawBlockBytes raw).length < 2 ^ 32) :
    ∃ files blocks, LegacyBlockChainWriter.exportBlockchain2 e = .ok files ∧
      raws.mapM (fun raw ↦ PreparedBlock.ofRawBlock cr raw false) = .ok blocks ∧
      LegacyBlockChainReader.blockCount files = some blocks.length ∧
      blocks.length = (e.tipHeight + 1).toNat ∧
      Holds (importTarget cr c) files blocks (Importing cr c e) ∧
      Holds (importTarget cr c) files blocks
        fun s ↦ Importing cr c e s ∧ e.db.chain.get s.tipHeight = some s.tipBid := by
  obtain ⟨blocks, hblocks, hlength, hdata, hexported⟩ := exported_of_readRawBlocks he hread
  have hsizes' : ∀ pb ∈ blocks, pb.blockData.length < 2 ^ 32 := by
    have hall : ∀ ba ∈ blocks.map PreparedBlock.blockData, ba.length < 2 ^ 32 := by
      rw [hdata]
      simpa using hsizes
    simpa using hall
  have hlt : blocks.length < 2 ^ 32 := hlength ▸ UInt32.toNat_lt _
  have hwrites : LegacyBlockChainWriter.exportBlockchain2 e =
      .ok (blockFiles (blocks.map PreparedBlock.blockData)) := by
    have hfold : raws.foldl LegacyBlockChainWriter.writeBlock
        (LegacyBlockChainWriter.new (e.tipHeight + 1).toNat) =
          (raws.map Seria.rawBlockBytes).foldl LegacyBlockChainWriter.writeBytes
            (LegacyBlockChainWriter.new (e.tipHeight + 1).toNat) := by
      rw [List.foldl_map]
      rfl
    simp only [LegacyBlockChainWriter.exportBlockchain2, hread]
    change Except.ok _ = _
    rw [hfold, foldl_writeBytes, ← hdata, ← hlength]
    simp [blockFiles, LegacyBlockChainWriter.new]
  have hcount : LegacyBlockChainReader.blockCount
      (blockFiles (blocks.map PreparedBlock.blockData)) = some blocks.length := by
    have hcount := @blockCount_blockFiles (blocks.map PreparedBlock.blockData)
    rw [List.length_map] at hcount
    exact hcount hlt
  obtain ⟨hholds, hholds'⟩ := @holds_of_exported cr c e he blocks hlength hexported hsizes'
  exact ⟨_, blocks, hwrites, hblocks, hcount, hlength, hholds, hholds'⟩

/-- The chain imported is the exported one, up to its tip. -/
def FollowsExported (e t : State) : Prop :=
  ∀ height ≤ t.tipHeight, t.db.chain.get height = e.db.chain.get height

/-- Importing an exported chain: `import_blocks` goes well, and so does `import_blockchain2` where
its preloader stays inside the files; what is imported above the genesis block is the exported
chain. -/
theorem importsInOrder_of_exported {e s : State} (he : Visited cr c e) (hse : Started e)
    (hs : Visited cr c s) (hss : Started s) (hagrees : SamePredecessors e s) {raws : List RawBlock}
    (hread : LegacyBlockChainWriter.readRawBlocks e = .ok raws)
    (hsizes : ∀ raw ∈ raws, (Seria.rawBlockBytes raw).length < 2 ^ 32) :
    ∃ files blocks, LegacyBlockChainWriter.exportBlockchain2 e = .ok files ∧
      raws.mapM (fun raw ↦ PreparedBlock.ofRawBlock cr raw false) = .ok blocks ∧
      LegacyBlockChainReader.blockCount files = some blocks.length ∧
      (ImportsInOrder (ImportBlocks.Step (importTarget cr c) files blocks.length) (.start s)
          ImportBlocks.Config.requested ImportBlocks.Config.offered
          (fun x ↦ ∃ refused, x.phase = .dropped refused) (fun x ↦ x.phase = .dropped false) blocks
          s.tipHeight.toNat blocks.length ∧
        (s.tipHeight = 0 → ∀ x,
          ReflTransGen (ImportBlocks.Step (importTarget cr c) files blocks.length) (.start s) x →
            x.phase = .dropped false → x.chain.tipHeight.toNat = x.offered.length ∧
              FollowsExported e x.chain)) ∧
      ∀ (maxHeight : Height) (height : ℕ),
        height = ImportBlockchain2.importHeight maxHeight.toNat blocks.length →
        ImportBlockchain2.InsideFiles (importTarget cr c) blocks s.tipHeight.toNat height →
          ImportsInOrder (ImportBlockchain2.Step (importTarget cr c) files blocks.length height)
            (.start s) ImportBlockchain2.Config.requested ImportBlockchain2.Config.offered
            ImportBlockchain2.Config.Ended (fun x ↦ x.importer = .returned true) blocks
            s.tipHeight.toNat height ∧
          (s.tipHeight = 0 → ∀ x,
            ReflTransGen (ImportBlockchain2.Step (importTarget cr c) files blocks.length height)
              (.start s) x →
            x.importer = .returned true → x.chain.tipHeight.toNat = x.offered.length ∧
              FollowsExported e x.chain) := by
  have hlinked := he.linked
  obtain ⟨files, blocks, hwrites, hblocks, hcount, -, hholds, hholds'⟩ :=
    @holds_of_readRawBlocks cr c e hlinked raws hread hsizes
  have himporting : Importing cr c e s := ⟨hs.linked, hss, hagrees⟩
  -- a chain that holds the genesis block alone follows the exported one
  have hgenesis : s.tipHeight = 0 → e.db.chain.get s.tipHeight = some s.tipBid := by
    intro hzero
    have htip := (hs.linked.mainChain hss).tip
    rw [hzero, (hs.linked.mainChain hss).root] at htip
    rw [hzero, (hlinked.mainChain hse).root, htip]
  have hfollows : ∀ (t : State) (k : ℕ), s.tipHeight = 0 →
      (Importing cr c e t ∧ e.db.chain.get t.tipHeight = some t.tipBid) ∧
        t.tipHeight.toNat = s.tipHeight.toNat + k →
      t.tipHeight.toNat = k ∧ FollowsExported e t := by
    intro t k hzero ht
    refine ⟨?_, fun height hle ↦ ht.1.1.chain_eq hlinked ht.1.2 hle⟩
    rw [ht.2, hzero]
    exact Nat.zero_add k
  refine ⟨files, blocks, hwrites, hblocks, hcount,
    ⟨ImportBlocks.importsInOrder hholds himporting, fun hzero x hrun hphase ↦ ?_⟩,
    fun maxHeight height _ hinside ↦
      ⟨ImportBlockchain2.importsInOrder hholds himporting hinside,
        fun hzero x hrun hreturned ↦ ?_⟩⟩
  · exact hfollows _ _ hzero
      (ImportBlocks.chain_of_succeeded hholds' ⟨himporting, hgenesis hzero⟩ hrun hphase)
  · exact hfollows _ _ hzero
      (ImportBlockchain2.chain_of_succeeded hholds' ⟨himporting, hgenesis hzero⟩ hinside hrun
        hreturned)

/-! ## A chain of two blocks -/

/-- A node with one block above the genesis block, a node without it, and the import of that block
from the files of the first. -/
theorem runFromStart_import : returns (runFromStart sampleCrypto testnet
      [.offer 1000 (firstTestnetBlock.rawBlock [])]) (fun e ↦
      returns (runFromStart sampleCrypto testnet []) fun s ↦
        (s.db.headers.toList.all fun entry ↦ (e.db.headers.get entry.1).all fun info ↦
          decide (entry.2.previousBlockHash = info.previousBlockHash)) &&
        decide (e.tipHeight = 1 ∧ s.tipHeight = 0) &&
        returns (LegacyBlockChainWriter.readRawBlocks e) fun raws ↦
          (raws.all fun raw ↦ decide ((Seria.rawBlockBytes raw).length < 2 ^ 32)) &&
          returns (raws.mapM fun raw ↦ PreparedBlock.ofRawBlock sampleCrypto raw false) fun blocks ↦
            blocks[1]?.any fun pb ↦ returns (s.addBlock sampleCrypto testnet 1000 pb) fun r ↦
              decide (r.1 = .broadcastAll ∧ r.2.2.tipHeight = 1)) = true := by
  decide +kernel

/-- A node that has the genesis block alone imports the other block of the files, and ends with the
exported chain. -/
theorem importsInOrder_of_exported_firstTestnetBlock : ∃ (e s : State) (files : BlockFiles)
    (blocks : List PreparedBlock) (x : ImportBlocks.Config State PreparedBlock),
    Reachable sampleCrypto testnet e ∧ Reachable sampleCrypto testnet s ∧ s.tipHeight = 0 ∧
    LegacyBlockChainWriter.exportBlockchain2 e = .ok files ∧ blocks.length = 2 ∧
    ImportsInOrder (ImportBlocks.Step (importTarget sampleCrypto testnet) files blocks.length)
      (.start s) ImportBlocks.Config.requested ImportBlocks.Config.offered
      (fun x ↦ ∃ refused, x.phase = .dropped refused) (fun x ↦ x.phase = .dropped false) blocks
      s.tipHeight.toNat blocks.length ∧
    ReflTransGen (ImportBlocks.Step (importTarget sampleCrypto testnet) files blocks.length)
      (.start s) x ∧
    x.phase = .dropped false ∧ x.requested = [1] ∧ x.offered = blocks.drop 1 ∧
    x.chain.tipHeight = 1 ∧ FollowsExported e x.chain := by
  obtain ⟨e, hrun, htest⟩ := returns_iff.1 runFromStart_import
  obtain ⟨s, hrun', htest⟩ := returns_iff.1 htest
  simp only [Bool.and_eq_true, decide_eq_true_eq, List.all_eq_true] at htest
  obtain ⟨⟨hprevs, htip, htip'⟩, hblocks⟩ := htest
  obtain ⟨raws, hread, htest⟩ := returns_iff.1 hblocks
  obtain ⟨hsizes, hadd⟩ := Bool.and_eq_true_iff.1 htest
  obtain ⟨blocks, hblocks, hadd⟩ := returns_iff.1 hadd
  obtain ⟨pb, hget, hadd⟩ := (Option.any_eq_true _ _).1 hadd
  obtain ⟨⟨action, info, t⟩, hadd, hgrown⟩ := returns_iff.1 hadd
  obtain ⟨rfl, hgrown⟩ := of_decide_eq_true hgrown
  have hsizes : ∀ raw ∈ raws, (Seria.rawBlockBytes raw).length < 2 ^ 32 := by simpa using hsizes
  have hagrees : SamePredecessors e s := by
    intro bid info info' hinfo hinfo'
    have hall := hprevs (bid, info') (Store.mem_toList_iff.2 hinfo')
    simpa [hinfo] using hall
  have he := reachable_of_runFromStart hrun
  have hs := reachable_of_runFromStart hrun'
  obtain ⟨files, blocks₁, hwrites, hprepared, -, hlength, hholds, -⟩ :=
    holds_of_readRawBlocks he.linked hread hsizes
  obtain rfl := Except.ok.inj (hblocks.symm.trans hprepared)
  obtain ⟨files₂, blocks₂, hwrites₂, hprepared₂, -, ⟨himports, hends⟩, -⟩ :=
    importsInOrder_of_exported he.visited he.started hs.visited hs.started hagrees hread hsizes
  obtain rfl := Except.ok.inj (hwrites.symm.trans hwrites₂)
  obtain rfl := Except.ok.inj (hblocks.symm.trans hprepared₂)
  have htwo : blocks.length = 2 := by
    rw [hlength, htip]
    rfl
  have htipS : (importTarget sampleCrypto testnet).tipHeight s = 0 := by
    change s.tipHeight.toNat = 0
    rw [htip']
    rfl
  have htipT : (importTarget sampleCrypto testnet).tipHeight t = 1 := by
    change t.tipHeight.toNat = 1
    rw [hgrown]
    rfl
  have hload : loadBlock (importTarget sampleCrypto testnet) files blocks.length
      ((importTarget sampleCrypto testnet).tipHeight s + 1) = some pb := by
    rw [hholds.load, htipS, hget]
  have hadds : (importTarget sampleCrypto testnet).adds s pb t true :=
    ⟨1000, by rw [hadd]; exact ⟨rfl, rfl⟩⟩
  have hrun : ReflTransGen (ImportBlocks.Step (importTarget sampleCrypto testnet) files
      blocks.length) (.start s) ⟨t, .dropped false, [1], [pb]⟩ := by
    refine (ReflTransGen.single (.call rfl)).tail ?_
    have hstep := @ImportBlocks.Step.offer _ _ (importTarget sampleCrypto testnet) files
      blocks.length ⟨s, .running, [], []⟩ pb t (.dropped false) rfl (by rw [htipS, htwo]; decide)
      hload hadds (.inr (by rw [htipT, htwo, if_neg (by decide)]))
    rw [htipS] at hstep
    exact hstep
  have hdrop : blocks.drop 1 = [pb] := by
    obtain ⟨hlt, heq⟩ := List.getElem?_eq_some_iff.1 hget
    rw [List.drop_eq_getElem_cons hlt, heq, List.drop_eq_nil_of_le (by omega)]
  exact ⟨e, s, files, blocks, _, he, hs, htip', hwrites, htwo, himports, hrun, rfl, rfl, hdrop.symm,
    hgrown, (hends htip' _ hrun rfl).2⟩

/-! ## A chain of the genesis block alone -/

theorem runFromStart_genesis : returns (runFromStart sampleCrypto testnet []) (fun s ↦
      decide (s.tipHeight = 0) && returns (LegacyBlockChainWriter.readRawBlocks s) fun raws ↦
        raws.all fun raw ↦ decide ((Seria.rawBlockBytes raw).length < 2 ^ 32)) = true := by
  decide +kernel

theorem genesis_exported : ∃ (s : State) (raws : List RawBlock),
    Reachable sampleCrypto testnet s ∧ s.tipHeight = 0 ∧
      LegacyBlockChainWriter.readRawBlocks s = .ok raws ∧
      ∀ raw ∈ raws, (Seria.rawBlockBytes raw).length < 2 ^ 32 := by
  obtain ⟨s, hrun, htest⟩ := returns_iff.1 runFromStart_genesis
  simp only [Bool.and_eq_true, decide_eq_true_eq] at htest
  obtain ⟨raws, hread, hsizes⟩ := returns_iff.1 htest.2
  exact ⟨s, raws, reachable_of_runFromStart hrun, htest.1, hread, by simpa using hsizes⟩

/-- Imported without a bound by a node that has it: the block behind the last one is asked for, and
the process ends. -/
theorem not_importsInOrder_genesis :
    ∃ (s : State) (files : BlockFiles) (blocks : List PreparedBlock)
    (height : ℕ), Reachable sampleCrypto testnet s ∧
      LegacyBlockChainWriter.exportBlockchain2 s = .ok files ∧
      LegacyBlockChainReader.blockCount files = some blocks.length ∧
      height = ImportBlockchain2.importHeight (0xFFFFFFFF : Height).toNat blocks.length ∧
      (∃ x, ReflTransGen (ImportBlockchain2.Step (importTarget sampleCrypto testnet) files
          blocks.length height) (.start s) x ∧
        x.requested = [blocks.length] ∧ x.preloader = .failed) ∧
      ¬ImportsInOrder (ImportBlockchain2.Step (importTarget sampleCrypto testnet) files
          blocks.length height) (.start s)
        ImportBlockchain2.Config.requested ImportBlockchain2.Config.offered
        ImportBlockchain2.Config.Ended (fun x ↦ x.importer = .returned true) blocks
        s.tipHeight.toNat height := by
  obtain ⟨s, raws, hreach, htip, hread, hsizes⟩ := genesis_exported
  obtain ⟨files, blocks, hexport, -, hcount, hlength, hholds, -⟩ :=
    @holds_of_readRawBlocks sampleCrypto testnet s hreach.linked raws hread hsizes
  have hone : blocks.length = 1 := by
    rw [hlength, htip]
    rfl
  have hindex : (importTarget sampleCrypto testnet).tipHeight s + 1 = blocks.length := by
    change s.tipHeight.toNat + 1 = _
    rw [htip, hone]
    rfl
  have hload : loadBlock (importTarget sampleCrypto testnet) files blocks.length
      ((importTarget sampleCrypto testnet).tipHeight s + 1) = none := by
    rw [hholds.load, hindex, List.getElem?_eq_none le_rfl]
  have hlt : (importTarget sampleCrypto testnet).tipHeight s <
      ImportBlockchain2.importHeight (0xFFFFFFFF : Height).toNat blocks.length := by
    change s.tipHeight.toNat < _
    rw [htip, hone]
    decide
  obtain ⟨x, hrun, hrequested, hfailed⟩ := ImportBlockchain2.exists_failed hlt hload
  rw [hindex] at hrequested
  refine ⟨s, files, blocks, _, hreach, hexport, hcount, rfl, ⟨x, hrun, hrequested, hfailed⟩,
    fun h ↦ ?_⟩
  have hbelow := h.requested_lt x hrun blocks.length (by simp [hrequested])
  omega

end Naza
