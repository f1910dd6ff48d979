import Naza.BlockIndices
import Naza.LedgerBlocks

/-!
# The tables of the main chain

The main chain of a state as a list of blocks, what every table says about such a list, and the
invariant that the tables of a state are those of its main chain.  Spent flags are left out here:
in the checkpoint zone the code marks outputs without checks.
-/

open Lib Relation

namespace Naza

variable {cr : Crypto} {c : Currency} {P : State → PreparedBlock → Prop}

/-! ## Tables of a list of blocks -/

/-- The block that a raw block is decoded to. -/
abbrev RawBlock.decoded (raw : RawBlock) : Block := (Block.fromRawBlock raw).1

/-- The hash of the coinbase of a raw block. -/
def RawBlock.baseHash (cr : Crypto) (raw : RawBlock) : Hash :=
  (getTransactionHash cr raw.decoded.header.baseTransaction).getD 0

/-- The number of outputs of each amount. -/
def Ledger.next (L : Ledger) (amount : Amount) : UInt32 := UInt32.ofNat (L.outputs amount).length

structure Tables where
  ledger : Ledger := {}
  globalIndices : Store Hash BlockGlobalIndices := ∅
  transactions : Store Hash TransactionPos := ∅
  timestamps : Store (Timestamp × Height) Unit := ∅

namespace Tables

/-- What a block at a height adds to the tables. -/
def connect (cr : Crypto) (height : Height) (bid : Hash) (raw : RawBlock) (T : Tables) :
    Tables where
  ledger := T.ledger.connect height raw.decoded.allTransactions
  globalIndices := T.globalIndices.put bid
    (globalIndicesOf T.ledger.next raw.decoded.allTransactions)
  transactions := T.transactions.putAll
    (blockEntries (Seria.rawBlockBytes raw) raw raw.decoded height (raw.baseHash cr))
  timestamps := T.timestamps.put (raw.decoded.header.timestamp, height) ()

/-- Everything that a block writes is new. -/
structure Admits (cr : Crypto) (T : Tables) (height : Height) (bid : Hash) (raw : RawBlock) :
    Prop where
  keyImages : ∀ ki ∈ keyImagesOf raw.decoded.allTransactions, T.ledger.keyImages ki = none
  keyImages_nodup : (keyImagesOf raw.decoded.allTransactions).Nodup
  globalIndices : T.globalIndices.get bid = none
  timestamps : T.timestamps.get (raw.decoded.header.timestamp, height) = none
  count_le : raw.decoded.transactions.length ≤ raw.decoded.header.transactionHashes.length
  base : getTransactionHash cr raw.decoded.header.baseTransaction = some (raw.baseHash cr)
  keys_eq : (blockEntries (Seria.rawBlockBytes raw) raw raw.decoded height
    (raw.baseHash cr)).map Prod.fst = blockKeys raw.decoded (raw.baseHash cr)
  keys : ∀ k ∈ blockKeys raw.decoded (raw.baseHash cr), T.transactions.get k = none
  keys_nodup : (blockKeys raw.decoded (raw.baseHash cr)).Nodup

end Tables

/-- The tables of a chain of blocks, oldest first, written from height zero. -/
def tablesOf (cr : Crypto) (chain : List (Hash × RawBlock)) : Tables :=
  chain.zipIdx.foldl (fun T (e, height) ↦ T.connect cr (UInt32.ofNat height) e.1 e.2) {}

theorem tablesOf_concat (chain : List (Hash × RawBlock)) (bid : Hash) (raw : RawBlock) :
    tablesOf cr (chain ++ [(bid, raw)]) =
      (tablesOf cr chain).connect cr (UInt32.ofNat chain.length) bid raw := by
  simp [tablesOf, List.zipIdx_append]

theorem tablesOf_ledger (chain : List (Hash × RawBlock)) :
    (tablesOf cr chain).ledger = ledgerOf (chain.map fun e ↦ e.2.decoded) := by
  induction chain using List.reverseRecOn with
  | nil => rfl
  | append_singleton chain e ih =>
    rw [tablesOf_concat, List.map_append, List.map_singleton, ledgerOf_concat, List.length_map,
      ← ih]
    rfl

/-- Chains whose blocks were all new when they were added, and meet `Q` with the ledger below. -/
inductive ValidChain (cr : Crypto) (Q : Ledger → Block → Prop) : List (Hash × RawBlock) → Prop where
  | nil : ValidChain cr Q []
  | concat {chain : List (Hash × RawBlock)} {bid : Hash} {raw : RawBlock} :
      ValidChain cr Q chain →
        (tablesOf cr chain).Admits cr (UInt32.ofNat chain.length) bid raw →
        Q (tablesOf cr chain).ledger raw.decoded → ValidChain cr Q (chain ++ [(bid, raw)])

theorem ValidChain.of_concat {Q : Ledger → Block → Prop} {chain : List (Hash × RawBlock)}
    {bid : Hash} {raw : RawBlock} (h : ValidChain cr Q (chain ++ [(bid, raw)])) :
    ValidChain cr Q chain ∧ (tablesOf cr chain).Admits cr (UInt32.ofNat chain.length) bid raw ∧
      Q (tablesOf cr chain).ledger raw.decoded := by
  generalize hall : chain ++ [(bid, raw)] = all at h
  cases h with
  | nil => simp at hall
  | concat hchain hadmits hQ =>
    obtain ⟨rfl, hlast⟩ := List.append_inj' hall rfl
    obtain ⟨rfl, rfl⟩ := Prod.mk.inj (List.singleton_inj.1 hlast)
    exact ⟨hchain, hadmits, hQ⟩

/-! ## The main chain of a state -/

namespace State

/-- The block of the main chain at a height, as stored. -/
def rawAt (s : State) (height : Height) : Option (Hash × RawBlock) := do
  let bid ← s.db.chain.get height
  match s.readBlock bid with
  | .ok (some (_, raw)) => some (bid, raw)
  | _ => none

/-- The main chain, oldest block first. -/
def mainRaw (s : State) : List (Hash × RawBlock) :=
  (List.range (s.tipHeight.toNat + 1)).filterMap fun height ↦ s.rawAt (UInt32.ofNat height)

/-- The decoded blocks of the main chain. -/
def mainBlocks (s : State) : List Block := s.mainRaw.map fun e ↦ e.2.decoded

/-- The tables of the main chain. -/
def mainTables (cr : Crypto) (s : State) : Tables := tablesOf cr s.mainRaw

theorem mainTables_ledger (s : State) : (s.mainTables cr).ledger = ledgerOf s.mainBlocks :=
  tablesOf_ledger s.mainRaw

variable {s s' : State}

theorem mainRaw_congr (hchain : s'.db.chain = s.db.chain) (hblocks : s'.db.blocks = s.db.blocks)
    (htip : s'.tipHeight = s.tipHeight) : s'.mainRaw = s.mainRaw := by
  simp only [mainRaw, rawAt, readBlock, hchain, hblocks, htip]

theorem rawAt_of_stores {pb : PreparedBlock} {info : Api.BlockHeader} (h : s.Stores cr c pb info)
    {height : Height} (hchain : s.db.chain.get height = some pb.bid) :
    s.rawAt height = some (pb.bid, pb.rawBlock) := by
  simp [rawAt, hchain, h.readBlock_eq]

theorem mainRaw_of_noChain (h : NoChain c s) : s.mainRaw = [] := by
  rw [mainRaw, List.filterMap_eq_nil_iff]
  intro height _
  simp [rawAt, h.chain]

theorem length_mainRaw (h : Linked cr c s) (hs : Started s) :
    s.mainRaw.length = s.tipHeight.toNat + 1 := by
  rw [mainRaw, List.filterMap_length_eq_length.2, List.length_range]
  intro height hmem
  rw [List.mem_range] at hmem
  have hlt := s.tipHeight.toNat_lt
  have hle : UInt32.ofNat height ≤ s.tipHeight := by
    rw [UInt32.le_iff_toNat_le, toNat_ofNat_of_lt (by omega)]
    omega
  have hmain := h.mainChain hs
  obtain ⟨bid, hbid⟩ := Option.ne_none_iff_exists'.1 (hmain.present _ hle)
  obtain ⟨info, hinfo, -⟩ := hmain.header _ _ hbid
  obtain ⟨pb, rfl, hstores⟩ := h.stored bid info hinfo
  rw [rawAt_of_stores hstores hbid]
  rfl

/-- A block pushed on the chain table is appended to the main chain. -/
theorem mainRaw_push (hlast : s.db.chain.get (s.tipHeight + 1) = none)
    (hcases : NoChain c s ∨ MainChain c s) {bid : Hash} {raw : RawBlock} {data : BinaryArray}
    (hread : s.readBlock bid = .ok (some (data, raw)))
    (hchain : s'.db.chain = s.db.chain.put (s.tipHeight + 1) bid)
    (hblocks : s'.db.blocks = s.db.blocks) (htip : s'.tipHeight = s.tipHeight + 1) :
    s'.mainRaw = s.mainRaw ++ [(bid, raw)] := by
  have hread' : ∀ bid, s'.readBlock bid = s.readBlock bid := fun bid ↦ by
    simp only [readBlock, hblocks]
  have hnew : s'.rawAt (s.tipHeight + 1) = some (bid, raw) := by
    simp [rawAt, hchain, hread', hread]
  rcases hcases with hn | hm
  · rw [mainRaw_of_noChain hn, mainRaw, htip, hn.tipHeight, List.nil_append]
    rw [hn.tipHeight] at hnew
    have hzero : s'.rawAt (UInt32.ofNat 0) = some (bid, raw) := hnew
    change [0].filterMap (fun height ↦ s'.rawAt (UInt32.ofNat height)) = _
    rw [List.filterMap_cons_some (f := fun height ↦ s'.rawAt (UInt32.ofNat height)) hzero]
    rfl
  · -- the height does not wrap, since genesis stands at zero
    have hlt : s.tipHeight.toNat + 1 < 2 ^ 32 := by
      by_contra hge
      have hmax := s.tipHeight.toNat_lt
      have hzero : s.tipHeight + 1 = 0 := by
        apply UInt32.toNat_inj.1
        rw [UInt32.toNat_add, show s.tipHeight.toNat = 2 ^ 32 - 1 by omega]
        rfl
      rw [hzero, hm.root] at hlast
      cases hlast
    have hnat : (s.tipHeight + 1).toNat = s.tipHeight.toNat + 1 := by
      rw [UInt32.toNat_add]
      exact Nat.mod_eq_of_lt hlt
    have hof : UInt32.ofNat (s.tipHeight.toNat + 1) = s.tipHeight + 1 := by
      rw [← hnat, UInt32.ofNat_toNat]
    rw [mainRaw, htip, hnat, List.range_succ, List.filterMap_append,
      List.filterMap_cons_some (f := fun height ↦ s'.rawAt (UInt32.ofNat height)) (b := (bid, raw))
        (by rw [hof]; exact hnew), List.filterMap_nil, mainRaw]
    congr 1
    apply List.filterMap_congr
    intro height hmem
    rw [List.mem_range] at hmem
    have hne : s.tipHeight + 1 ≠ UInt32.ofNat height := by
      intro heq
      have hnat' := congrArg UInt32.toNat heq
      rw [hnat, toNat_ofNat_of_lt (by omega)] at hnat'
      omega
    simp only [rawAt, hchain, hread', Store.get_put_of_ne _ _ hne]

/-! ## The tables follow the main chain -/

/-- The tables hold what `T` says, whatever the spent flags of the outputs are. -/
structure Holds (s : State) (T : Tables) : Prop where
  ledger : ∃ L, s.Represents L ∧ L.forgetSpent = T.ledger.forgetSpent
  globalIndices : s.db.globalIndices = T.globalIndices
  transactions : s.db.transactions = T.transactions
  timestamps : s.db.timestamps = T.timestamps

/-- The block that is redone and indexed is new to the tables and goes into them. -/
theorem Holds.redoBlockIndexed {T : Tables} (h : s.Holds T) {pb : PreparedBlock}
    {info : Api.BlockHeader} (hbuilt : pb.Built cr)
    (htimestamp : info.timestamp = pb.block.header.timestamp)
    (hok : s.redoBlockIndexed cr c pb.bid pb.blockData pb.rawBlock pb.block info
      pb.baseTransactionHash = .ok (some s')) :
    T.Admits cr info.height pb.bid pb.rawBlock ∧
      s'.Holds (T.connect cr info.height pb.bid pb.rawBlock) := by
  obtain ⟨s₁, hredo, hindex⟩ := redoBlockIndexed_eq hok
  obtain ⟨L, hrep, hforget⟩ := h.ledger
  obtain ⟨-, hfresh, hnodup, hrep₁, hnone, htable⟩ := hrep.redoBlock hredo
  obtain ⟨htransactions, htimestamps⟩ := redoBlock_indices hredo
  obtain ⟨hcount, hkeys, hts, hnew, hkeysNodup, rfl⟩ := indexBlock_eq hindex
  have hbase : getTransactionHash cr pb.rawBlock.decoded.header.baseTransaction =
      some (pb.rawBlock.baseHash cr) := by
    have hhash := hbuilt.getTransactionHash_eq
    rw [hbuilt.block_eq] at hhash
    rw [RawBlock.baseHash, hhash, Option.getD_some]
  have hhash : pb.baseTransactionHash = pb.rawBlock.baseHash cr := by
    have hhash := hbuilt.getTransactionHash_eq
    rw [hbuilt.block_eq, hbase] at hhash
    exact (Option.some.inj hhash).symm
  rw [hbuilt.block_eq] at htimestamp hfresh hnodup hrep₁ htable hcount hkeys hnew hkeysNodup
  rw [hhash, hbuilt.blockData_eq] at hkeys
  rw [hhash] at hnew hkeysNodup
  rw [htimestamp, htimestamps, h.timestamps] at hts
  rw [htransactions, h.transactions] at hnew
  have hkeyImages : T.ledger.keyImages = L.keyImages :=
    (congrArg Ledger.keyImages hforget).symm
  have hnext : s.nextGlobalIndexForAmount = T.ledger.next := by
    funext amount
    rw [hrep.next, Ledger.next, Ledger.length_of_forgetSpent hforget]
  refine ⟨⟨hkeyImages ▸ hfresh, hnodup, h.globalIndices ▸ hnone, hts, hcount, hbase, hkeys, hnew,
    hkeysNodup⟩, ⟨_, hrep₁.of_eq rfl rfl rfl, ?_⟩, ?_, ?_, ?_⟩
  · change _ = (T.ledger.connect info.height _).forgetSpent
    rw [Ledger.forgetSpent_connect, Ledger.forgetSpent_connect, hforget]
  · change s₁.db.globalIndices = _
    rw [htable, h.globalIndices, hnext]
    rfl
  · change s₁.db.transactions.putAll _ = _
    rw [htransactions, h.transactions, hbuilt.blockData_eq, hbuilt.block_eq, hhash]
    rfl
  · change s₁.db.timestamps.put _ () = _
    rw [htimestamps, h.timestamps, htimestamp]
    rfl

/-- Undoing the block that was added last gives the tables below it back. -/
theorem Holds.undoBlockIndexed {T : Tables} {height : Height} {bid : Hash} {raw : RawBlock}
    (hadmits : T.Admits cr height bid raw) (h : s.Holds (T.connect cr height bid raw))
    (hok : s.undoBlockIndexed cr bid raw.decoded height = .ok s') : s'.Holds T := by
  obtain ⟨s₁, hundo, hindex⟩ := bind_eq_ok_iff.1 hok
  obtain ⟨L, hrep, hforget⟩ := h.ledger
  obtain ⟨hrep₁, -, htable⟩ := hrep.undoBlock hundo
  obtain ⟨htransactions, htimestamps⟩ := undoBlock_indices hundo
  rw [unindexBlock_eq hadmits.base hindex]
  refine ⟨⟨_, hrep₁.of_eq rfl rfl rfl, ?_⟩, ?_, ?_, ?_⟩
  · exact Ledger.forgetSpent_foldr_undo hadmits.keyImages hadmits.keyImages_nodup hforget
  · change s₁.db.globalIndices = _
    rw [htable, h.globalIndices]
    exact Store.remove_put _ _ hadmits.globalIndices
  · change s₁.db.transactions.removeAll _ = _
    rw [htransactions, h.transactions, ← hadmits.keys_eq]
    exact Store.removeAll_putAll _ (by rw [hadmits.keys_eq]; exact hadmits.keys)
  · change s₁.db.timestamps.remove _ = _
    rw [htimestamps, h.timestamps]
    exact Store.remove_put _ _ hadmits.timestamps

end State

/-- The tables are those of the main chain, which is a valid one. -/
structure FollowsChain (cr : Crypto) (s : State) : Prop where
  holds : s.Holds (s.mainTables cr)
  valid : ValidChain cr (fun _ _ ↦ True) s.mainRaw

theorem FollowsChain.of_eq {s s' : State} (h : FollowsChain cr s)
    (hmain : s'.mainRaw = s.mainRaw) (hrepresents : ∀ L, s.Represents L → s'.Represents L)
    (hglobalIndices : s'.db.globalIndices = s.db.globalIndices)
    (htransactions : s'.db.transactions = s.db.transactions)
    (htimestamps : s'.db.timestamps = s.db.timestamps) : FollowsChain cr s' := by
  obtain ⟨L, hrep, hforget⟩ := h.holds.ledger
  refine ⟨?_, hmain ▸ h.valid⟩
  rw [State.mainTables, hmain]
  exact ⟨⟨L, hrepresents L hrep, hforget⟩, hglobalIndices.trans h.holds.globalIndices,
    htransactions.trans h.holds.transactions, htimestamps.trans h.holds.timestamps⟩

/-! ## Changes keep the tables with the main chain -/

section Changes

variable {s s' : State}

/-- A block that is connected stands at the height after the main chain. -/
theorem Linked.connect_height (h : Linked cr c s) {pb : PreparedBlock} {info : Api.BlockHeader}
    (hstores : s.Stores cr c pb info)
    (hprev : pb.bid ≠ c.genesisBlockHash ∧ pb.block.header.previousBlockHash = s.tipBid ∨
      pb.bid = c.genesisBlockHash ∧ s.db.chain.get 0 = none) :
    info.height = UInt32.ofNat s.mainRaw.length := by
  rcases hprev with ⟨hne, hprev⟩ | ⟨hgenesis, hroot⟩
  · have hs : Started s := by
      intro hnone
      exact hne ((h.noChain_of_get_zero hnone).headers _ (by rw [hstores.header]; simp))
    obtain ⟨prev, hget, hheight, -⟩ := h.parent pb.bid info hstores.header hne
    obtain ⟨tip, htip, htipHeight⟩ := (h.mainChain hs).tip_header
    rw [hstores.previousBlockHash_eq, hprev, htip, Option.some.injEq] at hget
    rw [hheight, ← hget, htipHeight, State.length_mainRaw h hs, UInt32.ofNat_add,
      UInt32.ofNat_toNat]
    rfl
  · rw [State.mainRaw_of_noChain (h.noChain_of_get_zero hroot),
      h.genesis info (hgenesis ▸ hstores.header)]
    rfl

/-- The chain grows by the block that is pushed. -/
theorem Linked.mainRaw_connect (h : Linked cr c s) {s₁ : State} {pb : PreparedBlock}
    {info : Api.BlockHeader} (hstores : s.Stores cr c pb info)
    (hredo : s.redoBlockIndexed cr c pb.bid pb.blockData pb.rawBlock pb.block info
      pb.baseTransactionHash = .ok (some s₁)) (hpush : s₁.pushChain c info = .ok s') :
    s'.mainRaw = s.mainRaw ++ [(pb.bid, pb.rawBlock)] := by
  obtain ⟨-, hblocks, hchain, -, htip, -⟩ :=
    State.links_eq_iff.1 (State.links_of_treePart (State.redoBlockIndexed_treePart hredo))
  obtain ⟨hnone, _, _, rfl⟩ := State.pushChain_eq hpush
  rw [hchain, htip] at hnone
  refine State.mainRaw_push hnone h.chain hstores.readBlock_eq ?_ hblocks (by rw [← htip])
  change s₁.db.chain.put (s₁.tipHeight + 1) info.hash = _
  rw [hchain, htip, hstores.hash_eq]

/-- The chain without the block that is undone. -/
theorem Linked.mainRaw_disconnect (h : Linked cr c s) {undone undone' : State.UndoneTransactions}
    (hundo : s.undoTip cr c undone = .ok (undone', s')) : ∃ raw s₁,
      s.mainRaw = s'.mainRaw ++ [(s.tipBid, raw)] ∧
      s.tipHeight = UInt32.ofNat s'.mainRaw.length ∧
      s.undoBlockIndexed cr s.tipBid raw.decoded s.tipHeight = .ok s₁ ∧
      s'.db.keyImages = s₁.db.keyImages ∧ s'.db.outputs = s₁.db.outputs ∧
      s'.nextGiForAmount = s₁.nextGiForAmount ∧ s'.db.globalIndices = s₁.db.globalIndices ∧
      s'.db.transactions = s₁.db.transactions ∧ s'.db.timestamps = s₁.db.timestamps := by
  have h' : Linked cr c s' :=
    linked_preserved (P := fun _ _ ↦ True) (Change.disconnect hundo) h
  obtain ⟨blockData, raw, block, s₁, s₂, hread, hdecoded, h₁, h₂, h₃⟩ := State.undoTip_eq hundo
  obtain ⟨-, hblocks, hchain, -, htip, -⟩ :=
    State.links_eq_iff.1 (State.links_of_treePart (State.undoBlockIndexed_treePart h₁))
  obtain ⟨-, _, _, -, -, rfl⟩ := State.tipChanged_eq h₃
  obtain ⟨hne, hbelow, _, -, rfl⟩ := State.popChain_eq h₂
  have hs' : Started { s₁ with db := { s₁.db with
      chain := s₁.db.chain.remove s₁.tipHeight } } := by
    intro hnone
    have hlinks : NoChain c _ := h'.noChain_of_get_zero hnone
    have hget := hlinks.chain (s₁.tipHeight - 1)
    change (s₁.db.chain.remove s₁.tipHeight).get (s₁.tipHeight - 1) = none at hget
    rw [hbelow] at hget
    cases hget
  have hs : Started s := by
    have hget : s.db.chain.get (s.tipHeight - 1) = some block.header.previousBlockHash := by
      rw [← hchain, ← htip, ← Store.get_remove_of_ne (k := s₁.tipHeight)]
      · exact hbelow
      · grind
    exact h.started_of_get hget
  have hblock : raw.decoded = block := by rw [RawBlock.decoded, hdecoded]
  have htipGet : s₁.db.chain.get s₁.tipHeight = some s.tipBid := by
    rw [hchain, htip]
    exact (h.mainChain hs).tip
  refine ⟨raw, s₁, ?_, ?_, hblock ▸ h₁, rfl, rfl, rfl, rfl, rfl, rfl⟩
  · refine @State.mainRaw_push c _ _ ?_ h'.chain _ _ blockData ?_ ?_ hblocks.symm ?_
    · change (s₁.db.chain.remove s₁.tipHeight).get (s₁.tipHeight - 1 + 1) = none
      rw [UInt32.sub_add_cancel, Store.get_remove_self]
    · simp only [State.readBlock, hblocks] at hread ⊢
      exact hread
    · change s.db.chain = (s₁.db.chain.remove s₁.tipHeight).put (s₁.tipHeight - 1 + 1) s.tipBid
      rw [UInt32.sub_add_cancel, Store.put_remove _ htipGet, hchain]
    · change s.tipHeight = s₁.tipHeight - 1 + 1
      rw [UInt32.sub_add_cancel, htip]
  · rw [State.length_mainRaw h' hs', UInt32.ofNat_add, UInt32.ofNat_toNat]
    change s.tipHeight = s₁.tipHeight - 1 + 1
    rw [UInt32.sub_add_cancel, htip]

end Changes

theorem State.Holds.of_eq {s s' : State} {T : Tables} (h : s.Holds T)
    (hkeyImages : s'.db.keyImages = s.db.keyImages) (houtputs : s'.db.outputs = s.db.outputs)
    (hcached : s'.nextGiForAmount = s.nextGiForAmount)
    (hglobalIndices : s'.db.globalIndices = s.db.globalIndices)
    (htransactions : s'.db.transactions = s.db.transactions)
    (htimestamps : s'.db.timestamps = s.db.timestamps) : s'.Holds T := by
  obtain ⟨L, hrep, hforget⟩ := h.ledger
  exact ⟨⟨L, hrep.of_eq hkeyImages houtputs hcached, hforget⟩,
    hglobalIndices.trans h.globalIndices, htransactions.trans h.transactions,
    htimestamps.trans h.timestamps⟩

/-- The cache of next indices may be lost. -/
theorem State.Represents.forgetCache {s s' : State} {L : Ledger} (h : s.Represents L)
    (hdb : s'.db = s.db) (hcache : s'.nextGiForAmount = ∅) : s'.Represents L where
  keyImages := hdb ▸ h.keyImages
  outputs := hdb ▸ h.outputs
  indexed := h.indexed
  cached := by
    intro amount index hget
    rw [hcache, Store.get_empty] at hget
    cases hget

/-- A block that is stored does not touch the main chain. -/
theorem Linked.mainRaw_storeBlock {s s' : State} (h : Linked cr c s) {pb : PreparedBlock}
    {info : Api.BlockHeader} (hok : s.storeBlock pb info = .ok s') : s'.mainRaw = s.mainRaw := by
  obtain ⟨hfresh, blocks, hnone, -, rfl⟩ := State.storeBlock_eq hok
  have hblock : s.db.blocks.get pb.bid = none := by
    by_contra hne
    exact h.blocks _ hne hfresh
  obtain rfl := hnone hblock
  refine List.filterMap_congr fun height _ ↦ ?_
  simp only [State.rawAt]
  cases hchain : s.db.chain.get (UInt32.ofNat height) with
  | none => rfl
  | some bid =>
    -- a block of the chain is stored already
    obtain ⟨info', hinfo', -⟩ := (h.mainChain (h.started_of_get hchain)).header _ _ hchain
    have hne : pb.bid ≠ bid := by
      rintro rfl
      rw [hfresh] at hinfo'
      cases hinfo'
    simp only [Option.bind_eq_bind, Option.bind_some, State.readBlock,
      Store.get_put_of_ne _ _ hne]

theorem followsChain_empty : FollowsChain cr {} := by
  have hmain : State.mainRaw {} = [] :=
    State.mainRaw_of_noChain (c := Currency.make cr false) ⟨by simp, rfl, rfl, by simp⟩
  refine ⟨?_, hmain ▸ .nil⟩
  rw [State.mainTables, hmain]
  refine ⟨⟨{}, ⟨by simp, by simp, ?_, by simp⟩, rfl⟩, rfl, rfl, rfl⟩
  intro amount
  exact Nat.zero_le _

/-- Every change keeps the tables those of the main chain. -/
theorem followsChain_preserved :
    Preserves (Change cr c P) fun s ↦ Linked cr c s ∧ FollowsChain cr s := by
  refine Preserves.and linked_preserved ?_
  intro s s' hchange h hf
  cases hchange with
  | addTransaction hok =>
    obtain ⟨pool, version, rfl⟩ := State.addTransaction_frame hok
    exact hf.of_eq rfl (fun _ hrep ↦ hrep.of_eq rfl rfl rfl) rfl rfl rfl
  | clearPool => exact hf.of_eq rfl (fun _ hrep ↦ hrep.of_eq rfl rfl rfl) rfl rfl rfl
  | poolVersion => exact hf.of_eq rfl (fun _ hrep ↦ hrep.of_eq rfl rfl rfl) rfl rfl rfl
  | cacheNextIndex amount =>
    exact hf.of_eq rfl (fun _ hrep ↦ hrep.cacheNextIndex amount) rfl rfl rfl
  | storeBlock _ _ _ _ hok =>
    have hmain := h.mainRaw_storeBlock hok
    obtain ⟨-, _, -, -, rfl⟩ := State.storeBlock_eq hok
    exact hf.of_eq hmain (fun _ hrep ↦ hrep.of_eq rfl rfl rfl) rfl rfl rfl
  | countChild => exact hf.of_eq rfl (fun _ hrep ↦ hrep.of_eq rfl rfl rfl) rfl rfl rfl
  | connect hstores hprev hredo hpush =>
    have hmain := h.mainRaw_connect hstores hredo hpush
    have hheight := h.connect_height hstores hprev
    obtain ⟨hadmits, hholds⟩ :=
      hf.holds.redoBlockIndexed hstores.built hstores.timestamp_eq hredo
    rw [hheight] at hadmits hholds
    obtain ⟨-, _, _, rfl⟩ := State.pushChain_eq hpush
    refine ⟨?_, ?_⟩
    · rw [State.mainTables, hmain, tablesOf_concat]
      exact hholds.of_eq rfl rfl rfl rfl rfl rfl
    · rw [hmain]
      exact hf.valid.concat hadmits trivial
  | disconnect hundo =>
    obtain ⟨raw, s₁, hmain, hheight, h₁, hk, ho, hn, hg, ht, hts⟩ := h.mainRaw_disconnect hundo
    have hvalid := hf.valid
    rw [hmain] at hvalid
    obtain ⟨hvalid, hadmits, -⟩ := hvalid.of_concat
    have hholds := hf.holds
    rw [State.mainTables, hmain, tablesOf_concat, ← hheight] at hholds
    rw [← hheight] at hadmits
    exact ⟨(hholds.undoBlockIndexed hadmits h₁).of_eq hk ho hn hg ht hts, hvalid⟩
  | @readTip s₁ _ hroot hread htip =>
    obtain ⟨hlinks, hdb⟩ := h.readTip (by rw [hroot]; simp) hread
    obtain ⟨-, hblocks, hchain, -, htipHeight, -⟩ := State.links_eq_iff.1 hlinks
    have hcache : s₁.nextGiForAmount = ∅ := by
      simp only [State.readTip, bind_eq_ok_iff, Prod.exists] at hread
      obtain ⟨_, _, -, _, -, hread⟩ := hread
      rw [← Except.ok.inj hread]
    obtain ⟨-, _, _, -, -, rfl⟩ := State.tipChanged_eq htip
    refine hf.of_eq (State.mainRaw_congr hchain hblocks htipHeight)
      (fun _ hrep ↦ hrep.forgetCache hdb hcache) ?_ ?_ ?_
    · exact congrArg Database.globalIndices hdb
    · exact congrArg Database.transactions hdb
    · exact congrArg Database.timestamps hdb
  | tipChanged htip =>
    obtain ⟨-, _, _, -, -, rfl⟩ := State.tipChanged_eq htip
    exact hf.of_eq rfl (fun _ hrep ↦ hrep.of_eq rfl rfl rfl) rfl rfl rfl

theorem Visited.followsChain {s : State} (h : Visited cr c s) : FollowsChain cr s :=
  (followsChain_preserved.star h ⟨linked_empty, followsChain_empty⟩).2

end Naza
