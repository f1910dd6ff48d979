import Naza.GlobalIndices
import Naza.Rings

/-!
# Conflicts inside a block

The ring checks of a block look at the state below it, and the redo of its transactions skips the
checks made there.  What two transactions of one block do to each other is left to the delta of the
block, which takes a repeated key image for a broken invariant.
-/

open Lib

namespace Naza

variable {cr : Crypto} {c : Currency}

/-! ## A block that is not on the main chain -/

/-- Recorded indices belong to the blocks of the chain. -/
theorem ValidChain.mem_of_globalIndices {Q : Ledger → Block → Prop}
    {chain : List (Hash × RawBlock)} (h : ValidChain cr Q chain) {bid : Hash}
    (hget : (tablesOf cr chain).globalIndices.get bid ≠ none) : bid ∈ chain.map Prod.fst := by
  induction h with
  | nil => simp [tablesOf] at hget
  | @concat chain bid' raw _ _ _ ih =>
    rw [List.map_append, List.mem_append]
    by_cases heq : bid' = bid
    · exact .inr (by simp [heq])
    · refine .inl (ih ?_)
      rw [tablesOf_concat] at hget
      simpa [Tables.connect, Store.get_put, heq] using hget

theorem State.mem_mainRaw {s : State} {bid : Hash} (h : bid ∈ s.mainRaw.map Prod.fst) :
    ∃ height, s.db.chain.get height = some bid := by
  obtain ⟨e, he, rfl⟩ := List.mem_map.1 h
  obtain ⟨height, -, hat⟩ := List.mem_filterMap.1 he
  unfold rawAt at hat
  obtain ⟨bid, hbid, hat⟩ := Option.bind_eq_some_iff.1 hat
  refine ⟨_, hbid.trans ?_⟩
  split at hat
  · rw [← Option.some.inj hat]
  · cases hat

/-- No indices are recorded yet for a block above the tip. -/
theorem State.Connects.globalIndices_new {s : State} {pb : PreparedBlock} {info : Api.BlockHeader}
    (h : s.Connects cr c pb info) (hvisited : Visited cr c s) (hs : Started s) :
    s.db.globalIndices.get pb.bid = none := by
  by_contra hsome
  have hfollows := hvisited.followsChain
  rw [hfollows.holds.globalIndices] at hsome
  obtain ⟨height, hchain⟩ := mem_mainRaw (hfollows.valid.mem_of_globalIndices hsome)
  have hmain := hvisited.linked.mainChain hs
  obtain ⟨info', hinfo', hheight', -⟩ := hmain.header height _ hchain
  obtain ⟨hheight, hne⟩ := h.height_eq hvisited.linked hs
  have hle := hmain.height_le height _ hchain
  rcases h.header with hnone | hsame
  · rw [hnone] at hinfo'
    cases hinfo'
  · rw [hsame, Option.some.injEq] at hinfo'
    rw [← hheight', ← hinfo', hheight, UInt32.le_iff_toNat_le] at hle
    rw [hheight] at hne
    have hwrap : (s.tipHeight + 1).toNat = (s.tipHeight.toNat + 1) % 2 ^ 32 := UInt32.toNat_add _ _
    have hlt := s.tipHeight.toNat_lt
    have hnat : (s.tipHeight + 1).toNat ≠ 0 := fun h ↦ hne (UInt32.toNat_inj.1 h)
    omega

/-! ## Redoing a block whose signatures are checked -/

/-- The key images of an accepted block that passed the ring checks are new. -/
theorem State.Connects.keyImages_new {s : State} {pb : PreparedBlock} {info : Api.BlockHeader}
    (h : s.Connects cr c pb info) {L : Ledger} (hrep : s.Represents L)
    {args : List RingSignatureArg} (hargs : startWorkGetError cr c s.reads info.height
      info.timestamp pb.block.transactions = .ok args) :
    ∀ ki ∈ keyImagesOf pb.block.allTransactions, L.keyImages ki = none := by
  obtain ⟨context, prev, m, -, haccepted, -⟩ := h.accepted_on_tip
  intro ki hki
  obtain ⟨tx, htx, hki⟩ := List.mem_flatMap.1 hki
  obtain ⟨input, hinput, rfl⟩ := List.mem_map.1 hki
  rcases List.mem_cons.1 htx with rfl | htx
  · rw [checkCoinbase_keyInputs haccepted.coinbase] at hinput
    cases hinput
  · rw [← hrep.keyImages]
    exact (startWorkGetError_rings hargs tx htx input hinput).1

/-- Every amount has indices left for the outputs of a block. -/
def State.HasRoom (s : State) (block : Block) : Prop :=
  ∀ amount, (chainOutputs s.mainBlocks amount).length +
    (pushesOf amount (pushesAll block.allTransactions)).length ≤ 2 ^ 32

/-- What `redo_block` should do: refuse the block, or carry out all of its changes. -/
def State.AppliesOrRefuses (cr : Crypto) (c : Currency) (s : State) (pb : PreparedBlock)
    (info : Api.BlockHeader) : Prop :=
  match s.redoBlock cr c pb.bid pb.block info with
  | .error _ => False
  | .ok none => True
  | .ok (some s') => ∀ L, s.Represents L →
    s'.Represents (L.connect info.height pb.block.allTransactions) ∧
    s'.db.globalIndices = s.db.globalIndices.put pb.bid
      (globalIndicesOf L.next pb.block.allTransactions)

/-- A result of `redo_block` is always a good one; only faults stand in the way. -/
theorem State.appliesOrRefuses_iff_returns {s : State} {pb : PreparedBlock}
    {info : Api.BlockHeader} : s.AppliesOrRefuses cr c pb info ↔
      ∃ result, s.redoBlock cr c pb.bid pb.block info = .ok result := by
  unfold AppliesOrRefuses
  constructor
  · intro h
    split at h
    · exact h.elim
    · next hok => exact ⟨_, hok⟩
    · next hok => exact ⟨_, hok⟩
  · rintro ⟨result, hok⟩
    rw [hok]
    cases result with
    | none => trivial
    | some s' =>
      intro L hrep
      obtain ⟨-, -, -, hrep', -, htable⟩ := hrep.redoBlock hok
      have hnext : s.nextGlobalIndexForAmount = L.next := funext hrep.next
      exact ⟨hrep', hnext ▸ htable⟩

/-- A block whose signatures are checked is refused or applied exactly when the ring checks refuse
it, or it repeats no key image and, its signatures being valid, no amount runs out of indices. -/
theorem State.Connects.appliesOrRefuses_iff {s : State} {pb : PreparedBlock}
    {info : Api.BlockHeader} (h : s.Connects cr c pb info) (hvisited : Visited cr c s)
    (hs : Started s) (hsigs : checkSigs c info.height = true) :
    s.AppliesOrRefuses cr c pb info ↔
      ∀ args, startWorkGetError cr c s.reads info.height info.timestamp pb.block.transactions =
        .ok args → (keyImagesOf pb.block.allTransactions).Nodup ∧
          (signaturesValid cr args = true → s.HasRoom pb.block) := by
  obtain ⟨L, hrep, -⟩ := hvisited.followsChain.holds.ledger
  have hlength : ∀ amount, (chainOutputs s.mainBlocks amount).length =
      (L.outputs amount).length := fun amount ↦ by
    rw [← hvisited.outputs_placed hrep, List.length_map]
  have hwork : s.ringWork cr c pb.block info =
      startWorkGetError cr c s.reads info.height info.timestamp pb.block.transactions := by
    rw [ringWork, if_pos hsigs]
  rw [appliesOrRefuses_iff_returns]
  cases hargs : startWorkGetError cr c s.reads info.height info.timestamp
      pb.block.transactions with
  | error e =>
    refine iff_of_true ⟨none, ?_⟩ (by simp)
    rw [redoBlock, hwork, hargs]
  | ok args =>
    simp only [Except.ok.injEq, forall_eq']
    by_cases hnodup : (keyImagesOf pb.block.allTransactions).Nodup
    · obtain ⟨delta, indices, hredo⟩ := @redoTransactions_of cr c s.reads _ _ _ _
        (DeltaState.holds_empty info.height info.timestamp) pb.block.allTransactions
        (by simpa using hnodup)
      obtain ⟨hholds, -, -⟩ := redoTransactions_accept (DeltaState.holds_empty _ _) hredo
      rw [List.nil_append, List.nil_append, List.nil_append] at hholds
      rw [and_iff_right hnodup, redoBlock, hwork, hargs]
      dsimp only
      rw [← Block.allTransactions, hredo]
      dsimp only
      by_cases hvalid : signaturesValid cr args = true
      · rw [if_pos hvalid, forall_prop_of_true hvalid]
        constructor
        · rintro ⟨result, hok⟩ amount
          obtain ⟨s₁, h₁, -⟩ := bind_eq_ok_iff.1 hok
          obtain ⟨-, hrep₁⟩ := hrep.apply hholds h₁
          have hindexed : ((L.connect delta.blockHeight pb.block.allTransactions).outputs
            amount).length ≤ 2 ^ 32 := hrep₁.indexed amount
          rwa [Ledger.length_connect, ← hlength] at hindexed
        · intro hroom
          obtain ⟨s₁, h₁⟩ := hrep.apply_of hvisited.pool_consistent hholds
            (h.keyImages_new hrep hargs) fun amount ↦ hlength amount ▸ hroom amount
          have htable : s₁.db.globalIndices = s.db.globalIndices := apply_globalIndices h₁
          have hput := Store.putNew_of_none indices (htable ▸ h.globalIndices_new hvisited hs :
            s₁.db.globalIndices.get pb.bid = none)
          have hwrite : dbWrite (s₁.db.globalIndices.putNew pb.bid indices) =
              .ok (s₁.db.globalIndices.put pb.bid indices) := by
            rw [hput]
            rfl
          exact ⟨_, bind_eq_ok_iff.2 ⟨s₁, h₁, bind_eq_ok_iff.2 ⟨_, hwrite, rfl⟩⟩⟩
      · rw [if_neg hvalid]
        exact iff_of_true ⟨none, rfl⟩ fun h ↦ absurd h hvalid
    · refine iff_of_false ?_ fun h ↦ hnodup h.1
      rintro ⟨result, hok⟩
      rw [redoBlock, hwork, hargs] at hok
      dsimp only at hok
      rw [← Block.allTransactions, redoTransactions_of_not_nodup (DeltaState.holds_empty _ _) _
        (by simpa using hnodup)] at hok
      cases hok

/-! ## Two spends of one key image -/

/-- The rewards of the first blocks of the test network. -/
def fillerRewards : List Amount :=
  [281470681743360, 281466386841600, 281462092005375, 281457797234684, 281453502529526,
    281449207889900, 281444913315805, 281440618807240]

/-- A block without transactions. -/
def fillerBlock (prev : Hash) (height : Height) (reward : Amount) : BlockTemplate :=
  (sampleTemplate 2 prev 0 (sampleCoinbase height reward [height.toUInt8, 7]) []).merged

/-- One block for each reward, upon the genesis block of the test network. -/
def fillerBlocks : List BlockTemplate :=
  (fillerRewards.foldl (fun (acc : Hash × List BlockTemplate) reward ↦
    let block := fillerBlock acc.1 (UInt32.ofNat (acc.2.length + 1)) reward
    (block.sampleHash, acc.2 ++ [block])) (testnet.genesisBlockHash, [])).2

def fillerEvents : List Event :=
  fillerBlocks.map fun block ↦ .offer 1000 (block.rawBlock [])

/-- It spends the output of the genesis block, which is unlocked at height 9. -/
def genesisSpend (tag : Pod32) : Transaction :=
  sampleTransaction [{ amount := 281474976710655, outputIndexes := [0], keyImage := 7 }]
    [281474976710654] [] tag

/-- A block at height 9 with two spends of that output. -/
def doubleSpendBlock : BlockTemplate :=
  (sampleTemplate 2 ((fillerBlocks.getLast?.map BlockTemplate.sampleHash).getD 0) 0
    (sampleCoinbase 9 (281436324364204 + 2) [9, 7]) [genesisSpend 1, genesisSpend 2]).merged

theorem runFromStart_fillerEvents : returns (runFromStart sampleCrypto testnet fillerEvents)
    (fun s ↦ returns (PreparedBlock.ofRawBlock sampleCrypto
        (doubleSpendBlock.rawBlock [genesisSpend 1, genesisSpend 2]) false)
      fun pb ↦
        match s.prevInfo testnet pb with
        | none => false
        | some prev =>
          match s.checkStandaloneConsensus sampleCrypto testnet 1000 pb (blockInfo pb prev) prev
            true with
          | .accept info => decide (pb.block.header.previousBlockHash = s.tipBid ∧
              s.db.headers.get pb.bid = none ∧
              State.checkSigs testnet info.height = true) &&
            !returns (s.redoBlock sampleCrypto testnet pb.bid pb.block info) fun _ ↦ true
          | _ => false) = true := by
  decide +kernel

/-- The block passes its check, and redoing it breaks an invariant. -/
theorem doubleSpendBlock_faults : ∃ (s : State) (pb : PreparedBlock) (info : Api.BlockHeader),
    Reachable sampleCrypto testnet s ∧ s.Connects sampleCrypto testnet pb info ∧
    State.checkSigs testnet info.height = true ∧
    ∀ result, s.redoBlock sampleCrypto testnet pb.bid pb.block info ≠ .ok result := by
  obtain ⟨s, hrun, htest⟩ := returns_iff.1 runFromStart_fillerEvents
  obtain ⟨pb, hprep, htest⟩ := returns_iff.1 htest
  have hreach := reachable_of_runFromStart hrun
  split at htest
  · cases htest
  · next prev hprevInfo =>
    split at htest
    · next info hcheck =>
      simp only [Bool.and_eq_true, decide_eq_true_eq, Bool.not_eq_true'] at htest
      obtain ⟨⟨hprev, hfresh, hsigs⟩, hfault⟩ := htest
      have haccepts : s.Accepts sampleCrypto testnet 1000 pb prev info :=
        ⟨hfresh, hprevInfo, hcheck⟩
      have hbuilt := (PreparedBlock.built_of_ofRawBlock (by decide +kernel) hprep).1
      refine ⟨s, pb, info, hreach, haccepts.connects hreach.linked hreach.started hbuilt hprev,
        hsigs, fun result hok ↦ ?_⟩
      rw [hok] at hfault
      cases hfault
    · cases htest

/-- A block with two spends of one key image ends the process. -/
theorem State.redoBlock_doubleSpend : ∃ (s : State) (pb : PreparedBlock) (info : Api.BlockHeader),
    Reachable sampleCrypto testnet s ∧ s.Connects sampleCrypto testnet pb info ∧
    checkSigs testnet info.height = true ∧ ¬ s.AppliesOrRefuses sampleCrypto testnet pb info := by
  obtain ⟨s, pb, info, hreach, hconnects, hsigs, hfault⟩ := doubleSpendBlock_faults
  refine ⟨s, pb, info, hreach, hconnects, hsigs, fun happlies ↦ ?_⟩
  obtain ⟨result, hok⟩ := appliesOrRefuses_iff_returns.1 happlies
  exact hfault result hok

theorem State.Connects.appliesOrRefuses_iff_doubleSpend :
    ∃ (s : State) (pb : PreparedBlock) (info : Api.BlockHeader) (args : List RingSignatureArg),
      s.Connects sampleCrypto testnet pb info ∧
      startWorkGetError sampleCrypto testnet s.reads info.height info.timestamp
        pb.block.transactions = .ok args ∧
      ¬ ((keyImagesOf pb.block.allTransactions).Nodup ∧
        (signaturesValid sampleCrypto args = true → s.HasRoom pb.block)) := by
  obtain ⟨s, pb, info, hreach, hconnects, hsigs, hfault⟩ := doubleSpendBlock_faults
  have hiff := hconnects.appliesOrRefuses_iff hreach.visited hreach.started hsigs
  have hnot : ¬ s.AppliesOrRefuses sampleCrypto testnet pb info := fun happlies ↦ by
    obtain ⟨result, hok⟩ := appliesOrRefuses_iff_returns.1 happlies
    exact hfault result hok
  simp only [hiff, not_forall] at hnot
  obtain ⟨args, hargs, hnot⟩ := hnot
  exact ⟨s, pb, info, args, hconnects, hargs, hnot⟩

end Naza
