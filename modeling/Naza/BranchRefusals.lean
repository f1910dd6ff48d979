import Naza.BlockConflicts

/-!
# Blocks that a chain refuses

`redo_block` answers `false` where the ring checks refuse a block over the chain below it.  The
checks read key images and outputs, which the blocks of that chain determine; so a branch is redone
up to the first of its blocks that the chain below refuses.
-/

open Lib Relation

namespace Naza

variable {cr : Crypto} {c : Currency}

/-- What is read from a ledger. -/
def Ledger.reads (L : Ledger) : StateReads where
  readKeyimage := L.keyImages
  nextGlobalIndexForAmount := L.next
  readAmountOutput amount index := (L.outputs amount)[index.toNat]?

section Definitions

variable (cr : Crypto) (c : Currency)

/-- A chain refuses a block on top of it: signatures are checked at its height, and a ring is
refused over the ledger of the chain or a signature is invalid. -/
def Refuses (below : List Block) (block : Block) : Prop :=
  State.checkSigs c (UInt32.ofNat below.length) = true ∧
    ∀ args, startWorkGetError cr c (ledgerOf below).reads (UInt32.ofNat below.length)
      block.header.timestamp block.transactions = .ok args → signaturesValid cr args = false

/-- A block of a branch that cannot be redone on the chain below it: it is refused, or it has to be
read back and does not decode.  The block `recentBid` is not read back. -/
def RefusedAt (recentBid : Hash) (below : List Block) (branch : List (Hash × RawBlock)) (i : ℕ) :
    Prop :=
  ∃ e, branch[i]? = some e ∧
    (e.1 ≠ recentBid ∧ (Block.fromRawBlock e.2).2 = false ∨
      Refuses cr c (below ++ (branch.take i).map fun e ↦ e.2.decoded) e.2.decoded)

end Definitions

/-! ## Reads without the spent flags -/

section Reads

variable {reads reads' : StateReads}
  (hkeyImages : ∀ ki, reads.readKeyimage ki = reads'.readKeyimage ki)
  (houtputs : ∀ amount index,
    (reads.readAmountOutput amount index).map (fun unp ↦ { unp with spent := false }) =
      (reads'.readAmountOutput amount index).map fun unp ↦ { unp with spent := false })

include houtputs in
theorem readRing_congr (unlockHeight : Height) (unlockTimestamp : Timestamp) (amount : Amount)
    (indexes : List UInt32) :
    (∃ error unps unps', readRing c reads unlockHeight unlockTimestamp amount indexes =
        .error (error, unps) ∧ readRing c reads' unlockHeight unlockTimestamp amount indexes =
          .error (error, unps')) ∨
      ∃ unps unps', readRing c reads unlockHeight unlockTimestamp amount indexes = .ok unps ∧
        readRing c reads' unlockHeight unlockTimestamp amount indexes = .ok unps' ∧
        unps.map UnlockTimePublickKeyHeightSpent.publicKey =
          unps'.map UnlockTimePublickKeyHeightSpent.publicKey := by
  induction indexes with
  | nil => exact .inr ⟨[], [], rfl, rfl, rfl⟩
  | cons index indexes ih =>
    have hread := houtputs amount index
    rw [readRing, readRing]
    cases hunp : reads.readAmountOutput amount index with
    | none =>
      rw [hunp] at hread
      rw [Option.map_eq_none_iff.1 hread.symm]
      exact .inl ⟨_, _, _, rfl, rfl⟩
    | some unp =>
      rw [hunp, Option.map_some] at hread
      obtain ⟨unp', hunp', hsame⟩ := Option.map_eq_some_iff.1 hread.symm
      obtain ⟨hunlock, hkey, -⟩ := UnlockTimePublickKeyHeightSpent.mk.inj hsame
      rw [hunp']
      dsimp only
      rw [hunlock]
      split
      · rcases ih with ⟨error, unps, unps', hok, hok'⟩ | ⟨unps, unps', hok, hok', hkeys⟩
        · rw [hok, hok']
          exact .inl ⟨_, _, _, rfl, rfl⟩
        · rw [hok, hok']
          exact .inr ⟨_, _, rfl, rfl, by rw [List.map_cons, List.map_cons, hkey, hkeys]⟩
      · exact .inl ⟨_, _, _, rfl, rfl⟩

include hkeyImages houtputs

theorem startInput_congr (unlockHeight : Height) (unlockTimestamp : Timestamp)
    (txPrefixHash : Hash) (input : KeyInput) (signatures : List Signature) :
    startInput c reads unlockHeight unlockTimestamp txPrefixHash input signatures =
      startInput c reads' unlockHeight unlockTimestamp txPrefixHash input signatures := by
  rw [startInput, startInput, hkeyImages]
  rcases @readRing_congr c _ _ houtputs unlockHeight unlockTimestamp input.amount
    (globalIndexes input.outputIndexes) with
    ⟨error, unps, unps', hok, hok'⟩ | ⟨unps, unps', hok, hok', hkeys⟩
  · rw [hok, hok']
  · simp only [hok, hok', hkeys]

theorem startInputs_congr (unlockHeight : Height) (unlockTimestamp : Timestamp)
    (txPrefixHash : Hash) (inputs : List TransactionInput) (signatures : List (List Signature)) :
    startInputs c reads unlockHeight unlockTimestamp txPrefixHash inputs signatures =
      startInputs c reads' unlockHeight unlockTimestamp txPrefixHash inputs signatures := by
  induction inputs generalizing signatures with
  | nil => rfl
  | cons input inputs ih =>
    cases input with
    | coinbaseInput => exact ih _
    | keyInput input =>
      rw [startInputs, startInputs, ih, startInput_congr hkeyImages houtputs]

/-- The ring checks of a block do not look at spent flags. -/
theorem startWorkGetError_congr (unlockHeight : Height) (unlockTimestamp : Timestamp)
    (txs : List Transaction) :
    startWorkGetError cr c reads unlockHeight unlockTimestamp txs =
      startWorkGetError cr c reads' unlockHeight unlockTimestamp txs := by
  induction txs with
  | nil => rfl
  | cons tx txs ih =>
    rw [startWorkGetError, startWorkGetError, ih, startInputs_congr hkeyImages houtputs]

end Reads

/-- The ring checks over a state are those over the ledger of its main chain. -/
theorem FollowsChain.startWorkGetError_eq {s : State} (h : FollowsChain cr s)
    (unlockHeight : Height) (unlockTimestamp : Timestamp) (txs : List Transaction) :
    startWorkGetError cr c s.reads unlockHeight unlockTimestamp txs =
      startWorkGetError cr c (ledgerOf s.mainBlocks).reads unlockHeight unlockTimestamp txs := by
  obtain ⟨L, hrep, hforget⟩ := h.holds.ledger
  rw [s.mainTables_ledger] at hforget
  refine startWorkGetError_congr (fun ki ↦ ?_) (fun amount index ↦ ?_) _ _ _
  · exact (hrep.keyImages ki).trans (congrFun (congrArg Ledger.keyImages hforget) ki)
  · have houtputs := congrArg (fun L : Ledger ↦ (L.outputs amount)[index.toNat]?) hforget
    simp only [Ledger.forgetSpent, List.getElem?_map] at houtputs
    change (s.db.outputs.get (amount, index)).map _ = _
    rw [hrep.outputs]
    exact houtputs

/-! ## Redoing a block -/

/-- `redo_block` answers `false` exactly where the main chain refuses the block. -/
theorem FollowsChain.redoBlock_eq_none_iff {s : State} (h : FollowsChain cr s) {bhash : Hash}
    {block : Block} {info : Api.BlockHeader}
    (hheight : info.height = UInt32.ofNat s.mainBlocks.length)
    (htimestamp : info.timestamp = block.header.timestamp) {r : Option State}
    (hok : s.redoBlock cr c bhash block info = .ok r) :
    r = none ↔ Refuses cr c s.mainBlocks block := by
  have hwork : s.ringWork cr c block info = if State.checkSigs c info.height then
      startWorkGetError cr c (ledgerOf s.mainBlocks).reads info.height info.timestamp
        block.transactions else .ok [] := by
    rw [State.ringWork, h.startWorkGetError_eq]
  rw [Refuses, ← hheight, ← htimestamp]
  rw [State.redoBlock] at hok
  split at hok
  · next e herror =>
    obtain rfl := Except.ok.inj hok
    rw [hwork] at herror
    split at herror
    · next hsigs =>
      refine iff_of_true rfl ⟨hsigs, fun args hargs ↦ ?_⟩
      rw [herror] at hargs
      cases hargs
    · cases herror
  · next args hargs =>
    -- without checks there is no signature to be invalid
    have hrefuses : (State.checkSigs c info.height = true ∧ ∀ args',
        startWorkGetError cr c (ledgerOf s.mainBlocks).reads info.height info.timestamp
          block.transactions = .ok args' → signaturesValid cr args' = false) ↔
        signaturesValid cr args = false := by
      rw [hwork] at hargs
      split at hargs
      · next hsigs =>
        rw [hargs]
        simp [hsigs]
      · next hsigs =>
        obtain rfl := Except.ok.inj hargs
        exact iff_of_false (fun h ↦ hsigs h.1) (by simp [signaturesValid])
    rw [hrefuses]
    split at hok
    · cases hok
    · next hreject =>
      by_cases hnodup : ([] ++ keyImagesOf block.allTransactions : List KeyImage).Nodup
      · obtain ⟨delta, indices, hredo⟩ := @redoTransactions_of cr c s.reads _ _ _ _
          (DeltaState.holds_empty info.height info.timestamp) block.allTransactions hnodup
        rw [Block.allTransactions, hreject] at hredo
        cases hredo
      · have hfault := @redoTransactions_of_not_nodup cr c s.reads _ _ _ _
          (DeltaState.holds_empty info.height info.timestamp) block.allTransactions hnodup
        rw [Block.allTransactions, hreject] at hfault
        cases hfault
    · split at hok
      · next hvalid =>
        simp only [bind_eq_ok_iff] at hok
        obtain ⟨_, -, _, -, hok⟩ := hok
        obtain rfl := Except.ok.inj hok
        exact iff_of_false (by simp) (by simp [hvalid])
      · next hvalid =>
        obtain rfl := Except.ok.inj hok
        exact iff_of_true rfl (by simpa using hvalid)

theorem State.redoBlockIndexed_eq_none_iff {s : State} {bhash : Hash} {blockData : BinaryArray}
    {raw : RawBlock} {block : Block} {info : Api.BlockHeader} {baseTransactionHash : Hash}
    {r : Option State}
    (hok : s.redoBlockIndexed cr c bhash blockData raw block info baseTransactionHash = .ok r) :
    ∃ r', s.redoBlock cr c bhash block info = .ok r' ∧ (r = none ↔ r' = none) := by
  obtain ⟨r', hredo, hok⟩ := bind_eq_ok_iff.1 hok
  refine ⟨r', hredo, ?_⟩
  cases r' with
  | none =>
    obtain rfl := Except.ok.inj hok
    exact Iff.rfl
  | some s₁ =>
    obtain ⟨s₂, -, hok⟩ := bind_eq_ok_iff.1 hok
    obtain rfl := Except.ok.inj hok
    simp

section Branch

variable {s t : State} {recentPb : PreparedBlock} {recentInfo : Api.BlockHeader}
  {undone undone' : State.UndoneTransactions}

/-- A stored block on top of the tip is redone unless the main chain refuses it. -/
theorem State.Stores.redoBlockIndexed_eq_none_iff {pb : PreparedBlock} {info : Api.BlockHeader}
    (hstores : s.Stores cr c pb info) (hvisited : Visited cr c s)
    (hne : pb.bid ≠ c.genesisBlockHash)
    (hprev : pb.block.header.previousBlockHash = s.tipBid) {r : Option State}
    (hok : s.redoBlockIndexed cr c pb.bid pb.blockData pb.rawBlock pb.block info
      pb.baseTransactionHash = .ok r) :
    r = none ↔ Refuses cr c s.mainBlocks pb.rawBlock.decoded := by
  obtain ⟨r', hredo, hnone⟩ := State.redoBlockIndexed_eq_none_iff hok
  have hheight := hvisited.linked.connect_height hstores (.inl ⟨hne, hprev⟩)
  rw [hstores.built.block_eq] at hredo
  refine hnone.trans (hvisited.followsChain.redoBlock_eq_none_iff ?_ ?_ hredo)
  · rw [hheight, mainBlocks, List.length_map]
  · rw [hstores.timestamp_eq, hstores.built.block_eq]

/-- One round of the redo loop stops exactly at a block that cannot be redone. -/
theorem State.redoOne_eq_none_iff (hvisited : Visited cr c s)
    (hrecent : s.Stores cr c recentPb recentInfo) {e : Hash × RawBlock}
    (hstored : ∃ pb info, (pb.bid, pb.rawBlock) = e ∧ s.Stores cr c pb info)
    (hne : e.1 ≠ c.genesisBlockHash) {branch : List (Hash × RawBlock)}
    {r : Option (UndoneTransactions × State)}
    (hok : s.redoOne cr c recentPb recentInfo e.1 undone = .ok r) :
    r = none ↔ RefusedAt cr c recentPb.bid s.mainBlocks (e :: branch) 0 := by
  obtain ⟨pb, info, rfl, hstores⟩ := hstored
  simp only [RefusedAt, List.getElem?_cons_zero, Option.some.injEq, exists_eq_left', List.take_zero,
    List.map_nil, List.append_nil]
  unfold redoOne at hok
  split at hok
  · next hbid =>
    have hraw : pb.rawBlock = recentPb.rawBlock := by
      have hread := hrecent.readBlock_eq
      rw [← hbid, hstores.readBlock_eq, Except.ok.injEq, Option.some.injEq, Prod.mk.injEq] at hread
      exact hread.2
    simp only [bind_eq_ok_iff, invariant_eq_ok_iff] at hok
    obtain ⟨⟨⟩, hprev, r', hredo, hok⟩ := hok
    have hiff := hrecent.redoBlockIndexed_eq_none_iff hvisited (hbid ▸ hne) hprev hredo
    rw [hraw, ← hiff, or_iff_right fun h ↦ h.1 hbid]
    cases r' with
    | none =>
      obtain rfl := Except.ok.inj hok
      simp
    | some s₁ =>
      obtain ⟨s₂, -, hok⟩ := bind_eq_ok_iff.1 hok
      obtain rfl := Except.ok.inj hok
      simp
  · next hbid =>
    simp only [hstores.readBlock_eq, bind_eq_ok_iff, Except.ok.injEq, exists_eq_left'] at hok
    split at hok
    · next hverdict =>
      obtain rfl := Except.ok.inj hok
      exact iff_of_true rfl (.inl ⟨hbid, hverdict⟩)
    · next hverdict =>
      simp only [bind_eq_ok_iff, invariant_eq_ok_iff, readHeader, expect_eq_ok_iff,
        orThrow_eq_ok_iff, hstores.header, Option.some.injEq, exists_eq_left'] at hok
      obtain ⟨⟨⟩, hprev, hash, hhash, r', hredo, hok⟩ := hok
      rw [← hstores.built.block_eq] at hprev hhash hredo
      rw [hstores.built.getTransactionHash_eq, Option.some.injEq] at hhash
      subst hhash
      have hiff := hstores.redoBlockIndexed_eq_none_iff hvisited hne hprev hredo
      rw [← hiff, or_iff_right fun h ↦ hverdict h.2]
      cases r' with
      | none =>
        obtain rfl := Except.ok.inj hok
        simp
      | some s₁ =>
        obtain ⟨s₂, -, hok⟩ := bind_eq_ok_iff.1 hok
        obtain rfl := Except.ok.inj hok
        simp

/-- On the chain that has grown by the first block, the other blocks stand as they did. -/
theorem refusedAt_cons_iff {recentBid : Hash} {below : List Block} {e : Hash × RawBlock}
    {branch : List (Hash × RawBlock)} {i : ℕ} :
    RefusedAt cr c recentBid below (e :: branch) (i + 1) ↔
      RefusedAt cr c recentBid (below ++ [e.2.decoded]) branch i := by
  simp [RefusedAt]

/-- The redo loop: the branch is redone up to the first block that cannot be. -/
theorem State.redoBranch_spec (hvisited : Visited cr c s)
    (hrecent : s.Stores cr c recentPb recentInfo) {branch : List (Hash × RawBlock)}
    (hstored : ∀ e ∈ branch, ∃ pb info, (pb.bid, pb.rawBlock) = e ∧ s.Stores cr c pb info)
    (hne : ∀ e ∈ branch, e.1 ≠ c.genesisBlockHash) {result : Bool}
    (hok : s.redoBranch cr c recentPb recentInfo (branch.map Prod.fst) undone =
      .ok (undone', t, result)) :
    ∃ i ≤ branch.length, (s.tipBid :: branch.map Prod.fst)[i]? = some t.tipBid ∧
      (∀ j < i, ¬ RefusedAt cr c recentPb.bid s.mainBlocks branch j) ∧
      (i < branch.length → RefusedAt cr c recentPb.bid s.mainBlocks branch i) := by
  induction branch generalizing s undone with
  | nil =>
    have hok := Prod.mk.inj (Prod.mk.inj (Except.ok.inj hok)).2
    exact ⟨0, le_rfl, by simp [hok.1], by simp, by simp⟩
  | cons e branch ih =>
    obtain ⟨r, hone, hok⟩ := bind_eq_ok_iff.1 hok
    have hfirst : r = none ↔ RefusedAt cr c recentPb.bid s.mainBlocks (e :: branch) 0 :=
      redoOne_eq_none_iff hvisited hrecent (hstored e List.mem_cons_self)
        (hne e List.mem_cons_self) hone
    cases r with
    | none =>
      have hok := Prod.mk.inj (Prod.mk.inj (Except.ok.inj hok)).2
      exact ⟨0, by simp, by simp [hok.1], by simp, fun _ ↦ hfirst.1 rfl⟩
    | some r =>
      obtain ⟨undone₁, s₁⟩ := r
      have hchange : Change cr c (fun _ _ ↦ True) s s₁ :=
        redoOne_change hvisited.linked hrecent (hne e List.mem_cons_self) hone
      obtain ⟨pb, info, s₂, hbid, hstores, -, hredo, hpush⟩ :=
        redoOne_connects hvisited.linked hrecent hone
      have hmain := hvisited.linked.mainRaw_connect hstores hredo hpush
      have hblock : pb.rawBlock = e.2 := by
        obtain ⟨pb', info', rfl, hstores'⟩ := hstored e List.mem_cons_self
        have hread := hstores.readBlock_eq
        rw [hbid, hstores'.readBlock_eq, Except.ok.injEq, Option.some.injEq, Prod.mk.injEq] at hread
        exact hread.2.symm
      have hblocks : s₁.mainBlocks = s.mainBlocks ++ [e.2.decoded] := by
        rw [mainBlocks, hmain, List.map_append, List.map_singleton, hblock, mainBlocks]
      have htip : s₁.tipBid = e.1 := by
        obtain ⟨-, _, _, rfl⟩ := pushChain_eq hpush
        exact hstores.hash_eq.trans hbid
      obtain ⟨i, hi, htop, hnone, hlast⟩ := ih (hvisited.tail hchange) (hrecent.change hchange)
        (fun e hmem ↦ by
          obtain ⟨pb, info, heq, hstores⟩ := hstored e (List.mem_cons_of_mem _ hmem)
          exact ⟨pb, info, heq, hstores.change hchange⟩)
        (fun e hmem ↦ hne e (List.mem_cons_of_mem _ hmem)) hok
      rw [hblocks] at hnone hlast
      rw [htip] at htop
      refine ⟨i + 1, by simpa using hi, by simpa using htop, fun j hj ↦ ?_, fun hlt ↦ ?_⟩
      · cases j with
        | zero => exact fun h ↦ by simpa using hfirst.2 h
        | succ j => exact fun h ↦ hnone j (by omega) (refusedAt_cons_iff.1 h)
      · exact refusedAt_cons_iff.2 (hlast (by simpa using hlt))

end Branch

end Naza
