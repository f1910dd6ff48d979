import Naza.ChainTables

/-!
# Global output indices

The outputs of each amount are numbered along the main chain, by height, transaction and output.
`redo_block` records these numbers while it stacks deltas, and `push_amount_output` stores the
outputs under them.
-/

open Lib

namespace Naza

variable {cr : Crypto} {c : Currency}

/-! ## Outputs along the chain -/

/-- What is stored of an output, but for its spent flag. -/
structure PlacedOutput where
  unlockTime : UnlockMoment
  publicKey : PublicKey
  height : Height
  deriving DecidableEq

def UnlockTimePublickKeyHeightSpent.placed (unp : UnlockTimePublickKeyHeightSpent) : PlacedOutput :=
  { unlockTime := unp.unlockTime, publicKey := unp.publicKey, height := unp.height }

/-- The outputs of an amount in one transaction. -/
def TransactionPrefix.outputsOf (tx : TransactionPrefix) (amount : Amount) (height : Height) :
    List PlacedOutput :=
  (tx.outputs.filter fun output ↦ output.amount = amount).map fun output ↦
    { unlockTime := tx.unlockTime, publicKey := output.key, height }

/-- The outputs of an amount along a chain of blocks, from height zero. -/
def chainOutputs (blocks : List Block) (amount : Amount) : List PlacedOutput :=
  blocks.zipIdx.flatMap fun (block, height) ↦ block.allTransactions.flatMap fun tx ↦
    tx.outputsOf amount (UInt32.ofNat height)

theorem chainOutputs_concat (blocks : List Block) (block : Block) (amount : Amount) :
    chainOutputs (blocks ++ [block]) amount = chainOutputs blocks amount ++
      block.allTransactions.flatMap fun tx ↦ tx.outputsOf amount (UInt32.ofNat blocks.length) := by
  simp [chainOutputs, List.zipIdx_append]

theorem pushesOf_pushes (amount : Amount) (tx : TransactionPrefix) : pushesOf amount tx.pushes =
    (tx.outputs.filter fun output ↦ output.amount = amount).map fun output ↦
      (tx.unlockTime, output.key) := by
  rw [TransactionPrefix.pushes]
  generalize tx.outputs = outputs
  induction outputs with
  | nil => rfl
  | cons output outputs ih =>
    by_cases h : output.amount = amount
    · simpa [pushesOf, h] using ih
    · simpa [pushesOf, h] using ih

theorem map_placed_newOutputs (height : Height) (amount : Amount) (txs : List Transaction) :
    (Ledger.newOutputs height amount (pushesAll txs)).map
        UnlockTimePublickKeyHeightSpent.placed =
      txs.flatMap fun tx ↦ tx.outputsOf amount height := by
  induction txs with
  | nil => rfl
  | cons tx txs ih =>
    have hcons : pushesAll (tx :: txs) = tx.pushes ++ pushesAll txs := rfl
    rw [hcons, Ledger.newOutputs_append, List.map_append, ih, List.flatMap_cons]
    congr 1
    rw [Ledger.newOutputs, pushesOf_pushes, List.map_map, List.map_map]
    rfl

/-- The ledger lists the outputs in the order of the chain. -/
theorem ledgerOf_placed (blocks : List Block) (amount : Amount) :
    ((ledgerOf blocks).outputs amount).map UnlockTimePublickKeyHeightSpent.placed =
      chainOutputs blocks amount := by
  induction blocks using List.reverseRecOn with
  | nil => rfl
  | append_singleton blocks block ih =>
    rw [ledgerOf_concat, Ledger.connect_outputs, map_markSpent _ fun _ _ ↦ rfl, List.map_append,
      map_placed_newOutputs, ih, chainOutputs_concat]

/-! ## Recorded indices -/

/-- Each transaction gets one index for each of its outputs. -/
theorem length_globalIndicesOf (next : Amount → UInt32) (txs : List Transaction) :
    (globalIndicesOf next txs).map List.length = txs.map fun tx ↦ tx.outputs.length := by
  have hlength : ∀ (next : Amount → UInt32) (pushes : List Push),
      (outputIndices next pushes).length = pushes.length := by
    intro next pushes
    induction pushes generalizing next with
    | nil => rfl
    | cons push pushes ih => simp [outputIndices, ih]
  induction txs generalizing next with
  | nil => rfl
  | cons tx txs ih => simp [globalIndicesOf, ih, hlength, TransactionPrefix.pushes]

theorem outputIndices_append (next : Amount → UInt32) (l₁ l₂ : List Push) :
    outputIndices next (l₁ ++ l₂) = outputIndices next l₁ ++ outputIndices (bump next l₁) l₂ := by
  induction l₁ generalizing next with
  | nil => simp [outputIndices]
  | cons push l₁ ih =>
    rw [List.cons_append, outputIndices, ih, ← bump_append, List.singleton_append, outputIndices,
      List.cons_append]

theorem flatten_globalIndicesOf (next : Amount → UInt32) (txs : List Transaction) :
    (globalIndicesOf next txs).flatten = outputIndices next (pushesAll txs) := by
  induction txs generalizing next with
  | nil => rfl
  | cons tx txs ih =>
    have hcons : pushesAll (tx :: txs) = tx.pushes ++ pushesAll txs := rfl
    rw [hcons, outputIndices_append, ← ih]
    rfl

/-- The index of an output counts the outputs of its amount before it. -/
theorem getElem?_outputIndices (next : Amount → UInt32) (pre : List Push) (push : Push)
    (post : List Push) :
    (outputIndices next (pre ++ push :: post))[pre.length]? = some (bump next pre push.1) := by
  have hlength : (outputIndices next pre).length = pre.length := by
    induction pre generalizing next with
    | nil => rfl
    | cons push pre ih => simp [outputIndices, ih]
  rw [outputIndices_append, List.getElem?_append_right (by omega), hlength, Nat.sub_self]
  rfl

/-! ## Stored indices -/

/-- The tables list the outputs of every amount in the order of the main chain. -/
theorem Visited.outputs_placed {s : State} (h : Visited cr c s) {L : Ledger}
    (hrep : s.Represents L) (amount : Amount) :
    (L.outputs amount).map UnlockTimePublickKeyHeightSpent.placed =
      chainOutputs s.mainBlocks amount := by
  obtain ⟨L', hrep', hforget⟩ := (@Visited.followsChain cr _ _ h).holds.ledger
  obtain rfl := hrep.unique hrep'
  have houtputs := congrFun (congrArg Ledger.outputs hforget) amount
  have hplaced := congrArg (List.map UnlockTimePublickKeyHeightSpent.placed) houtputs
  simp only [Ledger.forgetSpent, List.map_map] at hplaced
  rw [State.mainTables_ledger] at hplaced
  rw [← ledgerOf_placed]
  exact hplaced

/-- A block that is redone records for each output the index under which it is then stored: the
number of outputs of the amount before it along the chain.  And the indices of each amount are those
below the next one, in the order of the chain. -/
theorem Visited.globalIndices {s : State} (h : Visited cr c s) :
    (∀ (s' : State) (bhash : Hash) (block : Block) (info : Api.BlockHeader),
      s.redoBlock cr c bhash block info = .ok (some s') →
      ∃ table, s'.db.globalIndices.get bhash = some table ∧
        table.map List.length = block.allTransactions.map (fun tx ↦ tx.outputs.length) ∧
        ∀ (pre post : List Push) (push : Push),
          pushesAll block.allTransactions = pre ++ push :: post →
          ∃ index unp, table.flatten[pre.length]? = some index ∧
            index.toNat = (chainOutputs s.mainBlocks push.1).length +
              (pushesOf push.1 pre).length ∧
            s.db.outputs.get (push.1, index) = none ∧
            s'.db.outputs.get (push.1, index) = some unp ∧
            unp.placed = ⟨push.2.1, push.2.2, info.height⟩) ∧
    ∀ amount, (chainOutputs s.mainBlocks amount).length ≤ 2 ^ 32 ∧
      s.nextGlobalIndexForAmount amount =
        UInt32.ofNat (chainOutputs s.mainBlocks amount).length ∧
      ∀ index, (s.db.outputs.get (amount, index)).map UnlockTimePublickKeyHeightSpent.placed =
        (chainOutputs s.mainBlocks amount)[index.toNat]? := by
  obtain ⟨L, hrep, -⟩ := h.followsChain.holds.ledger
  have hplaced : ∀ amount, (L.outputs amount).map UnlockTimePublickKeyHeightSpent.placed =
      chainOutputs s.mainBlocks amount := h.outputs_placed hrep
  have hlength : ∀ amount,
      (chainOutputs s.mainBlocks amount).length = (L.outputs amount).length := fun amount ↦ by
    rw [← hplaced, List.length_map]
  constructor
  · intro s' bhash block info hok
    obtain ⟨-, -, -, hrep', -, htable⟩ := hrep.redoBlock hok
    refine ⟨_, by rw [htable, Store.get_put_self], length_globalIndicesOf _ _, ?_⟩
    intro pre post push hsplit
    have hindexed := hrep'.indexed push.1
    have hcount : (pushesOf push.1 (pushesAll block.allTransactions)).length =
        (pushesOf push.1 pre).length + 1 + (pushesOf push.1 post).length := by
      rw [hsplit, pushesOf_append]
      simp [pushesOf]
      omega
    rw [Ledger.length_connect, hcount] at hindexed
    have hindex : bump s.nextGlobalIndexForAmount pre push.1 =
        UInt32.ofNat ((L.outputs push.1).length + (pushesOf push.1 pre).length) := by
      rw [bump, hrep.next, UInt32.ofNat_add]
    have hnat : (bump s.nextGlobalIndexForAmount pre push.1).toNat =
        (L.outputs push.1).length + (pushesOf push.1 pre).length := by
      rw [hindex, toNat_ofNat_of_lt (by omega)]
    have hnew : (((L.connect info.height block.allTransactions).outputs push.1).map
        UnlockTimePublickKeyHeightSpent.placed)[
          (L.outputs push.1).length + (pushesOf push.1 pre).length]? =
        some ⟨push.2.1, push.2.2, info.height⟩ := by
      rw [Ledger.connect_outputs, map_markSpent _ fun _ _ ↦ rfl, hsplit, Ledger.newOutputs_append,
        List.map_append, List.map_append, List.getElem?_append_right (by simp),
        List.getElem?_append_right (by simp)]
      simp [Ledger.newOutputs, pushesOf, UnlockTimePublickKeyHeightSpent.placed]
    rw [List.getElem?_map] at hnew
    obtain ⟨unp, hunp, hunpPlaced⟩ := Option.map_eq_some_iff.1 hnew
    refine ⟨bump s.nextGlobalIndexForAmount pre push.1, unp, ?_, ?_, ?_, ?_, hunpPlaced⟩
    · rw [flatten_globalIndicesOf, hsplit, getElem?_outputIndices]
    · rw [hnat, hlength]
    · rw [hrep.outputs, hnat, List.getElem?_eq_none (by omega)]
    · rw [hrep'.outputs, hnat, hunp]
  · intro amount
    refine ⟨hlength amount ▸ hrep.indexed amount, by rw [hrep.next, hlength], fun index ↦ ?_⟩
    rw [hrep.outputs, ← hplaced, List.getElem?_map]

/-- A coinbase with three outputs of one amount and one of another. -/
theorem Visited.globalIndices_firstTestnetBlock :
    ∃ (s s' : State) (pb : PreparedBlock), Visited sampleCrypto testnet s ∧
      s'.db.globalIndices.get pb.bid = some [[0, 1, 2, 0]] ∧
      pb.block.allTransactions.map (fun tx ↦ tx.outputs.length) = [4] ∧
      ∀ (pre post : List Push) (push : Push),
        pushesAll pb.block.allTransactions = pre ++ push :: post →
        ∃ index unp, [0, 1, 2, 0][pre.length]? = some index ∧
          s.db.outputs.get (push.1, index) = none ∧
          s'.db.outputs.get (push.1, index) = some unp ∧ unp.publicKey = push.2.2 := by
  obtain ⟨s, s', pb, info, hreach, -, -, hredo, hindices⟩ := firstTestnetBlock_redone
  obtain ⟨table, htable, hshape, hplaced⟩ := (Visited.globalIndices hreach.visited).1 s' _ _ _ hredo
  obtain rfl := Option.some.inj (htable.symm.trans hindices)
  refine ⟨s, s', pb, hreach.visited, hindices, hshape.symm, fun pre post push hsplit ↦ ?_⟩
  obtain ⟨index, unp, hindex, -, hfree, hget, hunp⟩ := hplaced pre post push hsplit
  exact ⟨index, unp, hindex, hfree, hget, congrArg PlacedOutput.publicKey hunp⟩

end Naza
