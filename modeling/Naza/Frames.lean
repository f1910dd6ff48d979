import Naza.Lib.Transition
import Naza.BlockChain

/-!
# What each operation leaves alone

`treePart` is a state without the tables of the main chain's ledger and without the pool,
`ledgerPart` one without the block tree and the tip.  Each operation of the chain is shown to keep
one of the two parts.
-/

open Lib

namespace Naza

variable {cr : Crypto} {c : Currency}

namespace State

/-- The block tree, the tip and the medians. -/
def treePart (s : State) : State :=
  { s with
    db := { s.db with
      keyImages := ∅, outputs := ∅, globalIndices := ∅, transactions := ∅, timestamps := ∅ }
    nextGiForAmount := ∅
    pool := {}
    txPoolVersion := 0 }

variable {s s' : State}

/-! ## Ledger writes -/

theorem storeKeyimage_treePart {ki : KeyImage} {height : Height}
    (h : s.storeKeyimage ki height = .ok s') : s'.treePart = s.treePart := by
  obtain ⟨keyImages, -, h⟩ := bind_eq_ok_iff.1 h
  dsimp only at h
  split at h
  · rw [← Except.ok.inj h]
    rfl
  · obtain ⟨pool, -, h⟩ := bind_eq_ok_iff.1 h
    rw [← Except.ok.inj h]
    rfl

theorem deleteKeyimage_treePart {ki : KeyImage} (h : s.deleteKeyimage ki = .ok s') :
    s'.treePart = s.treePart := by
  obtain ⟨keyImages, -, h⟩ := bind_eq_ok_iff.1 h
  rw [← Except.ok.inj h]
  rfl

theorem pushAmountOutput_treePart {amount : Amount} {unlockTime : UnlockMoment} {height : Height}
    {pk : PublicKey} (h : s.pushAmountOutput amount unlockTime height pk = .ok s') :
    s'.treePart = s.treePart := by
  obtain ⟨outputs, -, h⟩ := bind_eq_ok_iff.1 h
  rw [← Except.ok.inj h]
  rfl

theorem popAmountOutput_treePart {amount : Amount} {unlockTime : UnlockMoment} {pk : PublicKey}
    (h : s.popAmountOutput amount unlockTime pk = .ok s') : s'.treePart = s.treePart := by
  simp only [popAmountOutput, bind_eq_ok_iff] at h
  obtain ⟨-, -, unp, -, -, -, outputs, -, h⟩ := h
  rw [← Except.ok.inj h]
  rfl

theorem setSpent_treePart (amount : Amount) (index : UInt32) (spent : Bool) :
    (s.setSpent amount index spent).treePart = s.treePart := by
  unfold setSpent
  split <;> rfl

/-- A delta replayed on the database reaches the ledger tables and the pool only. -/
theorem apply_treePart {delta : DeltaState} (h : delta.apply writes s = .ok s') :
    s'.treePart = s.treePart := by
  simp only [DeltaState.apply, bind_eq_ok_iff] at h
  obtain ⟨s₁, h₁, s₂, h₂, h₃⟩ := h
  have e₁ : s₁.treePart = s.treePart :=
    foldlM_ok_preserves (I := fun t ↦ t.treePart = s.treePart)
      (fun _ _ _ _ hx hI ↦ (storeKeyimage_treePart hx).trans hI) h₁ rfl
  have e₂ : s₂.treePart = s.treePart := by
    refine foldlM_ok_preserves (I := fun t ↦ t.treePart = s.treePart) ?_ h₂ e₁
    intro t x t' _ hx hI
    exact foldlM_ok_preserves (I := fun t ↦ t.treePart = s.treePart)
      (fun _ _ _ _ hy hJ ↦ (pushAmountOutput_treePart hy).trans hJ) hx hI
  refine foldlM_ok_preserves (I := fun t ↦ t.treePart = s.treePart) ?_ h₃ e₂
  intro t x t' _ hx hI
  rw [← Except.ok.inj hx, setSpent_treePart, hI]

/-- A replayed delta leaves the global indices of blocks alone. -/
theorem apply_globalIndices {delta : DeltaState} (h : delta.apply writes s = .ok s') :
    s'.db.globalIndices = s.db.globalIndices := by
  simp only [DeltaState.apply, bind_eq_ok_iff] at h
  obtain ⟨s₁, h₁, s₂, h₂, h₃⟩ := h
  have e₁ : s₁.db.globalIndices = s.db.globalIndices := by
    refine foldlM_ok_preserves (I := fun t ↦ t.db.globalIndices = s.db.globalIndices) ?_ h₁ rfl
    intro t e t' _ hx hI
    obtain ⟨keyImages, -, hx⟩ := bind_eq_ok_iff.1 hx
    dsimp only at hx
    split at hx
    · rw [← Except.ok.inj hx]
      exact hI
    · obtain ⟨pool, -, hx⟩ := bind_eq_ok_iff.1 hx
      rw [← Except.ok.inj hx]
      exact hI
  have e₂ : s₂.db.globalIndices = s.db.globalIndices := by
    refine foldlM_ok_preserves (I := fun t ↦ t.db.globalIndices = s.db.globalIndices) ?_ h₂ e₁
    intro t e t' _ hx hI
    refine foldlM_ok_preserves (I := fun t ↦ t.db.globalIndices = s.db.globalIndices) ?_ hx hI
    intro u e' u' _ hy hJ
    obtain ⟨outputs, -, hy⟩ := bind_eq_ok_iff.1 hy
    rw [← Except.ok.inj hy]
    exact hJ
  refine foldlM_ok_preserves (I := fun t ↦ t.db.globalIndices = s.db.globalIndices) ?_ h₃ e₂
  intro t e t' _ hx hI
  rw [← Except.ok.inj hx, ← hI]
  unfold setSpent
  split <;> rfl

theorem redoBlock_treePart {bhash : Hash} {block : Block} {info : Api.BlockHeader}
    (h : s.redoBlock cr c bhash block info = .ok (some s')) : s'.treePart = s.treePart := by
  unfold redoBlock at h
  split at h
  · cases h
  · split at h
    · cases h
    · cases h
    · split at h
      · simp only [bind_eq_ok_iff] at h
        obtain ⟨s₁, h₁, table, -, h⟩ := h
        rw [← Option.some.inj (Except.ok.inj h), ← apply_treePart h₁]
        rfl
      · cases h

theorem undoOutputs_treePart {unlockTime : UnlockMoment} {outputs : List TransactionOutput}
    (h : s.undoOutputs unlockTime outputs = .ok s') : s'.treePart = s.treePart :=
  foldlM_ok_preserves (I := fun t ↦ t.treePart = s.treePart)
    (fun _ _ _ _ hx hI ↦ (popAmountOutput_treePart hx).trans hI) h rfl

theorem undoInputs_treePart {inputs : List TransactionInput}
    (h : s.undoInputs inputs = .ok s') : s'.treePart = s.treePart := by
  refine foldlM_ok_preserves (I := fun t ↦ t.treePart = s.treePart) ?_ h rfl
  intro t input t' _ hx hI
  cases input with
  | coinbaseInput _ =>
    rw [← Except.ok.inj hx, hI]
  | keyInput input =>
    obtain ⟨u, hu, hx⟩ := bind_eq_ok_iff.1 hx
    have hu' := (deleteKeyimage_treePart hu).trans hI
    split at hx
    · rw [← Except.ok.inj hx, setSpent_treePart, hu']
    · rw [← Except.ok.inj hx, hu']

theorem undoTransaction_treePart {tx : Transaction} (h : s.undoTransaction tx = .ok s') :
    s'.treePart = s.treePart := by
  obtain ⟨s₁, h₁, h₂⟩ := bind_eq_ok_iff.1 h
  exact (undoInputs_treePart h₂).trans (undoOutputs_treePart h₁)

theorem undoBlock_treePart {bhash : Hash} {block : Block} (h : s.undoBlock bhash block = .ok s') :
    s'.treePart = s.treePart := by
  simp only [undoBlock, bind_eq_ok_iff] at h
  obtain ⟨s₁, h₁, s₂, h₂, table, -, h⟩ := h
  have e₁ : s₁.treePart = s.treePart :=
    foldlM_ok_preserves (I := fun t ↦ t.treePart = s.treePart)
      (fun _ _ _ _ hx hI ↦ (undoTransaction_treePart hx).trans hI) h₁ rfl
  rw [← Except.ok.inj h]
  exact (undoTransaction_treePart h₂).trans e₁

/-! ## Index writes -/

theorem indexTransaction_frame {blockData : BinaryArray} {tid : Hash} {binaryTx : BinaryArray}
    {text : String} {tpos tpos' : TransactionPos}
    (h : s.indexTransaction blockData tid binaryTx text tpos = .ok (tpos', s')) :
    ∃ transactions, s' = { s with db := { s.db with transactions } } := by
  simp only [indexTransaction, bind_eq_ok_iff] at h
  obtain ⟨position, -, transactions, -, h⟩ := h
  exact ⟨transactions, (Prod.mk.inj (Except.ok.inj h)).2.symm⟩

theorem indexTransactions_frame {blockData : BinaryArray} {index : ℕ} {txs : List Transaction}
    {tids : List Hash} {raws : List BinaryArray} {tpos : TransactionPos}
    (h : s.indexTransactions blockData index txs tids raws tpos = .ok s') :
    ∃ transactions, s' = { s with db := { s.db with transactions } } := by
  induction txs generalizing s index tids raws tpos with
  | nil =>
    simp only [indexTransactions, Except.ok.injEq] at h
    exact ⟨s.db.transactions, h.symm⟩
  | cons tx txs ih =>
    cases tids with
    | nil => cases h
    | cons tid tids =>
      cases raws with
      | nil => cases h
      | cons raw raws =>
        obtain ⟨⟨tpos', s₁⟩, h₁, h₂⟩ := bind_eq_ok_iff.1 h
        obtain ⟨_, rfl⟩ := indexTransaction_frame h₁
        obtain ⟨transactions, rfl⟩ := ih h₂
        exact ⟨transactions, rfl⟩

/-- Indexing a block reaches its two indices only. -/
theorem indexBlock_frame {blockData : BinaryArray} {raw : RawBlock} {block : Block}
    {info : Api.BlockHeader} {baseTransactionHash : Hash}
    (h : s.indexBlock blockData raw block info baseTransactionHash = .ok s') :
    ∃ timestamps transactions, s' = { s with db := { s.db with timestamps, transactions } } := by
  simp only [indexBlock, bind_eq_ok_iff] at h
  obtain ⟨timestamps, -, coinbase, -, ⟨tpos, s₁⟩, h₁, h₂⟩ := h
  obtain ⟨_, rfl⟩ := indexTransaction_frame h₁
  obtain ⟨transactions, rfl⟩ := indexTransactions_frame h₂
  exact ⟨timestamps, transactions, rfl⟩

theorem unindexTransactions_frame {txs : List Transaction} {tids : List Hash}
    (h : s.unindexTransactions txs tids = .ok s') :
    ∃ transactions, s' = { s with db := { s.db with transactions } } := by
  induction txs generalizing s tids with
  | nil =>
    simp only [unindexTransactions, Except.ok.injEq] at h
    exact ⟨s.db.transactions, h.symm⟩
  | cons tx txs ih =>
    cases tids with
    | nil => cases h
    | cons tid tids =>
      obtain ⟨_, -, h⟩ := bind_eq_ok_iff.1 h
      obtain ⟨transactions, rfl⟩ := ih h
      exact ⟨transactions, rfl⟩

theorem unindexBlock_frame {block : Block} {height : Height}
    (h : s.unindexBlock cr block height = .ok s') :
    ∃ timestamps transactions, s' = { s with db := { s.db with timestamps, transactions } } := by
  simp only [unindexBlock, bind_eq_ok_iff] at h
  obtain ⟨timestamps, -, tid, -, transactions, -, h⟩ := h
  obtain ⟨transactions', rfl⟩ := unindexTransactions_frame h
  exact ⟨timestamps, transactions', rfl⟩

/-- A block redone with its indices is the block redone, then indexed. -/
theorem redoBlockIndexed_eq {bhash : Hash} {blockData : BinaryArray} {raw : RawBlock}
    {block : Block} {info : Api.BlockHeader} {baseTransactionHash : Hash}
    (h : s.redoBlockIndexed cr c bhash blockData raw block info baseTransactionHash =
      .ok (some s')) :
    ∃ s₁, s.redoBlock cr c bhash block info = .ok (some s₁) ∧
      s₁.indexBlock blockData raw block info baseTransactionHash = .ok s' := by
  obtain ⟨r, hr, h⟩ := bind_eq_ok_iff.1 h
  cases r with
  | none => cases h
  | some s₁ =>
    obtain ⟨s₂, h₂, h⟩ := bind_eq_ok_iff.1 h
    exact ⟨s₁, hr, Option.some.inj (Except.ok.inj h) ▸ h₂⟩

theorem redoBlockIndexed_treePart {bhash : Hash} {blockData : BinaryArray} {raw : RawBlock}
    {block : Block} {info : Api.BlockHeader} {baseTransactionHash : Hash}
    (h : s.redoBlockIndexed cr c bhash blockData raw block info baseTransactionHash =
      .ok (some s')) : s'.treePart = s.treePart := by
  obtain ⟨s₁, hr, h₂⟩ := redoBlockIndexed_eq h
  obtain ⟨_, _, rfl⟩ := indexBlock_frame h₂
  have htree := redoBlock_treePart hr
  exact htree

theorem undoBlockIndexed_treePart {bhash : Hash} {block : Block} {height : Height}
    (h : s.undoBlockIndexed cr bhash block height = .ok s') : s'.treePart = s.treePart := by
  obtain ⟨s₁, h₁, h₂⟩ := bind_eq_ok_iff.1 h
  obtain ⟨_, _, rfl⟩ := unindexBlock_frame h₂
  have htree := undoBlock_treePart h₁
  exact htree

/-! ## Indices of blocks -/

/-- The two indices that `BlockChain` keeps. -/
def indices (s : State) := (s.db.transactions, s.db.timestamps)

theorem storeKeyimage_indices {ki : KeyImage} {height : Height}
    (h : s.storeKeyimage ki height = .ok s') : s'.indices = s.indices := by
  obtain ⟨keyImages, -, h⟩ := bind_eq_ok_iff.1 h
  dsimp only at h
  split at h
  · rw [← Except.ok.inj h]
    rfl
  · obtain ⟨pool, -, h⟩ := bind_eq_ok_iff.1 h
    rw [← Except.ok.inj h]
    rfl

theorem setSpent_indices (amount : Amount) (index : UInt32) (spent : Bool) :
    (s.setSpent amount index spent).indices = s.indices := by
  unfold setSpent
  split <;> rfl

theorem redoBlock_indices {bhash : Hash} {block : Block} {info : Api.BlockHeader}
    (h : s.redoBlock cr c bhash block info = .ok (some s')) :
    s'.db.transactions = s.db.transactions ∧ s'.db.timestamps = s.db.timestamps := by
  have hindices : s'.indices = s.indices := by
    unfold redoBlock at h
    split at h
    · cases h
    · split at h
      · cases h
      · cases h
      · split at h
        · simp only [bind_eq_ok_iff, DeltaState.apply] at h
          obtain ⟨s₃, ⟨s₁, h₁, s₂, h₂, h₃⟩, table, -, h⟩ := h
          have e₁ : s₁.indices = s.indices :=
            foldlM_ok_preserves (I := fun t ↦ t.indices = s.indices)
              (fun _ _ _ _ hx hI ↦ (storeKeyimage_indices hx).trans hI) h₁ rfl
          have e₂ : s₂.indices = s.indices := by
            refine foldlM_ok_preserves (I := fun t ↦ t.indices = s.indices) ?_ h₂ e₁
            intro t e t' _ hx hI
            refine foldlM_ok_preserves (I := fun t ↦ t.indices = s.indices) ?_ hx hI
            intro u e' u' _ hy hJ
            obtain ⟨outputs, -, hy⟩ := bind_eq_ok_iff.1 hy
            rw [← Except.ok.inj hy]
            exact hJ
          have e₃ : s₃.indices = s.indices := by
            refine foldlM_ok_preserves (I := fun t ↦ t.indices = s.indices) ?_ h₃ e₂
            intro t e t' _ hx hI
            rw [← Except.ok.inj hx, setSpent_indices, hI]
          rw [← Option.some.inj (Except.ok.inj h)]
          exact e₃
        · cases h
  exact Prod.mk.inj hindices

theorem undoTransaction_indices {tx : Transaction} (h : s.undoTransaction tx = .ok s') :
    s'.indices = s.indices := by
  obtain ⟨s₁, h₁, h₂⟩ := bind_eq_ok_iff.1 h
  have e₁ : s₁.indices = s.indices := by
    refine foldlM_ok_preserves (I := fun t ↦ t.indices = s.indices) ?_ h₁ rfl
    intro t output t' _ hx hI
    simp only [popAmountOutput, bind_eq_ok_iff] at hx
    obtain ⟨-, -, unp, -, -, -, outputs, -, hx⟩ := hx
    rw [← Except.ok.inj hx]
    exact hI
  refine foldlM_ok_preserves (I := fun t ↦ t.indices = s.indices) ?_ h₂ e₁
  intro t input t' _ hx hI
  cases input with
  | coinbaseInput _ =>
    rw [← Except.ok.inj hx]
    exact hI
  | keyInput input =>
    obtain ⟨u, hu, hx⟩ := bind_eq_ok_iff.1 hx
    obtain ⟨keyImages, -, hu⟩ := bind_eq_ok_iff.1 hu
    have hu' : u.indices = s.indices := by
      rw [← Except.ok.inj hu]
      exact hI
    split at hx
    · rw [← Except.ok.inj hx, setSpent_indices, hu']
    · rw [← Except.ok.inj hx, hu']

theorem undoBlock_indices {bhash : Hash} {block : Block} (h : s.undoBlock bhash block = .ok s') :
    s'.db.transactions = s.db.transactions ∧ s'.db.timestamps = s.db.timestamps := by
  simp only [undoBlock, bind_eq_ok_iff] at h
  obtain ⟨s₁, h₁, s₂, h₂, table, -, h⟩ := h
  have e₁ : s₁.indices = s.indices :=
    foldlM_ok_preserves (I := fun t ↦ t.indices = s.indices)
      (fun _ _ _ _ hx hI ↦ (undoTransaction_indices hx).trans hI) h₁ rfl
  have e₂ : s₂.indices = s.indices := (undoTransaction_indices h₂).trans e₁
  rw [← Except.ok.inj h]
  exact Prod.mk.inj e₂

/-! ## The pool -/

theorem popAmountOutput_pool {amount : Amount} {unlockTime : UnlockMoment} {pk : PublicKey}
    (h : s.popAmountOutput amount unlockTime pk = .ok s') : s'.pool = s.pool := by
  simp only [popAmountOutput, bind_eq_ok_iff] at h
  obtain ⟨-, -, unp, -, -, -, outputs, -, h⟩ := h
  rw [← Except.ok.inj h]

theorem setSpent_pool (amount : Amount) (index : UInt32) (spent : Bool) :
    (s.setSpent amount index spent).pool = s.pool := by
  unfold setSpent
  split <;> rfl

theorem undoTransaction_pool {tx : Transaction} (h : s.undoTransaction tx = .ok s') :
    s'.pool = s.pool := by
  obtain ⟨s₁, h₁, h₂⟩ := bind_eq_ok_iff.1 h
  have e₁ : s₁.pool = s.pool :=
    foldlM_ok_preserves (I := fun t ↦ t.pool = s.pool)
      (fun _ _ _ _ hx hI ↦ (popAmountOutput_pool hx).trans hI) h₁ rfl
  refine foldlM_ok_preserves (I := fun t ↦ t.pool = s.pool) ?_ h₂ e₁
  intro t input t' _ hx hI
  cases input with
  | coinbaseInput _ =>
    rw [← Except.ok.inj hx, hI]
  | keyInput input =>
    obtain ⟨u, hu, hx⟩ := bind_eq_ok_iff.1 hx
    obtain ⟨keyImages, -, hu⟩ := bind_eq_ok_iff.1 hu
    have hu' : u.pool = s.pool := by
      rw [← Except.ok.inj hu]
      exact hI
    split at hx
    · rw [← Except.ok.inj hx, setSpent_pool, hu']
    · rw [← Except.ok.inj hx, hu']

/-- Undoing a block leaves the pool alone. -/
theorem undoBlockIndexed_pool {bhash : Hash} {block : Block} {height : Height}
    (h : s.undoBlockIndexed cr bhash block height = .ok s') : s'.pool = s.pool := by
  simp only [undoBlockIndexed, undoBlock, bind_eq_ok_iff] at h
  obtain ⟨s₁, ⟨s₂, h₂, s₃, h₃, table, -, h₁⟩, h₄⟩ := h
  obtain ⟨_, _, rfl⟩ := unindexBlock_frame h₄
  have e₂ : s₂.pool = s.pool :=
    foldlM_ok_preserves (I := fun t ↦ t.pool = s.pool)
      (fun _ _ _ _ hx hI ↦ (undoTransaction_pool hx).trans hI) h₂ rfl
  rw [← Except.ok.inj h₁]
  exact (undoTransaction_pool h₃).trans e₂

/-- A transaction offered to the pool changes the pool and its version at most. -/
theorem addTransactionAt_frame {tid : Hash} {tx : Transaction} {binaryTx : BinaryArray}
    {unlockHeight : Height} {unlockTimestamp : Timestamp} {checkSigs : Bool}
    {result : AddTransactionResult} {conflictHeight : Height}
    (h : s.addTransactionAt cr c tid tx binaryTx unlockHeight unlockTimestamp checkSigs =
      .ok (result, conflictHeight, s')) :
    ∃ pool version, s' = { s with pool, txPoolVersion := version } := by
  unfold addTransactionAt at h
  split at h
  · cases h
  · rw [Except.ok.injEq, Prod.mk.injEq, Prod.mk.injEq] at h
    exact ⟨s.pool, s.txPoolVersion, h.2.2.symm⟩
  · obtain ⟨⟨pool, displaced⟩, -, h⟩ := bind_eq_ok_iff.1 h
    dsimp only at h
    split at h
    · obtain ⟨pool₁, -, h⟩ := bind_eq_ok_iff.1 h
      obtain ⟨pool₂, -, h⟩ := bind_eq_ok_iff.1 h
      have h := (Prod.mk.inj (Prod.mk.inj (Except.ok.inj h)).2).2
      exact ⟨pool₂, s.txPoolVersion + 1, h.symm⟩
    · have h := (Prod.mk.inj (Prod.mk.inj (Except.ok.inj h)).2).2
      exact ⟨pool, s.txPoolVersion, h.symm⟩

theorem addTransaction_frame {tid : Hash} {tx : Transaction} {binaryTx : BinaryArray}
    {result : AddTransactionResult} {conflictHeight : Height}
    (h : s.addTransaction cr c tid tx binaryTx = .ok (result, conflictHeight, s')) :
    ∃ pool version, s' = { s with pool, txPoolVersion := version } := by
  obtain ⟨tip, -, h⟩ := bind_eq_ok_iff.1 h
  exact addTransactionAt_frame h

end State

end Naza
