import Naza.Lib.Transition
import Naza.Wallet.Concrete

/-!
# Wallet reorganization

Taking back the blocks that were applied gives the former database, so that it depends on the
blocks that remain, not on what was processed and taken back in between.
-/

open Lib

namespace Naza

/-! ## Block processing only writes what it logs -/

namespace WalletTables

/-- The tables before the first write of the block being processed. -/
def rolledBack (t : WalletTables) : WalletTables where
  transactions := { table := t.transactions.rolledBack }
  history := { table := t.history.rolledBack }
  balances := { table := t.balances.rolledBack }
  keyImages := { table := t.keyImages.rolledBack }
  unspent := { table := t.unspent.rolledBack }
  unspentByAddress := { table := t.unspentByAddress.rolledBack }
  unlocked := { table := t.unlocked.rolledBack }
  lockedByKeyImage := { table := t.lockedByKeyImage.rolledBack }
  lockedByHeight := { table := t.lockedByHeight.rolledBack }
  lockedByTimestamp := { table := t.lockedByTimestamp.rolledBack }

/-- Nothing has been written since the last block. -/
def Settled (t : WalletTables) : Prop := t.settle = t

variable {c : Currency} {t t' : WalletTables}

theorem modifyBalance_rolledBack {o : Api.Output} {lockedOp spendableOp : Int}
    (h : t.modifyBalance o lockedOp spendableOp = .ok t') : t'.rolledBack = t.rolledBack := by
  simp only [modifyBalance, bind_eq_ok_iff] at h
  obtain ⟨b, -, b', -, h⟩ := h
  rw [← Except.ok.inj h]
  simp only [rolledBack]
  split <;> split <;> simp

theorem updateKeyimage_rolledBack {ki : KeyImage} {value : HeightAmounGi} {nooverwrite : Bool}
    (h : t.updateKeyimage ki value nooverwrite = .ok t') : t'.rolledBack = t.rolledBack := by
  rw [updateKeyimage] at h
  split at h
  · rw [← Except.ok.inj h]
  · split at h
    · simp only [bind_eq_ok_iff, walletWrite_eq_ok_iff, LoggedTable.putNew_eq_ok_iff] at h
      obtain ⟨keyImages, ⟨-, rfl⟩, h⟩ := h
      rw [← Except.ok.inj h]
      simp [rolledBack]
    · rw [← Except.ok.inj h]
      simp [rolledBack]

theorem addToUnspentIndex_rolledBack {o : Api.Output} (h : t.addToUnspentIndex o = .ok t') :
    t'.rolledBack = t.rolledBack := by
  simp only [addToUnspentIndex, bind_eq_ok_iff, walletWrite_eq_ok_iff,
    LoggedTable.putNew_eq_ok_iff] at h
  obtain ⟨t₁, h₁, _, ⟨-, rfl⟩, _, ⟨-, rfl⟩, h⟩ := h
  rw [← modifyBalance_rolledBack h₁, ← Except.ok.inj h]
  simp [rolledBack]

theorem removeFromUnspentIndex_rolledBack {o : Api.Output}
    (h : t.removeFromUnspentIndex o = .ok t') : t'.rolledBack = t.rolledBack := by
  simp only [removeFromUnspentIndex, bind_eq_ok_iff, walletWrite_eq_ok_iff,
    LoggedTable.removeExisting_eq_ok_iff] at h
  obtain ⟨t₁, h₁, _, ⟨-, rfl⟩, _, ⟨-, rfl⟩, h⟩ := h
  rw [← modifyBalance_rolledBack h₁, ← Except.ok.inj h]
  simp [rolledBack]

theorem withLockIndex_rolledBack (unlockTime : UnlockMoment)
    (index : LoggedTable (UInt32 × Amount × UInt32) Api.Output)
    (h : index.rolledBack = (t.lockIndex c unlockTime).rolledBack) :
    (t.withLockIndex c unlockTime index).rolledBack = t.rolledBack := by
  rw [lockIndex] at h
  rw [withLockIndex]
  split at h
  · next hblock =>
    rw [if_pos hblock]
    simp [rolledBack, h]
  · next hblock =>
    rw [if_neg hblock]
    simp [rolledBack, h]

theorem addToLockIndex_rolledBack {o : Api.Output} (h : t.addToLockIndex c o = .ok t') :
    t'.rolledBack = t.rolledBack := by
  simp only [addToLockIndex, bind_eq_ok_iff, walletWrite_eq_ok_iff,
    LoggedTable.putNew_eq_ok_iff] at h
  obtain ⟨t₁, h₁, _, ⟨-, rfl⟩, h⟩ := h
  have hlock := withLockIndex_rolledBack (c := c) (t := t₁) o.unlockTime
    ((t₁.lockIndex c o.unlockTime).put (lockKey o) o) (LoggedTable.rolledBack_put _ _ _)
  split at h
  · simp only [bind_eq_ok_iff, walletWrite_eq_ok_iff, LoggedTable.putNew_eq_ok_iff] at h
    obtain ⟨_, ⟨-, rfl⟩, h⟩ := h
    rw [← modifyBalance_rolledBack h₁, ← hlock, ← Except.ok.inj h]
    simp [rolledBack]
  · rw [← modifyBalance_rolledBack h₁, ← hlock, ← Except.ok.inj h]

theorem removeFromLockIndex_rolledBack {o : Api.Output}
    (h : t.removeFromLockIndex c o = .ok t') : t'.rolledBack = t.rolledBack := by
  simp only [removeFromLockIndex, bind_eq_ok_iff, walletWrite_eq_ok_iff,
    LoggedTable.removeExisting_eq_ok_iff] at h
  obtain ⟨t₁, h₁, _, ⟨-, rfl⟩, h⟩ := h
  have hlock := withLockIndex_rolledBack (c := c) (t := t₁) o.unlockTime
    ((t₁.lockIndex c o.unlockTime).remove (lockKey o)) (LoggedTable.rolledBack_remove _ _)
  split at h
  · simp only [bind_eq_ok_iff, walletWrite_eq_ok_iff, LoggedTable.removeExisting_eq_ok_iff] at h
    obtain ⟨_, ⟨-, rfl⟩, h⟩ := h
    rw [← modifyBalance_rolledBack h₁, ← hlock, ← Except.ok.inj h]
    simp [rolledBack]
  · rw [← modifyBalance_rolledBack h₁, ← hlock, ← Except.ok.inj h]

theorem addIncomingOutput_rolledBack {o : Api.Output} {justUnlocked : Bool} {amount : Amount}
    (h : t.addIncomingOutput c o justUnlocked = .ok (amount, t')) :
    t'.rolledBack = t.rolledBack := by
  unfold addIncomingOutput at h
  dsimp only at h
  split at h
  · rw [(Prod.mk.inj (Except.ok.inj h)).2]
  · split at h
    · simp only [bind_eq_ok_iff] at h
      obtain ⟨t₁, h₁, h⟩ := h
      rw [← (Prod.mk.inj (Except.ok.inj h)).2, addToLockIndex_rolledBack h₁]
    · split at h
      · split at h
        · rw [(Prod.mk.inj (Except.ok.inj h)).2]
        · simp only [bind_eq_ok_iff] at h
          obtain ⟨t₁, h₁, t₂, h₂, t₃, h₃, h⟩ := h
          rw [← (Prod.mk.inj (Except.ok.inj h)).2, updateKeyimage_rolledBack h₃,
            addToUnspentIndex_rolledBack h₂, removeFromUnspentIndex_rolledBack h₁]
      · simp only [bind_eq_ok_iff] at h
        obtain ⟨t₁, h₁, t₂, h₂, h⟩ := h
        rw [← (Prod.mk.inj (Except.ok.inj h)).2, updateKeyimage_rolledBack h₂,
          addToUnspentIndex_rolledBack h₁]

theorem unlockOutput_rolledBack {height : Height} {o : Api.Output}
    (h : t.unlockOutput c height o = .ok t') : t'.rolledBack = t.rolledBack := by
  simp only [unlockOutput, bind_eq_ok_iff, Prod.exists, walletWrite_eq_ok_iff,
    LoggedTable.putNew_eq_ok_iff] at h
  obtain ⟨t₁, h₁, amount, t₂, h₂, _, ⟨-, rfl⟩, h⟩ := h
  rw [← removeFromLockIndex_rolledBack h₁, ← addIncomingOutput_rolledBack h₂, ← Except.ok.inj h]
  simp [rolledBack]

theorem addIncomingKeyimage_rolledBack {height : Height} {ki : KeyImage} {amount : Amount}
    (h : t.addIncomingKeyimage c height ki = .ok (amount, t')) : t'.rolledBack = t.rolledBack := by
  simp only [addIncomingKeyimage, bind_eq_ok_iff] at h
  obtain ⟨found, -, t₁, h₁, h⟩ := h
  have hunlock : t₁.rolledBack = t.rolledBack :=
    foldlM_ok_preserves (I := fun s ↦ s.rolledBack = t.rolledBack)
      (fun s o s' _ hs heq ↦ (unlockOutput_rolledBack hs).trans heq) h₁ rfl
  split at h
  · simp only [bind_eq_ok_iff] at h
    obtain ⟨t₂, h₂, h⟩ := h
    rw [← (Prod.mk.inj (Except.ok.inj h)).2, removeFromUnspentIndex_rolledBack h₂, hunlock]
  · rw [← (Prod.mk.inj (Except.ok.inj h)).2, hunlock]

theorem unlock_rolledBack {height : Height} {now : Timestamp}
    (h : t.unlock c height now = .ok t') : t'.rolledBack = t.rolledBack := by
  simp only [unlock, bind_eq_ok_iff] at h
  obtain ⟨_, -, _, -, h⟩ := h
  exact foldlM_ok_preserves (I := fun s ↦ s.rolledBack = t.rolledBack)
    (fun s o s' _ hs heq ↦ (unlockOutput_rolledBack hs).trans heq) h rfl

theorem addTransaction_rolledBack {height : Height} {tid : Hash} {tx : TransactionPrefix}
    {ptx : Api.Transaction} (h : t.addTransaction height tid tx ptx = .ok t') :
    t'.rolledBack = t.rolledBack := by
  simp only [addTransaction, bind_eq_ok_iff, walletWrite_eq_ok_iff,
    LoggedTable.putNew_eq_ok_iff] at h
  obtain ⟨_, ⟨-, rfl⟩, history, hhistory, h⟩ := h
  have hrolled : history.rolledBack = t.history.rolledBack :=
    foldlM_ok_preserves (I := fun s ↦ s.rolledBack = t.history.rolledBack)
      (fun s _ s' _ hs heq ↦ by
        rw [walletWrite_eq_ok_iff, LoggedTable.putNew_eq_ok_iff] at hs
        rw [hs.2, LoggedTable.rolledBack_put, heq]) hhistory rfl
  rw [← Except.ok.inj h]
  simp [rolledBack, hrolled]

/-- The tables before a block are what the operations of block processing keep. -/
theorem rolledBack_kept (wc : WalletCrypto) (c : Currency) (base : WalletTables) :
    KeptByOperations wc c (fun _ ↦ False) fun t ↦ t.rolledBack = base where
  exception _ := id
  addIncomingOutput _ _ _ _ h := Ends.iff_forall.2
    ⟨fun _ hok ↦ (addIncomingOutput_rolledBack hok).trans h, fun _ _ ↦ id⟩
  addIncomingKeyimage _ _ _ h := Ends.iff_forall.2
    ⟨fun _ hok ↦ (addIncomingKeyimage_rolledBack hok).trans h, fun _ _ ↦ id⟩
  unlock _ _ _ h := Ends.iff_forall.2
    ⟨fun _ hok ↦ (unlock_rolledBack hok).trans h, fun _ _ ↦ id⟩
  addTransaction _ _ _ _ _ h := Ends.iff_forall.2
    ⟨fun _ hok ↦ (addTransaction_rolledBack hok).trans h, fun _ _ ↦ id⟩

/-- Settled tables are what they roll back to. -/
theorem Settled.rolledBack_eq (h : t.Settled) : t.rolledBack = t := by
  have hsettle : t.settle.rolledBack = t.settle := by
    simp [rolledBack, settle, LoggedTable.settle, LoggedTable.rolledBack]
  rwa [h] at hsettle

theorem settle_settled (t : WalletTables) : t.settle.Settled := rfl

/-- The saved undo map takes the block back. -/
theorem restore_pending (t : WalletTables) : t.settle.restore t.pending = t.rolledBack := rfl

/-- Where the undo map is empty there is nothing to take back. -/
theorem settle_of_pending_isEmpty (h : t.pending.isEmpty = true) : t.settle = t.rolledBack := by
  simp only [UndoMap.isEmpty, pending, Bool.and_eq_true, Std.ExtTreeMap.isEmpty_iff] at h
  obtain ⟨⟨⟨⟨⟨⟨⟨⟨⟨h₁, h₂⟩, h₃⟩, h₄⟩, h₅⟩, h₆⟩, h₇⟩, h₈⟩, h₉⟩, h₁₀⟩ := h
  simp [settle, rolledBack, LoggedTable.settle, LoggedTable.rolledBack, h₁, h₂, h₃, h₄, h₅, h₆,
    h₇, h₈, h₉, h₁₀]

end WalletTables

/-! ## Taking one block back -/

namespace WalletStateBasic

variable {wc : WalletCrypto} {c : Currency} {s s' : WalletStateBasic} {b : ProcessedBlock}

/-- What `pop_chain` relies on: nothing is pending, undo maps belong to blocks of the chain, and
the tip is the header at its height. -/
structure Recoverable (s : WalletStateBasic) : Prop where
  settled : s.tables.Settled
  undo : ∀ height, s.undo.get height ≠ none → s.chain.get height ≠ none
  tail : s.tipHeight + 1 ≠ s.tailHeight → s.chain.get s.tailHeight ≠ none
  tip : s.chain.get (s.tipHeight + 1) = none →
    if s.tipHeight + 1 = s.tailHeight then s.tip = {} else s.chain.get s.tipHeight = some s.tip

theorem applyBlock_eq (h : s.applyBlock wc c b = .ok s') :
    ∃ (tables : WalletTables) (undo : Store Height UndoMap),
    tables.rolledBack = s.tables.rolledBack ∧ s.chain.get (s.tipHeight + 1) = none ∧
      (tables.pending.isEmpty = true ∧ undo = s.undo ∨ s.undo.get (s.tipHeight + 1) = none ∧
        undo = s.undo.put (s.tipHeight + 1) tables.pending) ∧
      s' = { s with
        tables := tables.settle
        chain := s.chain.put (s.tipHeight + 1) b.header
        undo
        tipHeight := s.tipHeight + 1
        tip := b.header } := by
  simp only [applyBlock, bind_eq_ok_iff] at h
  obtain ⟨tables, htables, h⟩ := h
  have hrolled : tables.rolledBack = s.tables.rolledBack := by
    cases hredone : b.redone with
    | none =>
      rw [hredone] at htables
      rw [Except.ok.inj htables]
    | some redone =>
      rw [hredone] at htables
      exact (WalletState.redoBlock_ends ((WalletTables.rolledBack_kept wc c _).keptAt _) b.header
        redone.1
        redone.2 rfl).of_ok htables
  simp only [pushChain, saveDbState, bind_eq_ok_iff, walletWrite_eq_ok_iff,
    Store.putNew_eq_ok_iff] at h
  obtain ⟨chain, ⟨hfree, rfl⟩, s₁, hsave, h⟩ := h
  split at hsave
  · next hempty =>
    rw [← Except.ok.inj hsave] at h
    exact ⟨tables, s.undo, hrolled, hfree, .inl ⟨hempty, rfl⟩, (Except.ok.inj h).symm⟩
  · simp only [bind_eq_ok_iff, walletWrite_eq_ok_iff, Store.putNew_eq_ok_iff] at hsave
    obtain ⟨undo, ⟨hnone, rfl⟩, hsave⟩ := hsave
    rw [← Except.ok.inj hsave] at h
    exact ⟨tables, _, hrolled, hfree, .inr ⟨hnone, rfl⟩, (Except.ok.inj h).symm⟩

theorem Recoverable.applyBlock (hs : s.Recoverable) (h : s.applyBlock wc c b = .ok s') :
    s'.Recoverable := by
  obtain ⟨tables, undo, -, hfree, hundo, rfl⟩ := applyBlock_eq h
  refine ⟨WalletTables.settle_settled _, fun height hne ↦ ?_, fun hne ↦ ?_, fun hnone ↦ ?_⟩
  · dsimp only at hne ⊢
    rw [Store.get_put]
    split
    · simp
    · next hother =>
      refine hs.undo height fun hnone ↦ hne ?_
      rcases hundo with ⟨-, rfl⟩ | ⟨-, rfl⟩
      · exact hnone
      · rw [Store.get_put_of_ne _ _ hother, hnone]
  · dsimp only
    rw [Store.get_put]
    split
    · simp
    · next hother => exact hs.tail hother
  · -- a full circle of heights has a block at the tail
    dsimp only at hnone ⊢
    have htail : s.tipHeight + 1 + 1 ≠ s.tailHeight := by
      intro heq
      rw [heq, Store.get_put] at hnone
      split at hnone
      · cases hnone
      · next hother => exact hs.tail hother hnone
    rw [if_neg htail, Store.get_put_self]

/-- A block applied and taken back leaves the state as it was; only a chain of 2^32 blocks, which
counts as empty, is not taken back. -/
theorem Recoverable.popChain_applyBlock (hs : s.Recoverable)
    (h : s.applyBlock wc c b = .ok s') :
    (s'.emptyChain = false → s'.popChain = .ok s) ∧
      (s'.emptyChain = true → ∀ s'', s'.popChain ≠ .ok s'') := by
  obtain ⟨tables, undo, hrolled, hfree, hundo, rfl⟩ := applyBlock_eq h
  constructor
  · intro hempty
    have hne : s.tipHeight + 1 + 1 ≠ s.tailHeight := by simpa [emptyChain] using hempty
    have hback : s.tipHeight + 1 - 1 = s.tipHeight := by grind
    have htables : tables.rolledBack = s.tables := hrolled.trans hs.settled.rolledBack_eq
    have hnoUndo : s.undo.get (s.tipHeight + 1) = none := by
      by_contra hne'
      exact hs.undo _ hne' hfree
    have hundone : WalletStateBasic.undoDbState (s.tipHeight + 1) { s with
          tables := tables.settle, chain := s.chain.put (s.tipHeight + 1) b.header, undo
          tipHeight := s.tipHeight + 1, tip := b.header } =
        { s with
          chain := s.chain.put (s.tipHeight + 1) b.header, tipHeight := s.tipHeight + 1
          tip := b.header } := by
      rcases hundo with ⟨hpending, rfl⟩ | ⟨-, rfl⟩
      · simp only [undoDbState, hnoUndo, WalletTables.settle_of_pending_isEmpty hpending, htables]
      · simp only [undoDbState, Store.get_put_self, WalletTables.restore_pending, htables,
          Store.remove_put s.undo tables.pending hnoUndo]
    have htip := hs.tip hfree
    simp only [popChain, bind_eq_ok_iff, throwing_eq_ok_iff, invariant_eq_ok_iff, hundone,
      walletWrite_eq_ok_iff, Store.removeExisting_eq_ok_iff, hback]
    refine ⟨(), hne, s.chain, ⟨by simp, (Store.remove_put s.chain b.header hfree).symm⟩, s.tip, ?_,
      rfl⟩
    split at htip
    · next heq => rw [if_pos heq, htip]
    · next hother => rw [if_neg hother, readChain, expect_eq_ok_iff, htip]
  · intro hempty s'' hok
    have heq : s.tipHeight + 1 + 1 = s.tailHeight := by simpa [emptyChain] using hempty
    simp only [popChain, bind_eq_ok_iff, throwing_eq_ok_iff, invariant_eq_ok_iff] at hok
    obtain ⟨-, hne, -⟩ := hok
    exact hne heq

/-! ## Taking several blocks back -/

theorem applyBlocks_cons {blocks : List ProcessedBlock} :
    s.applyBlocks wc c (b :: blocks) = .ok s' ↔
      ∃ s₁, s.applyBlock wc c b = .ok s₁ ∧ s₁.applyBlocks wc c blocks = .ok s' := by
  rw [applyBlocks, List.foldlM_cons, bind_eq_ok_iff]
  rfl

theorem applyBlocks_concat {blocks : List ProcessedBlock} :
    s.applyBlocks wc c (blocks ++ [b]) = .ok s' ↔
      ∃ s₁, s.applyBlocks wc c blocks = .ok s₁ ∧ s₁.applyBlock wc c b = .ok s' := by
  rw [applyBlocks, List.foldlM_append, bind_eq_ok_iff]
  simp only [List.foldlM_cons, List.foldlM_nil, bind_pure]
  rfl

theorem Recoverable.applyBlocks (hs : s.Recoverable) {blocks : List ProcessedBlock}
    (h : s.applyBlocks wc c blocks = .ok s') : s'.Recoverable :=
  foldlM_ok_preserves (fun _ _ _ _ hok hr ↦ hr.applyBlock hok) h hs

/-- A chain that could be lengthened was not full, so its blocks can be taken back. -/
theorem Recoverable.emptyChain_of_applyBlock {s₁ : WalletStateBasic} (hs : s.Recoverable)
    (h₁ : s.applyBlock wc c b = .ok s₁) {b' : ProcessedBlock}
    (h : s₁.applyBlock wc c b' = .ok s') : s₁.emptyChain = false := by
  have hr := hs.applyBlock h₁
  obtain ⟨_, _, -, -, -, rfl⟩ := applyBlock_eq h₁
  obtain ⟨_, _, -, hfree, -, -⟩ := applyBlock_eq h
  by_contra hempty
  have heq : s.tipHeight + 1 + 1 = s.tailHeight := by simpa [emptyChain] using hempty
  have htip := hr.tip hfree
  dsimp only at hfree
  rw [heq, Store.get_put] at hfree
  split at hfree
  · cases hfree
  · next hother => exact hs.tail hother hfree

/-- Blocks applied and taken back leave the state as it was. -/
theorem Recoverable.popBlocks_applyBlocks {blocks : List ProcessedBlock} (hs : s.Recoverable)
    (h : s.applyBlocks wc c blocks = .ok s') (hfull : blocks = [] ∨ s'.emptyChain = false) :
    s'.popBlocks blocks.length = .ok s := by
  induction blocks using List.reverseRecOn generalizing s' with
  | nil => exact h.symm
  | append_singleton blocks b ih =>
    obtain ⟨s₁, h₁, hb⟩ := applyBlocks_concat.1 h
    have hr := hs.applyBlocks h₁
    have hpop := (hr.popChain_applyBlock hb).1 (hfull.resolve_left (by simp))
    rw [List.length_append, List.length_singleton, WalletStateBasic.popBlocks, hpop]
    refine ih h₁ ?_
    rcases List.eq_nil_or_concat blocks with rfl | ⟨front, b', rfl⟩
    · exact .inl rfl
    · rw [List.concat_eq_append] at h₁
      obtain ⟨s₀, h₀, hb'⟩ := applyBlocks_concat.1 h₁
      exact .inr ((hs.applyBlocks h₀).emptyChain_of_applyBlock hb' hb)

/-! ## Runs -/

/-- A database whose chain is empty, with a tail height set. -/
def withTail (tail : Height) : WalletStateBasic where
  tailHeight := tail
  tipHeight := tail - 1

theorem recoverable_withTail (tail : Height) : (withTail tail).Recoverable := by
  have hempty : tail - 1 + 1 = tail := by grind
  refine ⟨rfl, by simp [withTail], fun hne ↦ absurd hempty hne, fun _ ↦ ?_⟩
  rw [withTail, if_pos hempty]

end WalletStateBasic

namespace WalletRun

variable {wc : WalletCrypto} {c : Currency} {tail : Height} {processed : List ProcessedBlock}
  {s : WalletStateBasic}

/-- A state is what its processed blocks make of an empty database. -/
theorem applyBlocks_eq (h : WalletRun wc c tail processed s) :
    (WalletStateBasic.withTail tail).applyBlocks wc c processed.reverse = .ok s := by
  induction h with
  | start => rfl
  | reset _ hok ih =>
    simp only [WalletStateBasic.resetChain, bind_eq_ok_iff, throwing_eq_ok_iff,
      invariant_eq_ok_iff] at hok
    obtain ⟨-, -, hok⟩ := hok
    rw [← Except.ok.inj hok, ← Except.ok.inj ih]
    rfl
  | apply b _ hok ih =>
    rw [List.reverse_cons]
    exact WalletStateBasic.applyBlocks_concat.2 ⟨_, ih, hok⟩
  | @pop tail b blocks s t _ hok ih =>
    rw [List.reverse_cons] at ih
    obtain ⟨s₁, h₁, hb⟩ := WalletStateBasic.applyBlocks_concat.1 ih
    have hr := (WalletStateBasic.recoverable_withTail tail).applyBlocks h₁
    obtain ⟨hback, hfull⟩ := hr.popChain_applyBlock hb
    cases hempty : s.emptyChain with
    | true => exact absurd hok (hfull hempty t)
    | false =>
      rw [hback hempty] at hok
      rw [h₁, hok]

theorem recoverable (h : WalletRun wc c tail processed s) : s.Recoverable :=
  (WalletStateBasic.recoverable_withTail tail).applyBlocks h.applyBlocks_eq

/-- Whatever blocks are applied to a reachable wallet database and taken back, the former one is
left; and the database is determined by the blocks that remain processed. -/
theorem reorganization_exact (h : WalletRun wc c tail processed s) :
    (∀ blocks s', s.applyBlocks wc c blocks = .ok s' →
      (blocks = [] ∨ s'.emptyChain = false → s'.popBlocks blocks.length = .ok s) ∧
      ∀ s'', s'.popBlocks blocks.length = .ok s'' → s'' = s) ∧
    ∀ s₂, WalletRun wc c tail processed s₂ → s₂ = s := by
  refine ⟨fun blocks s' happly ↦ ?_, fun s₂ h₂ ↦ ?_⟩
  · have hpop := h.recoverable.popBlocks_applyBlocks happly
    refine ⟨hpop, fun s'' hok ↦ ?_⟩
    cases blocks with
    | nil => exact (Except.ok.inj (happly.trans hok)).symm
    | cons b blocks =>
      cases hempty : s'.emptyChain with
      | false =>
        rw [hpop (.inr hempty)] at hok
        exact (Except.ok.inj hok).symm
      | true =>
        rw [List.length_cons, WalletStateBasic.popBlocks, bind_eq_ok_iff] at hok
        obtain ⟨s₁, hone, -⟩ := hok
        simp only [WalletStateBasic.popChain, bind_eq_ok_iff, throwing_eq_ok_iff,
          invariant_eq_ok_iff] at hone
        obtain ⟨-, hne, -⟩ := hone
        exact absurd (of_decide_eq_true hempty) hne
  · have heq := h₂.applyBlocks_eq
    rw [h.applyBlocks_eq] at heq
    exact (Except.ok.inj heq).symm

theorem applyBlocks_samplePaidBlock : yields
    (({} : WalletStateBasic).applyBlocks sampleWalletCrypto mainnet [samplePaidBlock])
    (fun s ↦ s.emptyChain = false ∧
      s.tables.balances.table.get "A" = some { spendable := 5000000, spendableOutputs := 1 }) =
      true := by
  decide +kernel

/-- A block that pays to the wallet, and the empty database again. -/
theorem reorganization_exact_samplePaidBlock : ∃ s' : WalletStateBasic,
    s'.tables.balances.table.get "A" = some { spendable := 5000000, spendableOutputs := 1 } ∧
      s'.popBlocks 1 = .ok {} := by
  obtain ⟨s', happly, htest⟩ := yields_iff.1 applyBlocks_samplePaidBlock
  rw [decide_eq_true_eq] at htest
  exact ⟨s', htest.2,
    ((reorganization_exact .start).1 [samplePaidBlock] s' happly).1 (.inr htest.1)⟩

end WalletRun

end Naza
