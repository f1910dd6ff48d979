import Naza.Wallet.MemoryState
import Naza.Wallet.Sync

/-!
# The pool and the payment queue of a wallet

`WalletState`: beside the database the memory state, the hashes of the node's pool and the queue of
payments, with the answers of a node and the calls of the wallet that change them.
-/

open Lib

namespace Naza

/-- A payment that is sent until a block has it.  The bytes are kept as what they are read as. -/
structure WalletState.QueueEntry where
  tx : TransactionPrefix
  removeHeight : Height := 0

/-- `in_blockchain`. -/
def WalletState.QueueEntry.inBlockchain (entry : WalletState.QueueEntry) : Bool :=
  entry.removeHeight ≠ 0

structure WalletState where
  base : WalletStateBasic := {}
  memoryState : WalletState.DeltaState := {}
  poolHashes : Store Hash Unit := ∅
  paymentQueue : Store Hash WalletState.QueueEntry := ∅
  /-- the calls of the memory state so far; nothing reads them -/
  calls : List WalletState.DeltaState.Call := []
  /-- the pool in the last answer of the node; nothing reads it -/
  answered : Store Hash TransactionPrefix := ∅
  /-- the transactions of the blocks redone since then; nothing reads them -/
  seen : List Hash := []

/-- `expected_blocks_per_day`. -/
def Currency.expectedBlocksPerDay (c : Currency) : UInt32 := 24 * 60 * 60 / c.difficultyTarget

/-- `api::nazad::SyncMemPool::Response`: the hash of an added transaction stands beside it. -/
structure SyncMemPoolResponse where
  removedHashes : List Hash := []
  added : List (Hash × TransactionPrefix) := []

/-- `on_sync_mempool3` of a node with this pool. -/
def onSyncMempool3 (pool : Store Hash TransactionPrefix) (knownHashes : List Hash) :
    SyncMemPoolResponse where
  removedHashes := knownHashes.filter fun ex ↦ pool.get ex = none
  added := pool.toList.filter fun tx ↦ tx.1 ∉ knownHashes

namespace WalletState

def WRONG_OUTPUT_REFERENCE : Int := -102
def OUTPUT_ALREADY_SPENT : Int := -103

/-- A call of the memory state. -/
def callMemory (m : DeltaState.Call) (s : WalletState) : Except WalletFault WalletState := do
  let memoryState ← throwing (s.memoryState.call m)
  return { s with memoryState, calls := s.calls ++ [m] }

/-- `remove_transaction_from_mempool`. -/
def removeTransactionFromMempool (tid : Hash) (s : WalletState) :
    Except WalletFault WalletState :=
  if s.poolHashes.get tid ≠ none then .ok s
  else
    match s.paymentQueue.get tid with
    | none => s.callMemory (.undo tid)
    | some entry => if entry.inBlockchain = false then .ok s else s.callMemory (.undo tid)

/-- A hash that the pool does not have any longer. -/
def removeFromPool (tid : Hash) (s : WalletState) : Except WalletFault WalletState :=
  if s.poolHashes.get tid ≠ none then
    removeTransactionFromMempool tid { s with poolHashes := s.poolHashes.remove tid }
  else .ok s

/-- `process_payment_queue_send_error`. -/
def processPaymentQueueSendError (c : Currency) (tid : Hash) (code : Int)
    (conflictHeight : Height) (s : WalletState) : Except WalletFault WalletState :=
  if (code = OUTPUT_ALREADY_SPENT ∨ code = WRONG_OUTPUT_REFERENCE) ∧
      conflictHeight + c.expectedBlocksPerDay < s.base.tipHeight then
    removeTransactionFromMempool tid { s with paymentQueue := s.paymentQueue.remove tid }
  else .ok s

/-- What `redo_block` does to the memory state for a transaction of a block. -/
def passTransaction (s : WalletState) (tid : Hash) : Except WalletFault WalletState := do
  let s ← removeFromPool tid { s with seen := s.seen ++ [tid] }
  s.callMemory (.undo tid)

/-- `redo_block`, for the memory state alone: it and the database do not read each other. -/
def passBlock (b : ProcessedBlock) (s : WalletState) : Except WalletFault WalletState :=
  match b.redone with
  | none => .ok s
  | some (pb, globalIndices) =>
    if globalIndices.length ≠ pb.transactions.length + 1 then .ok s
    else (pb.header.transactionHashes.take pb.transactions.length).foldlM passTransaction s

variable (wc : WalletCrypto) (c : Currency) (keys : WalletKeys)

/-- `add_transaction_to_mempool`. -/
def addTransactionToMempool (tid : Hash) (tx : TransactionPrefix) (s : WalletState) :
    Except WalletFault WalletState :=
  if s.memoryState.transactions.get tid ≠ none then .ok s
  else do
    let pwtx := PreparedWalletTransaction.make wc tx keys.viewSecretKey
    let globalIndices : List UInt32 := List.replicate tx.outputs.length 0
    match ← parseRawTransaction wc c keys s.base.tables pwtx tid globalIndices
      (s.base.tipHeight + 1) with
    | none => return s
    | some parsed =>
      let ptx := { parsed.ptx with
        blockHash := 0
        coinbase := false
        timestamp := s.base.tip.timestamp
        transfers := parsed.ptx.transfers ++ parsed.inputTransfers }
      s.callMemory (.add tid pwtx.tx ptx
        ((parsed.ptx.transfers.filter Api.Transfer.ours).flatMap Api.Transfer.outputs))

/-- `sync_with_blockchain` of an answer about the pool. -/
def syncMemPool (resp : SyncMemPoolResponse) (s : WalletState) :
    Except WalletFault WalletState := do
  let s ← resp.removedHashes.foldlM (fun s tid ↦ removeFromPool tid s) s
  resp.added.foldlM (fun s (tid, tx) ↦
    addTransactionToMempool wc c keys tid tx { s with poolHashes := s.poolHashes.put tid () }) s

/-- `add_to_payment_queue`, without the file. -/
def addToPaymentQueue (cr : Crypto) (tx : Transaction) (s : WalletState) :
    Except WalletFault WalletState := do
  let tid ← throwing (orThrow (getTransactionHash cr tx))
  if s.paymentQueue.get tid ≠ none then return s
  else
    let entry : QueueEntry := { tx := tx.toTransactionPrefix }
    match s.base.tables.transactions.table.get tid with
    | some (_, ptx) =>
      let removeHeight := ptx.blockHeight + c.expectedBlocksPerDay
      return { s with paymentQueue := s.paymentQueue.put tid { entry with removeHeight } }
    | none =>
      let s := { s with paymentQueue := s.paymentQueue.put tid entry }
      addTransactionToMempool wc c keys tid tx.toTransactionPrefix s

/-- A payment whose block is gone is sent again. -/
def resend (s : WalletState) (tid : Hash) : Except WalletFault WalletState :=
  match s.paymentQueue.get tid with
  | none => .ok s
  | some entry => addTransactionToMempool wc c keys tid entry.tx
      { s with paymentQueue := s.paymentQueue.put tid { entry with removeHeight := 0 } }

/-- A payment that a block has is kept for a day. -/
def settle (s : WalletState) (tid : Hash) : Except WalletFault WalletState :=
  match s.paymentQueue.get tid, s.base.tables.transactions.table.get tid with
  | some entry, some (_, ptx) => removeTransactionFromMempool tid
      { s with paymentQueue := s.paymentQueue.put tid { entry with
          removeHeight := ptx.blockHeight + c.expectedBlocksPerDay } }
  | _, _ => .ok s

/-- `fix_payment_queue_after_undo_redo`. -/
def fixPaymentQueueAfterUndoRedo (s : WalletState) : Except WalletFault WalletState := do
  let entries := s.paymentQueue.toList
  let hasTransaction : Hash → Bool := fun tid ↦
    (s.base.tables.transactions.table.get tid).isSome
  let removedFromBc := entries.filter fun e ↦ e.2.inBlockchain && !hasTransaction e.1
  let addedToBc := entries.filter fun e ↦ !e.2.inBlockchain && hasTransaction e.1
  let s ← (removedFromBc.map Prod.fst).foldlM (resend wc c keys) s
  let s ← (addedToBc.map Prod.fst).foldlM (settle c) s
  let old := s.paymentQueue.toList.filter fun e ↦
    1 ≤ e.2.removeHeight ∧ e.2.removeHeight ≤ s.base.tipHeight
  return { s with paymentQueue := s.paymentQueue.removeAll (old.map Prod.fst) }

/-- The loop over the blocks of an answer. -/
def redoBlocks (oldestTimestamp : Timestamp) (resp : SyncBlocksResponse) :
    ℕ → WalletState → Except WalletFault (Bool × WalletState)
  | 0, s => do
    match ← nextBlock resp s.base with
    | .inl fits => return (fits, s)
    | .inr _ => .error (.exception .diverged)
  | fuel + 1, s => do
    match ← nextBlock resp s.base with
    | .inl fits => return (fits, s)
    | .inr b =>
      let b := processed wc c keys oldestTimestamp (s.base.tipHeight + 1) b
      let s ← s.passBlock b
      let base ← s.base.applyBlock wc c b
      redoBlocks oldestTimestamp resp fuel { s with base }

/-- `sync_with_blockchain` of an answer with blocks: whether it fitted, and the wallet after it. -/
def syncBlocks (oldestTimestamp : Timestamp) (resp : SyncBlocksResponse) (s : WalletState) :
    Except WalletFault (Bool × WalletState) :=
  if resp.blocks = [] then .ok (true, s)
  else do
    let base ← s.base.popWhile
      (fun w ↦ resp.startHeight.toNat + resp.blocks.length - 1 < w.tipHeight.toNat)
      s.base.chainLength
    let (fits, base) ← base.popDiffering resp base.chainLength
    if fits = false then return (false, { s with base })
    else do
      let base ← (if base.tipHeight < resp.startHeight then
          base.popWhile (fun _ ↦ true) base.chainLength
        else .ok base)
      let base ← (if base.emptyChain = true then base.resetChain resp.startHeight else .ok base)
      let (fits, s) ← redoBlocks wc c keys oldestTimestamp resp resp.blocks.length { s with base }
      if fits = false then return (false, s)
      else do
        let base ← s.base.fixEmptyChain c
        let s ← fixPaymentQueueAfterUndoRedo wc c keys { s with base }
        return (true, s)

/-! ## Runs -/

inductive Event where
  /-- the node with this pool answers to the hashes that the wallet knows -/
  | memPool (keys : WalletKeys) (pool : Store Hash TransactionPrefix)
  | queue (keys : WalletKeys) (tx : Transaction)
  | sendError (tid : Hash) (code : Int) (conflictHeight : Height)
  | blocks (keys : WalletKeys) (oldestTimestamp : Timestamp) (resp : SyncBlocksResponse)

/-- One event. -/
def step (cr : Crypto) (s : WalletState) (e : Event) : Except WalletFault WalletState :=
  match e with
  | .memPool keys pool => do
    let knownHashes := s.poolHashes.toList.map Prod.fst
    let s ← s.syncMemPool wc c keys (onSyncMempool3 pool knownHashes)
    return { s with answered := pool, seen := [] }
  | .queue keys tx => s.addToPaymentQueue wc c keys cr tx
  | .sendError tid code conflictHeight => s.processPaymentQueueSendError c tid code conflictHeight
  | .blocks keys oldestTimestamp resp => do
    let (_, s) ← s.syncBlocks wc c keys oldestTimestamp resp
    return s

/-- A wallet with a database, after some events. -/
def run (cr : Crypto) (base : WalletStateBasic) (events : List Event) :
    Except WalletFault WalletState := events.foldlM (step wc c cr) { base }

/-! ## Which transactions the memory state has -/

section Invariant

variable {wc : WalletCrypto} {c : Currency} {cr : Crypto} {keys : WalletKeys}
  {s s' : WalletState} {tid tid' : Hash} {p q : Hash → Prop}

/-- The transaction is in the pool of the node, or a payment that no block has. -/
def Held (s : WalletState) (tid : Hash) : Prop :=
  s.poolHashes.get tid ≠ none ∨
    ∃ entry, s.paymentQueue.get tid = some entry ∧ entry.inBlockchain = false

/-- The pool that the wallet knows is that of the last answer without the transactions of later
blocks. -/
def KnowsPool (s : WalletState) : Prop :=
  ∀ tid, s.poolHashes.get tid ≠ none ↔ s.answered.get tid ≠ none ∧ tid ∉ s.seen

/-- The memory state is what its calls make of an empty one, with transactions of one kind. -/
structure Keeps (p : Hash → Prop) (s : WalletState) : Prop where
  replay : DeltaState.replay s.calls = .ok s.memoryState
  has : ∀ tid, s.memoryState.transactions.get tid ≠ none → p tid

/-- The invariant of a wallet. -/
structure Sound (s : WalletState) : Prop where
  keeps : Keeps s.Held s
  pool : s.KnowsPool

/-- Nothing but the memory state changes. -/
def Called (s s' : WalletState) : Prop :=
  s' = { s with memoryState := s'.memoryState, calls := s'.calls }

/-- What holds of a result. -/
def Gives {α : Type} (Q : α → Prop) (x : Except WalletFault α) : Prop := Ends Q (fun _ ↦ False) x

theorem gives_true {α : Type} (x : Except WalletFault α) : Gives (fun _ ↦ True) x := by
  cases x with
  | ok a => trivial
  | error f => exact not_false

theorem Gives.bind {α β : Type} {Q : α → Prop} {R : β → Prop} {x : Except WalletFault α}
    {f : α → Except WalletFault β} (hx : Gives Q x) (hf : ∀ a, Q a → Gives R (f a)) :
    Gives R (x >>= f) := Ends.bind hx hf

theorem Called.held (h : Called s s') : s'.Held = s.Held := by
  rw [h]
  rfl

theorem Called.sound (h : Called s s') (hkeeps : Keeps s.Held s') (hpool : s.KnowsPool) :
    Sound s' := by
  refine ⟨h.held ▸ hkeeps, ?_⟩
  rw [h]
  exact hpool

/-! ### Calls -/

theorem transactions_add {d d' : DeltaState} {tx : TransactionPrefix} {ptx : Api.Transaction}
    {outputs : List Api.Output} (h : d.call (.add tid tx ptx outputs) = .ok d') :
    d'.transactions = d.transactions.put tid (tx, ptx) := by
  have hfold : ∀ (outputs : List Api.Output) (d : DeltaState),
      (outputs.foldl (fun d output ↦ d.addIncomingOutput output) d).transactions =
        d.transactions := by
    intro outputs
    induction outputs with
    | nil => exact fun d ↦ rfl
    | cons output outputs ih => exact fun d ↦ ih (d.addIncomingOutput output)
  change (outputs.foldl (fun d output ↦ d.addIncomingOutput output) d).addTransaction tid tx ptx =
    .ok d' at h
  unfold DeltaState.addTransaction invariant at h
  split at h
  · obtain rfl := Except.ok.inj h
    exact congrArg (fun transactions ↦ transactions.put tid (tx, ptx)) (hfold outputs d)
  · cases h

theorem transactions_undo {d d' : DeltaState} (h : d.call (.undo tid) = .ok d') :
    d'.transactions = d.transactions.remove tid := by
  change d.undoTransaction tid = .ok d' at h
  unfold DeltaState.undoTransaction at h
  split at h
  · next hnone =>
    obtain rfl := Except.ok.inj h
    exact (DeltaState.remove_of_get_none hnone).symm
  · next tx ptx hget =>
    cases hrelease : tx.keyImages.foldlM DeltaState.releaseKeyimage d.usedKeyimages with
    | error f =>
      rw [hrelease] at h
      cases h
    | ok used =>
      rw [hrelease] at h
      obtain rfl := Except.ok.inj h
      rfl

theorem gives_callMemory {m : DeltaState.Call} (h : Keeps p s)
    (hm : ∀ d, s.memoryState.call m = .ok d → ∀ tid, d.transactions.get tid ≠ none → q tid) :
    Gives (fun s' ↦ Keeps q s' ∧ Called s s') (s.callMemory m) := by
  unfold callMemory
  cases hcall : s.memoryState.call m with
  | error f => exact not_false
  | ok d => exact ⟨⟨(DeltaState.replay_snoc h.replay).trans hcall, hm d hcall⟩, rfl⟩

theorem gives_callMemory_add {tx : TransactionPrefix} {ptx : Api.Transaction}
    {outputs : List Api.Output} (h : Keeps p s) (hp : p tid) :
    Gives (fun s' ↦ Keeps p s' ∧ Called s s') (s.callMemory (.add tid tx ptx outputs)) := by
  refine gives_callMemory h fun d hcall a ha ↦ ?_
  rw [transactions_add hcall, Store.get_put] at ha
  split at ha
  · next htid => exact htid ▸ hp
  · exact h.has a ha

theorem gives_callMemory_undo (h : Keeps p s) (hpq : ∀ a, p a → a ≠ tid → q a) :
    Gives (fun s' ↦ Keeps q s' ∧ Called s s') (s.callMemory (.undo tid)) := by
  refine gives_callMemory h fun d hcall a ha ↦ ?_
  rw [transactions_undo hcall, Store.get_remove] at ha
  split at ha
  · exact absurd rfl ha
  · next htid => exact hpq a (h.has a ha) (Ne.symm htid)

/-- A transaction that nothing holds any longer leaves the memory state. -/
theorem gives_removeTransactionFromMempool (h : Keeps (fun a ↦ a = tid ∨ s.Held a) s) :
    Gives (fun s' ↦ Keeps s.Held s' ∧ Called s s') (removeTransactionFromMempool tid s) := by
  have hstays : s.Held tid → Keeps s.Held s := by
    refine fun hheld ↦ ⟨h.replay, fun a ha ↦ ?_⟩
    rcases h.has a ha with rfl | ha
    · exact hheld
    · exact ha
  have hundone := gives_callMemory_undo h fun a ha (hne : a ≠ tid) ↦ ha.resolve_left hne
  unfold removeTransactionFromMempool
  split
  · next hpool => exact ⟨hstays (Or.inl hpool), rfl⟩
  · split
    · exact hundone
    · next entry hentry =>
      split
      · next hwaits => exact ⟨hstays (Or.inr ⟨entry, hentry, hwaits⟩), rfl⟩
      · exact hundone

theorem gives_addTransactionToMempool {tx : TransactionPrefix} (h : Keeps s.Held s)
    (hheld : s.Held tid) : Gives (fun s' ↦ Keeps s.Held s' ∧ Called s s')
      (addTransactionToMempool wc c keys tid tx s) := by
  unfold addTransactionToMempool
  split
  · exact ⟨h, rfl⟩
  · refine (gives_true _).bind fun parsed _ ↦ ?_
    cases parsed with
    | none => exact ⟨h, rfl⟩
    | some parsed => exact gives_callMemory_add h hheld

/-! ### The pool -/

theorem gives_removeFromPool (h : Keeps s.Held s) :
    Gives (fun s' ↦ Keeps s'.Held s' ∧ (s'.answered = s.answered ∧ s'.seen = s.seen) ∧
      ∀ a, s'.poolHashes.get a ≠ none ↔ s.poolHashes.get a ≠ none ∧ a ≠ tid)
      (removeFromPool tid s) := by
  unfold removeFromPool
  split
  · have hafter : Keeps (fun a ↦ a = tid ∨
        ({ s with poolHashes := s.poolHashes.remove tid } : WalletState).Held a)
        { s with poolHashes := s.poolHashes.remove tid } := by
      refine ⟨h.replay, fun a ha ↦ ?_⟩
      by_cases hne : a = tid
      · exact Or.inl hne
      · rcases h.has a ha with hpool | hqueue
        · refine Or.inr (Or.inl ?_)
          change (s.poolHashes.remove tid).get a ≠ none
          rwa [Store.get_remove_of_ne _ (Ne.symm hne)]
        · exact Or.inr (Or.inr hqueue)
    refine Ends.mono (gives_removeTransactionFromMempool hafter) fun s' hgiven ↦ ?_
    obtain ⟨hkeeps, hcalled⟩ := hgiven
    refine ⟨hcalled.held ▸ hkeeps, ?_, fun a ↦ ?_⟩
    · rw [hcalled]
      exact ⟨rfl, rfl⟩
    · rw [hcalled]
      change (s.poolHashes.remove tid).get a ≠ none ↔ _
      rw [Store.get_remove]
      split
      · next hne => exact iff_of_false (fun hnone ↦ hnone rfl) fun hand ↦ hand.2 hne.symm
      · next hne => exact (and_iff_left (Ne.symm hne)).symm
  · next hnone =>
    refine ⟨h, ⟨rfl, rfl⟩, fun a ↦ ?_⟩
    refine ⟨fun ha ↦ ⟨ha, ?_⟩, And.left⟩
    rintro rfl
    exact hnone ha

theorem gives_passTransaction (h : Sound s) : Gives Sound (passTransaction s tid) := by
  have hkeeps : Keeps ({ s with seen := s.seen ++ [tid] } : WalletState).Held
      { s with seen := s.seen ++ [tid] } := ⟨h.keeps.replay, h.keeps.has⟩
  unfold passTransaction
  refine (gives_removeFromPool hkeeps).bind fun s₁ ⟨h₁, ⟨hanswered, hseen⟩, hpool⟩ ↦ ?_
  have hundone : Gives (fun s₂ ↦ Keeps s₁.Held s₂ ∧ Called s₁ s₂) (s₁.callMemory (.undo tid)) :=
    gives_callMemory_undo h₁ fun a ha _ ↦ ha
  refine Ends.mono hundone fun s₂ ⟨h₂, hcalled⟩ ↦ hcalled.sound h₂ fun a ↦ ?_
  rw [hpool, hanswered, hseen, List.mem_append, List.mem_singleton, not_or]
  have hbefore := h.pool a
  exact ⟨fun ⟨ha, hne⟩ ↦ ⟨(hbefore.1 ha).1, (hbefore.1 ha).2, hne⟩,
    fun ⟨ha, hnot, hne⟩ ↦ ⟨hbefore.2 ⟨ha, hnot⟩, hne⟩⟩

theorem gives_passBlock (h : Sound s) (b : ProcessedBlock) : Gives Sound (passBlock b s) := by
  unfold passBlock
  split
  · exact h
  · split
    · exact h
    · exact Ends.foldlM (fun s hs tid _ ↦ gives_passTransaction hs) h

/-- The hashes that the pool has lost are taken away. -/
theorem gives_removeAllFromPool (removed : List Hash) (h : Keeps s.Held s) :
    Gives (fun s' ↦ Keeps s'.Held s' ∧
      ∀ a, s'.poolHashes.get a ≠ none ↔ s.poolHashes.get a ≠ none ∧ a ∉ removed)
      (removed.foldlM (fun s tid ↦ removeFromPool tid s) s) := by
  induction removed generalizing s with
  | nil => exact ⟨h, fun a ↦ (and_iff_left List.not_mem_nil).symm⟩
  | cons tid removed ih =>
    rw [List.foldlM_cons]
    refine (gives_removeFromPool h).bind fun s₁ ⟨h₁, _, hpool₁⟩ ↦ ?_
    refine Ends.mono (ih h₁) fun s' ⟨h', hpool'⟩ ↦ ⟨h', fun a ↦ ?_⟩
    rw [hpool', hpool₁, List.mem_cons, not_or, and_assoc]

/-- The hashes that are new in the pool are put to it. -/
theorem gives_addAllToPool (added : List (Hash × TransactionPrefix)) (h : Keeps s.Held s) :
    Gives (fun s' ↦ Keeps s'.Held s' ∧
      ∀ a, s'.poolHashes.get a ≠ none ↔ s.poolHashes.get a ≠ none ∨ a ∈ added.map Prod.fst)
      (added.foldlM (fun s (tid, tx) ↦ addTransactionToMempool wc c keys tid tx
        { s with poolHashes := s.poolHashes.put tid () }) s) := by
  induction added generalizing s with
  | nil => exact ⟨h, fun a ↦ (or_iff_left List.not_mem_nil).symm⟩
  | cons e added ih =>
    obtain ⟨tid, tx⟩ := e
    have hget : ∀ a, (s.poolHashes.put tid ()).get a ≠ none ↔
        s.poolHashes.get a ≠ none ∨ a = tid := by
      intro a
      rw [Store.get_put]
      split
      · next ha => exact iff_of_true (Option.some_ne_none _) (Or.inr ha.symm)
      · next ha => exact (or_iff_left (Ne.symm ha)).symm
    have hput : Keeps ({ s with poolHashes := s.poolHashes.put tid () } : WalletState).Held
        { s with poolHashes := s.poolHashes.put tid () } := by
      refine ⟨h.replay, fun a ha ↦ ?_⟩
      rcases h.has a ha with hpool | hqueue
      · exact Or.inl ((hget a).2 (Or.inl hpool))
      · exact Or.inr hqueue
    rw [List.foldlM_cons]
    refine (gives_addTransactionToMempool hput (Or.inl ((hget tid).2 (Or.inr rfl)))).bind
      fun s₁ ⟨h₁, hcalled⟩ ↦ ?_
    refine Ends.mono (ih (hcalled.held ▸ h₁)) fun s' ⟨h', hpool'⟩ ↦ ⟨h', fun a ↦ ?_⟩
    rw [hpool', hcalled]
    change ((s.poolHashes.put tid ()).get a ≠ none ∨ _) ↔ _
    rw [hget, List.map_cons, List.mem_cons, or_assoc]

/-- After an answer the wallet knows the pool of the node. -/
theorem gives_syncMemPool (h : Keeps s.Held s) (pool : Store Hash TransactionPrefix) :
    Gives (fun s' ↦ Keeps s'.Held s' ∧ ∀ a, s'.poolHashes.get a ≠ none ↔ pool.get a ≠ none)
      (s.syncMemPool wc c keys (onSyncMempool3 pool (s.poolHashes.toList.map Prod.fst))) := by
  have hknown : ∀ a, a ∈ s.poolHashes.toList.map Prod.fst ↔ s.poolHashes.get a ≠ none := by
    intro a
    constructor
    · intro hmem
      obtain ⟨⟨tid, u⟩, hentry, rfl⟩ := List.mem_map.1 hmem
      rw [Store.mem_toList_iff.1 hentry]
      exact Option.some_ne_none u
    · intro hget
      obtain ⟨u, hu⟩ := Option.ne_none_iff_exists'.1 hget
      exact List.mem_map.2 ⟨(a, u), Store.mem_toList_iff.2 hu, rfl⟩
  unfold syncMemPool onSyncMempool3
  refine (gives_removeAllFromPool _ h).bind fun s₁ ⟨h₁, hpool₁⟩ ↦ ?_
  refine Ends.mono (gives_addAllToPool _ h₁) fun s' ⟨h', hpool'⟩ ↦ ⟨h', fun a ↦ ?_⟩
  rw [hpool', hpool₁, List.mem_filter, hknown]
  have hadded : a ∈ (pool.toList.filter fun tx ↦
      tx.1 ∉ s.poolHashes.toList.map Prod.fst).map Prod.fst ↔
      pool.get a ≠ none ∧ ¬ s.poolHashes.get a ≠ none := by
    rw [← hknown a]
    constructor
    · intro hmem
      obtain ⟨⟨tid, tx⟩, hentry, rfl⟩ := List.mem_map.1 hmem
      obtain ⟨hentry, hnew⟩ := List.mem_filter.1 hentry
      rw [Store.mem_toList_iff.1 hentry]
      exact ⟨Option.some_ne_none tx, of_decide_eq_true hnew⟩
    · intro ⟨hget, hnew⟩
      obtain ⟨tx, htx⟩ := Option.ne_none_iff_exists'.1 hget
      exact List.mem_map.2 ⟨(a, tx), List.mem_filter.2
        ⟨Store.mem_toList_iff.2 htx, decide_eq_true hnew⟩, rfl⟩
  rw [hadded, decide_eq_true_iff]
  by_cases hpool : pool.get a = none
  · simp [hpool]
  · by_cases hget : s.poolHashes.get a = none
    · simp [hpool, hget]
    · simp [hpool, hget]

/-! ### The payment queue -/

theorem held_put {entry : QueueEntry} (hne : tid ≠ tid') (h : s.Held tid) :
    ({ s with paymentQueue := s.paymentQueue.put tid' entry } : WalletState).Held tid := by
  rcases h with hpool | ⟨e, he, hwaits⟩
  · exact Or.inl hpool
  · refine Or.inr ⟨e, ?_, hwaits⟩
    change (s.paymentQueue.put tid' entry).get tid = some e
    rwa [Store.get_put_of_ne _ _ (Ne.symm hne)]

/-- An entry that no block has holds its transaction. -/
theorem gives_queued (h : Sound s) {entry : QueueEntry} (hwaits : entry.inBlockchain = false)
    (tx : TransactionPrefix) : Gives Sound (addTransactionToMempool wc c keys tid tx
      { s with paymentQueue := s.paymentQueue.put tid entry }) := by
  have hheld : ({ s with paymentQueue := s.paymentQueue.put tid entry } : WalletState).Held tid :=
    Or.inr ⟨entry, Store.get_put_self _ _ _, hwaits⟩
  have hkeeps : Keeps ({ s with paymentQueue := s.paymentQueue.put tid entry } : WalletState).Held
      { s with paymentQueue := s.paymentQueue.put tid entry } := by
    refine ⟨h.keeps.replay, fun a ha ↦ ?_⟩
    by_cases hne : a = tid
    · exact hne ▸ hheld
    · exact held_put hne (h.keeps.has a ha)
  exact Ends.mono (gives_addTransactionToMempool hkeeps hheld)
    fun s' ⟨h', hcalled⟩ ↦ hcalled.sound h' h.pool

theorem gives_resend (h : Sound s) (tid : Hash) : Gives Sound (resend wc c keys s tid) := by
  unfold resend
  split
  · exact h
  · exact gives_queued h rfl _

theorem gives_settle (h : Sound s) (tid : Hash) : Gives Sound (settle c s tid) := by
  unfold settle
  split
  · next entry tx ptx _ _ =>
    have hkeeps : ∀ entry, Keeps (fun a ↦ a = tid ∨
        ({ s with paymentQueue := s.paymentQueue.put tid entry } : WalletState).Held a)
        { s with paymentQueue := s.paymentQueue.put tid entry } := by
      refine fun entry ↦ ⟨h.keeps.replay, fun a ha ↦ ?_⟩
      by_cases hne : a = tid
      · exact Or.inl hne
      · exact Or.inr (held_put hne (h.keeps.has a ha))
    exact Ends.mono (gives_removeTransactionFromMempool (hkeeps _))
      fun s' ⟨h', hcalled⟩ ↦ hcalled.sound h' h.pool
  · exact h

/-- Payments that a block has are dropped. -/
theorem Sound.expire (h : Sound s) (tids : List Hash)
    (hold : ∀ tid ∈ tids, ∀ entry, s.paymentQueue.get tid = some entry →
      entry.inBlockchain = true) :
    Sound { s with paymentQueue := s.paymentQueue.removeAll tids } := by
  refine ⟨⟨h.keeps.replay, fun a ha ↦ ?_⟩, h.pool⟩
  rcases h.keeps.has a ha with hpool | ⟨entry, hentry, hwaits⟩
  · exact Or.inl hpool
  · refine Or.inr ⟨entry, ?_, hwaits⟩
    change (s.paymentQueue.removeAll tids).get a = some entry
    rw [Store.get_removeAll, if_neg, hentry]
    intro hmem
    rw [hold a hmem entry hentry] at hwaits
    cases hwaits

theorem gives_fixPaymentQueueAfterUndoRedo (h : Sound s) :
    Gives Sound (fixPaymentQueueAfterUndoRedo wc c keys s) := by
  unfold fixPaymentQueueAfterUndoRedo
  dsimp only
  have hresent : ∀ tids : List Hash, Gives Sound (tids.foldlM (resend wc c keys) s) :=
    fun tids ↦ Ends.foldlM (fun s hs tid _ ↦ gives_resend hs tid) h
  refine (hresent _).bind fun s₁ h₁ ↦ ?_
  have hsettled : ∀ tids : List Hash, Gives Sound (tids.foldlM (settle c) s₁) :=
    fun tids ↦ Ends.foldlM (fun s hs tid _ ↦ gives_settle hs tid) h₁
  refine (hsettled _).bind fun s₂ h₂ ↦ h₂.expire _ fun tid hmem entry hentry ↦ ?_
  obtain ⟨⟨a, e⟩, he, rfl⟩ := List.mem_map.1 hmem
  obtain ⟨he, hold⟩ := List.mem_filter.1 he
  rw [Store.mem_toList_iff.1 he] at hentry
  obtain rfl := Option.some.inj hentry
  obtain ⟨hone, _⟩ := of_decide_eq_true hold
  refine decide_eq_true fun hzero ↦ ?_
  dsimp only at hone
  rw [hzero] at hone
  exact absurd hone (by decide)

theorem gives_addToPaymentQueue (h : Sound s) (tx : Transaction) :
    Gives Sound (s.addToPaymentQueue wc c keys cr tx) := by
  unfold addToPaymentQueue
  refine (gives_true _).bind fun tid _ ↦ ?_
  split
  · exact h
  · next hnew =>
    have hnone : s.paymentQueue.get tid = none := not_not.1 hnew
    dsimp only
    split
    · refine ⟨⟨h.keeps.replay, fun a ha ↦ ?_⟩, h.pool⟩
      rcases h.keeps.has a ha with hpool | ⟨entry, hentry, hwaits⟩
      · exact Or.inl hpool
      · refine held_put ?_ (Or.inr ⟨entry, hentry, hwaits⟩)
        rintro rfl
        rw [hnone] at hentry
        cases hentry
    · exact gives_queued h rfl _

theorem gives_processPaymentQueueSendError (h : Sound s) (tid : Hash) (code : Int)
    (conflictHeight : Height) :
    Gives Sound (s.processPaymentQueueSendError c tid code conflictHeight) := by
  unfold processPaymentQueueSendError
  split
  · have hkeeps : Keeps (fun a ↦ a = tid ∨
        ({ s with paymentQueue := s.paymentQueue.remove tid } : WalletState).Held a)
        { s with paymentQueue := s.paymentQueue.remove tid } := by
      refine ⟨h.keeps.replay, fun a ha ↦ ?_⟩
      by_cases hne : a = tid
      · exact Or.inl hne
      · rcases h.keeps.has a ha with hpool | ⟨entry, hentry, hwaits⟩
        · exact Or.inr (Or.inl hpool)
        · refine Or.inr (Or.inr ⟨entry, ?_, hwaits⟩)
          change (s.paymentQueue.remove tid).get a = some entry
          rwa [Store.get_remove_of_ne _ (Ne.symm hne)]
    refine Ends.mono (gives_removeTransactionFromMempool hkeeps) fun s' hgiven ↦ ?_
    exact hgiven.2.sound hgiven.1 h.pool
  · exact h

/-! ### Blocks -/

theorem Sound.withBase (h : Sound s) (base : WalletStateBasic) : Sound { s with base } :=
  ⟨⟨h.keeps.replay, h.keeps.has⟩, h.pool⟩

theorem gives_redoBlocks {oldestTimestamp : Timestamp} {resp : SyncBlocksResponse} {fuel : ℕ}
    (h : Sound s) :
    Gives (fun r ↦ Sound r.2) (redoBlocks wc c keys oldestTimestamp resp fuel s) := by
  induction fuel generalizing s with
  | zero =>
    rw [redoBlocks]
    refine (gives_true _).bind fun next _ ↦ ?_
    cases next with
    | inl fits => exact h
    | inr b => exact not_false
  | succ fuel ih =>
    rw [redoBlocks]
    refine (gives_true _).bind fun next _ ↦ ?_
    cases next with
    | inl fits => exact h
    | inr b =>
      refine (gives_passBlock h _).bind fun s₁ h₁ ↦ ?_
      exact (gives_true _).bind fun base _ ↦ ih (h₁.withBase base)

theorem gives_syncBlocks {oldestTimestamp : Timestamp} {resp : SyncBlocksResponse}
    (h : Sound s) :
    Gives (fun r ↦ Sound r.2) (s.syncBlocks wc c keys oldestTimestamp resp) := by
  unfold syncBlocks
  split
  · exact h
  · refine (gives_true _).bind fun base _ ↦ (gives_true _).bind fun r _ ↦ ?_
    obtain ⟨fits, base⟩ := r
    dsimp only
    split
    · exact h.withBase base
    · refine (gives_true _).bind fun base _ ↦ (gives_true _).bind fun base _ ↦ ?_
      refine (gives_redoBlocks (h.withBase base)).bind fun r hr ↦ ?_
      obtain ⟨fits, s₁⟩ := r
      dsimp only
      split
      · exact hr
      · refine (gives_true _).bind fun base _ ↦ ?_
        exact (gives_fixPaymentQueueAfterUndoRedo (Sound.withBase hr base)).bind fun s₂ h₂ ↦ h₂

/-! ### Runs -/

theorem gives_step (h : Sound s) (e : Event) : Gives Sound (step wc c cr s e) := by
  cases e with
  | memPool keys pool =>
    refine (gives_syncMemPool h.keeps pool).bind fun s' ⟨h', hpool⟩ ↦ ?_
    refine ⟨⟨h'.replay, h'.has⟩, fun a ↦ ?_⟩
    exact (hpool a).trans (and_iff_left List.not_mem_nil).symm
  | queue keys tx => exact gives_addToPaymentQueue h tx
  | sendError tid code conflictHeight => exact gives_processPaymentQueueSendError h tid _ _
  | blocks keys oldestTimestamp resp => exact (gives_syncBlocks h).bind fun r hr ↦ hr

theorem run_sound {base : WalletStateBasic} {events : List Event}
    (h : run wc c cr base events = .ok s) : Sound s := by
  have hstart : Sound ({ base } : WalletState) := by
    refine ⟨⟨rfl, fun a ha ↦ absurd (Store.get_empty a) ha⟩, fun a ↦ ?_⟩
    exact iff_of_false (fun ha ↦ ha (Store.get_empty a)) fun ha ↦ ha.1 (Store.get_empty a)
  have hrun : Gives Sound (run wc c cr base events) :=
    Ends.foldlM (fun s hs e _ ↦ gives_step hs e) hstart
  exact Ends.of_ok hrun h

end Invariant

/-! ## Exact wallets -/

/-- Every transaction of the memory state is held, the pool is known, and after every call so far
outputs and key images were the sum of what the transactions then present had added. -/
structure Exact (s : WalletState) : Prop where
  held : ∀ tid, s.memoryState.transactions.get tid ≠ none → s.Held tid
  pool : s.KnowsPool
  replay : DeltaState.replay s.calls = .ok s.memoryState
  sums : ∀ calls, calls <+: s.calls → ∀ d, DeltaState.replay calls = .ok d →
    DeltaState.Summed calls d

/-- A wallet is exact over a run if and only if every undo of a transaction finds, first among the
outputs of a key and an amount, those that the transaction itself added. -/
theorem exact_iff (wc : WalletCrypto) (c : Currency) (cr : Crypto) (base : WalletStateBasic)
    (events : List Event) :
    (∀ s, run wc c cr base events = .ok s → Exact s) ↔
    ∀ s, run wc c cr base events = .ok s → ∀ calls tid, calls ++ [.undo tid] <+: s.calls →
      ∀ d, DeltaState.replay calls = .ok d → DeltaState.FindsOwn calls tid d := by
  constructor
  · intro h s hrun
    exact (DeltaState.summed_throughout_iff (h s hrun).replay).1 (h s hrun).sums
  · intro h s hrun
    have hsound := run_sound hrun
    have hsums := (DeltaState.summed_throughout_iff hsound.keeps.replay).2 (h s hrun)
    exact ⟨hsound.keeps.has, hsound.pool, hsound.keeps.replay, hsums⟩

/-- A payment to the wallet, and one whose first output copies the output key of the other. -/
def sampleNodePool : Store Hash TransactionPrefix :=
  ((∅ : Store Hash TransactionPrefix).put 1
    (samplePayment 7 0 [{ amount := 6000000, outputIndexes := [1], keyImage := 21 }]
      [(5000000, 5)])).put 2
    (samplePayment 8 0 [{ amount := 6000000, outputIndexes := [2], keyImage := 22 }]
      [(5000000, 705 - 800), (3, 5)])

/-- The second payment comes and goes. -/
def samplePoolEvents : List Event :=
  [.memPool sampleKeys sampleNodePool, .memPool sampleKeys (sampleNodePool.remove 2)]

/-- With the copy the output of the first payment is gone. -/
theorem not_summed : ¬ ∀ (events : List Event) (s : WalletState),
    run sampleWalletCrypto mainnet sampleCrypto {} events = .ok s →
      (∀ tid, s.memoryState.transactions.get tid ≠ none → s.Held tid) ∧ s.KnowsPool ∧
        DeltaState.Summed s.calls s.memoryState := by
  intro h
  have hrun : yields (run sampleWalletCrypto mainnet sampleCrypto {} samplePoolEvents) (fun s ↦
      DeltaState.outputsAt s.memoryState.unspents 705 = [] ∧
        ((DeltaState.contributed s.calls).get 1).map (List.map Api.Output.publicKey) =
          some [705]) = true := by decide +kernel
  obtain ⟨s, hrun, htest⟩ := yields_iff.1 hrun
  obtain ⟨hempty, hadded⟩ := of_decide_eq_true htest
  obtain ⟨own, hown, hkeys⟩ := Option.map_eq_some_iff.1 hadded
  obtain ⟨o, rest, rfl, hkey, _⟩ := List.map_eq_cons_iff.1 hkeys
  have hsum := (h samplePoolEvents s hrun).2.2.unspents o
  rw [hkey, hempty, Store.total_remove _ _ hown, List.count_cons_self] at hsum
  rw [List.count_nil] at hsum
  omega

end WalletState

end Naza
