import Naza.Frames

/-!
# The indices of blocks

What indexing a block writes into the timestamp and transaction indices, and that unindexing it
erases the same keys.
-/

open Lib

namespace Naza

variable {cr : Crypto}

/-! ## Entries -/

/-- The position of a transaction in its block, searched for behind the position before it. -/
def positionAfter (blockData binaryTx : BinaryArray) (tpos : TransactionPos) : TransactionPos :=
  let start := tpos.offset.toNat + tpos.size.toNat
  { tpos with
    offset := UInt32.ofNat (start + (slowMemmem binaryTx (blockData.drop start)).getD 0)
    size := UInt32.ofNat binaryTx.length }

/-- The entries of the transactions of a block, the next one having index `index`. -/
def transactionEntries (blockData : BinaryArray) : ℕ → List Transaction → List Hash →
    List BinaryArray → TransactionPos → List (Hash × TransactionPos)
  | index, _ :: txs, tid :: tids, binaryTx :: raws, tpos =>
    let tpos := positionAfter blockData binaryTx { tpos with index := UInt32.ofNat index }
    (tid, tpos) :: transactionEntries blockData (index + 1) txs tids raws tpos
  | _, _, _, _, _ => []

/-- The entries of a block, the coinbase first. -/
def blockEntries (blockData : BinaryArray) (raw : RawBlock) (block : Block) (height : Height)
    (baseTransactionHash : Hash) : List (Hash × TransactionPos) :=
  let coinbase := (Seria.transactionToBinary block.header.baseTransaction).getD []
  let tpos := positionAfter blockData coinbase { height }
  (baseTransactionHash, tpos) :: transactionEntries blockData 1 block.transactions
    block.header.transactionHashes raw.transactions tpos

/-- The keys of the entries of a block. -/
def blockKeys (block : Block) (baseTransactionHash : Hash) : List Hash :=
  baseTransactionHash ::
    (block.transactions.zip block.header.transactionHashes).map Prod.snd

namespace State

variable {s s' : State}

/-! ## Indexing -/

theorem indexTransaction_eq {blockData : BinaryArray} {tid : Hash} {binaryTx : BinaryArray}
    {text : String} {tpos tpos' : TransactionPos}
    (h : s.indexTransaction blockData tid binaryTx text tpos = .ok (tpos', s')) :
    tpos' = positionAfter blockData binaryTx tpos ∧ s.db.transactions.get tid = none ∧
      s' = { s with db := { s.db with transactions := s.db.transactions.put tid tpos' } } := by
  simp only [indexTransaction, bind_eq_ok_iff, expect_eq_ok_iff, dbWrite_eq_ok_iff,
    Store.putNew_eq_ok_iff] at h
  obtain ⟨position, hposition, transactions, ⟨hnone, rfl⟩, h⟩ := h
  have h := Prod.mk.inj (Except.ok.inj h)
  have htpos : tpos' = positionAfter blockData binaryTx tpos := by
    rw [← h.1]
    simp only [positionAfter, hposition, Option.getD_some]
  exact ⟨htpos, hnone, by rw [← h.2, ← h.1]⟩

theorem indexTransactions_eq {blockData : BinaryArray} {index : ℕ} {txs : List Transaction}
    {tids : List Hash} {raws : List BinaryArray} {tpos : TransactionPos}
    (h : s.indexTransactions blockData index txs tids raws tpos = .ok s') :
    txs.length ≤ tids.length ∧
      (transactionEntries blockData index txs tids raws tpos).map Prod.fst =
        (txs.zip tids).map Prod.snd ∧
      (∀ k ∈ (txs.zip tids).map Prod.snd, s.db.transactions.get k = none) ∧
      ((txs.zip tids).map Prod.snd).Nodup ∧
      s' = { s with db := { s.db with
        transactions := s.db.transactions.putAll
          (transactionEntries blockData index txs tids raws tpos) } } := by
  induction txs generalizing s index tids raws tpos with
  | nil =>
    simp only [indexTransactions, Except.ok.injEq] at h
    subst h
    exact ⟨Nat.zero_le _, rfl, by simp, List.nodup_nil, rfl⟩
  | cons tx txs ih =>
    cases tids with
    | nil => cases h
    | cons tid tids =>
      cases raws with
      | nil => cases h
      | cons raw raws =>
        obtain ⟨⟨tpos', s₁⟩, h₁, h₂⟩ := bind_eq_ok_iff.1 h
        obtain ⟨htpos, hnone, hs₁⟩ := indexTransaction_eq h₁
        obtain ⟨hlen, hkeys, hfresh, hnodup, rfl⟩ := ih h₂
        subst hs₁
        subst htpos
        have hnew : tid ∉ (txs.zip tids).map Prod.snd := by
          intro hmem
          have hget := hfresh tid hmem
          change (s.db.transactions.put tid _).get tid = none at hget
          rw [Store.get_put_self] at hget
          cases hget
        refine ⟨Nat.succ_le_succ hlen, ?_, ?_, List.nodup_cons.2 ⟨hnew, hnodup⟩, rfl⟩
        · simp only [transactionEntries, List.map_cons, List.zip_cons_cons]
          rw [hkeys]
        · intro k hk
          rw [List.zip_cons_cons, List.map_cons] at hk
          rcases List.mem_cons.1 hk with rfl | hk
          · exact hnone
          · have hget := hfresh k hk
            have hne : tid ≠ k := fun heq ↦ hnew (heq ▸ hk)
            change (s.db.transactions.put tid _).get k = none at hget
            rwa [Store.get_put_of_ne _ _ hne] at hget

/-- The entries of a block go under new keys. -/
theorem indexBlock_eq {blockData : BinaryArray} {raw : RawBlock} {block : Block}
    {info : Api.BlockHeader} {baseTransactionHash : Hash}
    (h : s.indexBlock blockData raw block info baseTransactionHash = .ok s') :
    block.transactions.length ≤ block.header.transactionHashes.length ∧
      (blockEntries blockData raw block info.height baseTransactionHash).map Prod.fst =
        blockKeys block baseTransactionHash ∧
      s.db.timestamps.get (info.timestamp, info.height) = none ∧
      (∀ k ∈ blockKeys block baseTransactionHash, s.db.transactions.get k = none) ∧
      (blockKeys block baseTransactionHash).Nodup ∧
      s' = { s with db := { s.db with
        timestamps := s.db.timestamps.put (info.timestamp, info.height) ()
        transactions := s.db.transactions.putAll
          (blockEntries blockData raw block info.height baseTransactionHash) } } := by
  simp only [indexBlock, bind_eq_ok_iff, dbWrite_eq_ok_iff, Store.putNew_eq_ok_iff,
    orThrow_eq_ok_iff] at h
  obtain ⟨timestamps, ⟨hts, rfl⟩, coinbase, hcoinbase, ⟨tpos, s₁⟩, h₁, h₂⟩ := h
  obtain ⟨htpos, hnone, hs₁⟩ := indexTransaction_eq h₁
  obtain ⟨hlen, hkeys, hfresh, hnodup, rfl⟩ := indexTransactions_eq h₂
  subst hs₁
  subst htpos
  have hnew : baseTransactionHash ∉
      (block.transactions.zip block.header.transactionHashes).map Prod.snd := by
    intro hmem
    have hget := hfresh _ hmem
    change (s.db.transactions.put baseTransactionHash _).get baseTransactionHash = none at hget
    rw [Store.get_put_self] at hget
    cases hget
  refine ⟨hlen, ?_, hts, ?_, List.nodup_cons.2 ⟨hnew, hnodup⟩, ?_⟩
  · simp only [blockEntries, blockKeys, List.map_cons, hcoinbase, Option.getD_some]
    rw [hkeys]
  · intro k hk
    rcases List.mem_cons.1 hk with rfl | hk
    · exact hnone
    · have hget := hfresh k hk
      have hne : baseTransactionHash ≠ k := fun heq ↦ hnew (heq ▸ hk)
      change (s.db.transactions.put baseTransactionHash _).get k = none at hget
      rwa [Store.get_put_of_ne _ _ hne] at hget
  · simp only [blockEntries, hcoinbase, Option.getD_some]
    rfl

/-! ## Unindexing -/

theorem unindexTransactions_eq {txs : List Transaction} {tids : List Hash}
    (h : s.unindexTransactions txs tids = .ok s') :
    s' = { s with db := { s.db with
      transactions := s.db.transactions.removeAll ((txs.zip tids).map Prod.snd) } } := by
  induction txs generalizing s tids with
  | nil =>
    simp only [unindexTransactions, Except.ok.injEq] at h
    exact h.symm
  | cons tx txs ih =>
    cases tids with
    | nil => cases h
    | cons tid tids =>
      simp only [unindexTransactions, bind_eq_ok_iff, dbWrite_eq_ok_iff,
        Store.removeExisting_eq_ok_iff] at h
      obtain ⟨transactions, ⟨-, rfl⟩, h⟩ := h
      exact ih h

/-- The keys of a block are erased. -/
theorem unindexBlock_eq {block : Block} {height : Height} {baseTransactionHash : Hash}
    (hbase : getTransactionHash cr block.header.baseTransaction = some baseTransactionHash)
    (h : s.unindexBlock cr block height = .ok s') :
    s' = { s with db := { s.db with
      timestamps := s.db.timestamps.remove (block.header.timestamp, height)
      transactions := s.db.transactions.removeAll (blockKeys block baseTransactionHash) } } := by
  simp only [unindexBlock, bind_eq_ok_iff, dbWrite_eq_ok_iff, Store.removeExisting_eq_ok_iff,
    orThrow_eq_ok_iff, hbase, Option.some.injEq] at h
  obtain ⟨timestamps, ⟨-, rfl⟩, tid, rfl, transactions, ⟨-, rfl⟩, h⟩ := h
  exact unindexTransactions_eq h

end State

end Naza
