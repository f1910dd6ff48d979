import Naza.Concrete
import Naza.DeltaSpec
import Naza.PoolConsistency

/-!
# Refused transactions and the pool

The pool of a reachable state is consistent.  A refused transaction leaves it alone unless the
displacement loop had removed a conflicting transaction before it met one that does not give way.
-/

open Lib

namespace Naza

variable {cr : Crypto} {c : Currency}

/-! ## The pool of a reachable state -/

namespace State

variable {s s' : State}

theorem pushAmountOutput_pool {amount : Amount} {unlockTime : UnlockMoment} {height : Height}
    {pk : PublicKey} (h : s.pushAmountOutput amount unlockTime height pk = .ok s') :
    s'.pool = s.pool := by
  obtain ⟨outputs, -, h⟩ := bind_eq_ok_iff.1 h
  rw [← Except.ok.inj h]

section Removals

/-! A block changes the pool by removals only, so it keeps what removals keep. -/

variable {I : Pool → Prop}

theorem storeKeyimage_keeps
    (hremove : ∀ pool tid pool', I pool → pool.removeFromPool tid = .ok pool' → I pool')
    (h : I s.pool) {ki : KeyImage} {height : Height} (hok : s.storeKeyimage ki height = .ok s') :
    I s'.pool := by
  obtain ⟨keyImages, -, hok⟩ := bind_eq_ok_iff.1 hok
  dsimp only at hok
  split at hok
  · rw [← Except.ok.inj hok]
    exact h
  · next tid _ =>
    obtain ⟨pool, hpool, hok⟩ := bind_eq_ok_iff.1 hok
    rw [← Except.ok.inj hok]
    exact hremove _ tid pool h hpool

/-- The key images of a block displace pool transactions one by one. -/
theorem apply_keeps
    (hremove : ∀ pool tid pool', I pool → pool.removeFromPool tid = .ok pool' → I pool')
    (h : I s.pool) {delta : DeltaState} (hok : delta.apply writes s = .ok s') : I s'.pool := by
  simp only [DeltaState.apply, bind_eq_ok_iff] at hok
  obtain ⟨s₁, h₁, s₂, h₂, h₃⟩ := hok
  have c₁ : I s₁.pool :=
    foldlM_ok_preserves (I := fun t ↦ I t.pool)
      (fun _ _ _ _ hx hI ↦ storeKeyimage_keeps hremove hI hx) h₁ h
  have c₂ : I s₂.pool := by
    refine foldlM_ok_preserves (I := fun t ↦ I t.pool) ?_ h₂ c₁
    intro t x t' _ hx hI
    exact foldlM_ok_preserves (I := fun t ↦ I t.pool)
      (fun _ _ _ _ hy hJ ↦ (pushAmountOutput_pool hy).symm ▸ hJ) hx hI
  refine foldlM_ok_preserves (I := fun t ↦ I t.pool) ?_ h₃ c₂
  intro t x t' _ hx hI
  rw [← Except.ok.inj hx, setSpent_pool]
  exact hI

theorem redoBlock_keeps
    (hremove : ∀ pool tid pool', I pool → pool.removeFromPool tid = .ok pool' → I pool')
    (h : I s.pool) {bhash : Hash} {block : Block} {info : Api.BlockHeader}
    (hok : s.redoBlock cr c bhash block info = .ok (some s')) : I s'.pool := by
  unfold redoBlock at hok
  split at hok
  · cases hok
  · split at hok
    · cases hok
    · cases hok
    · split at hok
      · simp only [bind_eq_ok_iff] at hok
        obtain ⟨s₁, h₁, table, -, hok⟩ := hok
        rw [← Option.some.inj (Except.ok.inj hok)]
        have hkeeps := apply_keeps hremove h h₁
        exact hkeeps
      · cases hok

end Removals

theorem storeKeyimage_consistent (h : s.pool.Consistent) {ki : KeyImage} {height : Height}
    (hok : s.storeKeyimage ki height = .ok s') : s'.pool.Consistent :=
  storeKeyimage_keeps (fun _ _ _ hpool hrem ↦ hpool.removeFromPool hrem) h hok

/-- What the checks of a transaction accept is the delta of that transaction. -/
theorem checkTransaction_holds {tid : Hash} {tx : Transaction} {binaryTx : BinaryArray}
    {unlockHeight : Height} {unlockTimestamp : Timestamp} {checkSigs : Bool} {delta : DeltaState}
    {conflictHeight : Height} (h : s.checkTransaction cr c tid tx binaryTx unlockHeight
      unlockTimestamp checkSigs = .accept (delta, conflictHeight)) :
    delta.Holds tx.keyImages tx.pushes tx.spends := by
  simp only [checkTransaction, Check.bind_eq_accept_iff, Check.require_eq_accept_iff] at h
  obtain ⟨-, -, -, -, _, -, -, -, -, -, -, -, -, -, h⟩ := h
  split at h
  · cases h
  · split at h
    · cases h
    · split at h
      · cases h
      · cases h
      · next indices conflictHeight' hredo =>
        have h := (Prod.mk.inj (Check.accept.inj h)).1
        have hholds := (redoTransactionGetError_accept (DeltaState.holds_empty _ _) hredo).1
        rw [List.nil_append, List.nil_append, List.nil_append] at hholds
        exact h ▸ hholds

theorem addTransaction_consistent (h : s.pool.Consistent) {tid : Hash} {tx : Transaction}
    {binaryTx : BinaryArray} {result : AddTransactionResult} {conflictHeight : Height}
    (hok : s.addTransaction cr c tid tx binaryTx = .ok (result, conflictHeight, s')) :
    s'.pool.Consistent := by
  obtain ⟨tip, -, hok⟩ := bind_eq_ok_iff.1 hok
  unfold addTransactionAt at hok
  split at hok
  · cases hok
  · rw [Except.ok.injEq, Prod.mk.injEq, Prod.mk.injEq] at hok
    exact hok.2.2 ▸ h
  · next delta conflictHeight' hcheck =>
    have hholds := checkTransaction_holds hcheck
    obtain ⟨⟨pool, displaced⟩, hdisplace, hok⟩ := bind_eq_ok_iff.1 hok
    have hcons := Pool.displace_consistent h hdisplace
    dsimp only at hok
    split at hok
    · obtain ⟨pool₁, hinsert, hok⟩ := bind_eq_ok_iff.1 hok
      obtain ⟨pool₂, htrim, hok⟩ := bind_eq_ok_iff.1 hok
      have hok := (Prod.mk.inj (Prod.mk.inj (Except.ok.inj hok)).2).2
      rw [← hok]
      exact Pool.trim_consistent (Pool.insert_consistent hcons
        (fun ki ↦ hholds.keys_perm.mem_iff) hholds.nodup hinsert) htrim
    · have hok := (Prod.mk.inj (Prod.mk.inj (Except.ok.inj hok)).2).2
      rw [← hok]
      exact hcons

end State

/-- Every change keeps what the empty pool has and what removals and additions keep. -/
theorem pool_preserved {P : State → PreparedBlock → Prop} {I : Pool → Prop} (hempty : I {})
    (hremove : ∀ pool tid pool', I pool → pool.removeFromPool tid = .ok pool' → I pool')
    (hadd : ∀ {s s' : State} {tid : Hash} {tx : Transaction} {binaryTx : BinaryArray}
      {result : AddTransactionResult} {conflictHeight : Height}, I s.pool →
      s.addTransaction cr c tid tx binaryTx = .ok (result, conflictHeight, s') → I s'.pool) :
    Preserves (Change cr c P) fun s ↦ I s.pool := by
  intro s s' hchange h
  cases hchange with
  | addTransaction hok => exact hadd h hok
  | clearPool => exact hempty
  | poolVersion => exact h
  | cacheNextIndex => exact h
  | storeBlock _ _ _ _ hok =>
    obtain ⟨-, _, -, -, rfl⟩ := State.storeBlock_eq hok
    exact h
  | countChild => exact h
  | connect _ _ hredo hpush =>
    obtain ⟨u, hu, hindex⟩ := State.redoBlockIndexed_eq hredo
    obtain ⟨_, _, rfl⟩ := State.indexBlock_frame hindex
    obtain ⟨-, _, _, rfl⟩ := State.pushChain_eq hpush
    have hkeeps := State.redoBlock_keeps hremove h hu
    exact hkeeps
  | disconnect hundo =>
    obtain ⟨_, _, _, s₁, s₂, -, -, h₁, h₂, h₃⟩ := State.undoTip_eq hundo
    obtain ⟨-, _, _, -, -, rfl⟩ := State.tipChanged_eq h₃
    obtain ⟨-, -, _, -, rfl⟩ := State.popChain_eq h₂
    have hpool := State.undoBlockIndexed_pool h₁
    exact hpool ▸ h
  | readTip _ hread htip =>
    obtain ⟨-, _, _, -, -, rfl⟩ := State.tipChanged_eq htip
    simp only [State.readTip, bind_eq_ok_iff, Prod.exists] at hread
    obtain ⟨_, _, -, _, -, hread⟩ := hread
    rw [← Except.ok.inj hread]
    exact hempty
  | tipChanged htip =>
    obtain ⟨-, _, _, -, -, rfl⟩ := State.tipChanged_eq htip
    exact h

/-- Every change keeps the pool consistent. -/
theorem pool_consistent_preserved {P : State → PreparedBlock → Prop} :
    Preserves (Change cr c P) fun s ↦ s.pool.Consistent :=
  pool_preserved Pool.consistent_empty (fun _ _ _ h hrem ↦ h.removeFromPool hrem)
    fun h hok ↦ State.addTransaction_consistent h hok

theorem Visited.pool_consistent {s : State} (h : Visited cr c s) : s.pool.Consistent :=
  pool_consistent_preserved.star h Pool.consistent_empty

/-! ## The displacement loop -/

namespace Pool

/-- A key image of an offered transaction is spent in the pool by one that does not give way. -/
def Outranks (pool : Pool) (myFeePerByte : Amount) (tid : Hash) (ki : KeyImage) : Prop :=
  ∃ other p, pool.kiTx.get ki = some other ∧ pool.tx.get other = some p ∧
    yieldsTo myFeePerByte tid p.feePerByte other = true

/-- A key image of an offered transaction is spent in the pool by one that gives way. -/
def GivesWay (pool : Pool) (myFeePerByte : Amount) (tid : Hash) (ki : KeyImage) : Prop :=
  ∃ other p, pool.kiTx.get ki = some other ∧ pool.tx.get other = some p ∧
    yieldsTo myFeePerByte tid p.feePerByte other = false

/-- Some key image conflicts with a transaction that does not give way, and below all of these
there is one that conflicts with a transaction that does. -/
def SplitConflict (pool : Pool) (myFeePerByte : Amount) (tid : Hash) (kis : List KeyImage) :
    Prop :=
  (∃ ki ∈ kis, pool.Outranks myFeePerByte tid ki) ∧
    ∃ ki ∈ kis, pool.GivesWay myFeePerByte tid ki ∧
      ∀ ki' ∈ kis, pool.Outranks myFeePerByte tid ki' → ki < ki'

theorem SplitConflict.congr {pool : Pool} {myFeePerByte : Amount} {tid : Hash}
    {kis kis' : List KeyImage} (h : ∀ ki, ki ∈ kis ↔ ki ∈ kis') :
    pool.SplitConflict myFeePerByte tid kis ↔ pool.SplitConflict myFeePerByte tid kis' := by
  simp only [SplitConflict, h]

variable {pool pool' : Pool} {myFeePerByte : Amount} {tid : Hash}

/-- Removing a transaction that gives way leaves those that do not. -/
theorem outranks_of_removed (h : Consistent pool) {other : Hash} {p : PoolTransaction}
    (hget : pool.tx.get other = some p)
    (hgives : yieldsTo myFeePerByte tid p.feePerByte other = false)
    (hok : pool.removeFromPool other = .ok pool') (ki : KeyImage) :
    pool'.Outranks myFeePerByte tid ki ↔ pool.Outranks myFeePerByte tid ki := by
  obtain ⟨rest, hrest, -, htx, hki⟩ := removeFromPool_of_get h hget
  rw [hok, Except.ok.injEq] at hrest
  subst hrest
  simp only [Outranks, htx, hki]
  by_cases hmem : ki ∈ p.tx.keyImages
  · have hother := (h.kiTx_iff ki other).2 ⟨p, hget, hmem⟩
    simp [hmem, hother, hget, hgives]
  · simp only [hmem, if_false]
    refine exists_congr fun other' ↦ exists_congr fun q ↦ and_congr_right fun hki' ↦ ?_
    have hne : other ≠ other' := by
      rintro rfl
      obtain ⟨q, hq, hkiq⟩ := h.get_of_kiTx hki'
      rw [hget] at hq
      exact hmem (Option.some.inj hq ▸ hkiq)
    rw [Store.get_remove_of_ne _ hne]

/-- The loop brings no transaction in. -/
theorem displace_get_eq_none (h : Consistent pool) {kis : List KeyImage} {displaced : Bool}
    (hok : displace myFeePerByte tid kis pool = .ok (pool', displaced)) {other : Hash}
    (hnone : pool.tx.get other = none) : pool'.tx.get other = none := by
  induction kis generalizing pool with
  | nil => exact (Prod.mk.inj (Except.ok.inj hok)).1 ▸ hnone
  | cons ki kis ih =>
    unfold displace at hok
    split at hok
    · exact ih h hok hnone
    · split at hok
      · cases hok
      · next p hget =>
        split at hok
        · exact (Prod.mk.inj (Except.ok.inj hok)).1 ▸ hnone
        · obtain ⟨rest, hrest, hok⟩ := bind_eq_ok_iff.1 hok
          obtain ⟨rest', hrest', hcons, htx, -⟩ := removeFromPool_of_get h hget
          rw [hrest, Except.ok.injEq] at hrest'
          subst hrest'
          refine ih hcons hok ?_
          rw [htx, Store.get_remove, hnone, ite_self]

/-- The loop ends early exactly when some conflicting transaction does not give way. -/
theorem displace_eq_false_iff (h : Consistent pool) {kis : List KeyImage} {displaced : Bool}
    (hok : displace myFeePerByte tid kis pool = .ok (pool', displaced)) :
    displaced = false ↔ ∃ ki ∈ kis, pool.Outranks myFeePerByte tid ki := by
  induction kis generalizing pool with
  | nil =>
    rw [← (Prod.mk.inj (Except.ok.inj hok)).2]
    simp
  | cons ki kis ih =>
    simp only [List.mem_cons, exists_eq_or_imp]
    unfold displace at hok
    split at hok
    · next hnone =>
      rw [ih h hok]
      simp [Outranks, hnone]
    · next other hother =>
      split at hok
      · cases hok
      · next p hget =>
        split at hok
        · next hyields =>
          rw [← (Prod.mk.inj (Except.ok.inj hok)).2]
          simp only [true_iff]
          exact .inl ⟨other, p, hother, hget, hyields⟩
        · next hyields =>
          rw [Bool.not_eq_true] at hyields
          obtain ⟨rest, hrest, hok⟩ := bind_eq_ok_iff.1 hok
          obtain ⟨rest', hrest', hcons, -, -⟩ := removeFromPool_of_get h hget
          rw [hrest, Except.ok.injEq] at hrest'
          subst hrest'
          rw [ih hcons hok]
          simp only [outranks_of_removed h hget hyields hrest]
          have hnot : ¬ pool.Outranks myFeePerByte tid ki := by
            rintro ⟨other', p', hother', hget', hyields'⟩
            rw [hother, Option.some.injEq] at hother'
            subst hother'
            rw [hget, Option.some.injEq] at hget'
            subst hget'
            rw [hyields] at hyields'
            cases hyields'
          simp [hnot]

/-- Over ascending key images the loop ends early on a changed pool exactly in a split conflict. -/
theorem displace_split_iff (h : Consistent pool) {kis : List KeyImage}
    (hsorted : kis.Pairwise (· < ·)) {displaced : Bool}
    (hok : displace myFeePerByte tid kis pool = .ok (pool', displaced)) :
    (displaced = false ∧ pool' ≠ pool) ↔ pool.SplitConflict myFeePerByte tid kis := by
  induction kis generalizing pool with
  | nil =>
    rw [← (Prod.mk.inj (Except.ok.inj hok)).2]
    simp [SplitConflict]
  | cons ki kis ih =>
    obtain ⟨hlt, hsorted⟩ := List.pairwise_cons.1 hsorted
    have hfalse := displace_eq_false_iff h hok
    unfold displace at hok
    split at hok
    · next hnone =>
      -- no conflict at the lowest key image
      rw [ih h hsorted hok]
      simp [SplitConflict, Outranks, GivesWay, hnone]
    · next other hother =>
      split at hok
      · cases hok
      · next p hget =>
        split at hok
        · next hyields =>
          -- the lowest key image ends the loop before anything is removed
          have hpool := (Prod.mk.inj (Except.ok.inj hok)).1
          have houtranks : pool.Outranks myFeePerByte tid ki := ⟨other, p, hother, hget, hyields⟩
          constructor
          · rintro ⟨-, hne⟩
            exact absurd hpool.symm hne
          · rintro ⟨-, ki', hmem, -, hbelow⟩
            have hki' := hbelow ki List.mem_cons_self houtranks
            rcases List.mem_cons.1 hmem with rfl | hmem
            · exact absurd hki' (lt_irrefl _)
            · exact absurd hki' (lt_asymm (hlt ki' hmem))
        · next hyields =>
          -- the lowest key image removes a transaction, so the pool has changed
          rw [Bool.not_eq_true] at hyields
          obtain ⟨rest, hrest, hok⟩ := bind_eq_ok_iff.1 hok
          obtain ⟨rest', hrest', hcons, htx, -⟩ := removeFromPool_of_get h hget
          rw [hrest, Except.ok.injEq] at hrest'
          subst hrest'
          have hgone : pool'.tx.get other = none :=
            displace_get_eq_none hcons hok (by rw [htx, Store.get_remove_self])
          have hne : pool' ≠ pool := by
            rintro rfl
            rw [hget] at hgone
            cases hgone
          have hgives : pool.GivesWay myFeePerByte tid ki := ⟨other, p, hother, hget, hyields⟩
          have hnot : ¬ pool.Outranks myFeePerByte tid ki := by
            rintro ⟨other', p', hother', hget', hyields'⟩
            rw [hother, Option.some.injEq] at hother'
            subst hother'
            rw [hget, Option.some.injEq] at hget'
            subst hget'
            rw [hyields] at hyields'
            cases hyields'
          rw [hfalse]
          constructor
          · rintro ⟨hexists, -⟩
            refine ⟨hexists, ki, List.mem_cons_self, hgives, ?_⟩
            intro ki' hmem houtranks
            rcases List.mem_cons.1 hmem with rfl | hmem
            · exact absurd houtranks hnot
            · exact hlt ki' hmem
          · exact fun hsplit ↦ ⟨hsplit.1, hne⟩

end Pool

/-! ## Refusal -/

/-- The keys of a delta's key images come in ascending order. -/
theorem DeltaState.keyimages_sorted (delta : DeltaState) :
    (delta.keyimages.toList.map Prod.fst).Pairwise (· < ·) := by
  rw [List.pairwise_map]
  exact delta.keyimages.pairwise_toList.imp fun h ↦ compareOfLessAndEq_eq_lt.1 h

/-- A transaction that passes every check before the pool is touched, on a split conflict. -/
def State.RefusedTooLate (cr : Crypto) (c : Currency) (s : State) (tid : Hash) (tx : Transaction)
    (binaryTx : BinaryArray) (unlockHeight : Height) (unlockTimestamp : Timestamp)
    (checkSigs : Bool) : Prop :=
  (∃ delta conflictHeight, s.checkTransaction cr c tid tx binaryTx unlockHeight unlockTimestamp
    checkSigs = .accept (delta, conflictHeight)) ∧
  s.pool.SplitConflict (getTxFee tx.toTransactionPrefix / UInt64.ofNat binaryTx.length) tid
    tx.keyImages

/-- On a reachable state a refused transaction leaves the pool as it was exactly when it is not
refused by the displacement loop after a removal. -/
theorem State.addTransactionAt_refused_iff {isTestnet : Bool} {s s' : State}
    (h : Reachable cr (Currency.make cr isTestnet) s) {tid : Hash} {tx : Transaction}
    {binaryTx : BinaryArray} {unlockHeight : Height} {unlockTimestamp : Timestamp}
    {checkSigs : Bool} {result : AddTransactionResult} {conflictHeight : Height}
    (hok : s.addTransactionAt cr (Currency.make cr isTestnet) tid tx binaryTx unlockHeight
      unlockTimestamp checkSigs = .ok (result, conflictHeight, s')) :
    (result ≠ .broadcastAll → s'.pool = s.pool) ↔
      ¬ s.RefusedTooLate cr (Currency.make cr isTestnet) tid tx binaryTx unlockHeight
        unlockTimestamp checkSigs := by
  have hcons := h.visited.pool_consistent
  unfold addTransactionAt at hok
  split at hok
  · cases hok
  · next hreject =>
    -- refused by a check: the state is the one before the call
    rw [Except.ok.injEq, Prod.mk.injEq, Prod.mk.injEq] at hok
    obtain ⟨-, -, rfl⟩ := hok
    simp [RefusedTooLate, hreject]
  · next delta conflictHeight' hcheck =>
    have hholds := checkTransaction_holds hcheck
    have hcongr := @Pool.SplitConflict.congr s.pool
      (getTxFee tx.toTransactionPrefix / UInt64.ofNat binaryTx.length) tid _ _
      fun ki ↦ hholds.keys_perm.mem_iff (a := ki)
    have hlate : s.RefusedTooLate cr (Currency.make cr isTestnet) tid tx binaryTx unlockHeight
        unlockTimestamp checkSigs ↔ s.pool.SplitConflict
          (getTxFee tx.toTransactionPrefix / UInt64.ofNat binaryTx.length) tid
          (delta.keyimages.toList.map Prod.fst) := by
      rw [hcongr, RefusedTooLate, and_iff_right ⟨delta, conflictHeight', hcheck⟩]
    obtain ⟨⟨pool, displaced⟩, hdisplace, hok⟩ := bind_eq_ok_iff.1 hok
    have hsplit := Pool.displace_split_iff hcons delta.keyimages_sorted hdisplace
    have hiff := hsplit.trans hlate.symm
    rw [← hiff]
    dsimp only at hok
    split at hok
    · next hdisplaced =>
      obtain ⟨pool₁, -, hok⟩ := bind_eq_ok_iff.1 hok
      obtain ⟨pool₂, -, hok⟩ := bind_eq_ok_iff.1 hok
      have hresult := (Prod.mk.inj (Except.ok.inj hok)).1
      simp [← hresult, hdisplaced]
    · next hdisplaced =>
      have hok := Prod.mk.inj (Except.ok.inj hok)
      obtain ⟨-, rfl⟩ := Prod.mk.inj hok.2
      simp [← hok.1, hdisplaced]

/-! ## A refusal that empties half of a conflict -/

/-- It splits an output of the checkpoint zone in two. -/
def splittingTransaction : Transaction :=
  sampleTransaction [{ amount := 20001, outputIndexes := [0], keyImage := 7 }] [10000, 10000]
    (List.replicate 32 5) 0

/-- The block at height 1 with `splittingTransaction`. -/
def splittingBlock : BlockTemplate :=
  sampleTemplate 1 mainnet.genesisBlockHash 0 (sampleCoinbase 1 281470681743361 [1, 2])
    [splittingTransaction]

/-- It spends the first half and pays a fee of 1. -/
def cheapSpend : Transaction :=
  sampleTransaction [{ amount := 10000, outputIndexes := [0], keyImage := 11 }] [9999] [] 1

/-- It spends the second half and pays a fee of 10000. -/
def dearSpend : Transaction :=
  sampleTransaction [{ amount := 10000, outputIndexes := [1], keyImage := 12 }] [] [] 2

/-- It spends both halves and pays a fee of 1000. -/
def bothSpend : Transaction :=
  sampleTransaction [{ amount := 10000, outputIndexes := [0], keyImage := 11 },
    { amount := 10000, outputIndexes := [1], keyImage := 12 }] [19000] [] 3

/-- `cheapSpend` and `dearSpend` enter the pool. -/
def spendingEvents : List Event :=
  [.offer 1000 (splittingBlock.rawBlock [splittingTransaction]),
    .addTransaction cheapSpend.bytes, .addTransaction dearSpend.bytes]

theorem runFromStart_spendingEvents : returns (runFromStart sampleCrypto mainnet spendingEvents)
    (fun s ↦ s.pool.tx.get cheapSpend.sampleHash ≠ none ∧
      returns (s.addTransaction sampleCrypto mainnet bothSpend.sampleHash bothSpend bothSpend.bytes)
        fun r ↦ r.1 = .increaseFee ∧ r.2.2.pool.tx.get cheapSpend.sampleHash = none) = true := by
  decide +kernel

/-- `bothSpend` is refused for the sake of `dearSpend`, after `cheapSpend` was removed. -/
theorem State.addTransaction_refused_with_removal : ∃ (s s' : State) (conflictHeight : Height),
    Reachable sampleCrypto mainnet s ∧
    s.addTransaction sampleCrypto mainnet bothSpend.sampleHash bothSpend bothSpend.bytes =
      .ok (.increaseFee, conflictHeight, s') ∧
    s.pool.tx.get cheapSpend.sampleHash ≠ none ∧ s'.pool.tx.get cheapSpend.sampleHash = none := by
  obtain ⟨s, hrun, htest⟩ := returns_iff.1 runFromStart_spendingEvents
  simp only [decide_eq_true_eq, returns_iff] at htest
  obtain ⟨hbefore, ⟨result, conflictHeight, s'⟩, hadd, hresult, hafter⟩ := htest
  dsimp only at hresult hafter
  subst hresult
  exact ⟨s, s', conflictHeight, reachable_of_runFromStart hrun, hadd, hbefore, hafter⟩

theorem State.addTransactionAt_refused_iff_bothSpend : ∃ (s : State) (tip : Api.BlockHeader),
    Reachable sampleCrypto mainnet s ∧ s.RefusedTooLate sampleCrypto mainnet bothSpend.sampleHash
      bothSpend bothSpend.bytes (s.tipHeight + 1) tip.timestamp true := by
  obtain ⟨s, hrun, htest⟩ := returns_iff.1 runFromStart_spendingEvents
  simp only [decide_eq_true_eq, returns_iff] at htest
  obtain ⟨hbefore, ⟨result, conflictHeight, s'⟩, hadd, hresult, hafter⟩ := htest
  dsimp only at hresult hafter
  obtain ⟨tip, -, hadd⟩ := bind_eq_ok_iff.1 hadd
  have hreachable := reachable_of_runFromStart hrun
  refine ⟨s, tip, hreachable, ?_⟩
  by_contra hnot
  have hpool := (State.addTransactionAt_refused_iff hreachable hadd).2 hnot (by simp [hresult])
  rw [hpool] at hafter
  exact hbefore hafter

end Naza
