import Naza.PoolAtomicity
import Naza.Rings

/-!
# The size of the memory pool

The total size of the pool is the sum of its transactions' sizes, and exceeds the maximum by less
than the transaction with the lowest fee.  Trimming the pool never reaches the transaction that
has just been added: it is not below the lowest one, or the pool without it is small enough.
-/

open Lib

namespace Naza

variable {cr : Crypto} {c : Currency}

namespace Pool

/-- The size of a pool transaction. -/
def binarySize (p : PoolTransaction) : ℕ := p.binaryTx.length

/-- The first transaction of the lowest bucket of the fee index. -/
def lowest (pool : Pool) : Option Hash :=
  pool.feeTx.first.bind fun e ↦ e.2.first.map Prod.fst

/-- Without its lowest transaction the pool is below the maximal size, unless it is within it. -/
def Bounded (pool : Pool) : Prop :=
  pool.totalSize ≤ maxPoolSize ∨ ∃ tid p, pool.lowest = some tid ∧ pool.tx.get tid = some p ∧
    pool.totalSize - p.binaryTx.length < maxPoolSize

/-- The maps agree, and the total is the sum of the sizes, none of which is zero. -/
structure Measured (pool : Pool) : Prop where
  consistent : Consistent pool
  totalSize_eq : pool.totalSize = pool.tx.total binarySize
  binaryTx_ne : ∀ tid p, pool.tx.get tid = some p → p.binaryTx ≠ []

variable {pool pool' : Pool}

theorem measured_empty : Measured {} where
  consistent := consistent_empty
  totalSize_eq := (Store.total_empty _).symm
  binaryTx_ne := by simp

/-! ## The lowest transaction -/

/-- The order of the fee index. -/
def Precedes (p : PoolTransaction) (tid : Hash) (q : PoolTransaction) (tid' : Hash) : Prop :=
  p.feePerByte < q.feePerByte ∨ p.feePerByte = q.feePerByte ∧ tid < tid'

theorem Precedes.asymm {p q : PoolTransaction} {tid tid' : Hash} (h : Precedes p tid q tid')
    (h' : Precedes q tid' p tid) : False := by
  rcases h with h | ⟨h, hlt⟩ <;> rcases h' with h' | ⟨h', hlt'⟩
  · exact UInt64.lt_irrefl _ (UInt64.lt_trans h h')
  · exact UInt64.lt_irrefl _ (h' ▸ h)
  · exact UInt64.lt_irrefl _ (h ▸ h')
  · exact (hlt.trans hlt').false

/-- The lowest transaction is in the pool, and it precedes every other. -/
theorem Consistent.lowest_spec (h : Consistent pool) {tid : Hash} (hlow : pool.lowest = some tid) :
    ∃ p, pool.tx.get tid = some p ∧
      ∀ tid' q, pool.tx.get tid' = some q → tid' ≠ tid → Precedes p tid q tid' := by
  obtain ⟨⟨fee, hashes⟩, hfirst, hlow⟩ := Option.bind_eq_some_iff.1 hlow
  obtain ⟨⟨tid₁, ⟨⟩⟩, hhashes, rfl⟩ := Option.map_eq_some_iff.1 hlow
  dsimp only at hhashes ⊢
  obtain ⟨p, hp, hfee⟩ := (h.feeTx_iff fee tid₁).1
    ⟨hashes, Store.get_of_first hfirst, Store.get_of_first hhashes⟩
  refine ⟨p, hp, fun tid' q hq hne ↦ ?_⟩
  obtain ⟨hashes', hhashes', htid'⟩ := (h.feeTx_iff q.feePerByte tid').2 ⟨q, hq, rfl⟩
  have hnlt : ¬ q.feePerByte < fee := fun hlt ↦
    Store.compare_ne_lt_of_first hfirst hhashes' (Std.compare_eq_lt.2 hlt)
  rw [Precedes, hfee]
  by_cases heq : fee = q.feePerByte
  · rw [← heq, Store.get_of_first hfirst, Option.some.injEq] at hhashes'
    subst hhashes'
    have hge : ¬ tid' < tid₁ := fun hlt ↦
      Store.compare_ne_lt_of_first hhashes htid' (compare_lt_iff_lt.2 hlt)
    exact .inr ⟨heq, lt_of_le_of_ne (not_lt.1 hge) (Ne.symm hne)⟩
  · refine .inl (UInt64.not_le.1 fun hle ↦ ?_)
    rcases UInt64.le_iff_lt_or_eq.1 hle with hlt | hlt
    · exact hnlt hlt
    · exact heq hlt.symm

/-- A transaction that precedes every other is the lowest. -/
theorem Consistent.lowest_eq (h : Consistent pool) {tid : Hash} {p : PoolTransaction}
    (hp : pool.tx.get tid = some p)
    (hmin : ∀ tid' q, pool.tx.get tid' = some q → tid' ≠ tid → Precedes p tid q tid') :
    pool.lowest = some tid := by
  cases hlow : pool.lowest with
  | none =>
    obtain ⟨hashes, hfee, -⟩ := (h.feeTx_iff p.feePerByte tid).2 ⟨p, hp, rfl⟩
    cases hfirst : pool.feeTx.first with
    | none =>
      rw [Store.first_eq_none_iff.1 hfirst] at hfee
      cases hfee
    | some e =>
      have hne := h.first_ne_none e.1 e.2 (Store.get_of_first hfirst)
      rw [lowest, hfirst, Option.bind_some, Option.map_eq_none_iff] at hlow
      exact absurd hlow hne
  | some tid' =>
    by_contra hne
    rw [Option.some.injEq] at hne
    obtain ⟨q, hq, hmin'⟩ := h.lowest_spec hlow
    exact (hmin tid' q hq hne).asymm (hmin' tid p hp (Ne.symm hne))

/-! ## Removals -/

theorem removeFromPool_totalSize {tid : Hash} {p : PoolTransaction}
    (hget : pool.tx.get tid = some p) (hok : pool.removeFromPool tid = .ok pool') :
    pool'.totalSize = pool.totalSize - p.binaryTx.length ∧ pool'.tx = pool.tx.remove tid := by
  simp only [removeFromPool, hget, bind_eq_ok_iff] at hok
  obtain ⟨-, -, hok⟩ := hok
  rw [← Except.ok.inj hok]
  exact ⟨rfl, rfl⟩

theorem removeFromPool_totalSize_le {tid : Hash} (hok : pool.removeFromPool tid = .ok pool') :
    pool'.totalSize ≤ pool.totalSize := by
  unfold removeFromPool at hok
  split at hok
  · exact Except.ok.inj hok ▸ le_refl _
  · simp only [bind_eq_ok_iff] at hok
    obtain ⟨-, -, hok⟩ := hok
    rw [← Except.ok.inj hok]
    exact Nat.sub_le _ _

theorem removeFromPool_of_none {tid : Hash} (hget : pool.tx.get tid = none)
    (hok : pool.removeFromPool tid = .ok pool') : pool' = pool := by
  simp only [removeFromPool, hget] at hok
  exact (Except.ok.inj hok).symm

theorem Measured.length_le (h : Measured pool) {tid : Hash} {p : PoolTransaction}
    (hget : pool.tx.get tid = some p) : p.binaryTx.length ≤ pool.totalSize := by
  rw [h.totalSize_eq, Store.total_remove _ _ hget]
  exact Nat.le_add_right _ _

theorem Measured.removeFromPool (h : Measured pool) {tid : Hash}
    (hok : pool.removeFromPool tid = .ok pool') : Measured pool' := by
  cases hget : pool.tx.get tid with
  | none => exact removeFromPool_of_none hget hok ▸ h
  | some p =>
    obtain ⟨hsize, htx⟩ := removeFromPool_totalSize hget hok
    have htotal := Store.total_remove binarySize pool.tx hget
    refine ⟨h.consistent.removeFromPool hok, ?_, ?_⟩
    · rw [hsize, htx, h.totalSize_eq, htotal]
      exact Nat.add_sub_cancel_left _ _
    · intro tid' q hq
      rw [htx, Store.get_remove] at hq
      split at hq
      · cases hq
      · exact h.binaryTx_ne tid' q hq

/-- A removal leaves the pool bounded: without its lowest transaction it was, and with it the
others weigh less. -/
theorem Bounded.removeFromPool (h : Measured pool) (hbounded : Bounded pool) {tid : Hash}
    (hok : pool.removeFromPool tid = .ok pool') : Bounded pool' := by
  cases hget : pool.tx.get tid with
  | none => exact removeFromPool_of_none hget hok ▸ hbounded
  | some p =>
    obtain ⟨hsize, htx⟩ := removeFromPool_totalSize hget hok
    rcases hbounded with hle | ⟨low, q, hlow, hq, hlt⟩
    · exact .inl (by omega)
    · by_cases heq : low = tid
      · subst heq
        rw [hget, Option.some.injEq] at hq
        rw [← hq] at hlt
        exact .inl (by omega)
      · obtain ⟨q', hq', hmin⟩ := h.consistent.lowest_spec hlow
        rw [hq, Option.some.injEq] at hq'
        subst hq'
        have hkeep : pool'.tx.get low = some q := by
          rw [htx, Store.get_remove_of_ne _ (Ne.symm heq), hq]
        refine .inr ⟨low, q, (h.consistent.removeFromPool hok).lowest_eq hkeep ?_, hkeep, by omega⟩
        intro tid' r hr hne
        rw [htx, Store.get_remove] at hr
        split at hr
        · cases hr
        · exact hmin tid' r hr hne

/-! ## The displacement loop -/

/-- The displacement loop keeps what removals keep. -/
theorem displace_keeps {I : Pool → Prop}
    (hremove : ∀ pool tid pool', I pool → pool.removeFromPool tid = .ok pool' → I pool')
    {fee : Amount} {tid : Hash} {kis : List KeyImage} {displaced : Bool} (h : I pool)
    (hok : displace fee tid kis pool = .ok (pool', displaced)) : I pool' := by
  induction kis generalizing pool with
  | nil => exact (Prod.mk.inj (Except.ok.inj hok)).1 ▸ h
  | cons ki kis ih =>
    unfold displace at hok
    split at hok
    · exact ih h hok
    · split at hok
      · cases hok
      · split at hok
        · exact (Prod.mk.inj (Except.ok.inj hok)).1 ▸ h
        · obtain ⟨rest, hrest, hok⟩ := bind_eq_ok_iff.1 hok
          exact ih (hremove _ _ _ h hrest) hok

/-- Either a transaction is still there and the pool no larger than it was, or the pool is smaller
by that transaction. -/
def KeptOrGone (low : Hash) (q : PoolTransaction) (size : ℕ) (pool : Pool) : Prop :=
  pool.tx.get low = some q ∧ pool.totalSize ≤ size ∨ pool.totalSize + q.binaryTx.length ≤ size

theorem KeptOrGone.removeFromPool (h : Measured pool) {low : Hash} {q : PoolTransaction} {size : ℕ}
    (hkept : KeptOrGone low q size pool) {tid : Hash}
    (hok : pool.removeFromPool tid = .ok pool') : KeptOrGone low q size pool' := by
  cases hget : pool.tx.get tid with
  | none => exact removeFromPool_of_none hget hok ▸ hkept
  | some p =>
    obtain ⟨hsize, htx⟩ := removeFromPool_totalSize hget hok
    have hle := h.length_le hget
    rcases hkept with ⟨hlow, hkept⟩ | hgone
    · by_cases heq : tid = low
      · subst heq
        rw [hget, Option.some.injEq] at hlow
        rw [← hlow]
        exact .inr (by omega)
      · refine .inl ⟨?_, by omega⟩
        rw [htx, Store.get_remove_of_ne _ heq, hlow]
    · exact .inr (by omega)

/-! ## Insertion -/

theorem insert_eq {tid : Hash} {p : PoolTransaction} {kis : List KeyImage}
    (hok : pool.insert tid p kis = .ok pool') : pool.tx.get tid = none ∧
      pool'.tx = pool.tx.put tid p ∧ pool'.totalSize = pool.totalSize + p.binaryTx.length := by
  unfold insert at hok
  cases hget : pool.tx.get tid with
  | some q => simp [hget, invariant, bind, Except.bind] at hok
  | none =>
    simp only [hget, bind_eq_ok_iff] at hok
    obtain ⟨-, -, hok⟩ := hok
    rw [← Except.ok.inj hok]
    exact ⟨rfl, rfl, rfl⟩

theorem Measured.insert (h : Measured pool) {tid : Hash} {p : PoolTransaction}
    {kis : List KeyImage} (hkis : ∀ ki, ki ∈ kis ↔ ki ∈ p.tx.keyImages)
    (hnodup : p.tx.keyImages.Nodup) (hne : p.binaryTx ≠ [])
    (hok : pool.insert tid p kis = .ok pool') : Measured pool' := by
  obtain ⟨hnone, htx, hsize⟩ := insert_eq hok
  refine ⟨insert_consistent h.consistent hkis hnodup hok, ?_, ?_⟩
  · rw [hsize, htx, Store.total_put _ _ _ hnone, h.totalSize_eq]
    exact Nat.add_comm _ _
  · intro tid' q hq
    rw [htx, Store.get_put] at hq
    split at hq
    · exact Option.some.inj hq ▸ hne
    · exact h.binaryTx_ne tid' q hq

/-! ## Trimming -/

/-- The loop ends on a bounded pool. -/
theorem bounded_of_trimVictim (h : pool.trimVictim = .ok none) : Bounded pool := by
  unfold trimVictim at h
  split at h
  · next hle => exact .inl hle
  · next hlarge =>
    simp only [bind_eq_ok_iff, expect_eq_ok_iff, Prod.exists] at h
    obtain ⟨fee, hashes, hfirst, rhash, ⟨⟩, hhashes, h⟩ := h
    split at h
    · cases h
    · next p hget =>
      have h := Except.ok.inj h
      split at h
      · next hlt =>
        have hmax : 0 < maxPoolSize := by decide
        refine .inr ⟨rhash, p, ?_, hget, by omega⟩
        rw [lowest, hfirst, Option.bind_some, hhashes, Option.map_some]
      · cases h

/-- The victim is the lowest transaction of a pool that stays large without it. -/
theorem trimVictim_eq_some {rhash : Hash} (h : pool.trimVictim = .ok (some rhash)) :
    pool.lowest = some rhash ∧ ∃ p, pool.tx.get rhash = some p ∧
      maxPoolSize + p.binaryTx.length ≤ pool.totalSize := by
  unfold trimVictim at h
  split at h
  · cases h
  · simp only [bind_eq_ok_iff, expect_eq_ok_iff, Prod.exists] at h
    obtain ⟨fee, hashes, hfirst, rhash', ⟨⟩, hhashes, h⟩ := h
    split at h
    · cases h
    · next p hget =>
      have h := Except.ok.inj h
      split at h
      · cases h
      · next hlt =>
        rw [Option.some.injEq] at h
        subst h
        refine ⟨?_, p, hget, Nat.not_lt.1 hlt⟩
        rw [lowest, hfirst, Option.bind_some, hhashes, Option.map_some]

/-- The trimming loop keeps what the removal of a victim keeps, and ends on a bounded pool. -/
theorem trim_keeps {I : Pool → Prop} (hremove : ∀ pool rhash pool', I pool →
      pool.trimVictim = .ok (some rhash) → pool.removeFromPool rhash = .ok pool' → I pool')
    {fuel : ℕ} (h : I pool) (hok : trim fuel pool = .ok pool') : I pool' ∧ Bounded pool' := by
  induction fuel generalizing pool with
  | zero =>
    obtain ⟨victim, hvictim, hok⟩ := bind_eq_ok_iff.1 hok
    cases victim with
    | none => exact Except.ok.inj hok ▸ ⟨h, bounded_of_trimVictim hvictim⟩
    | some rhash => cases hok
  | succ fuel ih =>
    obtain ⟨victim, hvictim, hok⟩ := bind_eq_ok_iff.1 hok
    cases victim with
    | none => exact Except.ok.inj hok ▸ ⟨h, bounded_of_trimVictim hvictim⟩
    | some rhash =>
      obtain ⟨rest, hrest, hok⟩ := bind_eq_ok_iff.1 hok
      exact ih (hremove _ _ _ h hvictim hrest) hok

/-- A new transaction that trimming does not reach: the others fit without a transaction that
precedes it, or they fit. -/
def Secured (tid : Hash) (p : PoolTransaction) (pool : Pool) : Prop :=
  pool.tx.get tid = some p ∧ (pool.totalSize < maxPoolSize + p.binaryTx.length ∨
    ∃ low q, pool.tx.get low = some q ∧ low ≠ tid ∧ Precedes q low p tid ∧
      pool.totalSize < maxPoolSize + p.binaryTx.length + q.binaryTx.length)

/-- No round of the loop removes a secured transaction. -/
theorem Secured.removeFromPool (h : Measured pool) {tid : Hash} {p : PoolTransaction}
    (hsecured : Secured tid p pool) {rhash : Hash} (hvictim : pool.trimVictim = .ok (some rhash))
    (hok : pool.removeFromPool rhash = .ok pool') : Secured tid p pool' := by
  obtain ⟨hlowest, r, hr, hlarge⟩ := trimVictim_eq_some hvictim
  obtain ⟨hsize, htx⟩ := removeFromPool_totalSize hr hok
  obtain ⟨r', hr', hmin⟩ := h.consistent.lowest_spec hlowest
  rw [hr, Option.some.injEq] at hr'
  subst hr'
  obtain ⟨hget, hcase⟩ := hsecured
  have hne : rhash ≠ tid := by
    rintro rfl
    rw [hr, Option.some.injEq] at hget
    subst hget
    rcases hcase with hsmall | ⟨low, q, hq, hlow, hprec, -⟩
    · omega
    · exact (hmin low q hq hlow).asymm hprec
  refine ⟨by rw [htx, Store.get_remove_of_ne _ hne, hget], ?_⟩
  rcases hcase with hsmall | ⟨low, q, hq, hlow, hprec, hsmall⟩
  · exact .inl (by omega)
  · by_cases heq : rhash = low
    · subst heq
      rw [hr, Option.some.injEq] at hq
      subst hq
      have hle := h.length_le hr
      exact .inl (by omega)
    · exact .inr ⟨low, q, by rw [htx, Store.get_remove_of_ne _ heq, hq], hlow, hprec, by omega⟩

end Pool

/-! ## Adding a transaction -/

namespace State

variable {s s' : State}

/-- The lowest transaction of a pool at its maximal size precedes an accepted one. -/
theorem checkTransaction_lowest (h : s.pool.Measured) {tid : Hash} {tx : Transaction}
    {binaryTx : BinaryArray} {unlockHeight : Height} {unlockTimestamp : Timestamp}
    {checkSigs : Bool} {result : DeltaState × Height}
    (hcheck : s.checkTransaction cr c tid tx binaryTx unlockHeight unlockTimestamp checkSigs =
      .accept result) :
    binaryTx ≠ [] ∧ (maxPoolSize ≤ s.pool.totalSize → ∃ low q, s.pool.lowest = some low ∧
      s.pool.tx.get low = some q ∧ low ≠ tid ∧
      Pool.Precedes q low { tx, binaryTx, fee := getTxFee tx.toTransactionPrefix } tid) := by
  simp only [checkTransaction, Check.bind_eq_accept_iff, Check.require_eq_accept_iff,
    Check.lift_eq_accept_iff, Prod.exists] at hcheck
  obtain ⟨-, hfresh, ⟨⟩, hlength, minimalFee, minimalTid, hminimal, -, hfee, -, htid, -⟩ := hcheck
  refine ⟨?_, fun hlarge ↦ ?_⟩
  · intro hnil
    rw [hnil] at hlength
    cases hlength
  · unfold Pool.minimumPoolFeePerByte at hminimal
    split at hminimal
    · next hnone =>
      -- an empty fee index means an empty pool
      have hempty : ∀ tid, s.pool.tx.get tid = none := by
        intro tid
        rw [Option.eq_none_iff_forall_ne_some]
        intro p hp
        obtain ⟨hashes, hhashes, -⟩ := (h.consistent.feeTx_iff p.feePerByte tid).2 ⟨p, hp, rfl⟩
        rw [Store.first_eq_none_iff.1 hnone] at hhashes
        cases hhashes
      have hzero : s.pool.totalSize = 0 := by
        have htx : s.pool.tx = ∅ := Store.ext fun a ↦ by rw [hempty, Store.get_empty]
        rw [h.totalSize_eq, htx, Store.total_empty]
      rw [hzero] at hlarge
      exact absurd hlarge (by decide)
    · next fee hashes hfirst =>
      simp only [bind_eq_ok_iff, expect_eq_ok_iff, Prod.exists] at hminimal
      obtain ⟨low, ⟨⟩, hhashes, hminimal⟩ := hminimal
      obtain ⟨hfeeEq, hlowEq⟩ := Prod.mk.inj (Except.ok.inj hminimal)
      subst hfeeEq hlowEq
      have hlow : s.pool.lowest = some low := by
        rw [Pool.lowest, hfirst, Option.bind_some, hhashes, Option.map_some]
      obtain ⟨q, hq, hqfee⟩ := (h.consistent.feeTx_iff fee low).1
        ⟨hashes, Store.get_of_first hfirst, Store.get_of_first hhashes⟩
      have hne : low ≠ tid := by
        rintro rfl
        rw [hfresh] at hq
        cases hq
      refine ⟨low, q, hlow, hq, hne, ?_⟩
      rw [Pool.Precedes, hqfee]
      have hle := UInt64.not_lt.1 fun hlt ↦ hfee ⟨hlarge, hlt⟩
      rcases UInt64.le_iff_lt_or_eq.1 hle with hlt | heq
      · exact .inl hlt
      · exact .inr ⟨heq, lt_of_le_of_ne (not_lt.1 fun hlt ↦ htid ⟨hlarge, heq.symm, hlt⟩) hne⟩

/-- What `add_transaction` does to a measured and bounded pool; a transaction to be broadcast is
in it afterwards. -/
theorem addTransaction_measured (h : s.pool.Measured ∧ s.pool.Bounded) {tid : Hash}
    {tx : Transaction} {binaryTx : BinaryArray} {result : AddTransactionResult}
    {conflictHeight : Height}
    (hok : s.addTransaction cr c tid tx binaryTx = .ok (result, conflictHeight, s')) :
    (s'.pool.Measured ∧ s'.pool.Bounded) ∧ (result = .broadcastAll → s'.pool.tx.get tid =
      some { tx, binaryTx, fee := getTxFee tx.toTransactionPrefix }) := by
  obtain ⟨tip, -, hok⟩ := bind_eq_ok_iff.1 hok
  unfold addTransactionAt at hok
  split at hok
  · cases hok
  · next hcheck =>
    simp only [Except.ok.injEq, Prod.mk.injEq] at hok
    obtain ⟨rfl, -, rfl⟩ := hok
    exact ⟨h, fun hall ↦ absurd hall (checkTransaction_reject_ne hcheck)⟩
  · next delta conflictHeight' hcheck =>
    have hholds := checkTransaction_holds hcheck
    obtain ⟨hne, hlowest⟩ := checkTransaction_lowest h.1 hcheck
    obtain ⟨⟨pool, displaced⟩, hdisplace, hok⟩ := bind_eq_ok_iff.1 hok
    have hpool : pool.Measured ∧ pool.Bounded := Pool.displace_keeps
      (I := fun pool ↦ pool.Measured ∧ pool.Bounded)
      (fun _ _ _ h hrem ↦ ⟨h.1.removeFromPool hrem, h.2.removeFromPool h.1 hrem⟩) h hdisplace
    dsimp only at hok
    split at hok
    · obtain ⟨pool₁, hinsert, hok⟩ := bind_eq_ok_iff.1 hok
      obtain ⟨pool₂, htrim, hok⟩ := bind_eq_ok_iff.1 hok
      have hmeasured := hpool.1.insert (fun ki ↦ hholds.keys_perm.mem_iff) hholds.nodup hne hinsert
      obtain ⟨hnone, htx, hsize⟩ := Pool.insert_eq hinsert
      have hsecured : pool₁.Secured tid
          { tx, binaryTx, fee := getTxFee tx.toTransactionPrefix } := by
        refine ⟨by rw [htx, Store.get_put_self], ?_⟩
        by_cases hsmall : pool.totalSize < maxPoolSize
        · exact .inl (by omega)
        · have hkept : ∀ low q, s.pool.tx.get low = some q →
              pool.Measured ∧ pool.KeptOrGone low q s.pool.totalSize := fun low q hq ↦
            Pool.displace_keeps
              (I := fun pool ↦ pool.Measured ∧ pool.KeptOrGone low q s.pool.totalSize)
              (fun _ _ _ h hrem ↦ ⟨h.1.removeFromPool hrem, h.2.removeFromPool h.1 hrem⟩)
              ⟨h.1, .inl ⟨hq, le_refl _⟩⟩ hdisplace
          have hsize_le : pool.totalSize ≤ s.pool.totalSize := Pool.displace_keeps
            (I := fun pool ↦ pool.totalSize ≤ s.pool.totalSize)
            (fun _ _ _ h hrem ↦ (Pool.removeFromPool_totalSize_le hrem).trans h) (le_refl _)
            hdisplace
          obtain ⟨low, q, hlow, hq, hlowNe, hprec⟩ := hlowest (by omega)
          have hlength : 0 < q.binaryTx.length :=
            List.length_pos_iff.2 (h.1.binaryTx_ne low q hq)
          -- without its lowest transaction the pool is small
          have hwithout : s.pool.totalSize < maxPoolSize + q.binaryTx.length := by
            rcases h.2 with hle | ⟨low', q', hlow', hq', hlt⟩
            · omega
            · rw [hlow, Option.some.injEq] at hlow'
              rw [← hlow', hq, Option.some.injEq] at hq'
              rw [← hq'] at hlt
              omega
          rcases (hkept low q hq).2 with ⟨hget, -⟩ | hgone
          · refine .inr ⟨low, q, ?_, hlowNe, hprec, by omega⟩
            rw [htx, Store.get_put_of_ne _ _ (Ne.symm hlowNe), hget]
          · exact absurd hsmall (by omega)
      obtain ⟨⟨hmeasured₂, hsecured₂⟩, hbounded⟩ := Pool.trim_keeps
        (I := fun pool ↦ pool.Measured ∧
          pool.Secured tid { tx, binaryTx, fee := getTxFee tx.toTransactionPrefix })
        (fun _ _ _ h hvictim hrem ↦ ⟨h.1.removeFromPool hrem, h.2.removeFromPool h.1 hvictim hrem⟩)
        ⟨hmeasured, hsecured⟩ htrim
      simp only [pure, Except.pure, Except.ok.injEq, Prod.mk.injEq] at hok
      obtain ⟨-, -, rfl⟩ := hok
      exact ⟨⟨hmeasured₂, hbounded⟩, fun _ ↦ hsecured₂.1⟩
    · simp only [pure, Except.pure, Except.ok.injEq, Prod.mk.injEq] at hok
      obtain ⟨rfl, -, rfl⟩ := hok
      exact ⟨hpool, fun hall ↦ by cases hall⟩

end State

/-! ## The pool of every visited state -/

theorem pool_measured_preserved {P : State → PreparedBlock → Prop} :
    Preserves (Change cr c P) fun s ↦ s.pool.Measured ∧ s.pool.Bounded :=
  pool_preserved (I := fun pool ↦ pool.Measured ∧ pool.Bounded)
    ⟨Pool.measured_empty, .inl (Nat.zero_le _)⟩
    (fun _ _ _ h hrem ↦ ⟨h.1.removeFromPool hrem, h.2.removeFromPool h.1 hrem⟩)
    fun h hok ↦ (State.addTransaction_measured h hok).1

theorem Visited.pool_measured {s : State} (h : Visited cr c s) :
    s.pool.Measured ∧ s.pool.Bounded :=
  pool_measured_preserved.star h ⟨Pool.measured_empty, .inl (Nat.zero_le _)⟩

/-- In every state that a run passes through the pool's maps and its total agree and its size is
bounded, no key image is spent twice in it, and a transaction to be broadcast is in it. -/
theorem Visited.pool_sound {s : State} (h : Visited cr c s) :
    s.pool.Measured ∧ s.pool.Bounded ∧
    (∀ ki tid tid' p p', s.pool.tx.get tid = some p → s.pool.tx.get tid' = some p' →
      ki ∈ p.tx.keyImages → ki ∈ p'.tx.keyImages → tid = tid') ∧
    ∀ (tid : Hash) (tx : Transaction) (binaryTx : BinaryArray) (conflictHeight : Height)
      (s' : State), s.addTransaction cr c tid tx binaryTx =
        .ok (.broadcastAll, conflictHeight, s') →
      s'.pool.tx.get tid = some { tx, binaryTx, fee := getTxFee tx.toTransactionPrefix } := by
  have hpool := h.pool_measured
  refine ⟨hpool.1, hpool.2, fun ki tid tid' p p' hp hp' hki hki' ↦ ?_,
    fun tid tx binaryTx conflictHeight s' hok ↦ (State.addTransaction_measured hpool hok).2 rfl⟩
  have hfirst := (hpool.1.consistent.kiTx_iff ki tid).2 ⟨p, hp, hki⟩
  have hsecond := (hpool.1.consistent.kiTx_iff ki tid').2 ⟨p', hp', hki'⟩
  rw [hfirst, Option.some.injEq] at hsecond
  exact hsecond

/-- A pool with two transactions is measured and bounded. -/
theorem Visited.pool_sound_spendingEvents : ∃ s : State, Visited sampleCrypto mainnet s ∧
    s.pool.tx.get cheapSpend.sampleHash ≠ none ∧ s.pool.Measured ∧ s.pool.Bounded := by
  obtain ⟨s, hrun, htest⟩ := returns_iff.1 runFromStart_spendingEvents
  have hvisited := (reachable_of_runFromStart hrun).visited
  rw [decide_eq_true_eq] at htest
  have hsound := Visited.pool_sound hvisited
  exact ⟨s, hvisited, htest.1, hsound.1, hsound.2.1⟩

end Naza
