import Naza.Wallet.Reorganization

/-!
# The balance of the wallet

The stored balances are the sums over the unspent index and the two lock indexes, and the indexes
agree with each other, whatever is received, locked, unlocked, spent or replaced.
-/

open Lib

namespace Naza

/-! ## Balances as sums -/

namespace Api.Balance

instance : Zero Balance := ⟨{}⟩

instance : Add Balance where
  add a b := {
    spendable := a.spendable + b.spendable
    spendableDust := a.spendableDust + b.spendableDust
    lockedOrUnconfirmed := a.lockedOrUnconfirmed + b.lockedOrUnconfirmed
    spendableOutputs := a.spendableOutputs + b.spendableOutputs
    spendableDustOutputs := a.spendableDustOutputs + b.spendableDustOutputs
    lockedOrUnconfirmedOutputs := a.lockedOrUnconfirmedOutputs + b.lockedOrUnconfirmedOutputs }

theorem add_def (a b : Balance) : a + b = {
    spendable := a.spendable + b.spendable
    spendableDust := a.spendableDust + b.spendableDust
    lockedOrUnconfirmed := a.lockedOrUnconfirmed + b.lockedOrUnconfirmed
    spendableOutputs := a.spendableOutputs + b.spendableOutputs
    spendableDustOutputs := a.spendableDustOutputs + b.spendableDustOutputs
    lockedOrUnconfirmedOutputs := a.lockedOrUnconfirmedOutputs + b.lockedOrUnconfirmedOutputs } :=
  rfl

theorem zero_def : (0 : Balance) = {} := rfl

instance : AddCommMonoid Balance where
  add_assoc a b c := by simp [add_def, Nat.add_assoc]
  zero_add a := by simp [add_def, zero_def]
  add_zero a := by simp [add_def, zero_def]
  add_comm a b := by simp [add_def, Nat.add_comm]
  nsmul := nsmulRec

/-- A balance is zero when both sums that `modify_balance` looks at are. -/
theorem eq_zero_iff {b : Balance} : b.total = 0 ∧ b.totalOutputs = 0 ↔ b = 0 := by
  constructor
  · rintro ⟨h, h'⟩
    simp only [total, totalOutputs] at h h'
    ext <;> simp [zero_def] <;> omega
  · rintro rfl
    simp [total, totalOutputs, zero_def]

end Api.Balance

namespace Api.Output

/-- What an unspent output adds to a balance. -/
def spendable (o : Output) : Balance :=
  if o.dust then { spendableDust := o.amount.toNat, spendableDustOutputs := 1 }
  else { spendable := o.amount.toNat, spendableOutputs := 1 }

/-- What a locked output adds to a balance. -/
def locked (o : Output) : Balance where
  lockedOrUnconfirmed := o.amount.toNat
  lockedOrUnconfirmedOutputs := 1

/-- The output counts for the address; the empty one stands for the whole wallet. -/
def OfAddress (a : String) (o : Output) : Prop := a = "" ∨ o.address = a

instance (a : String) (o : Output) : Decidable (o.OfAddress a) := by
  unfold OfAddress
  infer_instance

end Api.Output

theorem combineBalance_spendable (b : Api.Balance) (o : Api.Output) :
    combineBalance b o 0 1 = .ok (b + o.spendable) := by
  cases hdust : o.dust <;>
    simp [combineBalance, changeTotal, changeCount, Api.Output.spendable, hdust,
      Api.Balance.add_def] <;> rfl

theorem combineBalance_spend (b : Api.Balance) (o : Api.Output) :
    combineBalance (b + o.spendable) o 0 (-1) = .ok b := by
  cases hdust : o.dust <;>
    simp [combineBalance, changeTotal, changeCount, Api.Output.spendable, hdust,
      Api.Balance.add_def] <;> rfl

theorem combineBalance_lock (b : Api.Balance) (o : Api.Output) :
    combineBalance b o 1 0 = .ok (b + o.locked) := by
  cases hdust : o.dust <;>
    simp [combineBalance, changeTotal, changeCount, Api.Output.locked, hdust,
      Api.Balance.add_def] <;> rfl

theorem combineBalance_unlock (b : Api.Balance) (o : Api.Output) :
    combineBalance (b + o.locked) o (-1) 0 = .ok b := by
  cases hdust : o.dust <;>
    simp [combineBalance, changeTotal, changeCount, Api.Output.locked, hdust,
      Api.Balance.add_def] <;> rfl

/-! ## The stored balances -/

namespace WalletTables

variable {c : Currency} {t t' : WalletTables} {bad : WalletFault → Prop}

/-- The balance stored for an address. -/
def balanceOf (t : WalletTables) (a : String) : Api.Balance := (t.balances.table.get a).getD 0

/-- The sum of a part of a balance over the outputs of an address. -/
def sumOf (a : String) (part : Api.Output → Api.Balance) (outputs : Multiset Api.Output) :
    Api.Balance :=
  ((outputs.filter (Api.Output.OfAddress a)).map part).sum

theorem sumOf_cons (a : String) (part : Api.Output → Api.Balance) (o : Api.Output)
    (outputs : Multiset Api.Output) : sumOf a part (o ::ₘ outputs) =
      (if o.OfAddress a then part o else 0) + sumOf a part outputs := by
  unfold sumOf
  split
  · next h => rw [Multiset.filter_cons_of_pos _ h, Multiset.map_cons, Multiset.sum_cons]
  · next h => rw [Multiset.filter_cons_of_neg _ h, zero_add]

/-- A lock index, by height or by timestamp. -/
def locksBy (byHeight : Bool) (t : WalletTables) :
    LoggedTable (UInt32 × Amount × UInt32) Api.Output :=
  if byHeight then t.lockedByHeight else t.lockedByTimestamp

theorem lockIndex_eq (unlockTime : UnlockMoment) (t : WalletTables) :
    t.lockIndex c unlockTime = t.locksBy (isTransactionSpendTimeBlock c unlockTime) := rfl

/-- The balance that the indexes add up to. -/
def indexedBalance (t : WalletTables) (a : String) : Api.Balance :=
  sumOf a Api.Output.spendable t.unspent.table.values +
    (sumOf a Api.Output.locked t.lockedByHeight.table.values +
      sumOf a Api.Output.locked t.lockedByTimestamp.table.values)

/-- What `modify_balance` does where `combine_balance` succeeds for both balances. -/
theorem modifyBalance_of_combine {o : Api.Output} {lockedOp spendableOp : Int}
    {f : String → Api.Balance}
    (hcombine : ∀ a, o.OfAddress a →
      combineBalance (t.balanceOf a) o lockedOp spendableOp = .ok (f a))
    (hother : ∀ a, ¬ o.OfAddress a → f a = t.balanceOf a) :
    ∃ balances, t.modifyBalance o lockedOp spendableOp = .ok { t with balances } ∧
      ∀ a, ({ t with balances } : WalletTables).balanceOf a = f a := by
  have hown : combineBalance ((t.balances.table.get o.address).getD {}) o lockedOp spendableOp =
      .ok (f o.address) := hcombine o.address (.inr rfl)
  have hall : combineBalance ((t.balances.table.get "").getD {}) o lockedOp spendableOp =
      .ok (f "") := hcombine "" (.inl rfl)
  refine ⟨_, by rw [modifyBalance, hown, hall]; rfl, fun a ↦ ?_⟩
  have hwrite : ∀ (balances : LoggedTable String Api.Balance) (key : String) (b : Api.Balance),
      ((if b.total = 0 ∧ b.totalOutputs = 0 then balances.remove key
        else balances.put key b).table.get a).getD 0 =
          if key = a then b else (balances.table.get a).getD 0 := by
    intro balances key b
    split
    · next hzero =>
      rw [LoggedTable.table_remove, Store.get_remove, Api.Balance.eq_zero_iff.1 hzero]
      split <;> rfl
    · rw [LoggedTable.table_put, Store.get_put]
      split <;> rfl
  rw [balanceOf]
  dsimp only
  rw [hwrite, hwrite]
  split
  · next heq => rw [heq]
  · next hne =>
    split
    · next heq => rw [heq]
    · next hne' => exact (hother a fun h ↦ h.elim (fun h ↦ hne h.symm) hne').symm

/-- `modify_balance` for an output that comes. -/
theorem modifyBalance_add {o : Api.Output} {lockedOp spendableOp : Int} {part : Api.Balance}
    (hpart : ∀ b, combineBalance b o lockedOp spendableOp = .ok (b + part)) :
    ∃ balances, t.modifyBalance o lockedOp spendableOp = .ok { t with balances } ∧
      ∀ a, ({ t with balances } : WalletTables).balanceOf a =
        (if o.OfAddress a then part else 0) + t.balanceOf a := by
  refine modifyBalance_of_combine (fun a h ↦ ?_) fun a h ↦ ?_
  · rw [hpart, if_pos h, add_comm]
  · rw [if_neg h, zero_add]

/-- `modify_balance` for an output that goes, where the balances hold it. -/
theorem modifyBalance_sub {o : Api.Output} {lockedOp spendableOp : Int} {part : Api.Balance}
    {rest : String → Api.Balance}
    (hpart : ∀ b, combineBalance (b + part) o lockedOp spendableOp = .ok b)
    (hrest : ∀ a, t.balanceOf a = (if o.OfAddress a then part else 0) + rest a) :
    ∃ balances, t.modifyBalance o lockedOp spendableOp = .ok { t with balances } ∧
      ∀ a, ({ t with balances } : WalletTables).balanceOf a = rest a := by
  refine modifyBalance_of_combine (fun a h ↦ ?_) fun a h ↦ ?_
  · rw [hrest, if_pos h, add_comm, hpart]
  · rw [hrest, if_neg h, zero_add]

/-! ## The indexes -/

/-- The balances are the sums over the indexes, the two unspent indexes hold the same outputs, and
locked outputs are found under their keys and, where they have one, under their key image. -/
structure Indexed (c : Currency) (t : WalletTables) : Prop where
  balance : ∀ a, t.balanceOf a = t.indexedBalance a
  unspent : ∀ k o, t.unspent.table.get k = some o → o.heightAmounGi = k
  unspentByAddress : ∀ a k, t.unspentByAddress.table.get (a, k) ≠ none ↔
    ∃ o, t.unspent.table.get k = some o ∧ o.address = a
  locked : ∀ byHeight k o, (t.locksBy byHeight).table.get k = some o →
    lockKey o = k ∧ isTransactionSpendTimeBlock c o.unlockTime = byHeight
  lockedByKeyImage : ∀ ki amount index unlockTime,
    t.lockedByKeyImage.table.get (ki, amount, index) = some unlockTime ↔
      ki ≠ 0 ∧ ∃ o, (t.lockIndex c unlockTime).table.get
        (clampUnlockTime unlockTime, amount, index) = some o ∧ o.keyImage = ki ∧
          o.unlockTime = unlockTime

/-- An unspent output with a key image is the one that the key image points to. -/
structure PointedTo (t : WalletTables) : Prop where
  keyImage : ∀ k o, t.unspent.table.get k = some o → o.keyImage ≠ 0 →
    t.keyImages.table.get o.keyImage = some k
  zero : t.keyImages.table.get 0 = none

/-- The output is in its lock index. -/
def Locked (c : Currency) (t : WalletTables) (o : Api.Output) : Prop :=
  (t.lockIndex c o.unlockTime).table.get (lockKey o) = some o

/-- The tables that locked outputs are in. -/
def locks (t : WalletTables) := (t.lockedByHeight, t.lockedByTimestamp, t.lockedByKeyImage)

theorem locksBy_of_locks (h : t'.locks = t.locks) (byHeight : Bool) :
    t'.locksBy byHeight = t.locksBy byHeight := by
  simp only [locks, Prod.mk.injEq] at h
  rw [locksBy, locksBy, h.1, h.2.1]

theorem locked_of_locks {o : Api.Output} (h : t'.locks = t.locks) (hl : t.Locked c o) :
    t'.Locked c o := by
  rwa [Locked, lockIndex_eq, locksBy_of_locks h]

/-! ### Unspent outputs come and go -/

/-- An output added to the unspent indexes. -/
theorem Indexed.addToUnspentIndex (h : Indexed c t) (o : Api.Output) :
    Ends (fun t' ↦ Indexed c t' ∧ t.unspent.table.get o.heightAmounGi = none ∧
        t'.unspent.table = t.unspent.table.put o.heightAmounGi o ∧ t'.keyImages = t.keyImages ∧
        t'.locks = t.locks) (· = .underflow) (t.addToUnspentIndex o) := by
  obtain ⟨balances, hmodify, hbalance⟩ :=
    t.modifyBalance_add (o := o) (combineBalance_spendable · o)
  rw [WalletTables.addToUnspentIndex, hmodify]
  refine (ends_walletWrite (by simp) _).bind fun unspent hunspent ↦
    (ends_walletWrite (by simp) _).bind fun unspentByAddress hby ↦ ?_
  obtain ⟨hnew, rfl⟩ := LoggedTable.putNew_eq_ok_iff.1 hunspent
  obtain ⟨-, rfl⟩ := LoggedTable.putNew_eq_ok_iff.1 hby
  refine ⟨?_, hnew, by simp, rfl, rfl⟩
  refine ⟨fun a ↦ ?_, fun k o' hget ↦ ?_, fun a k ↦ ?_, h.locked, h.lockedByKeyImage⟩
  · have hsum : t.indexedBalance a = t.balanceOf a := (h.balance a).symm
    calc ({ t with balances } : WalletTables).balanceOf a
        = (if o.OfAddress a then o.spendable else 0) + t.indexedBalance a := by
          rw [hbalance, hsum]
      _ = _ := by
          simp only [indexedBalance, LoggedTable.table_put, Store.values_put _ _ hnew, sumOf_cons,
            add_assoc]
  · simp only [LoggedTable.table_put, Store.get_put] at hget
    split at hget
    · next heq => rw [← Option.some.inj hget, heq]
    · exact h.unspent k o' hget
  · simp only [LoggedTable.table_put, Store.get_put, Prod.mk.injEq]
    by_cases hk : o.heightAmounGi = k
    · subst hk
      by_cases ha : o.address = a
      · simp [ha]
      · have hnone : t.unspentByAddress.table.get (a, o.heightAmounGi) = none := by
          by_contra hne
          obtain ⟨o', ho', -⟩ := (h.unspentByAddress a _).1 hne
          rw [hnew] at ho'
          cases ho'
        simp [ha, hnone]
    · simp only [hk, and_false, if_false]
      exact h.unspentByAddress a k

/-- An output removed from the unspent indexes. -/
theorem Indexed.removeFromUnspentIndex (h : Indexed c t) {o : Api.Output}
    (hget : t.unspent.table.get o.heightAmounGi = some o) :
    Ends (fun t' ↦ Indexed c t' ∧ t'.unspent.table = t.unspent.table.remove o.heightAmounGi ∧
        t'.keyImages = t.keyImages ∧ t'.locks = t.locks) (· = .underflow)
      (t.removeFromUnspentIndex o) := by
  have hrest : ∀ a, t.balanceOf a = (if o.OfAddress a then o.spendable else 0) +
      ({ t with unspent := t.unspent.remove o.heightAmounGi } : WalletTables).indexedBalance a := by
    intro a
    rw [h.balance a]
    simp only [indexedBalance, LoggedTable.table_remove, Store.values_of_get _ hget, sumOf_cons,
      add_assoc]
  obtain ⟨balances, hmodify, hbalance⟩ := t.modifyBalance_sub (combineBalance_spend · o) hrest
  rw [WalletTables.removeFromUnspentIndex, hmodify]
  refine (ends_walletWrite (by simp) _).bind fun unspent hunspent ↦
    (ends_walletWrite (by simp) _).bind fun unspentByAddress hby ↦ ?_
  obtain ⟨-, rfl⟩ := LoggedTable.removeExisting_eq_ok_iff.1 hunspent
  obtain ⟨-, rfl⟩ := LoggedTable.removeExisting_eq_ok_iff.1 hby
  refine ⟨?_, by simp, rfl, rfl⟩
  refine ⟨hbalance, fun k o' hget' ↦ ?_, fun a k ↦ ?_, h.locked, h.lockedByKeyImage⟩
  · simp only [LoggedTable.table_remove, Store.get_remove] at hget'
    split at hget'
    · cases hget'
    · exact h.unspent k o' hget'
  · simp only [LoggedTable.table_remove, Store.get_remove, Prod.mk.injEq]
    by_cases hk : o.heightAmounGi = k
    · subst hk
      by_cases ha : o.address = a
      · simp [ha]
      · have hnone : t.unspentByAddress.table.get (a, o.heightAmounGi) = none := by
          by_contra hne
          obtain ⟨o', ho', ha'⟩ := (h.unspentByAddress a _).1 hne
          rw [hget, Option.some.injEq] at ho'
          exact ha (ho' ▸ ha')
        simp [ha, hnone]
    · simp only [hk, and_false, if_false]
      exact h.unspentByAddress a k

/-- Where a key image points is not in the other indexes. -/
theorem Indexed.updateKeyimage (h : Indexed c t) (ki : KeyImage) (value : HeightAmounGi)
    (nooverwrite : Bool) :
    Ends (fun t' ↦ Indexed c t' ∧ t'.unspent = t.unspent ∧ t'.locks = t.locks ∧
        t'.keyImages.table = if ki = 0 then t.keyImages.table else t.keyImages.table.put ki value)
      (· = .underflow) (t.updateKeyimage ki value nooverwrite) := by
  rw [WalletTables.updateKeyimage]
  split
  · exact ⟨h, rfl, rfl, rfl⟩
  · have hset : ∀ keyImages, Indexed c { t with keyImages } := fun _ ↦
      ⟨h.balance, h.unspent, h.unspentByAddress, h.locked, h.lockedByKeyImage⟩
    split
    · refine (ends_walletWrite (by simp) _).bind fun keyImages hput ↦ ?_
      obtain ⟨-, rfl⟩ := LoggedTable.putNew_eq_ok_iff.1 hput
      exact ⟨hset _, rfl, rfl, by simp⟩
    · exact ⟨hset _, rfl, rfl, by simp⟩

/-! ### Outputs are locked and unlocked -/

theorem locksBy_withLockIndex (unlockTime : UnlockMoment)
    (index : LoggedTable (UInt32 × Amount × UInt32) Api.Output) (byHeight : Bool)
    (t : WalletTables) : (t.withLockIndex c unlockTime index).locksBy byHeight =
      if isTransactionSpendTimeBlock c unlockTime = byHeight then index
      else t.locksBy byHeight := by
  unfold withLockIndex locksBy
  cases isTransactionSpendTimeBlock c unlockTime <;> cases byHeight <;> rfl

/-- The sums over the indexes where a lock index is replaced. -/
theorem indexedBalance_withLockIndex (unlockTime : UnlockMoment)
    (index : LoggedTable (UInt32 × Amount × UInt32) Api.Output) {a : String} {x y : Api.Balance}
    (h : x + sumOf a Api.Output.locked index.table.values =
      y + sumOf a Api.Output.locked (t.lockIndex c unlockTime).table.values) :
    x + (t.withLockIndex c unlockTime index).indexedBalance a = y + t.indexedBalance a := by
  unfold withLockIndex indexedBalance
  unfold lockIndex at h
  split
  · next hblock =>
    rw [if_pos hblock] at h
    dsimp only
    rw [add_left_comm, ← add_assoc x, h, add_assoc y, add_left_comm]
  · next hblock =>
    rw [if_neg hblock] at h
    dsimp only
    rw [add_left_comm x, add_left_comm x, h, add_left_comm y, add_left_comm y]

@[simp]
theorem unspent_withLockIndex (unlockTime : UnlockMoment)
    (index : LoggedTable (UInt32 × Amount × UInt32) Api.Output) (t : WalletTables) :
    (t.withLockIndex c unlockTime index).unspent = t.unspent := by
  unfold withLockIndex
  split <;> rfl

@[simp]
theorem unspentByAddress_withLockIndex (unlockTime : UnlockMoment)
    (index : LoggedTable (UInt32 × Amount × UInt32) Api.Output) (t : WalletTables) :
    (t.withLockIndex c unlockTime index).unspentByAddress = t.unspentByAddress := by
  unfold withLockIndex
  split <;> rfl

@[simp]
theorem keyImages_withLockIndex (unlockTime : UnlockMoment)
    (index : LoggedTable (UInt32 × Amount × UInt32) Api.Output) (t : WalletTables) :
    (t.withLockIndex c unlockTime index).keyImages = t.keyImages := by
  unfold withLockIndex
  split <;> rfl

@[simp]
theorem lockedByKeyImage_withLockIndex (unlockTime : UnlockMoment)
    (index : LoggedTable (UInt32 × Amount × UInt32) Api.Output) (t : WalletTables) :
    (t.withLockIndex c unlockTime index).lockedByKeyImage = t.lockedByKeyImage := by
  unfold withLockIndex
  split <;> rfl

@[simp]
theorem balanceOf_withLockIndex (unlockTime : UnlockMoment)
    (index : LoggedTable (UInt32 × Amount × UInt32) Api.Output) (t : WalletTables) :
    (t.withLockIndex c unlockTime index).balanceOf = t.balanceOf := by
  unfold withLockIndex
  split <;> rfl

/-- The entry that a lock index has for a key is the output of that key. -/
theorem Indexed.locked_of_lockIndex (h : Indexed c t) {unlockTime : UnlockMoment}
    {k : UInt32 × Amount × UInt32} {o : Api.Output}
    (hget : (t.lockIndex c unlockTime).table.get k = some o) :
    lockKey o = k ∧
      isTransactionSpendTimeBlock c o.unlockTime = isTransactionSpendTimeBlock c unlockTime :=
  h.locked _ k o hget

/-- The entries of the lock indexes with one put. -/
theorem get_locksBy_put (o o' : Api.Output) (byHeight : Bool) (k : UInt32 × Amount × UInt32) :
    ((t.withLockIndex c o.unlockTime ((t.lockIndex c o.unlockTime).put (lockKey o) o)).locksBy
      byHeight).table.get k = some o' ↔
    (isTransactionSpendTimeBlock c o.unlockTime = byHeight ∧ lockKey o = k ∧ o = o') ∨
      (¬ (isTransactionSpendTimeBlock c o.unlockTime = byHeight ∧ lockKey o = k) ∧
        (t.locksBy byHeight).table.get k = some o') := by
  rw [locksBy_withLockIndex]
  by_cases hblock : isTransactionSpendTimeBlock c o.unlockTime = byHeight
  · rw [if_pos hblock, LoggedTable.table_put, Store.get_put, lockIndex_eq, hblock]
    by_cases hk : lockKey o = k <;> simp [hk]
  · simp [hblock]

/-- The entries of the lock indexes with one removed. -/
theorem get_locksBy_remove (o o' : Api.Output) (byHeight : Bool) (k : UInt32 × Amount × UInt32) :
    ((t.withLockIndex c o.unlockTime ((t.lockIndex c o.unlockTime).remove (lockKey o))).locksBy
      byHeight).table.get k = some o' ↔
    ¬ (isTransactionSpendTimeBlock c o.unlockTime = byHeight ∧ lockKey o = k) ∧
      (t.locksBy byHeight).table.get k = some o' := by
  rw [locksBy_withLockIndex]
  by_cases hblock : isTransactionSpendTimeBlock c o.unlockTime = byHeight
  · rw [if_pos hblock, LoggedTable.table_remove, Store.get_remove, lockIndex_eq, hblock]
    by_cases hk : lockKey o = k <;> simp [hk]
  · simp [hblock]

/-- The indexes with an output locked. -/
private theorem Indexed.withLocked (h : Indexed c t) {o : Api.Output}
    {balances : LoggedTable String Api.Balance}
    {m : LoggedTable (KeyImage × Amount × UInt32) UnlockMoment}
    (hbalance : ∀ a, ({ t with balances } : WalletTables).balanceOf a =
      (if o.OfAddress a then o.locked else 0) + t.balanceOf a)
    (hfree : (t.lockIndex c o.unlockTime).table.get (lockKey o) = none)
    (hm : ∀ ki amount index unlockTime, m.table.get (ki, amount, index) = some unlockTime ↔
      (ki ≠ 0 ∧ o.keyImage = ki ∧ o.amount = amount ∧ o.globalIndex = index ∧
          o.unlockTime = unlockTime) ∨
        t.lockedByKeyImage.table.get (ki, amount, index) = some unlockTime) :
    Indexed c { (withLockIndex c o.unlockTime ((t.lockIndex c o.unlockTime).put (lockKey o) o)
      { t with balances }) with lockedByKeyImage := m } := by
  refine ⟨fun a ↦ ?_, fun k o' hget ↦ ?_, fun a k ↦ ?_, fun byHeight k o' hget ↦ ?_,
    fun ki amount index unlockTime ↦ ?_⟩
  · have hsum := indexedBalance_withLockIndex (c := c) (t := { t with balances }) o.unlockTime
      ((t.lockIndex c o.unlockTime).put (lockKey o) o) (a := a)
      (x := 0) (y := if o.OfAddress a then o.locked else 0) (by
        rw [LoggedTable.table_put, Store.values_put _ _ hfree, sumOf_cons, zero_add]
        rfl)
    have hsame := balanceOf_withLockIndex (c := c) o.unlockTime
      ((t.lockIndex c o.unlockTime).put (lockKey o) o) { t with balances }
    calc _ = ({ t with balances } : WalletTables).balanceOf a := congrFun hsame a
      _ = (if o.OfAddress a then o.locked else 0) + t.indexedBalance a := by
          rw [hbalance, h.balance]
      _ = _ := hsum.symm.trans (zero_add _)
  · rw [unspent_withLockIndex] at hget
    exact h.unspent k o' hget
  · rw [unspent_withLockIndex, unspentByAddress_withLockIndex]
    exact h.unspentByAddress a k
  · rcases (get_locksBy_put (t := { t with balances }) o o' byHeight k).1 hget with
      ⟨hblock, hk, rfl⟩ | ⟨-, hget⟩
    · exact ⟨hk, hblock⟩
    · exact h.locked byHeight k o' hget
  · have hput := fun o' ↦ get_locksBy_put (c := c) (t := { t with balances }) o o'
      (isTransactionSpendTimeBlock c unlockTime) (clampUnlockTime unlockTime, amount, index)
    dsimp only
    rw [hm, h.lockedByKeyImage]
    constructor
    · rintro (⟨hki, rfl, rfl, rfl, rfl⟩ | ⟨hki, o', hget, hki', hut⟩)
      · exact ⟨hki, o, (hput o).2 (.inl ⟨rfl, rfl, rfl⟩), rfl, rfl⟩
      · refine ⟨hki, o', (hput o').2 (.inr ⟨?_, hget⟩), hki', hut⟩
        rintro ⟨hblock, hk⟩
        rw [lockIndex_eq, hblock, hk, ← lockIndex_eq, hget] at hfree
        cases hfree
    · rintro ⟨hki, o', hget, hki', hut⟩
      rcases (hput o').1 hget with ⟨-, hk, rfl⟩ | ⟨-, hget⟩
      · simp only [lockKey, Prod.mk.injEq] at hk
        exact .inl ⟨hki, hki', hk.2.1, hk.2.2, hut⟩
      · exact .inr ⟨hki, o', hget, hki', hut⟩

/-- An output added to the lock indexes. -/
theorem Indexed.addToLockIndex (h : Indexed c t) (o : Api.Output) :
    Ends (fun t' ↦ Indexed c t' ∧ t'.unspent = t.unspent ∧ t'.keyImages = t.keyImages)
      (· = .underflow) (t.addToLockIndex c o) := by
  obtain ⟨balances, hmodify, hbalance⟩ := t.modifyBalance_add (combineBalance_lock · o)
  rw [WalletTables.addToLockIndex, hmodify]
  refine (ends_walletWrite (by simp) _).bind fun index hindex ↦ ?_
  obtain ⟨hfree, rfl⟩ := LoggedTable.putNew_eq_ok_iff.1 hindex
  dsimp only
  split
  · next hki =>
    refine (ends_walletWrite (by simp) _).bind fun m hput ↦ ?_
    obtain ⟨hnone, rfl⟩ := LoggedTable.putNew_eq_ok_iff.1 hput
    refine ⟨h.withLocked hbalance hfree fun ki amount i unlockTime ↦ ?_, by simp, by simp⟩
    rw [lockedByKeyImage_withLockIndex] at hnone ⊢
    rw [LoggedTable.table_put, Store.get_put]
    split
    · next heq =>
      simp only [Prod.mk.injEq] at heq
      obtain ⟨rfl, rfl, rfl⟩ := heq
      simp [hki, hnone]
    · next hne => grind
  · next hki =>
    refine ⟨?_, by simp, by simp⟩
    have hsame := lockedByKeyImage_withLockIndex (c := c) o.unlockTime
      ((t.lockIndex c o.unlockTime).put (lockKey o) o) { t with balances }
    refine h.withLocked hbalance hfree (m := (withLockIndex c o.unlockTime
      ((t.lockIndex c o.unlockTime).put (lockKey o) o) { t with balances }).lockedByKeyImage) ?_
    rw [hsame]
    grind

/-- The indexes with an output no longer locked. -/
private theorem Indexed.withoutLocked (h : Indexed c t) {o : Api.Output}
    {balances : LoggedTable String Api.Balance}
    {m : LoggedTable (KeyImage × Amount × UInt32) UnlockMoment}
    (hbalance : ∀ a, ({ t with balances } : WalletTables).balanceOf a =
      (t.withLockIndex c o.unlockTime
        ((t.lockIndex c o.unlockTime).remove (lockKey o))).indexedBalance a)
    (hget : t.Locked c o)
    (hm : ∀ ki amount index unlockTime, m.table.get (ki, amount, index) = some unlockTime ↔
      ¬ (o.keyImage = ki ∧ o.amount = amount ∧ o.globalIndex = index) ∧
        t.lockedByKeyImage.table.get (ki, amount, index) = some unlockTime) :
    Indexed c { (withLockIndex c o.unlockTime ((t.lockIndex c o.unlockTime).remove (lockKey o))
      { t with balances }) with lockedByKeyImage := m } := by
  refine ⟨fun a ↦ ?_, fun k o' hget ↦ ?_, fun a k ↦ ?_, fun byHeight k o' hget ↦ ?_,
    fun ki amount index unlockTime ↦ ?_⟩
  · have hsame := balanceOf_withLockIndex (c := c) o.unlockTime
      ((t.lockIndex c o.unlockTime).remove (lockKey o)) { t with balances }
    calc _ = ({ t with balances } : WalletTables).balanceOf a := congrFun hsame a
      _ = _ := hbalance a
      _ = _ := by
          unfold withLockIndex
          split <;> rfl
  · rw [unspent_withLockIndex] at hget
    exact h.unspent k o' hget
  · rw [unspent_withLockIndex, unspentByAddress_withLockIndex]
    exact h.unspentByAddress a k
  · exact h.locked byHeight k o'
      ((get_locksBy_remove (t := { t with balances }) o o' byHeight k).1 hget).2
  · have hremove := fun o' ↦ get_locksBy_remove (c := c) (t := { t with balances }) o o'
      (isTransactionSpendTimeBlock c unlockTime) (clampUnlockTime unlockTime, amount, index)
    dsimp only
    rw [hm, h.lockedByKeyImage]
    constructor
    · rintro ⟨hne, hki, o', hget', hki', hut⟩
      refine ⟨hki, o', (hremove o').2 ⟨?_, hget'⟩, hki', hut⟩
      rintro ⟨hblock, hk⟩
      -- the entry of that key is the output itself
      rw [Locked, lockIndex_eq, hblock, hk, ← lockIndex_eq, hget', Option.some.injEq] at hget
      simp only [lockKey, Prod.mk.injEq] at hk
      exact hne ⟨hget ▸ hki', hk.2⟩
    · rintro ⟨hki, o', hget', hki', hut⟩
      obtain ⟨hne, hold⟩ := (hremove o').1 hget'
      refine ⟨?_, hki, o', hold, hki', hut⟩
      rintro ⟨hki'', hamount, hindex⟩
      -- a key image, amount and index name one locked output
      have hown := (h.lockedByKeyImage ki amount index o.unlockTime).2
        ⟨hki, o, by rw [← hamount, ← hindex]; exact hget, hki'', rfl⟩
      have hother := (h.lockedByKeyImage ki amount index unlockTime).2 ⟨hki, o', hold, hki', hut⟩
      rw [hown, Option.some.injEq] at hother
      exact hne ⟨by rw [hother], by rw [lockKey, hother, hamount, hindex]⟩

/-- A locked output removed from the lock indexes. -/
theorem Indexed.removeFromLockIndex (h : Indexed c t) {o : Api.Output} (hget : t.Locked c o) :
    Ends (fun t' ↦ Indexed c t' ∧ (∀ o', o' ≠ o → t.Locked c o' → t'.Locked c o') ∧
        t'.unspent = t.unspent ∧ t'.keyImages = t.keyImages)
      (· = .underflow) (t.removeFromLockIndex c o) := by
  have hrest : ∀ a, t.balanceOf a = (if o.OfAddress a then o.locked else 0) +
      (t.withLockIndex c o.unlockTime
        ((t.lockIndex c o.unlockTime).remove (lockKey o))).indexedBalance a := by
    intro a
    have hsum := indexedBalance_withLockIndex (c := c) (t := t) o.unlockTime
      ((t.lockIndex c o.unlockTime).remove (lockKey o)) (a := a)
      (x := if o.OfAddress a then o.locked else 0) (y := 0) (by
        rw [LoggedTable.table_remove, Store.values_of_get _ hget, sumOf_cons, zero_add])
    rw [hsum, zero_add, h.balance]
  have hothers : ∀ o', o' ≠ o → t.Locked c o' → ∀ t₁ : WalletTables,
      t₁.lockedByHeight = (t.withLockIndex c o.unlockTime
        ((t.lockIndex c o.unlockTime).remove (lockKey o))).lockedByHeight →
      t₁.lockedByTimestamp = (t.withLockIndex c o.unlockTime
        ((t.lockIndex c o.unlockTime).remove (lockKey o))).lockedByTimestamp →
      t₁.Locked c o' := by
    intro o' hne hlocked t₁ h₁ h₂
    rw [Locked, lockIndex_eq, locksBy, h₁, h₂]
    refine (get_locksBy_remove o o' _ _).2 ⟨?_, hlocked⟩
    rintro ⟨hblock, hk⟩
    rw [Locked, lockIndex_eq, hblock, hk, ← lockIndex_eq, hlocked, Option.some.injEq] at hget
    exact hne hget
  obtain ⟨balances, hmodify, hbalance⟩ := t.modifyBalance_sub (combineBalance_unlock · o) hrest
  rw [WalletTables.removeFromLockIndex, hmodify]
  refine (ends_walletWrite (by simp) _).bind fun index hindex ↦ ?_
  obtain ⟨-, rfl⟩ := LoggedTable.removeExisting_eq_ok_iff.1 hindex
  dsimp only
  split
  · next hki =>
    refine (ends_walletWrite (by simp) _).bind fun m hput ↦ ?_
    obtain ⟨-, rfl⟩ := LoggedTable.removeExisting_eq_ok_iff.1 hput
    refine ⟨h.withoutLocked hbalance hget fun ki amount i unlockTime ↦ ?_, ?_, by simp, by simp⟩
    · rw [lockedByKeyImage_withLockIndex, LoggedTable.table_remove, Store.get_remove]
      split
      · next heq => grind
      · next hne => grind
    · intro o' hne hlocked
      refine hothers o' hne hlocked _ ?_ ?_
      · unfold withLockIndex
        split <;> rfl
      · unfold withLockIndex
        split <;> rfl
  · next hki =>
    refine ⟨?_, ?_, by simp, by simp⟩
    · refine h.withoutLocked hbalance hget (m := (withLockIndex c o.unlockTime
        ((t.lockIndex c o.unlockTime).remove (lockKey o)) { t with balances }).lockedByKeyImage) ?_
      rw [lockedByKeyImage_withLockIndex]
      intro ki amount i unlockTime
      have hnonzero := fun hsome ↦ ((h.lockedByKeyImage ki amount i unlockTime).1 hsome).1
      grind
    · intro o' hne hlocked
      refine hothers o' hne hlocked _ ?_ ?_
      · unfold withLockIndex
        split <;> rfl
      · unfold withLockIndex
        split <;> rfl

/-! ## What the operations keep -/

/-- The indexes of the wallet database agree with each other and with the balances. -/
structure Consistent (c : Currency) (t : WalletTables) : Prop where
  indexed : Indexed c t
  pointedTo : PointedTo t

/-- An output received, or unlocked, which leaves the lock indexes alone. -/
theorem Consistent.addIncomingOutput (h : Consistent c t) (o : Api.Output) (justUnlocked : Bool) :
    Ends (fun r ↦ Consistent c r.2 ∧ (justUnlocked = true → r.2.locks = t.locks))
      (· = .underflow) (t.addIncomingOutput c o justUnlocked) := by
  rw [WalletTables.addIncomingOutput]
  split
  · exact ⟨h, fun _ ↦ rfl⟩
  · next hignored =>
    split
    · next hlocked =>
      refine (h.indexed.addToLockIndex o).bind fun t' h' ↦ ?_
      obtain ⟨hindexed, hunspent, hkeyImages⟩ := h'
      rw [Ends.pure_iff]
      refine ⟨⟨hindexed, ?_⟩, fun hjust ↦ absurd hjust (by simp [hlocked.2])⟩
      constructor
      · intro k o' hget hki
        rw [hunspent] at hget
        rw [hkeyImages]
        exact h.pointedTo.keyImage k o' hget hki
      · rw [hkeyImages]
        exact h.pointedTo.zero
    · split
      · next height amount index existingOutput hheamgi hexisting =>
        split
        · exact ⟨h, fun _ ↦ rfl⟩
        · -- the new output takes the place of the one that the key image points to
          rw [hheamgi, Option.bind_some] at hexisting
          have hkey := h.indexed.unspent _ _ hexisting
          have hget : t.unspent.table.get existingOutput.heightAmounGi = some existingOutput :=
            hkey ▸ hexisting
          refine (h.indexed.removeFromUnspentIndex hget).bind fun t₁ h₁ ↦ ?_
          obtain ⟨hindexed₁, hunspent₁, hkeyImages₁, hlocks₁⟩ := h₁
          refine (hindexed₁.addToUnspentIndex o).bind fun t₂ h₂ ↦ ?_
          obtain ⟨hindexed₂, hfree, hunspent₂, hkeyImages₂, hlocks₂⟩ := h₂
          refine (hindexed₂.updateKeyimage o.keyImage o.heightAmounGi false).bind fun t₃ h₃ ↦ ?_
          obtain ⟨hindexed₃, hunspent₃, hlocks₃, hkeyImages₃⟩ := h₃
          rw [Ends.pure_iff]
          refine ⟨⟨hindexed₃, ?_⟩, fun _ ↦ by rw [hlocks₃, hlocks₂, hlocks₁]⟩
          have hnonzero : o.keyImage ≠ 0 := by
            intro hzero
            rw [readByKeyimage, hzero, h.pointedTo.zero] at hheamgi
            cases hheamgi
          rw [if_neg hnonzero] at hkeyImages₃
          constructor
          · intro k o' hget' hki
            rw [hkeyImages₃, hkeyImages₂, hkeyImages₁, Store.get_put]
            rw [hunspent₃, hunspent₂, hunspent₁, Store.get_put] at hget'
            split at hget'
            · next heq => rw [← Option.some.inj hget', if_pos rfl, heq]
            · rw [Store.get_remove] at hget'
              split at hget'
              · cases hget'
              · next hother =>
                have hold := h.pointedTo.keyImage k o' hget' hki
                rw [if_neg, hold]
                intro heq
                rw [readByKeyimage, heq, hold, Option.some.injEq] at hheamgi
                exact hother (hkey.trans hheamgi.symm)
          · rw [hkeyImages₃, hkeyImages₂, hkeyImages₁, Store.get_put_of_ne _ _ hnonzero]
            exact h.pointedTo.zero
      · next hnotboth =>
        have hnone : t.keyImages.table.get o.keyImage = none := by
          by_contra hsome
          cases hexisting : (t.readByKeyimage o.keyImage).bind t.readFromUnspentIndex with
          | none => exact hignored ⟨hsome, hexisting⟩
          | some existingOutput =>
            obtain ⟨k, hk⟩ := Option.ne_none_iff_exists'.1 hsome
            exact hnotboth _ _ _ _ hk hexisting
        refine (h.indexed.addToUnspentIndex o).bind fun t₁ h₁ ↦ ?_
        obtain ⟨hindexed₁, hfree, hunspent₁, hkeyImages₁, hlocks₁⟩ := h₁
        refine (hindexed₁.updateKeyimage o.keyImage o.heightAmounGi true).bind fun t₂ h₂ ↦ ?_
        obtain ⟨hindexed₂, hunspent₂, hlocks₂, hkeyImages₂⟩ := h₂
        rw [Ends.pure_iff]
        refine ⟨⟨hindexed₂, ?_⟩, fun _ ↦ by rw [hlocks₂, hlocks₁]⟩
        rw [hkeyImages₁] at hkeyImages₂
        constructor
        · intro k o' hget' hki
          rw [hunspent₂, hunspent₁, Store.get_put] at hget'
          split at hget'
          · next heq =>
            rw [← Option.some.inj hget'] at hki ⊢
            rw [hkeyImages₂, if_neg hki, Store.get_put_self, heq]
          · have hold := h.pointedTo.keyImage k o' hget' hki
            rw [hkeyImages₂]
            split
            · exact hold
            · rw [Store.get_put_of_ne _ _ (by rintro heq; rw [← heq, hnone] at hold; cases hold)]
              exact hold
        · rw [hkeyImages₂]
          split
          · exact h.pointedTo.zero
          · next hnonzero =>
            rw [Store.get_put_of_ne _ _ hnonzero]
            exact h.pointedTo.zero

/-- A locked output unlocked; the others stay locked. -/
theorem Consistent.unlockOutput (h : Consistent c t) (nowHeight : Height) {o : Api.Output}
    (hlocked : t.Locked c o) :
    Ends (fun t' ↦ Consistent c t' ∧ ∀ o', o' ≠ o → t.Locked c o' → t'.Locked c o')
      (· = .underflow) (t.unlockOutput c nowHeight o) := by
  rw [WalletTables.unlockOutput]
  refine (h.indexed.removeFromLockIndex hlocked).bind fun t₁ hremoved ↦ ?_
  obtain ⟨hindexed, hothers, hunspent, hkeyImages⟩ := hremoved
  have h₁ : Consistent c t₁ := by
    refine ⟨hindexed, fun k o' hget hki ↦ ?_, ?_⟩
    · rw [hunspent] at hget
      rw [hkeyImages]
      exact h.pointedTo.keyImage k o' hget hki
    · rw [hkeyImages]
      exact h.pointedTo.zero
  refine (h₁.addIncomingOutput o true).bind fun r hadded ↦ ?_
  obtain ⟨h₂, hlocks⟩ := hadded
  refine (ends_walletWrite (by simp) _).bind fun unlocked _ ↦ ?_
  rw [Ends.pure_iff]
  refine ⟨⟨⟨h₂.indexed.balance, h₂.indexed.unspent, h₂.indexed.unspentByAddress, h₂.indexed.locked,
    h₂.indexed.lockedByKeyImage⟩, h₂.pointedTo.keyImage, h₂.pointedTo.zero⟩, ?_⟩
  intro o' hne hlocked'
  exact locked_of_locks (t := r.2) rfl (locked_of_locks (hlocks rfl) (hothers o' hne hlocked'))

/-- Several locked outputs unlocked. -/
theorem Consistent.unlockOutputs (h : Consistent c t) (nowHeight : Height)
    {outputs : List Api.Output} (hlocked : ∀ o ∈ outputs, t.Locked c o) (hnodup : outputs.Nodup) :
    Ends (Consistent c) (· = .underflow)
      (outputs.foldlM (fun t o ↦ t.unlockOutput c nowHeight o) t) := by
  have hstep : ∀ (t : WalletTables) (o : Api.Output) (rest : List Api.Output),
      (Consistent c t ∧ (∀ o' ∈ o :: rest, t.Locked c o') ∧ (o :: rest).Nodup) →
      Ends (fun t' ↦ Consistent c t' ∧ (∀ o' ∈ rest, t'.Locked c o') ∧ rest.Nodup)
        (· = .underflow) (t.unlockOutput c nowHeight o) := by
    rintro t o rest ⟨h, hlocked, hnodup⟩
    obtain ⟨hnot, hnodup⟩ := List.nodup_cons.1 hnodup
    refine (h.unlockOutput nowHeight (hlocked o List.mem_cons_self)).mono fun t' ⟨h', hothers⟩ ↦ ?_
    refine ⟨h', fun o' hmem ↦ ?_, hnodup⟩
    refine hothers o' ?_ (hlocked o' (List.mem_cons_of_mem _ hmem))
    rintro rfl
    exact hnot hmem
  exact (Ends.foldlM_rest
    (I := fun rest t ↦ Consistent c t ∧ (∀ o ∈ rest, t.Locked c o) ∧ rest.Nodup) hstep
    ⟨h, hlocked, hnodup⟩).mono fun t' ht' ↦ ht'.1

/-- Each entry under a key image is read as the locked output it points to. -/
theorem Indexed.readsLockedWithKeyimage (h : Indexed c t) (keyImage : KeyImage) :
    Ends (List.Forall₂ (fun (e : (KeyImage × Amount × UInt32) × UnlockMoment) o ↦
      (t.Locked c o ∧ o.keyImage = keyImage) ∧ (o.amount, o.globalIndex) = e.1.2)
      (t.lockedByKeyImage.table.toList.filter fun e ↦ e.1.1 = keyImage))
      (· = WalletFault.underflow)
      ((t.lockedByKeyImage.table.toList.filter fun e ↦ e.1.1 = keyImage).mapM
        fun ((_, amount, globalIndex), unlockTime) ↦ throwing (expect
          ((t.lockIndex c unlockTime).table.get (clampUnlockTime unlockTime, amount, globalIndex))
          "")) := by
  refine Ends.mapM fun e hmem ↦ ?_
  obtain ⟨⟨ki, amount, index⟩, unlockTime⟩ := e
  obtain ⟨hmem, hki⟩ := List.mem_filter.1 hmem
  rw [decide_eq_true_eq] at hki
  dsimp only at hki ⊢
  refine (ends_throwing (by simp) _).mono fun o hexpect ↦ ?_
  rw [expect_eq_ok_iff] at hexpect
  obtain ⟨-, o', hget, hki', hut⟩ :=
    (h.lockedByKeyImage ki amount index unlockTime).1 (Store.mem_toList_iff.1 hmem)
  rw [hexpect, Option.some.injEq] at hget
  subst hget
  have hkey := (h.locked_of_lockIndex hexpect).1
  refine ⟨⟨?_, hki'.trans hki⟩, congrArg Prod.snd hkey⟩
  rw [Locked, hkey, hut]
  exact hexpect

/-- The locked outputs that share a key image are found once each. -/
theorem Indexed.lockedWithKeyimage (h : Indexed c t) (keyImage : KeyImage) :
    Ends (fun outputs ↦ (∀ o ∈ outputs, t.Locked c o ∧ o.keyImage = keyImage) ∧ outputs.Nodup)
      (· = .underflow) (t.lockedWithKeyimage c keyImage) := by
  rw [WalletTables.lockedWithKeyimage]
  refine (h.readsLockedWithKeyimage keyImage).mono fun outputs hall ↦ ?_
  obtain ⟨hlocked, hkeysOf⟩ := (List.forall₂_and_left _ _).1 hall.flip
  refine ⟨hlocked, ?_⟩
  -- entries with one key image differ in amount or index
  have hkeys : ((t.lockedByKeyImage.table.toList.filter fun e ↦ e.1.1 = keyImage).map
      (·.1.2)).Nodup := by
    have hnodup : ((t.lockedByKeyImage.table.toList.filter fun e ↦ e.1.1 = keyImage).map
        Prod.fst).Nodup :=
      List.Nodup.sublist (List.filter_sublist.map _) t.lockedByKeyImage.table.nodup_keys_toList
    refine List.Nodup.of_map (fun k ↦ (keyImage, k)) ?_
    rw [List.map_map]
    convert hnodup using 1
    refine List.map_congr_left fun e he ↦ ?_
    have hki := (List.mem_filter.1 he).2
    rw [decide_eq_true_eq] at hki
    rw [Function.comp_apply, ← hki]
  have hsame : outputs.map (fun o ↦ (o.amount, o.globalIndex)) =
      (t.lockedByKeyImage.table.toList.filter fun e ↦ e.1.1 = keyImage).map (·.1.2) := by
    rw [← List.forall₂_eq_eq_eq, List.forall₂_map_left_iff, List.forall₂_map_right_iff]
    exact hkeysOf
  exact List.Nodup.of_map _ (hsame ▸ hkeys)

/-- A key image spent. -/
theorem Consistent.addIncomingKeyimage (h : Consistent c t) (blockHeight : Height)
    (keyImage : KeyImage) :
    Ends (fun r ↦ Consistent c r.2) (· = .underflow)
      (t.addIncomingKeyimage c blockHeight keyImage) := by
  rw [WalletTables.addIncomingKeyimage]
  refine (h.indexed.lockedWithKeyimage keyImage).bind fun outputs houtputs ↦ ?_
  obtain ⟨hlocked, hnodup⟩ := houtputs
  refine (h.unlockOutputs blockHeight (fun o ho ↦ (hlocked o ho).1) hnodup).bind fun t₁ h₁ ↦ ?_
  split
  · next existingOutput hexisting =>
    obtain ⟨k, -, hget⟩ := Option.bind_eq_some_iff.1 hexisting
    have hkey := h₁.indexed.unspent k existingOutput hget
    refine (h₁.indexed.removeFromUnspentIndex (hkey ▸ hget)).bind fun t₂ h₂ ↦ ?_
    obtain ⟨hindexed, hunspent, hkeyImages, _⟩ := h₂
    rw [Ends.pure_iff]
    refine ⟨hindexed, fun k' o hget' hki ↦ ?_, ?_⟩
    · rw [hunspent, Store.get_remove] at hget'
      split at hget'
      · cases hget'
      · rw [hkeyImages]
        exact h₁.pointedTo.keyImage k' o hget' hki
    · rw [hkeyImages]
      exact h₁.pointedTo.zero
  · exact h₁

/-- Every output that is read from a lock index is locked, under the key it is read as. -/
theorem Indexed.readUnlockIndex (h : Indexed c t) (byHeight : Bool) (address : String)
    (begin last : UInt32) {add : Store (Amount × UInt32) Api.Output}
    (hadd : ∀ k o, add.get k = some o → t.Locked c o ∧ k = (o.amount, o.globalIndex)) :
    Ends (fun add ↦ ∀ k o, add.get k = some o → t.Locked c o ∧ k = (o.amount, o.globalIndex))
      (· = .underflow)
      (WalletTables.readUnlockIndex (t.locksBy byHeight).table address begin last add) := by
  rw [WalletTables.readUnlockIndex]
  split
  · exact hadd
  · refine Ends.foldlM (fun add hadd e hmem ↦ ?_) hadd
    obtain ⟨⟨time, amount, index⟩, output⟩ := e
    have hget := Store.mem_toList_iff.1 (List.mem_filter.1 hmem).1
    obtain ⟨hkey, hblock⟩ := h.locked byHeight _ _ hget
    refine (ends_throwing (by simp) _).bind fun _ hindex ↦ ?_
    split
    · split
      · rw [Ends.pure_iff]
        intro k o hget'
        rw [Store.get_put] at hget'
        split at hget'
        · next heq =>
          rw [← Option.some.inj hget', ← heq]
          refine ⟨?_, ?_⟩
          · rw [Locked, lockIndex_eq, hblock, hkey]
            exact hget
          · simp only [lockKey, Prod.mk.injEq] at hkey
            rw [hkey.2.1]
        · exact hadd k o hget'
      · exact (ends_throwing (by simp) _).mono (by rintro _ ⟨⟩)
    · exact hadd

/-- The outputs whose time has come unlocked at the end of a block. -/
theorem Consistent.unlock (h : Consistent c t) (nowHeight : Height) (now : Timestamp) :
    Ends (Consistent c) (· = .underflow) (t.unlock c nowHeight now) := by
  rw [WalletTables.unlock]
  have hnone : ∀ k o, (∅ : Store (Amount × UInt32) Api.Output).get k = some o →
      t.Locked c o ∧ k = (o.amount, o.globalIndex) := by
    intro k o hget
    rw [Store.get_empty] at hget
    cases hget
  refine (h.indexed.readUnlockIndex true "" 0xFFFFFFFF nowHeight hnone).bind
    fun byHeight hbyHeight ↦ ?_
  refine (h.indexed.readUnlockIndex false "" 0xFFFFFFFF now hbyHeight).bind
    fun toUnlock htoUnlock ↦ ?_
  have hmem : ∀ e ∈ toUnlock.toList, t.Locked c e.2 ∧ e.1 = (e.2.amount, e.2.globalIndex) :=
    fun e he ↦ htoUnlock e.1 e.2 (Store.mem_toList_iff.1 he)
  have hnodup : (toUnlock.toList.map Prod.snd).Nodup := by
    refine List.Nodup.of_map (fun o : Api.Output ↦ (o.amount, o.globalIndex)) ?_
    rw [List.map_map]
    convert toUnlock.nodup_keys_toList using 1
    exact List.map_congr_left fun e he ↦ (hmem e he).2.symm
  have hlocked : ∀ o ∈ toUnlock.toList.map Prod.snd, t.Locked c o := by
    intro o ho
    obtain ⟨e, he, rfl⟩ := List.mem_map.1 ho
    exact (hmem e he).1
  have hunlock := h.unlockOutputs nowHeight hlocked hnodup
  rw [List.foldlM_map] at hunlock
  exact hunlock

/-- A transaction and its history recorded. -/
theorem Consistent.addTransaction (h : Consistent c t) (height : Height) (tid : Hash)
    (tx : TransactionPrefix) (ptx : Api.Transaction) :
    Ends (Consistent c) (· = .underflow) (t.addTransaction height tid tx ptx) := by
  rw [WalletTables.addTransaction]
  refine (ends_walletWrite (by simp) _).bind fun transactions _ ↦ ?_
  have hhistory : Ends (fun _ : LoggedTable (String × Height × Hash) Unit ↦ True)
      (· = WalletFault.underflow)
      ((ptx.transfers.foldl (fun addresses transfer ↦ addresses.put transfer.address ())
        ((∅ : Store String Unit).put "" ())).toList.foldlM
        (fun history addr ↦ walletWrite (history.putNew (addr.1, height, tid) ())) t.history) :=
    Ends.foldlM (fun history _ addr _ ↦ (ends_walletWrite (by simp) _).mono fun _ _ ↦ trivial)
      trivial
  refine hhistory.bind fun history _ ↦ ?_
  exact ⟨⟨h.indexed.balance, h.indexed.unspent, h.indexed.unspentByAddress, h.indexed.locked,
    h.indexed.lockedByKeyImage⟩, h.pointedTo.keyImage, h.pointedTo.zero⟩

theorem consistent_kept (wc : WalletCrypto) (c : Currency) :
    KeptByOperations wc c (· = .underflow) (Consistent c) where
  exception := by simp
  addIncomingOutput _ o _ _ h := (h.addIncomingOutput o false).mono fun _ hr ↦ hr.1
  addIncomingKeyimage height keyImage _ h := h.addIncomingKeyimage height keyImage
  unlock height now _ h := h.unlock height now
  addTransaction height tid tx ptx _ h := h.addTransaction height tid tx ptx

theorem table_locksBy_settle (byHeight : Bool) (t : WalletTables) :
    (t.settle.locksBy byHeight).table = (t.locksBy byHeight).table := by
  cases byHeight <;> rfl

theorem Consistent.settle (h : Consistent c t) : Consistent c t.settle := by
  refine ⟨⟨h.indexed.balance, h.indexed.unspent, h.indexed.unspentByAddress, fun byHeight ↦ ?_,
    fun ki amount index unlockTime ↦ ?_⟩, h.pointedTo.keyImage, h.pointedTo.zero⟩
  · rw [table_locksBy_settle]
    exact h.indexed.locked byHeight
  · rw [lockIndex_eq, table_locksBy_settle]
    exact h.indexed.lockedByKeyImage ki amount index unlockTime

theorem consistent_empty (c : Currency) : Consistent c {} := by
  refine ⟨⟨fun a ↦ ?_, fun k o hget ↦ ?_, fun a k ↦ ?_, fun byHeight k o hget ↦ ?_,
    fun ki amount index unlockTime ↦ ?_⟩, fun k o hget ↦ ?_, rfl⟩
  · simp [balanceOf, indexedBalance, sumOf]
  · cases hget
  · simp
  · cases byHeight <;> cases hget
  · simp only [lockIndex]
    split <;> simp
  · cases hget

end WalletTables

/-! ## Runs -/

namespace WalletStateBasic

variable {wc : WalletCrypto} {c : Currency} {s : WalletStateBasic}

/-- The part of `applyBlock` that changes the tables. -/
theorem redone_ends {bad : WalletFault → Prop} {I : WalletTables → Prop}
    (hkept : KeptAt wc c (s.tipHeight + 1) bad I) (h : I s.tables) (b : ProcessedBlock) :
    Ends I bad (match b.redone with
      | none => .ok s.tables
      | some (pb, globalIndices) => WalletState.redoBlock wc c b.keys b.header pb globalIndices
          (s.tipHeight + 1) s.tables) := by
  cases b.redone with
  | none => exact h
  | some redone => exact WalletState.redoBlock_ends hkept _ _ _ h

/-- What the operations of a block keep, blocks keep. -/
theorem applyBlock_ends {bad : WalletFault → Prop} {I : WalletTables → Prop}
    (hkept : KeptAt wc c (s.tipHeight + 1) bad I) (hsettle : ∀ t, I t → I t.settle)
    (h : I s.tables) (b : ProcessedBlock) :
    Ends (fun s' ↦ I s'.tables ∧ s'.tipHeight = s.tipHeight + 1) bad (s.applyBlock wc c b) := by
  rw [applyBlock]
  refine (redone_ends hkept h b).bind fun tables ht ↦ ?_
  rw [pushChain]
  refine (ends_walletWrite hkept.exception _).bind fun chain _ ↦ ?_
  have hsave : Ends (fun s' : WalletStateBasic ↦ s'.tables = tables ∧
      s'.tipHeight = s.tipHeight + 1) bad
      (saveDbState (s.tipHeight + 1) { s with
        tables, chain, tipHeight := s.tipHeight + 1, tip := b.header }) := by
    rw [saveDbState]
    split
    · exact ⟨rfl, rfl⟩
    · exact (ends_walletWrite hkept.exception _).bind fun _ _ ↦ Ends.pure_iff.2 ⟨rfl, rfl⟩
  refine hsave.bind fun s' hsaved ↦ ?_
  obtain ⟨hs', htip⟩ := hsaved
  rw [Ends.pure_iff]
  exact ⟨hsettle _ (hs'.symm ▸ ht), htip⟩

end WalletStateBasic

namespace WalletRun

variable {wc : WalletCrypto} {c : Currency} {tail : Height} {processed : List ProcessedBlock}
  {s : WalletStateBasic}

/-- What blocks keep holds in every state of a run. -/
theorem tables_of_kept (h : WalletRun wc c tail processed s) {bad : WalletFault → Prop}
    {I : WalletTables → Prop} (hkept : KeptByOperations wc c bad I)
    (hsettle : ∀ t, I t → I t.settle) (hempty : I {}) : I s.tables :=
  foldlM_ok_preserves (I := fun s : WalletStateBasic ↦ I s.tables)
    (fun _ b _ _ hok hI ↦
      ((WalletStateBasic.applyBlock_ends (hkept.keptAt _) hsettle hI b).of_ok hok).1)
    h.applyBlocks_eq hempty

theorem consistent (h : WalletRun wc c tail processed s) : s.tables.Consistent c :=
  h.tables_of_kept (WalletTables.consistent_kept wc c) (fun _ ↦ WalletTables.Consistent.settle)
    (WalletTables.consistent_empty c)

/-- In every state of a wallet database the stored balances are the sums over the indexes, for each
address and for the whole wallet, and the indexes agree; an unspent output is the only one with its
key image; and no block makes a balance go below zero. -/
theorem balances_exact (h : WalletRun wc c tail processed s) :
    (∀ a, s.tables.balanceOf a = s.tables.indexedBalance a) ∧
      (∀ a k, s.tables.unspentByAddress.table.get (a, k) ≠ none ↔
        ∃ o, s.tables.unspent.table.get k = some o ∧ o.address = a) ∧
      (∀ k o, s.tables.unspent.table.get k = some o → o.heightAmounGi = k ∧
        (o.keyImage ≠ 0 → s.tables.keyImages.table.get o.keyImage = some k)) ∧
      (∀ k k' o o', s.tables.unspent.table.get k = some o →
        s.tables.unspent.table.get k' = some o' →
        o.keyImage ≠ 0 → o.keyImage = o'.keyImage → k = k') ∧
      (∀ byHeight k o, (s.tables.locksBy byHeight).table.get k = some o →
        WalletTables.lockKey o = k ∧
          WalletTables.isTransactionSpendTimeBlock c o.unlockTime = byHeight) ∧
      (∀ ki amount index unlockTime,
        s.tables.lockedByKeyImage.table.get (ki, amount, index) = some unlockTime ↔
          ki ≠ 0 ∧ ∃ o, s.tables.Locked c o ∧ o.keyImage = ki ∧ o.amount = amount ∧
            o.globalIndex = index ∧ o.unlockTime = unlockTime) ∧
      ∀ b, s.applyBlock wc c b ≠ .error .underflow := by
  obtain ⟨hindexed, hpointed⟩ := h.consistent
  refine ⟨hindexed.balance, hindexed.unspentByAddress, fun k o hget ↦ ?_,
    fun k k' o o' hget hget' hki
    heq ↦ ?_, hindexed.locked, fun ki amount index unlockTime ↦ ?_, fun b ↦ ?_⟩
  · exact ⟨hindexed.unspent k o hget, hpointed.keyImage k o hget⟩
  · have hk := hpointed.keyImage k o hget hki
    have hk' := hpointed.keyImage k' o' hget' (heq ▸ hki)
    rw [heq, hk', Option.some.injEq] at hk
    exact hk.symm
  · rw [hindexed.lockedByKeyImage]
    refine and_congr_right fun _ ↦ exists_congr fun o ↦ ?_
    constructor
    · rintro ⟨hget, hki, hut⟩
      have hkey := (hindexed.locked_of_lockIndex hget).1
      have hlocked : s.tables.Locked c o := by
        rw [WalletTables.Locked, hut, hkey]
        exact hget
      simp only [WalletTables.lockKey, Prod.mk.injEq] at hkey
      exact ⟨hlocked, hki, hkey.2.1, hkey.2.2, hut⟩
    · rintro ⟨hlocked, hki, hamount, hindex, hut⟩
      rw [WalletTables.Locked, WalletTables.lockKey, hut, hamount, hindex] at hlocked
      exact ⟨hlocked, hki, hut⟩
  · exact (WalletStateBasic.applyBlock_ends ((WalletTables.consistent_kept wc c).keptAt _)
      (fun _ ↦ WalletTables.Consistent.settle) h.consistent b).ne_error rfl

/-- After a block that pays two addresses, of which one amount is dust. -/
theorem balances_exact_samplePaidBlock : ∃ s : WalletStateBasic,
    s.tables.balances.table.get "" = some { spendable := 5000000, spendableOutputs := 1
                                            spendableDust := 3, spendableDustOutputs := 1 } ∧
      s.tables.balanceOf "" = s.tables.indexedBalance "" := by
  have hrun : yields (({} : WalletStateBasic).applyBlocks sampleWalletCrypto mainnet
      [samplePaidBlock]) (fun s ↦ s.tables.balances.table.get "" = some {
        spendable := 5000000, spendableOutputs := 1
        spendableDust := 3, spendableDustOutputs := 1 }) = true := by
    decide +kernel
  obtain ⟨s, happly, htest⟩ := yields_iff.1 hrun
  rw [decide_eq_true_eq] at htest
  obtain ⟨s₁, hblock, hnil⟩ := WalletStateBasic.applyBlocks_cons.1 happly
  rw [← Except.ok.inj hnil] at htest
  exact ⟨s₁, htest, (balances_exact (.apply samplePaidBlock .start hblock)).1 ""⟩

end WalletRun

end Naza
