import Naza.Ledger
import Naza.PoolAtomicity

/-!
# The tables represent a ledger

The key-image table, the output table and the cached next indices of a state, read as a `Ledger`,
and each write of the code as the operation of the ledger that it carries out.
-/

open Lib

namespace Naza

variable {cr : Crypto} {c : Currency}

/-- The tables hold exactly what the ledger says; outputs stand at consecutive indices. -/
structure State.Represents (s : State) (L : Ledger) : Prop where
  keyImages : ∀ ki, s.db.keyImages.get ki = L.keyImages ki
  outputs : ∀ amount index,
    s.db.outputs.get (amount, index) = (L.outputs amount)[index.toNat]?
  indexed : L.Indexed
  cached : ∀ amount index, s.nextGiForAmount.get amount = some index →
    index = UInt32.ofNat (L.outputs amount).length

/-! ## Reads -/

theorem toNat_ofNat_of_lt {n : ℕ} (h : n < 2 ^ 32) : (UInt32.ofNat n).toNat = n :=
  UInt32.toNat_ofNat_of_lt' h

namespace State.Represents

variable {s s' : State} {L : Ledger}

/-- The tables that a ledger is read from. -/
theorem of_eq (h : s.Represents L) (hkeyImages : s'.db.keyImages = s.db.keyImages)
    (houtputs : s'.db.outputs = s.db.outputs) (hcached : s'.nextGiForAmount = s.nextGiForAmount) :
    s'.Represents L where
  keyImages := hkeyImages ▸ h.keyImages
  outputs := houtputs ▸ h.outputs
  indexed := h.indexed
  cached := hcached ▸ h.cached

/-- Only one ledger is represented. -/
theorem unique {L' : Ledger} (h : s.Represents L) (h' : s.Represents L') : L = L' := by
  ext1
  · funext ki
    rw [← h.keyImages, h'.keyImages]
  · funext amount
    apply List.ext_getElem?
    intro i
    by_cases hi : i < 2 ^ 32
    · have hget := h.outputs amount (UInt32.ofNat i)
      rw [h'.outputs, toNat_ofNat_of_lt hi] at hget
      exact hget.symm
    · have hlen := h.indexed amount
      have hlen' := h'.indexed amount
      rw [List.getElem?_eq_none (by omega), List.getElem?_eq_none (by omega)]

/-- The next index, cached or searched for, is the number of outputs. -/
theorem next (h : s.Represents L) (amount : Amount) :
    s.nextGlobalIndexForAmount amount = UInt32.ofNat (L.outputs amount).length := by
  unfold State.nextGlobalIndexForAmount
  cases hcached : s.nextGiForAmount.get amount with
  | some index => exact h.cached amount index hcached
  | none =>
    dsimp only
    have hlen := h.indexed amount
    cases hn : (L.outputs amount).length with
    | zero =>
      have hnone : s.db.outputs.lastWhere (fun k ↦ k.1 = amount) = none := by
        apply Store.lastWhere_eq_none
        intro k unp hget
        by_contra hk
        rw [Bool.not_eq_false, decide_eq_true_eq] at hk
        have hget' : s.db.outputs.get (amount, k.2) = some unp := by rwa [← hk]
        rw [h.outputs, List.eq_nil_of_length_eq_zero hn] at hget'
        cases hget'
      rw [hnone]
      rfl
    | succ n =>
      rw [hn] at hlen
      have hnat : (UInt32.ofNat n).toNat = n := toNat_ofNat_of_lt (by omega)
      obtain ⟨unp, hunp⟩ : ∃ unp, (L.outputs amount)[n]? = some unp :=
        ⟨_, List.getElem?_eq_getElem (by omega)⟩
      have hlast : s.db.outputs.lastWhere (fun k ↦ k.1 = amount) =
          some ((amount, UInt32.ofNat n), unp) := by
        refine Store.lastWhere_eq_some ?_ (by simp) ?_
        · rw [h.outputs, hnat, hunp]
        · rintro ⟨amount', index⟩ unp' hget hk hlt
          -- a later key of the amount would stand behind the last output
          rw [decide_eq_true_eq] at hk
          change amount' = amount at hk
          subst hk
          change s.db.outputs.get (amount', index) = some unp' at hget
          rw [h.outputs] at hget
          have hindex := (List.getElem?_eq_some_iff.1 hget).1
          have hcompare : compare (UInt32.ofNat n) index = .lt := by
            have hlex : compare (amount', UInt32.ofNat n) (amount', index) =
              (compare amount' amount').then (compare (UInt32.ofNat n) index) := rfl
            rwa [hlex, Std.ReflOrd.compare_self, Ordering.eq_then] at hlt
          have hless := compareOfLessAndEq_eq_lt.1 hcompare
          rw [UInt32.lt_iff_toNat_lt, hnat] at hless
          omega
      rw [hlast]
      exact (UInt32.ofNat_add n 1).symm

/-- Looking up the next index changes nothing but the cache. -/
theorem cacheNextIndex (h : s.Represents L) (amount : Amount) :
    State.Represents { s with
      nextGiForAmount := s.nextGiForAmount.put amount (s.nextGlobalIndexForAmount amount) } L where
  keyImages := h.keyImages
  outputs := h.outputs
  indexed := h.indexed
  cached := by
    intro amount' index hget
    change (s.nextGiForAmount.put amount (s.nextGlobalIndexForAmount amount)).get amount' = _
      at hget
    rw [Store.get_put] at hget
    split at hget
    · next heq =>
      rw [← Option.some.inj hget, ← heq]
      exact h.next amount
    · exact h.cached amount' index hget

/-! ## Writes -/

/-- A key image is stored only once. -/
theorem storeKeyimage (h : s.Represents L) {ki : KeyImage} {height : Height}
    (hok : s.storeKeyimage ki height = .ok s') :
    L.keyImages ki = none ∧ s'.Represents (L.storeKeyImages height [ki]) := by
  simp only [State.storeKeyimage, bind_eq_ok_iff, dbWrite_eq_ok_iff, Store.putNew_eq_ok_iff] at hok
  obtain ⟨keyImages, ⟨hnone, rfl⟩, hok⟩ := hok
  rw [h.keyImages] at hnone
  have hrep : ∀ pool, State.Represents { s with
      db := { s.db with keyImages := s.db.keyImages.put ki height }, pool }
      (L.storeKeyImages height [ki]) := by
    intro pool
    refine ⟨?_, h.outputs, h.indexed, h.cached⟩
    intro ki'
    change (s.db.keyImages.put ki height).get ki' = if ki' ∈ [ki] then some height else _
    rw [Store.get_put, h.keyImages]
    by_cases heq : ki = ki'
    · simp [heq]
    · simp [heq, Ne.symm heq]
  refine ⟨hnone, ?_⟩
  split at hok
  · exact Except.ok.inj hok ▸ hrep s.pool
  · obtain ⟨pool, -, hok⟩ := bind_eq_ok_iff.1 hok
    exact Except.ok.inj hok ▸ hrep pool

theorem storeKeyimage_of (h : s.Represents L) (hpool : s.pool.Consistent) {ki : KeyImage}
    (hnone : L.keyImages ki = none) (height : Height) :
    ∃ s', s.storeKeyimage ki height = .ok s' := by
  rw [← h.keyImages] at hnone
  have hput : dbWrite (s.db.keyImages.putNew ki height) = .ok (s.db.keyImages.put ki height) :=
    dbWrite_eq_ok_iff.2 (Store.putNew_of_none _ hnone)
  cases hki : s.pool.kiTx.get ki with
  | none =>
    refine ⟨{ s with db := { s.db with keyImages := s.db.keyImages.put ki height } }, ?_⟩
    refine bind_eq_ok_iff.2 ⟨_, hput, ?_⟩
    simp only [hki]
    rfl
  | some tid =>
    obtain ⟨pool', hpool', -⟩ := Pool.removeFromPool_consistent hpool tid
    refine ⟨{ s with
      db := { s.db with keyImages := s.db.keyImages.put ki height }, pool := pool' }, ?_⟩
    refine bind_eq_ok_iff.2 ⟨_, hput, ?_⟩
    simp only [hki]
    exact bind_eq_ok_iff.2 ⟨pool', hpool', rfl⟩

/-- An output goes to the end of its amount, which has an index left for it. -/
theorem pushAmountOutput (h : s.Represents L) {amount : Amount} {unlockTime : UnlockMoment}
    {height : Height} {pk : PublicKey}
    (hok : s.pushAmountOutput amount unlockTime height pk = .ok s') :
    (L.outputs amount).length < 2 ^ 32 ∧
      s'.Represents (L.push height [(amount, unlockTime, pk)]) := by
  simp only [State.pushAmountOutput, bind_eq_ok_iff, dbWrite_eq_ok_iff,
    Store.putNew_eq_ok_iff] at hok
  obtain ⟨outputs, ⟨hnone, rfl⟩, hok⟩ := hok
  have hlen := h.indexed amount
  have hlt : (L.outputs amount).length < 2 ^ 32 := by
    by_contra hge
    -- the index would wrap to zero, where an output stands
    have hfull : (L.outputs amount).length = 2 ^ 32 := by omega
    rw [h.next, hfull, h.outputs] at hnone
    have hzero := List.getElem?_eq_none_iff.1 hnone
    simp [hfull] at hzero
  refine ⟨hlt, ?_⟩
  rw [← Except.ok.inj hok]
  have hnat := toNat_ofNat_of_lt hlt
  refine ⟨h.keyImages, ?_, ?_, ?_⟩
  · intro amount' index
    change (s.db.outputs.put (amount, s.nextGlobalIndexForAmount amount) _).get (amount', index) =
      (L.outputs amount' ++ Ledger.newOutputs height amount' [(amount, unlockTime, pk)])[
        index.toNat]?
    rw [Store.get_put, h.next, h.outputs, Ledger.newOutputs, pushesOf_singleton]
    simp only [Prod.mk.injEq]
    by_cases heq : amount = amount'
    · subst heq
      simp only [true_and, if_true, List.map_cons, List.map_nil]
      by_cases hindex : UInt32.ofNat (L.outputs amount).length = index
      · rw [if_pos hindex, ← hindex, hnat, List.getElem?_concat_length]
      · rw [if_neg hindex, List.getElem?_append]
        split
        · rfl
        · next hge =>
          have hne : index.toNat ≠ (L.outputs amount).length := fun heq ↦ hindex (by
            rw [← heq, UInt32.ofNat_toNat])
          rw [List.getElem?_eq_none (by omega), List.getElem?_eq_none (by simp; omega)]
    · simp [heq]
  · intro amount'
    have hlen' := h.indexed amount'
    change (L.outputs amount' ++
      Ledger.newOutputs height amount' [(amount, unlockTime, pk)]).length ≤ _
    rw [List.length_append, Ledger.length_newOutputs, pushesOf_singleton]
    by_cases heq : amount = amount'
    · subst heq
      simpa using hlt
    · simpa [heq] using hlen'
  · intro amount' index hget
    change (s.nextGiForAmount.put amount (s.nextGlobalIndexForAmount amount + 1)).get amount' = _
      at hget
    change index = UInt32.ofNat (L.outputs amount' ++
      Ledger.newOutputs height amount' [(amount, unlockTime, pk)]).length
    rw [List.length_append, Ledger.length_newOutputs, pushesOf_singleton]
    rw [Store.get_put] at hget
    by_cases heq : amount = amount'
    · subst heq
      rw [if_pos rfl, h.next] at hget
      rw [← Option.some.inj hget]
      simp [UInt32.ofNat_add]
    · rw [if_neg heq] at hget
      simpa [heq] using h.cached amount' index hget

theorem pushAmountOutput_of (h : s.Represents L) {amount : Amount}
    (hlt : (L.outputs amount).length < 2 ^ 32) (unlockTime : UnlockMoment) (height : Height)
    (pk : PublicKey) : ∃ s', s.pushAmountOutput amount unlockTime height pk = .ok s' := by
  have hnone : s.db.outputs.get (amount, s.nextGlobalIndexForAmount amount) = none := by
    rw [h.next, h.outputs, toNat_ofNat_of_lt hlt, List.getElem?_eq_none (Nat.le_refl _)]
  simp only [State.pushAmountOutput, Store.putNew_of_none _ hnone, dbWrite]
  exact ⟨_, rfl⟩

/-- Marking an output that is not there changes nothing. -/
theorem setSpent (h : s.Represents L) (amount : Amount) (index : UInt32) (spent : Bool) :
    (s.setSpent amount index spent).Represents (L.setSpent spent [(amount, index)]) := by
  have hindexed : (L.setSpent spent [(amount, index)]).Indexed := fun amount' ↦ by
    change (markSpent spent amount' _ (L.outputs amount')).length ≤ _
    rw [length_markSpent]
    exact h.indexed amount'
  have hcached : ∀ amount' index', s.nextGiForAmount.get amount' = some index' →
      index' = UInt32.ofNat ((L.setSpent spent [(amount, index)]).outputs amount').length := by
    intro amount' index' hget
    change _ = UInt32.ofNat (markSpent spent amount' _ (L.outputs amount')).length
    rw [length_markSpent]
    exact h.cached amount' index' hget
  -- what the flag does to an output of the ledger
  have hget : ∀ amount' index',
      ((L.setSpent spent [(amount, index)]).outputs amount')[index'.toNat]? =
        (s.db.outputs.get (amount', index')).map fun output ↦
          if amount' = amount ∧ index' = index then { output with spent } else output := by
    intro amount' index'
    change (markSpent spent amount' _ (L.outputs amount'))[index'.toNat]? = _
    rw [getElem?_markSpent, h.outputs, UInt32.ofNat_toNat]
    simp only [List.mem_singleton, Prod.mk.injEq]
  unfold State.setSpent
  cases hwas : s.db.outputs.get (amount, index) with
  | none =>
    refine ⟨h.keyImages, ?_, hindexed, hcached⟩
    intro amount' index'
    rw [hget]
    by_cases heq : amount' = amount ∧ index' = index
    · obtain ⟨rfl, rfl⟩ := heq
      simp [hwas]
    · simp [heq]
  | some was =>
    refine ⟨h.keyImages, ?_, hindexed, hcached⟩
    intro amount' index'
    change (s.db.outputs.put (amount, index) { was with spent }).get (amount', index') = _
    rw [hget, Store.get_put]
    simp only [Prod.mk.injEq]
    by_cases heq : amount = amount' ∧ index = index'
    · obtain ⟨rfl, rfl⟩ := heq
      simp [hwas]
    · have heq' : ¬ (amount' = amount ∧ index' = index) := fun h ↦ heq ⟨h.1.symm, h.2.symm⟩
      simp [heq, heq']

theorem deleteKeyimage (h : s.Represents L) {ki : KeyImage}
    (hok : s.deleteKeyimage ki = .ok s') :
    L.keyImages ki ≠ none ∧ s'.Represents (L.dropKeyImages [ki]) := by
  simp only [State.deleteKeyimage, bind_eq_ok_iff, dbWrite_eq_ok_iff,
    Store.removeExisting_eq_ok_iff] at hok
  obtain ⟨keyImages, ⟨hne, rfl⟩, hok⟩ := hok
  rw [← Except.ok.inj hok]
  refine ⟨h.keyImages ki ▸ hne, ?_, h.outputs, h.indexed, h.cached⟩
  intro ki'
  change (s.db.keyImages.remove ki).get ki' = if ki' ∈ [ki] then none else _
  rw [Store.get_remove, h.keyImages]
  by_cases heq : ki = ki'
  · simp [heq]
  · simp [heq, Ne.symm heq]

/-- The last output of an amount goes, if it is the expected one and not spent. -/
theorem popAmountOutput (h : s.Represents L) {amount : Amount} {unlockTime : UnlockMoment}
    {pk : PublicKey} (hok : s.popAmountOutput amount unlockTime pk = .ok s') :
    s'.Represents (L.pop [(amount, unlockTime, pk)]) := by
  simp only [State.popAmountOutput, bind_eq_ok_iff, invariant_eq_ok_iff, expect_eq_ok_iff,
    dbWrite_eq_ok_iff, Store.removeExisting_eq_ok_iff] at hok
  obtain ⟨⟨⟩, hne, unp, -, ⟨⟩, -, outputs, ⟨-, rfl⟩, hok⟩ := hok
  have hlen := h.indexed amount
  rw [h.next] at hne hok
  have hpos : (L.outputs amount).length ≠ 0 := fun hz ↦ hne (by rw [hz]; rfl)
  have hlt : (L.outputs amount).length < 2 ^ 32 := by
    by_contra hge
    have hfull : (L.outputs amount).length = 2 ^ 32 := by omega
    exact hne (by rw [hfull]; rfl)
  obtain ⟨n, hn⟩ := Nat.exists_eq_succ_of_ne_zero hpos
  have hindex : UInt32.ofNat (L.outputs amount).length - 1 = UInt32.ofNat n := by
    rw [hn, Nat.succ_eq_add_one, UInt32.ofNat_add]
    simp
  rw [hindex] at hok
  have hnat : (UInt32.ofNat n).toNat = n := toNat_ofNat_of_lt (by omega)
  have hpop : ∀ amount', (L.pop [(amount, unlockTime, pk)]).outputs amount' =
      if amount = amount' then (L.outputs amount').take n else L.outputs amount' := by
    intro amount'
    change (L.outputs amount').take _ = _
    rw [pushesOf_singleton]
    by_cases heq : amount = amount'
    · subst heq
      simp [hn]
    · simp [heq]
  rw [← Except.ok.inj hok]
  refine ⟨h.keyImages, ?_, ?_, ?_⟩
  · intro amount' index
    change (s.db.outputs.remove (amount, UInt32.ofNat n)).get (amount', index) = _
    rw [hpop, Store.get_remove, h.outputs]
    simp only [Prod.mk.injEq]
    by_cases heq : amount = amount'
    · subst heq
      simp only [true_and, if_true, List.getElem?_take]
      by_cases hi : UInt32.ofNat n = index
      · rw [if_pos hi, if_neg]
        rw [← hi, hnat]
        exact Nat.lt_irrefl n
      · rw [if_neg hi]
        split
        · rfl
        · next hge =>
          have hne' : index.toNat ≠ n := fun heq ↦ hi (by rw [← heq, UInt32.ofNat_toNat])
          exact List.getElem?_eq_none (by omega)
    · simp [heq]
  · intro amount'
    have hlen' := h.indexed amount'
    rw [hpop]
    split
    · exact (List.length_take_le' n (L.outputs amount')).trans hlen'
    · exact hlen'
  · intro amount' index hget
    change (s.nextGiForAmount.put amount (UInt32.ofNat n)).get amount' = _ at hget
    rw [Store.get_put] at hget
    rw [hpop]
    by_cases heq : amount = amount'
    · subst heq
      rw [if_pos rfl] at hget ⊢
      rw [← Option.some.inj hget, List.length_take, hn, Nat.min_eq_left (Nat.le_succ n)]
    · rw [if_neg heq] at hget ⊢
      exact h.cached amount' index hget

end State.Represents

end Naza
