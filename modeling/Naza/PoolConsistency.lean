import Naza.MemoryPool

/-!
# Consistency of the memory pool

The key-image map and the fee index of the pool say the same as its transaction map.  Every
operation of the pool keeps this, and on a consistent pool a removal never fails.
-/

open Lib

namespace Naza

/-! ## Erasing and inserting key images -/

theorem eraseKeyimages_fst_get (keyImages : List KeyImage) (kiTx : Store KeyImage Hash)
    (found : Bool) (a : KeyImage) :
    (keyImages.foldl (fun acc ki ↦ (acc.1.remove ki, acc.2 && (acc.1.get ki).isSome))
      (kiTx, found)).1.get a = if a ∈ keyImages then none else kiTx.get a := by
  induction keyImages generalizing kiTx found with
  | nil => simp
  | cons ki kis ih =>
    rw [List.foldl_cons, ih, Store.get_remove]
    by_cases hmem : a ∈ kis
    · simp [hmem]
    · by_cases heq : ki = a
      · simp [heq]
      · simp [hmem, heq, Ne.symm heq]

theorem eraseKeyimages_snd (keyImages : List KeyImage) (kiTx : Store KeyImage Hash)
    (hnodup : keyImages.Nodup) (hmem : ∀ ki ∈ keyImages, (kiTx.get ki).isSome) :
    (keyImages.foldl (fun acc ki ↦ (acc.1.remove ki, acc.2 && (acc.1.get ki).isSome))
      (kiTx, true)).2 = true := by
  induction keyImages generalizing kiTx with
  | nil => rfl
  | cons ki kis ih =>
    have hki : (kiTx.get ki).isSome := hmem ki List.mem_cons_self
    obtain ⟨hnot, hkis⟩ := List.nodup_cons.1 hnodup
    rw [List.foldl_cons, hki]
    apply ih _ hkis
    intro a ha
    have hne : ki ≠ a := fun h ↦ hnot (h ▸ ha)
    rw [Store.get_remove_of_ne _ hne]
    exact hmem a (List.mem_cons_of_mem _ ha)

/-- One key image that was not new spoils the verdict. -/
theorem insertKeyimages_false (tid : Hash) (kis : List KeyImage) (kiTx : Store KeyImage Hash) :
    (kis.foldl (Pool.insertKeyimage tid) (kiTx, false)).2 = false := by
  induction kis generalizing kiTx with
  | nil => rfl
  | cons ki kis ih =>
    rw [List.foldl_cons, Pool.insertKeyimage]
    cases kiTx.get ki <;> exact ih _

/-- When every key image was new, exactly those inserted have changed. -/
theorem insertKeyimages_get (tid : Hash) (kis : List KeyImage) (kiTx : Store KeyImage Hash)
    (h : (Pool.insertKeyimages tid kis kiTx).2 = true) (a : KeyImage) :
    (a ∈ kis → kiTx.get a = none) ∧
      (Pool.insertKeyimages tid kis kiTx).1.get a = if a ∈ kis then some tid else kiTx.get a := by
  unfold Pool.insertKeyimages at h ⊢
  induction kis generalizing kiTx with
  | nil => simp
  | cons ki kis ih =>
    rw [List.foldl_cons] at h ⊢
    cases hki : kiTx.get ki with
    | some other =>
      simp only [Pool.insertKeyimage, hki] at h
      rw [insertKeyimages_false] at h
      cases h
    | none =>
      simp only [Pool.insertKeyimage, hki] at h ⊢
      obtain ⟨hnew, hget⟩ := ih _ h
      rw [hget]
      by_cases heq : ki = a
      · subst heq
        simp [hki]
      · constructor
        · intro ha
          rw [List.mem_cons] at ha
          have hnone := hnew (ha.resolve_left (Ne.symm heq))
          rwa [Store.get_put_of_ne _ _ heq] at hnone
        · simp [Store.get_put_of_ne _ _ heq, Ne.symm heq]

namespace Pool

/-! ## The invariant -/

/-- The maps of the pool agree, and no transaction of it spends a key image twice. -/
structure Consistent (pool : Pool) : Prop where
  kiTx_iff : ∀ ki tid, pool.kiTx.get ki = some tid ↔
    ∃ p, pool.tx.get tid = some p ∧ ki ∈ p.tx.keyImages
  nodup : ∀ tid p, pool.tx.get tid = some p → p.tx.keyImages.Nodup
  feeTx_iff : ∀ fee tid,
    (∃ hashes, pool.feeTx.get fee = some hashes ∧ hashes.get tid = some ()) ↔
      ∃ p, pool.tx.get tid = some p ∧ p.feePerByte = fee
  first_ne_none : ∀ fee hashes, pool.feeTx.get fee = some hashes → hashes.first ≠ none

theorem consistent_empty : Consistent {} where
  kiTx_iff := by simp
  nodup := by simp
  feeTx_iff := by simp
  first_ne_none := by simp

variable {pool : Pool}

/-- The transaction that a key image is mapped to is there and spends it. -/
theorem Consistent.get_of_kiTx (h : Consistent pool) {ki : KeyImage} {tid : Hash}
    (hki : pool.kiTx.get ki = some tid) :
    ∃ p, pool.tx.get tid = some p ∧ ki ∈ p.tx.keyImages :=
  (h.kiTx_iff ki tid).1 hki

/-! ## The fee index -/

theorem eraseFee_get (feeTx : Store Amount (Store Hash Unit)) (fee : Amount) (tid : Hash)
    {hashes : Store Hash Unit} (hget : feeTx.get fee = some hashes) (fee' : Amount) (tid' : Hash) :
    (∃ hashes', (eraseFee feeTx fee tid).1.get fee' = some hashes' ∧ hashes'.get tid' = some ()) ↔
      (∃ hashes', feeTx.get fee' = some hashes' ∧ hashes'.get tid' = some ()) ∧
        ¬ (fee' = fee ∧ tid' = tid) := by
  unfold eraseFee
  simp only [hget, Option.getD_some]
  by_cases hfee : fee = fee'
  · subst hfee
    by_cases hnone : (hashes.remove tid).first.isNone
    · have hall := Store.first_isNone_iff.1 hnone tid'
      rw [Store.get_remove] at hall
      simp only [hnone, if_true, Store.get_remove_self, hget, Option.some.injEq, exists_eq_left']
      by_cases htid : tid = tid'
      · simp [htid]
      · simp only [htid, if_false] at hall
        simp [hall]
    · simp only [hnone, Bool.false_eq_true, if_false, Store.get_put_self, hget, Option.some.injEq,
        exists_eq_left', Store.get_remove]
      by_cases htid : tid = tid'
      · simp [htid]
      · simp [htid, Ne.symm htid]
  · split <;>
      simp [Store.get_remove_of_ne _ hfee, Store.get_put_of_ne _ _ hfee, Ne.symm hfee]

theorem eraseFee_first (feeTx : Store Amount (Store Hash Unit)) (fee : Amount) (tid : Hash)
    (h : ∀ fee hashes, feeTx.get fee = some hashes → hashes.first ≠ none) (fee' : Amount)
    (hashes' : Store Hash Unit) (hget : (eraseFee feeTx fee tid).1.get fee' = some hashes') :
    hashes'.first ≠ none := by
  unfold eraseFee at hget
  by_cases hfee : fee = fee'
  · subst hfee
    by_cases hnone : ((feeTx.get fee).getD ∅ |>.remove tid).first.isNone
    · simp [hnone] at hget
    · simp only [hnone, Bool.false_eq_true, if_false, Store.get_put_self, Option.some.injEq] at hget
      subst hget
      simpa using hnone
  · apply h fee'
    dsimp only at hget
    split at hget
    · rwa [Store.get_remove_of_ne _ hfee] at hget
    · rwa [Store.get_put_of_ne _ _ hfee] at hget

/-! ## Removal -/

/-- On a consistent pool a transaction can be removed: it goes from all maps, and nothing else
does. -/
theorem removeFromPool_of_get (h : Consistent pool) {tid : Hash} {p : PoolTransaction}
    (hget : pool.tx.get tid = some p) :
    ∃ pool', pool.removeFromPool tid = .ok pool' ∧ Consistent pool' ∧
      pool'.tx = pool.tx.remove tid ∧
      ∀ ki, pool'.kiTx.get ki = if ki ∈ p.tx.keyImages then none else pool.kiTx.get ki := by
  obtain ⟨hashes, hfee, htid⟩ := (h.feeTx_iff p.feePerByte tid).2 ⟨p, hget, rfl⟩
  have hki : (eraseKeyimages pool.kiTx p.tx.keyImages).2 = true := by
    apply eraseKeyimages_snd _ _ (h.nodup tid p hget)
    intro ki hmem
    rw [(h.kiTx_iff ki tid).2 ⟨p, hget, hmem⟩]
    rfl
  have herased : (eraseFee pool.feeTx p.feePerByte tid).2 = true := by
    simp [eraseFee, hfee, htid]
  have hkiget := fun ki ↦ eraseKeyimages_fst_get p.tx.keyImages pool.kiTx true ki
  refine ⟨{ tx := pool.tx.remove tid
            kiTx := (eraseKeyimages pool.kiTx p.tx.keyImages).1
            feeTx := (eraseFee pool.feeTx p.feePerByte tid).1
            totalSize := pool.totalSize - p.binaryTx.length }, ?_, ?_, rfl, hkiget⟩
  · simp [removeFromPool, hget, invariant, hki, herased, bind, Except.bind, pure, Except.pure]
  · constructor
    · intro ki tid'
      change (eraseKeyimages pool.kiTx p.tx.keyImages).1.get ki = some tid' ↔ _
      rw [eraseKeyimages, hkiget ki]
      by_cases hmem : ki ∈ p.tx.keyImages
      · simp only [hmem, if_true, reduceCtorEq, false_iff, not_exists, not_and]
        intro q hq hkiq
        -- the key image is mapped to the removed transaction only
        have hone := (h.kiTx_iff ki tid).2 ⟨p, hget, hmem⟩
        rw [Store.get_remove] at hq
        split at hq
        · cases hq
        · next hne =>
          have hother := (h.kiTx_iff ki tid').2 ⟨q, hq, hkiq⟩
          rw [hone] at hother
          exact hne (Option.some.inj hother)
      · simp only [hmem, if_false, h.kiTx_iff]
        constructor
        · rintro ⟨q, hq, hkiq⟩
          have hne : tid ≠ tid' := by
            rintro rfl
            rw [hget] at hq
            exact hmem (Option.some.inj hq ▸ hkiq)
          exact ⟨q, by rwa [Store.get_remove_of_ne _ hne], hkiq⟩
        · rintro ⟨q, hq, hkiq⟩
          rw [Store.get_remove] at hq
          split at hq
          · cases hq
          · exact ⟨q, hq, hkiq⟩
    · intro tid' q hq
      change (pool.tx.remove tid).get tid' = some q at hq
      rw [Store.get_remove] at hq
      split at hq
      · cases hq
      · exact h.nodup tid' q hq
    · intro fee tid'
      change (∃ hashes, (eraseFee pool.feeTx p.feePerByte tid).1.get fee = some hashes ∧
        hashes.get tid' = some ()) ↔ ∃ q, (pool.tx.remove tid).get tid' = some q ∧ _
      rw [eraseFee_get _ _ _ hfee, h.feeTx_iff, Store.get_remove]
      by_cases htid' : tid = tid'
      · subst htid'
        simp only [hget, Option.some.injEq, exists_eq_left', and_true, if_true, reduceCtorEq,
          false_and, exists_false, iff_false, not_and, not_not]
        exact Eq.symm
      · simp [htid', Ne.symm htid']
    · exact eraseFee_first _ _ _ h.first_ne_none

/-- A removal from a consistent pool never fails and leaves it consistent. -/
theorem removeFromPool_consistent (h : Consistent pool) (tid : Hash) :
    ∃ pool', pool.removeFromPool tid = .ok pool' ∧ Consistent pool' := by
  cases hget : pool.tx.get tid with
  | none => exact ⟨pool, by simp [removeFromPool, hget], h⟩
  | some p =>
    obtain ⟨pool', hok, hcons, -⟩ := removeFromPool_of_get h hget
    exact ⟨pool', hok, hcons⟩

theorem Consistent.removeFromPool (h : Consistent pool) {tid : Hash} {pool' : Pool}
    (hok : pool.removeFromPool tid = .ok pool') : Consistent pool' := by
  obtain ⟨rest, hrest, hcons⟩ := removeFromPool_consistent h tid
  rw [hok, Except.ok.injEq] at hrest
  exact hrest ▸ hcons

/-! ## Displacement, insertion and trimming -/

theorem displace_consistent {fee : Amount} {tid : Hash} {kis : List KeyImage}
    {pool' : Pool} {done : Bool} (h : Consistent pool)
    (hok : displace fee tid kis pool = .ok (pool', done)) : Consistent pool' := by
  induction kis generalizing pool with
  | nil =>
    simp only [displace, Except.ok.injEq, Prod.mk.injEq] at hok
    exact hok.1 ▸ h
  | cons ki kis ih =>
    unfold displace at hok
    cases hki : pool.kiTx.get ki with
    | none =>
      simp only [hki] at hok
      exact ih h hok
    | some other =>
      obtain ⟨p, hp, -⟩ := h.get_of_kiTx hki
      obtain ⟨rest, hrest, hcons, -⟩ := removeFromPool_of_get h hp
      simp only [hki, hp] at hok
      split at hok
      · simp only [Except.ok.injEq, Prod.mk.injEq] at hok
        exact hok.1 ▸ h
      · rw [hrest] at hok
        exact ih hcons hok

theorem insert_consistent {tid : Hash} {p : PoolTransaction} {kis : List KeyImage} {pool' : Pool}
    (h : Consistent pool) (hkis : ∀ ki, ki ∈ kis ↔ ki ∈ p.tx.keyImages)
    (hnodup : p.tx.keyImages.Nodup) (hok : pool.insert tid p kis = .ok pool') :
    Consistent pool' := by
  unfold insert at hok
  cases hget : pool.tx.get tid with
  | some q => simp [hget, invariant, bind, Except.bind] at hok
  | none =>
    simp only [hget, bind_eq_ok_iff, invariant_eq_ok_iff, exists_const] at hok
    obtain ⟨⟨hki, -, hfee⟩, hok⟩ := hok
    simp only [pure, Except.pure, Except.ok.injEq] at hok
    subst hok
    have hkiget := insertKeyimages_get tid kis pool.kiTx hki
    constructor
    · intro ki tid'
      change (insertKeyimages tid kis pool.kiTx).1.get ki = some tid' ↔
        ∃ q, (pool.tx.put tid p).get tid' = some q ∧ _
      simp only [(hkiget ki).2, hkis, Store.get_put]
      by_cases hmem : ki ∈ p.tx.keyImages
      · have hnone := (hkiget ki).1 ((hkis ki).2 hmem)
        by_cases htid : tid = tid'
        · simp [hmem, htid]
        · simp only [hmem, htid, if_true, if_false, Option.some.injEq, false_iff, not_exists]
          intro q hq
          rw [(h.kiTx_iff ki tid').2 ⟨q, hq.1, hq.2⟩] at hnone
          cases hnone
      · simp only [hmem, if_false, h.kiTx_iff]
        by_cases htid : tid = tid'
        · subst htid
          simp [hget, hmem]
        · simp [htid]
    · intro tid' q hq
      change (pool.tx.put tid p).get tid' = some q at hq
      rw [Store.get_put] at hq
      split at hq
      · exact Option.some.inj hq ▸ hnodup
      · exact h.nodup tid' q hq
    · intro fee tid'
      change (∃ hashes, (pool.feeTx.put p.feePerByte
        (((pool.feeTx.get p.feePerByte).getD ∅).put tid ())).get fee = some hashes ∧ _) ↔
        ∃ q, (pool.tx.put tid p).get tid' = some q ∧ _
      have hold := h.feeTx_iff fee tid'
      rw [Store.get_put, Store.get_put]
      by_cases htid : tid = tid'
      · subst htid
        simp only [hget, reduceCtorEq, false_and, exists_false, iff_false] at hold
        by_cases hf : p.feePerByte = fee <;> simp [hf, hold]
      · by_cases hf : p.feePerByte = fee
        · subst hf
          simp only [if_true, Option.some.injEq, exists_eq_left', Store.get_put, htid, if_false,
            ← hold]
          cases hg : pool.feeTx.get p.feePerByte <;> simp
        · simp [hf, htid, hold]
    · intro fee hashes hf
      change (pool.feeTx.put p.feePerByte _).get fee = some hashes at hf
      rw [Store.get_put] at hf
      split at hf
      · intro hnone
        have hall := Store.first_eq_none_iff.1 hnone tid
        rw [← Option.some.inj hf, Store.get_put_self] at hall
        cases hall
      · exact h.first_ne_none fee hashes hf

theorem trim_consistent {fuel : ℕ} {pool' : Pool} (h : Consistent pool)
    (hok : trim fuel pool = .ok pool') : Consistent pool' := by
  induction fuel generalizing pool with
  | zero =>
    obtain ⟨victim, -, hok⟩ := bind_eq_ok_iff.1 hok
    cases victim with
    | none => exact Except.ok.inj hok ▸ h
    | some rhash => cases hok
  | succ fuel ih =>
    obtain ⟨victim, -, hok⟩ := bind_eq_ok_iff.1 hok
    cases victim with
    | none => exact Except.ok.inj hok ▸ h
    | some rhash =>
      obtain ⟨rest, hrest, hcons⟩ := removeFromPool_consistent h rhash
      obtain ⟨rest', hrest', hok⟩ := bind_eq_ok_iff.1 hok
      rw [hrest, Except.ok.injEq] at hrest'
      exact ih (hrest' ▸ hcons) hok

end Pool

end Naza
