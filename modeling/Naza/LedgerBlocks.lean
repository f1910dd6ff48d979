import Naza.LedgerState

/-!
# Blocks on the ledger

Redoing a block on the database connects its transactions to the ledger that the tables represent,
and undoing it takes them back.  The keys of a delta's maps are replayed in their own order, which
the ledger does not see.
-/

open Lib

namespace Naza

variable {cr : Crypto} {c : Currency}

/-! ## A delta on the database -/

namespace State.Represents

variable {s s' : State} {L : Ledger} {d : DeltaState} {kis : List KeyImage} {pushes : List Push}
  {spends : List (Amount × UInt32)}

theorem storeKeyimages (h : s.Represents L) {height : Height} {entries : List (KeyImage × Height)}
    (hheight : ∀ e ∈ entries, e.2 = height)
    (hok : entries.foldlM (fun s (e : KeyImage × Height) ↦
      State.writes.storeKeyimage e.1 e.2 s) s = .ok s') :
    (∀ e ∈ entries, L.keyImages e.1 = none) ∧
      s'.Represents (L.storeKeyImages height (entries.map Prod.fst)) := by
  induction entries generalizing s L with
  | nil =>
    rw [List.foldlM_nil] at hok
    exact ⟨by simp, Except.ok.inj hok ▸ by simpa using h⟩
  | cons e entries ih =>
    rw [List.foldlM_cons] at hok
    obtain ⟨s₁, h₁, hok⟩ := bind_eq_ok_iff.1 hok
    obtain ⟨hnone, hrep⟩ := h.storeKeyimage h₁
    rw [hheight e List.mem_cons_self] at hrep
    obtain ⟨hall, hrep⟩ := ih hrep (fun e' he' ↦ hheight e' (List.mem_cons_of_mem _ he')) hok
    refine ⟨?_, ?_⟩
    · intro e' he'
      rcases List.mem_cons.1 he' with rfl | he'
      · exact hnone
      · have hlater := hall e' he'
        simp only [Ledger.storeKeyImages] at hlater
        split at hlater
        · cases hlater
        · exact hlater
    · rw [List.map_cons, ← List.singleton_append, Ledger.storeKeyImages_append]
      exact hrep

theorem pushAmount (h : s.Represents L) {amount : Amount} {height : Height}
    {ga : List (UnlockMoment × PublicKey)}
    (hok : ga.foldlM (fun s (e : UnlockMoment × PublicKey) ↦
      State.writes.pushAmountOutput amount e.1 height e.2 s) s = .ok s') :
    s'.Represents (L.push height (ga.map fun e ↦ (amount, e))) := by
  induction ga generalizing s L with
  | nil =>
    rw [List.foldlM_nil] at hok
    exact Except.ok.inj hok ▸ by simpa using h
  | cons e ga ih =>
    rw [List.foldlM_cons] at hok
    obtain ⟨s₁, h₁, hok⟩ := bind_eq_ok_iff.1 hok
    have hrep := ih (h.pushAmountOutput h₁).2 hok
    rw [List.map_cons, ← List.singleton_append, Ledger.push_append]
    exact hrep

theorem pushAmounts (h : s.Represents L) {height : Height}
    {gas : List (Amount × List (UnlockMoment × PublicKey))}
    (hok : gas.foldlM (fun s (e : Amount × List (UnlockMoment × PublicKey)) ↦
      e.2.foldlM (fun s (e' : UnlockMoment × PublicKey) ↦
        State.writes.pushAmountOutput e.1 e'.1 height e'.2 s) s) s = .ok s') :
    s'.Represents (L.push height (gas.flatMap fun e ↦ e.2.map fun e' ↦ (e.1, e'))) := by
  induction gas generalizing s L with
  | nil =>
    rw [List.foldlM_nil] at hok
    exact Except.ok.inj hok ▸ by simpa using h
  | cons e gas ih =>
    rw [List.foldlM_cons] at hok
    obtain ⟨s₁, h₁, hok⟩ := bind_eq_ok_iff.1 hok
    have hrep := ih (h.pushAmount h₁) hok
    rw [List.flatMap_cons, Ledger.push_append]
    exact hrep

theorem spendAll (h : s.Represents L) {more : List (Amount × UInt32)}
    (hok : more.foldlM (fun s (e : Amount × UInt32) ↦
      State.writes.spendOutput e.1 e.2 s) s = .ok s') :
    s'.Represents (L.setSpent true more) := by
  induction more generalizing s L with
  | nil =>
    rw [List.foldlM_nil] at hok
    exact Except.ok.inj hok ▸ by simpa using h
  | cons e more ih =>
    rw [List.foldlM_cons] at hok
    have hrep := ih (h.setSpent e.1 e.2 true) hok
    rw [← List.singleton_append, Ledger.setSpent_append]
    exact hrep

/-- A delta replayed on the database: its key images were new, and the ledger has its changes. -/
theorem apply (h : s.Represents L) (hd : d.Holds kis pushes spends)
    (hok : d.apply State.writes s = .ok s') : (∀ ki ∈ kis, L.keyImages ki = none) ∧
      s'.Represents (((L.storeKeyImages d.blockHeight kis).push d.blockHeight pushes).setSpent true
        spends) := by
  simp only [DeltaState.apply, bind_eq_ok_iff] at hok
  obtain ⟨s₁, h₁, s₂, h₂, h₃⟩ := hok
  obtain ⟨hfresh, hrep⟩ := h.storeKeyimages (fun e he ↦ hd.entry_height he) h₁
  have hrep := (hrep.pushAmounts h₂).spendAll h₃
  have hkis : L.storeKeyImages d.blockHeight (d.keyimages.toList.map Prod.fst) =
      L.storeKeyImages d.blockHeight kis := by
    simp only [Ledger.storeKeyImages, hd.keys_perm.mem_iff]
  rw [hd.spent, hkis, @Ledger.push_congr _ _ pushes] at hrep
  · refine ⟨fun ki hki ↦ ?_, hrep⟩
    obtain ⟨e, he, rfl⟩ := List.mem_map.1 (hd.keys_perm.mem_iff.2 hki)
    exact hfresh e he
  · intro amount
    rw [filterMap_toList_eq, hd.outputs]

/-! ### Deltas that can be replayed -/

theorem storeKeyimages_of (h : s.Represents L) (hpool : s.pool.Consistent)
    {entries : List (KeyImage × Height)} (hnone : ∀ e ∈ entries, L.keyImages e.1 = none)
    (hnodup : (entries.map Prod.fst).Nodup) :
    ∃ s', entries.foldlM (fun s (e : KeyImage × Height) ↦
      State.writes.storeKeyimage e.1 e.2 s) s = .ok s' := by
  induction entries generalizing s L with
  | nil => exact ⟨s, rfl⟩
  | cons e entries ih =>
    rw [List.map_cons, List.nodup_cons] at hnodup
    obtain ⟨s₁, h₁⟩ := h.storeKeyimage_of hpool (hnone e List.mem_cons_self) e.2
    obtain ⟨s₂, h₂⟩ := ih (h.storeKeyimage h₁).2 (State.storeKeyimage_consistent hpool h₁)
      (fun e' he' ↦ by
        have hne : e'.1 ≠ e.1 := fun heq ↦ hnodup.1 (heq ▸ List.mem_map.2 ⟨e', he', rfl⟩)
        simpa [Ledger.storeKeyImages, hne] using hnone e' (List.mem_cons_of_mem _ he')) hnodup.2
    refine ⟨s₂, ?_⟩
    rw [List.foldlM_cons]
    exact bind_eq_ok_iff.2 ⟨s₁, h₁, h₂⟩

theorem pushAmount_of (h : s.Represents L) {amount : Amount} (height : Height)
    {ga : List (UnlockMoment × PublicKey)}
    (hlen : (L.outputs amount).length + ga.length ≤ 2 ^ 32) :
    ∃ s', ga.foldlM (fun s (e : UnlockMoment × PublicKey) ↦
      State.writes.pushAmountOutput amount e.1 height e.2 s) s = .ok s' := by
  induction ga generalizing s L with
  | nil => exact ⟨s, rfl⟩
  | cons e ga ih =>
    rw [List.length_cons] at hlen
    have hroom : (L.outputs amount).length < 2 ^ 32 := by omega
    obtain ⟨s₁, h₁⟩ := h.pushAmountOutput_of hroom e.1 height e.2
    obtain ⟨s₂, h₂⟩ := ih (h.pushAmountOutput h₁).2 (by
      simp only [Ledger.push, List.length_append, Ledger.length_newOutputs, pushesOf_singleton,
        if_true, List.length_singleton]
      omega)
    refine ⟨s₂, ?_⟩
    rw [List.foldlM_cons]
    exact bind_eq_ok_iff.2 ⟨s₁, h₁, h₂⟩

theorem pushAmounts_of (h : s.Represents L) (height : Height)
    {gas : List (Amount × List (UnlockMoment × PublicKey))}
    (hlen : ∀ amount, (L.outputs amount).length + (pushesOf amount
      (gas.flatMap fun e ↦ e.2.map fun e' ↦ (e.1, e'))).length ≤ 2 ^ 32) :
    ∃ s', gas.foldlM (fun s (e : Amount × List (UnlockMoment × PublicKey)) ↦
      e.2.foldlM (fun s (e' : UnlockMoment × PublicKey) ↦
        State.writes.pushAmountOutput e.1 e'.1 height e'.2 s) s) s = .ok s' := by
  induction gas generalizing s L with
  | nil => exact ⟨s, rfl⟩
  | cons e gas ih =>
    simp only [List.flatMap_cons, pushesOf_append, List.length_append] at hlen
    obtain ⟨s₁, h₁⟩ := @pushAmount_of _ _ h e.1 height e.2 (by
      have hamount := hlen e.1
      have hself : pushesOf e.1 (e.2.map fun e' ↦ (e.1, e')) = e.2 := by
        simp [pushesOf, List.filterMap_map]
      rw [hself] at hamount
      omega)
    obtain ⟨s₂, h₂⟩ := ih (h.pushAmount h₁) (by
      intro amount
      have hamount := hlen amount
      simp only [Ledger.push, List.length_append, Ledger.length_newOutputs]
      omega)
    refine ⟨s₂, ?_⟩
    rw [List.foldlM_cons]
    exact bind_eq_ok_iff.2 ⟨s₁, h₁, h₂⟩

/-- A delta with new key images is replayed while every amount has indices left. -/
theorem apply_of (h : s.Represents L) (hpool : s.pool.Consistent) (hd : d.Holds kis pushes spends)
    (hnone : ∀ ki ∈ kis, L.keyImages ki = none)
    (hlen : ∀ amount, (L.outputs amount).length + (pushesOf amount pushes).length ≤ 2 ^ 32) :
    ∃ s', d.apply State.writes s = .ok s' := by
  obtain ⟨s₁, h₁⟩ := @storeKeyimages_of _ _ h hpool d.keyimages.toList
    (fun e he ↦ hnone _ (hd.keys_perm.mem_iff.1 (List.mem_map.2 ⟨e, he, rfl⟩)))
    (hd.keys_perm.nodup_iff.2 hd.nodup)
  obtain ⟨-, hrep⟩ := h.storeKeyimages (fun e he ↦ hd.entry_height he) h₁
  obtain ⟨s₂, h₂⟩ := @pushAmounts_of _ _ hrep d.blockHeight d.globalAmounts.toList (by
    intro amount
    rw [filterMap_toList_eq, hd.outputs]
    exact hlen amount)
  have h₃ : ∃ s₃, d.spentOutputs.foldlM (fun s (e : Amount × UInt32) ↦
      State.writes.spendOutput e.1 e.2 s) s₂ = .ok s₃ := by
    obtain ⟨s₃, h₃, -⟩ := foldlM_ok_of (I := fun _ : State ↦ True) (l := d.spentOutputs)
      (f := fun s (e : Amount × UInt32) ↦ State.writes.spendOutput e.1 e.2 s)
      (fun s e _ _ ↦ ⟨s.setSpent e.1 e.2 true, rfl, trivial⟩) (s := s₂) trivial
    exact ⟨s₃, h₃⟩
  obtain ⟨s₃, h₃⟩ := h₃
  exact ⟨s₃, bind_eq_ok_iff.2 ⟨s₁, h₁, bind_eq_ok_iff.2 ⟨s₂, h₂, h₃⟩⟩⟩

end State.Represents

/-! ## Redoing transactions -/

/-- The next indices after some pushes. -/
def bump (next : Amount → UInt32) (pushes : List Push) (amount : Amount) : UInt32 :=
  next amount + UInt32.ofNat (pushesOf amount pushes).length

/-- The indices of a list of pushes. -/
def outputIndices (next : Amount → UInt32) : List Push → List UInt32
  | [] => []
  | push :: pushes => next push.1 :: outputIndices (bump next [push]) pushes

/-- The indices of the outputs of each transaction. -/
def globalIndicesOf (next : Amount → UInt32) : List Transaction → BlockGlobalIndices
  | [] => []
  | tx :: txs => outputIndices next tx.pushes :: globalIndicesOf (bump next tx.pushes) txs

@[simp]
theorem bump_nil (next : Amount → UInt32) : bump next [] = next := by
  funext amount
  simp [bump]

theorem bump_append (next : Amount → UInt32) (l₁ l₂ : List Push) :
    bump next (l₁ ++ l₂) = bump (bump next l₁) l₂ := by
  funext amount
  simp only [bump, pushesOf_append, List.length_append, UInt32.ofNat_add]
  rw [UInt32.add_assoc]

section Redo

variable {parent : StateReads} {d d' : DeltaState} {kis : List KeyImage} {pushes : List Push}
  {spends : List (Amount × UInt32)}

theorem DeltaState.Holds.reads_next (h : d.Holds kis pushes spends) :
    (d.reads parent).nextGlobalIndexForAmount = bump parent.nextGlobalIndexForAmount pushes := by
  funext amount
  have houtputs := h.outputs amount
  simp only [DeltaState.reads, bump]
  cases hget : d.globalAmounts.get amount with
  | none =>
    rw [hget, Option.getD_none] at houtputs
    simp [← houtputs]
  | some ga =>
    rw [hget, Option.getD_some] at houtputs
    rw [houtputs, UInt32.add_comm]

theorem redoOutputs_indices (h : d.Holds kis pushes spends) (unlockTime : UnlockMoment)
    (outputs : List TransactionOutput) : (redoOutputs parent unlockTime outputs d).2 =
      outputIndices (bump parent.nextGlobalIndexForAmount pushes)
        (outputs.map fun output ↦ (output.amount, unlockTime, output.key)) := by
  induction outputs generalizing d pushes with
  | nil => rfl
  | cons output outputs ih =>
    have hpush := h.pushAmountOutput (output.amount, unlockTime, output.key)
    have hrest := ih hpush
    rw [bump_append] at hrest
    simp only [redoOutputs, List.map_cons, outputIndices]
    rw [hrest, hpush.reads_next]
    congr 1
    simp only [bump, pushesOf_append, pushesOf_singleton, if_true, List.length_append,
      List.length_singleton, UInt32.ofNat_add]
    rw [← UInt32.add_assoc]
    exact UInt32.add_sub_cancel _ _

/-- The indices that a redone transaction reports. -/
theorem redoTransactionGetError_indices (h : d.Holds kis pushes spends) {tx : Transaction}
    {checkSigs : Bool} {indices : List UInt32} {conflictHeight : Height}
    (hok : redoTransactionGetError cr c tx parent d checkSigs =
      .accept (d', indices, conflictHeight)) :
    indices = outputIndices (bump parent.nextGlobalIndexForAmount pushes) tx.pushes := by
  simp only [redoTransactionGetError, Check.bind_eq_accept_iff, Check.lift_eq_accept_iff,
    Prod.exists] at hok
  obtain ⟨txDelta, height, hinputs, delta, -, hok⟩ := hok
  obtain ⟨htx, -, -⟩ := redoInputs_accept (DeltaState.holds_empty _ _) hinputs
  have hindices := @redoOutputs_indices (d.reads parent) _ _ _ _ htx tx.unlockTime tx.outputs
  have hok := Prod.mk.inj (Prod.mk.inj (Check.accept.inj hok)).2
  rw [← hok.1, hindices, h.reads_next, bump_nil]
  rfl

/-- The transactions of a block append to the delta, each after the ones before it. -/
theorem redoTransactions_accept (h : d.Holds kis pushes spends) {txs : List Transaction}
    {indices : BlockGlobalIndices}
    (hok : redoTransactions cr c parent txs d = .accept (d', indices)) :
    d'.Holds (kis ++ keyImagesOf txs) (pushes ++ pushesAll txs) (spends ++ spendsOf txs) ∧
      d'.blockHeight = d.blockHeight ∧
      indices = globalIndicesOf (bump parent.nextGlobalIndexForAmount pushes) txs := by
  induction txs generalizing d kis pushes spends indices with
  | nil =>
    have hok := Prod.mk.inj (Check.accept.inj hok)
    obtain ⟨rfl, rfl⟩ := hok
    exact ⟨by simpa [keyImagesOf, pushesAll, spendsOf] using h, rfl, rfl⟩
  | cons tx txs ih =>
    simp only [redoTransactions, Check.bind_eq_accept_iff, Prod.exists] at hok
    obtain ⟨d₁, indices₁, height, h₁, d₂, indices₂, h₂, hok⟩ := hok
    have hok := Prod.mk.inj (Check.accept.inj hok)
    obtain ⟨rfl, rfl⟩ := hok
    obtain ⟨hholds, hbh, -⟩ := redoTransactionGetError_accept h h₁
    have hindices := redoTransactionGetError_indices h h₁
    obtain ⟨hholds', hbh', hindices'⟩ := ih hholds h₂
    refine ⟨?_, hbh'.trans hbh, ?_⟩
    · simpa [keyImagesOf, pushesAll, spendsOf] using hholds'
    · rw [hindices, hindices', bump_append]
      rfl

/-- Without signature checks transactions are redone exactly when no key image is met twice. -/
theorem redoTransactions_of (h : d.Holds kis pushes spends) (txs : List Transaction)
    (hnodup : (kis ++ keyImagesOf txs).Nodup) :
    ∃ d' indices, redoTransactions cr c parent txs d = .accept (d', indices) := by
  induction txs generalizing d kis pushes spends with
  | nil => exact ⟨d, [], rfl⟩
  | cons tx txs ih =>
    have hsplit : keyImagesOf (tx :: txs) = tx.keyImages ++ keyImagesOf txs := rfl
    rw [hsplit, ← List.append_assoc] at hnodup
    obtain ⟨d₁, indices₁, h₁, hholds, -⟩ := @redoTransactionGetError_unchecked cr c
      parent _ _ _ _ h tx (List.nodup_append.1 hnodup).1
    obtain ⟨d₂, indices₂, h₂⟩ := ih hholds hnodup
    refine ⟨d₂, indices₁ :: indices₂, ?_⟩
    simp only [redoTransactions, h₁, Check.accept_bind, h₂, Check.pure_eq]

theorem redoTransactions_of_not_nodup (h : d.Holds kis pushes spends) (txs : List Transaction)
    (hnodup : ¬ (kis ++ keyImagesOf txs).Nodup) :
    redoTransactions cr c parent txs d = .fault (.invariant "m_keyimages.insert") := by
  induction txs generalizing d kis pushes spends with
  | nil => exact absurd (by simpa [keyImagesOf] using h.nodup) hnodup
  | cons tx txs ih =>
    have hsplit : keyImagesOf (tx :: txs) = tx.keyImages ++ keyImagesOf txs := rfl
    rw [hsplit, ← List.append_assoc] at hnodup
    by_cases htx : (kis ++ tx.keyImages).Nodup
    · obtain ⟨d₁, indices₁, h₁, hholds, -⟩ := @redoTransactionGetError_unchecked cr c
        parent _ _ _ _ h tx htx
      simp only [redoTransactions, h₁, Check.accept_bind, ih hholds hnodup, Check.fault_bind]
    · simp only [redoTransactions, redoTransactionGetError_unchecked_of_not_nodup h tx htx,
        Check.fault_bind]

end Redo

/-! ## Redoing a block -/

namespace State

variable {s s' : State} {L : Ledger}

/-- A block that redo_block applies: its key images were new, and it is connected to the ledger. -/
theorem Represents.redoBlock (h : s.Represents L) {bhash : Hash} {block : Block}
    {info : Api.BlockHeader} (hok : s.redoBlock cr c bhash block info = .ok (some s')) :
    (∃ args, s.ringWork cr c block info = .ok args ∧ signaturesValid cr args = true) ∧
      (∀ ki ∈ keyImagesOf block.allTransactions, L.keyImages ki = none) ∧
      (keyImagesOf block.allTransactions).Nodup ∧
      s'.Represents (L.connect info.height block.allTransactions) ∧
      s.db.globalIndices.get bhash = none ∧
      s'.db.globalIndices = s.db.globalIndices.put bhash
        (globalIndicesOf s.nextGlobalIndexForAmount block.allTransactions) := by
  unfold State.redoBlock at hok
  split at hok
  · cases hok
  · next args hargs =>
    split at hok
    · cases hok
    · cases hok
    · next delta globalIndices hredo =>
      split at hok
      · next hvalid =>
        simp only [bind_eq_ok_iff, dbWrite_eq_ok_iff, Store.putNew_eq_ok_iff] at hok
        obtain ⟨s₁, h₁, table, ⟨hnone, rfl⟩, hok⟩ := hok
        obtain ⟨hholds, hheight, hindices⟩ := redoTransactions_accept
          (DeltaState.holds_empty info.height info.timestamp) hredo
        obtain ⟨hfresh, hrep⟩ := h.apply hholds h₁
        rw [List.nil_append] at hfresh
        rw [hheight, List.nil_append, List.nil_append, List.nil_append] at hrep
        have htable : s₁.db.globalIndices = s.db.globalIndices := apply_globalIndices h₁
        rw [htable] at hnone
        refine ⟨⟨args, hargs, hvalid⟩, hfresh, hholds.nodup, ?_, hnone, ?_⟩
        · rw [← Option.some.inj (Except.ok.inj hok)]
          exact hrep.of_eq rfl rfl rfl
        · rw [← Option.some.inj (Except.ok.inj hok), hindices, bump_nil, htable]
          rfl
      · cases hok

/-! ## Undoing a block -/

/-- One input taken back. -/
theorem Represents.undoInput (h : s.Represents L) {input : KeyInput}
    (hok : (do
      let s ← s.deleteKeyimage input.keyImage
      match input.outputIndexes with
      | [index] => return s.setSpent input.amount index false
      | _ => return s) = (.ok s' : Except Fault State)) :
    s'.Represents ((L.dropKeyImages [input.keyImage]).setSpent false input.spend?.toList) := by
  obtain ⟨s₁, h₁, hok⟩ := bind_eq_ok_iff.1 hok
  have hrep := (h.deleteKeyimage h₁).2
  unfold KeyInput.spend?
  revert hok
  rcases input.outputIndexes with _ | ⟨index, _ | ⟨_, _⟩⟩ <;> intro hok <;> rw [← Except.ok.inj hok]
  · simpa using hrep
  · exact hrep.setSpent input.amount index false
  · simpa using hrep

theorem Represents.undoInputs (h : s.Represents L) {inputs : List TransactionInput}
    (hok : s.undoInputs inputs = .ok s') :
    s'.Represents ((L.dropKeyImages (inputKeyImages inputs)).setSpent false
      (inputSpends inputs)) := by
  unfold State.undoInputs at hok
  induction inputs using List.reverseRecOn generalizing s L with
  | nil =>
    rw [List.reverse_nil, List.foldlM_nil] at hok
    exact Except.ok.inj hok ▸ by simpa [inputKeyImages, inputSpends] using h
  | append_singleton inputs input ih =>
    rw [List.reverse_append, List.reverse_singleton, List.singleton_append,
      List.foldlM_cons] at hok
    obtain ⟨s₁, h₁, hrest⟩ := bind_eq_ok_iff.1 hok
    cases input with
    | coinbaseInput _ =>
      have hrep := ih (Except.ok.inj h₁ ▸ h) hrest
      simpa [inputKeyImages, inputSpends, TransactionInput.keyImages] using hrep
    | keyInput input =>
      have hrep := ih (h.undoInput h₁) hrest
      -- flags and key images are sets, so the order of the inputs is not seen
      have hkis : inputKeyImages (inputs ++ [.keyInput input]) =
        inputKeyImages inputs ++ [input.keyImage] := by
        simp [inputKeyImages, TransactionInput.keyImages]
      have hspends : inputSpends (inputs ++ [.keyInput input]) =
        inputSpends inputs ++ input.spend?.toList := by simp [inputSpends]
      refine cast (congrArg s'.Represents ?_) hrep
      ext1
      · funext ki
        simp only [Ledger.setSpent, Ledger.dropKeyImages, hkis, List.mem_append]
        by_cases h₁ : ki ∈ inputKeyImages inputs <;> by_cases h₂ : ki ∈ [input.keyImage] <;>
          simp [h₁, h₂]
      · funext amount
        change markSpent false amount _ (markSpent false amount _ (L.outputs amount)) =
          markSpent false amount _ (L.outputs amount)
        rw [hspends, ← markSpent_append]
        exact markSpent_congr false amount (fun e ↦ by simp [or_comm]) (L.outputs amount)

theorem Represents.undoOutputs (h : s.Represents L) {unlockTime : UnlockMoment}
    {outputs : List TransactionOutput} (hok : s.undoOutputs unlockTime outputs = .ok s') :
    s'.Represents (L.pop (outputs.map fun output ↦ (output.amount, unlockTime, output.key))) := by
  unfold State.undoOutputs at hok
  induction outputs using List.reverseRecOn generalizing s L with
  | nil =>
    rw [List.reverse_nil, List.foldlM_nil] at hok
    exact Except.ok.inj hok ▸ by simpa using h
  | append_singleton outputs output ih =>
    rw [List.reverse_append, List.reverse_singleton, List.singleton_append,
      List.foldlM_cons] at hok
    obtain ⟨s₁, h₁, hok⟩ := bind_eq_ok_iff.1 hok
    rw [List.map_append, List.map_singleton, Ledger.pop_append]
    exact ih (h.popAmountOutput h₁) hok

theorem Represents.undoTransaction (h : s.Represents L) {tx : Transaction}
    (hok : s.undoTransaction tx = .ok s') : s'.Represents (L.undo tx) := by
  obtain ⟨s₁, h₁, hok⟩ := bind_eq_ok_iff.1 hok
  have hrep := (h.undoOutputs h₁).undoInputs hok
  rw [← TransactionPrefix.keyImages_eq, ← TransactionPrefix.spends_eq] at hrep
  exact hrep

theorem undoTransaction_globalIndices {tx : Transaction} (hok : s.undoTransaction tx = .ok s') :
    s'.db.globalIndices = s.db.globalIndices := by
  obtain ⟨s₁, h₁, h₂⟩ := bind_eq_ok_iff.1 hok
  have e₁ : s₁.db.globalIndices = s.db.globalIndices := by
    refine foldlM_ok_preserves (I := fun t ↦ t.db.globalIndices = s.db.globalIndices) ?_ h₁ rfl
    intro t output t' _ hx hI
    simp only [popAmountOutput, bind_eq_ok_iff] at hx
    obtain ⟨-, -, unp, -, -, -, outputs, -, hx⟩ := hx
    rw [← Except.ok.inj hx]
    exact hI
  refine foldlM_ok_preserves (I := fun t ↦ t.db.globalIndices = s.db.globalIndices) ?_ h₂ e₁
  intro t input t' _ hx hI
  cases input with
  | coinbaseInput _ =>
    rw [← Except.ok.inj hx]
    exact hI
  | keyInput input =>
    obtain ⟨u, hu, hx⟩ := bind_eq_ok_iff.1 hx
    obtain ⟨keyImages, -, hu⟩ := bind_eq_ok_iff.1 hu
    have hu' : u.db.globalIndices = s.db.globalIndices := by
      rw [← Except.ok.inj hu]
      exact hI
    have hset : ∀ index, (u.setSpent input.amount index false).db.globalIndices =
        u.db.globalIndices := by
      intro index
      unfold setSpent
      split <;> rfl
    split at hx
    · rw [← Except.ok.inj hx, hset, hu']
    · rw [← Except.ok.inj hx, hu']

theorem Represents.undoTransactions (h : s.Represents L) {txs : List Transaction}
    (hok : txs.reverse.foldlM (fun s tx ↦ State.undoTransaction tx s) s = .ok s') :
    s'.Represents (txs.foldr Ledger.undo L) ∧ s'.db.globalIndices = s.db.globalIndices := by
  induction txs using List.reverseRecOn generalizing s L with
  | nil =>
    rw [List.reverse_nil, List.foldlM_nil] at hok
    exact Except.ok.inj hok ▸ ⟨h, rfl⟩
  | append_singleton txs tx ih =>
    rw [List.reverse_append, List.reverse_singleton, List.singleton_append,
      List.foldlM_cons] at hok
    obtain ⟨s₁, h₁, hok⟩ := bind_eq_ok_iff.1 hok
    obtain ⟨hrep, htable⟩ := ih (h.undoTransaction h₁) hok
    rw [List.foldr_append]
    exact ⟨hrep, htable.trans (undoTransaction_globalIndices h₁)⟩

/-- The transactions of a block are undone in the reverse of the order they were redone in. -/
theorem undoBlock_eq_ok_iff {bhash : Hash} {block : Block} :
    s.undoBlock bhash block = .ok s' ↔ ∃ s₁,
      block.allTransactions.reverse.foldlM (fun s tx ↦ State.undoTransaction tx s) s = .ok s₁ ∧
      s₁.db.globalIndices.get bhash ≠ none ∧ s' = { s₁ with db := { s₁.db with
        globalIndices := s₁.db.globalIndices.remove bhash } } := by
  simp only [State.undoBlock, bind_eq_ok_iff, dbWrite_eq_ok_iff, Store.removeExisting_eq_ok_iff,
    Block.allTransactions, List.reverse_cons, List.foldlM_append, List.foldlM_cons,
    List.foldlM_nil]
  constructor
  · rintro ⟨s₁, h₁, s₂, h₂, table, ⟨hne, rfl⟩, hok⟩
    exact ⟨s₂, ⟨s₁, h₁, s₂, h₂, rfl⟩, hne, (Except.ok.inj hok).symm⟩
  · rintro ⟨s₁, ⟨s₂, h₂, s₃, h₃, h₁⟩, hne, rfl⟩
    rw [← Except.ok.inj h₁] at hne ⊢
    exact ⟨s₂, h₂, s₃, h₃, _, ⟨hne, rfl⟩, rfl⟩

/-- Undoing a block takes its transactions back from the ledger. -/
theorem Represents.undoBlock (h : s.Represents L) {bhash : Hash} {block : Block}
    (hok : s.undoBlock bhash block = .ok s') :
    s'.Represents (block.allTransactions.foldr Ledger.undo L) ∧
      s.db.globalIndices.get bhash ≠ none ∧
      s'.db.globalIndices = s.db.globalIndices.remove bhash := by
  obtain ⟨s₁, h₁, hne, rfl⟩ := undoBlock_eq_ok_iff.1 hok
  obtain ⟨hrep, htable⟩ := h.undoTransactions h₁
  refine ⟨hrep.of_eq rfl rfl rfl, htable ▸ hne, ?_⟩
  rw [← htable]

/-! ### Blocks that can be undone -/

end State

end Naza
