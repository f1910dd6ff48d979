import Naza.Lib.Transition
import Naza.Transactions

/-!
# What a delta holds

A delta is described by three lists: the key images stored in it, the outputs pushed and the
outputs marked as spent.  Redoing a transaction appends to the lists, and applying one delta to
another joins them.
-/

open Lib

namespace Naza

variable {cr : Crypto} {c : Currency}

/-! ## What a transaction changes -/

/-- An output of an amount with its unlock time and its key. -/
abbrev Push := Amount × UnlockMoment × PublicKey

/-- The outputs that a transaction pushes, in output order. -/
def TransactionPrefix.pushes (tx : TransactionPrefix) : List Push :=
  tx.outputs.map fun output ↦ (output.amount, tx.unlockTime, output.key)

/-- The output that a key input marks as spent: the member of a ring of one. -/
def KeyInput.spend? (input : KeyInput) : Option (Amount × UInt32) :=
  match input.outputIndexes with
  | [index] => some (input.amount, index)
  | _ => none

/-- The outputs that a transaction marks as spent, in input order. -/
def TransactionPrefix.spends (tx : TransactionPrefix) : List (Amount × UInt32) :=
  tx.keyInputs.filterMap KeyInput.spend?

/-- The pushes of one amount. -/
def pushesOf (amount : Amount) (pushes : List Push) : List (UnlockMoment × PublicKey) :=
  pushes.filterMap fun push ↦ if push.1 = amount then some push.2 else none

theorem pushesOf_append (amount : Amount) (l₁ l₂ : List Push) :
    pushesOf amount (l₁ ++ l₂) = pushesOf amount l₁ ++ pushesOf amount l₂ := by
  simp [pushesOf]

@[simp]
theorem pushesOf_nil (amount : Amount) : pushesOf amount [] = [] := rfl

theorem pushesOf_singleton (amount : Amount) (push : Push) :
    pushesOf amount [push] = if push.1 = amount then [push.2] else [] := by
  unfold pushesOf
  split <;> simp_all

namespace DeltaState

/-- The delta holds exactly these key images, pushes and spends. -/
structure Holds (d : DeltaState) (kis : List KeyImage) (pushes : List Push)
    (spends : List (Amount × UInt32)) : Prop where
  keyimages : ∀ ki, d.keyimages.get ki = if ki ∈ kis then some d.blockHeight else none
  nodup : kis.Nodup
  outputs : ∀ amount, (d.globalAmounts.get amount).getD [] = pushesOf amount pushes
  spent : d.spentOutputs = spends

variable {d d' : DeltaState} {kis : List KeyImage} {pushes : List Push}
  {spends : List (Amount × UInt32)}

theorem holds_empty (blockHeight : Height) (unlockTimestamp : Timestamp) :
    Holds { blockHeight, unlockTimestamp } [] [] [] := by
  constructor <;> simp

/-! ## The three writes -/

/-- A key image can be stored once. -/
theorem Holds.storeKeyimage (h : d.Holds kis pushes spends) {ki : KeyImage} (hnew : ki ∉ kis) :
    ∃ d', d.storeKeyimage ki d.blockHeight = .ok d' ∧ d'.Holds (kis ++ [ki]) pushes spends ∧
      d'.blockHeight = d.blockHeight ∧ d'.unlockTimestamp = d.unlockTimestamp := by
  have hnone : d.keyimages.get ki = none := by rw [h.keyimages, if_neg hnew]
  refine ⟨{ d with keyimages := d.keyimages.put ki d.blockHeight }, ?_, ?_, rfl, rfl⟩
  · rw [DeltaState.storeKeyimage, Store.putNew_of_none _ hnone]
  · refine ⟨?_, ?_, h.outputs, h.spent⟩
    · intro a
      rw [Store.get_put, h.keyimages]
      by_cases heq : ki = a
      · simp [heq]
      · simp [heq, Ne.symm heq]
    · exact List.nodup_append.2 ⟨h.nodup, List.nodup_singleton ki, by
        rintro a ha b hb rfl
        exact hnew (List.mem_singleton.1 hb ▸ ha)⟩

/-- Storing a key image a second time is the failing invariant of the delta. -/
theorem Holds.storeKeyimage_of_mem (h : d.Holds kis pushes spends) {ki : KeyImage}
    (hmem : ki ∈ kis) (height : Height) :
    d.storeKeyimage ki height = .error (.invariant "m_keyimages.insert") := by
  have hsome : d.keyimages.get ki = some d.blockHeight := by rw [h.keyimages, if_pos hmem]
  simp only [DeltaState.storeKeyimage, Store.putNew, hsome]

theorem Holds.pushAmountOutput (h : d.Holds kis pushes spends) (push : Push) :
    (d.pushAmountOutput push.1 push.2.1 push.2.2).Holds kis (pushes ++ [push]) spends := by
  refine ⟨h.keyimages, h.nodup, ?_, h.spent⟩
  intro amount
  rw [pushesOf_append, pushesOf_singleton, ← h.outputs amount]
  simp only [DeltaState.pushAmountOutput, Store.get_put]
  by_cases heq : push.1 = amount <;> simp [heq]

theorem Holds.spendOutput (h : d.Holds kis pushes spends) (amount : Amount) (index : UInt32) :
    (d.spendOutput amount index).Holds kis pushes (spends ++ [(amount, index)]) :=
  ⟨h.keyimages, h.nodup, h.outputs, by rw [DeltaState.spendOutput, h.spent]⟩

/-! ## Applying a delta to another -/

theorem Holds.storeKeyimages (h : d.Holds kis pushes spends) {more : List (KeyImage × Height)}
    (hheight : ∀ e ∈ more, e.2 = d.blockHeight) (hnodup : (kis ++ more.map Prod.fst).Nodup) :
    ∃ d', more.foldlM (fun s (e : KeyImage × Height) ↦ writes.storeKeyimage e.1 e.2 s) d = .ok d' ∧
      d'.Holds (kis ++ more.map Prod.fst) pushes spends ∧ d'.blockHeight = d.blockHeight ∧
      d'.unlockTimestamp = d.unlockTimestamp := by
  induction more generalizing d kis with
  | nil => exact ⟨d, rfl, by simpa using h, rfl, rfl⟩
  | cons e more ih =>
    have hnew : e.1 ∉ kis := fun hmem ↦
      (List.nodup_append.1 hnodup).2.2 _ hmem _ (by simp) rfl
    obtain ⟨d₁, h₁, hholds, hbh, hut⟩ := h.storeKeyimage hnew
    rw [List.map_cons, ← List.singleton_append, ← List.append_assoc] at hnodup
    obtain ⟨d₂, h₂, hholds₂, hbh₂, hut₂⟩ := ih hholds
      (fun e' he' ↦ (hheight e' (List.mem_cons_of_mem _ he')).trans hbh.symm) hnodup
    refine ⟨d₂, ?_, by simpa using hholds₂, hbh₂.trans hbh, hut₂.trans hut⟩
    rw [List.foldlM_cons]
    change (d.storeKeyimage e.1 e.2 >>= _) = _
    rw [hheight e List.mem_cons_self, h₁]
    exact h₂

theorem Holds.storeKeyimages_of_not_nodup (h : d.Holds kis pushes spends)
    {more : List (KeyImage × Height)} (hheight : ∀ e ∈ more, e.2 = d.blockHeight)
    (hnodup : ¬ (kis ++ more.map Prod.fst).Nodup) :
    more.foldlM (fun s (e : KeyImage × Height) ↦ writes.storeKeyimage e.1 e.2 s) d =
      .error (.invariant "m_keyimages.insert") := by
  induction more generalizing d kis with
  | nil => exact absurd (by simpa using h.nodup) hnodup
  | cons e more ih =>
    rw [List.foldlM_cons]
    change (d.storeKeyimage e.1 e.2 >>= _) = _
    by_cases hmem : e.1 ∈ kis
    · rw [h.storeKeyimage_of_mem hmem]
      rfl
    · obtain ⟨d₁, h₁, hholds, hbh, hut⟩ := h.storeKeyimage hmem
      rw [hheight e List.mem_cons_self, h₁]
      rw [List.map_cons, ← List.singleton_append, ← List.append_assoc] at hnodup
      exact ih hholds
        (fun e' he' ↦ (hheight e' (List.mem_cons_of_mem _ he')).trans hbh.symm) hnodup

theorem pushAll (amount : Amount) (blockHeight : Height) (ga : List (UnlockMoment × PublicKey))
    (h : d.Holds kis pushes spends) :
    ∃ d', ga.foldlM (fun s (e : UnlockMoment × PublicKey) ↦
        writes.pushAmountOutput amount e.1 blockHeight e.2 s) d = .ok d' ∧
      d'.Holds kis (pushes ++ ga.map fun e ↦ (amount, e)) spends ∧
      d'.blockHeight = d.blockHeight ∧ d'.unlockTimestamp = d.unlockTimestamp := by
  induction ga generalizing d pushes with
  | nil => exact ⟨d, rfl, by simpa using h, rfl, rfl⟩
  | cons e ga ih =>
    obtain ⟨d₂, h₂, hholds, hbh, hut⟩ := ih (h.pushAmountOutput (amount, e))
    refine ⟨d₂, ?_, by simpa using hholds, hbh, hut⟩
    rw [List.foldlM_cons]
    exact h₂

theorem pushAmounts (blockHeight : Height)
    (gas : List (Amount × List (UnlockMoment × PublicKey))) (h : d.Holds kis pushes spends) :
    ∃ d', gas.foldlM (fun s (e : Amount × List (UnlockMoment × PublicKey)) ↦
        e.2.foldlM (fun s (e' : UnlockMoment × PublicKey) ↦
          writes.pushAmountOutput e.1 e'.1 blockHeight e'.2 s) s) d = .ok d' ∧
      d'.Holds kis (pushes ++ gas.flatMap fun e ↦ e.2.map fun e' ↦ (e.1, e')) spends ∧
      d'.blockHeight = d.blockHeight ∧ d'.unlockTimestamp = d.unlockTimestamp := by
  induction gas generalizing d pushes with
  | nil => exact ⟨d, rfl, by simpa using h, rfl, rfl⟩
  | cons e gas ih =>
    obtain ⟨d₁, h₁, hholds, hbh, hut⟩ := pushAll e.1 blockHeight e.2 h
    obtain ⟨d₂, h₂, hholds₂, hbh₂, hut₂⟩ := ih hholds
    refine ⟨d₂, ?_, by simpa using hholds₂, hbh₂.trans hbh, hut₂.trans hut⟩
    rw [List.foldlM_cons, h₁]
    exact h₂

theorem spendAll (more : List (Amount × UInt32)) (h : d.Holds kis pushes spends) :
    ∃ d', more.foldlM (fun s (e : Amount × UInt32) ↦ writes.spendOutput e.1 e.2 s) d = .ok d' ∧
      d'.Holds kis pushes (spends ++ more) ∧
      d'.blockHeight = d.blockHeight ∧ d'.unlockTimestamp = d.unlockTimestamp := by
  induction more generalizing d spends with
  | nil => exact ⟨d, rfl, by simpa using h, rfl, rfl⟩
  | cons e more ih =>
    obtain ⟨d₂, h₂, hholds, hbh, hut⟩ := ih (h.spendOutput e.1 e.2)
    refine ⟨d₂, ?_, by simpa using hholds, hbh, hut⟩
    rw [List.foldlM_cons]
    exact h₂

end DeltaState

/-! ## Entries of ordered stores -/

/-- What the entries of a store say about one key is its value there. -/
theorem filterMap_toList_eq (ga : Store Amount (List (UnlockMoment × PublicKey)))
    (amount : Amount) :
    pushesOf amount (ga.toList.flatMap fun e ↦ e.2.map fun e' ↦ (e.1, e')) =
      (ga.get amount).getD [] := by
  have hnodup := ga.nodup_keys_toList
  have hmem : ∀ e ∈ ga.toList, ga.get e.1 = some e.2 := fun e he ↦ Store.mem_toList_iff.1 he
  have hkey : ∀ v, ga.get amount = some v → (amount, v) ∈ ga.toList :=
    fun v hv ↦ Store.mem_toList_iff.2 hv
  have hentry : ∀ (e : Amount × List (UnlockMoment × PublicKey)),
      pushesOf amount (e.2.map fun e' ↦ (e.1, e')) = if e.1 = amount then e.2 else [] := by
    intro e
    by_cases heq : e.1 = amount
    · simp [pushesOf, heq, List.filterMap_map]
    · simp [pushesOf, heq, List.filterMap_map]
  have hlist : ∀ l : List (Amount × List (UnlockMoment × PublicKey)), (l.map Prod.fst).Nodup →
      (∀ e ∈ l, ga.get e.1 = some e.2) →
      pushesOf amount (l.flatMap fun e ↦ e.2.map fun e' ↦ (e.1, e')) =
        if amount ∈ l.map Prod.fst then (ga.get amount).getD [] else [] := by
    intro l hl hget
    induction l with
    | nil => rfl
    | cons e l ih =>
      rw [List.map_cons, List.nodup_cons] at hl
      rw [List.flatMap_cons, pushesOf_append, hentry,
        ih hl.2 fun e' he' ↦ hget e' (List.mem_cons_of_mem _ he')]
      by_cases heq : e.1 = amount
      · have hnot : amount ∉ l.map Prod.fst := heq ▸ hl.1
        have hval : ga.get amount = some e.2 := heq ▸ hget e List.mem_cons_self
        simp [heq, hnot, hval]
      · have hne : amount ≠ e.1 := Ne.symm heq
        simp only [heq, if_false, List.nil_append, List.map_cons, List.mem_cons, hne, false_or]
  rw [hlist _ hnodup hmem]
  cases hget : ga.get amount with
  | none => simp
  | some v =>
    have hin : amount ∈ ga.toList.map Prod.fst := List.mem_map.2 ⟨_, hkey v hget, rfl⟩
    rw [if_pos hin]

namespace DeltaState

variable {d d₁ d₂ : DeltaState} {kis kis₁ kis₂ : List KeyImage} {pushes pushes₁ pushes₂ : List Push}
  {spends spends₁ spends₂ : List (Amount × UInt32)}

/-- The order of the key images does not matter, nor that of pushes of different amounts. -/
theorem Holds.congr (h : d.Holds kis₁ pushes₁ spends) (hkis : kis₁.Perm kis₂)
    (hpushes : ∀ amount, pushesOf amount pushes₁ = pushesOf amount pushes₂) :
    d.Holds kis₂ pushes₂ spends := by
  refine ⟨?_, hkis.nodup_iff.1 h.nodup, ?_, h.spent⟩
  · intro ki
    simp only [h.keyimages, hkis.mem_iff]
  · intro amount
    rw [h.outputs, hpushes]

/-- The keys of the key image map are the key images held. -/
theorem Holds.keys_perm (h : d.Holds kis pushes spends) :
    (d.keyimages.toList.map Prod.fst).Perm kis := by
  rw [List.perm_ext_iff_of_nodup d.keyimages.nodup_keys_toList h.nodup]
  intro ki
  constructor
  · intro hmem
    obtain ⟨⟨ki', height⟩, hentry, rfl⟩ := List.mem_map.1 hmem
    have hget := Store.mem_toList_iff.1 hentry
    rw [h.keyimages] at hget
    by_contra hnot
    rw [if_neg hnot] at hget
    cases hget
  · intro hmem
    have hget : d.keyimages.get ki = some d.blockHeight := by rw [h.keyimages, if_pos hmem]
    exact List.mem_map.2 ⟨_, Store.mem_toList_iff.2 hget, rfl⟩

theorem Holds.entry_height (h : d.Holds kis pushes spends) {e : KeyImage × Height}
    (he : e ∈ d.keyimages.toList) : e.2 = d.blockHeight := by
  have hget := Store.mem_toList_iff.1 he
  rw [h.keyimages] at hget
  split at hget
  · exact (Option.some.inj hget).symm
  · cases hget

/-- A delta of the same height is applied to another one unless they share a key image. -/
theorem Holds.apply (h₁ : d₁.Holds kis₁ pushes₁ spends₁) (h₂ : d₂.Holds kis₂ pushes₂ spends₂)
    (hheight : d₂.blockHeight = d₁.blockHeight) (hnodup : (kis₁ ++ kis₂).Nodup) :
    ∃ d, d₂.apply writes d₁ = .ok d ∧
      d.Holds (kis₁ ++ kis₂) (pushes₁ ++ pushes₂) (spends₁ ++ spends₂) ∧
      d.blockHeight = d₁.blockHeight ∧ d.unlockTimestamp = d₁.unlockTimestamp := by
  have hperm : (kis₁ ++ d₂.keyimages.toList.map Prod.fst).Perm (kis₁ ++ kis₂) :=
    h₂.keys_perm.append_left kis₁
  obtain ⟨a, ha, hholds, hbh, hut⟩ := h₁.storeKeyimages
    (fun e he ↦ (h₂.entry_height he).trans hheight) (hperm.nodup_iff.2 hnodup)
  obtain ⟨b, hb, hholds, hbh', hut'⟩ := pushAmounts d₂.blockHeight d₂.globalAmounts.toList hholds
  obtain ⟨e, he, hholds, hbh'', hut''⟩ := spendAll d₂.spentOutputs hholds
  refine ⟨e, ?_, ?_, hbh''.trans (hbh'.trans hbh), hut''.trans (hut'.trans hut)⟩
  · rw [DeltaState.apply, bind_eq_ok_iff]
    exact ⟨a, ha, bind_eq_ok_iff.2 ⟨b, hb, he⟩⟩
  · rw [h₂.spent] at hholds
    refine hholds.congr hperm ?_
    intro amount
    rw [pushesOf_append, pushesOf_append, filterMap_toList_eq, h₂.outputs]

theorem Holds.apply_of_not_nodup (h₁ : d₁.Holds kis₁ pushes₁ spends₁)
    (h₂ : d₂.Holds kis₂ pushes₂ spends₂) (hheight : d₂.blockHeight = d₁.blockHeight)
    (hnodup : ¬ (kis₁ ++ kis₂).Nodup) :
    d₂.apply writes d₁ = .error (.invariant "m_keyimages.insert") := by
  have hperm : (kis₁ ++ d₂.keyimages.toList.map Prod.fst).Perm (kis₁ ++ kis₂) :=
    h₂.keys_perm.append_left kis₁
  have herror := h₁.storeKeyimages_of_not_nodup
    (fun e he ↦ (h₂.entry_height he).trans hheight) fun h ↦ hnodup (hperm.nodup_iff.1 h)
  rw [DeltaState.apply]
  change (d₂.keyimages.toList.foldlM (fun s (e : KeyImage × Height) ↦
    writes.storeKeyimage e.1 e.2 s) d₁ >>= _) = _
  rw [herror]
  rfl

end DeltaState

/-! ## Redoing a transaction -/

/-- The key images of a list of inputs. -/
def inputKeyImages (inputs : List TransactionInput) : List KeyImage :=
  inputs.flatMap TransactionInput.keyImages

/-- The spends of a list of inputs. -/
def inputSpends (inputs : List TransactionInput) : List (Amount × UInt32) :=
  inputs.flatMap fun
    | .coinbaseInput _ => []
    | .keyInput input => input.spend?.toList

theorem TransactionPrefix.keyImages_eq (tx : TransactionPrefix) :
    tx.keyImages = inputKeyImages tx.inputs := by
  unfold TransactionPrefix.keyImages TransactionPrefix.keyInputs inputKeyImages
  induction tx.inputs with
  | nil => rfl
  | cons input inputs ih => cases input <;> simp_all [TransactionInput.keyImages]

theorem TransactionPrefix.spends_eq (tx : TransactionPrefix) :
    tx.spends = inputSpends tx.inputs := by
  unfold TransactionPrefix.spends TransactionPrefix.keyInputs inputSpends
  induction tx.inputs with
  | nil => rfl
  | cons input inputs ih =>
    cases input with
    | coinbaseInput _ => simpa using ih
    | keyInput input => cases h : input.spend? <;> simp_all

section Redo

variable {parent : StateReads} {d d' : DeltaState} {kis : List KeyImage} {pushes : List Push}
  {spends : List (Amount × UInt32)}

/-- What one key input marks in the delta of its transaction. -/
theorem DeltaState.Holds.spendRing (h : d.Holds kis pushes spends) (input : KeyInput) :
    (d.spendRing input).Holds kis pushes (spends ++ input.spend?.toList) ∧
      (d.spendRing input).blockHeight = d.blockHeight ∧
      (d.spendRing input).unlockTimestamp = d.unlockTimestamp := by
  unfold KeyInput.spend? DeltaState.spendRing
  rcases input.outputIndexes with _ | ⟨index, _ | ⟨_, _⟩⟩
  · exact ⟨by simpa using h, rfl, rfl⟩
  · exact ⟨h.spendOutput input.amount index, rfl, rfl⟩
  · exact ⟨by simpa using h, rfl, rfl⟩

/-- The input loop without signature checks goes through exactly when no key image is met twice. -/
theorem redoInputs_unchecked (h : d.Holds kis pushes spends) (hash : Hash)
    (inputs : List TransactionInput) (signatures : List (List Signature)) (height : Height)
    (hnodup : (kis ++ inputKeyImages inputs).Nodup) :
    ∃ d', redoInputs cr c parent false hash inputs signatures d height = .accept (d', height) ∧
      d'.Holds (kis ++ inputKeyImages inputs) pushes (spends ++ inputSpends inputs) ∧
      d'.blockHeight = d.blockHeight ∧ d'.unlockTimestamp = d.unlockTimestamp := by
  induction inputs generalizing d kis spends signatures with
  | nil => exact ⟨d, rfl, by simpa [inputKeyImages, inputSpends] using h, rfl, rfl⟩
  | cons input inputs ih =>
    cases input with
    | coinbaseInput _ => exact ih h signatures.tail hnodup
    | keyInput input =>
      obtain ⟨hspend, hbh, hut⟩ := h.spendRing input
      have hsplit : inputKeyImages (.keyInput input :: inputs) =
        [input.keyImage] ++ inputKeyImages inputs := rfl
      rw [hsplit, ← List.append_assoc] at hnodup
      have hnew : input.keyImage ∉ kis := fun hmem ↦
        (List.nodup_append.1 (List.nodup_append.1 hnodup).1).2.2 _ hmem _ (by simp) rfl
      obtain ⟨d₁, h₁, hholds, hbh₁, hut₁⟩ := hspend.storeKeyimage hnew
      obtain ⟨d₂, h₂, hholds₂, hbh₂, hut₂⟩ := ih hholds signatures.tail hnodup
      refine ⟨d₂, ?_, ?_, hbh₂.trans (hbh₁.trans hbh), hut₂.trans (hut₁.trans hut)⟩
      · simp only [redoInputs, Bool.false_eq_true, if_false, Check.accept_bind, h₁, Check.lift]
        exact h₂
      · rw [hsplit, ← List.append_assoc]
        simpa [inputSpends] using hholds₂

theorem redoInputs_unchecked_of_not_nodup (h : d.Holds kis pushes spends) (hash : Hash)
    (inputs : List TransactionInput) (signatures : List (List Signature)) (height : Height)
    (hnodup : ¬ (kis ++ inputKeyImages inputs).Nodup) :
    redoInputs cr c parent false hash inputs signatures d height =
      .fault (.invariant "m_keyimages.insert") := by
  induction inputs generalizing d kis spends signatures with
  | nil => exact absurd (by simpa [inputKeyImages] using h.nodup) hnodup
  | cons input inputs ih =>
    cases input with
    | coinbaseInput _ => exact ih h signatures.tail hnodup
    | keyInput input =>
      obtain ⟨hspend, hbh, hut⟩ := h.spendRing input
      by_cases hmem : input.keyImage ∈ kis
      · simp only [redoInputs, Bool.false_eq_true, if_false, Check.accept_bind,
          hspend.storeKeyimage_of_mem hmem, Check.lift, Check.fault_bind]
      · obtain ⟨d₁, h₁, hholds, -, -⟩ := hspend.storeKeyimage hmem
        simp only [redoInputs, Bool.false_eq_true, if_false, Check.accept_bind, h₁, Check.lift]
        refine ih hholds signatures.tail ?_
        rwa [List.append_assoc]

/-- In either mode the input loop stores the key images of its inputs and marks their spends. -/
theorem redoInputs_accept (h : d.Holds kis pushes spends) {checkSigs : Bool} {hash : Hash}
    {inputs : List TransactionInput} {signatures : List (List Signature)} {height height' : Height}
    (hok : redoInputs cr c parent checkSigs hash inputs signatures d height =
      .accept (d', height')) :
    d'.Holds (kis ++ inputKeyImages inputs) pushes (spends ++ inputSpends inputs) ∧
      d'.blockHeight = d.blockHeight ∧ d'.unlockTimestamp = d.unlockTimestamp := by
  induction inputs generalizing d kis spends signatures height with
  | nil =>
    have hok := Check.accept.inj hok
    rw [Prod.mk.injEq] at hok
    obtain ⟨rfl, -⟩ := hok
    exact ⟨by simpa [inputKeyImages, inputSpends] using h, rfl, rfl⟩
  | cons input inputs ih =>
    cases input with
    | coinbaseInput _ => exact ih h hok
    | keyInput input =>
      obtain ⟨hspend, hbh, hut⟩ := h.spendRing input
      simp only [redoInputs, Check.bind_eq_accept_iff, Check.lift_eq_accept_iff] at hok
      obtain ⟨height₁, -, d₁, h₁, hok⟩ := hok
      by_cases hmem : input.keyImage ∈ kis
      · rw [hspend.storeKeyimage_of_mem hmem] at h₁
        cases h₁
      · obtain ⟨d₂, h₂, hholds, hbh₂, hut₂⟩ := hspend.storeKeyimage hmem
        rw [h₁, Except.ok.injEq] at h₂
        subst h₂
        obtain ⟨hholds', hbh', hut'⟩ := ih hholds hok
        refine ⟨?_, hbh'.trans (hbh₂.trans hbh), hut'.trans (hut₂.trans hut)⟩
        simpa [inputKeyImages, inputSpends, TransactionInput.keyImages] using hholds'

/-- The output loop pushes the outputs. -/
theorem redoOutputs_holds (h : d.Holds kis pushes spends) (unlockTime : UnlockMoment)
    (outputs : List TransactionOutput) :
    (redoOutputs parent unlockTime outputs d).1.Holds kis
        (pushes ++ outputs.map fun output ↦ (output.amount, unlockTime, output.key)) spends ∧
      (redoOutputs parent unlockTime outputs d).1.blockHeight = d.blockHeight ∧
      (redoOutputs parent unlockTime outputs d).1.unlockTimestamp = d.unlockTimestamp := by
  induction outputs generalizing d pushes with
  | nil => exact ⟨by simpa [redoOutputs] using h, rfl, rfl⟩
  | cons output outputs ih =>
    obtain ⟨hholds, hbh, hut⟩ := ih (h.pushAmountOutput (output.amount, unlockTime, output.key))
    rw [List.append_assoc] at hholds
    exact ⟨hholds, hbh, hut⟩

/-- An accepted transaction is appended to the delta. -/
theorem redoTransactionGetError_accept (h : d.Holds kis pushes spends) {tx : Transaction}
    {checkSigs : Bool} {indices : List UInt32} {conflictHeight : Height}
    (hok : redoTransactionGetError cr c tx parent d checkSigs =
      .accept (d', indices, conflictHeight)) :
    d'.Holds (kis ++ tx.keyImages) (pushes ++ tx.pushes) (spends ++ tx.spends) ∧
      d'.blockHeight = d.blockHeight ∧ d'.unlockTimestamp = d.unlockTimestamp := by
  simp only [redoTransactionGetError, Check.bind_eq_accept_iff, Check.lift_eq_accept_iff,
    Prod.exists] at hok
  obtain ⟨txDelta, height, hinputs, delta, happly, hok⟩ := hok
  have hok := Check.accept.inj hok
  rw [Prod.mk.injEq] at hok
  obtain ⟨rfl, -⟩ := hok
  obtain ⟨htx, hbh, hut⟩ := redoInputs_accept (DeltaState.holds_empty _ _) hinputs
  obtain ⟨htx, hbh', hut'⟩ := @redoOutputs_holds (d.reads parent) _ _ _ _ htx tx.unlockTime
    tx.outputs
  rw [List.nil_append, List.nil_append, List.nil_append, ← TransactionPrefix.keyImages_eq,
    ← TransactionPrefix.spends_eq] at htx
  have hheight := hbh'.trans hbh
  by_cases hnodup : (kis ++ tx.keyImages).Nodup
  · obtain ⟨e, he, hholds, hbh'', hut''⟩ := h.apply htx hheight hnodup
    rw [happly, Except.ok.injEq] at he
    subst he
    exact ⟨hholds, hbh'', hut''⟩
  · rw [h.apply_of_not_nodup htx hheight hnodup] at happly
    cases happly

/-- Without signature checks a transaction is redone unless it repeats a key image. -/
theorem redoTransactionGetError_unchecked (h : d.Holds kis pushes spends) (tx : Transaction)
    (hnodup : (kis ++ tx.keyImages).Nodup) :
    ∃ d' indices, redoTransactionGetError cr c tx parent d false = .accept (d', indices, 0) ∧
      d'.Holds (kis ++ tx.keyImages) (pushes ++ tx.pushes) (spends ++ tx.spends) ∧
      d'.blockHeight = d.blockHeight ∧ d'.unlockTimestamp = d.unlockTimestamp := by
  have hkis := (List.nodup_append.1 hnodup).2.1
  rw [TransactionPrefix.keyImages_eq] at hkis
  obtain ⟨txDelta, hinputs, -, hbh, -⟩ := @redoInputs_unchecked cr c (d.reads parent) _ _ _ _
    (DeltaState.holds_empty d.blockHeight d.unlockTimestamp) 0 tx.inputs tx.signatures 0
    (by simpa using hkis)
  have htx := (redoInputs_accept (DeltaState.holds_empty _ _) hinputs).1
  obtain ⟨htx, hbh', -⟩ := @redoOutputs_holds (d.reads parent) _ _ _ _ htx tx.unlockTime tx.outputs
  rw [List.nil_append, List.nil_append, List.nil_append, ← TransactionPrefix.keyImages_eq,
    ← TransactionPrefix.spends_eq] at htx
  obtain ⟨e, he, hholds, hbh'', hut''⟩ := h.apply htx (hbh'.trans hbh) hnodup
  refine ⟨e, (redoOutputs (d.reads parent) tx.unlockTime tx.outputs txDelta).2, ?_, hholds, hbh'',
    hut''⟩
  simp only [redoTransactionGetError, Bool.false_eq_true, if_false, hinputs, Check.accept_bind, he,
    Check.lift, Check.pure_eq]

theorem redoTransactionGetError_unchecked_of_not_nodup (h : d.Holds kis pushes spends)
    (tx : Transaction) (hnodup : ¬ (kis ++ tx.keyImages).Nodup) :
    redoTransactionGetError cr c tx parent d false = .fault (.invariant "m_keyimages.insert") := by
  by_cases hkis : (inputKeyImages tx.inputs).Nodup
  · obtain ⟨txDelta, hinputs, -, hbh, -⟩ := @redoInputs_unchecked cr c (d.reads parent) _ _ _ _
      (DeltaState.holds_empty d.blockHeight d.unlockTimestamp) 0 tx.inputs tx.signatures 0
      (by simpa using hkis)
    have htx := (redoInputs_accept (DeltaState.holds_empty _ _) hinputs).1
    obtain ⟨htx, hbh', -⟩ :=
      @redoOutputs_holds (d.reads parent) _ _ _ _ htx tx.unlockTime tx.outputs
    rw [List.nil_append, List.nil_append, List.nil_append, ← TransactionPrefix.keyImages_eq,
      ← TransactionPrefix.spends_eq] at htx
    have herror := h.apply_of_not_nodup htx (hbh'.trans hbh) hnodup
    simp only [redoTransactionGetError, Bool.false_eq_true, if_false, hinputs, Check.accept_bind,
      herror, Check.lift, Check.fault_bind]
  · have hfault := @redoInputs_unchecked_of_not_nodup cr c (d.reads parent) _ _ _ _
      (DeltaState.holds_empty d.blockHeight d.unlockTimestamp) 0 tx.inputs tx.signatures 0
      (by simpa using hkis)
    simp only [redoTransactionGetError, Bool.false_eq_true, if_false, hfault, Check.fault_bind]

end Redo

end Naza
