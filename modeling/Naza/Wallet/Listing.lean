import Naza.Wallet.Balance

/-!
# Balances and lists of outputs

`get_balance`, which corrects the stored balance, and the two lists of outputs that belong to it,
each with the transactions of the memory pool on top of the database.
-/

open Lib

namespace Naza

/-- The outputs and key images of the transactions in the memory pool: `DeltaState`. -/
structure MemoryState where
  unspents : Store PublicKey (List Api.Output) := ∅
  usedKeyimages : Store KeyImage ℕ := ∅

/-- `is_memory_spent`. -/
def MemoryState.isMemorySpent (m : MemoryState) (output : Api.Output) : Bool :=
  (m.usedKeyimages.get output.keyImage).isSome

/-- The unspent outputs of the memory pool for an address. -/
def MemoryState.outputs (m : MemoryState) (address : String) : List Api.Output :=
  (m.unspents.toList.flatMap Prod.snd).filter fun output ↦ address = "" ∨ address = output.address

namespace WalletTables

/-- The outputs that `for_each_in_unspent_index` visits: those above the height `from`, which
wraps, up to the height `to`. -/
def forEachInUnspentIndex (address : String) (fromHeight toHeight : Height) (t : WalletTables) :
    Except WalletFault (List Api.Output) :=
  if address = "" then
    .ok ((t.unspent.table.toList.filter fun e ↦
      fromHeight + 1 ≤ e.1.1 ∧ e.1.1 ≤ toHeight).map Prod.snd)
  else
    (t.unspentByAddress.table.toList.filter fun e ↦
      e.1.1 = address ∧ fromHeight + 1 ≤ e.1.2.1 ∧ e.1.2.1 ≤ toHeight).mapM fun e ↦ do
        let output ← throwing (expect (t.readFromUnspentIndex e.1.2)
          "unspent indexes do not match")
        throwing (invariant (output.address = address) "output is in wrong index by address")
        return output

/-- `api_get_unlocked_outputs`. -/
def apiGetUnlockedOutputs (address : String) (fromHeight toHeight : Height) (t : WalletTables) :
    Except WalletFault (Store (Amount × UInt32) Api.Output) :=
  readUnlockIndex t.unlocked.table address fromHeight toHeight ∅

/-- The visits of `api_add_unspent`: whether all outputs were visited, the list and its sum. -/
def addUnspents (m : MemoryState) (recentlyUnlocked : Store (Amount × UInt32) Api.Output)
    (maxAmount : Amount) :
    List Api.Output → List Api.Output → Amount → Bool × List Api.Output × Amount
  | [], result, totalAmount => (true, result, totalAmount)
  | output :: outputs, result, totalAmount =>
    if m.isMemorySpent output = false ∧
        recentlyUnlocked.get (output.amount, output.globalIndex) = none then
      let totalAmount := if output.dust then totalAmount else totalAmount + output.amount
      if maxAmount ≤ totalAmount ∧ 10000 ≤ (result ++ [output]).length then
        (false, result ++ [output], totalAmount)
      else addUnspents m recentlyUnlocked maxAmount outputs (result ++ [output]) totalAmount
    else addUnspents m recentlyUnlocked maxAmount outputs result totalAmount

/-- `api_add_unspent`: what it returns, and the list and sum it adds to. -/
def apiAddUnspent (m : MemoryState) (result : List Api.Output) (totalAmount : Amount)
    (address : String) (confirmedHeight : Height) (maxAmount : Amount) (t : WalletTables) :
    Except WalletFault (Bool × List Api.Output × Amount) := do
  let recentlyUnlocked ← t.apiGetUnlockedOutputs address confirmedHeight 0xFFFFFFFF
  let outputs ← t.forEachInUnspentIndex address 0xFFFFFFFF confirmedHeight
  return addUnspents m recentlyUnlocked maxAmount outputs result totalAmount

/-- A recently unlocked output, where it stands in the list of those not confirmed. -/
def listsUnlocked (m : MemoryState) (confirmedHeight : Height) (t : WalletTables)
    (output : Api.Output) : Bool :=
  (t.readFromUnspentIndex (output.height, output.amount, output.globalIndex)).isSome &&
    m.isMemorySpent output = false && output.height ≤ confirmedHeight

/-- `api_get_locked_or_unconfirmed_unspent`. -/
def apiGetLockedOrUnconfirmedUnspent (m : MemoryState) (address : String)
    (confirmedHeight : Height) (t : WalletTables) : Except WalletFault (List Api.Output) := do
  let unconfirmed ← t.forEachInUnspentIndex address confirmedHeight 0xFFFFFFFF
  let recentlyUnlocked ← t.apiGetUnlockedOutputs address confirmedHeight 0xFFFFFFFF
  let stillLocked ← readUnlockIndex t.lockedByTimestamp.table address 0xFFFFFFFF 0xFFFFFFFF ∅
  let stillLocked ← readUnlockIndex t.lockedByHeight.table address 0xFFFFFFFF 0xFFFFFFFF stillLocked
  return unconfirmed.filter (fun output ↦ m.isMemorySpent output = false) ++
    (recentlyUnlocked.toList.map Prod.snd).filter (t.listsUnlocked m confirmedHeight) ++
    (stillLocked.toList.map Prod.snd).filter (fun output ↦ m.isMemorySpent output = false) ++
    m.outputs address

/-- A recently unlocked output of `get_balance`, found under its full amount. -/
def combineUnlocked (m : MemoryState) (confirmedHeight : Height) (t : WalletTables)
    (balance : Api.Balance) (lou : (Amount × UInt32) × Api.Output) :
    Except WalletFault Api.Balance :=
  match t.readFromUnspentIndex (lou.2.height, lou.1.1, lou.1.2) with
  | none => .ok balance
  | some existingOutput =>
    if m.isMemorySpent lou.2 then .ok balance
    else if lou.2.height ≤ confirmedHeight then combineBalance balance existingOutput 1 (-1)
    else .ok balance

/-- A key image used in the memory pool. -/
def combineUsed (address : String) (confirmedHeight : Height) (t : WalletTables)
    (balance : Api.Balance) (keyImage : KeyImage) : Except WalletFault Api.Balance :=
  match (t.readByKeyimage keyImage).bind t.readFromUnspentIndex with
  | none => .ok balance
  | some existingOutput =>
    if existingOutput.height ≤ confirmedHeight ∧
        (address = "" ∨ existingOutput.address = address) then
      combineBalance balance existingOutput 0 (-1)
    else .ok balance

/-- `get_balance`. -/
def getBalance (m : MemoryState) (address : String) (confirmedHeight : Height)
    (t : WalletTables) : Except WalletFault Api.Balance := do
  let balance := (t.balances.table.get address).getD {}
  let unconfirmed ← t.forEachInUnspentIndex address confirmedHeight 0xFFFFFFFF
  let balance ← unconfirmed.foldlM (fun balance output ↦
    combineBalance balance output (if m.isMemorySpent output then 0 else 1) (-1)) balance
  let recentlyUnlocked ← t.apiGetUnlockedOutputs address confirmedHeight 0xFFFFFFFF
  let balance ← recentlyUnlocked.toList.foldlM (t.combineUnlocked m confirmedHeight) balance
  let balance ← (m.usedKeyimages.toList.map Prod.fst).foldlM
    (t.combineUsed address confirmedHeight) balance
  (m.outputs address).foldlM (fun balance output ↦ combineBalance balance output 1 0) balance

/-! ## What the scans read -/

variable {c : Currency} {t : WalletTables}

/-- The unspent outputs of an address. -/
def unspentOf (t : WalletTables) (a : String) : Multiset Api.Output :=
  t.unspent.table.values.filter (Api.Output.OfAddress a)

theorem Indexed.nodup_unspent (h : Indexed c t) : t.unspent.table.values.Nodup := by
  rw [Store.values, Multiset.coe_nodup]
  refine List.Nodup.of_map Api.Output.heightAmounGi ?_
  have hkeys : (t.unspent.table.toList.map Prod.snd).map Api.Output.heightAmounGi =
      t.unspent.table.toList.map Prod.fst := by
    rw [List.map_map]
    exact List.map_congr_left fun e he ↦ h.unspent e.1 e.2 (Store.mem_toList_iff.1 he)
  rw [hkeys]
  exact Store.nodup_keys_toList _

theorem Indexed.mem_unspentOf (h : Indexed c t) {a : String} {o : Api.Output} :
    o ∈ t.unspentOf a ↔ t.unspent.table.get o.heightAmounGi = some o ∧ o.OfAddress a := by
  rw [unspentOf, Multiset.mem_filter, Store.mem_values_iff]
  refine and_congr_left fun _ ↦ ⟨?_, fun hget ↦ ⟨_, hget⟩⟩
  rintro ⟨k, hk⟩
  rw [h.unspent k o hk]
  exact hk

/-- An element of a list has a partner in the list it was computed from. -/
theorem exists_of_forall₂_right {α β : Type} {R : α → β → Prop} {l : List α} {m : List β}
    (h : List.Forall₂ R l m) {b : β} (hb : b ∈ m) : ∃ a ∈ l, R a b := by
  induction h with
  | nil => cases hb
  | cons hr _ ih =>
    rcases List.mem_cons.1 hb with rfl | hb
    · exact ⟨_, List.mem_cons_self, hr⟩
    · obtain ⟨a, ha, har⟩ := ih hb
      exact ⟨a, List.mem_cons_of_mem _ ha, har⟩

/-- The outputs visited are the unspent ones of the address in the range of heights. -/
theorem Indexed.forEachInUnspentIndex (h : Indexed c t) {address : String}
    {fromHeight toHeight : Height} {l : List Api.Output}
    (hl : t.forEachInUnspentIndex address fromHeight toHeight = .ok l) :
    (l : Multiset Api.Output) = (t.unspentOf address).filter fun o ↦
      fromHeight + 1 ≤ o.height ∧ o.height ≤ toHeight := by
  have hnodup := ((h.nodup_unspent.filter (Api.Output.OfAddress address)).filter fun o ↦
    fromHeight + 1 ≤ o.height ∧ o.height ≤ toHeight)
  rw [WalletTables.forEachInUnspentIndex] at hl
  split at hl
  · next haddress =>
    cases hl
    refine (Multiset.Nodup.ext ?_ hnodup).2 fun o ↦ ?_
    · rw [Multiset.coe_nodup]
      exact (List.filter_sublist.map _).nodup (Multiset.coe_nodup.1 h.nodup_unspent)
    · rw [Multiset.mem_coe, Multiset.mem_filter, ← unspentOf, h.mem_unspentOf, List.mem_map]
      constructor
      · rintro ⟨e, he, rfl⟩
        obtain ⟨hmem, hrange⟩ := List.mem_filter.1 he
        have hget := Store.mem_toList_iff.1 hmem
        have hkey := h.unspent _ _ hget
        rw [hkey]
        refine ⟨⟨hget, Or.inl haddress⟩, ?_⟩
        rw [show e.2.height = e.1.1 from congrArg Prod.fst hkey]
        simpa using hrange
      · rintro ⟨⟨hget, -⟩, hrange⟩
        refine ⟨(o.heightAmounGi, o), List.mem_filter.2 ⟨Store.mem_toList_iff.2 hget, ?_⟩, rfl⟩
        exact decide_eq_true hrange
  · next haddress =>
    have hreads : Ends (List.Forall₂ (fun (e : (String × HeightAmounGi) × Unit) (o : Api.Output) ↦
        t.unspent.table.get e.1.2 = some o ∧ o.address = address)
        (t.unspentByAddress.table.toList.filter fun e ↦
          e.1.1 = address ∧ fromHeight + 1 ≤ e.1.2.1 ∧ e.1.2.1 ≤ toHeight))
        (· = WalletFault.underflow)
        ((t.unspentByAddress.table.toList.filter fun e ↦
          e.1.1 = address ∧ fromHeight + 1 ≤ e.1.2.1 ∧ e.1.2.1 ≤ toHeight).mapM fun e ↦ do
            let output ← throwing (expect (t.readFromUnspentIndex e.1.2)
              "unspent indexes do not match")
            throwing (invariant (output.address = address) "output is in wrong index by address")
            return output) := by
      refine Ends.mapM fun e _ ↦ (ends_throwing (by simp) _).bind fun output hread ↦
        (ends_throwing (by simp) _).bind fun _ hinv ↦ ?_
      exact ⟨expect_eq_ok_iff.1 hread, invariant_eq_ok_iff.1 hinv⟩
    have hends := hreads.of_ok hl
    have hkeys : l.map Api.Output.heightAmounGi =
        (t.unspentByAddress.table.toList.filter fun e ↦
          e.1.1 = address ∧ fromHeight + 1 ≤ e.1.2.1 ∧ e.1.2.1 ≤ toHeight).map
            fun e ↦ e.1.2 := by
      refine (List.forall₂_eq_eq_eq ▸ List.forall₂_map_left_iff.2
        (List.forall₂_map_right_iff.2 (hends.flip.imp fun o e hr ↦ ?_)))
      exact h.unspent _ _ hr.1
    have haddresses : ∀ o ∈ l, o.address = address ∧
        t.unspent.table.get o.heightAmounGi = some o := by
      intro o ho
      obtain ⟨e, -, hget, hoaddress⟩ := exists_of_forall₂_right hends ho
      exact ⟨hoaddress, by rw [h.unspent _ _ hget]; exact hget⟩
    refine (Multiset.Nodup.ext ?_ hnodup).2 fun o ↦ ?_
    · rw [Multiset.coe_nodup]
      refine List.Nodup.of_map Api.Output.heightAmounGi ?_
      rw [hkeys]
      refine List.Nodup.of_map (fun k ↦ (address, k)) ?_
      rw [List.map_map]
      have hsame : ((t.unspentByAddress.table.toList.filter fun e ↦
          e.1.1 = address ∧ fromHeight + 1 ≤ e.1.2.1 ∧ e.1.2.1 ≤ toHeight).map
            ((fun k ↦ (address, k)) ∘ fun e ↦ e.1.2)) =
          (t.unspentByAddress.table.toList.filter fun e ↦
            e.1.1 = address ∧ fromHeight + 1 ≤ e.1.2.1 ∧ e.1.2.1 ≤ toHeight).map Prod.fst := by
        refine List.map_congr_left fun e he ↦ ?_
        have := (of_decide_eq_true (List.mem_filter.1 he).2).1
        rw [Function.comp_apply, ← this]
      rw [hsame]
      exact (List.filter_sublist.map _).nodup (Store.nodup_keys_toList _)
    · rw [Multiset.mem_coe, Multiset.mem_filter, ← unspentOf, h.mem_unspentOf]
      have hiff : o ∈ l ↔ (o.address = address ∧ t.unspent.table.get o.heightAmounGi = some o) ∧
          o.heightAmounGi ∈ l.map Api.Output.heightAmounGi := by
        refine ⟨fun ho ↦ ⟨haddresses o ho, List.mem_map_of_mem ho⟩, ?_⟩
        rintro ⟨⟨_, hget⟩, hmem⟩
        obtain ⟨o', ho', heq⟩ := List.mem_map.1 hmem
        have hget' := (haddresses o' ho').2
        rw [heq, hget] at hget'
        rw [Option.some.inj hget']
        exact ho'
      rw [hiff, hkeys]
      constructor
      · rintro ⟨⟨hoaddress, hget⟩, hmem⟩
        obtain ⟨e, he, heq⟩ := List.mem_map.1 hmem
        have hrange := (of_decide_eq_true (List.mem_filter.1 he).2).2
        rw [heq] at hrange
        exact ⟨⟨hget, Or.inr hoaddress⟩, hrange⟩
      · rintro ⟨⟨hget, hof⟩, hrange⟩
        have hoaddress : o.address = address := hof.resolve_left haddress
        refine ⟨⟨hoaddress, hget⟩, List.mem_map.2 ⟨((address, o.heightAmounGi), ()), ?_, rfl⟩⟩
        refine List.mem_filter.2 ⟨Store.mem_toList_iff.2 ?_, decide_eq_true ⟨rfl, hrange⟩⟩
        obtain ⟨u, hu⟩ := Option.ne_none_iff_exists'.1
          ((h.unspentByAddress address o.heightAmounGi).2 ⟨o, hget, hoaddress⟩)
        exact hu

end WalletTables

end Naza
