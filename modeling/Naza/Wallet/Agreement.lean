import Naza.Wallet.Listing

/-!
# The balance is the sum of the lists

The stored balance counts all unspent outputs as spendable.  `get_balance` takes away those above
the height, those unlocked recently and those spent in the memory pool; what is left is the list of
`api_add_unspent`.
-/

open Lib

namespace Naza

/-! ## Amounts of a balance -/

namespace Api.Balance

/-- What can be spent, with the dust. -/
def spendableHom : Balance →+ ℕ where
  toFun b := b.spendable + b.spendableDust
  map_zero' := rfl
  map_add' a b := by
    rw [add_def]
    show a.spendable + b.spendable + (a.spendableDust + b.spendableDust) = _
    exact Nat.add_add_add_comm _ _ _ _

def lockedHom : Balance →+ ℕ where
  toFun b := b.lockedOrUnconfirmed
  map_zero' := rfl
  map_add' a b := by rw [add_def]

end Api.Balance

/-- The sum of the amounts of outputs. -/
def amountsOf (outputs : Multiset Api.Output) : ℕ := (outputs.map fun o ↦ o.amount.toNat).sum

theorem spendableHom_spendable (outputs : Multiset Api.Output) :
    (outputs.map Api.Output.spendable).sum.spendableHom = amountsOf outputs ∧
      (outputs.map Api.Output.spendable).sum.lockedHom = 0 := by
  rw [map_multiset_sum, map_multiset_sum, Multiset.map_map, Multiset.map_map, amountsOf]
  constructor
  · refine congrArg Multiset.sum (Multiset.map_congr rfl fun o _ ↦ ?_)
    cases hdust : o.dust <;>
      simp [Api.Output.spendable, hdust, Api.Balance.spendableHom]
  · refine Multiset.sum_eq_zero fun n hn ↦ ?_
    obtain ⟨o, -, rfl⟩ := Multiset.mem_map.1 hn
    cases hdust : o.dust <;>
      simp [Api.Output.spendable, hdust, Api.Balance.lockedHom]

theorem lockedHom_locked (outputs : Multiset Api.Output) :
    (outputs.map Api.Output.locked).sum.lockedHom = amountsOf outputs ∧
      (outputs.map Api.Output.locked).sum.spendableHom = 0 := by
  rw [map_multiset_sum, map_multiset_sum, Multiset.map_map, Multiset.map_map, amountsOf]
  refine ⟨rfl, Multiset.sum_eq_zero fun n hn ↦ ?_⟩
  obtain ⟨o, -, rfl⟩ := Multiset.mem_map.1 hn
  rfl

theorem combineBalance_unconfirm (b : Api.Balance) (o : Api.Output) :
    combineBalance (b + o.spendable) o 1 (-1) = .ok (b + o.locked) := by
  cases hdust : o.dust <;>
    simp [combineBalance, changeTotal, changeCount, Api.Output.spendable, Api.Output.locked, hdust,
      Api.Balance.add_def] <;> rfl

/-- A fold that turns one part of a balance into another, element by element. -/
theorem foldlM_convert {β : Type} {f : Api.Balance → β → Except WalletFault Api.Balance}
    {p q : β → Api.Balance} {l : List β} (hf : ∀ x ∈ l, ∀ r, f (r + p x) x = .ok (r + q x)) :
    ∀ r, l.foldlM f (r + (l.map p).sum) = .ok (r + (l.map q).sum) := by
  induction l with
  | nil => exact fun r ↦ rfl
  | cons x l ih =>
    intro r
    rw [List.foldlM_cons, List.map_cons, List.map_cons, List.sum_cons, List.sum_cons]
    rw [show r + (p x + (l.map p).sum) = r + (l.map p).sum + p x by abel,
      hf x List.mem_cons_self]
    show l.foldlM f (r + (l.map p).sum + q x) = _
    rw [show r + (l.map p).sum + q x = r + q x + (l.map p).sum by abel,
      ih fun y hy ↦ hf y (List.mem_cons_of_mem _ hy)]
    rw [add_assoc]

/-- The sum over those elements that have an image. -/
theorem sum_map_filterMap {β γ : Type} (f : β → Option γ) (p : γ → Api.Balance) (l : List β) :
    (l.map fun x ↦ (f x).elim 0 p).sum = ((l.filterMap f).map p).sum := by
  induction l with
  | nil => rfl
  | cons x l ih =>
    cases h : f x with
    | none => rw [List.filterMap_cons_none h, List.map_cons, List.sum_cons, h, ih, Option.elim_none,
        zero_add]
    | some y => rw [List.filterMap_cons_some h, List.map_cons, List.map_cons, List.sum_cons,
        List.sum_cons, h, ih, Option.elim_some]

namespace WalletTables

variable {c : Currency} {t : WalletTables} {m : MemoryState} {a : String} {h : Height}

/-! ## The unlock indexes -/

/-- The entries of an unlock index that are added in turn. -/
theorem addEntries_spec {l : List ((UInt32 × Amount × UInt32) × Api.Output)}
    {add add' : Store (Amount × UInt32) Api.Output}
    (hok : l.foldlM (fun add ((_, amount, globalIndex), output) ↦ do
      throwing (invariant (output.globalIndex = globalIndex) "Index corrupted")
      if a = "" ∨ output.address = a then
        match add.get (amount, output.globalIndex) with
        | none => return add.put (amount, output.globalIndex) output
        | some _ => throwing (.error
            (.invariant "Invariant dead read_unlock_index adding output twice"))
      else return add) add = .ok add') :
    add'.values = add.values + (l.map Prod.snd : Multiset Api.Output).filter
        (Api.Output.OfAddress a) ∧
      ∀ k o, add'.get k = some o ↔ add.get k = some o ∨ ∃ e ∈ l,
        o.OfAddress a ∧ e.2 = o ∧ k = e.1.2 ∧ o.globalIndex = e.1.2.2 := by
  induction l generalizing add with
  | nil =>
    cases hok
    exact ⟨by simp, fun k o ↦ by simp⟩
  | cons e l ih =>
    obtain ⟨⟨time, amount, index⟩, output⟩ := e
    rw [List.foldlM_cons] at hok
    obtain ⟨add₁, hstep, hrest⟩ := bind_eq_ok_iff.1 hok
    obtain ⟨hvalues, hmem⟩ := ih hrest
    dsimp only at hstep
    obtain ⟨_, hindex, hbody⟩ := bind_eq_ok_iff.1 hstep
    clear hstep
    rw [throwing_eq_ok_iff, invariant_eq_ok_iff] at hindex
    subst hindex
    split at hbody
    · next hof =>
      change output.OfAddress a at hof
      split at hbody
      · next hget =>
        cases hbody
        constructor
        · rw [hvalues, Store.values_put _ _ hget, List.map_cons, ← Multiset.cons_coe,
            Multiset.filter_cons_of_pos _ hof, Multiset.cons_add, Multiset.add_cons]
        · intro k o
          rw [hmem, Store.get_put, List.exists_mem_cons_iff]
          by_cases hk : (amount, output.globalIndex) = k
          · subst hk
            rw [if_pos rfl, hget]
            constructor
            · rintro (heq | hex)
              · cases heq
                exact Or.inr (Or.inl ⟨hof, rfl, rfl, rfl⟩)
              · exact Or.inr (Or.inr hex)
            · rintro (hnone | ⟨-, rfl, -, -⟩ | hex)
              · cases hnone
              · exact Or.inl rfl
              · exact Or.inr hex
          · rw [if_neg hk]
            constructor
            · rintro (hold | hex)
              · exact Or.inl hold
              · exact Or.inr (Or.inr hex)
            · rintro (hold | ⟨-, -, heq, -⟩ | hex)
              · exact Or.inl hold
              · exact absurd heq.symm hk
              · exact Or.inr hex
      · exact absurd hbody (by simp [throwing])
    · next hof =>
      change ¬ output.OfAddress a at hof
      cases hbody
      constructor
      · rw [hvalues, List.map_cons, ← Multiset.cons_coe, Multiset.filter_cons_of_neg _ hof]
      · intro k o
        rw [hmem, List.exists_mem_cons_iff]
        refine or_congr_right ⟨Or.inr, ?_⟩
        rintro (⟨hof', rfl, -, -⟩ | hex)
        · exact absurd hof' hof
        · exact hex

/-- What is read from an unlock index: the outputs of the address in the range, under amount and
global index. -/
theorem readUnlockIndex_spec {index : Store (UInt32 × Amount × UInt32) Api.Output}
    {begin last : UInt32} {add add' : Store (Amount × UInt32) Api.Output}
    (hread : readUnlockIndex index a begin last add = .ok add')
    (hrange : ¬ (begin ≠ 0xFFFFFFFF ∧ last ≤ begin)) :
    add'.values = add.values + ((index.toList.filter fun e ↦
        begin + 1 ≤ e.1.1 ∧ e.1.1 ≤ last).map Prod.snd : Multiset Api.Output).filter
          (Api.Output.OfAddress a) ∧
      ∀ k o, add'.get k = some o ↔ add.get k = some o ∨ ∃ e ∈ index.toList,
        (begin + 1 ≤ e.1.1 ∧ e.1.1 ≤ last) ∧ o.OfAddress a ∧ e.2 = o ∧ k = e.1.2 ∧
          o.globalIndex = e.1.2.2 := by
  rw [readUnlockIndex, if_neg hrange] at hread
  obtain ⟨hvalues, hmem⟩ := addEntries_spec hread
  refine ⟨hvalues, fun k o ↦ ?_⟩
  rw [hmem]
  refine or_congr_right (exists_congr fun e ↦ ?_)
  rw [List.mem_filter, decide_eq_true_iff, and_assoc]

/-! ## The condition -/

/-- What the pool and the unlock history have to be for the balance of an address at a height to be
the sum of the lists.  The first four leave out the sentinel height, the zero key image, which
stands for none, and records of outputs that share amount and global index; the last two the
outputs that balance and lists look up or filter differently. -/
structure Agreeing (m : MemoryState) (a : String) (h : Height) (t : WalletTables) : Prop where
  height : h ≠ 0xFFFFFFFF
  zero : m.usedKeyimages.get 0 = none
  keyImage : ∀ ki k o, m.usedKeyimages.get ki ≠ none → t.keyImages.table.get ki = some k →
    t.unspent.table.get k = some o → o.keyImage = ki
  unlocked : ∀ realHe lou o, t.unlocked.table.get (realHe, o.amount, o.globalIndex) = some lou →
    t.unspent.table.get o.heightAmounGi = some o → o = { lou with amount := o.amount }
  /-- An output that replaced one of lower amount when it was unlocked is kept with the difference
  only; it must not be a recently unlocked one that is still unspent. -/
  reduced : ∀ realHe amount globalIndex lou, h < realHe →
    t.unlocked.table.get (realHe, amount, globalIndex) = some lou → lou.OfAddress a →
    lou.height ≤ h → m.isMemorySpent lou = false →
    (t.unspent.table.get (lou.height, amount, globalIndex) ≠ none ∨
      t.unspent.table.get (lou.height, lou.amount, globalIndex) ≠ none) → lou.amount = amount
  /-- The balance keeps a locked output that the pool spends. -/
  locked : ∀ byHeight k o, (t.locksBy byHeight).table.get k = some o → o.OfAddress a →
    m.isMemorySpent o = false

/-- The unspent output of a recently unlocked one, where the balance takes it away. -/
def existingUnlocked (m : MemoryState) (h : Height) (t : WalletTables)
    (lou : (Amount × UInt32) × Api.Output) : Option Api.Output :=
  (t.readFromUnspentIndex (lou.2.height, lou.1.1, lou.1.2)).filter fun _ ↦
    m.isMemorySpent lou.2 = false ∧ lou.2.height ≤ h

/-- The unspent output that a used key image spends, where the balance takes it away. -/
def existingUsed (a : String) (h : Height) (t : WalletTables) (keyImage : KeyImage) :
    Option Api.Output :=
  ((t.readByKeyimage keyImage).bind t.readFromUnspentIndex).filter fun o ↦
    o.height ≤ h ∧ o.OfAddress a

theorem combineUnlocked_eq (b : Api.Balance) (lou : (Amount × UInt32) × Api.Output) :
    t.combineUnlocked m h b lou =
      (t.existingUnlocked m h lou).elim (.ok b) (combineBalance b · 1 (-1)) := by
  rw [combineUnlocked, existingUnlocked]
  cases t.readFromUnspentIndex (lou.2.height, lou.1.1, lou.1.2) with
  | none => rfl
  | some o =>
    cases hspent : m.isMemorySpent lou.2 <;> by_cases hheight : lou.2.height ≤ h <;>
      simp [Option.filter, hheight]

theorem combineUsed_eq (b : Api.Balance) (keyImage : KeyImage) :
    t.combineUsed a h b keyImage =
      (t.existingUsed a h keyImage).elim (.ok b) (combineBalance b · 0 (-1)) := by
  rw [combineUsed, existingUsed]
  cases (t.readByKeyimage keyImage).bind t.readFromUnspentIndex with
  | none => rfl
  | some o =>
    by_cases hif : o.height ≤ h ∧ (a = "" ∨ o.address = a) <;>
      simp [Option.filter, Api.Output.OfAddress, hif]

theorem height_range {r : Height} (hheight : h ≠ 0xFFFFFFFF) :
    h + 1 ≤ r ∧ r ≤ 0xFFFFFFFF ↔ h < r := by
  have hne : h.toNat ≠ 4294967295 := fun heq ↦ hheight (UInt32.toNat_inj.1 heq)
  have hh := h.toNat_lt
  have hr := r.toNat_lt
  rw [UInt32.le_iff_toNat_le, UInt32.le_iff_toNat_le, UInt32.lt_iff_toNat_lt, UInt32.toNat_add]
  simp only [UInt32.reduceToNat]
  omega

/-- The recently unlocked outputs, by amount and global index.  All are recent at the sentinel
height. -/
theorem apiGetUnlockedOutputs_iff {recent : Store (Amount × UInt32) Api.Output}
    (hrecent : t.apiGetUnlockedOutputs a h 0xFFFFFFFF = .ok recent) (k : Amount × UInt32)
    (lou : Api.Output) : recent.get k = some lou ↔ ∃ realHe, h + 1 ≤ realHe ∧
      t.unlocked.table.get (realHe, k) = some lou ∧ lou.OfAddress a ∧ lou.globalIndex = k.2 := by
  have hlast : ¬ (h ≠ 0xFFFFFFFF ∧ (0xFFFFFFFF : UInt32) ≤ h) := by
    rintro ⟨hne, hle⟩
    have hh := h.toNat_lt
    have hle' := UInt32.le_iff_toNat_le.1 hle
    simp only [UInt32.reduceToNat] at hle'
    exact hne (UInt32.toNat_inj.1 (by simp only [UInt32.reduceToNat]; omega))
  obtain ⟨-, hmem⟩ := readUnlockIndex_spec hrecent hlast
  rw [hmem, Store.get_empty, or_iff_right (by simp)]
  constructor
  · rintro ⟨⟨⟨realHe, k'⟩, lou'⟩, he, hrange, hof, rfl, rfl, hindex⟩
    exact ⟨realHe, hrange.1, Store.mem_toList_iff.1 he, hof, hindex⟩
  · rintro ⟨realHe, hle, hget, hof, hindex⟩
    exact ⟨((realHe, k), lou), Store.mem_toList_iff.2 hget,
      ⟨hle, UInt32.le_iff_toNat_le.2 (Nat.le_of_lt_succ realHe.toNat_lt)⟩, hof, rfl, rfl, hindex⟩

theorem apiGetUnlockedOutputs_spec (hheight : h ≠ 0xFFFFFFFF)
    {recent : Store (Amount × UInt32) Api.Output}
    (hrecent : t.apiGetUnlockedOutputs a h 0xFFFFFFFF = .ok recent) (k : Amount × UInt32)
    (lou : Api.Output) : recent.get k = some lou ↔ ∃ realHe, h < realHe ∧
      t.unlocked.table.get (realHe, k) = some lou ∧ lou.OfAddress a ∧ lou.globalIndex = k.2 := by
  rw [apiGetUnlockedOutputs_iff hrecent]
  refine exists_congr fun realHe ↦ and_congr_left fun _ ↦ ?_
  rw [← height_range hheight]
  exact (and_iff_left (UInt32.le_iff_toNat_le.2 (Nat.le_of_lt_succ realHe.toNat_lt))).symm

theorem existingUnlocked_eq_some_iff {lou : (Amount × UInt32) × Api.Output} {o : Api.Output} :
    t.existingUnlocked m h lou = some o ↔
      t.unspent.table.get (lou.2.height, lou.1) = some o ∧ m.isMemorySpent lou.2 = false ∧
        lou.2.height ≤ h := by
  rw [existingUnlocked, Option.filter_eq_some_iff, decide_eq_true_iff]
  rfl

theorem existingUsed_eq_some_iff {keyImage : KeyImage} {o : Api.Output} :
    t.existingUsed a h keyImage = some o ↔ (∃ k, t.keyImages.table.get keyImage = some k ∧
      t.unspent.table.get k = some o) ∧ o.height ≤ h ∧ o.OfAddress a := by
  rw [existingUsed, Option.filter_eq_some_iff, decide_eq_true_iff, Option.bind_eq_some_iff]
  rfl

section Parts

variable {recent : Store (Amount × UInt32) Api.Output}
  (hagree : t.Agreeing m a h) (hrecent : t.apiGetUnlockedOutputs a h 0xFFFFFFFF = .ok recent)

include hagree hrecent

/-- A recently unlocked output that is unspent, as the unspent index has it. -/
theorem existing_of_recent {k : Amount × UInt32} {lou o : Api.Output}
    (hlou : recent.get k = some lou) (hkey : (o.amount, o.globalIndex) = k)
    (hget : t.unspent.table.get o.heightAmounGi = some o) :
    o = { lou with amount := o.amount } := by
  obtain ⟨realHe, -, hunlocked, -, -⟩ :=
    (apiGetUnlockedOutputs_spec hagree.height hrecent _ _).1 hlou
  rw [← hkey] at hunlocked
  exact hagree.unlocked realHe lou o hunlocked hget

/-- What the balance takes away for recently unlocked outputs. -/
theorem filterMap_existingUnlocked (hindexed : Indexed c t) :
    (recent.toList.filterMap (t.existingUnlocked m h) : Multiset Api.Output) =
      (t.unspentOf a).filter fun o ↦ o.height ≤ h ∧ m.isMemorySpent o = false ∧
        recent.get (o.amount, o.globalIndex) ≠ none := by
  have hkey : ∀ lou o, t.existingUnlocked m h lou = some o →
      (o.amount, o.globalIndex) = lou.1 ∧ t.unspent.table.get o.heightAmounGi = some o := by
    intro lou o heq
    have hget := (existingUnlocked_eq_some_iff.1 heq).1
    have hheamgi := hindexed.unspent _ _ hget
    exact ⟨congrArg Prod.snd hheamgi, hheamgi ▸ hget⟩
  refine (Multiset.Nodup.ext ?_ (Multiset.Nodup.filter _
    (Multiset.Nodup.filter _ hindexed.nodup_unspent))).2 fun o ↦ ?_
  · rw [Multiset.coe_nodup]
    refine List.Pairwise.filterMap _ (fun lou lou' hne o heq o' heq' hoo' ↦ ?_)
      (List.pairwise_map.1 recent.nodup_keys_toList)
    subst hoo'
    exact hne ((hkey _ _ heq).1.symm.trans (hkey _ _ heq').1)
  · rw [Multiset.mem_coe, List.mem_filterMap, Multiset.mem_filter, ← unspentOf,
      hindexed.mem_unspentOf]
    constructor
    · rintro ⟨lou, hmem, heq⟩
      obtain ⟨hk, hget⟩ := hkey lou o heq
      have hlou := Store.mem_toList_iff.1 hmem
      have ho := existing_of_recent hagree hrecent hlou hk hget
      obtain ⟨-, -, -, hof, -⟩ := (apiGetUnlockedOutputs_spec hagree.height hrecent _ _).1 hlou
      obtain ⟨-, hspent, hheight⟩ := existingUnlocked_eq_some_iff.1 heq
      rw [hk, hlou]
      refine ⟨⟨hget, ?_⟩, ?_, ?_, by simp⟩
      · rw [ho]
        exact hof
      · rw [ho]
        exact hheight
      · rw [ho]
        exact hspent
    · rintro ⟨⟨hget, hof⟩, hheight, hspent, hne⟩
      obtain ⟨lou, hlou⟩ := Option.ne_none_iff_exists'.1 hne
      have ho := existing_of_recent hagree hrecent hlou rfl hget
      refine ⟨((o.amount, o.globalIndex), lou), Store.mem_toList_iff.2 hlou,
        existingUnlocked_eq_some_iff.2 ⟨?_, ?_, ?_⟩⟩
      · rw [show lou.height = o.height by rw [ho]]
        exact hget
      · rw [ho] at hspent
        exact hspent
      · rw [ho] at hheight
        exact hheight

/-- The recently unlocked outputs in the list are those that the balance takes away. -/
theorem filter_listsUnlocked (hindexed : Indexed c t) :
    (recent.toList.map Prod.snd).filter (t.listsUnlocked m h) =
    recent.toList.filterMap (t.existingUnlocked m h) := by
  rw [← List.filterMap_eq_filter, List.filterMap_map]
  refine List.filterMap_congr fun lou hmem ↦ ?_
  have hlou := Store.mem_toList_iff.1 hmem
  obtain ⟨realHe, hlt, hunlocked, hof, hindex⟩ :=
    (apiGetUnlockedOutputs_spec hagree.height hrecent _ _).1 hlou
  have hreduced := hagree.reduced realHe lou.1.1 lou.1.2 lou.2 hlt hunlocked hof
  have hsame : lou.2.height ≤ h → m.isMemorySpent lou.2 = false → ∀ o,
      t.unspent.table.get (lou.2.height, lou.1) = some o → lou.2 = o := by
    intro hheight hspent o hget
    have hheamgi := hindexed.unspent _ _ hget
    have ho := existing_of_recent hagree hrecent hlou (congrArg Prod.snd hheamgi)
      (hheamgi ▸ hget)
    have hamount : lou.2.amount = lou.1.1 :=
      hreduced hheight hspent (.inl (by rw [hget]; simp))
    rw [ho, show o.amount = lou.2.amount from
      (congrArg (fun k ↦ k.2.1) hheamgi).trans hamount.symm]
  have hread : lou.2.height ≤ h → m.isMemorySpent lou.2 = false →
      t.unspent.table.get lou.2.heightAmounGi ≠ none →
        lou.1 = (lou.2.amount, lou.2.globalIndex) := by
    intro hheight hspent hne
    rw [Api.Output.heightAmounGi, hindex] at hne
    exact Prod.ext (hreduced hheight hspent (.inr hne)).symm hindex.symm
  refine Option.ext fun o ↦ ?_
  rw [existingUnlocked_eq_some_iff, Function.comp_apply, Option.guard_eq_some_iff, listsUnlocked]
  simp only [Bool.and_eq_true, decide_eq_true_eq, Option.isSome_iff_ne_none]
  constructor
  · rintro ⟨rfl, ⟨hne, hspent⟩, hheight⟩
    refine ⟨?_, hspent, hheight⟩
    obtain ⟨o, hget⟩ := Option.ne_none_iff_exists'.1 hne
    have hkey : t.unspent.table.get (lou.2.height, lou.1) = some o := by
      rw [hread hheight hspent hne]
      exact hget
    rw [hkey, ← hsame hheight hspent o hkey]
  · rintro ⟨hget, hspent, hheight⟩
    obtain rfl := hsame hheight hspent o hget
    have hunspent : t.readFromUnspentIndex
        (lou.2.height, lou.2.amount, lou.2.globalIndex) = some lou.2 := by
      rw [← hindexed.unspent _ _ hget] at hget
      exact hget
    exact ⟨rfl, ⟨by rw [hunspent]; simp, hspent⟩, hheight⟩

end Parts

/-- What the balance takes away for the key images that the pool uses. -/
theorem filterMap_existingUsed (hagree : t.Agreeing m a h) (hindexed : Indexed c t)
    (hpointed : PointedTo t) :
    ((m.usedKeyimages.toList.map Prod.fst).filterMap (t.existingUsed a h) : Multiset Api.Output) =
      (t.unspentOf a).filter fun o ↦ o.height ≤ h ∧ m.isMemorySpent o = true := by
  have hused : ∀ ki ∈ m.usedKeyimages.toList.map Prod.fst, ∀ o,
      t.existingUsed a h ki = some o → o.keyImage = ki := by
    intro ki hki o heq
    obtain ⟨e, he, rfl⟩ := List.mem_map.1 hki
    obtain ⟨⟨k, hk, hget⟩, -⟩ := existingUsed_eq_some_iff.1 heq
    refine hagree.keyImage _ k o ?_ hk hget
    rw [Store.mem_toList_iff.1 he]
    simp
  refine (Multiset.Nodup.ext ?_ (Multiset.Nodup.filter _
    (Multiset.Nodup.filter _ hindexed.nodup_unspent))).2 fun o ↦ ?_
  · rw [Multiset.coe_nodup]
    refine List.Pairwise.filterMap _ (fun ki ki' hne o heq o' heq' hoo' ↦ ?_)
      (List.Pairwise.and_mem.1 m.usedKeyimages.nodup_keys_toList)
    subst hoo'
    exact hne.2.2 ((hused ki hne.1 o heq).symm.trans (hused ki' hne.2.1 o heq'))
  · rw [Multiset.mem_coe, List.mem_filterMap, Multiset.mem_filter, ← unspentOf,
      hindexed.mem_unspentOf]
    constructor
    · rintro ⟨ki, hki, heq⟩
      have ho := hused ki hki o heq
      obtain ⟨e, he, rfl⟩ := List.mem_map.1 hki
      obtain ⟨⟨k, -, hget⟩, hheight, hof⟩ := existingUsed_eq_some_iff.1 heq
      refine ⟨⟨hindexed.unspent k o hget ▸ hget, hof⟩, hheight, ?_⟩
      rw [MemoryState.isMemorySpent, ho, Store.mem_toList_iff.1 he]
      rfl
    · rintro ⟨⟨hget, hof⟩, hheight, hspent⟩
      obtain ⟨n, hn⟩ := Option.isSome_iff_exists.1 hspent
      have hne : o.keyImage ≠ 0 := by
        intro heq
        rw [heq, hagree.zero] at hn
        cases hn
      exact ⟨o.keyImage, List.mem_map.2 ⟨(o.keyImage, n), Store.mem_toList_iff.2 hn, rfl⟩,
        existingUsed_eq_some_iff.2 ⟨⟨_, hpointed.keyImage _ o hget hne, hget⟩, hheight, hof⟩⟩


/-! ## Balance and lists -/

/-- What a complete visit lists. -/
theorem addUnspents_eq {recent : Store (Amount × UInt32) Api.Output} {maxAmount : Amount}
    {l : List Api.Output} {total' : Amount} : ∀ {outputs result : List Api.Output} {total : Amount},
    addUnspents m recent maxAmount outputs result total = (true, l, total') →
      l = result ++ outputs.filter fun o ↦
        m.isMemorySpent o = false ∧ recent.get (o.amount, o.globalIndex) = none := by
  intro outputs
  induction outputs with
  | nil =>
    intro result total heq
    rw [addUnspents, Prod.mk.injEq, Prod.mk.injEq] at heq
    rw [← heq.2.1, List.filter_nil, List.append_nil]
  | cons o outputs ih =>
    intro result total heq
    rw [addUnspents] at heq
    split at heq
    · next hif =>
      dsimp only at heq
      generalize (if o.dust = true then total else total + o.amount) = total₁ at heq
      split at heq
      · cases heq
      · rw [ih heq, List.filter_cons, if_pos (decide_eq_true hif), List.append_assoc,
          List.singleton_append]
    · next hif => rw [ih heq, List.filter_cons, if_neg (by simpa using hif)]

/-- The outputs of an address that are locked. -/
def lockedOf (t : WalletTables) (a : String) : Multiset Api.Output :=
  (t.lockedByHeight.table.values + t.lockedByTimestamp.table.values).filter (Api.Output.OfAddress a)

/-- The locked outputs that the list reads. -/
theorem values_stillLocked {byTimestamp stillLocked : Store (Amount × UInt32) Api.Output}
    (htimestamp : readUnlockIndex t.lockedByTimestamp.table a 0xFFFFFFFF 0xFFFFFFFF ∅ =
      .ok byTimestamp)
    (hlocked : readUnlockIndex t.lockedByHeight.table a 0xFFFFFFFF 0xFFFFFFFF byTimestamp =
      .ok stillLocked) : stillLocked.values = t.lockedOf a := by
  have hall : ∀ index : Store (UInt32 × Amount × UInt32) Api.Output,
      (index.toList.filter fun e ↦ (0xFFFFFFFF : UInt32) + 1 ≤ e.1.1 ∧ e.1.1 ≤ 0xFFFFFFFF) =
        index.toList := by
    intro index
    refine List.filter_eq_self.2 fun e _ ↦ decide_eq_true ⟨?_, ?_⟩
    · exact UInt32.le_iff_toNat_le.2 (Nat.zero_le _)
    · exact UInt32.le_iff_toNat_le.2 (Nat.le_of_lt_succ e.1.1.toNat_lt)
  obtain ⟨hvalues, -⟩ := readUnlockIndex_spec hlocked (by simp)
  obtain ⟨hvalues', -⟩ := readUnlockIndex_spec htimestamp (by simp)
  rw [hvalues, hvalues', hall, hall, Store.values_empty, zero_add, lockedOf, Multiset.filter_add,
    add_comm]
  rfl

/-- A multiset in four parts. -/
theorem eq_filter_parts (s : Multiset Api.Output) (p q r : Api.Output → Prop) [DecidablePred p]
    [DecidablePred q] [DecidablePred r] :
    s = s.filter (¬ p ·) + (s.filter (fun o ↦ p o ∧ q o ∧ ¬ r o) +
      (s.filter (fun o ↦ p o ∧ ¬ q o) + s.filter (fun o ↦ p o ∧ q o ∧ r o))) := by
  refine Multiset.ext.2 fun o ↦ ?_
  simp only [Multiset.count_add, Multiset.count_filter]
  by_cases hp : p o <;> by_cases hq : q o <;> by_cases hr : r o <;> simp [hp, hq, hr]

/-- What `get_balance` makes of the unspent outputs in their parts. -/
theorem getBalance_eq {recent : Store (Amount × UInt32) Api.Output}
    {unconfirmed l : List Api.Output} (hbalance : t.balanceOf a = t.indexedBalance a)
    (hunconfirmed : t.forEachInUnspentIndex a h 0xFFFFFFFF = .ok unconfirmed)
    (hrecent : t.apiGetUnlockedOutputs a h 0xFFFFFFFF = .ok recent)
    (hparts : t.unspentOf a = (unconfirmed : Multiset Api.Output) +
      (l + (((m.usedKeyimages.toList.map Prod.fst).filterMap (t.existingUsed a h) : List _) +
        (recent.toList.filterMap (t.existingUnlocked m h) : List _)))) :
    t.getBalance m a h = .ok (((l : Multiset Api.Output).map Api.Output.spendable).sum +
      (((unconfirmed : Multiset Api.Output).filter (fun o ↦ m.isMemorySpent o = false) +
        (recent.toList.filterMap (t.existingUnlocked m h) : List _) + t.lockedOf a +
          m.outputs a).map Api.Output.locked).sum) := by
  have hstart : t.balanceOf a = (l.map Api.Output.spendable).sum +
      ((t.lockedOf a).map Api.Output.locked).sum +
      (((m.usedKeyimages.toList.map Prod.fst).filterMap (t.existingUsed a h)).map
        Api.Output.spendable).sum +
      ((recent.toList.filterMap (t.existingUnlocked m h)).map Api.Output.spendable).sum +
      (unconfirmed.map Api.Output.spendable).sum := by
    have hlocks : ((t.lockedOf a).map Api.Output.locked).sum =
        sumOf a Api.Output.locked t.lockedByHeight.table.values +
          sumOf a Api.Output.locked t.lockedByTimestamp.table.values := by
      rw [lockedOf, Multiset.filter_add, Multiset.map_add, Multiset.sum_add]
      rfl
    rw [hbalance, indexedBalance, ← hlocks, sumOf, ← unspentOf, hparts]
    simp only [Multiset.map_add, Multiset.sum_add, Multiset.map_coe, Multiset.sum_coe]
    abel
  have hUnconfirmed := foldlM_convert (l := unconfirmed)
    (f := fun b o ↦ combineBalance b o (if m.isMemorySpent o then 0 else 1) (-1))
    (p := Api.Output.spendable)
    (q := fun o ↦ (Option.guard (fun o ↦ m.isMemorySpent o = false) o).elim 0 Api.Output.locked)
    fun o _ r ↦ by
      cases hspent : m.isMemorySpent o
      · simpa [Option.guard, hspent] using combineBalance_unconfirm r o
      · simpa [Option.guard, hspent] using combineBalance_spend r o
  have hRecent := foldlM_convert (l := recent.toList) (f := t.combineUnlocked m h)
    (p := fun lou ↦ (t.existingUnlocked m h lou).elim 0 Api.Output.spendable)
    (q := fun lou ↦ (t.existingUnlocked m h lou).elim 0 Api.Output.locked)
    fun lou _ r ↦ by
      rw [combineUnlocked_eq]
      cases t.existingUnlocked m h lou with
      | none => rfl
      | some o => exact combineBalance_unconfirm r o
  have hUsed := foldlM_convert (l := m.usedKeyimages.toList.map Prod.fst)
    (f := t.combineUsed a h)
    (p := fun ki ↦ (t.existingUsed a h ki).elim 0 Api.Output.spendable) (q := fun _ ↦ 0)
    fun ki _ r ↦ by
      rw [combineUsed_eq, add_zero]
      cases t.existingUsed a h ki with
      | none => exact congrArg Except.ok (add_zero r)
      | some o => exact combineBalance_spend r o
  have hMemory := foldlM_convert (l := m.outputs a)
    (f := fun b o ↦ combineBalance b o 1 0) (p := fun _ ↦ 0) (q := Api.Output.locked)
    fun o _ r ↦ by
      rw [add_zero]
      exact combineBalance_lock r o
  simp only [sum_map_filterMap, List.filterMap_eq_filter] at hUnconfirmed hRecent hUsed
  simp only [List.map_const', List.sum_replicate, nsmul_zero, add_zero] at hUsed hMemory
  simp only [Multiset.map_add, Multiset.sum_add, Multiset.filter_coe, Multiset.map_coe,
    Multiset.sum_coe]
  generalize (l.map Api.Output.spendable).sum = listed at *
  generalize ((t.lockedOf a).map Api.Output.locked).sum = locks at *
  generalize (((m.usedKeyimages.toList.map Prod.fst).filterMap (t.existingUsed a h)).map
    Api.Output.spendable).sum = used at *
  generalize ((recent.toList.filterMap (t.existingUnlocked m h)).map
    Api.Output.spendable).sum = unlocked at *
  generalize ((recent.toList.filterMap (t.existingUnlocked m h)).map
    Api.Output.locked).sum = unlockedOut at *
  generalize ((unconfirmed.filter fun o ↦ decide (m.isMemorySpent o = false)).map
    Api.Output.locked).sum = unconfirmedOut at *
  have hFirst := hUnconfirmed (listed + locks + used + unlocked)
  have hSecond := hRecent (listed + locks + used + unconfirmedOut)
  have hThird := hUsed (listed + locks + unconfirmedOut + unlockedOut)
  have hFourth := hMemory (listed + locks + unconfirmedOut + unlockedOut)
  rw [← hstart] at hFirst
  rw [add_right_comm _ unconfirmedOut] at hSecond
  rw [show listed + locks + unconfirmedOut + unlockedOut + used =
    listed + locks + used + unconfirmedOut + unlockedOut by abel] at hThird
  refine (bind_eq_ok_iff.2 ⟨_, hunconfirmed, bind_eq_ok_iff.2 ⟨_, hFirst, bind_eq_ok_iff.2
    ⟨_, hrecent, bind_eq_ok_iff.2 ⟨_, hSecond, bind_eq_ok_iff.2 ⟨_, hThird, hFourth⟩⟩⟩⟩⟩).trans ?_
  congr 1
  abel

/-- Where balance and lists look up the same outputs, the balance is the sum of the lists, and the
lists together are the outputs that the pool does not spend. -/
theorem Agreeing.lists (hagree : t.Agreeing m a h) (hcons : Consistent c t) {maxAmount : Amount}
    {l k : List Api.Output} {total : Amount}
    (hlist : t.apiAddUnspent m [] 0 a h maxAmount = .ok (true, l, total))
    (hlocked : t.apiGetLockedOrUnconfirmedUnspent m a h = .ok k) :
    (∃ b, t.getBalance m a h = .ok b ∧ b.spendable + b.spendableDust = amountsOf l ∧
      b.lockedOrUnconfirmed = amountsOf k) ∧
    (l + k : Multiset Api.Output) =
      (t.unspentOf a + t.lockedOf a).filter (fun o ↦ m.isMemorySpent o = false) + m.outputs a := by
  obtain ⟨hindexed, hpointed⟩ := hcons
  obtain ⟨recent, hrecent, hlist⟩ := bind_eq_ok_iff.1 hlist
  obtain ⟨confirmed, hconfirmed, hlist⟩ := bind_eq_ok_iff.1 hlist
  obtain ⟨unconfirmed, hunconfirmed, hlocked⟩ := bind_eq_ok_iff.1 hlocked
  obtain ⟨recent', hrecent', hlocked⟩ := bind_eq_ok_iff.1 hlocked
  obtain ⟨byTimestamp, htimestamp, hlocked⟩ := bind_eq_ok_iff.1 hlocked
  obtain ⟨stillLocked, hstill, hlocked⟩ := bind_eq_ok_iff.1 hlocked
  rw [hrecent, Except.ok.injEq] at hrecent'
  subst hrecent'
  have hl := addUnspents_eq (Except.ok.inj hlist)
  have hk := (Except.ok.inj hlocked).symm
  rw [List.nil_append] at hl
  have hstillValues := values_stillLocked htimestamp hstill
  -- the four parts of the unspent outputs
  have hU : (unconfirmed : Multiset Api.Output) = (t.unspentOf a).filter (¬ ·.height ≤ h) := by
    rw [hindexed.forEachInUnspentIndex hunconfirmed]
    refine Multiset.filter_congr fun o _ ↦ ?_
    rw [height_range hagree.height, UInt32.not_le]
  have hL : (l : Multiset Api.Output) = (t.unspentOf a).filter fun o ↦ o.height ≤ h ∧
      m.isMemorySpent o = false ∧ ¬ recent.get (o.amount, o.globalIndex) ≠ none := by
    rw [hl, ← Multiset.filter_coe, hindexed.forEachInUnspentIndex hconfirmed,
      Multiset.filter_filter]
    refine Multiset.filter_congr fun o _ ↦ ?_
    have hfirst : (0xFFFFFFFF : UInt32) + 1 ≤ o.height :=
      UInt32.le_iff_toNat_le.2 (Nat.zero_le _)
    rw [not_not]
    tauto
  have hS := filterMap_existingUsed hagree hindexed hpointed
  have hE := filterMap_existingUnlocked hagree hrecent hindexed
  set S := (m.usedKeyimages.toList.map Prod.fst).filterMap (t.existingUsed a h) with hSdef
  set E := recent.toList.filterMap (t.existingUnlocked m h) with hEdef
  have hparts : t.unspentOf a = (unconfirmed : Multiset Api.Output) + (l + (S + E)) := by
    rw [hU, hL, hS, hE]
    simpa only [Bool.not_eq_false] using eq_filter_parts (t.unspentOf a) (·.height ≤ h)
      (m.isMemorySpent · = false) fun o ↦ recent.get (o.amount, o.globalIndex) ≠ none
  have hunspentLocks : (t.lockedOf a).filter (fun o ↦ m.isMemorySpent o = false) =
      t.lockedOf a := by
    refine Multiset.filter_eq_self.2 fun o ho ↦ ?_
    obtain ⟨hmem, hof⟩ := Multiset.mem_filter.1 ho
    rcases Multiset.mem_add.1 hmem with hmem | hmem
    · obtain ⟨k, hget⟩ := Store.mem_values_iff.1 hmem
      exact hagree.locked true k o hget hof
    · obtain ⟨k, hget⟩ := Store.mem_values_iff.1 hmem
      exact hagree.locked false k o hget hof
  have hlists : (k : Multiset Api.Output) =
      (unconfirmed : Multiset Api.Output).filter (fun o ↦ m.isMemorySpent o = false) + E +
        t.lockedOf a + m.outputs a := by
    rw [hk, filter_listsUnlocked hagree hrecent hindexed, ← hEdef, ← Multiset.coe_add,
      ← Multiset.coe_add, ← Multiset.coe_add, ← Multiset.filter_coe, ← Multiset.filter_coe,
      ← Store.values, hstillValues, hunspentLocks]
  constructor
  · refine ⟨_, getBalance_eq (hindexed.balance a) hunconfirmed hrecent hparts, ?_, ?_⟩
    · change Api.Balance.spendableHom (_ + _) = _
      rw [map_add, (spendableHom_spendable _).1, (lockedHom_locked _).2, add_zero]
    · change Api.Balance.lockedHom (_ + _) = _
      rw [map_add, (spendableHom_spendable _).2, (lockedHom_locked _).1, zero_add, hlists]
  · have hl' : (l : Multiset Api.Output).filter (fun o ↦ m.isMemorySpent o = false) = l :=
      Multiset.filter_eq_self.2 fun o ho ↦ by
        rw [hL] at ho
        exact (Multiset.mem_filter.1 ho).2.2.1
    have hS' : (S : Multiset Api.Output).filter (fun o ↦ m.isMemorySpent o = false) = 0 :=
      Multiset.filter_eq_nil.2 fun o ho ↦ by
        rw [hS] at ho
        rw [(Multiset.mem_filter.1 ho).2.2]
        simp
    have hE' : (E : Multiset Api.Output).filter (fun o ↦ m.isMemorySpent o = false) = E :=
      Multiset.filter_eq_self.2 fun o ho ↦ by
        rw [hE] at ho
        exact (Multiset.mem_filter.1 ho).2.2.1
    rw [hlists, Multiset.filter_add, hunspentLocks, hparts, Multiset.filter_add,
      Multiset.filter_add, Multiset.filter_add, hl', hS', hE']
    abel

end WalletTables

/-! ## Runs -/

namespace WalletRun

variable {wc : WalletCrypto} {c : Currency} {tail : Height} {processed : List ProcessedBlock}
  {s : WalletStateBasic}

/-- In every state of a wallet database under every memory pool that agree on an address and a
height, the balance is the sum of the lists, of which the first is the one that no limit cuts; and
the two lists are the outputs that the pool does not spend, each one once. -/
theorem getBalance_eq_lists (hrun : WalletRun wc c tail processed s) {m : MemoryState} {a : String}
    {h : Height} (hagree : s.tables.Agreeing m a h) {maxAmount : Amount} {l k : List Api.Output}
    {total : Amount}
    (hlist : s.tables.apiAddUnspent m [] 0 a h maxAmount = .ok (true, l, total))
    (hlocked : s.tables.apiGetLockedOrUnconfirmedUnspent m a h = .ok k) :
    (∃ b, s.tables.getBalance m a h = .ok b ∧ b.spendable + b.spendableDust = amountsOf l ∧
      b.lockedOrUnconfirmed = amountsOf k) ∧
    (l + k : Multiset Api.Output) =
      (s.tables.unspentOf a + s.tables.lockedOf a).filter (fun o ↦ m.isMemorySpent o = false) +
        m.outputs a :=
  hagree.lists hrun.consistent hlist hlocked

/-- After a block that pays two addresses, where the pool spends one of the outputs. -/
theorem getBalance_eq_lists_samplePaidBlock : ∃ (s : WalletStateBasic) (m : MemoryState)
    (l k : List Api.Output) (b : Api.Balance), l.map Api.Output.amount = [3] ∧
      m.usedKeyimages.get 705 = some 1 ∧ s.tables.getBalance m "" 0 = .ok b ∧
      b.spendable + b.spendableDust = amountsOf l ∧ b.lockedOrUnconfirmed = amountsOf k := by
  let m : MemoryState := { usedKeyimages := (∅ : Store KeyImage ℕ).put 705 1 }
  have hrun : yields (({} : WalletStateBasic).applyBlocks sampleWalletCrypto mainnet
      [samplePaidBlock]) (fun s ↦
        s.tables.keyImages.table.get 705 = some (0, 5000000, 0) ∧
        (s.tables.unspent.table.get (0, 5000000, 0)).map Api.Output.keyImage = some 705 ∧
        s.tables.unlocked.table.toList = [] ∧ s.tables.lockedByHeight.table.toList = [] ∧
        s.tables.lockedByTimestamp.table.toList = [] ∧
        yields (s.tables.apiAddUnspent m [] 0 "" 0 0xFFFFFFFFFFFFFFFF) (fun r ↦
          r.1 = true ∧ r.2.1.map Api.Output.amount = [3]) ∧
        yields (s.tables.apiGetLockedOrUnconfirmedUnspent m "" 0) fun _ ↦ true) = true := by
    decide +kernel
  obtain ⟨s, happly, htest⟩ := yields_iff.1 hrun
  obtain ⟨hpointer, hunspent, hunlocked, hbyHeight, hbyTimestamp, hlist, hlocked⟩ :=
    of_decide_eq_true htest
  obtain ⟨⟨all, l, total⟩, hlist, hl⟩ := yields_iff.1 hlist
  obtain ⟨rfl, hamounts⟩ := of_decide_eq_true hl
  obtain ⟨k, hlocked, -⟩ := yields_iff.1 hlocked
  have hnone : ∀ k, s.tables.unlocked.table.get k = none := by
    intro k
    by_contra hne
    obtain ⟨o, ho⟩ := Option.ne_none_iff_exists'.1 hne
    have hmem := Store.mem_toList_iff.2 ho
    rw [hunlocked] at hmem
    cases hmem
  have hagree : s.tables.Agreeing m "" 0 := by
    refine ⟨by decide, by decide, fun ki k o hused hki hget ↦ ?_, fun realHe lou o hget ↦ ?_,
      fun realHe amount index lou _ hget ↦ ?_, fun byHeight k o hget ↦ ?_⟩
    · rw [Store.get_put, Store.get_empty] at hused
      split at hused
      · next heq =>
        subst heq
        rw [hpointer, Option.some.injEq] at hki
        subst hki
        rw [hget] at hunspent
        exact Option.some.inj hunspent
      · exact absurd rfl hused
    · rw [hnone] at hget
      cases hget
    · rw [hnone] at hget
      cases hget
    · have hmem := Store.mem_toList_iff.2 hget
      cases byHeight
      · rw [WalletTables.locksBy, if_neg (by simp), hbyTimestamp] at hmem
        cases hmem
      · rw [WalletTables.locksBy, if_pos rfl, hbyHeight] at hmem
        cases hmem
  obtain ⟨s₁, hblock, hnil⟩ := WalletStateBasic.applyBlocks_cons.1 happly
  obtain rfl := Except.ok.inj hnil
  obtain ⟨⟨b, hb, hspendable, hlockedSum⟩, -⟩ :=
    getBalance_eq_lists (.apply samplePaidBlock .start hblock) hagree hlist hlocked
  exact ⟨s₁, m, l, k, b, hamounts, rfl, hb, hspendable, hlockedSum⟩

/-- A block that pays an output and another one of the same key image, locked for one block. -/
def sampleReplacedBlock : ProcessedBlock :=
  sampleWalletBlock { hash := 10, timestamp := 100, timestampMedian := 100 }
    (samplePayment 7 0 [] [(1000000, 5)]) [samplePayment 7 1 [] [(5000000, 5)]] [[0], [0]]

/-- The block in which the locked output replaces the other. -/
def sampleUnlockingBlock : ProcessedBlock :=
  sampleWalletBlock { hash := 11, timestamp := 200, timestampMedian := 200 }
    (samplePayment 8 0 [] []) [] [[]]

/-- The balance looks the recently unlocked output up under its full amount, the list under the
amount it added. -/
theorem not_getBalance_eq_lists : ¬ ∀ (tail : Height) (processed : List ProcessedBlock)
    (s : WalletStateBasic) (m : MemoryState) (a : String) (h : Height) (l k : List Api.Output)
    (total : Amount) (b : Api.Balance),
    WalletRun sampleWalletCrypto mainnet tail processed s →
    s.tables.apiAddUnspent m [] 0 a h 0xFFFFFFFFFFFFFFFF = .ok (true, l, total) →
    s.tables.apiGetLockedOrUnconfirmedUnspent m a h = .ok k →
    s.tables.getBalance m a h = .ok b →
    b.spendable + b.spendableDust = amountsOf l ∧ b.lockedOrUnconfirmed = amountsOf k := by
  intro hall
  have hrun : yields (({} : WalletStateBasic).applyBlocks sampleWalletCrypto mainnet
      [sampleReplacedBlock, sampleUnlockingBlock]) (fun s ↦
        yields (s.tables.apiAddUnspent {} [] 0 "A" 0 0xFFFFFFFFFFFFFFFF) (fun r ↦ r.1 = true) ∧
        yields (s.tables.apiGetLockedOrUnconfirmedUnspent {} "A" 0) (fun k ↦ k.length = 0) ∧
        yields (s.tables.getBalance {} "A" 0) fun b ↦ b.lockedOrUnconfirmed = 5000000) = true := by
    decide +kernel
  obtain ⟨s, happly, htest⟩ := yields_iff.1 hrun
  obtain ⟨hlist, hlocked, hbalance⟩ := of_decide_eq_true htest
  obtain ⟨⟨all, l, total⟩, hlist, hl⟩ := yields_iff.1 hlist
  obtain rfl := of_decide_eq_true hl
  obtain ⟨k, hlocked, hk⟩ := yields_iff.1 hlocked
  obtain ⟨b, hbalance, hb⟩ := yields_iff.1 hbalance
  obtain rfl := List.length_eq_zero_iff.1 (of_decide_eq_true hk)
  obtain ⟨s₁, hblock, hrest⟩ := WalletStateBasic.applyBlocks_cons.1 happly
  obtain ⟨s₂, hblock', hnil⟩ := WalletStateBasic.applyBlocks_cons.1 hrest
  obtain rfl := Except.ok.inj hnil
  have hsum := (hall _ _ s₂ {} "A" 0 l [] total b
    (.apply sampleUnlockingBlock (.apply sampleReplacedBlock .start hblock) hblock') hlist hlocked
    hbalance).2
  rw [of_decide_eq_true hb] at hsum
  exact absurd hsum (by decide)

end WalletRun

end Naza
