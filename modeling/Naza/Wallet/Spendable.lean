import Naza.Wallet.Agreement
import Naza.Wallet.Selection

/-!
# What is shown as spendable

An unspent output that was locked until a height was unlocked at that height or above it, so the
coin selector never finds it locked.  The selector leaves out outputs received at the confirmed
height itself, which the list has, and checks locks by time again, with another clock.
-/

open Lib

namespace Naza

/-! ## The candidates of the selector -/

namespace Picking

variable {s : Picking} {un : Api.Output}

theorem held_fileCoin : (s.fileCoin un).held = un ::ₘ s.held := by
  have hcontents : HaveCoins.contents (s.fileCoin un).haveCoins =
      un ::ₘ HaveCoins.contents s.haveCoins := HaveCoins.contents_push
  rw [held, hcontents, Multiset.cons_add]
  rfl

theorem held_fileDust : (s.fileDust un).held = un ::ₘ s.held := by
  have hcontents : Stacks.contents (s.fileDust un).dustCoins =
      un ::ₘ Stacks.contents s.dustCoins := Stacks.contents_push
  rw [held, hcontents, Multiset.add_cons]
  rfl

end Picking

section CreateHaveCoins

variable (c : Currency) (blockHeight : Height) (blockTime : Timestamp) (confirmedHeight : Height)

theorem held_fileUnspent (coins : ℕ × Picking) (un : Api.Output) :
    (fileUnspent c blockHeight blockTime confirmedHeight coins un).2.held =
      coins.2.held + keptCoins c blockHeight blockTime confirmedHeight [un] := by
  rw [fileUnspent]
  by_cases hkept : ¬ confirmedHeight ≤ un.height ∧
      c.isTransactionSpendTimeUnlocked un.unlockTime blockHeight blockTime = true
  · have hone : keptCoins c blockHeight blockTime confirmedHeight [un] = [un] :=
      List.filter_cons_of_pos (by simp [hkept.2, UInt32.not_le.1 hkept.1])
    rw [if_neg hkept.1, if_neg (by simp [hkept.2]), hone, Multiset.coe_singleton, add_comm,
      Multiset.singleton_add]
    split
    · exact Picking.held_fileDust
    · exact Picking.held_fileCoin
  · have hnone : keptCoins c blockHeight blockTime confirmedHeight [un] = [] := by
      apply List.filter_cons_of_neg
      simpa using hkept
    rw [hnone, Multiset.coe_nil, add_zero]
    by_cases hheight : confirmedHeight ≤ un.height
    · rw [if_pos hheight]
    · rw [if_neg hheight, if_pos (by simpa [hheight] using hkept)]

/-- The candidates are the outputs kept, whatever their dust flags say. -/
theorem held_createHaveCoins (unspents : List Api.Output) :
    (createHaveCoins c blockHeight blockTime confirmedHeight unspents).2.held =
      (keptCoins c blockHeight blockTime confirmedHeight unspents : Multiset Api.Output) := by
  have hfold : ∀ (l : List Api.Output) (coins : ℕ × Picking),
      (l.foldl (fileUnspent c blockHeight blockTime confirmedHeight) coins).2.held =
        coins.2.held + keptCoins c blockHeight blockTime confirmedHeight l := by
    intro l
    induction l with
    | nil => exact fun coins ↦ (add_zero _).symm
    | cons un l ih =>
      intro coins
      rw [List.foldl_cons, ih, held_fileUnspent,
        keptCoins_cons c blockHeight blockTime confirmedHeight un l, add_assoc]
  rw [createHaveCoins, hfold, show ((0, {}) : ℕ × Picking).2.held = 0 from
    Picking.filed_of_empty.2, zero_add, keptCoins, List.filter_reverse]
  exact Multiset.coe_reverse _

end CreateHaveCoins

/-! ## Unspent outputs were unlocked in time -/

namespace WalletTables

variable {c : Currency} {t t' : WalletTables} {o o' : Api.Output} {k : HeightAmounGi}

theorem unspent_modifyBalance {lockedOp spendableOp : Int}
    (hok : t.modifyBalance o lockedOp spendableOp = .ok t') : t'.unspent = t.unspent := by
  obtain ⟨_, -, hok⟩ := bind_eq_ok_iff.1 hok
  obtain ⟨_, -, hok⟩ := bind_eq_ok_iff.1 hok
  cases hok
  rfl

theorem unspent_addToUnspentIndex (hok : t.addToUnspentIndex o = .ok t') :
    t'.unspent.table = t.unspent.table.put o.heightAmounGi o := by
  obtain ⟨t₁, hmodify, hok⟩ := bind_eq_ok_iff.1 hok
  obtain ⟨unspent, hunspent, hok⟩ := bind_eq_ok_iff.1 hok
  obtain ⟨_, -, hok⟩ := bind_eq_ok_iff.1 hok
  cases hok
  obtain ⟨-, rfl⟩ := LoggedTable.putNew_eq_ok_iff.1 (walletWrite_eq_ok_iff.1 hunspent)
  rw [LoggedTable.table_put, unspent_modifyBalance hmodify]

theorem unspent_removeFromUnspentIndex (hok : t.removeFromUnspentIndex o = .ok t') :
    t'.unspent.table = t.unspent.table.remove o.heightAmounGi := by
  obtain ⟨t₁, hmodify, hok⟩ := bind_eq_ok_iff.1 hok
  obtain ⟨unspent, hunspent, hok⟩ := bind_eq_ok_iff.1 hok
  obtain ⟨_, -, hok⟩ := bind_eq_ok_iff.1 hok
  cases hok
  obtain ⟨-, rfl⟩ := LoggedTable.removeExisting_eq_ok_iff.1 (walletWrite_eq_ok_iff.1 hunspent)
  rw [LoggedTable.table_remove, unspent_modifyBalance hmodify]

theorem unspent_updateKeyimage {ki : KeyImage} {value : HeightAmounGi} {nooverwrite : Bool}
    (hok : t.updateKeyimage ki value nooverwrite = .ok t') : t'.unspent = t.unspent := by
  rw [updateKeyimage] at hok
  split at hok
  · cases hok
    rfl
  · split at hok
    · obtain ⟨_, -, hok⟩ := bind_eq_ok_iff.1 hok
      cases hok
      rfl
    · cases hok
      rfl

theorem unspent_addToLockIndex (hok : t.addToLockIndex c o = .ok t') :
    t'.unspent = t.unspent := by
  obtain ⟨t₁, hmodify, hok⟩ := bind_eq_ok_iff.1 hok
  obtain ⟨_, -, hok⟩ := bind_eq_ok_iff.1 hok
  dsimp only at hok
  split at hok
  · obtain ⟨_, -, hok⟩ := bind_eq_ok_iff.1 hok
    cases hok
    rw [unspent_withLockIndex, unspent_modifyBalance hmodify]
  · cases hok
    rw [unspent_withLockIndex, unspent_modifyBalance hmodify]

theorem unspent_removeFromLockIndex (hok : t.removeFromLockIndex c o = .ok t') :
    t'.unspent = t.unspent := by
  obtain ⟨t₁, hmodify, hok⟩ := bind_eq_ok_iff.1 hok
  obtain ⟨_, -, hok⟩ := bind_eq_ok_iff.1 hok
  dsimp only at hok
  split at hok
  · obtain ⟨_, -, hok⟩ := bind_eq_ok_iff.1 hok
    cases hok
    rw [unspent_withLockIndex, unspent_modifyBalance hmodify]
  · cases hok
    rw [unspent_withLockIndex, unspent_modifyBalance hmodify]

/-- The only output that receiving one makes unspent is that one, and not while it is locked. -/
theorem unspent_addIncomingOutput {justUnlocked : Bool} {r : Amount × WalletTables}
    (hok : t.addIncomingOutput c o justUnlocked = .ok r)
    (hget : r.2.unspent.table.get k = some o') :
    t.unspent.table.get k = some o' ∨ o' = o ∧ (o.unlockTime = 0 ∨ justUnlocked = true) := by
  rw [addIncomingOutput] at hok
  split at hok
  · cases hok
    exact Or.inl hget
  · split at hok
    · obtain ⟨t₁, hlock, hok⟩ := bind_eq_ok_iff.1 hok
      cases hok
      rw [unspent_addToLockIndex hlock] at hget
      exact Or.inl hget
    · next hfree =>
      have hunlocked : o.unlockTime = 0 ∨ justUnlocked = true := by
        by_contra hnot
        rw [not_or, Bool.not_eq_true] at hnot
        exact hfree hnot
      split at hok
      · split at hok
        · cases hok
          exact Or.inl hget
        · obtain ⟨t₁, hremove, hok⟩ := bind_eq_ok_iff.1 hok
          obtain ⟨t₂, hadd, hok⟩ := bind_eq_ok_iff.1 hok
          obtain ⟨t₃, hupdate, hok⟩ := bind_eq_ok_iff.1 hok
          cases hok
          rw [unspent_updateKeyimage hupdate, unspent_addToUnspentIndex hadd,
            unspent_removeFromUnspentIndex hremove, Store.get_put] at hget
          split at hget
          · exact Or.inr ⟨(Option.some.inj hget).symm, hunlocked⟩
          · rw [Store.get_remove] at hget
            split at hget
            · cases hget
            · exact Or.inl hget
      · obtain ⟨t₁, hadd, hok⟩ := bind_eq_ok_iff.1 hok
        obtain ⟨t₂, hupdate, hok⟩ := bind_eq_ok_iff.1 hok
        cases hok
        rw [unspent_updateKeyimage hupdate, unspent_addToUnspentIndex hadd, Store.get_put] at hget
        split at hget
        · exact Or.inr ⟨(Option.some.inj hget).symm, hunlocked⟩
        · exact Or.inl hget

theorem unspent_unlockOutput {nowHeight : Height} (hok : t.unlockOutput c nowHeight o = .ok t')
    (hget : t'.unspent.table.get k = some o') : t.unspent.table.get k = some o' ∨ o' = o := by
  obtain ⟨t₁, hremove, hok⟩ := bind_eq_ok_iff.1 hok
  obtain ⟨r, hadd, hok⟩ := bind_eq_ok_iff.1 hok
  obtain ⟨_, -, hok⟩ := bind_eq_ok_iff.1 hok
  cases hok
  rcases unspent_addIncomingOutput hadd hget with hold | ⟨heq, -⟩
  · rw [unspent_removeFromLockIndex hremove] at hold
    exact Or.inl hold
  · exact Or.inr heq

theorem unspent_unlockOutputs {nowHeight : Height} {outputs : List Api.Output} :
    ∀ {t : WalletTables}, outputs.foldlM (fun t o ↦ t.unlockOutput c nowHeight o) t = .ok t' →
      t'.unspent.table.get k = some o' → t.unspent.table.get k = some o' ∨ o' ∈ outputs := by
  induction outputs with
  | nil =>
    intro t hok hget
    cases hok
    exact Or.inl hget
  | cons o outputs ih =>
    intro t hok hget
    rw [List.foldlM_cons] at hok
    obtain ⟨t₁, hunlock, hok⟩ := bind_eq_ok_iff.1 hok
    rcases ih hok hget with hold | hmem
    · rcases unspent_unlockOutput hunlock hold with hold | rfl
      · exact Or.inl hold
      · exact Or.inr List.mem_cons_self
    · exact Or.inr (List.mem_cons_of_mem _ hmem)

/-- What a key image unlocks before its time it spends at once. -/
theorem Consistent.unspent_addIncomingKeyimage (h : Consistent c t) {height : Height}
    {ki : KeyImage} {r : Amount × WalletTables} (hok : t.addIncomingKeyimage c height ki = .ok r)
    (hget : r.2.unspent.table.get k = some o') : t.unspent.table.get k = some o' := by
  obtain ⟨outputs, hfound, hok⟩ := bind_eq_ok_iff.1 hok
  obtain ⟨t₁, hunlock, hok⟩ := bind_eq_ok_iff.1 hok
  obtain ⟨hlocked, hnodup⟩ := (h.indexed.lockedWithKeyimage ki).of_ok hfound
  have h₁ : Consistent c t₁ :=
    (h.unlockOutputs height (fun o ho ↦ (hlocked o ho).1) hnodup).of_ok hunlock
  have hnonzero : ∀ o ∈ outputs, ki ≠ 0 := by
    intro o ho
    rintro rfl
    have hentry : ∀ e ∈ t.lockedByKeyImage.table.toList, e.1.1 ≠ 0 := by
      rintro ⟨⟨ki, amount, index⟩, unlockTime⟩ he
      exact ((h.indexed.lockedByKeyImage ki amount index unlockTime).1
        (Store.mem_toList_iff.1 he)).1
    rw [lockedWithKeyimage, List.filter_eq_nil_iff.2 (by simpa using hentry)] at hfound
    cases hfound
    cases ho
  -- an output that was only unlocked is the one that the key image points to
  have hspent : ∀ k, t₁.unspent.table.get k = some o' → t.unspent.table.get k = some o' ∨
      t₁.readByKeyimage ki = some k := by
    intro k hk
    rcases unspent_unlockOutputs hunlock hk with hold | hmem
    · exact Or.inl hold
    · have hki := (hlocked o' hmem).2
      refine Or.inr ?_
      rw [readByKeyimage, ← hki]
      exact h₁.pointedTo.keyImage k o' hk (hki ▸ hnonzero o' hmem)
  split at hok
  · next existing hexisting =>
    obtain ⟨t₂, hremove, hok⟩ := bind_eq_ok_iff.1 hok
    cases hok
    rw [unspent_removeFromUnspentIndex hremove, Store.get_remove] at hget
    split at hget
    · cases hget
    · next hother =>
      rcases hspent k hget with hold | hpoints
      · exact hold
      · obtain ⟨k', hk', hread⟩ := Option.bind_eq_some_iff.1 hexisting
        rw [hpoints, Option.some.injEq] at hk'
        subst hk'
        exact absurd (h₁.indexed.unspent _ _ hread) hother
  · next hnone =>
    cases hok
    rcases hspent k hget with hold | hpoints
    · exact hold
    · rw [hpoints, Option.bind_some, readFromUnspentIndex, hget] at hnone
      cases hnone

theorem toNat_clampUnlockTime {unlockTime : UnlockMoment}
    (hblock : isTransactionSpendTimeBlock c unlockTime = true) :
    (clampUnlockTime unlockTime).toNat = unlockTime.toNat := by
  have hlt : unlockTime.toNat < c.maxBlockHeight.toNat :=
    UInt64.lt_iff_toNat_lt.1 (of_decide_eq_true hblock)
  have hmax := c.maxBlockHeight.toNat_lt
  have hle : unlockTime ≤ 0xFFFFFFFF := by
    rw [UInt64.le_iff_toNat_le]
    simp only [UInt64.reduceToNat]
    omega
  rw [clampUnlockTime, show min unlockTime 0xFFFFFFFF = unlockTime from if_pos hle,
    UInt64.toNat_toUInt32]
  exact Nat.mod_eq_of_lt (by omega)

/-- What the end of a block unlocks was locked by time, or until a height that has come. -/
theorem Indexed.unspent_unlock (h : Indexed c t) {nowHeight : Height} {now : Timestamp}
    (hok : t.unlock c nowHeight now = .ok t') (hget : t'.unspent.table.get k = some o') :
    t.unspent.table.get k = some o' ∨ isTransactionSpendTimeBlock c o'.unlockTime = false ∨
      o'.unlockTime.toNat ≤ nowHeight.toNat := by
  obtain ⟨byHeight, hbyHeight, hok⟩ := bind_eq_ok_iff.1 hok
  obtain ⟨toUnlock, htoUnlock, hok⟩ := bind_eq_ok_iff.1 hok
  have hfold : (toUnlock.toList.map Prod.snd).foldlM
      (fun t o ↦ t.unlockOutput c nowHeight o) t = .ok t' := by
    rw [List.foldlM_map]
    exact hok
  rcases unspent_unlockOutputs hfold hget with hold | hmem
  · exact Or.inl hold
  right
  obtain ⟨e, he, rfl⟩ := List.mem_map.1 hmem
  have hentry := ((readUnlockIndex_spec htoUnlock (by simp)).2 e.1 e.2).1
    (Store.mem_toList_iff.1 he)
  rcases hentry with hentry | ⟨e', he', -, -, heq, -⟩
  · have hentry' := ((readUnlockIndex_spec hbyHeight (by simp)).2 e.1 e.2).1 hentry
    rcases hentry' with hnone | ⟨e', he', hrange, -, heq, -⟩
    · rw [Store.get_empty] at hnone
      cases hnone
    · right
      obtain ⟨hkey, hblock⟩ := h.locked true e'.1 e'.2 (Store.mem_toList_iff.1 he')
      rw [← heq, ← toNat_clampUnlockTime hblock]
      have hclamp : clampUnlockTime e'.2.unlockTime = e'.1.1 := congrArg Prod.fst hkey
      rw [hclamp]
      exact UInt32.le_iff_toNat_le.1 hrange.2
  · left
    obtain ⟨-, hblock⟩ := h.locked false e'.1 e'.2 (Store.mem_toList_iff.1 he')
    rw [← heq]
    exact hblock

theorem unspent_addTransaction {height : Height} {tid : Hash} {tx : TransactionPrefix}
    {ptx : Api.Transaction} (hok : t.addTransaction height tid tx ptx = .ok t') :
    t'.unspent = t.unspent := by
  obtain ⟨_, -, hok⟩ := bind_eq_ok_iff.1 hok
  obtain ⟨_, -, hok⟩ := bind_eq_ok_iff.1 hok
  cases hok
  rfl

/-- Unspent outputs that were locked until a height were locked until one up to `height`. -/
def UnlockedBy (c : Currency) (height : ℕ) (t : WalletTables) : Prop :=
  ∀ k o, t.unspent.table.get k = some o → isTransactionSpendTimeBlock c o.unlockTime = true →
    o.unlockTime.toNat ≤ height

theorem unlockedBy_keptAt (wc : WalletCrypto) (c : Currency) {height : Height} {bound : ℕ}
    (hbound : height.toNat ≤ bound) : KeptAt wc c height (· = .underflow)
      fun t ↦ Consistent c t ∧ t.UnlockedBy c bound where
  exception := by simp
  addIncomingOutput o t _ h := by
    apply ((h.1.addIncomingOutput o false).mono fun _ hr ↦ hr.1).and_of_ok
    intro r hok k o' hget hblock
    rcases unspent_addIncomingOutput hok hget with hold | ⟨rfl, hzero | hfalse⟩
    · exact h.2 k o' hold hblock
    · rw [hzero]
      exact Nat.zero_le _
    · cases hfalse
  addIncomingKeyimage ki t h := by
    apply (h.1.addIncomingKeyimage height ki).and_of_ok
    intro r hok k o' hget
    exact h.2 k o' (h.1.unspent_addIncomingKeyimage hok hget)
  unlock now t h := by
    apply (h.1.unlock height now).and_of_ok
    intro t' hok k o' hget hblock
    rcases h.1.indexed.unspent_unlock hok hget with hold | hfalse | hle
    · exact h.2 k o' hold hblock
    · rw [hblock] at hfalse
      cases hfalse
    · exact hle.trans hbound
  addTransaction tid tx ptx t h := by
    apply (h.1.addTransaction height tid tx ptx).and_of_ok
    intro t' hok k o' hget
    rw [unspent_addTransaction hok] at hget
    exact h.2 k o' hget

/-- An output with that amount and global index was unlocked for the address above the height. -/
def RecentlyUnlocked (a : String) (h : Height) (t : WalletTables) (o : Api.Output) : Prop :=
  ∃ realHe lou, h + 1 ≤ realHe ∧ t.unlocked.table.get (realHe, o.amount, o.globalIndex) = some lou ∧
    lou.OfAddress a ∧ lou.globalIndex = o.globalIndex

/-- The outputs listed, where no limit cuts the list. -/
theorem Consistent.mem_apiAddUnspent (h : Consistent c t) {m : MemoryState} {a : String}
    {height : Height} {maxAmount : Amount} {l : List Api.Output} {total : Amount}
    (hlist : t.apiAddUnspent m [] 0 a height maxAmount = .ok (true, l, total)) (o : Api.Output) :
    o ∈ l ↔ o ∈ t.unspentOf a ∧ o.height ≤ height ∧ m.isMemorySpent o = false ∧
      ¬ t.RecentlyUnlocked a height o := by
  obtain ⟨recent, hrecent, hlist⟩ := bind_eq_ok_iff.1 hlist
  obtain ⟨confirmed, hconfirmed, hlist⟩ := bind_eq_ok_iff.1 hlist
  have hconfirmed' : o ∈ confirmed ↔ o ∈ t.unspentOf a ∧ o.height ≤ height := by
    rw [← Multiset.mem_coe, h.indexed.forEachInUnspentIndex hconfirmed, Multiset.mem_filter]
    have hfirst : (0xFFFFFFFF : UInt32) + 1 ≤ o.height :=
      UInt32.le_iff_toNat_le.2 (Nat.zero_le _)
    tauto
  have hrecent' : recent.get (o.amount, o.globalIndex) = none ↔
      ¬ t.RecentlyUnlocked a height o := by
    have hiff : recent.get (o.amount, o.globalIndex) ≠ none ↔ t.RecentlyUnlocked a height o := by
      rw [Option.ne_none_iff_exists']
      simp only [apiGetUnlockedOutputs_iff hrecent, RecentlyUnlocked]
      exact exists_comm
    rw [← hiff, not_not]
  rw [addUnspents_eq (Except.ok.inj hlist), List.nil_append, List.mem_filter, decide_eq_true_iff,
    hconfirmed', hrecent', and_assoc]

end WalletTables

/-! ## Runs -/

namespace WalletStateBasic

variable {wc : WalletCrypto} {c : Currency}

/-- Blocks unlock up to the height they end at. -/
theorem applyBlocks_unlockedBy {s' : WalletStateBasic} {blocks : List ProcessedBlock} :
    ∀ {s : WalletStateBasic} {n : ℕ}, s.tipHeight + 1 = UInt32.ofNat n →
      n + blocks.length ≤ 2 ^ 32 → s.tables.Consistent c ∧ s.tables.UnlockedBy c (n - 1) →
      s.applyBlocks wc c blocks = .ok s' →
      s'.tipHeight + 1 = UInt32.ofNat (n + blocks.length) ∧
        s'.tables.UnlockedBy c (n + blocks.length - 1) := by
  induction blocks with
  | nil =>
    intro s n htip _ h hok
    cases hok
    exact ⟨htip, h.2⟩
  | cons b blocks ih =>
    intro s n htip hroom h hok
    obtain ⟨s₁, hblock, hrest⟩ := applyBlocks_cons.1 hok
    rw [List.length_cons] at hroom ⊢
    have hheight : (s.tipHeight + 1).toNat ≤ n + 1 - 1 := by
      rw [htip, UInt32.toNat_ofNat']
      exact Nat.mod_le _ _
    have hweaker : s.tables.UnlockedBy c (n + 1 - 1) :=
      fun k o hget hlocked ↦ (h.2 k o hget hlocked).trans (by omega)
    have hstep := (applyBlock_ends (WalletTables.unlockedBy_keptAt wc c hheight)
      (fun t ht ↦ ⟨ht.1.settle, ht.2⟩) ⟨h.1, hweaker⟩ b).of_ok hblock
    have htip₁ : s₁.tipHeight + 1 = UInt32.ofNat (n + 1) := by
      rw [hstep.2, htip, UInt32.ofNat_add]
      rfl
    have hfinal := ih htip₁ (by omega) hstep.1 hrest
    rw [show n + (blocks.length + 1) = n + 1 + blocks.length by omega]
    exact hfinal

end WalletStateBasic

namespace WalletRun

variable {wc : WalletCrypto} {c : Currency} {tail : Height} {processed : List ProcessedBlock}
  {s : WalletStateBasic}

/-- An unspent output that was locked until a height is spendable at the tip, as long as heights do
not run out. -/
theorem unlocked_at_tip (hrun : WalletRun wc c tail processed s)
    (hroom : tail.toNat + processed.length + c.lockedTxAllowedDeltaBlocks.toNat ≤ 2 ^ 32)
    {k : HeightAmounGi} {o : Api.Output} (hget : s.tables.unspent.table.get k = some o)
    (hblock : WalletTables.isTransactionSpendTimeBlock c o.unlockTime = true) :
    c.isTransactionSpendTimeUnlocked o.unlockTime s.tipHeight s.tip.timestamp = true := by
  have hstart : (WalletStateBasic.withTail tail).tipHeight + 1 = UInt32.ofNat tail.toNat := by
    rw [UInt32.ofNat_toNat]
    exact UInt32.sub_add_cancel tail 1
  have hempty : (WalletStateBasic.withTail tail).tables.UnlockedBy c (tail.toNat - 1) := by
    intro k o hget
    cases hget
  obtain ⟨htip, hunlocked⟩ := WalletStateBasic.applyBlocks_unlockedBy hstart
    (by rw [List.length_reverse]; omega) ⟨WalletTables.consistent_empty c, hempty⟩
    hrun.applyBlocks_eq
  rw [List.length_reverse] at htip hunlocked
  have hle := hunlocked k o hget hblock
  have hsum := congrArg UInt32.toNat htip
  rw [UInt32.toNat_add, UInt32.toNat_ofNat'] at hsum
  simp only [UInt32.reduceToNat] at hsum
  have htipLt := s.tipHeight.toNat_lt
  rw [Currency.isTransactionSpendTimeUnlocked, if_pos (of_decide_eq_true hblock),
    decide_eq_true_iff, UInt64.le_iff_toNat_le, UInt32.toNat_toUInt64, UInt32.toNat_add]
  omega

/-- The candidates of the selector are the outputs listed exactly where no output that is listed
was received at the confirmed height itself, and those that were locked by time, or at all on a
chain near the last height, are unlocked by the clock of the selector; and what is listed is what
the balance counts as spendable. -/
theorem candidates_eq_list_iff (hrun : WalletRun wc c tail processed s) {m : MemoryState}
    {a : String} {h : Height} {maxAmount : Amount} {l : List Api.Output} {total : Amount}
    (hlist : s.tables.apiAddUnspent m [] 0 a h maxAmount = .ok (true, l, total)) :
    ((createHaveCoins c s.tipHeight s.tip.timestamp h l).2.held = (l : Multiset Api.Output) ↔
      ∀ o ∈ s.tables.unspentOf a, o.height ≤ h → m.isMemorySpent o = false →
        ¬ s.tables.RecentlyUnlocked a h o → o.height ≠ h ∧
          (WalletTables.isTransactionSpendTimeBlock c o.unlockTime = false ∨
              2 ^ 32 < tail.toNat + processed.length + c.lockedTxAllowedDeltaBlocks.toNat →
            c.isTransactionSpendTimeUnlocked o.unlockTime s.tipHeight s.tip.timestamp = true)) ∧
      ∀ k, s.tables.Agreeing m a h → s.tables.apiGetLockedOrUnconfirmedUnspent m a h = .ok k →
        ∃ b, s.tables.getBalance m a h = .ok b ∧
          b.spendable + b.spendableDust = amountsOf l := by
  have hcons := hrun.consistent
  refine ⟨?_, fun k hagree hlocked ↦ ?_⟩
  swap
  · obtain ⟨⟨b, hb, hspendable, -⟩, -⟩ := hagree.lists hcons hlist hlocked
    exact ⟨b, hb, hspendable⟩
  have hmem := hcons.mem_apiAddUnspent hlist
  have hall : ((keptCoins c s.tipHeight s.tip.timestamp h l : List Api.Output) :
      Multiset Api.Output) = l ↔ ∀ o ∈ l, o.height < h ∧
        c.isTransactionSpendTimeUnlocked o.unlockTime s.tipHeight s.tip.timestamp = true := by
    have hbool : (∀ o ∈ l, o.height < h ∧
        c.isTransactionSpendTimeUnlocked o.unlockTime s.tipHeight s.tip.timestamp = true) ↔
        ∀ o ∈ l, (decide (o.height < h) &&
          c.isTransactionSpendTimeUnlocked o.unlockTime s.tipHeight s.tip.timestamp) = true := by
      simp only [Bool.and_eq_true, decide_eq_true_eq]
    rw [hbool]
    constructor
    · intro heq
      exact List.filter_eq_self.1
        (List.filter_sublist.eq_of_length (Multiset.coe_eq_coe.1 heq).length_eq)
    · intro hkept
      exact congrArg _ (List.filter_eq_self.2 hkept)
  rw [held_createHaveCoins, hall]
  constructor
  · intro hkept o ho hle hspent hrecent
    have ho' := hkept o ((hmem o).2 ⟨ho, hle, hspent, hrecent⟩)
    exact ⟨UInt32.ne_of_lt ho'.1, fun _ ↦ ho'.2⟩
  · intro hcond o ho
    obtain ⟨hof, hle, hspent, hrecent⟩ := (hmem o).1 ho
    obtain ⟨hne, hunlocked⟩ := hcond o hof hle hspent hrecent
    refine ⟨UInt32.lt_of_le_of_ne hle hne, ?_⟩
    by_cases hroom : 2 ^ 32 < tail.toNat + processed.length + c.lockedTxAllowedDeltaBlocks.toNat
    · exact hunlocked (Or.inr hroom)
    cases hblock : WalletTables.isTransactionSpendTimeBlock c o.unlockTime with
    | false => exact hunlocked (Or.inl hblock)
    | true =>
      have hget := (hcons.indexed.mem_unspentOf.1 hof).1
      exact hrun.unlocked_at_tip (not_lt.1 hroom) hget hblock

/-- With a block on top of the one that was paid in, both outputs can be spent. -/
theorem candidates_eq_list_iff_samplePaidBlock : ∃ (s : WalletStateBasic) (l : List Api.Output),
    l.map Api.Output.amount = [3, 5000000] ∧ s.tipHeight = 1 ∧
      (createHaveCoins mainnet s.tipHeight s.tip.timestamp 1 l).2.held =
        (l : Multiset Api.Output) := by
  have hrun : yields (({} : WalletStateBasic).applyBlocks sampleWalletCrypto mainnet
      [samplePaidBlock, sampleUnlockingBlock]) (fun s ↦ s.tipHeight = 1 ∧
        (∀ e ∈ s.tables.unspent.table.toList, e.2.height ≠ 1 ∧
          mainnet.isTransactionSpendTimeUnlocked e.2.unlockTime s.tipHeight s.tip.timestamp) ∧
        yields (s.tables.apiAddUnspent {} [] 0 "" 1 0xFFFFFFFFFFFFFFFF) fun r ↦
          r.1 = true ∧ r.2.1.map Api.Output.amount = [3, 5000000]) = true := by
    decide +kernel
  obtain ⟨s, happly, htest⟩ := yields_iff.1 hrun
  obtain ⟨htip, hunspent, hlist⟩ := of_decide_eq_true htest
  obtain ⟨⟨all, l, total⟩, hlist, hl⟩ := yields_iff.1 hlist
  obtain ⟨rfl, hamounts⟩ := of_decide_eq_true hl
  obtain ⟨s₁, hblock, hrest⟩ := WalletStateBasic.applyBlocks_cons.1 happly
  obtain ⟨s₂, hblock', hnil⟩ := WalletStateBasic.applyBlocks_cons.1 hrest
  obtain rfl := Except.ok.inj hnil
  have hrun₂ : WalletRun sampleWalletCrypto mainnet 0 [sampleUnlockingBlock, samplePaidBlock] s₂ :=
    .apply sampleUnlockingBlock (.apply samplePaidBlock .start hblock) hblock'
  refine ⟨s₂, l, hamounts, htip, (candidates_eq_list_iff hrun₂ hlist).1.2 fun o ho _ _ _ ↦ ?_⟩
  have hget := (hrun₂.consistent.indexed.mem_unspentOf.1 ho).1
  have ho' := hunspent _ (Store.mem_toList_iff.2 hget)
  exact ⟨ho'.1, fun _ ↦ ho'.2⟩

/-- At the height of the block that was paid in, the list has its outputs and the selector does
not. -/
theorem not_candidates_eq_list : ¬ ∀ (tail : Height) (processed : List ProcessedBlock)
    (s : WalletStateBasic) (m : MemoryState) (a : String) (h : Height) (l : List Api.Output)
    (total : Amount), WalletRun sampleWalletCrypto mainnet tail processed s → h ≤ s.tipHeight →
    s.tables.apiAddUnspent m [] 0 a h 0xFFFFFFFFFFFFFFFF = .ok (true, l, total) →
    (createHaveCoins mainnet s.tipHeight s.tip.timestamp h l).2.held =
      (l : Multiset Api.Output) := by
  intro hall
  have hrun : yields (({} : WalletStateBasic).applyBlocks sampleWalletCrypto mainnet
      [samplePaidBlock]) (fun s ↦ s.tipHeight = 0 ∧
        yields (s.tables.apiAddUnspent {} [] 0 "" 0 0xFFFFFFFFFFFFFFFF) fun r ↦
          r.1 = true ∧ r.2.1.length = 2 ∧
            (keptCoins mainnet s.tipHeight s.tip.timestamp 0 r.2.1).length = 0) = true := by
    decide +kernel
  obtain ⟨s, happly, htest⟩ := yields_iff.1 hrun
  obtain ⟨htip, hlist⟩ := of_decide_eq_true htest
  obtain ⟨⟨all, l, total⟩, hlist, hl⟩ := yields_iff.1 hlist
  obtain ⟨rfl, hlength, hkept⟩ := of_decide_eq_true hl
  obtain ⟨s₁, hblock, hnil⟩ := WalletStateBasic.applyBlocks_cons.1 happly
  obtain rfl := Except.ok.inj hnil
  have heq := hall 0 _ s₁ {} "" 0 l total (.apply samplePaidBlock .start hblock)
    (htip ▸ UInt32.le_refl 0) hlist
  rw [held_createHaveCoins] at heq
  have hcard := (Multiset.coe_eq_coe.1 heq).length_eq
  rw [hkept, hlength] at hcard
  exact absurd hcard (by decide)

end WalletRun

end Naza
