import Naza.Wallet.Spendable

/-!
# Dust flags

Every output that the wallet keeps, unspent or locked, is flagged as dust by its amount, so the
lists that coins are selected from are.
-/

open Lib

namespace Naza

namespace WalletTables

variable {c : Currency} {t t' : WalletTables} {o o' : Api.Output}

/-- The output is unspent or locked. -/
def Keeps (t : WalletTables) (o : Api.Output) : Prop :=
  (∃ k, t.unspent.table.get k = some o) ∨ ∃ byHeight k, (t.locksBy byHeight).table.get k = some o

/-- What is kept is flagged by its amount. -/
def Flagged (t : WalletTables) : Prop := ∀ o, t.Keeps o → o.dust = isDust o.amount

theorem Keeps.of_same (hunspent : t'.unspent = t.unspent) (hlocks : t'.locks = t.locks)
    (h : t'.Keeps o) : t.Keeps o := by
  simpa only [Keeps, hunspent, locksBy_of_locks hlocks] using h

theorem Keeps.of_settle (h : t.settle.Keeps o) : t.Keeps o := by
  rcases h with hunspent | ⟨byHeight, k, hget⟩
  · exact Or.inl hunspent
  · refine Or.inr ⟨byHeight, k, ?_⟩
    cases byHeight
    · exact hget
    · exact hget

/-! ### Frames -/

theorem locks_modifyBalance {lockedOp spendableOp : Int}
    (hok : t.modifyBalance o lockedOp spendableOp = .ok t') : t'.locks = t.locks := by
  obtain ⟨_, -, hok⟩ := bind_eq_ok_iff.1 hok
  obtain ⟨_, -, hok⟩ := bind_eq_ok_iff.1 hok
  cases hok
  rfl

theorem locks_addToUnspentIndex (hok : t.addToUnspentIndex o = .ok t') : t'.locks = t.locks := by
  obtain ⟨t₁, hmodify, hok⟩ := bind_eq_ok_iff.1 hok
  obtain ⟨_, -, hok⟩ := bind_eq_ok_iff.1 hok
  obtain ⟨_, -, hok⟩ := bind_eq_ok_iff.1 hok
  cases hok
  exact (locks_modifyBalance hmodify : t₁.locks = t.locks)

theorem locks_removeFromUnspentIndex (hok : t.removeFromUnspentIndex o = .ok t') :
    t'.locks = t.locks := by
  obtain ⟨t₁, hmodify, hok⟩ := bind_eq_ok_iff.1 hok
  obtain ⟨_, -, hok⟩ := bind_eq_ok_iff.1 hok
  obtain ⟨_, -, hok⟩ := bind_eq_ok_iff.1 hok
  cases hok
  exact (locks_modifyBalance hmodify : t₁.locks = t.locks)

theorem locks_updateKeyimage {ki : KeyImage} {value : HeightAmounGi} {nooverwrite : Bool}
    (hok : t.updateKeyimage ki value nooverwrite = .ok t') : t'.locks = t.locks := by
  rw [updateKeyimage] at hok
  split at hok
  · cases hok
    rfl
  · split at hok
    · obtain ⟨_, -, hok⟩ := bind_eq_ok_iff.1 hok
      cases hok
      rfl
    · cases hok
      rfl

/-! ### What each operation keeps -/

theorem Keeps.of_addToUnspentIndex (hok : t.addToUnspentIndex o = .ok t') (h : t'.Keeps o') :
    t.Keeps o' ∨ o' = o := by
  rw [Keeps, unspent_addToUnspentIndex hok] at h
  simp only [locksBy_of_locks (locks_addToUnspentIndex hok)] at h
  rcases h with ⟨k, hget⟩ | hlocked
  · rw [Store.get_put] at hget
    split at hget
    · exact Or.inr (Option.some.inj hget).symm
    · exact Or.inl (Or.inl ⟨k, hget⟩)
  · exact Or.inl (Or.inr hlocked)

theorem Keeps.of_removeFromUnspentIndex (hok : t.removeFromUnspentIndex o = .ok t')
    (h : t'.Keeps o') : t.Keeps o' := by
  rw [Keeps, unspent_removeFromUnspentIndex hok] at h
  simp only [locksBy_of_locks (locks_removeFromUnspentIndex hok)] at h
  rcases h with ⟨k, hget⟩ | hlocked
  · rw [Store.get_remove] at hget
    split at hget
    · cases hget
    · exact Or.inl ⟨k, hget⟩
  · exact Or.inr hlocked

/-- A lock index replaced by one whose outputs were locked, apart from one output. -/
theorem Keeps.of_withLockIndex {unlockTime : UnlockMoment}
    {index : LoggedTable (UInt32 × Amount × UInt32) Api.Output} (allowed : Api.Output → Prop)
    (hindex : ∀ k o, index.table.get k = some o →
      (t.lockIndex c unlockTime).table.get k = some o ∨ allowed o)
    (h : (t.withLockIndex c unlockTime index).Keeps o) : t.Keeps o ∨ allowed o := by
  rw [Keeps, unspent_withLockIndex] at h
  rcases h with hunspent | ⟨byHeight, k, hget⟩
  · exact Or.inl (Or.inl hunspent)
  · rw [locksBy_withLockIndex] at hget
    split at hget
    · next hby =>
      rcases hindex k o hget with hold | hallowed
      · exact Or.inl (Or.inr ⟨_, k, lockIndex_eq (c := c) unlockTime t ▸ hold⟩)
      · exact Or.inr hallowed
    · exact Or.inl (Or.inr ⟨byHeight, k, hget⟩)

theorem Keeps.of_addToLockIndex (hok : t.addToLockIndex c o = .ok t') (h : t'.Keeps o') :
    t.Keeps o' ∨ o' = o := by
  obtain ⟨t₁, hmodify, hok⟩ := bind_eq_ok_iff.1 hok
  obtain ⟨index, hput, hok⟩ := bind_eq_ok_iff.1 hok
  obtain ⟨-, rfl⟩ := LoggedTable.putNew_eq_ok_iff.1 (walletWrite_eq_ok_iff.1 hput)
  have hsame : t₁.Keeps o' → t.Keeps o' :=
    .of_same (unspent_modifyBalance hmodify) (locks_modifyBalance hmodify)
  have hkeeps : (t₁.withLockIndex c o.unlockTime
      ((t₁.lockIndex c o.unlockTime).put (lockKey o) o)).Keeps o' := by
    dsimp only at hok
    split at hok
    · obtain ⟨_, -, hok⟩ := bind_eq_ok_iff.1 hok
      cases hok
      exact h
    · cases hok
      exact h
  refine (Keeps.of_withLockIndex (· = o) (fun k o'' hget ↦ ?_) hkeeps).imp_left hsame
  rw [LoggedTable.table_put, Store.get_put] at hget
  split at hget
  · exact Or.inr (Option.some.inj hget).symm
  · exact Or.inl hget

theorem Keeps.of_removeFromLockIndex (hok : t.removeFromLockIndex c o = .ok t')
    (h : t'.Keeps o') : t.Keeps o' := by
  obtain ⟨t₁, hmodify, hok⟩ := bind_eq_ok_iff.1 hok
  obtain ⟨index, hremove, hok⟩ := bind_eq_ok_iff.1 hok
  obtain ⟨-, rfl⟩ := LoggedTable.removeExisting_eq_ok_iff.1 (walletWrite_eq_ok_iff.1 hremove)
  have hsame : t₁.Keeps o' → t.Keeps o' :=
    .of_same (unspent_modifyBalance hmodify) (locks_modifyBalance hmodify)
  have hkeeps : (t₁.withLockIndex c o.unlockTime
      ((t₁.lockIndex c o.unlockTime).remove (lockKey o))).Keeps o' := by
    dsimp only at hok
    split at hok
    · obtain ⟨_, -, hok⟩ := bind_eq_ok_iff.1 hok
      cases hok
      exact h
    · cases hok
      exact h
  refine hsame ((Keeps.of_withLockIndex (fun _ ↦ False) (fun k o'' hget ↦ ?_) hkeeps).resolve_right
    id)
  rw [LoggedTable.table_remove, Store.get_remove] at hget
  split at hget
  · cases hget
  · exact Or.inl hget

theorem Keeps.of_addIncomingOutput {justUnlocked : Bool} {r : Amount × WalletTables}
    (hok : t.addIncomingOutput c o justUnlocked = .ok r) (h : r.2.Keeps o') :
    t.Keeps o' ∨ o' = o := by
  rw [addIncomingOutput] at hok
  split at hok
  · cases hok
    exact Or.inl h
  · split at hok
    · obtain ⟨t₁, hlock, hok⟩ := bind_eq_ok_iff.1 hok
      cases hok
      exact h.of_addToLockIndex hlock
    · split at hok
      · split at hok
        · cases hok
          exact Or.inl h
        · obtain ⟨t₁, hremove, hok⟩ := bind_eq_ok_iff.1 hok
          obtain ⟨t₂, hadd, hok⟩ := bind_eq_ok_iff.1 hok
          obtain ⟨t₃, hupdate, hok⟩ := bind_eq_ok_iff.1 hok
          cases hok
          have h₂ : t₂.Keeps o' :=
            .of_same (unspent_updateKeyimage hupdate) (locks_updateKeyimage hupdate) h
          exact (h₂.of_addToUnspentIndex hadd).imp_left (.of_removeFromUnspentIndex hremove)
      · obtain ⟨t₁, hadd, hok⟩ := bind_eq_ok_iff.1 hok
        obtain ⟨t₂, hupdate, hok⟩ := bind_eq_ok_iff.1 hok
        cases hok
        have h₁ : t₁.Keeps o' :=
          .of_same (unspent_updateKeyimage hupdate) (locks_updateKeyimage hupdate) h
        exact h₁.of_addToUnspentIndex hadd

theorem Keeps.of_unlockOutput {nowHeight : Height} (hok : t.unlockOutput c nowHeight o = .ok t')
    (h : t'.Keeps o') : t.Keeps o' ∨ o' = o := by
  obtain ⟨t₁, hremove, hok⟩ := bind_eq_ok_iff.1 hok
  obtain ⟨r, hadd, hok⟩ := bind_eq_ok_iff.1 hok
  obtain ⟨_, -, hok⟩ := bind_eq_ok_iff.1 hok
  cases hok
  have h₂ : r.2.Keeps o' := h
  exact (h₂.of_addIncomingOutput hadd).imp_left (.of_removeFromLockIndex hremove)

theorem Keeps.of_unlockOutputs {nowHeight : Height} {outputs : List Api.Output} :
    ∀ {t : WalletTables}, outputs.foldlM (fun t o ↦ t.unlockOutput c nowHeight o) t = .ok t' →
      t'.Keeps o' → t.Keeps o' ∨ o' ∈ outputs := by
  induction outputs with
  | nil =>
    intro t hok h
    cases hok
    exact Or.inl h
  | cons o outputs ih =>
    intro t hok h
    rw [List.foldlM_cons] at hok
    obtain ⟨t₁, hunlock, hok⟩ := bind_eq_ok_iff.1 hok
    rcases ih hok h with hold | hmem
    · rcases hold.of_unlockOutput hunlock with hold | rfl
      · exact Or.inl hold
      · exact Or.inr List.mem_cons_self
    · exact Or.inr (List.mem_cons_of_mem _ hmem)

/-- The outputs that a key image unlocks before their time were locked. -/
theorem Indexed.keeps_addIncomingKeyimage (hindexed : Indexed c t) {height : Height}
    {ki : KeyImage} {r : Amount × WalletTables} (hok : t.addIncomingKeyimage c height ki = .ok r)
    (h : r.2.Keeps o') : t.Keeps o' := by
  obtain ⟨outputs, hfound, hok⟩ := bind_eq_ok_iff.1 hok
  obtain ⟨t₁, hunlock, hok⟩ := bind_eq_ok_iff.1 hok
  obtain ⟨hlocked, -⟩ := (hindexed.lockedWithKeyimage ki).of_ok hfound
  have h₁ : t₁.Keeps o' := by
    split at hok
    · obtain ⟨t₂, hremove, hok⟩ := bind_eq_ok_iff.1 hok
      cases hok
      exact Keeps.of_removeFromUnspentIndex hremove h
    · cases hok
      exact h
  rcases h₁.of_unlockOutputs hunlock with hold | hmem
  · exact hold
  · exact Or.inr ⟨_, _, (hlocked o' hmem).1⟩

/-- The outputs that the end of a block unlocks were locked. -/
theorem Keeps.of_unlock {nowHeight : Height} {now : Timestamp}
    (hok : t.unlock c nowHeight now = .ok t') (h : t'.Keeps o') : t.Keeps o' := by
  obtain ⟨byHeight, hbyHeight, hok⟩ := bind_eq_ok_iff.1 hok
  obtain ⟨toUnlock, htoUnlock, hok⟩ := bind_eq_ok_iff.1 hok
  have hfold : (toUnlock.toList.map Prod.snd).foldlM
      (fun t o ↦ t.unlockOutput c nowHeight o) t = .ok t' := by
    rw [List.foldlM_map]
    exact hok
  rcases h.of_unlockOutputs hfold with hold | hmem
  · exact hold
  obtain ⟨e, he, rfl⟩ := List.mem_map.1 hmem
  rcases ((readUnlockIndex_spec htoUnlock (by simp)).2 e.1 e.2).1 (Store.mem_toList_iff.1 he) with
    hentry | ⟨e', he', -, -, heq, -⟩
  · rcases ((readUnlockIndex_spec hbyHeight (by simp)).2 e.1 e.2).1 hentry with
      hnone | ⟨e', he', -, -, heq, -⟩
    · rw [Store.get_empty] at hnone
      cases hnone
    · exact Or.inr ⟨true, e'.1, heq ▸ Store.mem_toList_iff.1 he'⟩
  · exact Or.inr ⟨false, e'.1, heq ▸ Store.mem_toList_iff.1 he'⟩

theorem locks_addTransaction {height : Height} {tid : Hash} {tx : TransactionPrefix}
    {ptx : Api.Transaction} (hok : t.addTransaction height tid tx ptx = .ok t') :
    t'.locks = t.locks := by
  obtain ⟨_, -, hok⟩ := bind_eq_ok_iff.1 hok
  obtain ⟨_, -, hok⟩ := bind_eq_ok_iff.1 hok
  cases hok
  rfl

/-! ### Blocks and lists -/

theorem flagged_kept (wc : WalletCrypto) (c : Currency) :
    KeptByOperations wc c (· = .underflow) fun t ↦ Consistent c t ∧ t.Flagged where
  exception := by simp
  addIncomingOutput height o t hreceived h := by
    apply ((h.1.addIncomingOutput o false).mono fun _ hr ↦ hr.1).and_of_ok
    intro r hok o' hkeeps
    rcases hkeeps.of_addIncomingOutput hok with hold | rfl
    · exact h.2 o' hold
    · exact hreceived.dust
  addIncomingKeyimage height ki t h := by
    apply (h.1.addIncomingKeyimage height ki).and_of_ok
    exact fun r hok o' hkeeps ↦ h.2 o' (h.1.indexed.keeps_addIncomingKeyimage hok hkeeps)
  unlock height now t h := by
    apply (h.1.unlock height now).and_of_ok
    exact fun t' hok o' hkeeps ↦ h.2 o' (hkeeps.of_unlock hok)
  addTransaction height tid tx ptx t h := by
    apply (h.1.addTransaction height tid tx ptx).and_of_ok
    exact fun t' hok o' hkeeps ↦
      h.2 o' (.of_same (unspent_addTransaction hok) (locks_addTransaction hok) hkeeps)

theorem mem_of_addUnspents {m : MemoryState} {recent : Store (Amount × UInt32) Api.Output}
    {maxAmount total total' : Amount} {outputs result l : List Api.Output} {all : Bool}
    (hlist : addUnspents m recent maxAmount outputs result total = (all, l, total')) :
    ∀ o ∈ l, o ∈ result ∨ o ∈ outputs := by
  induction outputs generalizing result total with
  | nil =>
    have hresult : result = l := (Prod.mk.inj (Prod.mk.inj hlist).2).1
    exact fun o ho ↦ Or.inl (hresult ▸ ho)
  | cons output outputs ih =>
    have hmem : ∀ o, o ∈ result ++ [output] → o ∈ result ∨ o ∈ output :: outputs := fun o ho ↦
      (List.mem_append.1 ho).imp_right fun hone ↦
        List.mem_cons.2 (Or.inl (List.mem_singleton.1 hone))
    rw [addUnspents] at hlist
    split at hlist
    · dsimp only at hlist
      generalize (if output.dust = true then total else total + output.amount) = total₁ at hlist
      split at hlist
      · have hresult : result ++ [output] = l := (Prod.mk.inj (Prod.mk.inj hlist).2).1
        exact fun o ho ↦ hmem o (hresult ▸ ho)
      · intro o ho
        rcases ih hlist o ho with hold | hrest
        · exact hmem o hold
        · exact Or.inr (List.mem_cons_of_mem _ hrest)
    · exact fun o ho ↦ (ih hlist o ho).imp_right (List.mem_cons_of_mem _)

/-- The outputs of a list come out of the unspent index. -/
theorem Indexed.keeps_of_apiAddUnspent (h : Indexed c t) {m : MemoryState} {a : String}
    {height : Height} {maxAmount total : Amount} {l : List Api.Output} {all : Bool}
    (hlist : t.apiAddUnspent m [] 0 a height maxAmount = .ok (all, l, total)) :
    ∀ o ∈ l, t.Keeps o := by
  obtain ⟨recent, -, hlist⟩ := bind_eq_ok_iff.1 hlist
  obtain ⟨confirmed, hconfirmed, hlist⟩ := bind_eq_ok_iff.1 hlist
  intro o ho
  have hmem : o ∈ confirmed :=
    (mem_of_addUnspents (Except.ok.inj hlist) o ho).resolve_left List.not_mem_nil
  rw [← Multiset.mem_coe, h.forEachInUnspentIndex hconfirmed, Multiset.mem_filter, unspentOf,
    Multiset.mem_filter, Store.mem_values_iff] at hmem
  exact Or.inl hmem.1.1

end WalletTables

/-- In every state of a wallet database, the lists that coins are selected from are flagged as the
selector takes them to be. -/
theorem WalletRun.dust_of_apiAddUnspent {wc : WalletCrypto} {c : Currency} {tail : Height}
    {processed : List ProcessedBlock} {s : WalletStateBasic}
    (hrun : WalletRun wc c tail processed s) {m : MemoryState} {a : String} {h : Height}
    {maxAmount total : Amount} {l : List Api.Output} {all : Bool}
    (hlist : s.tables.apiAddUnspent m [] 0 a h maxAmount = .ok (all, l, total)) :
    ∀ un ∈ l, un.dust = isDust un.amount := by
  have hflagged := hrun.tables_of_kept (WalletTables.flagged_kept wc c)
    (fun t ht ↦ ⟨ht.1.settle, fun o hkeeps ↦ ht.2 o hkeeps.of_settle⟩)
    ⟨WalletTables.consistent_empty c, fun o hkeeps ↦ by
      rcases hkeeps with ⟨k, hget⟩ | ⟨byHeight, k, hget⟩
      · cases hget
      · cases byHeight <;> cases hget⟩
  exact fun un hun ↦ hflagged.2 un (hrun.consistent.indexed.keeps_of_apiAddUnspent hlist un hun)

end Naza
