import Naza.Wallet.Spendable

/-!
# What is shown before it is done

`try_adding_incoming_keyimage` walks over the locked outputs with a key image in the order in which
`add_incoming_keyimage` unlocks them, and finds the output that it then removes.  It does not look
whether the key image was spent before, as `add_incoming_output` does.
-/

open Lib

namespace Naza

namespace WalletTables

variable {c : Currency} {t t' : WalletTables} {o : Api.Output} {ki : KeyImage}

/-! ## One candidate after another -/

/-- What a further output with the key image makes of the candidate for spending. -/
def betterOutput (spending : Option Api.Output) (o : Api.Output) : Option Api.Output :=
  match spending with
  | none => some o
  | some e => if o.amount ≤ e.amount ∨ o.address ≠ e.address then some e else some o

/-- The output that the key image points to, where there is one. -/
def pointedOutput (ki : KeyImage) (t : WalletTables) : Option Api.Output :=
  (t.readByKeyimage ki).bind t.readFromUnspentIndex

/-- The candidate is what the key image points to. -/
def Candidate (ki : KeyImage) (spending : Option Api.Output) (t : WalletTables) : Prop :=
  match spending with
  | none => t.readByKeyimage ki = none
  | some e => t.readByKeyimage ki = some e.heightAmounGi ∧
      t.readFromUnspentIndex e.heightAmounGi = some e

/-- The key image was recorded, and its output is unspent no more. -/
def Spent (ki : KeyImage) (t : WalletTables) : Prop :=
  t.readByKeyimage ki ≠ none ∧ t.pointedOutput ki = none

/-- A key image that was spent, while an output with it is locked. -/
def Stranded (c : Currency) (ki : KeyImage) (t : WalletTables) : Prop :=
  t.Spent ki ∧ ∃ o, t.Locked c o ∧ o.keyImage = ki

theorem Candidate.pointedOutput {spending : Option Api.Output} (h : t.Candidate ki spending) :
    t.pointedOutput ki = spending := by
  cases spending with
  | none => rw [WalletTables.pointedOutput, h, Option.bind_none]
  | some e => rw [WalletTables.pointedOutput, h.1, Option.bind_some, h.2]

/-- A key image that was not spent points to its candidate. -/
theorem Indexed.candidate (h : Indexed c t) (hspent : ¬t.Spent ki) :
    t.Candidate ki (t.pointedOutput ki) := by
  cases hpointed : t.pointedOutput ki with
  | none => exact by_contra fun hsome ↦ hspent ⟨hsome, hpointed⟩
  | some e =>
    obtain ⟨k, hk, hget⟩ := Option.bind_eq_some_iff.1 hpointed
    have hkey := h.unspent k e hget
    subst hkey
    exact ⟨hk, hget⟩

/-! ## The tables that key images are looked up in -/

/-- The key images and the unspent outputs. -/
def pointers (t : WalletTables) : Store KeyImage HeightAmounGi × Store HeightAmounGi Api.Output :=
  (t.keyImages.table, t.unspent.table)

theorem pointedOutput_of_pointers (h : t'.pointers = t.pointers) :
    t'.pointedOutput ki = t.pointedOutput ki := by
  obtain ⟨hkeyImages, hunspent⟩ := Prod.mk.inj h
  unfold pointedOutput readByKeyimage readFromUnspentIndex
  rw [hkeyImages, hunspent]

theorem spent_of_pointers (h : t'.pointers = t.pointers) : t'.Spent ki ↔ t.Spent ki := by
  have hkeyImages := (Prod.mk.inj h).1
  unfold Spent readByKeyimage
  rw [pointedOutput_of_pointers h, hkeyImages]

theorem Candidate.of_pointers {spending : Option Api.Output} (h : t.Candidate ki spending)
    (hp : t'.pointers = t.pointers) : t'.Candidate ki spending := by
  obtain ⟨hkeyImages, hunspent⟩ := Prod.mk.inj hp
  cases spending with
  | none =>
    change t'.keyImages.table.get ki = none
    rw [hkeyImages]
    exact h
  | some e =>
    change t'.keyImages.table.get ki = _ ∧ t'.unspent.table.get _ = _
    rw [hkeyImages, hunspent]
    exact h

theorem keyImages_modifyBalance {lockedOp spendableOp : Int}
    (hok : t.modifyBalance o lockedOp spendableOp = .ok t') : t'.keyImages = t.keyImages := by
  obtain ⟨_, -, hok⟩ := bind_eq_ok_iff.1 hok
  obtain ⟨_, -, hok⟩ := bind_eq_ok_iff.1 hok
  cases hok
  rfl

theorem keyImages_updateKeyimage {value : HeightAmounGi} {nooverwrite : Bool} (hki : ki ≠ 0)
    (hok : t.updateKeyimage ki value nooverwrite = .ok t') :
    t'.keyImages.table = t.keyImages.table.put ki value := by
  rw [updateKeyimage, if_neg hki] at hok
  split at hok
  · obtain ⟨keyImages, hput, hok⟩ := bind_eq_ok_iff.1 hok
    cases hok
    obtain ⟨-, rfl⟩ := LoggedTable.putNew_eq_ok_iff.1 (walletWrite_eq_ok_iff.1 hput)
    exact LoggedTable.table_put _ _ _
  · cases hok
    exact LoggedTable.table_put _ _ _

theorem pointers_removeFromLockIndex (hok : t.removeFromLockIndex c o = .ok t') :
    t'.pointers = t.pointers := by
  have hkeyImages : t'.keyImages = t.keyImages := by
    obtain ⟨t₁, hmodify, hok⟩ := bind_eq_ok_iff.1 hok
    obtain ⟨_, -, hok⟩ := bind_eq_ok_iff.1 hok
    dsimp only at hok
    split at hok
    · obtain ⟨_, -, hok⟩ := bind_eq_ok_iff.1 hok
      cases hok
      exact (keyImages_withLockIndex _ _ _).trans (keyImages_modifyBalance hmodify)
    · cases hok
      exact (keyImages_withLockIndex _ _ _).trans (keyImages_modifyBalance hmodify)
  rw [pointers, pointers, hkeyImages, unspent_removeFromLockIndex hok]

/-! ## Receiving what was locked -/

/-- An output received becomes the candidate where it is better. -/
theorem Candidate.addIncomingOutput {spending : Option Api.Output} {r : Amount × WalletTables}
    (h : t.Candidate ki spending) (hki : o.keyImage = ki) (hzero : ki ≠ 0)
    (hok : t.addIncomingOutput c o true = .ok r) : r.2.Candidate ki (betterOutput spending o) := by
  have hread : t.readByKeyimage o.keyImage = spending.map Api.Output.heightAmounGi := by
    rw [hki]
    cases spending with
    | none => exact h
    | some e => exact h.1
  have hexisting : (t.readByKeyimage o.keyImage).bind t.readFromUnspentIndex = spending := by
    rw [hki]
    exact h.pointedOutput
  rw [WalletTables.addIncomingOutput, hexisting, hread,
    if_neg (by cases spending <;> simp), if_neg (by simp)] at hok
  -- the new output is recorded under the key image
  have hrecorded : ∀ {t₁ t₂ : WalletTables} {nooverwrite : Bool},
      t₁.addToUnspentIndex o = .ok t₂ →
      t₂.updateKeyimage o.keyImage o.heightAmounGi nooverwrite = .ok r.2 →
      r.2.Candidate ki (some o) := by
    intro t₁ t₂ nooverwrite hadd hupdate
    constructor
    · rw [readByKeyimage, ← hki, keyImages_updateKeyimage (hki ▸ hzero) hupdate,
        Store.get_put_self]
    · rw [readFromUnspentIndex, unspent_updateKeyimage hupdate, unspent_addToUnspentIndex hadd,
        Store.get_put_self]
  cases spending with
  | none =>
    obtain ⟨t₁, hadd, hok⟩ := bind_eq_ok_iff.1 hok
    obtain ⟨t₂, hupdate, hok⟩ := bind_eq_ok_iff.1 hok
    cases hok
    exact hrecorded hadd hupdate
  | some e =>
    change (if o.amount ≤ e.amount ∨ o.address ≠ e.address then _ else _) = _ at hok
    rw [betterOutput]
    split at hok
    · next hworse =>
      cases hok
      rw [if_pos hworse]
      exact h
    · next hbetter =>
      obtain ⟨t₁, -, hok⟩ := bind_eq_ok_iff.1 hok
      obtain ⟨t₂, hadd, hok⟩ := bind_eq_ok_iff.1 hok
      obtain ⟨t₃, hupdate, hok⟩ := bind_eq_ok_iff.1 hok
      cases hok
      rw [if_neg hbetter]
      exact hrecorded hadd hupdate

theorem Candidate.unlockOutput {spending : Option Api.Output} {height : Height}
    (h : t.Candidate ki spending) (hki : o.keyImage = ki) (hzero : ki ≠ 0)
    (hok : t.unlockOutput c height o = .ok t') : t'.Candidate ki (betterOutput spending o) := by
  obtain ⟨t₁, hremove, hok⟩ := bind_eq_ok_iff.1 hok
  obtain ⟨r, hadd, hok⟩ := bind_eq_ok_iff.1 hok
  obtain ⟨_, -, hok⟩ := bind_eq_ok_iff.1 hok
  cases hok
  exact ((h.of_pointers (pointers_removeFromLockIndex hremove)).addIncomingOutput hki hzero
    hadd).of_pointers rfl

theorem Candidate.unlockOutputs {height : Height} {outputs : List Api.Output} (hzero : ki ≠ 0)
    (houtputs : ∀ o ∈ outputs, o.keyImage = ki) :
    ∀ {t : WalletTables} {spending : Option Api.Output}, t.Candidate ki spending →
      outputs.foldlM (fun t o ↦ t.unlockOutput c height o) t = .ok t' →
      t'.Candidate ki (outputs.foldl betterOutput spending) := by
  induction outputs with
  | nil =>
    intro t spending h hok
    cases hok
    exact h
  | cons o outputs ih =>
    intro t spending h hok
    rw [List.foldlM_cons] at hok
    obtain ⟨t₁, hunlock, hok⟩ := bind_eq_ok_iff.1 hok
    exact ih (fun o ho ↦ houtputs o (List.mem_cons_of_mem _ ho))
      (h.unlockOutput (houtputs o List.mem_cons_self) hzero hunlock) hok

/-- Outputs with a key image that was spent are ignored. -/
theorem Spent.unlockOutputs {height : Height} {outputs : List Api.Output}
    (houtputs : ∀ o ∈ outputs, o.keyImage = ki) :
    ∀ {t : WalletTables}, t.Spent ki →
      outputs.foldlM (fun t o ↦ t.unlockOutput c height o) t = .ok t' → t'.Spent ki := by
  induction outputs with
  | nil =>
    intro t h hok
    cases hok
    exact h
  | cons o outputs ih =>
    intro t h hok
    rw [List.foldlM_cons] at hok
    obtain ⟨t₁, hunlock, hok⟩ := bind_eq_ok_iff.1 hok
    refine ih (fun o ho ↦ houtputs o (List.mem_cons_of_mem _ ho)) ?_ hok
    obtain ⟨t₂, hremove, hunlock⟩ := bind_eq_ok_iff.1 hunlock
    obtain ⟨r, hadd, hunlock⟩ := bind_eq_ok_iff.1 hunlock
    obtain ⟨_, -, hunlock⟩ := bind_eq_ok_iff.1 hunlock
    have h₂ : t₂.Spent ki := (spent_of_pointers (pointers_removeFromLockIndex hremove)).2 h
    have hki := houtputs o List.mem_cons_self
    rw [addIncomingOutput, hki, if_pos ⟨h₂.1, h₂.2⟩] at hadd
    cases hadd
    cases hunlock
    exact (spent_of_pointers rfl).2 h₂

/-! ## The prediction -/

theorem readLocked_eq_ok (h : Indexed c t) {unlockTime : UnlockMoment} {amount : Amount}
    {globalIndex : UInt32}
    (hget : (t.lockIndex c unlockTime).table.get (clampUnlockTime unlockTime, amount, globalIndex) =
      some o) :
    t.readLocked c unlockTime amount globalIndex = .ok o ∧ o.amount = amount := by
  have hkey := (h.locked_of_lockIndex hget).1
  simp only [lockKey, Prod.mk.injEq] at hkey
  refine ⟨?_, hkey.2.1⟩
  rw [readLocked, throwing_eq_ok_iff, hget]
  exact bind_eq_ok_iff.2 ⟨o, rfl, bind_eq_ok_iff.2
    ⟨(), invariant_eq_ok_iff.2 ⟨hkey.2.1, hkey.2.2⟩, rfl⟩⟩

/-- The prediction is a walk over the outputs that are unlocked. -/
theorem Indexed.tryAddingIncomingKeyimage_eq (h : Indexed c t) {outputs : List Api.Output}
    (hfound : t.lockedWithKeyimage c ki = .ok outputs) :
    t.tryAddingIncomingKeyimage c ki = .ok (outputs.foldl betterOutput (t.pointedOutput ki)) := by
  rw [WalletTables.lockedWithKeyimage] at hfound
  rw [tryAddingIncomingKeyimage, ← pointedOutput]
  generalize t.pointedOutput ki = spending
  generalize t.lockedByKeyImage.table.toList.filter _ = entries at hfound ⊢
  induction entries generalizing outputs spending with
  | nil =>
    cases hfound
    rfl
  | cons e entries ih =>
    obtain ⟨⟨ki', amount, globalIndex⟩, unlockTime⟩ := e
    rw [List.mapM_cons] at hfound
    obtain ⟨o, ho, hfound⟩ := bind_eq_ok_iff.1 hfound
    obtain ⟨rest, hrest, hfound⟩ := bind_eq_ok_iff.1 hfound
    cases hfound
    obtain ⟨hread, hamount⟩ := readLocked_eq_ok h
      (expect_eq_ok_iff.1 (throwing_eq_ok_iff.1 ho))
    rw [List.foldlM_cons, List.foldl_cons, bind_eq_ok_iff]
    refine ⟨betterOutput spending o, ?_, ih _ hrest⟩
    dsimp only
    rw [hread]
    cases spending with
    | none => rfl
    | some e =>
      rw [betterOutput, hamount]
      dsimp only
      by_cases hle : amount ≤ e.amount
      · rw [if_pos hle, if_pos (Or.inl hle)]
      · rw [if_neg hle]
        by_cases haddress : o.address ≠ e.address
        · rw [if_pos (Or.inr haddress)]
          change Except.ok (if _ then _ else _) = _
          rw [if_pos haddress]
        · rw [if_neg (by simp [hle, haddress])]
          change Except.ok (if _ then _ else _) = _
          rw [if_neg haddress]

/-- A locked output with a key image is found by it. -/
theorem Indexed.lockedWithKeyimage_ne_nil (h : Indexed c t) (hlocked : t.Locked c o)
    (hki : o.keyImage = ki) (hzero : ki ≠ 0) : t.lockedWithKeyimage c ki ≠ .ok [] := by
  intro hfound
  have hentry : t.lockedByKeyImage.table.get (ki, o.amount, o.globalIndex) = some o.unlockTime :=
    (h.lockedByKeyImage _ _ _ _).2 ⟨hzero, o, hlocked, hki, rfl⟩
  have hmem : ((ki, o.amount, o.globalIndex), o.unlockTime) ∈
      t.lockedByKeyImage.table.toList.filter fun e ↦ e.1.1 = ki :=
    List.mem_filter.2 ⟨Store.mem_toList_iff.2 hentry, by simp⟩
  rw [WalletTables.lockedWithKeyimage] at hfound
  generalize t.lockedByKeyImage.table.toList.filter _ = entries at hmem hfound
  cases entries with
  | nil => exact List.not_mem_nil hmem
  | cons e entries =>
    rw [List.mapM_cons] at hfound
    obtain ⟨_, -, hfound⟩ := bind_eq_ok_iff.1 hfound
    obtain ⟨_, -, hfound⟩ := bind_eq_ok_iff.1 hfound
    cases hfound

/-- How `add_incoming_keyimage` comes to its result: the outputs with the key image are unlocked,
and the one that it then points to is removed, or none. -/
def RemovesAfterUnlock (c : Currency) (height : Height) (ki : KeyImage) (t : WalletTables)
    (removed : Option Api.Output) (r : Amount × WalletTables) : Prop :=
  ∃ outputs t₁, t.lockedWithKeyimage c ki = .ok outputs ∧
    outputs.foldlM (fun t lo ↦ t.unlockOutput c height lo) t = .ok t₁ ∧
      match removed with
      | some o => t₁.unspent.table.get o.heightAmounGi = some o ∧
          t₁.removeFromUnspentIndex o = .ok r.2 ∧ r.1 = o.amount
      | none => r = (0, t₁)

theorem Consistent.removesAfterUnlock (h : Consistent c t) {height : Height}
    {r : Amount × WalletTables} (hok : t.addIncomingKeyimage c height ki = .ok r) :
    ∃ outputs t₁, t.lockedWithKeyimage c ki = .ok outputs ∧
      outputs.foldlM (fun t lo ↦ t.unlockOutput c height lo) t = .ok t₁ ∧
        RemovesAfterUnlock c height ki t (t₁.pointedOutput ki) r := by
  obtain ⟨outputs, hfound, hok⟩ := bind_eq_ok_iff.1 hok
  obtain ⟨t₁, hunlock, hok⟩ := bind_eq_ok_iff.1 hok
  obtain ⟨hlocked, hnodup⟩ := (h.indexed.lockedWithKeyimage ki).of_ok hfound
  have h₁ : Consistent c t₁ :=
    (h.unlockOutputs height (fun o ho ↦ (hlocked o ho).1) hnodup).of_ok hunlock
  refine ⟨outputs, t₁, hfound, hunlock, outputs, t₁, hfound, hunlock, ?_⟩
  change (match t₁.pointedOutput ki with | some e => _ | none => _) = _ at hok
  cases hpointed : t₁.pointedOutput ki with
  | none =>
    rw [hpointed] at hok
    cases hok
    rfl
  | some o =>
    rw [hpointed] at hok
    obtain ⟨t₂, hremove, hok⟩ := bind_eq_ok_iff.1 hok
    cases hok
    obtain ⟨k, -, hget⟩ := Option.bind_eq_some_iff.1 hpointed
    have hkey := h₁.indexed.unspent k o hget
    subst hkey
    exact ⟨hget, hremove, rfl⟩

/-- The prediction for a key image is the output removed, unless the key image was spent and an
output with it is locked. -/
theorem Consistent.tryAddingIncomingKeyimage_iff (h : Consistent c t) (hzero : ki ≠ 0)
    {height : Height} {r : Amount × WalletTables}
    (hok : t.addIncomingKeyimage c height ki = .ok r) :
    ∃ removed, RemovesAfterUnlock c height ki t removed r ∧
      (t.tryAddingIncomingKeyimage c ki = .ok removed ↔ ¬Stranded c ki t) := by
  obtain ⟨outputs, t₁, hfound, hunlock, hremoves⟩ := h.removesAfterUnlock hok
  refine ⟨_, hremoves, ?_⟩
  obtain ⟨hlocked, -⟩ := (h.indexed.lockedWithKeyimage ki).of_ok hfound
  have hkis : ∀ o ∈ outputs, o.keyImage = ki := fun o ho ↦ (hlocked o ho).2
  rw [h.indexed.tryAddingIncomingKeyimage_eq hfound, Except.ok.injEq]
  by_cases hspent : t.Spent ki
  · have hnone : t₁.pointedOutput ki = none := (hspent.unlockOutputs hkis hunlock).2
    rw [hspent.2, hnone]
    cases outputs with
    | nil =>
      refine iff_of_true rfl fun ⟨_, o, ho, hki⟩ ↦ ?_
      exact h.indexed.lockedWithKeyimage_ne_nil ho hki hzero hfound
    | cons o outputs =>
      refine iff_of_false ?_ (not_not.2 ⟨hspent, o, hlocked o List.mem_cons_self⟩)
      have hsome : ∀ (outputs : List Api.Output) (e : Api.Output),
          outputs.foldl betterOutput (some e) ≠ none := by
        intro outputs
        induction outputs with
        | nil => exact fun e h ↦ by cases h
        | cons o outputs ih =>
          intro e
          rw [List.foldl_cons, betterOutput]
          split
          · exact ih e
          · exact ih o
      exact hsome outputs o
  · refine iff_of_true ?_ fun hstranded ↦ hspent hstranded.1
    exact ((h.indexed.candidate hspent).unlockOutputs hzero hkis hunlock).pointedOutput.symm

/-- The prediction for an output is the amount that it adds, where it is taken. -/
theorem tryAddIncomingOutput_spec {r : Amount × WalletTables}
    (hok : t.addIncomingOutput c o false = .ok r) :
    (∀ d, t.tryAddIncomingOutput o = some d → r.1 = d ∧ (0 < d ↔ o.amount ≠ 0)) ∧
      (t.tryAddIncomingOutput o = none → r = (0, t)) := by
  rw [addIncomingOutput] at hok
  rw [tryAddIncomingOutput]
  have hpos : 0 < o.amount ↔ o.amount ≠ 0 := UInt64.pos_iff_ne_zero
  split
  · next hspent =>
    rw [if_pos hspent] at hok
    cases hok
    exact ⟨fun d hd ↦ (by cases hd), fun _ ↦ rfl⟩
  · next hspent =>
    rw [if_neg hspent] at hok
    split
    · next hlock =>
      rw [if_pos ⟨hlock, rfl⟩] at hok
      obtain ⟨t₁, -, hok⟩ := bind_eq_ok_iff.1 hok
      cases hok
      refine ⟨fun d hd ↦ ?_, fun hnone ↦ (by cases hnone)⟩
      cases hd
      exact ⟨rfl, hpos⟩
    · next hlock =>
      rw [if_neg fun hand ↦ hlock hand.1] at hok
      split at hok
      · next height amount index e hheamgi hexisting =>
        split at hok
        · next hworse =>
          cases hok
          rw [if_pos hworse]
          exact ⟨fun d hd ↦ (by cases hd), fun _ ↦ rfl⟩
        · next hbetter =>
          rw [if_neg hbetter]
          obtain ⟨t₁, -, hok⟩ := bind_eq_ok_iff.1 hok
          obtain ⟨t₂, -, hok⟩ := bind_eq_ok_iff.1 hok
          obtain ⟨t₃, -, hok⟩ := bind_eq_ok_iff.1 hok
          cases hok
          refine ⟨fun d hd ↦ ?_, fun hnone ↦ (by cases hnone)⟩
          cases hd
          have hlarger : amount < o.amount := UInt64.not_le.1 fun hle ↦ hbetter (Or.inl hle)
          have hdiff : 0 < o.amount - amount := by
            rw [UInt64.lt_iff_toNat_lt, UInt64.toNat_sub_of_le _ _ (UInt64.le_of_lt hlarger)]
            exact Nat.sub_pos_of_lt (UInt64.lt_iff_toNat_lt.1 hlarger)
          refine ⟨rfl, iff_of_true hdiff ?_⟩
          rintro hzero
          rw [hzero] at hlarger
          exact absurd hlarger (UInt64.not_lt.2 (UInt64.zero_le))
      · next hnotboth =>
        obtain ⟨t₁, -, hok⟩ := bind_eq_ok_iff.1 hok
        obtain ⟨t₂, -, hok⟩ := bind_eq_ok_iff.1 hok
        cases hok
        refine ⟨fun d hd ↦ ?_, fun hnone ↦ (by cases hnone)⟩
        cases hd
        exact ⟨rfl, hpos⟩

end WalletTables

/-! ## Runs -/

namespace WalletRun

variable {wc : WalletCrypto} {c : Currency} {tail : Height} {processed : List ProcessedBlock}
  {s : WalletStateBasic}

/-- In every state of a wallet, what is predicted for a key image is the output that it removes,
unless it was spent while another output with it is locked; and an output is predicted to be taken
exactly when it is taken, with the amount it adds, which is zero only for an output of zero. -/
theorem prediction_iff (h : WalletRun wc c tail processed s) :
    (∀ ki ≠ 0, ∀ height r, s.tables.addIncomingKeyimage c height ki = .ok r →
      ∃ removed, WalletTables.RemovesAfterUnlock c height ki s.tables removed r ∧
        (s.tables.tryAddingIncomingKeyimage c ki = .ok removed ↔
          ¬s.tables.Stranded c ki)) ∧
      ∀ o r, s.tables.addIncomingOutput c o false = .ok r →
        (∀ d, s.tables.tryAddIncomingOutput o = some d → r.1 = d ∧ (0 < d ↔ o.amount ≠ 0)) ∧
          (s.tables.tryAddIncomingOutput o = none → r = (0, s.tables)) :=
  ⟨fun _ hzero _ _ hok ↦ h.consistent.tryAddingIncomingKeyimage_iff hzero hok,
    fun _ _ hok ↦ WalletTables.tryAddIncomingOutput_spec hok⟩

/-- An output that is spent in its block, another one under the same index, one with the key image
of the first that is locked, and the second one spent. -/
def sampleStrandingBlock : ProcessedBlock :=
  sampleWalletBlock { hash := 10, timestamp := 100, timestampMedian := 100 }
    (samplePayment 1 0 [] [(5000000, 5)])
    [samplePayment 9 0 [{ keyImage := 105 }] [],
      samplePayment 2 0 [] [(5000000, 5)],
      samplePayment 1 1000 [] [(7000000, 5)],
      samplePayment 9 0 [{ keyImage := 205 }] []]
    [[0], [], [0], [1], []]

/-- A key image that was spent is predicted to spend the locked output, and removes nothing; and an
output of zero is predicted to be taken, and adds nothing. -/
theorem not_prediction :
    (¬∀ (tail : Height) (processed : List ProcessedBlock) (s : WalletStateBasic),
      WalletRun sampleWalletCrypto mainnet tail processed s →
      ∀ ki ≠ 0, ∀ height r, s.tables.addIncomingKeyimage mainnet height ki = .ok r →
        ∃ removed, WalletTables.RemovesAfterUnlock mainnet height ki s.tables removed r ∧
          s.tables.tryAddingIncomingKeyimage mainnet ki = .ok removed) ∧
      ¬∀ (tail : Height) (processed : List ProcessedBlock) (s : WalletStateBasic),
        WalletRun sampleWalletCrypto mainnet tail processed s →
        ∀ o r, s.tables.addIncomingOutput mainnet o false = .ok r →
          ∀ d, s.tables.tryAddIncomingOutput o = some d ↔ r.1 = d ∧ 0 < d := by
  constructor
  · intro hall
    have hrun : yields (({} : WalletStateBasic).applyBlocks sampleWalletCrypto mainnet
        [sampleStrandingBlock]) (fun s ↦
          yields (s.tables.tryAddingIncomingKeyimage mainnet 105) (fun found ↦
            found.map Api.Output.amount = some 7000000) ∧
          yields (s.tables.addIncomingKeyimage mainnet 1 105) fun r ↦ r.1 = 0) = true := by
      decide +kernel
    obtain ⟨s, happly, htest⟩ := yields_iff.1 hrun
    obtain ⟨htry, hadd⟩ := of_decide_eq_true htest
    obtain ⟨found, htry, hfound⟩ := yields_iff.1 htry
    obtain ⟨r, hadd, hzero⟩ := yields_iff.1 hadd
    obtain ⟨s₁, hblock, hnil⟩ := WalletStateBasic.applyBlocks_cons.1 happly
    obtain rfl := Except.ok.inj hnil
    obtain ⟨removed, hremoves, hpredicted⟩ := hall 0 _ s₁
      (.apply sampleStrandingBlock .start hblock) 105 (by decide) 1 r hadd
    obtain rfl := Except.ok.inj (htry.symm.trans hpredicted)
    obtain ⟨o, rfl, hamount⟩ := Option.map_eq_some_iff.1 (of_decide_eq_true hfound)
    obtain ⟨_, _, _, _, _, _, hr⟩ := hremoves
    rw [of_decide_eq_true hzero, hamount] at hr
    exact absurd hr (by decide)
  · intro hall
    have hadd : yields (({} : WalletStateBasic).tables.addIncomingOutput mainnet {} false)
        (fun r ↦ r.1 = 0) = true := by
      decide +kernel
    obtain ⟨r, hadd, -⟩ := yields_iff.1 hadd
    have hzero := ((hall 0 [] {} .start {} r hadd 0).1 (by decide +kernel)).2
    exact absurd hzero (by decide)

/-- After a block that pays to two addresses a key image is predicted to spend what it spends. -/
theorem prediction_iff_samplePaidBlock : ∃ (s : WalletStateBasic) (r : Amount × WalletTables)
    (removed : Option Api.Output),
    s.tables.addIncomingKeyimage mainnet 1 705 = .ok r ∧ r.1 = 5000000 ∧
      WalletTables.RemovesAfterUnlock mainnet 1 705 s.tables removed r ∧
        (s.tables.tryAddingIncomingKeyimage mainnet 705 = .ok removed ↔
          ¬s.tables.Stranded mainnet 705) := by
  have hrun : yields (({} : WalletStateBasic).applyBlocks sampleWalletCrypto mainnet
      [samplePaidBlock]) (fun s ↦
        yields (s.tables.addIncomingKeyimage mainnet 1 705) fun r ↦ r.1 = 5000000) = true := by
    decide +kernel
  obtain ⟨s, happly, htest⟩ := yields_iff.1 hrun
  obtain ⟨r, hadd, hamount⟩ := yields_iff.1 htest
  obtain ⟨s₁, hblock, hnil⟩ := WalletStateBasic.applyBlocks_cons.1 happly
  obtain rfl := Except.ok.inj hnil
  obtain ⟨removed, hremoves, hiff⟩ :=
    (prediction_iff (.apply samplePaidBlock .start hblock)).1 705 (by decide) 1 r hadd
  exact ⟨s₁, r, removed, hadd, of_decide_eq_true hamount, hremoves, hiff⟩

end WalletRun

end Naza
