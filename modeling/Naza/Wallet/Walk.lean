import Naza.Lib.Ends
import Naza.Wallet.Redo

/-!
# What block processing keeps

`redo_block` only writes through four operations of the wallet database.  What these keep, and the
errors they do not raise, is kept and not raised by every block.
-/

open Lib

namespace Naza

/-- An output as block processing hands it to the database. -/
structure Received (wc : WalletCrypto) (blockHeight : Height) (o : Api.Output) : Prop where
  address : ∃ a, o.address = wc.accountAddressAsString a
  height : o.height = blockHeight
  dust : o.dust = isDust o.amount

/-- `I` is kept, and no `bad` error raised, by the operations that block processing uses. -/
structure KeptByOperations (wc : WalletCrypto) (c : Currency) (bad : WalletFault → Prop)
    (I : WalletTables → Prop) : Prop where
  exception : ∀ f, ¬ bad (.exception f)
  addIncomingOutput : ∀ height o t, Received wc height o → I t →
    Ends (fun r ↦ I r.2) bad (t.addIncomingOutput c o false)
  addIncomingKeyimage : ∀ height keyImage t, I t →
    Ends (fun r ↦ I r.2) bad (t.addIncomingKeyimage c height keyImage)
  unlock : ∀ height now t, I t → Ends I bad (t.unlock c height now)
  addTransaction : ∀ height tid tx ptx t, I t → Ends I bad (t.addTransaction height tid tx ptx)

/-- The same of one height, which the operations of a block share. -/
structure KeptAt (wc : WalletCrypto) (c : Currency) (height : Height) (bad : WalletFault → Prop)
    (I : WalletTables → Prop) : Prop where
  exception : ∀ f, ¬ bad (.exception f)
  addIncomingOutput : ∀ o t, Received wc height o → I t →
    Ends (fun r ↦ I r.2) bad (t.addIncomingOutput c o false)
  addIncomingKeyimage : ∀ keyImage t, I t →
    Ends (fun r ↦ I r.2) bad (t.addIncomingKeyimage c height keyImage)
  unlock : ∀ now t, I t → Ends I bad (t.unlock c height now)
  addTransaction : ∀ tid tx ptx t, I t → Ends I bad (t.addTransaction height tid tx ptx)

theorem KeptByOperations.keptAt {wc : WalletCrypto} {c : Currency} {bad : WalletFault → Prop}
    {I : WalletTables → Prop} (h : KeptByOperations wc c bad I) (height : Height) :
    KeptAt wc c height bad I where
  exception := h.exception
  addIncomingOutput := h.addIncomingOutput height
  addIncomingKeyimage := h.addIncomingKeyimage height
  unlock := h.unlock height
  addTransaction := h.addTransaction height

variable {wc : WalletCrypto} {c : Currency} {w : WalletKeys} {bad : WalletFault → Prop}

theorem ends_throwing (hbad : ∀ f, ¬ bad (.exception f)) {α : Type} (x : Except Fault α) :
    Ends (fun a ↦ x = .ok a) bad (throwing x) := by
  cases x with
  | ok a => exact rfl
  | error f => exact hbad f

theorem ends_walletWrite (hbad : ∀ f, ¬ bad (.exception f)) {α : Type} (x : Except StoreError α) :
    Ends (fun a ↦ x = .ok a) bad (walletWrite x) := by
  cases x with
  | ok a => exact rfl
  | error f => exact hbad _

namespace WalletState

/-! ## Reading -/

/-- The outputs collected for the wallet's own addresses are ones to be received. -/
def ParsedOutputs.Own (wc : WalletCrypto) (blockHeight : Height) (parsed : ParsedOutputs) : Prop :=
  ∀ address transfer, parsed.ours.get address = some transfer →
    ∀ o ∈ transfer.outputs, Received wc blockHeight o

theorem TransferMap.outputs_addOutput {transfers : TransferMap} {address a : AccountPublicAddress}
    {delta : Option Amount} {out : Api.Output} {transfer : Api.Transfer}
    (h : (TransferMap.addOutput wc transfers address delta out).get a = some transfer)
    {o : Api.Output} (ho : o ∈ transfer.outputs) :
    o = out ∨ ∃ transfer', transfers.get a = some transfer' ∧ o ∈ transfer'.outputs := by
  have hold : ∀ o ∈ ((transfers.get address).getD {}).outputs,
      ∃ transfer', transfers.get address = some transfer' ∧ o ∈ transfer'.outputs := by
    intro o ho
    cases hget : transfers.get address with
    | none =>
      rw [hget] at ho
      cases ho
    | some transfer' =>
      rw [hget] at ho
      exact ⟨transfer', rfl, ho⟩
  unfold TransferMap.addOutput at h
  rw [Store.get_put] at h
  split at h
  · next heq =>
    subst heq
    rw [← Option.some.inj h] at ho
    cases delta with
    | none => exact .inr (hold o ho)
    | some delta =>
      rcases List.mem_append.1 ho with ho | ho
      · exact .inr (hold o ho)
      · exact .inl (List.mem_singleton.1 ho)
  · exact .inr ⟨transfer, h, ho⟩

theorem parseOurOutput_own {t : WalletTables} {rec : WalletRecord} {ephemeral : PublicKey}
    {derivation : KeyDerivation} {spendKey : PublicKey} {tx : TransactionPrefix}
    {output : TransactionOutput} {outIndex : ℕ} {globalIndex : UInt32} {blockHeight : Height}
    {parsed : ParsedOutputs} (h : parsed.Own wc blockHeight) :
    (parseOurOutput wc w t rec ephemeral derivation spendKey
      (recordedOutput tx output outIndex globalIndex blockHeight) outIndex parsed).Own wc
        blockHeight := by
  intro address transfer hget o ho
  rcases TransferMap.outputs_addOutput hget ho with rfl | ⟨transfer', hget', ho'⟩
  · exact ⟨⟨_, rfl⟩, rfl, rfl⟩
  · exact h address transfer' hget' o ho'

theorem parseTheirOutput_ours {tx : TransactionPrefix} {history : List AccountPublicAddress}
    {key : PublicKey} {out : Api.Output} {outIndex : ℕ} {parsed : ParsedOutputs} :
    (parseTheirOutput wc w tx history key out outIndex parsed).ours = parsed.ours := by
  rw [parseTheirOutput]
  induction history generalizing parsed with
  | nil => rfl
  | cons addr history ih =>
    rw [List.foldl_cons, ih]
    dsimp only
    split <;> rfl

theorem parseOutput_own (hbad : ∀ f, ¬ bad (.exception f)) {t : WalletTables}
    {pwtx : PreparedWalletTransaction} {history : List AccountPublicAddress}
    {globalIndices : List UInt32} {blockHeight : Height} {parsed : ParsedOutputs} (outIndex : ℕ)
    (output : TransactionOutput) (h : parsed.Own wc blockHeight) :
    Ends (ParsedOutputs.Own wc blockHeight) bad
      (parseOutput wc w t pwtx history globalIndices blockHeight parsed outIndex output) := by
  rw [parseOutput]
  refine (ends_throwing hbad _).bind fun spendKey _ ↦ (ends_throwing hbad _).bind fun index _ ↦ ?_
  rw [Ends.pure_iff]
  split
  · exact parseOurOutput_own h
  · intro address transfer hget
    rw [parseTheirOutput_ours] at hget
    exact h address transfer hget

theorem readLocked_ends (hbad : ∀ f, ¬ bad (.exception f)) (t : WalletTables)
    (unlockTime : UnlockMoment) (amount : Amount) (globalIndex : UInt32) :
    Ends (fun _ ↦ True) bad (t.readLocked c unlockTime amount globalIndex) :=
  (ends_throwing hbad _).mono fun _ _ ↦ trivial

theorem tryAddingIncomingKeyimage_ends (hbad : ∀ f, ¬ bad (.exception f)) (t : WalletTables)
    (keyImage : KeyImage) : Ends (fun _ ↦ True) bad (t.tryAddingIncomingKeyimage c keyImage) := by
  refine Ends.foldlM (fun spending _ e _ ↦ ?_) trivial
  cases spending with
  | none =>
    dsimp only
    exact (readLocked_ends hbad t _ _ _).bind fun _ _ ↦ trivial
  | some spendingOutput =>
    dsimp only
    split
    · trivial
    · exact (readLocked_ends hbad t _ _ _).bind fun _ _ ↦ trivial

theorem parseInput_ends (hbad : ∀ f, ¬ bad (.exception f)) (t : WalletTables)
    (parsed : ParsedInputs) (input : KeyInput) :
    Ends (fun _ ↦ True) bad (parseInput c t parsed input) := by
  rw [parseInput]
  refine (tryAddingIncomingKeyimage_ends hbad t input.keyImage).bind fun found _ ↦ ?_
  cases found <;> trivial

/-- Every own transfer of a transaction that was read holds outputs to be received. -/
theorem parseOutputs_own (hbad : ∀ f, ¬ bad (.exception f)) (t : WalletTables)
    (pwtx : PreparedWalletTransaction) (tid : Hash) (globalIndices : List UInt32)
    (blockHeight : Height) :
    Ends (ParsedOutputs.Own wc blockHeight) bad (pwtx.tx.outputs.zipIdx.foldlM
      (fun parsed (output, outIndex) ↦ parseOutput wc w t pwtx (w.loadHistory tid) globalIndices
        blockHeight parsed outIndex output) {}) := by
  refine Ends.foldlM (fun parsed h e _ ↦ parseOutput_own hbad e.2 e.1 h) ?_
  intro address transfer hget
  cases hget

theorem parseRawTransaction_ends (hbad : ∀ f, ¬ bad (.exception f)) (t : WalletTables)
    (pwtx : PreparedWalletTransaction) (tid : Hash) (globalIndices : List UInt32)
    (blockHeight : Height) :
    Ends (fun parsed ↦ ∀ p, parsed = some p → ∀ transfer ∈ p.ptx.transfers, transfer.ours = true →
        ∀ o ∈ transfer.outputs, Received wc blockHeight o) bad
      (parseRawTransaction wc c w t pwtx tid globalIndices blockHeight) := by
  rw [parseRawTransaction]
  split
  · rintro p ⟨⟩
  · refine (parseOutputs_own hbad t pwtx tid globalIndices blockHeight).bind
      fun outputs houtputs ↦ ?_
    refine (Ends.foldlM (I := fun _ ↦ True)
      (fun parsed _ input _ ↦ parseInput_ends hbad t parsed input) trivial).bind fun inputs _ ↦ ?_
    rw [Ends.pure_iff]
    split
    · rintro p hp transfer htransfer hours o ho
      rw [← Option.some.inj hp] at htransfer
      rcases List.mem_append.1 htransfer with hmem | hmem
      · obtain ⟨e, -, rfl⟩ := List.mem_map.1 (List.mem_filter.1 hmem).1
        cases hours
      · obtain ⟨⟨address, transfer'⟩, hentry, rfl⟩ := List.mem_map.1 (List.mem_filter.1 hmem).1
        exact houtputs address transfer' (Store.mem_toList_iff.1 hentry) o ho
    · rintro p ⟨⟩

/-! ## Writing -/

variable {I : WalletTables → Prop}

theorem receiveOutputs_ends {height : Height} (h : KeptAt wc c height bad I)
    {outputs : List Api.Output} (hreceived : ∀ o ∈ outputs, Received wc height o)
    {t : WalletTables} (ht : I t) :
    Ends (fun r : List Api.Output × WalletTables ↦ I r.2) bad
      (outputs.foldlM (fun (received, t) out ↦ do
        let (adjustedAmount, t) ← t.addIncomingOutput c out false
        return (received ++ [{ out with amount := adjustedAmount }], t))
        (([] : List Api.Output), t)) := by
  refine Ends.foldlM (fun r hr o ho ↦ ?_) ht
  refine (h.addIncomingOutput o r.2 (hreceived o ho) hr).bind fun r' hr' ↦ ?_
  exact hr'

theorem receiveTransfer_ends {height : Height} (h : KeptAt wc c height bad I)
    {transfer : Api.Transfer} (hreceived : ∀ o ∈ transfer.outputs, Received wc height o)
    {t : WalletTables} (ht : I t) : Ends (fun r ↦ I r.2) bad (receiveTransfer c transfer t) := by
  rw [receiveTransfer]
  exact (receiveOutputs_ends h hreceived ht).bind fun r hr ↦ hr

theorem receiveTransfers_ends {height : Height} (h : KeptAt wc c height bad I)
    {transfers : List Api.Transfer}
    (hreceived : ∀ transfer ∈ transfers, transfer.ours = true →
      ∀ o ∈ transfer.outputs, Received wc height o) {t : WalletTables} (ht : I t) :
    Ends (fun r : List Api.Transfer × WalletTables ↦ I r.2) bad
      (transfers.foldlM (fun (done, t) transfer ↦ do
        if transfer.ours then
          let (transfer, t) ← receiveTransfer c transfer t
          return (done ++ [transfer], t)
        else return (done ++ [transfer], t)) (([] : List Api.Transfer), t)) := by
  refine Ends.foldlM (fun r hr transfer hmem ↦ ?_) ht
  dsimp only
  split
  · next hours =>
    exact (receiveTransfer_ends h (hreceived transfer hmem hours) hr).bind fun _ hr' ↦ hr'
  · exact hr

theorem spendOutputs_ends {height : Height} (h : KeptAt wc c height bad I)
    (outputs : List Api.Output) {t : WalletTables} (ht : I t) :
    Ends I bad (outputs.foldlM
      (fun t out ↦ do
        let (_, t) ← t.addIncomingKeyimage c height out.keyImage
        return t) t) :=
  Ends.foldlM (fun t ht out _ ↦ (h.addIncomingKeyimage out.keyImage t ht).bind
    fun _ ht' ↦ Ends.pure_iff.2 ht') ht

theorem redoTransaction_ends {height : Height} (h : KeptAt wc c height bad I)
    (pwtx : PreparedWalletTransaction) (globalIndices : List UInt32) (isBase : Bool) (tid : Hash)
    (bid : Hash) (timestamp : Timestamp) {t : WalletTables} (ht : I t) :
    Ends I bad (redoTransaction wc c w pwtx globalIndices isBase tid height bid timestamp t) := by
  rw [redoTransaction]
  refine (parseRawTransaction_ends h.exception t pwtx tid globalIndices height).bind
    fun parsed hparsed ↦ ?_
  cases parsed with
  | none => exact ht
  | some parsed =>
    refine (receiveTransfers_ends h (hparsed parsed rfl) ht).bind fun r hr ↦ ?_
    exact (spendOutputs_ends h _ hr).bind fun t ht ↦ h.addTransaction _ _ _ t ht

theorem redoTransactions_ends {height : Height} (h : KeptAt wc c height bad I)
    (header : Api.BlockHeader) (timestamp : Timestamp) :
    ∀ (pwtxs : List PreparedWalletTransaction) (tids : List Hash) (indices : List (List UInt32))
      {t : WalletTables}, I t →
        Ends I bad (redoTransactions wc c w header height timestamp pwtxs tids indices t)
  | [], _, _, _, ht => by
    rw [redoTransactions]
    exact ht
  | pwtx :: pwtxs, tid :: tids, index :: rest, _, ht => by
    rw [redoTransactions]
    exact (redoTransaction_ends h pwtx index false tid header.hash timestamp ht).bind
      fun _ ht' ↦ redoTransactions_ends h header timestamp pwtxs tids rest ht'
  | _ :: _, [], _, _, _ => (ends_throwing h.exception _).mono (by rintro _ ⟨⟩)
  | _ :: _, _ :: _, [], _, _ => (ends_throwing h.exception _).mono (by rintro _ ⟨⟩)

/-- A block keeps what the operations keep at its height. -/
theorem redoBlock_ends {height : Height} (h : KeptAt wc c height bad I) (header : Api.BlockHeader)
    (pb : PreparedWalletBlock) (globalIndices : List (List UInt32)) {t : WalletTables} (ht : I t) :
    Ends I bad (redoBlock wc c w header pb globalIndices height t) := by
  cases globalIndices with
  | nil => exact ht
  | cons baseIndices globalIndices =>
    rw [redoBlock]
    split
    · exact ht
    · exact (redoTransaction_ends h _ _ _ _ _ _ ht).bind fun _ ht' ↦
        (redoTransactions_ends h _ _ _ _ _ ht').bind fun t'' ht'' ↦ h.unlock _ t'' ht''

end WalletState

end Naza
