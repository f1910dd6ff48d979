import Naza.Wallet.Builder
import Naza.Wallet.SendProofText

/-!
# Send proofs

`WalletState::api_create_proof` and `Node::handle_check_sendproof3`: that a transaction pays to an
address, said by who has made it and checked by a node that has it.
-/

open Lib

namespace Naza

namespace SendProof

variable {P : Type} [AddCommGroup P] (cv : Curve P)

/-- The loop over the outputs, of which all have keys: what is paid to the spend key. -/
def totalAmount (derivation : KeyDerivation) (spendPublicKey : PublicKey) :
    ℕ → List TransactionOutput → Amount → Amount
  | _, [], total => total
  | keyIndex, output :: outputs, total =>
    let total :=
      if cv.underivePublicKey derivation keyIndex output.key = some spendPublicKey then
        total + output.amount
      else total
    totalAmount derivation spendPublicKey (keyIndex + 1) outputs total

/-- `api_create_proof` on the transaction that it has read: none where it answers `false`. -/
def create (txDerivationSeed : Hash) (draw : Bytes) (tx : TransactionPrefix) (sp : SendProof) :
    Option SendProof :=
  let txKeys := TransactionBuilder.deterministicKeysFromSeed cv tx.inputs txDerivationSeed
  match cv.generateKeyDerivation sp.address.1 txKeys.secretKey with
  | none => none
  | some derivation =>
    match cv.generateSendproof txKeys.publicKey txKeys.secretKey sp.address.1 derivation
      (cv.cnFastHash sp.message) draw with
    | none => none
    | some signature =>
      let amount := totalAmount cv derivation sp.address.2 0 tx.outputs 0
      if amount = 0 then none else some { sp with derivation, signature, amount }

/-- What a request is refused with. -/
structure Error where
  code : ℤ
  message : String
  deriving DecidableEq

/-- What the exception says is left out. -/
def failedToParse : Error := ⟨-201, "Failed to parse proof object ex.what="⟩

def notInMainChain : Error := ⟨-202, "Transaction is not in main chain"⟩

def wrongSignature : Error :=
  ⟨-203, "Proof object does not match transaction or was tampered with"⟩

def addressNotInTransaction : Error :=
  ⟨-204, "No outputs found in transaction for the address being proofed"⟩

def wrongAmount (total : Amount) : Error :=
  ⟨-205, "Wrong amount in outputs, actual amount is " ++ toString total⟩

variable (cnSlowHash cnLiteSlowHashV1 : BinaryArray → Hash) {R : Type} (io : DoubleText R)

/-- `handle_check_sendproof3`. -/
def handleCheck [DecidableEq P] (readTransaction : Hash → Option TransactionPrefix)
    (sendproof : Bytes) : Except Error Unit :=
  match ofText (cv.crypto cnSlowHash cnLiteSlowHashV1) io sendproof with
  | none => .error failedToParse
  | some sp =>
    match readTransaction sp.transactionHash with
    | none => .error notInMainChain
    | some tx =>
      if cv.checkSendproof (getTransactionPublicKeyFromExtra tx.extra) sp.address.1 sp.derivation
        (cv.cnFastHash sp.message) sp.signature = false then
        .error wrongSignature
      else
        let total := totalAmount cv sp.derivation sp.address.2 0 tx.outputs 0
        if total = 0 then .error addressNotInTransaction
        else if total ≠ sp.amount then .error (wrongAmount total)
        else .ok ()

variable {cv}

/-- Amounts of outputs only add to what there is, as long as they fit. -/
theorem le_totalAmount {derivation : KeyDerivation} {spendPublicKey : PublicKey}
    {outputs : List TransactionOutput} {keyIndex : ℕ} {total : Amount}
    (hsum : total.toNat + (outputs.map fun output ↦ output.amount.toNat).sum < 2 ^ 64) :
    total ≤ totalAmount cv derivation spendPublicKey keyIndex outputs total := by
  induction outputs generalizing keyIndex total with
  | nil => exact UInt64.le_refl _
  | cons output outputs ih =>
    rw [List.map_cons, List.sum_cons] at hsum
    rw [totalAmount]
    split
    · have hadd : (total + output.amount).toNat = total.toNat + output.amount.toNat := by
        rw [UInt64.toNat_add, Nat.mod_eq_of_lt (by omega)]
      refine UInt64.le_trans ?_ (ih (by rw [hadd]; omega))
      rw [UInt64.le_iff_toNat_le, hadd]
      exact Nat.le_add_right _ _
    · exact ih (by omega)

/-- An amount paid to the key is not lost. -/
theorem totalAmount_ne_zero {derivation : KeyDerivation} {spendPublicKey : PublicKey}
    {outputs : List TransactionOutput} {keyIndex k : ℕ} {output : TransactionOutput}
    (houtput : outputs[k]? = some output) (hamount : output.amount ≠ 0)
    (hkey : cv.underivePublicKey derivation (keyIndex + k) output.key = some spendPublicKey)
    {total : Amount}
    (hsum : total.toNat + (outputs.map fun output ↦ output.amount.toNat).sum < 2 ^ 64) :
    totalAmount cv derivation spendPublicKey keyIndex outputs total ≠ 0 := by
  induction outputs generalizing keyIndex k total with
  | nil => cases houtput
  | cons first outputs ih =>
    rw [List.map_cons, List.sum_cons] at hsum
    have hadd : (total + first.amount).toNat = total.toNat + first.amount.toNat := by
      rw [UInt64.toNat_add, Nat.mod_eq_of_lt (by omega)]
    cases k with
    | zero =>
      obtain rfl := Option.some.inj houtput
      rw [add_zero] at hkey
      rw [totalAmount, if_pos hkey]
      have hle := @le_totalAmount P _ cv derivation spendPublicKey outputs (keyIndex + 1)
        (total + first.amount) (by rw [hadd]; omega)
      intro hzero
      rw [hzero, UInt64.le_iff_toNat_le, hadd] at hle
      have hpos := UInt64.toNat_inj.ne.2 hamount
      rw [UInt64.toNat_zero] at hle hpos
      omega
    | succ k =>
      rw [totalAmount]
      rw [show keyIndex + (k + 1) = keyIndex + 1 + k by ring] at hkey
      split
      · exact ih houtput hkey (by rw [hadd]; omega)
      · exact ih houtput hkey (by omega)

/-- What is paid to a key is found by underiving it. -/
theorem exists_underivePublicKey_of_totalAmount_ne {derivation : KeyDerivation}
    {spendPublicKey : PublicKey} {outputs : List TransactionOutput} {keyIndex : ℕ} {total : Amount}
    (h : totalAmount cv derivation spendPublicKey keyIndex outputs total ≠ total) :
    ∃ index key, cv.underivePublicKey derivation index key = some spendPublicKey := by
  induction outputs generalizing keyIndex total with
  | nil => exact absurd rfl h
  | cons output outputs ih =>
    rw [totalAmount] at h
    by_cases hkey : cv.underivePublicKey derivation keyIndex output.key = some spendPublicKey
    · exact ⟨keyIndex, output.key, hkey⟩
    · simp only [hkey, if_false] at h
      exact ih h

/-- The address of a proof that was created consists of two points. -/
theorem keyIsvalid_of_create [DecidableEq P] {seed : Hash} {draw : Bytes} {tx : TransactionPrefix}
    {sp sp' : SendProof} (h : create cv seed draw tx sp = some sp') :
    cv.keyIsvalid sp'.address.1 = true ∧ cv.keyIsvalid sp'.address.2 = true := by
  rw [create] at h
  dsimp only at h
  split at h
  · cases h
  next derivation hderivation =>
  split at h
  · cases h
  next signature hsignature =>
  split at h
  · cases h
  next hamount =>
  obtain rfl := Option.some.inj h
  constructor
  · obtain ⟨point, hpoint, -⟩ := Option.map_eq_some_iff.1 hderivation
    rw [Curve.keyIsvalid, hpoint, Option.isSome_some]
  · obtain ⟨index, key, hkey⟩ := exists_underivePublicKey_of_totalAmount_ne hamount
    obtain ⟨point, -, hspend⟩ := Option.map_eq_some_iff.1 hkey
    rw [← hspend]
    exact cv.keyIsvalid_geTobytes _

/-- A proof that the sender of a transaction creates is accepted as the text in which it travels,
unless its message has the character that no node's reader accepts.  One is created for every
address that the transaction pays something to, as long as the amounts of the outputs fit
64 bits. -/
theorem handleCheck_create [DecidableEq P] {b : TransactionBuilder}
    (h : TransactionBuilder.Built cv b)
    {shuffleOutputs : List TransactionBuilder.OutputDesc → List TransactionBuilder.OutputDesc}
    {shuffleInputs : List TransactionBuilder.InputDesc → List TransactionBuilder.InputDesc}
    (hshuffleOutputs : ∀ descs, (shuffleOutputs descs).Perm descs)
    (hshuffleInputs : ∀ descs, (shuffleInputs descs).Perm descs) (draws : ℕ → ℕ → Bytes)
    (seed : Hash) :
    ∃ tx, TransactionBuilder.sign cv shuffleOutputs shuffleInputs draws b seed = .ok tx ∧
      ∀ readTransaction sp, readTransaction sp.transactionHash = some tx.toTransactionPrefix →
        ∀ draw,
          (∀ sp', create cv seed draw tx.toTransactionPrefix sp = some sp' →
            handleCheck cv cnSlowHash cnLiteSlowHashV1 io readTransaction
                (toText (cv.crypto cnSlowHash cnLiteSlowHashV1) io sp') =
              if sp.message.contains 0x7F then .error failedToParse else .ok ()) ∧
          ((∃ desc ∈ b.outputDescs, desc.addr = sp.address ∧ desc.amount ≠ 0) →
            (b.outputDescs.map fun desc ↦ desc.amount.toNat).sum < 2 ^ 64 →
            (create cv seed draw tx.toTransactionPrefix sp).isSome = true) := by
  obtain ⟨tx, inputDescs, outputDescs, hsign, hsigned⟩ := h.ready.sign hshuffleOutputs
    hshuffleInputs draws seed
  refine ⟨tx, hsign, fun readTransaction sp hread draw ↦ ⟨fun sp' hsp' ↦ ?_, ?_⟩⟩
  · obtain ⟨hview, hspend⟩ := keyIsvalid_of_create hsp'
    have htext := @ofText_toText _ (cv.crypto cnSlowHash cnLiteSlowHashV1) io sp' hview hspend
    rw [create] at hsp'
    simp only [TransactionBuilder.deterministicKeysFromSeed, hsigned.publicKey,
      Option.getD_some] at hsp'
    split at hsp'
    · cases hsp'
    next derivation hderivation =>
    split at hsp'
    · cases hsp'
    next signature hsignature =>
    split at hsp'
    · cases hsp'
    next hamount =>
    obtain rfl := Option.some.inj hsp'
    obtain ⟨proof, hproof, hcheck⟩ := cv.checkSendproof_generateSendproof hsigned.publicKey
      hderivation (cv.cnFastHash sp.message) draw
    rw [hproof, Option.some_inj] at hsignature
    obtain rfl := hsignature
    rw [handleCheck, htext]
    cases sp.message.contains 0x7F with
    | true => rfl
    | false =>
      simp only [Bool.false_eq_true, if_false, hread, hcheck, Bool.true_eq_false, hamount, ne_eq,
        not_true_eq_false]
  · rintro ⟨desc, hdesc, haddr, hamount⟩ hsum
    obtain ⟨keys, hlength, houtputs, hderived⟩ := hsigned.outputs
    obtain ⟨k, hk, hget⟩ := List.getElem_of_mem (hsigned.outputPerm.mem_iff.2 hdesc)
    have hget : outputDescs[k]? = some desc := List.getElem?_eq_some_iff.2 ⟨hk, hget⟩
    obtain ⟨key, hkey⟩ : ∃ key, keys[k]? = some key :=
      ⟨_, List.getElem?_eq_getElem (hlength ▸ hk)⟩
    obtain ⟨derivation, hderivation, hderive⟩ :=
      Option.bind_eq_some_iff.1 (hderived k desc key hget hkey)
    have houtput : tx.outputs[k]? = some ⟨desc.amount, .keyOutput ⟨key⟩⟩ := by
      rw [houtputs, List.getElem?_zipWith, hget, hkey]
    have hsum' : (0 : Amount).toNat +
        (tx.outputs.map fun output ↦ output.amount.toNat).sum < 2 ^ 64 := by
      have hmap : tx.outputs.map (fun output ↦ output.amount.toNat) =
          outputDescs.map fun desc ↦ desc.amount.toNat := by
        have hamounts := congrArg (List.map UInt64.toNat)
          (TransactionBuilder.map_amount_zipWith hlength)
        rw [← houtputs, List.map_map, List.map_map] at hamounts
        exact hamounts
      have hzero : (0 : Amount).toNat = 0 := rfl
      rwa [hmap, (hsigned.outputPerm.map _).sum_eq, hzero, zero_add]
    have hne := totalAmount_ne_zero houtput hamount (by
      rw [zero_add]
      exact Curve.underivePublicKey_eq_some_iff.2 hderive) hsum'
    obtain ⟨proof, hproof, -⟩ := cv.checkSendproof_generateSendproof hsigned.publicKey
      hderivation (cv.cnFastHash sp.message) draw
    rw [haddr] at hderivation hproof hne
    rw [create]
    simp only [TransactionBuilder.deterministicKeysFromSeed, hsigned.publicKey, Option.getD_some,
      hderivation, hproof, hne, if_false, Option.isSome_some]

open TransactionBuilder in
theorem handleCheck_create_sampleBuilder :
    let io : DoubleText Unit := ⟨fun _ ↦ [], fun _ ↦ ()⟩
    ∃ tx sp', sign Curve.numbers id id (fun _ _ ↦ []) sampleBuilder 9 = .ok tx ∧
      create Curve.numbers 9 [] tx.toTransactionPrefix
        { address := sampleKeys.address, message := Json.text "order 7" } = some sp' ∧
      handleCheck Curve.numbers (fun _ ↦ 0) (fun _ ↦ 0) io (fun _ ↦ some tx.toTransactionPrefix)
        (toText (Curve.numbers.crypto (fun _ ↦ 0) fun _ ↦ 0) io sp') = .ok () := by
  intro io
  obtain ⟨tx, hsign, h⟩ := handleCheck_create (fun _ ↦ 0) (fun _ ↦ 0) io built_sampleBuilder
    (fun _ ↦ .refl _) (fun _ ↦ .refl _) (fun _ _ ↦ []) 9
  obtain ⟨haccepted, hcreated⟩ := h (fun _ ↦ some tx.toTransactionPrefix)
    { address := sampleKeys.address, message := Json.text "order 7" } rfl []
  have houtputs : sampleBuilder.outputDescs = [⟨90, sampleKeys.address⟩] := by
    obtain ⟨desc, -, -, hb⟩ := signable_of_addInput owned_sampleReal sampleOthers_valid
      addInput_sampleBuilder
    rw [hb]
    rfl
  obtain ⟨sp', hsp'⟩ := Option.isSome_iff_exists.1 (hcreated
    ⟨⟨90, sampleKeys.address⟩, by rw [houtputs]; exact List.mem_singleton_self _, rfl, by decide⟩
    (by rw [houtputs]; decide))
  exact ⟨tx, sp', hsign, hsp', haccepted sp' hsp'⟩

end SendProof

end Naza
