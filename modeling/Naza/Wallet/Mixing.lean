import Naza.Wallet.Builder

/-!
# Mixing inputs

`UnspentSelector::add_mixed_inputs`: the outputs of others that a ring is filled with.  The one
nearest to the real output leaves the ring for it.
-/

open Lib

namespace Naza

namespace UnspentSelector

/-- `abs` of a difference of `int`s. -/
def distance (a b : UInt32) : Int32 :=
  let difference := a.toInt32 - b.toInt32
  if difference < 0 then -difference else difference

/-- One round of the loop that looks for `best_index`, with `best_distance`. -/
def better (i : ℕ) (d : Int32) : Option (ℕ × Int32) → Option (ℕ × Int32)
  | none => some (i, d)
  | some (bestIndex, bestDistance) =>
    if d < bestDistance then some (i, d) else some (bestIndex, bestDistance)

/-- The loop that looks for `best_index`. -/
def bestFrom (globalIndex : UInt32) :
    ℕ → List Api.Output → Option (ℕ × Int32) → Option (ℕ × Int32)
  | _, [], best => best
  | i, out :: outs, best =>
    bestFrom globalIndex (i + 1) outs (better i (distance globalIndex out.globalIndex) best)

/-- The loop that takes outputs from the back of those of an amount. -/
def popMix : ℕ → List Api.Output → Option (List Api.Output × List Api.Output)
  | 0, raOutputs => some ([], raOutputs)
  | n + 1, raOutputs =>
    match raOutputs.getLast? with
    | none => none
    | some out =>
      match popMix n raOutputs.dropLast with
      | none => none
      | some (mixOutputs, raOutputs) => some (out :: mixOutputs, raOutputs)

/-- The outputs sorted and without repetitions, less the one nearest to the real output. -/
def mix (globalIndex : UInt32) (mixOutputs : List Api.Output) : Option (List Api.Output) :=
  let mixOutputs := (mixOutputs.mergeSort TransactionBuilder.globalIndexLe).destutter
    fun a b ↦ a.globalIndex ≠ b.globalIndex
  (bestFrom globalIndex 0 mixOutputs none).map fun best ↦ mixOutputs.eraseIdx best.1

variable {P : Type} [AddCommGroup P] (cv : Curve P)
  (parseAccountAddressString : String → Option AccountPublicAddress)
  (walletRecords : Store PublicKey WalletRecord) (viewSecretKey : SecretKey) (anonymity : UInt32)

/-- One round of `add_mixed_inputs`. -/
def addMixedInput (uu : Api.Output) (raOutputs : Amount → List Api.Output)
    (builder : TransactionBuilder) :
    Except String (TransactionBuilder × (Amount → List Api.Output)) :=
  match popMix (anonymity + 1).toNat (raOutputs uu.amount) with
  | none => .error ("Not enough anonymity for amount " ++ toString uu.amount)
  | some (mixOutputs, rest) =>
    match mix uu.globalIndex mixOutputs with
    | none => .error ""
    | some mixOutputs =>
      match parseAccountAddressString uu.address with
      | none => .error ("Could not parse address " ++ uu.address)
      | some address =>
        match walletRecords.get address.2 with
        | none => .error ("No keys in wallet for address " ++ uu.address)
        | some rec =>
          if rec.spendPublicKey ≠ address.2 then
            .error ("No keys in wallet for address " ++ uu.address)
          else
            (builder.addInput cv ⟨address, rec.spendSecretKey, viewSecretKey⟩ uu mixOutputs).map
              fun builder ↦ (builder, Function.update raOutputs uu.amount rest)

/-- `add_mixed_inputs`. -/
def addMixedInputs : List Api.Output → (Amount → List Api.Output) → TransactionBuilder →
    Except String TransactionBuilder
  | [], _, builder => .ok builder
  | uu :: uus, raOutputs, builder =>
    match addMixedInput cv parseAccountAddressString walletRecords viewSecretKey anonymity uu
      raOutputs builder with
    | .error error => .error error
    | .ok (builder, raOutputs) => addMixedInputs uus raOutputs builder

/-! ## The nearest output -/

theorem toInt_distance {a b : UInt32} (ha : a.toNat < 2 ^ 31) (hb : b.toNat < 2 ^ 31) :
    (distance a b).toInt = |(a.toNat : ℤ) - b.toNat| := by
  have hinj : ∀ x : UInt32, x.toNat < 2 ^ 31 → x.toInt32.toInt = x.toNat := fun x hx ↦
    BitVec.toInt_eq_toNat_of_lt (show 2 * x.toNat < 2 ^ 32 by omega)
  have hsub : (a.toInt32 - b.toInt32).toInt = (a.toNat : ℤ) - b.toNat := by
    rw [Int32.toInt_sub, hinj a ha, hinj b hb]
    exact Int.bmod_eq_of_le (by omega) (by omega)
  rw [distance]
  simp only [Int32.lt_iff_toInt_lt, hsub]
  split
  · next hneg =>
    rw [Int32.toInt_neg, hsub, abs_of_neg (by simpa using hneg)]
    exact Int.bmod_eq_of_le (by omega) (by omega)
  · next hpos =>
    rw [hsub, abs_of_nonneg (by simpa using hpos)]

/-- An index of a list with the least distance, and the distance. -/
def Nearest (globalIndex : UInt32) (outputs : List Api.Output) (i : ℕ) (d : Int32) : Prop :=
  ∃ out, outputs[i]? = some out ∧ d = distance globalIndex out.globalIndex ∧
    ∀ other ∈ outputs, d ≤ distance globalIndex other.globalIndex

theorem Nearest.append {globalIndex : UInt32} {done : List Api.Output} {i : ℕ} {d : Int32}
    (h : Nearest globalIndex done i d) {out : Api.Output}
    (hle : d ≤ distance globalIndex out.globalIndex) :
    Nearest globalIndex (done ++ [out]) i d := by
  obtain ⟨nearest, hget, hd, hmin⟩ := h
  refine ⟨nearest, ?_, hd, fun other hother ↦ ?_⟩
  · rw [List.getElem?_append_left (List.getElem?_eq_some_iff.1 hget).1, hget]
  · obtain hother | hother := List.mem_append.1 hother
    · exact hmin other hother
    · rw [List.mem_singleton.1 hother]
      exact hle

theorem nearest_last {globalIndex : UInt32} {done : List Api.Output} {out : Api.Output}
    (h : ∀ other ∈ done,
      distance globalIndex out.globalIndex ≤ distance globalIndex other.globalIndex) :
    Nearest globalIndex (done ++ [out]) done.length (distance globalIndex out.globalIndex) := by
  refine ⟨out, by simp, rfl, fun other hother ↦ ?_⟩
  obtain hother | hother := List.mem_append.1 hother
  · exact h other hother
  · rw [List.mem_singleton.1 hother]
    exact Int32.le_refl _

/-- The loop finds a nearest output of what it has seen and of what is to come. -/
theorem bestFrom_eq {globalIndex : UInt32} {done outs : List Api.Output}
    {best : Option (ℕ × Int32)} (hnone : best = none → done = [])
    (hsome : ∀ i d, best = some (i, d) → Nearest globalIndex done i d) :
    ∀ i d, bestFrom globalIndex done.length outs best = some (i, d) →
      Nearest globalIndex (done ++ outs) i d := by
  induction outs generalizing done best with
  | nil => simpa [bestFrom] using hsome
  | cons out outs ih =>
    have hnext : ∀ best', (∀ i d, best' = some (i, d) → Nearest globalIndex (done ++ [out]) i d) →
        best' ≠ none → ∀ i d, bestFrom globalIndex (done.length + 1) outs best' = some (i, d) →
          Nearest globalIndex (done ++ out :: outs) i d := by
      intro best' hbest' hne i d hi
      have h := @ih (done ++ [out]) best' (fun hnone ↦ absurd hnone hne) hbest' i d
        (by rwa [List.length_append])
      rwa [List.append_assoc] at h
    rw [bestFrom]
    cases hbest : best with
    | none =>
      refine hnext _ (fun i d hi ↦ ?_) (by simp [better])
      obtain ⟨rfl, rfl⟩ := Prod.mk.inj (Option.some.inj hi)
      exact nearest_last (by simp [hnone hbest])
    | some pair =>
      obtain ⟨bestIndex, bestDistance⟩ := pair
      have hnearest := hsome _ _ hbest
      refine hnext _ (fun i d hi ↦ ?_) (by rw [better]; split <;> simp)
      rw [better] at hi
      split at hi
      · next hlt =>
        obtain ⟨rfl, rfl⟩ := Prod.mk.inj (Option.some.inj hi)
        obtain ⟨-, -, -, hmin⟩ := hnearest
        exact nearest_last fun other hother ↦
          Int32.le_trans (Int32.le_of_lt hlt) (hmin other hother)
      · next hnlt =>
        obtain ⟨rfl, rfl⟩ := Prod.mk.inj (Option.some.inj hi)
        exact hnearest.append (Int32.not_lt.1 hnlt)

/-- What is sorted and without repetitions is strictly increasing. -/
theorem pairwise_destutter {outputs : List Api.Output}
    (hsorted : outputs.Pairwise fun a b ↦ TransactionBuilder.globalIndexLe a b) :
    (outputs.destutter fun a b ↦ a.globalIndex ≠ b.globalIndex).Pairwise
      fun a b ↦ a.globalIndex < b.globalIndex := by
  have hle := hsorted.sublist (List.destutter_sublist (fun a b ↦ a.globalIndex ≠ b.globalIndex)
    outputs)
  have hne := List.isChain_destutter (fun a b : Api.Output ↦ a.globalIndex ≠ b.globalIndex) outputs
  generalize outputs.destutter (fun a b ↦ a.globalIndex ≠ b.globalIndex) = l at hle hne
  induction l with
  | nil => exact .nil
  | cons a l ih =>
    obtain ⟨ha, hle⟩ := List.pairwise_cons.1 hle
    have hl := ih hle hne.tail
    refine List.pairwise_cons.2 ⟨fun b hb ↦ ?_, hl⟩
    cases l with
    | nil => cases hb
    | cons first l =>
      have hafirst : a.globalIndex ≤ first.globalIndex :=
        of_decide_eq_true (ha first List.mem_cons_self)
      have hfirst := UInt32.lt_of_le_of_ne hafirst (List.isChain_cons_cons.1 hne).1
      obtain rfl | hb := List.mem_cons.1 hb
      · exact hfirst
      · exact UInt32.lt_trans hfirst ((List.pairwise_cons.1 hl).1 b hb)

/-- What is left has strictly increasing indices, and not that of the real output. -/
theorem pairwise_mix {globalIndex : UInt32} {mixOutputs left : List Api.Output}
    (hreal : globalIndex.toNat < 2 ^ 31)
    (hindexes : ∀ out ∈ mixOutputs, out.globalIndex.toNat < 2 ^ 31)
    (h : mix globalIndex mixOutputs = some left) :
    left.Pairwise (fun a b ↦ a.globalIndex < b.globalIndex) ∧
      (∀ out ∈ left, out.globalIndex ≠ globalIndex) ∧ (∀ out ∈ left, out ∈ mixOutputs) ∧
      left.length + 1 ≤ mixOutputs.length := by
  obtain ⟨⟨i, d⟩, hbest, rfl⟩ := Option.map_eq_some_iff.1 h
  have hpairwise := pairwise_destutter
    (TransactionBuilder.pairwise_mergeSort_globalIndexLe mixOutputs)
  have hsub := List.destutter_sublist (fun a b : Api.Output ↦ a.globalIndex ≠ b.globalIndex)
    (mixOutputs.mergeSort TransactionBuilder.globalIndexLe)
  generalize (mixOutputs.mergeSort TransactionBuilder.globalIndexLe).destutter
    (fun a b ↦ a.globalIndex ≠ b.globalIndex) = outputs at hbest hpairwise hsub ⊢
  have hmem : ∀ out ∈ outputs, out ∈ mixOutputs := fun out hout ↦
    List.mem_mergeSort.1 (hsub.subset hout)
  have hnearest : Nearest globalIndex ([] ++ outputs) i d :=
    bestFrom_eq (fun _ ↦ rfl) (by simp) i d hbest
  obtain ⟨nearest, hget, rfl, hmin⟩ := hnearest
  rw [List.nil_append] at hget hmin
  refine ⟨hpairwise.sublist (List.eraseIdx_sublist ..), fun out hout heq ↦ ?_,
    fun out hout ↦ hmem out (List.mem_of_mem_eraseIdx hout), ?_⟩
  · -- the real output would be at distance zero, so that only it can have been the nearest
    have houtput := List.mem_of_mem_eraseIdx hout
    have hzero := hmin out houtput
    have hnearestmem := List.mem_of_getElem? hget
    rw [heq, Int32.le_iff_toInt_le, toInt_distance hreal (hindexes _ (hmem _ hnearestmem)),
      toInt_distance hreal hreal, sub_self, abs_zero] at hzero
    have hsame : nearest.globalIndex = out.globalIndex := by
      rw [heq, ← UInt32.toNat_inj]
      have := abs_eq_zero.1 (le_antisymm hzero (abs_nonneg _))
      omega
    obtain ⟨before, after, hsplit, hlength⟩ : ∃ before after,
        outputs = before ++ nearest :: after ∧ before.length = i := by
      obtain ⟨hlt, hget⟩ := List.getElem?_eq_some_iff.1 hget
      refine ⟨outputs.take i, outputs.drop (i + 1), ?_, List.length_take_of_le hlt.le⟩
      rw [← hget, ← List.drop_eq_getElem_cons hlt, List.take_append_drop]
    rw [hsplit, ← hlength, List.eraseIdx_append_of_length_le le_rfl, Nat.sub_self,
      List.eraseIdx_cons_zero] at hout
    rw [hsplit] at hpairwise
    obtain ⟨-, hnearest, hbefore⟩ := List.pairwise_append.1 hpairwise
    obtain hout | hout := List.mem_append.1 hout
    · exact absurd hsame.symm (UInt32.ne_of_lt (hbefore out hout nearest List.mem_cons_self))
    · exact absurd hsame (UInt32.ne_of_lt ((List.pairwise_cons.1 hnearest).1 out hout))
  · have hlt := (List.getElem?_eq_some_iff.1 hget).1
    have hle := hsub.length_le
    rw [List.length_mergeSort] at hle
    rw [List.length_eraseIdx_of_lt hlt]
    omega

/-- The ring of an output with what is left has strictly increasing indices. -/
theorem pairwise_ring {real : Api.Output} {left : List Api.Output}
    (hleft : left.Pairwise fun a b ↦ a.globalIndex < b.globalIndex)
    (hreal : ∀ out ∈ left, out.globalIndex ≠ real.globalIndex) :
    real ∈ (TransactionBuilder.ring real left).1 ∧
      (TransactionBuilder.ring real left).1.Pairwise
        (fun a b ↦ a.globalIndex < b.globalIndex) ∧
      (TransactionBuilder.ring real left).1.length = left.length + 1 := by
  obtain ⟨before, after, hsplit, hring, hbefore, hafter⟩ := TransactionBuilder.ring_eq real left
  rw [List.mergeSort_of_pairwise (hleft.imp fun h ↦ by
    simpa [TransactionBuilder.globalIndexLe] using UInt32.le_of_lt h)] at hsplit
  rw [← hsplit] at hleft hreal
  obtain ⟨hleftBefore, hleftAfter, hcross⟩ := List.pairwise_append.1 hleft
  have hafter' : ∀ out ∈ after, real.globalIndex < out.globalIndex := fun out hout ↦
    UInt32.lt_of_le_of_ne (hafter out hout) (hreal out (List.mem_append_right _ hout)).symm
  rw [hring]
  refine ⟨by simp, List.pairwise_append.2 ⟨hleftBefore, List.pairwise_cons.2 ⟨hafter', hleftAfter⟩,
    fun a ha b hb ↦ ?_⟩, ?_⟩
  · obtain rfl | hb := List.mem_cons.1 hb
    · exact hbefore a ha
    · exact hcross a ha b hb
  · rw [← hsplit, List.length_append, List.length_append, List.length_cons, add_assoc]

/-- Strictly increasing indices have no relative one that is zero behind the first. -/
theorem zero_notMem_tail {indexes : List UInt32}
    (h : (globalIndexes indexes).Pairwise (· < ·)) : 0 ∉ indexes.tail := by
  cases indexes with
  | nil => exact List.not_mem_nil
  | cons index relative =>
    rw [globalIndexes] at h
    rw [List.tail_cons]
    induction relative generalizing index with
    | nil => exact List.not_mem_nil
    | cons next relative ih =>
      rw [List.scanl_cons] at h
      obtain ⟨hindex, h⟩ := List.pairwise_cons.1 h
      intro hzero
      obtain hzero | hzero := List.mem_cons.1 hzero
      · have hhead : index + next ∈ relative.scanl (· + ·) (index + next) := by
          cases relative <;> simp [List.scanl_cons]
        have hlt := hindex _ hhead
        rw [← hzero, add_zero] at hlt
        exact UInt32.lt_irrefl _ hlt
      · exact ih _ h hzero

theorem popMix_eq_some {n : ℕ} {raOutputs mixOutputs rest : List Api.Output}
    (h : popMix n raOutputs = some (mixOutputs, rest)) :
    mixOutputs.length = n ∧ (∀ out ∈ mixOutputs, out ∈ raOutputs) ∧
      ∀ out ∈ rest, out ∈ raOutputs := by
  induction n generalizing raOutputs mixOutputs rest with
  | zero =>
    obtain ⟨rfl, rfl⟩ := Prod.mk.inj (Option.some.inj h)
    exact ⟨rfl, by simp, fun _ hout ↦ hout⟩
  | succ n ih =>
    rw [popMix] at h
    split at h
    · cases h
    · next out hlast =>
      split at h
      · cases h
      · next mixOutputs' rest' hpop =>
        obtain ⟨rfl, rfl⟩ := Prod.mk.inj (Option.some.inj h)
        obtain ⟨hlength, hmix, hrest⟩ := ih hpop
        refine ⟨by rw [List.length_cons, hlength], List.forall_mem_cons.2
          ⟨List.mem_of_getLast? hlast, fun o ho ↦ List.mem_of_mem_dropLast (hmix o ho)⟩,
          fun o ho ↦ List.mem_of_mem_dropLast (hrest o ho)⟩

/-- A ring that the node's semantic check lets pass: its indices increase, the real output is in
it, and it is not larger than asked for. -/
structure Mixed (anonymity : UInt32) (uu : Api.Output) (desc : TransactionBuilder.InputDesc) :
    Prop where
  real : uu ∈ desc.outputs
  increasing : desc.outputs.Pairwise fun a b ↦ a.globalIndex < b.globalIndex
  length_le : desc.outputs.length ≤ (anonymity + 1).toNat
  inputError : inputError false [] (.keyInput desc.input) = none

variable {cv parseAccountAddressString walletRecords viewSecretKey anonymity}

/-- What the wallet knows of its outputs and was told of those of others. -/
structure Sources (cv : Curve P) (parseAccountAddressString : String → Option AccountPublicAddress)
    (walletRecords : Store PublicKey WalletRecord) (viewSecretKey : SecretKey)
    (uus : List Api.Output) (raOutputs : Amount → List Api.Output) : Prop where
  owned : ∀ uu ∈ uus, ∀ address rec, parseAccountAddressString uu.address = some address →
    walletRecords.get address.2 = some rec →
    TransactionBuilder.Owned cv ⟨address, rec.spendSecretKey, viewSecretKey⟩ uu
  small : ∀ uu ∈ uus, uu.globalIndex.toNat < 2 ^ 31
  valid : ∀ amount, ∀ out ∈ raOutputs amount, cv.keyIsvalid out.publicKey = true
  smallOthers : ∀ amount, ∀ out ∈ raOutputs amount, out.globalIndex.toNat < 2 ^ 31

theorem addMixedInput_step {uu : Api.Output} {uus : List Api.Output}
    {raOutputs raOutputs' : Amount → List Api.Output} {b b' : TransactionBuilder}
    (hsources : Sources cv parseAccountAddressString walletRecords viewSecretKey (uu :: uus)
      raOutputs)
    (hbuilt : TransactionBuilder.Built cv b)
    (h : addMixedInput cv parseAccountAddressString walletRecords viewSecretKey anonymity uu
      raOutputs b = .ok (b', raOutputs')) :
    Sources cv parseAccountAddressString walletRecords viewSecretKey uus raOutputs' ∧
      TransactionBuilder.Built cv b' ∧
      ∃ desc, b'.inputDescs = b.inputDescs ++ [desc] ∧ Mixed anonymity uu desc := by
  rw [addMixedInput] at h
  split at h
  · cases h
  split at h
  · cases h
  split at h
  · cases h
  split at h
  · cases h
  split at h
  · cases h
  next mixOutputs rest hpop _ left hmix _ address haddress _ rec hrec hspend =>
  obtain ⟨builder, hadded, hpair⟩ : ∃ builder, b.addInput cv
      ⟨address, rec.spendSecretKey, viewSecretKey⟩ uu left = .ok builder ∧
        (builder, Function.update raOutputs uu.amount rest) = (b', raOutputs') := by
    cases hadded : b.addInput cv ⟨address, rec.spendSecretKey, viewSecretKey⟩ uu left with
    | error error => rw [hadded] at h; cases h
    | ok builder => rw [hadded] at h; exact ⟨builder, rfl, Except.ok.inj h⟩
  obtain ⟨rfl, rfl⟩ := Prod.mk.inj hpair
  obtain ⟨hlength, hmixmem, hrest⟩ := popMix_eq_some hpop
  obtain ⟨hleft, hreal, hleftmem, hleftlength⟩ := pairwise_mix
    (hsources.small uu List.mem_cons_self)
    (fun out hout ↦ hsources.smallOthers _ out (hmixmem out hout)) hmix
  have howned := hsources.owned uu List.mem_cons_self address rec haddress hrec
  have hvalid : ∀ out ∈ left, cv.keyIsvalid out.publicKey = true := fun out hout ↦
    hsources.valid _ out (hmixmem out (hleftmem out hout))
  have hmem : ∀ amount, ∀ out ∈ Function.update raOutputs uu.amount rest amount,
      out ∈ raOutputs amount := by
    intro amount out hout
    by_cases hamount : amount = uu.amount
    · subst hamount
      rw [Function.update_self] at hout
      exact hrest out hout
    · rwa [Function.update_of_ne hamount] at hout
  obtain ⟨desc, hsignable, houtputs, rfl⟩ :=
    TransactionBuilder.signable_of_addInput howned hvalid hadded
  obtain ⟨hrealmem, hpairwise, hringlength⟩ := pairwise_ring hleft hreal
  rw [← houtputs] at hrealmem hpairwise hringlength
  refine ⟨⟨fun u hu ↦ hsources.owned u (List.mem_cons_of_mem _ hu),
      fun u hu ↦ hsources.small u (List.mem_cons_of_mem _ hu),
      fun amount out hout ↦ hsources.valid amount out (hmem amount out hout),
      fun amount out hout ↦ hsources.smallOthers amount out (hmem amount out hout)⟩,
    .addInput hbuilt howned hvalid hadded, desc, rfl, hrealmem, hpairwise, by omega, ?_⟩
  have hnonempty : desc.input.outputIndexes ≠ [] := by
    intro hnil
    have hindexes := hsignable.indexes
    rw [hnil, globalIndexes, eq_comm, List.map_eq_nil_iff] at hindexes
    rw [hindexes] at hrealmem
    cases hrealmem
  have hzero := @zero_notMem_tail desc.input.outputIndexes (by
    rw [hsignable.indexes]
    exact List.pairwise_map.2 hpairwise)
  simp [inputError, hnonempty, hzero]

/-- The rings that the wallet asks the node to accept: each has the output that it spends, its
indices increase strictly, and it is not larger than asked for. -/
theorem addMixedInputs_mixed {uus : List Api.Output} {raOutputs : Amount → List Api.Output}
    {b b' : TransactionBuilder}
    (hsources : Sources cv parseAccountAddressString walletRecords viewSecretKey uus raOutputs)
    (hbuilt : TransactionBuilder.Built cv b)
    (h : addMixedInputs cv parseAccountAddressString walletRecords viewSecretKey anonymity uus
      raOutputs b = .ok b') :
    TransactionBuilder.Built cv b' ∧
      ∃ descs, b'.inputDescs = b.inputDescs ++ descs ∧
        List.Forall₂ (Mixed anonymity) uus descs := by
  induction uus generalizing raOutputs b with
  | nil =>
    obtain rfl := Except.ok.inj h
    exact ⟨hbuilt, [], (List.append_nil _).symm, .nil⟩
  | cons uu uus ih =>
    rw [addMixedInputs] at h
    split at h
    · cases h
    · next b₁ raOutputs₁ hstep =>
      obtain ⟨hsources₁, hbuilt₁, desc, hdesc, hmixed⟩ :=
        addMixedInput_step hsources hbuilt hstep
      obtain ⟨hbuilt', descs, hdescs, hall⟩ := ih hsources₁ hbuilt₁ h
      refine ⟨hbuilt', desc :: descs, ?_, .cons hmixed hall⟩
      rw [hdescs, hdesc, List.append_assoc, List.singleton_append]

/-! ### A ring of two -/

open TransactionBuilder in
def sampleRaOutputs : Amount → List Api.Output :=
  Function.update (fun _ ↦ []) 100 sampleOthers

open TransactionBuilder in
def sampleRecords : Store PublicKey WalletRecord :=
  Store.put ∅ sampleKeys.address.2
    { spendPublicKey := sampleKeys.address.2, spendSecretKey := sampleKeys.spendSecretKey }

open TransactionBuilder in
theorem sources_sample : Sources Curve.numbers (fun _ ↦ some sampleKeys.address) sampleRecords
    sampleKeys.viewSecretKey [sampleReal] sampleRaOutputs where
  owned uu huu address rec haddress hrec := by
    obtain rfl := List.mem_singleton.1 huu
    obtain rfl := Option.some.inj haddress
    have hget : sampleRecords.get sampleKeys.address.2 = some
        { spendPublicKey := sampleKeys.address.2
          spendSecretKey := sampleKeys.spendSecretKey } := by
      decide +kernel
    obtain rfl := Option.some.inj (hget.symm.trans hrec)
    exact owned_sampleReal
  small uu huu := by
    obtain rfl := List.mem_singleton.1 huu
    decide +kernel
  valid amount out hout := by
    by_cases hamount : amount = 100
    · subst hamount
      exact sampleOthers_valid out (by simpa [sampleRaOutputs] using hout)
    · simp [sampleRaOutputs, Function.update_of_ne hamount] at hout
  smallOthers amount out hout := by
    have hsmall : ∀ out ∈ sampleOthers, out.globalIndex.toNat < 2 ^ 31 := by decide +kernel
    by_cases hamount : amount = 100
    · subst hamount
      exact hsmall out (by simpa [sampleRaOutputs] using hout)
    · simp [sampleRaOutputs, Function.update_of_ne hamount] at hout

open TransactionBuilder in
theorem addMixedInputs_sample :
    ∃ b', addMixedInputs Curve.numbers (fun _ ↦ some sampleKeys.address) sampleRecords
      sampleKeys.viewSecretKey 1 [sampleReal] sampleRaOutputs (make 1 0) = .ok b' := by
  have hpop : popMix 2 (sampleRaOutputs 100) = some (sampleOthers.reverse, []) := by decide +kernel
  have hsorted : sampleOthers.reverse.mergeSort globalIndexLe = sampleOthers.reverse :=
    List.mergeSort_of_pairwise (by decide +kernel)
  have hmix : mix 2 sampleOthers.reverse = some [sampleOthers.head (by decide)] := by
    rw [mix, hsorted]
    decide +kernel
  have hget : sampleRecords.get sampleKeys.address.2 = some
      { spendPublicKey := sampleKeys.address.2, spendSecretKey := sampleKeys.spendSecretKey } := by
    decide +kernel
  obtain ⟨b', hadded⟩ := addInput_sampleReal (make 1 0)
    (show ∀ out ∈ [sampleOthers.head (by decide)], out.amount = 100 by decide +kernel)
  refine ⟨b', ?_⟩
  have hstep : addMixedInput Curve.numbers (fun _ ↦ some sampleKeys.address) sampleRecords
      sampleKeys.viewSecretKey 1 sampleReal sampleRaOutputs (make 1 0) =
        .ok (b', Function.update sampleRaOutputs 100 []) := by
    rw [addMixedInput, show sampleReal.amount = 100 from rfl,
      show sampleReal.globalIndex = 2 from rfl, show ((1 : UInt32) + 1).toNat = 2 from rfl, hpop]
    simp only [hmix, hget]
    rw [if_neg (not_not.2 rfl), show (⟨sampleKeys.address, sampleKeys.spendSecretKey,
      sampleKeys.viewSecretKey⟩ : AccountKeys) = sampleKeys from rfl, hadded]
    rfl
  rw [addMixedInputs, hstep]
  rfl

open TransactionBuilder in
theorem addMixedInputs_mixed_sample :
    ∃ b', addMixedInputs Curve.numbers (fun _ ↦ some sampleKeys.address) sampleRecords
        sampleKeys.viewSecretKey 1 [sampleReal] sampleRaOutputs (make 1 0) = .ok b' ∧
      Built Curve.numbers b' ∧ ∃ descs, b'.inputDescs = (make 1 0).inputDescs ++ descs ∧
        List.Forall₂ (Mixed 1) [sampleReal] descs :=
  have ⟨b', h⟩ := addMixedInputs_sample
  ⟨b', h, addMixedInputs_mixed sources_sample (.make 1 0) h⟩

end UnspentSelector

end Naza
