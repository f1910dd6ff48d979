import Naza.ChainTables

/-!
# Rings

What the ring checks establish about the absolute output indices of an input, which are sums of
32 bits, and what `get_largest_referenced_height` returns for them.
-/

open Lib

namespace Naza

variable {cr : Crypto} {c : Currency}

/-! ## Absolute indices -/

/-- The sum of the relative indices of an input, without wrapping. -/
def KeyInput.offsetSum (input : KeyInput) : ℕ := (input.outputIndexes.map UInt32.toNat).sum

/-- The sums along nonzero steps rise exactly while they do not wrap. -/
theorem scanl_pairwise_lt_iff (start : UInt32) {steps : List UInt32} (hsteps : 0 ∉ steps) :
    (steps.scanl (· + ·) start).Pairwise (· < ·) ↔
      start.toNat + (steps.map UInt32.toNat).sum < 2 ^ 32 := by
  induction steps generalizing start with
  | nil => simpa using start.toNat_lt
  | cons step steps ih =>
    rw [List.mem_cons, not_or] at hsteps
    have hpos : 0 < step.toNat := by
      rcases Nat.eq_zero_or_pos step.toNat with hzero | hpos
      · exact absurd (UInt32.toNat_inj.1 hzero).symm hsteps.1
      · exact hpos
    have hhead : ∀ (x : UInt32), ∃ rest, steps.scanl (· + ·) x = x :: rest := by
      intro x
      cases steps with
      | nil => exact ⟨[], rfl⟩
      | cons step' steps' => exact ⟨_, List.scanl_cons⟩
    obtain ⟨rest, hrest⟩ := hhead (start + step)
    have hlt := start.toNat_lt
    have hlt' := step.toNat_lt
    have hadd : (start + step).toNat = (start.toNat + step.toNat) % 2 ^ 32 := UInt32.toNat_add _ _
    rw [List.scanl_cons, List.pairwise_cons, ih _ hsteps.2, List.map_cons, List.sum_cons]
    constructor
    · rintro ⟨habove, hsum⟩
      have hfirst := habove (start + step) (by rw [hrest]; exact List.mem_cons_self)
      rw [UInt32.lt_iff_toNat_lt] at hfirst
      omega
    · intro hsum
      have hnat : (start + step).toNat = start.toNat + step.toNat := by omega
      refine ⟨?_, by omega⟩
      intro x hx
      have hsorted := (ih (start + step) hsteps.2).2 (by omega)
      have hstep : start < start + step := by
        rw [UInt32.lt_iff_toNat_lt]
        omega
      rw [hrest] at hx hsorted
      rcases List.mem_cons.1 hx with rfl | hx
      · exact hstep
      · exact UInt32.lt_trans hstep ((List.pairwise_cons.1 hsorted).1 x hx)

/-- The absolute indices of an input rise exactly when their sum fits into 32 bits. -/
theorem globalIndexes_pairwise_lt_iff {input : KeyInput} (hne : input.outputIndexes ≠ [])
    (hsteps : 0 ∉ input.outputIndexes.tail) :
    (globalIndexes input.outputIndexes).Pairwise (· < ·) ↔ input.offsetSum < 2 ^ 32 := by
  unfold KeyInput.offsetSum
  cases hindexes : input.outputIndexes with
  | nil => exact absurd hindexes hne
  | cons index relative =>
    rw [hindexes, List.tail_cons] at hsteps
    rw [globalIndexes, scanl_pairwise_lt_iff index hsteps, List.map_cons, List.sum_cons]

/-- The sum of all relative indices is the last absolute one. -/
theorem getLast?_globalIndexes {indexes : List UInt32} (hne : indexes ≠ []) :
    (globalIndexes indexes).getLast? = some (indexes.foldl (· + ·) 0) := by
  cases indexes with
  | nil => exact absurd rfl hne
  | cons index relative =>
    have hlast : ∀ (start : UInt32) (steps : List UInt32),
        (steps.scanl (· + ·) start).getLast? = some (steps.foldl (· + ·) start) := by
      intro start steps
      induction steps generalizing start with
      | nil => rfl
      | cons step steps ih =>
        rw [List.scanl_cons, List.foldl_cons, List.getLast?_cons, ih, Option.getD_some]
    rw [globalIndexes, hlast, List.foldl_cons, UInt32.zero_add]

/-! ## Accepted inputs -/

/-- The key inputs of a transaction with the signatures at their positions. -/
def signedInputs : List TransactionInput → List (List Signature) →
    List (KeyInput × List Signature)
  | [], _ => []
  | .coinbaseInput _ :: inputs, signatures => signedInputs inputs signatures.tail
  | .keyInput input :: inputs, signatures =>
    (input, signatures.headD []) :: signedInputs inputs signatures.tail

theorem map_fst_signedInputs (inputs : List TransactionInput) (signatures : List (List Signature)) :
    (signedInputs inputs signatures).map Prod.fst = inputs.filterMap fun
      | .coinbaseInput _ => none
      | .keyInput input => some input := by
  induction inputs generalizing signatures with
  | nil => rfl
  | cons input inputs ih => cases input <;> simp [signedInputs, ih]

/-- What the semantic check asks of the inputs of a transaction that is no coinbase. -/
theorem validateInputs_ok {inputs : List TransactionInput} {kis : List KeyImage}
    {sum total : Amount} (h : validateInputs false inputs kis sum = .ok total) :
    ∀ input ∈ inputs, ∃ keyInput, input = .keyInput keyInput ∧ keyInput.outputIndexes ≠ [] ∧
      0 ∉ keyInput.outputIndexes.tail := by
  induction inputs generalizing kis sum with
  | nil => simp
  | cons input inputs ih =>
    unfold validateInputs at h
    split at h
    · cases h
    · next hnone =>
      split at h
      · cases h
      · intro input' hmem
        rcases List.mem_cons.1 hmem with rfl | hmem
        · cases input' with
          | coinbaseInput _ => simp [inputError] at hnone
          | keyInput keyInput =>
            simp only [inputError, Bool.false_eq_true, if_false] at hnone
            split at hnone
            · cases hnone
            · split at hnone
              · cases hnone
              · next hne =>
                exact ⟨keyInput, rfl, hne, by simpa using hnone⟩
        · exact ih h input' hmem

/-- What the semantic check establishes about the key inputs of a transaction. -/
theorem validateSemantic_keyInputs {tx : Transaction} {checkOutputKey : Bool} {fee : Amount}
    (h : validateSemantic cr false tx checkOutputKey = .ok fee) :
    ∀ input ∈ tx.keyInputs, input.outputIndexes ≠ [] ∧ 0 ∉ input.outputIndexes.tail := by
  intro input hmem
  unfold validateSemantic at h
  split at h
  · cases h
  · split at h
    · cases h
    · split at h
      · cases h
      · next hinputs =>
        obtain ⟨any, hany, heq⟩ := List.mem_filterMap.1 hmem
        obtain ⟨keyInput, rfl, hne, hsteps⟩ := validateInputs_ok hinputs any hany
        rw [← Option.some.inj heq]
        exact ⟨hne, hsteps⟩

theorem validateTransactions_ok {checkKeys : Bool} {txs : List Transaction}
    (h : validateTransactions cr checkKeys txs = .ok ()) :
    ∀ tx ∈ txs, ∃ fee, validateSemantic cr false tx checkKeys = .ok fee := by
  induction txs with
  | nil => simp
  | cons tx txs ih =>
    obtain ⟨fee, hfee, h⟩ := bind_eq_ok_iff.1 h
    intro tx' hmem
    rcases List.mem_cons.1 hmem with rfl | hmem
    · exact ⟨fee, hfee⟩
    · exact ih h tx' hmem

/-- A ring that was read has an output for each member. -/
theorem readRing_ok {reads : StateReads} {unlockHeight : Height} {unlockTimestamp : Timestamp}
    {amount : Amount} {indexes : List UInt32} {unps : List UnlockTimePublickKeyHeightSpent}
    (h : readRing c reads unlockHeight unlockTimestamp amount indexes = .ok unps) :
    indexes.map (reads.readAmountOutput amount) = unps.map some := by
  induction indexes generalizing unps with
  | nil =>
    simp only [readRing, Except.ok.injEq] at h
    rw [← h]
    rfl
  | cons index indexes ih =>
    unfold readRing at h
    split at h
    · cases h
    · next unp hunp =>
      split at h
      · split at h
        · next rest hrest =>
          rw [← Except.ok.inj h, List.map_cons, List.map_cons, hunp, ih hrest]
        · cases h
      · cases h

theorem readRing_isSome {reads : StateReads} {unlockHeight : Height}
    {unlockTimestamp : Timestamp} {amount : Amount} {indexes : List UInt32}
    {unps : List UnlockTimePublickKeyHeightSpent}
    (h : readRing c reads unlockHeight unlockTimestamp amount indexes = .ok unps) :
    ∀ index ∈ indexes, (reads.readAmountOutput amount index).isSome := by
  intro index hmem
  have hmem' := List.mem_map_of_mem (f := reads.readAmountOutput amount) hmem
  rw [readRing_ok h] at hmem'
  obtain ⟨unp, -, hunp⟩ := List.mem_map.1 hmem'
  rw [← hunp]
  rfl

/-- A delta without outputs reads those of its parent. -/
theorem DeltaState.Holds.reads_output {parent : StateReads} {d : DeltaState} {kis : List KeyImage}
    {spends : List (Amount × UInt32)} (h : d.Holds kis [] spends) {amount : Amount}
    {index : UInt32} (hsome : ((d.reads parent).readAmountOutput amount index).isSome) :
    (parent.readAmountOutput amount index).isSome := by
  simp only [DeltaState.reads] at hsome
  split at hsome
  · exact hsome
  · rw [h.outputs] at hsome
    simp at hsome

/-- The inputs of a transaction that was checked against a state have rings of its outputs. -/
theorem redoInputs_checked {parent : StateReads} {d d' : DeltaState} {kis : List KeyImage}
    {spends : List (Amount × UInt32)} (h : d.Holds kis [] spends) {hash : Hash}
    {inputs : List TransactionInput} {signatures : List (List Signature)} {height height' : Height}
    (hok : redoInputs cr c parent true hash inputs signatures d height = .accept (d', height')) :
    ∀ input ∈ inputs.filterMap (fun
        | .coinbaseInput _ => none
        | .keyInput input => some input), ∀ index ∈ globalIndexes input.outputIndexes,
      (parent.readAmountOutput input.amount index).isSome := by
  induction inputs generalizing d kis spends signatures height with
  | nil => simp
  | cons input inputs ih =>
    cases input with
    | coinbaseInput _ => exact ih h hok
    | keyInput input =>
      simp only [redoInputs, if_true, Check.bind_eq_accept_iff, Check.ofExcept_eq_accept_iff,
        Check.lift_eq_accept_iff] at hok
      obtain ⟨height₁, hcheck, d₁, h₁, hok⟩ := hok
      obtain ⟨hspend, -, -⟩ := h.spendRing input
      have hnew : input.keyImage ∉ kis := by
        intro hmem
        rw [hspend.storeKeyimage_of_mem hmem] at h₁
        cases h₁
      obtain ⟨d₂, h₂, hholds, -, -⟩ := hspend.storeKeyimage hnew
      rw [h₁, Except.ok.injEq] at h₂
      subst h₂
      intro input' hmem index hindex
      rcases List.mem_cons.1 hmem with rfl | hmem
      · unfold checkInput at hcheck
        split at hcheck
        · cases hcheck
        · split at hcheck
          · cases hcheck
          · split at hcheck
            · cases hcheck
            · cases hcheck
            · next unps hring => exact h.reads_output (readRing_isSome hring index hindex)
      · exact ih hholds hok input' hmem index hindex

/-- What the ring checks of a block establish about one of its inputs: the key image is new, and
the work item of its ring is among those given to the checker. -/
structure RingStarted (c : Currency) (reads : StateReads) (unlockHeight : Height)
    (unlockTimestamp : Timestamp) (txPrefixHash : Hash) (input : KeyInput)
    (signatures : List Signature) (args : List RingSignatureArg) : Prop where
  fresh : reads.readKeyimage input.keyImage = none
  started : ∃ unps, readRing c reads unlockHeight unlockTimestamp input.amount
      (globalIndexes input.outputIndexes) = .ok unps ∧
    { txPrefixHash, keyImage := input.keyImage
      outputKeys := unps.map UnlockTimePublickKeyHeightSpent.publicKey
      signatures : RingSignatureArg } ∈ args

theorem startInputs_ok {reads : StateReads} {unlockHeight : Height} {unlockTimestamp : Timestamp}
    {txPrefixHash : Hash} {inputs : List TransactionInput} {signatures : List (List Signature)}
    {args : List RingSignatureArg} (h : startInputs c reads unlockHeight unlockTimestamp
      txPrefixHash inputs signatures = .ok args) :
    ∀ e ∈ signedInputs inputs signatures,
      RingStarted c reads unlockHeight unlockTimestamp txPrefixHash e.1 e.2 args := by
  induction inputs generalizing signatures args with
  | nil => simp [signedInputs]
  | cons input inputs ih =>
    cases input with
    | coinbaseInput _ => exact ih h
    | keyInput input =>
      simp only [startInputs, bind_eq_ok_iff] at h
      obtain ⟨arg, harg, rest, hrest, h⟩ := h
      have h := Except.ok.inj h
      subst h
      intro e hmem
      rcases List.mem_cons.1 hmem with rfl | hmem
      · unfold startInput at harg
        split at harg
        · cases harg
        · next hnone =>
          split at harg
          · cases harg
          · split at harg
            · cases harg
            · next unps hring =>
              rw [← Except.ok.inj harg]
              exact ⟨by simpa using hnone, unps, hring, List.mem_cons_self⟩
      · obtain ⟨hfresh, unps, hring, hin⟩ := ih hrest e hmem
        exact ⟨hfresh, unps, hring, List.mem_cons_of_mem _ hin⟩

/-- Every input of every transaction of a block is started, or the block is refused. -/
theorem startWorkGetError_ok {reads : StateReads} {unlockHeight : Height}
    {unlockTimestamp : Timestamp} {txs : List Transaction} {args : List RingSignatureArg}
    (h : startWorkGetError cr c reads unlockHeight unlockTimestamp txs = .ok args) :
    ∀ tx ∈ txs, ∀ e ∈ signedInputs tx.inputs tx.signatures,
      RingStarted c reads unlockHeight unlockTimestamp
        (getTransactionPrefixHash cr tx.toTransactionPrefix) e.1 e.2 args := by
  induction txs generalizing args with
  | nil => simp
  | cons tx txs ih =>
    simp only [startWorkGetError, bind_eq_ok_iff] at h
    obtain ⟨args₁, h₁, args₂, h₂, h⟩ := h
    have h := Except.ok.inj h
    subst h
    intro tx' hmem e he
    rcases List.mem_cons.1 hmem with rfl | hmem
    · obtain ⟨hfresh, unps, hring, hin⟩ := startInputs_ok h₁ e he
      exact ⟨hfresh, unps, hring, List.mem_append_left _ hin⟩
    · obtain ⟨hfresh, unps, hring, hin⟩ := ih h₂ tx' hmem e he
      exact ⟨hfresh, unps, hring, List.mem_append_right _ hin⟩

/-! ## The highest of several heights -/

theorem le_foldl_max (l : List UInt32) (a : UInt32) :
    a ≤ l.foldl max a ∧ ∀ x ∈ l, x ≤ l.foldl max a := by
  have hmax : ∀ a b : UInt32, max a b = if a ≤ b then b else a := fun _ _ ↦ rfl
  induction l generalizing a with
  | nil => exact ⟨UInt32.le_refl _, by simp⟩
  | cons x l ih =>
    rw [List.foldl_cons]
    obtain ⟨hacc, hall⟩ := ih (max a x)
    have hle : a ≤ max a x ∧ x ≤ max a x := by
      rw [hmax]
      split <;> grind
    refine ⟨UInt32.le_trans hle.1 hacc, fun y hy ↦ ?_⟩
    rcases List.mem_cons.1 hy with rfl | hy
    · exact UInt32.le_trans hle.2 hacc
    · exact hall y hy

theorem foldl_max_le {l : List UInt32} {a m : UInt32} (ha : a ≤ m) (h : ∀ x ∈ l, x ≤ m) :
    l.foldl max a ≤ m := by
  have hmax : ∀ a b : UInt32, max a b = if a ≤ b then b else a := fun _ _ ↦ rfl
  induction l generalizing a with
  | nil => exact ha
  | cons x l ih =>
    rw [List.foldl_cons]
    refine ih ?_ fun y hy ↦ h y (List.mem_cons_of_mem _ hy)
    rw [hmax]
    split
    · exact h x List.mem_cons_self
    · exact ha

/-- Lists that bound each other have the same highest element. -/
theorem foldl_max_congr {l l' : List UInt32} (h : ∀ x ∈ l, ∃ y ∈ l', x ≤ y)
    (h' : ∀ y ∈ l', ∃ x ∈ l, y ≤ x) : l.foldl max 0 = l'.foldl max 0 := by
  apply UInt32.le_antisymm
  · refine foldl_max_le (le_foldl_max l' 0).1 fun x hx ↦ ?_
    obtain ⟨y, hy, hle⟩ := h x hx
    exact UInt32.le_trans hle ((le_foldl_max l' 0).2 y hy)
  · refine foldl_max_le (le_foldl_max l 0).1 fun y hy ↦ ?_
    obtain ⟨x, hx, hle⟩ := h' y hy
    exact UInt32.le_trans hle ((le_foldl_max l 0).2 x hx)

/-! ## The largest referenced height -/

/-- The heights of the outputs that a transaction refers to. -/
def State.referencedHeights (s : State) (tx : TransactionPrefix) : List Height :=
  tx.keyInputs.flatMap fun input ↦ (globalIndexes input.outputIndexes).filterMap fun index ↦
    (s.db.outputs.get (input.amount, index)).map fun unp ↦ unp.height

/-- The last absolute index of an input. -/
def KeyInput.lastIndex (input : KeyInput) : UInt32 := input.outputIndexes.foldl (· + ·) 0

theorem largestIndices_concat {inputs : List KeyInput} {input : KeyInput}
    {largest : Store Amount UInt32} (hne : input.outputIndexes ≠ [])
    (h : State.largestIndices inputs = some largest) :
    State.largestIndices (inputs ++ [input]) = some (largest.put input.amount
      (max ((largest.get input.amount).getD 0) input.lastIndex)) := by
  unfold State.largestIndices at h ⊢
  rw [List.foldlM_append, h, Option.bind_eq_bind, Option.bind_some, List.foldlM_cons]
  split
  · next hnil => exact absurd hnil hne
  · rfl

/-- For each amount the largest last index of its inputs. -/
theorem largestIndices_spec {inputs : List KeyInput}
    (hne : ∀ input ∈ inputs, input.outputIndexes ≠ []) : ∃ largest,
      State.largestIndices inputs = some largest ∧
      (∀ amount index, largest.get amount = some index →
        ∃ input ∈ inputs, input.amount = amount ∧ input.lastIndex = index) ∧
      ∀ input ∈ inputs, ∃ index, largest.get input.amount = some index ∧
        input.lastIndex ≤ index := by
  have hmax : ∀ a b : UInt32, max a b = if a ≤ b then b else a := fun _ _ ↦ rfl
  induction inputs using List.reverseRecOn with
  | nil => exact ⟨∅, rfl, by simp, by simp⟩
  | append_singleton inputs input ih =>
    obtain ⟨largest, hfold, hfrom, hto⟩ := ih fun input' hmem ↦ hne input' (by simp [hmem])
    have hinput := hne input (by simp)
    refine ⟨largest.put input.amount
      (max ((largest.get input.amount).getD 0) input.lastIndex),
      largestIndices_concat hinput hfold, ?_, ?_⟩
    · intro amount index hget
      rw [Store.get_put] at hget
      split at hget
      · next heq =>
        rw [hmax] at hget
        split at hget
        · exact ⟨input, by simp, heq, Option.some.inj hget⟩
        · next hnot =>
          cases hold : largest.get input.amount with
          | none =>
            rw [hold, Option.getD_none] at hnot
            exact absurd UInt32.zero_le hnot
          | some index' =>
            rw [hold, Option.getD_some] at hget
            obtain ⟨input', hmem, hamount, hlast⟩ := hfrom _ _ hold
            exact ⟨input', by simp [hmem], hamount.trans heq, hlast.trans (Option.some.inj hget)⟩
      · obtain ⟨input', hmem, hrest⟩ := hfrom amount index hget
        exact ⟨input', by simp [hmem], hrest⟩
    · intro input' hmem
      rw [List.mem_append, List.mem_singleton] at hmem
      by_cases hamount : input.amount = input'.amount
      · refine ⟨_, by rw [Store.get_put, if_pos hamount], ?_⟩
        rcases hmem with hmem | rfl
        · obtain ⟨index, hget, hle⟩ := hto input' hmem
          rw [hamount, hget, Option.getD_some, hmax]
          split
          · next hlast => exact UInt32.le_trans hle hlast
          · exact hle
        · rw [hmax]
          split
          · exact UInt32.le_refl _
          · grind
      · rcases hmem with hmem | rfl
        · obtain ⟨index, hget, hle⟩ := hto input' hmem
          exact ⟨index, by rw [Store.get_put_of_ne _ _ hamount, hget], hle⟩
        · exact absurd rfl hamount

theorem foldlM_max {α : Type} {f : α → Option Height} {l : List α}
    (h : ∀ e ∈ l, (f e).isSome) (a : Height) :
    l.foldlM (fun m e ↦ (f e).map (max m)) a = some ((l.filterMap f).foldl max a) := by
  induction l generalizing a with
  | nil => rfl
  | cons e l ih =>
    obtain ⟨height, hheight⟩ := Option.isSome_iff_exists.1 (h e List.mem_cons_self)
    rw [List.foldlM_cons, hheight, Option.map_some, List.filterMap_cons_some hheight,
      List.foldl_cons]
    exact ih (fun e' he' ↦ h e' (List.mem_cons_of_mem _ he')) _

/-- Along the indices of an amount heights do not fall. -/
theorem Visited.height_le {s : State} (h : Visited cr c s) (hs : Started s) {amount : Amount}
    {i j : UInt32} (hij : i ≤ j) {a b : UnlockTimePublickKeyHeightSpent}
    (ha : s.db.outputs.get (amount, i) = some a) (hb : s.db.outputs.get (amount, j) = some b) :
    a.height ≤ b.height := by
  obtain ⟨L, hrep, hforget⟩ := h.followsChain.holds.ledger
  rw [State.mainTables_ledger] at hforget
  have hlen : s.mainBlocks.length ≤ 2 ^ 32 := by
    have hlt := s.tipHeight.toNat_lt
    rw [State.mainBlocks, List.length_map, State.length_mainRaw h.linked hs]
    omega
  have hsorted := (ledgerOf_heights hlen amount).1
  have hheights : ((ledgerOf s.mainBlocks).outputs amount).map (fun o ↦ o.height) =
      (L.outputs amount).map fun o ↦ o.height := by
    have houtputs := congrArg (fun L ↦ (L.outputs amount).map fun o ↦ o.height) hforget
    simpa [Ledger.forgetSpent, List.map_map, Function.comp_def] using houtputs.symm
  rw [hheights, List.pairwise_map] at hsorted
  rw [hrep.outputs] at ha hb
  rw [UInt32.le_iff_toNat_le] at hij
  obtain ⟨hi, ha⟩ := List.getElem?_eq_some_iff.1 ha
  obtain ⟨hj, hb⟩ := List.getElem?_eq_some_iff.1 hb
  rcases Nat.lt_or_eq_of_le hij with hlt | heq
  · rw [← ha, ← hb]
    exact List.pairwise_iff_getElem.1 hsorted _ _ hi hj hlt
  · have hsame : a = b := by
      rw [← ha, ← hb]
      simp only [heq]
    rw [hsame]
    exact UInt32.le_refl _

/-- What the rings of an accepted transaction should be. -/
structure State.RingsDistinct (s : State) (tx : TransactionPrefix) : Prop where
  increasing : ∀ input ∈ tx.keyInputs, (globalIndexes input.outputIndexes).Pairwise (· < ·)
  existing : ∀ input ∈ tx.keyInputs, ∀ index ∈ globalIndexes input.outputIndexes,
    (s.db.outputs.get (input.amount, index)).isSome
  largest : s.getLargestReferencedHeight tx = some ((s.referencedHeights tx).foldl max 0)

/-- When the indices of the inputs rise, the last ones stand highest. -/
theorem Visited.getLargestReferencedHeight_eq {s : State} (h : Visited cr c s) (hs : Started s)
    {tx : TransactionPrefix} (hne : ∀ input ∈ tx.keyInputs, input.outputIndexes ≠ [])
    (hincreasing : ∀ input ∈ tx.keyInputs,
      (globalIndexes input.outputIndexes).Pairwise (· < ·))
    (hexisting : ∀ input ∈ tx.keyInputs, ∀ index ∈ globalIndexes input.outputIndexes,
      (s.db.outputs.get (input.amount, index)).isSome) :
    s.getLargestReferencedHeight tx = some ((s.referencedHeights tx).foldl max 0) := by
  obtain ⟨largest, hlargest, hfrom, hto⟩ := largestIndices_spec hne
  have hlast : ∀ input ∈ tx.keyInputs,
      input.lastIndex ∈ globalIndexes input.outputIndexes ∧
        ∀ index ∈ globalIndexes input.outputIndexes, index ≤ input.lastIndex := by
    intro input hmem
    have hget := getLast?_globalIndexes (hne input hmem)
    refine ⟨List.mem_of_getLast? hget, fun index hindex ↦ ?_⟩
    obtain ⟨pre, hpre⟩ := List.getLast?_eq_some_iff.1 hget
    have hsorted := hincreasing input hmem
    rw [hpre] at hsorted hindex
    rcases List.mem_append.1 hindex with hin | hin
    · have hlt := (List.pairwise_append.1 hsorted).2.2 index hin _ (List.mem_singleton_self _)
      exact UInt32.le_of_lt hlt
    · rw [List.mem_singleton.1 hin]
      exact UInt32.le_refl _
  let f : Amount × UInt32 → Option Height := fun e ↦
    (s.db.outputs.get e).map fun unp ↦ unp.height
  have hsome : ∀ e ∈ largest.toList, (f e).isSome := by
    intro e he
    obtain ⟨input, hmem, hamount, hindex⟩ := hfrom e.1 e.2 (Store.mem_toList_iff.1 he)
    have hin := hexisting input hmem _ (hlast input hmem).1
    rw [hamount, hindex] at hin
    simpa [f] using hin
  have hfold : s.getLargestReferencedHeight tx =
      some ((largest.toList.filterMap f).foldl max 0) := by
    rw [← foldlM_max hsome, State.getLargestReferencedHeight, hlargest]
    change largest.toList.foldlM _ 0 = _
    congr 1
    funext m e
    change (s.db.outputs.get e >>= fun unp ↦ some (max m unp.height)) = _
    simp only [f]
    cases s.db.outputs.get e <;> rfl
  rw [hfold]
  congr 1
  refine foldl_max_congr ?_ ?_
  · intro height hheight
    obtain ⟨e, he, hfe⟩ := List.mem_filterMap.1 hheight
    obtain ⟨input, hmem, hamount, hindex⟩ := hfrom e.1 e.2 (Store.mem_toList_iff.1 he)
    refine ⟨height, List.mem_flatMap.2 ⟨input, hmem, List.mem_filterMap.2
      ⟨input.lastIndex, (hlast input hmem).1, ?_⟩⟩, UInt32.le_refl _⟩
    rw [hamount, hindex]
    exact hfe
  · intro height hheight
    obtain ⟨input, hmem, hin⟩ := List.mem_flatMap.1 hheight
    obtain ⟨index, hindex, hget⟩ := List.mem_filterMap.1 hin
    obtain ⟨unp, hunp, rfl⟩ := Option.map_eq_some_iff.1 hget
    obtain ⟨top, htop, hle⟩ := hto input hmem
    have hentry := Store.mem_toList_iff.2 htop
    obtain ⟨height', hheight'⟩ := Option.isSome_iff_exists.1 (hsome _ hentry)
    obtain ⟨unp', hunp', rfl⟩ := Option.map_eq_some_iff.1 hheight'
    exact ⟨_, List.mem_filterMap.2 ⟨_, hentry, hheight'⟩, h.height_le hs
      (UInt32.le_trans ((hlast input hmem).2 index hindex) hle) hunp hunp'⟩

/-- With nonempty rings of stored outputs and nonzero steps, only wrapping sums stand between the
code and distinct ring members. -/
theorem Visited.ringsDistinct_iff {s : State} (h : Visited cr c s) (hs : Started s)
    {tx : TransactionPrefix} (hsemantic : ∀ input ∈ tx.keyInputs, input.outputIndexes ≠ [] ∧
      0 ∉ input.outputIndexes.tail)
    (hexisting : ∀ input ∈ tx.keyInputs, ∀ index ∈ globalIndexes input.outputIndexes,
      (s.db.outputs.get (input.amount, index)).isSome) :
    s.RingsDistinct tx ↔ ∀ input ∈ tx.keyInputs, input.offsetSum < 2 ^ 32 := by
  constructor
  · intro hrings input hmem
    exact (globalIndexes_pairwise_lt_iff (hsemantic input hmem).1 (hsemantic input hmem).2).1
      (hrings.increasing input hmem)
  · intro hsums
    have hincreasing : ∀ input ∈ tx.keyInputs,
        (globalIndexes input.outputIndexes).Pairwise (· < ·) := fun input hmem ↦
      (globalIndexes_pairwise_lt_iff (hsemantic input hmem).1 (hsemantic input hmem).2).2
        (hsums input hmem)
    exact ⟨hincreasing, hexisting, h.getLargestReferencedHeight_eq hs
      (fun input hmem ↦ (hsemantic input hmem).1) hincreasing hexisting⟩

/-! ## Accepted transactions -/

/-- What the checks before a transaction enters the pool establish about its rings. -/
theorem State.checkTransaction_rings {s : State} {tid : Hash} {tx : Transaction}
    {binaryTx : BinaryArray} {unlockHeight : Height} {unlockTimestamp : Timestamp}
    {delta : DeltaState} {conflictHeight : Height}
    (h : s.checkTransaction cr c tid tx binaryTx unlockHeight unlockTimestamp true =
      .accept (delta, conflictHeight)) :
    (∀ input ∈ tx.keyInputs, input.outputIndexes ≠ [] ∧ 0 ∉ input.outputIndexes.tail) ∧
      ∀ input ∈ tx.keyInputs, ∀ index ∈ globalIndexes input.outputIndexes,
        (s.db.outputs.get (input.amount, index)).isSome := by
  simp only [checkTransaction, Check.bind_eq_accept_iff, Check.require_eq_accept_iff] at h
  obtain ⟨-, -, -, -, _, -, -, -, -, -, -, -, -, -, h⟩ := h
  split at h
  · cases h
  · split at h
    · cases h
    · next hsemantic =>
      refine ⟨validateSemantic_keyInputs hsemantic, ?_⟩
      split at h
      · cases h
      · cases h
      · next hredo =>
        simp only [redoTransactionGetError, Check.bind_eq_accept_iff] at hredo
        obtain ⟨⟨txDelta, height⟩, hinputs, -⟩ := hredo
        intro input hmem index hindex
        have hsome := redoInputs_checked (DeltaState.holds_empty _ _) hinputs input hmem index
          hindex
        exact DeltaState.Holds.reads_output (DeltaState.holds_empty _ _) hsome

/-- A transaction that is sent back is not announced. -/
theorem State.checkTransaction_reject_ne {s : State} {tid : Hash} {tx : Transaction}
    {binaryTx : BinaryArray} {unlockHeight : Height} {unlockTimestamp : Timestamp}
    {checkSigs : Bool} {result : AddTransactionResult} {conflictHeight : Height}
    (h : s.checkTransaction cr c tid tx binaryTx unlockHeight unlockTimestamp checkSigs =
      .reject (result, conflictHeight)) : result ≠ .broadcastAll := by
  rintro rfl
  simp only [checkTransaction, Check.bind_eq_reject_iff, Check.require_eq_reject_iff,
    Check.lift_ne_reject, Prod.mk.injEq, reduceCtorEq, false_and, and_false, false_or] at h
  obtain ⟨_, -, _, -, _, -, _, -, _, -, _, -, _, -, h⟩ := h
  split at h
  · cases h
  · split at h
    · cases h
    · split at h <;> cases h

theorem State.addTransaction_broadcastAll {s s' : State} {tid : Hash} {tx : Transaction}
    {binaryTx : BinaryArray} {conflictHeight : Height}
    (h : s.addTransaction cr c tid tx binaryTx = .ok (.broadcastAll, conflictHeight, s')) :
    ∃ (tip : Api.BlockHeader) (delta : DeltaState), s.getTip = .ok tip ∧
      s.checkTransaction cr c tid tx binaryTx (s.tipHeight + 1) tip.timestamp true =
        .accept (delta, conflictHeight) := by
  obtain ⟨tip, htip, h⟩ := bind_eq_ok_iff.1 h
  unfold addTransactionAt at h
  split at h
  · cases h
  · next result _ hcheck =>
    simp only [Except.ok.injEq, Prod.mk.injEq] at h
    exact absurd h.1 (checkTransaction_reject_ne hcheck)
  · next delta height hcheck =>
    obtain ⟨⟨pool, displaced⟩, -, h⟩ := bind_eq_ok_iff.1 h
    dsimp only at h
    split at h
    · obtain ⟨pool₁, -, h⟩ := bind_eq_ok_iff.1 h
      obtain ⟨pool₂, -, h⟩ := bind_eq_ok_iff.1 h
      have hheight := (Prod.mk.inj (Prod.mk.inj (Except.ok.inj h)).2).1
      exact ⟨tip, delta, htip, hheight ▸ hcheck⟩
    · cases h

/-- The rings of an accepted block whose signatures were checked. -/
theorem State.redoBlock_rings {s s' : State} {bhash : Hash} {block : Block}
    {info : Api.BlockHeader} (hsigs : checkSigs c info.height = true)
    (h : s.redoBlock cr c bhash block info = .ok (some s')) :
    ∃ args, startWorkGetError cr c s.reads info.height info.timestamp block.transactions =
      .ok args ∧ signaturesValid cr args = true := by
  simp only [redoBlock, ringWork, hsigs, if_true] at h
  split at h
  · cases h
  · next args hargs =>
    split at h
    · cases h
    · cases h
    · split at h
      · next hvalid => exact ⟨args, hargs, hvalid⟩
      · cases h

/-- Outside the checkpoint zone signatures are checked, but for the last height of all. -/
theorem State.checkSigs_of_outside {height : Height} (hzone : c.isInSwCheckpointZone height = false)
    (hlast : height ≠ 0xFFFFFFFF) : checkSigs c height = true := by
  have hlt : height < height + 1 := by
    rw [UInt32.lt_iff_toNat_lt, UInt32.toNat_add]
    have hne : height.toNat ≠ 0xFFFFFFFF := fun h ↦ hlast (UInt32.toNat_inj.1 h)
    have hbound := height.toNat_lt
    change height.toNat < (height.toNat + 1) % 2 ^ 32
    omega
  have hpos : height + 1 ≠ 0 := fun h ↦ by simp [h] at hlt
  unfold checkSigs
  unfold Currency.isInSwCheckpointZone at hzone ⊢
  split at hzone
  · next htestnet => simpa [htestnet] using hpos
  · next htestnet =>
    simp only [decide_eq_false_iff_not, UInt32.not_le] at hzone
    simpa [htestnet] using UInt32.lt_trans hzone hlt

/-- The rings of a block are read from the state below it. -/
theorem startWorkGetError_rings {reads : StateReads} {unlockHeight : Height}
    {unlockTimestamp : Timestamp} {txs : List Transaction} {args : List RingSignatureArg}
    (h : startWorkGetError cr c reads unlockHeight unlockTimestamp txs = .ok args) :
    ∀ tx ∈ txs, ∀ input ∈ tx.keyInputs, reads.readKeyimage input.keyImage = none ∧
      ∀ index ∈ globalIndexes input.outputIndexes,
        (reads.readAmountOutput input.amount index).isSome := by
  intro tx hmem input hinput
  have hsigned : tx.keyInputs = (signedInputs tx.inputs tx.signatures).map Prod.fst :=
    (map_fst_signedInputs _ _).symm
  rw [hsigned] at hinput
  obtain ⟨e, he, rfl⟩ := List.mem_map.1 hinput
  obtain ⟨hfresh, unps, hring, -⟩ := startWorkGetError_ok h tx hmem e he
  exact ⟨hfresh, readRing_isSome hring⟩

/-- A coinbase has no key inputs. -/
theorem checkCoinbase_keyInputs {coinbase : Transaction} {height : Height} {reward : Amount}
    (h : checkCoinbase cr c coinbase height = .accept reward) : coinbase.keyInputs = [] := by
  unfold checkCoinbase at h
  split at h
  · next hinputs => simp [TransactionPrefix.keyInputs, hinputs]
  · cases h
  · cases h

/-- The rings of an accepted transaction are distinct exactly when no sum of its offsets leaves
32 bits; a block at the last height is redone unchecked, and its rings must exist as well. -/
theorem State.ringsDistinct_of_accepted {isTestnet : Bool} :
    (∀ (s s' : State) (tid : Hash) (tx : Transaction) (binaryTx : BinaryArray)
      (conflictHeight : Height), Reachable cr (Currency.make cr isTestnet) s →
      s.addTransaction cr (Currency.make cr isTestnet) tid tx binaryTx =
        .ok (.broadcastAll, conflictHeight, s') →
      (s.RingsDistinct tx.toTransactionPrefix ↔
        ∀ input ∈ tx.keyInputs, input.offsetSum < 2 ^ 32)) ∧
    ∀ (s s' : State) (pb : PreparedBlock) (info : Api.BlockHeader),
      Visited cr (Currency.make cr isTestnet) s → Started s →
      s.Connects cr (Currency.make cr isTestnet) pb info →
      (Currency.make cr isTestnet).isInSwCheckpointZone info.height = false →
      s.redoBlock cr (Currency.make cr isTestnet) pb.bid pb.block info = .ok (some s') →
      ∀ tx ∈ pb.block.allTransactions, (s.RingsDistinct tx.toTransactionPrefix ↔
        (∀ input ∈ tx.keyInputs, input.offsetSum < 2 ^ 32) ∧
        (info.height = 0xFFFFFFFF → ∀ input ∈ tx.keyInputs,
          ∀ index ∈ globalIndexes input.outputIndexes,
            (s.db.outputs.get (input.amount, index)).isSome)) := by
  constructor
  · intro s s' tid tx binaryTx conflictHeight hreach hadd
    obtain ⟨tip, delta, -, hcheck⟩ := addTransaction_broadcastAll hadd
    obtain ⟨hsemantic, hexisting⟩ := checkTransaction_rings hcheck
    exact hreach.visited.ringsDistinct_iff hreach.started hsemantic hexisting
  · intro s s' pb info hvisited hs hconnects hzone hredo tx hmem
    obtain ⟨context, prev, m, -, haccepted, rfl⟩ := hconnects.accepted_on_tip
    have hsemantic : ∀ input ∈ tx.keyInputs,
        input.outputIndexes ≠ [] ∧ 0 ∉ input.outputIndexes.tail := by
      rcases List.mem_cons.1 hmem with rfl | hmem
      · simp [checkCoinbase_keyInputs haccepted.coinbase]
      · obtain ⟨fee, hfee⟩ := validateTransactions_ok haccepted.semantic tx hmem
        exact validateSemantic_keyInputs hfee
    have hiff := hvisited.ringsDistinct_iff hs hsemantic
    by_cases hlast : (m.info (Currency.make cr isTestnet) pb (blockInfo pb prev) prev).height =
        0xFFFFFFFF
    · exact ⟨fun hrings ↦ ⟨(hiff hrings.existing).1 hrings, fun _ ↦ hrings.existing⟩,
        fun h ↦ (hiff (h.2 hlast)).2 h.1⟩
    · have hexisting : ∀ input ∈ tx.keyInputs, ∀ index ∈ globalIndexes input.outputIndexes,
          (s.db.outputs.get (input.amount, index)).isSome := by
        rcases List.mem_cons.1 hmem with rfl | hmem
        · simp [checkCoinbase_keyInputs haccepted.coinbase]
        · obtain ⟨args, hargs, -⟩ := redoBlock_rings (checkSigs_of_outside hzone hlast) hredo
          exact fun input hinput ↦ (startWorkGetError_rings hargs tx hmem input hinput).2
      rw [hiff hexisting, and_iff_left fun h ↦ absurd h hlast]

/-! ## A ring with a repeated member -/

/-- It makes six outputs of one amount from an output of the checkpoint zone. -/
def sixOutputs : Transaction :=
  sampleTransaction [{ amount := 60001, outputIndexes := [0], keyImage := 7 }]
    (List.replicate 6 10000) (List.replicate 32 5) 0

/-- The block at height 1 with `sixOutputs`. -/
def sixOutputsBlock : BlockTemplate :=
  sampleTemplate 1 mainnet.genesisBlockHash 0 (sampleCoinbase 1 281470681743361 [1, 2])
    [sixOutputs]

/-- Its absolute indices are 5, 3 and 5. -/
def wrappingSpend : Transaction :=
  sampleTransaction [{ amount := 10000, outputIndexes := [5, 0xFFFFFFFE, 2], keyImage := 11 }]
    [9999] [] 1

theorem runFromStart_sixOutputs : returns (runFromStart sampleCrypto mainnet
      [.offer 1000 (sixOutputsBlock.rawBlock [sixOutputs])])
    (fun s ↦ returns
      (s.addTransaction sampleCrypto mainnet wrappingSpend.sampleHash wrappingSpend
        wrappingSpend.bytes) fun r ↦ r.1 = .broadcastAll) = true := by
  decide +kernel

theorem wrappingSpend_accepted : ∃ (s s' : State) (conflictHeight : Height),
    Reachable sampleCrypto mainnet s ∧
    s.addTransaction sampleCrypto mainnet wrappingSpend.sampleHash wrappingSpend
      wrappingSpend.bytes = .ok (.broadcastAll, conflictHeight, s') := by
  obtain ⟨s, hrun, htest⟩ := returns_iff.1 runFromStart_sixOutputs
  obtain ⟨⟨result, conflictHeight, s'⟩, hadd, hresult⟩ := returns_iff.1 htest
  simp only [decide_eq_true_eq] at hresult
  subst hresult
  exact ⟨s, s', conflictHeight, reachable_of_runFromStart hrun, hadd⟩

/-- A transaction is accepted whose ring names one output twice. -/
theorem State.addTransaction_wrapping : ∃ (s s' : State) (conflictHeight : Height),
    Reachable sampleCrypto mainnet s ∧
    s.addTransaction sampleCrypto mainnet wrappingSpend.sampleHash wrappingSpend
      wrappingSpend.bytes = .ok (.broadcastAll, conflictHeight, s') ∧
    ¬ s.RingsDistinct wrappingSpend.toTransactionPrefix := by
  obtain ⟨s, s', conflictHeight, hreach, hadd⟩ := wrappingSpend_accepted
  refine ⟨s, s', conflictHeight, hreach, hadd, fun hrings ↦ ?_⟩
  have hpairwise := hrings.increasing _ (List.mem_singleton_self _)
  exact absurd hpairwise (by decide)

theorem State.ringsDistinct_of_accepted_samples :
    (∃ (s s' : State) (conflictHeight : Height), Reachable sampleCrypto mainnet s ∧
      s.addTransaction sampleCrypto mainnet wrappingSpend.sampleHash wrappingSpend
        wrappingSpend.bytes = .ok (.broadcastAll, conflictHeight, s') ∧
      ¬ ∀ input ∈ wrappingSpend.keyInputs, input.offsetSum < 2 ^ 32) ∧
    ∃ (s s' : State) (pb : PreparedBlock) (info : Api.BlockHeader),
      Visited sampleCrypto testnet s ∧ Started s ∧ s.Connects sampleCrypto testnet pb info ∧
      testnet.isInSwCheckpointZone info.height = false ∧
      s.redoBlock sampleCrypto testnet pb.bid pb.block info = .ok (some s') ∧
      s.RingsDistinct pb.block.header.baseTransaction.toTransactionPrefix := by
  constructor
  · obtain ⟨s, s', conflictHeight, hreach, hadd⟩ := wrappingSpend_accepted
    refine ⟨s, s', conflictHeight, hreach, hadd, fun hsums ↦ ?_⟩
    have hrings := (State.ringsDistinct_of_accepted.1 s s' _ _ _ _ hreach hadd).2 hsums
    exact absurd (hrings.increasing _ (List.mem_singleton_self _)) (by decide)
  · obtain ⟨s, s', pb, info, hreach, hconnects, hzone, hredo, -⟩ := firstTestnetBlock_redone
    refine ⟨s, s', pb, info, hreach.visited, hreach.started, hconnects, hzone, hredo, ?_⟩
    have hiff := State.ringsDistinct_of_accepted.2 s s' pb info hreach.visited hreach.started
      hconnects hzone hredo _ List.mem_cons_self
    obtain ⟨_, _, m, -, haccepted, -⟩ := hconnects.accepted_on_tip
    have hnone := checkCoinbase_keyInputs haccepted.coinbase
    exact hiff.2 (by simp [hnone])

end Naza
