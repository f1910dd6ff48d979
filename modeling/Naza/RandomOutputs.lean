import Naza.GlobalIndices
import Naza.Wallet.Builder

/-!
# Outputs to mix with

`get_random_outputs`: all outputs of an amount if there are few, else some that are drawn.  The
numbers that the generator and the distribution come to are a parameter.
-/

open Lib

namespace Naza

/-! ## The draw -/

/-- An output as it is told of. -/
def Api.Output.ofStored (amount : Amount) (num : UInt32) (unp : UnlockTimePublickKeyHeightSpent) :
    Api.Output where
  amount := amount
  globalIndex := num
  unlockTime := unp.unlockTime
  publicKey := unp.publicKey
  height := unp.height

/-- Both conditions under which an output is passed over do not hold. -/
def UnlockTimePublickKeyHeightSpent.IsFree (unp : UnlockTimePublickKeyHeightSpent) (c : Currency)
    (height : Height) (time : Timestamp) : Prop :=
  unp.spent = false ∧ unp.height ≤ height ∧
    c.isTransactionSpendTimeUnlocked unp.unlockTime height time = true

namespace State

variable (s : State) (c : Currency) (amount : Amount) (height : Height) (time : Timestamp)

/-- An output by its number, if it is not passed over. -/
def freeOutput (num : UInt32) : Except Fault (Option Api.Output) := do
  let unp ← expect (s.db.outputs.get (amount, num)) "num < total_count not found"
  if unp.spent = true ∨ height < unp.height then return none
  else if c.isTransactionSpendTimeUnlocked unp.unlockTime height time = false then return none
  else return some (.ofStored amount num unp)

/-- The loop over all numbers. -/
def freeOutputs : List UInt32 → Except Fault (List Api.Output)
  | [] => .ok []
  | num :: nums => do
    let item ← s.freeOutput c amount height time num
    let items ← freeOutputs nums
    return item.toList ++ items

/-- The loop over the attempts, with the numbers that were tried and the outputs that were found;
the bound is compared as an `int`. -/
def drawOutputs (draws : ℕ → ℤ) (totalCount : UInt32) (outsCount : ℕ) :
    ℕ → ℕ → List UInt32 → List Api.Output → Except Fault (List Api.Output)
  | 0, _, _, result => .ok result
  | left + 1, attempt, tried, result =>
    if outsCount ≤ result.length then .ok result
    else if draws attempt < 0 ∨ totalCount.toInt32.toInt ≤ draws attempt then
      drawOutputs draws totalCount outsCount left (attempt + 1) tried result
    else if UInt32.ofNat (draws attempt).toNat ∈ tried then
      drawOutputs draws totalCount outsCount left (attempt + 1) tried result
    else do
      let item ← s.freeOutput c amount height time (UInt32.ofNat (draws attempt).toNat)
      drawOutputs draws totalCount outsCount left (attempt + 1)
        (UInt32.ofNat (draws attempt).toNat :: tried) (result ++ item.toList)

def getRandomOutputs (draws : ℕ → ℤ) (outsCount : ℕ) : Except Fault (List Api.Output) :=
  let totalCount := s.nextGlobalIndexForAmount amount
  if totalCount.toNat ≤ outsCount then
    s.freeOutputs c amount height time ((List.range totalCount.toNat).map UInt32.ofNat)
  else s.drawOutputs c amount height time draws totalCount outsCount (outsCount * 20) 0 [] []

end State

/-! ## What is drawn -/

section Drawn

variable {s : State} {amount : Amount}

/-- An output that may be mixed with, as it is stored. -/
def State.Mixable (s : State) (c : Currency) (amount : Amount) (height : Height) (time : Timestamp)
    (out : Api.Output) : Prop :=
  ∃ unp, s.db.outputs.get (amount, out.globalIndex) = some unp ∧
    out = .ofStored amount out.globalIndex unp ∧ unp.IsFree c height time

/-- All numbers below the count are stored. -/
def State.Dense (s : State) (amount : Amount) : Prop :=
  ∀ num : UInt32, num < s.nextGlobalIndexForAmount amount →
    s.db.outputs.get (amount, num) ≠ none

variable (c : Currency) (height : Height) (time : Timestamp)

theorem State.freeOutput_eq {num : UInt32} {unp : UnlockTimePublickKeyHeightSpent}
    (hget : s.db.outputs.get (amount, num) = some unp) :
    (s.freeOutput c amount height time num = .ok none ∧ ¬ unp.IsFree c height time) ∨
      s.freeOutput c amount height time num = .ok (some (.ofStored amount num unp)) ∧
        unp.IsFree c height time := by
  have hexpect : s.freeOutput c amount height time num =
      if unp.spent = true ∨ height < unp.height then .ok none
      else if c.isTransactionSpendTimeUnlocked unp.unlockTime height time = false then .ok none
      else .ok (some (.ofStored amount num unp)) := by
    rw [freeOutput, hget]
    rfl
  rw [hexpect]
  by_cases hspent : unp.spent = true ∨ height < unp.height
  · rw [if_pos hspent]
    refine Or.inl ⟨rfl, fun hfree ↦ ?_⟩
    rcases hspent with hyes | hlt
    · rw [hfree.1] at hyes
      cases hyes
    · exact absurd hfree.2.1 (UInt32.not_le.2 hlt)
  rw [if_neg hspent]
  rw [not_or, Bool.not_eq_true, UInt32.not_lt] at hspent
  by_cases hlocked : c.isTransactionSpendTimeUnlocked unp.unlockTime height time = false
  · rw [if_pos hlocked]
    refine Or.inl ⟨rfl, fun hfree ↦ ?_⟩
    rw [hfree.2.2] at hlocked
    cases hlocked
  · rw [if_neg hlocked]
    exact Or.inr ⟨rfl, hspent.1, hspent.2, Bool.not_eq_false _ ▸ hlocked⟩

/-- The output of a number, if any, is one to mix with. -/
theorem State.Dense.freeOutput (h : s.Dense amount) {num : UInt32}
    (hnum : num < s.nextGlobalIndexForAmount amount) :
    ∃ item, s.freeOutput c amount height time num = .ok item ∧
      (∀ out ∈ item.toList, out.globalIndex = num ∧ s.Mixable c amount height time out) ∧
        ∀ out, s.Mixable c amount height time out → out.globalIndex = num → out ∈ item.toList := by
  obtain ⟨unp, hget⟩ := Option.ne_none_iff_exists'.1 (h num hnum)
  rcases State.freeOutput_eq c height time hget with
    ⟨heq, hnot⟩ | ⟨heq, hfree⟩
  · refine ⟨none, heq, fun out hout ↦ absurd hout List.not_mem_nil, ?_⟩
    rintro out ⟨unp', hget', -, hfree⟩ rfl
    rw [hget, Option.some_inj] at hget'
    exact absurd (hget' ▸ hfree) hnot
  · refine ⟨_, heq, fun out hout ↦ ?_, ?_⟩
    · obtain rfl := List.mem_singleton.1 hout
      exact ⟨rfl, unp, hget, rfl, hfree⟩
    · rintro out ⟨unp', hget', hout, -⟩ rfl
      rw [hget, Option.some_inj] at hget'
      rw [hout, ← hget']
      exact List.mem_singleton_self _

/-- The outputs of some numbers are those of them to mix with. -/
theorem State.Dense.freeOutputs (h : s.Dense amount) {nums : List UInt32}
    (hnums : ∀ num ∈ nums, num < s.nextGlobalIndexForAmount amount) :
    ∃ items, s.freeOutputs c amount height time nums = .ok items ∧
      (items.map Api.Output.globalIndex).Sublist nums ∧
      (∀ out ∈ items, s.Mixable c amount height time out) ∧
      ∀ out, s.Mixable c amount height time out → out.globalIndex ∈ nums → out ∈ items := by
  induction nums with
  | nil => exact ⟨[], rfl, .slnil, fun out hout ↦ absurd hout List.not_mem_nil,
      fun out _ hmem ↦ absurd hmem List.not_mem_nil⟩
  | cons num nums ih =>
    rw [List.forall_mem_cons] at hnums
    obtain ⟨item, hitem, hfound, hall⟩ := h.freeOutput c height time hnums.1
    obtain ⟨items, hitems, hsublist, hmixable, hrest⟩ := ih hnums.2
    refine ⟨item.toList ++ items, ?_, ?_, ?_, fun out hout hmem ↦ ?_⟩
    · rw [State.freeOutputs, bind_eq_ok_iff]
      exact ⟨item, hitem, bind_eq_ok_iff.2 ⟨items, hitems, rfl⟩⟩
    · rw [List.map_append]
      cases item with
      | none => exact hsublist.cons num
      | some out =>
        have hindex : out.globalIndex = num := (hfound out (List.mem_singleton_self _)).1
        change (out.globalIndex :: items.map Api.Output.globalIndex).Sublist _
        rw [hindex]
        exact hsublist.cons_cons num
    · intro out hout
      rcases List.mem_append.1 hout with hout | hout
      · exact (hfound out hout).2
      · exact hmixable out hout
    · rcases List.mem_cons.1 hmem with heq | hmem
      · exact List.mem_append_left _ (hall out hout heq)
      · exact List.mem_append_right _ (hrest out hout hmem)

/-- What the attempts have found: outputs to mix with, under different numbers that were tried. -/
structure Found (s : State) (c : Currency) (amount : Amount) (height : Height) (time : Timestamp)
    (outsCount : ℕ) (tried : List UInt32) (result : List Api.Output) : Prop where
  mixable : ∀ out ∈ result, s.Mixable c amount height time out
  tried : ∀ out ∈ result, out.globalIndex ∈ tried
  nodup : (result.map Api.Output.globalIndex).Nodup
  length_le : result.length ≤ outsCount

theorem State.Dense.drawOutputs (h : s.Dense amount) (draws : ℕ → ℤ) {outsCount : ℕ}
    (left attempt : ℕ) {tried : List UInt32} {result : List Api.Output}
    (hfound : Found s c amount height time outsCount tried result) :
    ∃ tried' result', s.drawOutputs c amount height time draws
      (s.nextGlobalIndexForAmount amount) outsCount left attempt tried result = .ok result' ∧
        Found s c amount height time outsCount tried' result' := by
  induction left generalizing attempt tried result with
  | zero => exact ⟨tried, result, rfl, hfound⟩
  | succ left ih =>
    rw [State.drawOutputs]
    by_cases hfull : outsCount ≤ result.length
    · rw [if_pos hfull]
      exact ⟨tried, result, rfl, hfound⟩
    rw [if_neg hfull]
    by_cases hout : draws attempt < 0 ∨
        (s.nextGlobalIndexForAmount amount).toInt32.toInt ≤ draws attempt
    · rw [if_pos hout]
      exact ih (attempt + 1) hfound
    rw [if_neg hout]
    by_cases htried : UInt32.ofNat (draws attempt).toNat ∈ tried
    · rw [if_pos htried]
      exact ih (attempt + 1) hfound
    rw [if_neg htried]
    -- a number that is not negative as an `int` is below the count as it is
    have hnum : UInt32.ofNat (draws attempt).toNat < s.nextGlobalIndexForAmount amount := by
      rw [not_or, not_lt, not_le] at hout
      have hint : (s.nextGlobalIndexForAmount amount).toInt32.toInt =
          ((s.nextGlobalIndexForAmount amount).toNat : ℤ).bmod (2 ^ 32) := by
        rw [← Int32.toInt_toBitVec, UInt32.toBitVec_toInt32, BitVec.toInt_eq_toNat_bmod]
        rfl
      have hlt := (s.nextGlobalIndexForAmount amount).toNat_lt
      have hbmod : ((s.nextGlobalIndexForAmount amount).toNat : ℤ).bmod (2 ^ 32) ≤
          (s.nextGlobalIndexForAmount amount).toNat := by
        rw [Int.bmod_def]
        split <;> omega
      rw [UInt32.lt_iff_toNat_lt, toNat_ofNat_of_lt (by omega)]
      omega
    obtain ⟨item, hitem, hfree, -⟩ := h.freeOutput c height time hnum
    have hfound' : Found s c amount height time outsCount
        (UInt32.ofNat (draws attempt).toNat :: tried) (result ++ item.toList) := by
      refine ⟨fun out hmem ↦ ?_, fun out hmem ↦ ?_, ?_, ?_⟩
      · rcases List.mem_append.1 hmem with hmem | hmem
        · exact hfound.mixable out hmem
        · exact (hfree out hmem).2
      · rcases List.mem_append.1 hmem with hmem | hmem
        · exact List.mem_cons_of_mem _ (hfound.tried out hmem)
        · rw [(hfree out hmem).1]
          exact List.mem_cons_self
      · rw [List.map_append, List.nodup_append]
        refine ⟨hfound.nodup, ?_, ?_⟩
        · cases item with
          | none => exact List.nodup_nil
          | some out => exact List.nodup_singleton _
        · rintro a ha b hb rfl
          obtain ⟨out, hout', rfl⟩ := List.mem_map.1 ha
          obtain ⟨out', hout'', heq⟩ := List.mem_map.1 hb
          rw [(hfree out' hout'').1] at heq
          exact htried (heq ▸ hfound.tried out hout')
      · rw [List.length_append]
        have hone : item.toList.length ≤ 1 := by
          cases item with
          | none => exact Nat.zero_le _
          | some out => exact Nat.le_refl _
        omega
    obtain ⟨tried', result', hok, hfound''⟩ := ih (attempt + 1) hfound'
    exact ⟨tried', result', bind_eq_ok_iff.2 ⟨item, hitem, hok⟩, hfound''⟩

end Drawn

/-! ## Visited states -/

variable {cr : Crypto} {c : Currency} {s : State}

theorem Visited.dense (h : Visited cr c s) (amount : Amount) : s.Dense amount := by
  obtain ⟨-, hnext, hstored⟩ := h.globalIndices.2 amount
  intro num hnum hnone
  have hplaced := hstored num
  rw [hnone, Option.map_none, eq_comm, List.getElem?_eq_none_iff] at hplaced
  rw [hnext, UInt32.lt_iff_toNat_lt, UInt32.toNat_ofNat'] at hnum
  have hmod := Nat.mod_le (chainOutputs s.mainBlocks amount).length (2 ^ 32)
  omega

/-- What a node tells of outputs to mix with: no more than asked for, no one twice, each an unlocked
output of the main chain that is not spent, which the checks of a ring then find as it was told;
and where the chain has no more outputs than asked for, all such outputs. -/
theorem Visited.getRandomOutputs (h : Visited cr c s) (amount : Amount) (height : Height)
    (time : Timestamp) (draws : ℕ → ℤ) (outsCount : ℕ) :
    ∃ result, s.getRandomOutputs c amount height time draws outsCount = .ok result ∧
      result.length ≤ outsCount ∧ (result.map Api.Output.globalIndex).Nodup ∧
      (∀ out ∈ result, s.Mixable c amount height time out ∧
        TransactionBuilder.Known c s.reads height time out ∧
        (chainOutputs s.mainBlocks amount)[out.globalIndex.toNat]? =
          some ⟨out.unlockTime, out.publicKey, out.height⟩) ∧
      ((chainOutputs s.mainBlocks amount).length < 2 ^ 32 →
        (chainOutputs s.mainBlocks amount).length ≤ outsCount →
          ∀ out, s.Mixable c amount height time out → out ∈ result) := by
  have hdense := h.dense amount
  obtain ⟨-, hnext, hstored⟩ := h.globalIndices.2 amount
  have hchain : ∀ out, s.Mixable c amount height time out →
      TransactionBuilder.Known c s.reads height time out ∧
        (chainOutputs s.mainBlocks amount)[out.globalIndex.toNat]? =
          some ⟨out.unlockTime, out.publicKey, out.height⟩ := by
    rintro out ⟨unp, hget, hout, hfree⟩
    have hamount : out.amount = amount := by rw [hout]; rfl
    refine ⟨⟨unp, ?_, ?_, hfree.2.2⟩, ?_⟩
    · rw [hamount]
      exact hget
    · rw [hout]
      rfl
    · rw [← hstored, hget, Option.map_some, hout]
      rfl
  have htotal : (s.nextGlobalIndexForAmount amount).toNat < 2 ^ 32 := UInt32.toNat_lt _
  have hvalue : ∀ i < (s.nextGlobalIndexForAmount amount).toNat, (UInt32.ofNat i).toNat = i :=
    fun i hi ↦ toNat_ofNat_of_lt (by omega)
  unfold State.getRandomOutputs
  dsimp only
  by_cases hfew : (s.nextGlobalIndexForAmount amount).toNat ≤ outsCount
  · rw [if_pos hfew]
    have hnums : ∀ num ∈ (List.range (s.nextGlobalIndexForAmount amount).toNat).map UInt32.ofNat,
        num < s.nextGlobalIndexForAmount amount := by
      rw [List.forall_mem_map]
      intro i hi
      rw [UInt32.lt_iff_toNat_lt, hvalue i (List.mem_range.1 hi)]
      exact List.mem_range.1 hi
    obtain ⟨items, hitems, hsublist, hmixable, hall⟩ := hdense.freeOutputs c height time hnums
    refine ⟨items, hitems, ?_, ?_, fun out hout ↦
      ⟨hmixable out hout, hchain out (hmixable out hout)⟩,
      fun hsmall _ out hout ↦ hall out hout ?_⟩
    · have hlength := hsublist.length_le
      rw [List.length_map, List.length_map, List.length_range] at hlength
      omega
    · refine hsublist.nodup ((List.nodup_map_iff_inj_on List.nodup_range).2 fun i hi j hj hij ↦ ?_)
      have hnat := congrArg UInt32.toNat hij
      rwa [hvalue i (List.mem_range.1 hi), hvalue j (List.mem_range.1 hj)] at hnat
    · obtain ⟨hlt, -⟩ := List.getElem?_eq_some_iff.1 (hchain out hout).2
      refine List.mem_map.2 ⟨out.globalIndex.toNat, List.mem_range.2 ?_, UInt32.ofNat_toNat⟩
      rw [hnext, toNat_ofNat_of_lt hsmall]
      exact hlt
  · rw [if_neg hfew]
    have hnone : Found s c amount height time outsCount [] [] :=
      ⟨fun out hout ↦ absurd hout List.not_mem_nil, fun out hout ↦ absurd hout List.not_mem_nil,
        List.nodup_nil, Nat.zero_le _⟩
    obtain ⟨tried, result, hresult, hfound⟩ := hdense.drawOutputs c height time draws
      (outsCount * 20) 0 hnone
    refine ⟨result, hresult, hfound.length_le, hfound.nodup,
      fun out hout ↦ ⟨hfound.mixable out hout, hchain out (hfound.mixable out hout)⟩,
      fun hsmall hle ↦ absurd ?_ hfew⟩
    rw [hnext, toNat_ofNat_of_lt hsmall]
    exact hle

theorem runFromStart_getRandomOutputs : returns (runFromStart sampleCrypto testnet
      [.offer 1000 (firstTestnetBlock.rawBlock [])]) (fun s ↦
      returns (s.getRandomOutputs testnet 1000 100 1000 (fun attempt ↦ [2, 2, 0].getD attempt 1) 2)
        fun result ↦ decide (result.map Api.Output.globalIndex = [2, 0])) = true := by
  decide +kernel

/-- Two of the three outputs of an amount are drawn, at the third attempt. -/
theorem Visited.getRandomOutputs_firstTestnetBlock :
    ∃ (s : State) (first second : Api.Output), Visited sampleCrypto testnet s ∧
      s.getRandomOutputs testnet 1000 100 1000 (fun attempt ↦ [2, 2, 0].getD attempt 1) 2 =
        .ok [first, second] ∧
      first.globalIndex = 2 ∧ s.Mixable testnet 1000 100 1000 first ∧
      second.globalIndex = 0 ∧ s.Mixable testnet 1000 100 1000 second := by
  obtain ⟨s, hrun, htest⟩ := returns_iff.1 runFromStart_getRandomOutputs
  have hvisited := (reachable_of_runFromStart hrun).visited
  obtain ⟨result, hok, -, -, hfound, -⟩ := Visited.getRandomOutputs hvisited 1000 100 1000
    (fun attempt ↦ [2, 2, 0].getD attempt 1) 2
  obtain ⟨result', hok', hindices⟩ := returns_iff.1 htest
  obtain rfl := Except.ok.inj (hok.symm.trans hok')
  obtain ⟨first, rest, rfl, hfirst, hrest⟩ := List.map_eq_cons_iff.1 (of_decide_eq_true hindices)
  obtain ⟨second, rest, rfl, hsecond, hnil⟩ := List.map_eq_cons_iff.1 hrest
  obtain rfl := List.map_eq_nil_iff.1 hnil
  exact ⟨s, first, second, hvisited, hok, hfirst, (hfound first (by simp)).1, hsecond,
    (hfound second (by simp)).1⟩

end Naza
