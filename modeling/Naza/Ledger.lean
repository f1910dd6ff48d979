import Naza.DeltaSpec

/-!
# The ledger

What a chain of blocks says about key images and outputs, without tables: a key image has the
height that spent it, an amount has the list of its outputs.  `connect` appends what a list of
transactions changes, `undo` takes back one transaction, and `ledgerOf` is the ledger of a chain.
-/

open Lib

namespace Naza

/-- An output of some amount. -/
abbrev LedgerOutput := UnlockTimePublickKeyHeightSpent

@[ext]
structure Ledger where
  keyImages : KeyImage → Option Height := fun _ ↦ none
  outputs : Amount → List LedgerOutput := fun _ ↦ []

/-! ## Spent flags -/

/-- The flag of every listed output is set. -/
def markSpent (spent : Bool) (amount : Amount) (spends : List (Amount × UInt32))
    (outputs : List LedgerOutput) : List LedgerOutput :=
  outputs.mapIdx fun i output ↦
    if (amount, UInt32.ofNat i) ∈ spends then { output with spent } else output

@[simp]
theorem length_markSpent (spent : Bool) (amount : Amount) (spends : List (Amount × UInt32))
    (outputs : List LedgerOutput) :
    (markSpent spent amount spends outputs).length = outputs.length := by
  simp [markSpent]

theorem getElem?_markSpent (spent : Bool) (amount : Amount) (spends : List (Amount × UInt32))
    (outputs : List LedgerOutput) (i : ℕ) :
    (markSpent spent amount spends outputs)[i]? = outputs[i]?.map fun output ↦
      if (amount, UInt32.ofNat i) ∈ spends then { output with spent } else output := by
  simp [markSpent]

@[simp]
theorem markSpent_nil (spent : Bool) (amount : Amount) (outputs : List LedgerOutput) :
    markSpent spent amount [] outputs = outputs := by
  apply List.ext_getElem?
  intro i
  simp [getElem?_markSpent]

theorem markSpent_append (spent : Bool) (amount : Amount) (l₁ l₂ : List (Amount × UInt32))
    (outputs : List LedgerOutput) :
    markSpent spent amount (l₁ ++ l₂) outputs =
      markSpent spent amount l₂ (markSpent spent amount l₁ outputs) := by
  apply List.ext_getElem?
  intro i
  simp only [getElem?_markSpent, Option.map_map, List.mem_append]
  congr 1
  funext output
  by_cases h₁ : (amount, UInt32.ofNat i) ∈ l₁ <;> by_cases h₂ : (amount, UInt32.ofNat i) ∈ l₂ <;>
    simp [h₁, h₂]

theorem markSpent_congr (spent : Bool) (amount : Amount) {l₁ l₂ : List (Amount × UInt32)}
    (h : ∀ e, e ∈ l₁ ↔ e ∈ l₂) (outputs : List LedgerOutput) :
    markSpent spent amount l₁ outputs = markSpent spent amount l₂ outputs := by
  simp only [markSpent, h]

/-- Marking reaches neither heights nor keys. -/
theorem map_markSpent {α : Type} (f : LedgerOutput → α)
    (hf : ∀ output spent, f { output with spent } = f output) (spent : Bool) (amount : Amount)
    (spends : List (Amount × UInt32)) (outputs : List LedgerOutput) :
    (markSpent spent amount spends outputs).map f = outputs.map f := by
  apply List.ext_getElem?
  intro i
  simp only [List.getElem?_map, getElem?_markSpent, Option.map_map]
  congr 1
  funext output
  simp only [Function.comp]
  split
  · rw [hf]
  · rfl

/-! ## What a list of transactions changes -/

/-- The coinbase and the transactions of a block, in the order they are redone. -/
def Block.allTransactions (block : Block) : List Transaction :=
  block.header.baseTransaction :: block.transactions

def keyImagesOf (txs : List Transaction) : List KeyImage :=
  txs.flatMap fun tx ↦ tx.keyImages

def pushesAll (txs : List Transaction) : List Push :=
  txs.flatMap fun tx ↦ tx.pushes

def spendsOf (txs : List Transaction) : List (Amount × UInt32) :=
  txs.flatMap fun tx ↦ tx.spends

@[simp]
theorem keyImagesOf_append (l₁ l₂ : List Transaction) :
    keyImagesOf (l₁ ++ l₂) = keyImagesOf l₁ ++ keyImagesOf l₂ := by
  simp [keyImagesOf]

@[simp]
theorem pushesAll_append (l₁ l₂ : List Transaction) :
    pushesAll (l₁ ++ l₂) = pushesAll l₁ ++ pushesAll l₂ := by
  simp [pushesAll]

namespace Ledger

/-- The key images are stored with a height. -/
def storeKeyImages (height : Height) (kis : List KeyImage) (L : Ledger) : Ledger :=
  { L with keyImages := fun ki ↦ if ki ∈ kis then some height else L.keyImages ki }

/-- The key images are erased. -/
def dropKeyImages (kis : List KeyImage) (L : Ledger) : Ledger :=
  { L with keyImages := fun ki ↦ if ki ∈ kis then none else L.keyImages ki }

/-- The outputs that a list of pushes gives to an amount. -/
def newOutputs (height : Height) (amount : Amount) (pushes : List Push) : List LedgerOutput :=
  (pushesOf amount pushes).map fun e ↦
    { unlockTime := e.1, publicKey := e.2, height, spent := false }

def push (height : Height) (pushes : List Push) (L : Ledger) : Ledger :=
  { L with outputs := fun amount ↦ L.outputs amount ++ newOutputs height amount pushes }

/-- As many outputs go as the list pushes. -/
def pop (pushes : List Push) (L : Ledger) : Ledger :=
  { L with outputs := fun amount ↦
      (L.outputs amount).take ((L.outputs amount).length - (pushesOf amount pushes).length) }

def setSpent (spent : Bool) (spends : List (Amount × UInt32)) (L : Ledger) : Ledger :=
  { L with outputs := fun amount ↦ markSpent spent amount spends (L.outputs amount) }

/-- Key images first, then outputs, then spends: the order in which a delta is replayed. -/
def connect (height : Height) (txs : List Transaction) (L : Ledger) : Ledger :=
  ((L.storeKeyImages height (keyImagesOf txs)).push height (pushesAll txs)).setSpent true
    (spendsOf txs)

/-- One transaction taken back: outputs first, then inputs. -/
def undo (tx : Transaction) (L : Ledger) : Ledger :=
  ((L.pop tx.pushes).dropKeyImages tx.keyImages).setSpent false tx.spends

@[simp]
theorem newOutputs_append (height : Height) (amount : Amount) (l₁ l₂ : List Push) :
    newOutputs height amount (l₁ ++ l₂) =
      newOutputs height amount l₁ ++ newOutputs height amount l₂ := by
  simp [newOutputs, pushesOf_append]

@[simp]
theorem length_newOutputs (height : Height) (amount : Amount) (pushes : List Push) :
    (newOutputs height amount pushes).length = (pushesOf amount pushes).length := by
  simp [newOutputs]

theorem storeKeyImages_append (height : Height) (l₁ l₂ : List KeyImage) (L : Ledger) :
    L.storeKeyImages height (l₁ ++ l₂) =
      (L.storeKeyImages height l₁).storeKeyImages height l₂ := by
  ext1
  · funext ki
    simp only [storeKeyImages, List.mem_append]
    by_cases h₁ : ki ∈ l₁ <;> by_cases h₂ : ki ∈ l₂ <;> simp [h₁, h₂]
  · rfl

theorem push_append (height : Height) (l₁ l₂ : List Push) (L : Ledger) :
    L.push height (l₁ ++ l₂) = (L.push height l₁).push height l₂ := by
  ext1
  · rfl
  · funext amount
    simp [push]

/-- Only the pushes of each amount and their order matter. -/
theorem push_congr (height : Height) {l₁ l₂ : List Push} (L : Ledger)
    (h : ∀ amount, pushesOf amount l₁ = pushesOf amount l₂) :
    L.push height l₁ = L.push height l₂ := by
  ext1
  · rfl
  · funext amount
    simp [push, newOutputs, h]

theorem setSpent_append (spent : Bool) (l₁ l₂ : List (Amount × UInt32)) (L : Ledger) :
    L.setSpent spent (l₁ ++ l₂) = (L.setSpent spent l₁).setSpent spent l₂ := by
  ext1
  · rfl
  · funext amount
    exact markSpent_append spent amount l₁ l₂ (L.outputs amount)

/-- Pops take the later outputs first. -/
theorem pop_append (l₁ l₂ : List Push) (L : Ledger) : L.pop (l₁ ++ l₂) = (L.pop l₂).pop l₁ := by
  ext1
  · rfl
  · funext amount
    simp only [pop, pushesOf_append, List.length_append, List.take_take, List.length_take]
    congr 1
    omega

@[simp]
theorem storeKeyImages_nil (height : Height) (L : Ledger) : L.storeKeyImages height [] = L := by
  ext <;> simp [storeKeyImages]

@[simp]
theorem dropKeyImages_nil (L : Ledger) : L.dropKeyImages [] = L := by
  ext <;> simp [dropKeyImages]

@[simp]
theorem push_nil (height : Height) (L : Ledger) : L.push height [] = L := by
  ext <;> simp [push, newOutputs]

@[simp]
theorem pop_nil (L : Ledger) : L.pop [] = L := by
  ext <;> simp [pop]

@[simp]
theorem setSpent_nil (spent : Bool) (L : Ledger) : L.setSpent spent [] = L := by
  ext <;> simp [setSpent]

@[simp]
theorem connect_nil (height : Height) (L : Ledger) : L.connect height [] = L := by
  simp [connect, keyImagesOf, pushesAll, spendsOf]

variable {L : Ledger} {height : Height} {txs : List Transaction} {tx : Transaction}

theorem connect_outputs (amount : Amount) : (L.connect height txs).outputs amount =
    markSpent true amount (spendsOf txs)
      (L.outputs amount ++ newOutputs height amount (pushesAll txs)) := rfl

theorem length_connect (amount : Amount) : ((L.connect height txs).outputs amount).length =
    (L.outputs amount).length + (pushesOf amount (pushesAll txs)).length := by
  simp [connect_outputs]

/-! ## Undo is the inverse of connect -/

/-- An amount whose outputs all have a 32-bit index. -/
def Indexed (L : Ledger) : Prop := ∀ amount, (L.outputs amount).length ≤ 2 ^ 32

/-! ## Without the spent flags -/

/-- The ledger as if nothing had been marked. -/
def forgetSpent (L : Ledger) : Ledger :=
  { L with outputs := fun amount ↦
      (L.outputs amount).map fun output ↦ { output with spent := false } }

theorem forgetSpent_setSpent (spent : Bool) (spends : List (Amount × UInt32)) (L : Ledger) :
    (L.setSpent spent spends).forgetSpent = L.forgetSpent := by
  ext1
  · rfl
  · funext amount
    exact map_markSpent _ (fun _ _ ↦ rfl) spent amount spends (L.outputs amount)

theorem length_of_forgetSpent {L₁ L₂ : Ledger} (h : L₁.forgetSpent = L₂.forgetSpent)
    (amount : Amount) : (L₁.outputs amount).length = (L₂.outputs amount).length := by
  have houtputs := congrArg (fun L ↦ (L.outputs amount).length) h
  simpa [forgetSpent] using houtputs

/-- Taking back ignores the flags. -/
theorem forgetSpent_undo (tx : Transaction) (L : Ledger) :
    (L.undo tx).forgetSpent = ((L.forgetSpent.pop tx.pushes).dropKeyImages tx.keyImages) := by
  rw [undo, forgetSpent_setSpent]
  ext1
  · rfl
  · funext amount
    simp [forgetSpent, dropKeyImages, pop, List.map_take]

theorem forgetSpent_connect (height : Height) (txs : List Transaction) (L : Ledger) :
    (L.connect height txs).forgetSpent =
      (L.forgetSpent.storeKeyImages height (keyImagesOf txs)).push height (pushesAll txs) := by
  rw [connect, forgetSpent_setSpent]
  ext1
  · rfl
  · funext amount
    simp [forgetSpent, push, storeKeyImages, newOutputs]

/-- Whatever the flags are, taking back removes what was connected. -/
theorem forgetSpent_foldr_undo {L' : Ledger}
    (hfresh : ∀ ki ∈ keyImagesOf txs, L.keyImages ki = none)
    (hnodup : (keyImagesOf txs).Nodup)
    (h : L'.forgetSpent = (L.connect height txs).forgetSpent) :
    (txs.foldr undo L').forgetSpent = L.forgetSpent := by
  induction txs using List.reverseRecOn generalizing L' with
  | nil => rwa [connect_nil] at h
  | append_singleton txs tx ih =>
    have hkis : keyImagesOf [tx] = tx.keyImages := by simp [keyImagesOf]
    have hpushes : pushesAll [tx] = tx.pushes := by simp [pushesAll]
    rw [keyImagesOf_append, hkis] at hnodup hfresh
    rw [List.foldr_append, List.foldr_cons, List.foldr_nil]
    refine ih (fun ki hki ↦ hfresh ki (List.mem_append_left _ hki))
      (List.nodup_append.1 hnodup).1 ?_
    rw [forgetSpent_undo, h, forgetSpent_connect, forgetSpent_connect, keyImagesOf_append,
      pushesAll_append, hkis, hpushes]
    ext1
    · funext ki
      simp only [dropKeyImages, pop, push, storeKeyImages, List.mem_append]
      by_cases hki : ki ∈ tx.keyImages
      · have hnot : ki ∉ keyImagesOf txs := fun hmem ↦
          (List.nodup_append.1 hnodup).2.2 _ hmem _ hki rfl
        have hnone := hfresh ki (List.mem_append_right _ hki)
        simp [hki, hnot, hnone, forgetSpent]
      · simp [hki]
    · funext amount
      simp only [dropKeyImages, pop, push, storeKeyImages, newOutputs_append]
      rw [← List.append_assoc, List.length_append, length_newOutputs _ _ tx.pushes,
        Nat.add_sub_cancel, List.take_left']
      rfl

end Ledger

/-! ## The ledger of a chain -/

/-- The blocks connected one above the other from height zero. -/
def ledgerOf (blocks : List Block) : Ledger :=
  blocks.zipIdx.foldl (fun L (block, height) ↦
    L.connect (UInt32.ofNat height) block.allTransactions) {}

@[simp]
theorem ledgerOf_nil : ledgerOf [] = {} := rfl

theorem ledgerOf_concat (blocks : List Block) (block : Block) : ledgerOf (blocks ++ [block]) =
    (ledgerOf blocks).connect (UInt32.ofNat blocks.length) block.allTransactions := by
  simp [ledgerOf, List.zipIdx_append]

/-- Along the outputs of an amount heights do not fall, and they stay below the next block. -/
theorem ledgerOf_heights {blocks : List Block} (hlen : blocks.length ≤ 2 ^ 32) (amount : Amount) :
    (((ledgerOf blocks).outputs amount).map fun output ↦ output.height).Pairwise (· ≤ ·) ∧
      ∀ output ∈ (ledgerOf blocks).outputs amount, output.height.toNat < blocks.length := by
  induction blocks using List.reverseRecOn with
  | nil => simp
  | append_singleton blocks block ih =>
    rw [List.length_append, List.length_singleton] at hlen ⊢
    obtain ⟨hsorted, hbelow⟩ := ih (by omega)
    have hnat : (UInt32.ofNat blocks.length).toNat = blocks.length :=
      UInt32.toNat_ofNat_of_lt' (by change blocks.length < 2 ^ 32; omega)
    have hheights : ((ledgerOf (blocks ++ [block])).outputs amount).map (fun o ↦ o.height) =
        ((ledgerOf blocks).outputs amount).map (fun o ↦ o.height) ++ List.replicate
          (pushesOf amount (pushesAll block.allTransactions)).length
          (UInt32.ofNat blocks.length) := by
      rw [ledgerOf_concat, Ledger.connect_outputs, map_markSpent _ (fun _ _ ↦ rfl),
        List.map_append, Ledger.newOutputs, List.map_map]
      congr 1
      exact List.map_const'
    constructor
    · rw [hheights, List.pairwise_append]
      refine ⟨hsorted, List.pairwise_replicate.2 (.inr (UInt32.le_refl _)), ?_⟩
      intro height hheight height' hheight'
      obtain ⟨output, houtput, rfl⟩ := List.mem_map.1 hheight
      rw [List.eq_of_mem_replicate hheight', UInt32.le_iff_toNat_le, hnat]
      exact (hbelow output houtput).le
    · intro output houtput
      have hmem : output.height ∈
          ((ledgerOf (blocks ++ [block])).outputs amount).map (fun o ↦ o.height) :=
        List.mem_map.2 ⟨output, houtput, rfl⟩
      rw [hheights, List.mem_append] at hmem
      rcases hmem with hmem | hmem
      · obtain ⟨output', houtput', heq⟩ := List.mem_map.1 hmem
        have hlt := hbelow output' houtput'
        rw [heq] at hlt
        omega
      · rw [List.eq_of_mem_replicate hmem, hnat]
        omega

end Naza
