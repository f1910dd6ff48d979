import Naza.HeaderCache

/-!
# Children counters and the index of tips

The counters of the block tree over `add_block` and `prune_branch`, with the map of headers in
memory.  They count the stored children as long as no block is hung on a header that is only in
memory, which `prune_branch` leaves there.
-/

open Lib

namespace Naza

variable {cr : Crypto} {c : Currency}

/-! ## Adding a block with the headers in memory -/

namespace State

section Definitions

variable (cr : Crypto) (c : Currency)

/-- The state as `read_header` shows it: the map of headers in memory before the table. -/
def seen (k : HeaderCaches) (s : State) : State :=
  { s with db := { s.db with headers := s.db.headers.putAll k.headerCache.toList } }

/-- The header above a block, from memory or from the table. -/
def prevInfoCached (pb : PreparedBlock) (k : HeaderCaches) (s : State) :
    Except Fault (Option Api.BlockHeader × HeaderCaches) :=
  if pb.bid = c.genesisBlockHash then .ok (some { height := 0xFFFFFFFF }, k)
  else s.readHeaderCached c pb.block.header.previousBlockHash 0 k

/-- `add_block` up to its first write: the header above and the header of the block, or what it
returns at once. -/
def examine (now : Timestamp) (pb : PreparedBlock) (k : HeaderCaches) (s : State) :
    Except Fault (Except BroadcastAction (Api.BlockHeader × Api.BlockHeader) × HeaderCaches) := do
  let (header, k) ← s.readHeaderCached c pb.bid 0 k
  if s.hasBlock pb.bid = true ∧ header.isSome = true then return (.error .nothing, k)
  else
    let (prevInfo, k) ← s.prevInfoCached c pb k
    match prevInfo with
    | none => return (.error .nothing, k)
    | some prevInfo =>
      match (s.seen k).checkStandaloneConsensus cr c now pb (blockInfo pb prevInfo) prevInfo
          true with
      | .fault f => .error f
      | .reject _ => return (.error .ban, k)
      | .accept info => return (.ok (prevInfo, info), k)

/-- The block hung under the header above it; the genesis block is applied at once. -/
def hangBlock (pb : PreparedBlock) (info prevInfo : Api.BlockHeader) (s : State) :
    Except Fault State :=
  if pb.bid = c.genesisBlockHash then s.applyGenesis cr c pb info
  else .ok (s.modifyChildrenCounter prevInfo.cumulativeDifficulty
    pb.block.header.previousBlockHash 1)

/-- The choice of the chain, whose header reads may be answered from memory. -/
def chooseChainCached (pb : PreparedBlock) (info : Api.BlockHeader) (k : HeaderCaches)
    (s : State) : Except Fault (Option State) := do
  match ← (s.seen k).chooseChain cr c pb info with
  | none => return none
  | some s' => return some { s' with db := { s'.db with headers := s.db.headers } }

/-- `add_block`; `db_commit` clears the map. -/
def addBlockCached (now : Timestamp) (pb : PreparedBlock) (k : HeaderCaches) (s : State) :
    Except Fault (BroadcastAction × State × HeaderCaches) := do
  match ← s.examine cr c now pb k with
  | (.error action, k) => return (action, s, k)
  | (.ok (prevInfo, info), k) =>
    let s ← s.storeBlock pb info
    let s ← s.hangBlock cr c pb info prevInfo
    s.checkChildrenCounter info.cumulativeDifficulty pb.bid 1
    let s := s.modifyChildrenCounter info.cumulativeDifficulty pb.bid (-1)
    match ← s.chooseChainCached cr c pb info k with
    | none => return (.ban, s, k)
    | some s =>
      let k := if s.tipHeight % 50000 = 49999 then { k with headerCache := ∅ } else k
      return (if info.hash = s.tipBid then .broadcastAll else .nothing, s, k)

end Definitions

/-! ## What the choice of the chain leaves alone -/

/-- The tables of the block tree. -/
def treeTables (s : State) := (s.db.blocks, s.db.headers, s.db.children, s.db.cdTips)

variable {s s' : State}

theorem treeTables_of_treePart (h : s'.treePart = s.treePart) :
    s'.treeTables = s.treeTables := by
  change s'.treePart.treeTables = s.treePart.treeTables
  rw [h]

theorem tipChanged_treeTables (h : s.tipChanged c = .ok s') : s'.treeTables = s.treeTables := by
  obtain ⟨_, _, _, _, _, rfl⟩ := tipChanged_eq h
  rfl

theorem pushChain_treeTables {header : Api.BlockHeader} (h : s.pushChain c header = .ok s') :
    s'.treeTables = s.treeTables := by
  obtain ⟨_, _, _, rfl⟩ := pushChain_eq h
  rfl

theorem undoTip_treeTables {undone undone' : UndoneTransactions}
    (h : s.undoTip cr c undone = .ok (undone', s')) : s'.treeTables = s.treeTables := by
  obtain ⟨_, _, _, s₁, s₂, _, _, hundo, hpop, htip⟩ := undoTip_eq h
  obtain ⟨_, _, _, _, rfl⟩ := popChain_eq hpop
  rw [tipChanged_treeTables htip]
  have htables := treeTables_of_treePart (undoBlockIndexed_treePart hundo)
  exact htables

theorem undoTo_treeTables {common : Hash} {fuel : ℕ} {undone undone' : UndoneTransactions}
    (h : s.undoTo cr c common fuel undone = .ok (undone', s')) :
    s'.treeTables = s.treeTables := by
  induction fuel generalizing s undone with
  | zero =>
    unfold undoTo at h
    split at h
    · rw [(Prod.mk.inj (Except.ok.inj h)).2]
    · cases h
  | succ fuel ih =>
    unfold undoTo at h
    split at h
    · rw [(Prod.mk.inj (Except.ok.inj h)).2]
    · obtain ⟨⟨undone₁, s₁⟩, h₁, h⟩ := bind_eq_ok_iff.1 h
      exact (ih h).trans (undoTip_treeTables h₁)

theorem redoOne_treeTables {recentPb : PreparedBlock} {recentInfo : Api.BlockHeader} {chha : Hash}
    {undone undone' : UndoneTransactions}
    (h : s.redoOne cr c recentPb recentInfo chha undone = .ok (some (undone', s'))) :
    s'.treeTables = s.treeTables := by
  have hconnect : ∀ {bid : Hash} {data : BinaryArray} {raw : RawBlock}
      {block : Block} {info : Api.BlockHeader} {hash : Hash} {s₁ : State},
      s.redoBlockIndexed cr c bid data raw block info hash = .ok (some s₁) →
      s₁.pushChain c info = .ok s' → s'.treeTables = s.treeTables := by
    intro _ _ _ _ _ _ _ hredo hpush
    exact (pushChain_treeTables hpush).trans
      (treeTables_of_treePart (redoBlockIndexed_treePart hredo))
  unfold redoOne at h
  split at h
  · obtain ⟨_, _, h⟩ := bind_eq_ok_iff.1 h
    obtain ⟨r, hredo, h⟩ := bind_eq_ok_iff.1 h
    cases r with
    | none => cases h
    | some s₁ =>
      obtain ⟨s₂, hpush, h⟩ := bind_eq_ok_iff.1 h
      obtain ⟨_, rfl⟩ := Prod.mk.inj (Option.some.inj (Except.ok.inj h))
      exact hconnect hredo hpush
  · obtain ⟨r, _, h⟩ := bind_eq_ok_iff.1 h
    cases r with
    | none => cases h
    | some r =>
      dsimp only at h
      split at h
      · cases h
      · obtain ⟨_, _, h⟩ := bind_eq_ok_iff.1 h
        obtain ⟨info, _, h⟩ := bind_eq_ok_iff.1 h
        obtain ⟨_, _, h⟩ := bind_eq_ok_iff.1 h
        obtain ⟨r, hredo, h⟩ := bind_eq_ok_iff.1 h
        cases r with
        | none => cases h
        | some s₁ =>
          obtain ⟨s₂, hpush, h⟩ := bind_eq_ok_iff.1 h
          obtain ⟨_, rfl⟩ := Prod.mk.inj (Option.some.inj (Except.ok.inj h))
          exact hconnect hredo hpush

theorem redoBranch_treeTables {recentPb : PreparedBlock} {recentInfo : Api.BlockHeader}
    {branch : List Hash} {undone undone' : UndoneTransactions} {result : Bool}
    (h : s.redoBranch cr c recentPb recentInfo branch undone = .ok (undone', s', result)) :
    s'.treeTables = s.treeTables := by
  induction branch generalizing s undone with
  | nil => rw [(Prod.mk.inj (Prod.mk.inj (Except.ok.inj h)).2).1]
  | cons chha branch ih =>
    obtain ⟨r, hone, h⟩ := bind_eq_ok_iff.1 h
    cases r with
    | none => rw [(Prod.mk.inj (Prod.mk.inj (Except.ok.inj h)).2).1]
    | some r => exact (ih h).trans (redoOne_treeTables hone)

theorem readdTransaction_treeTables {tid : Hash} {tx : Transaction} {binaryTx : BinaryArray}
    (h : s.readdTransaction cr c tid tx binaryTx = .ok s') : s'.treeTables = s.treeTables := by
  obtain ⟨⟨_, _, t⟩, hadd, h⟩ := bind_eq_ok_iff.1 h
  obtain ⟨_, _, rfl⟩ := addTransaction_frame hadd
  rw [← Except.ok.inj h]
  rfl

theorem onReorganization_treeTables {undone : UndoneTransactions} {undoneBlocks : Bool}
    (h : s.onReorganization cr c undone undoneBlocks = .ok s') : s'.treeTables = s.treeTables := by
  obtain ⟨s₁, h₁, h⟩ := bind_eq_ok_iff.1 h
  obtain ⟨s₂, h₂, h⟩ := bind_eq_ok_iff.1 h
  have htables₁ : s₁.treeTables = s.treeTables := by
    cases undoneBlocks with
    | false => exact Except.ok.inj h₁ ▸ rfl
    | true =>
      exact foldlM_ok_preserves (I := fun t : State ↦ t.treeTables = s.treeTables)
        (fun _ _ _ _ hx hI ↦ (readdTransaction_treeTables hx).trans hI) h₁ rfl
  have htables₂ : s₂.treeTables = s.treeTables :=
    foldlM_ok_preserves (I := fun t : State ↦ t.treeTables = s.treeTables)
      (fun _ _ _ _ hx hI ↦ (readdTransaction_treeTables hx).trans hI) h₂ htables₁
  rw [← Except.ok.inj h]
  exact htables₂

theorem reorganizeBlocks_treeTables {bid : Hash} {recentPb : PreparedBlock}
    {recentInfo : Api.BlockHeader} {result : Bool}
    (h : s.reorganizeBlocks cr c bid recentPb recentInfo = .ok (result, s')) :
    s'.treeTables = s.treeTables := by
  obtain ⟨⟨chain1, chain2, common⟩, _, h⟩ := bind_eq_ok_iff.1 h
  dsimp only at h
  split at h
  · rw [(Prod.mk.inj (Except.ok.inj h)).2]
  · simp only [bind_eq_ok_iff, Prod.exists] at h
    obtain ⟨undone₁, s₁, h₁, undone₂, s₂, result', h₂, s₃, h₃, h⟩ := h
    rw [← (Prod.mk.inj (Except.ok.inj h)).2, onReorganization_treeTables h₃,
      redoBranch_treeTables h₂, undoTo_treeTables h₁]

theorem chooseChain_treeTables {pb : PreparedBlock} {info : Api.BlockHeader}
    (h : s.chooseChain cr c pb info = .ok (some s')) : s'.treeTables = s.treeTables := by
  unfold chooseChain at h
  split at h
  · split at h
    · obtain ⟨r, hredo, h⟩ := bind_eq_ok_iff.1 h
      cases r with
      | none => cases h
      | some s₁ =>
        obtain ⟨s₂, hpush, h⟩ := bind_eq_ok_iff.1 h
        rw [← Option.some.inj (Except.ok.inj h), pushChain_treeTables hpush]
        exact treeTables_of_treePart (redoBlockIndexed_treePart hredo)
    · obtain ⟨⟨result, s₁⟩, hreorganize, h⟩ := bind_eq_ok_iff.1 h
      rw [← Option.some.inj (Except.ok.inj h)]
      exact reorganizeBlocks_treeTables hreorganize
  · rw [← Option.some.inj (Except.ok.inj h)]

theorem chooseChainCached_treeTables {pb : PreparedBlock} {info : Api.BlockHeader}
    {k : HeaderCaches} (h : s.chooseChainCached cr c pb info k = .ok (some s')) :
    s'.treeTables = s.treeTables := by
  obtain ⟨r, hchoose, h⟩ := bind_eq_ok_iff.1 h
  cases r with
  | none => cases h
  | some s₁ =>
    rw [← Option.some.inj (Except.ok.inj h)]
    have htables := chooseChain_treeTables hchoose
    obtain ⟨hblocks, -, hchildren, htips⟩ : s₁.db.blocks = s.db.blocks ∧
        s₁.db.headers = (s.seen k).db.headers ∧ s₁.db.children = s.db.children ∧
          s₁.db.cdTips = s.db.cdTips := by
      simpa [treeTables, seen] using htables
    unfold treeTables
    rw [← hblocks, ← hchildren, ← htips]

theorem applyGenesis_treeTables {pb : PreparedBlock} {info : Api.BlockHeader}
    (h : s.applyGenesis cr c pb info = .ok s') : s'.treeTables = s.treeTables := by
  obtain ⟨r, hredo, h⟩ := bind_eq_ok_iff.1 h
  obtain ⟨s₁, hsome, hpush⟩ := bind_eq_ok_iff.1 h
  rw [expect_eq_ok_iff] at hsome
  subst hsome
  exact (pushChain_treeTables hpush).trans
    (treeTables_of_treePart (redoBlockIndexed_treePart hredo))

end State

/-! ## The counters -/

/-- How many stored headers name the block as the previous one. -/
def State.childrenOf (s : State) (bid : Hash) : ℕ :=
  s.db.headers.total fun header ↦ if header.previousBlockHash = bid then 1 else 0

/-- Counters and index count the stored children, and stored parents. -/
structure Counted (c : Currency) (s : State) : Prop where
  counter : ∀ bid header, s.db.headers.get bid = some header →
    (s.childrenCounter bid).toNat = s.childrenOf bid
  tips : ∀ cd bid, s.db.cdTips.get (cd, bid) ≠ none ↔
    ∃ header, s.db.headers.get bid = some header ∧ header.cumulativeDifficulty = cd ∧
      s.childrenOf bid = 0
  parent : ∀ bid header, s.db.headers.get bid = some header → bid ≠ c.genesisBlockHash →
    s.db.headers.get header.previousBlockHash ≠ none

/-- With what the steps need: nothing is left of a block that is not stored, and the genesis block
is stored first and hangs on no stored block. -/
structure CountedWell (c : Currency) (s : State) : Prop extends Counted c s where
  blocks : ∀ bid, s.db.blocks.get bid ≠ none ↔ s.db.headers.get bid ≠ none
  unstored : ∀ bid, s.db.headers.get bid = none → s.db.children.get bid = none
  root : s.db.headers.get c.genesisBlockHash = none → ∀ bid, s.db.headers.get bid = none
  rootless : ∀ header, s.db.headers.get c.genesisBlockHash = some header →
    s.db.headers.get header.previousBlockHash = none

namespace State

variable {s s' : State}

theorem childrenOf_eq_zero_iff {bid : Hash} : s.childrenOf bid = 0 ↔
    ∀ a header, s.db.headers.get a = some header → header.previousBlockHash ≠ bid := by
  unfold childrenOf Store.total
  rw [List.sum_eq_zero_iff]
  constructor
  · intro h a header hget heq
    have hzero := h 1 (List.mem_map.2 ⟨(a, header), Store.mem_toList_iff.2 hget, if_pos heq⟩)
    cases hzero
  · rintro h n hmem
    obtain ⟨⟨a, header⟩, hentry, rfl⟩ := List.mem_map.1 hmem
    exact if_neg (h a header (Store.mem_toList_iff.1 hentry))

theorem childrenOf_put {bid : Hash} {info : Api.BlockHeader} (hs : s.db.headers.get bid = none)
    (hs' : s'.db.headers = s.db.headers.put bid info) (a : Hash) :
    s'.childrenOf a = (if info.previousBlockHash = a then 1 else 0) + s.childrenOf a := by
  rw [childrenOf, hs', Store.total_put _ _ _ hs]
  rfl

theorem childrenOf_remove {bid : Hash} {me : Api.BlockHeader}
    (hs : s.db.headers.get bid = some me) (hs' : s'.db.headers = s.db.headers.remove bid)
    (a : Hash) :
    s.childrenOf a = (if me.previousBlockHash = a then 1 else 0) + s'.childrenOf a := by
  rw [childrenOf, Store.total_remove _ _ hs, childrenOf, hs']

theorem checkChildrenCounter_eq_ok_iff {cd : Difficulty} {bid : Hash} {value : UInt32} :
    s.checkChildrenCounter cd bid value = .ok () ↔ s.childrenCounter bid = value ∧
      (value = 0 ↔ s.db.cdTips.get (cd, bid) ≠ none) := by
  simp only [checkChildrenCounter, bind_eq_ok_iff, invariant_eq_ok_iff]
  constructor
  · rintro ⟨-, rfl, -, htip, hother⟩
    exact ⟨rfl, fun hzero ↦ htip.resolve_left (not_not.2 hzero), fun h ↦ hother.resolve_right h⟩
  · rintro ⟨rfl, htip⟩
    refine ⟨(), rfl, (), ?_, ?_⟩
    · by_cases hzero : s.childrenCounter bid = 0
      · exact Or.inr (htip.1 hzero)
      · exact Or.inl hzero
    · by_cases hzero : s.childrenCounter bid = 0
      · exact Or.inl hzero
      · exact Or.inr (not_not.1 fun h ↦ hzero (htip.2 h))

theorem childrenCounter_modify (cd : Difficulty) (bid a : Hash) (delta : UInt32) (s : State) :
    (s.modifyChildrenCounter cd bid delta).childrenCounter a =
      if bid = a then s.childrenCounter bid + delta else s.childrenCounter a := by
  unfold childrenCounter modifyChildrenCounter
  dsimp only
  split_ifs with hone ha ha
  · subst ha
    rw [Store.get_remove_self]
    exact hone.symm
  · rw [Store.get_remove_of_ne _ ha]
  · subst ha
    rw [Store.get_put_self]
    rfl
  · rw [Store.get_put_of_ne _ _ ha]

theorem childrenOf_modify (cd : Difficulty) (bid a : Hash) (delta : UInt32) (s : State) :
    (s.modifyChildrenCounter cd bid delta).childrenOf a = s.childrenOf a := rfl

theorem blocks_modify (cd : Difficulty) (bid : Hash) (delta : UInt32) (s : State) :
    (s.modifyChildrenCounter cd bid delta).db.blocks = s.db.blocks := rfl

theorem headers_modify (cd : Difficulty) (bid : Hash) (delta : UInt32) (s : State) :
    (s.modifyChildrenCounter cd bid delta).db.headers = s.db.headers := rfl

theorem cdTips_modify (cd cd' : Difficulty) (bid a : Hash) (delta : UInt32) (s : State) :
    (s.modifyChildrenCounter cd bid delta).db.cdTips.get (cd', a) ≠ none ↔
      if (cd, bid) = (cd', a) then s.childrenCounter bid + delta = 0
      else s.db.cdTips.get (cd', a) ≠ none := by
  unfold modifyChildrenCounter
  dsimp only
  split_ifs with hzero ha ha
  · rw [ha, Store.get_put_self]
    simp [hzero]
  · rw [Store.get_put_of_ne _ _ ha]
  · rw [ha, Store.get_remove_self]
    simp [hzero]
  · rw [Store.get_remove_of_ne _ ha]

theorem children_modify_of_ne (cd : Difficulty) {bid a : Hash} (delta : UInt32) (s : State)
    (h : bid ≠ a) :
    (s.modifyChildrenCounter cd bid delta).db.children.get a = s.db.children.get a := by
  unfold modifyChildrenCounter
  dsimp only
  split_ifs
  · rw [Store.get_remove_of_ne _ h]
  · rw [Store.get_put_of_ne _ _ h]

end State

namespace CountedWell

variable {s s' : State}

theorem of_treeTables (h : CountedWell c s) (heq : s'.treeTables = s.treeTables) :
    CountedWell c s' := by
  obtain ⟨hblocks, heq⟩ := Prod.mk.inj heq
  obtain ⟨hheaders, heq⟩ := Prod.mk.inj heq
  obtain ⟨hchildren, htips⟩ := Prod.mk.inj heq
  have hof : s'.childrenOf = s.childrenOf := by
    funext bid
    rw [State.childrenOf, hheaders]
    rfl
  have hcounter : s'.childrenCounter = s.childrenCounter := by
    funext bid
    rw [State.childrenCounter, hchildren]
    rfl
  constructor
  · constructor
    · rw [hheaders, hcounter, hof]
      exact h.counter
    · rw [hheaders, htips, hof]
      exact h.tips
    · rw [hheaders]
      exact h.parent
  · rw [hblocks, hheaders]
    exact h.blocks
  · rw [hchildren, hheaders]
    exact h.unstored
  · rw [hheaders]
    exact h.root
  · rw [hheaders]
    exact h.rootless

theorem counter_unstored (h : CountedWell c s) {bid : Hash} (hbid : s.db.headers.get bid = none) :
    s.childrenCounter bid = 1 := by
  rw [State.childrenCounter, h.unstored bid hbid]
  rfl

theorem tips_unstored (h : CountedWell c s) {bid : Hash} (hbid : s.db.headers.get bid = none)
    (cd : Difficulty) : s.db.cdTips.get (cd, bid) = none := by
  by_contra htip
  obtain ⟨header, hheader, _⟩ := (h.tips cd bid).1 htip
  rw [hbid] at hheader
  cases hheader

/-- A block that is not stored has no children, unless the genesis block names it. -/
theorem childrenOf_unstored (h : CountedWell c s) {bid : Hash}
    (hbid : s.db.headers.get bid = none)
    (hroot : ∀ header, s.db.headers.get c.genesisBlockHash = some header →
      header.previousBlockHash ≠ bid) : s.childrenOf bid = 0 := by
  rw [State.childrenOf_eq_zero_iff]
  intro a header hget heq
  by_cases ha : a = c.genesisBlockHash
  · subst ha
    exact hroot header hget heq
  · exact h.parent a header hget ha (by rw [heq, hbid])

/-- The tables with a new block and its header. -/
theorem storeBlock_eq (h : CountedWell c s) {pb : PreparedBlock} {info : Api.BlockHeader}
    (hstore : s.storeBlock pb info = .ok s') :
    s.db.headers.get pb.bid = none ∧ s' = { s with db := { s.db with
      blocks := s.db.blocks.put pb.bid pb.blockData
      headers := s.db.headers.put pb.bid info } } := by
  obtain ⟨hnone, blocks, hblocks, -, rfl⟩ := State.storeBlock_eq hstore
  have hblock : s.db.blocks.get pb.bid = none := by
    by_contra hblock
    exact (h.blocks pb.bid).1 hblock hnone
  rw [hblocks hblock]
  exact ⟨hnone, rfl⟩

/-! ## Storing a block -/

/-- A block stored under a stored header is counted there and becomes a tip. -/
theorem addBelow (h : CountedWell c s) {pb : PreparedBlock} {info prev : Api.BlockHeader}
    (hstore : s.storeBlock pb info = .ok s') (hgenesis : pb.bid ≠ c.genesisBlockHash)
    (hprev : s.db.headers.get info.previousBlockHash = some prev)
    (hfew : s.childrenOf info.previousBlockHash + 1 < 2 ^ 32)
    (hroot : ∀ header, s.db.headers.get c.genesisBlockHash = some header →
      header.previousBlockHash ≠ pb.bid)
    {minus : UInt32} (hminus : 1 + minus = 0) :
    (s'.modifyChildrenCounter prev.cumulativeDifficulty info.previousBlockHash
      1).checkChildrenCounter
        info.cumulativeDifficulty pb.bid 1 = .ok () ∧
      CountedWell c
        ((s'.modifyChildrenCounter prev.cumulativeDifficulty info.previousBlockHash
          1).modifyChildrenCounter info.cumulativeDifficulty pb.bid minus) := by
  obtain ⟨hnone, hs'⟩ := h.storeBlock_eq hstore
  have hne : info.previousBlockHash ≠ pb.bid := by
    intro heq
    rw [heq, hnone] at hprev
    cases hprev
  have hheaders : s'.db.headers = s.db.headers.put pb.bid info := by rw [hs']
  have hcounter : s'.childrenCounter = s.childrenCounter := by rw [hs']; rfl
  have htips : s'.db.cdTips = s.db.cdTips := by rw [hs']
  have hof := State.childrenOf_put hnone hheaders
  have hofNew : s'.childrenOf pb.bid = 0 := by
    rw [hof, if_neg hne, h.childrenOf_unstored hnone hroot]
  have hparentCounter : (s.childrenCounter info.previousBlockHash + 1).toNat =
      s.childrenOf info.previousBlockHash + 1 := by
    rw [UInt32.toNat_add, h.counter _ _ hprev]
    exact Nat.mod_eq_of_lt hfew
  have hparentNe : s.childrenCounter info.previousBlockHash + 1 ≠ 0 := by
    intro hzero
    rw [hzero] at hparentCounter
    exact absurd hparentCounter (Nat.succ_ne_zero _).symm
  constructor
  · rw [State.checkChildrenCounter_eq_ok_iff, State.childrenCounter_modify, if_neg hne, hcounter,
      h.counter_unstored hnone, State.cdTips_modify, htips, h.tips_unstored hnone]
    refine ⟨rfl, iff_of_false (fun hzero ↦ by cases hzero) ?_⟩
    rw [if_neg fun heq ↦ hne (Prod.mk.inj heq).2]
    exact fun hnot ↦ hnot rfl
  constructor
  · constructor
    · intro a header hget
      change s'.db.headers.get a = some header at hget
      rw [State.childrenOf_modify, State.childrenOf_modify, State.childrenCounter_modify,
        State.childrenCounter_modify,
        State.childrenCounter_modify, hcounter]
      by_cases ha : pb.bid = a
      · subst ha
        rw [if_pos rfl, if_neg hne, h.counter_unstored hnone, hofNew, hminus]
        rfl
      · rw [hheaders, Store.get_put_of_ne _ _ ha] at hget
        rw [if_neg ha, hof]
        by_cases hparent : info.previousBlockHash = a
        · subst hparent
          rw [if_pos rfl, if_pos rfl, hparentCounter, Nat.add_comm]
        · rw [if_neg hparent, if_neg hparent, Nat.zero_add]
          exact h.counter a header hget
    · intro cd a
      change _ ↔ ∃ header, s'.db.headers.get a = some header ∧ _
      rw [State.childrenOf_modify, State.childrenOf_modify, State.cdTips_modify,
        State.childrenCounter_modify, if_neg hne,
        State.cdTips_modify, hcounter, htips, hheaders]
      by_cases ha : pb.bid = a
      · subst ha
        rw [Store.get_put_self, h.counter_unstored hnone, h.tips_unstored hnone,
          if_neg fun heq : (_, _) = _ ↦ hne (Prod.mk.inj heq).2]
        by_cases hcd : info.cumulativeDifficulty = cd
        · subst hcd
          rw [if_pos rfl]
          exact iff_of_true hminus ⟨info, rfl, rfl, hofNew⟩
        · rw [if_neg fun heq ↦ hcd (Prod.mk.inj heq).1]
          refine iff_of_false (fun hnot ↦ hnot rfl) ?_
          rintro ⟨header, hheader, hcd', _⟩
          exact hcd (Option.some.inj hheader ▸ hcd')
      · rw [if_neg fun heq ↦ ha (Prod.mk.inj heq).2, Store.get_put_of_ne _ _ ha, hof]
        by_cases hparent : info.previousBlockHash = a
        · subst hparent
          rw [if_pos rfl]
          refine iff_of_false ?_ fun ⟨_, _, _, hzero⟩ ↦ by omega
          by_cases hcd : prev.cumulativeDifficulty = cd
          · rw [hcd, if_pos rfl]
            exact hparentNe
          · rw [if_neg fun heq ↦ hcd (Prod.mk.inj heq).1, h.tips]
            rintro ⟨header, hheader, hcd', _⟩
            rw [hprev] at hheader
            exact hcd (Option.some.inj hheader ▸ hcd')
        · rw [if_neg fun heq ↦ hparent (Prod.mk.inj heq).2, if_neg hparent, Nat.zero_add]
          exact h.tips cd a
    · intro a header hget ha
      change s'.db.headers.get a = some header at hget
      change s'.db.headers.get header.previousBlockHash ≠ none
      rw [hheaders] at hget ⊢
      rw [Store.get_put] at hget ⊢
      split at hget
      · obtain rfl := Option.some.inj hget
        rw [if_neg (Ne.symm hne), hprev]
        exact Option.some_ne_none _
      · split
        · exact Option.some_ne_none _
        · exact h.parent a header hget ha
  · intro a
    change s'.db.blocks.get a ≠ none ↔ s'.db.headers.get a ≠ none
    rw [hs']
    dsimp only
    rw [Store.get_put, Store.get_put]
    split
    · exact iff_of_true (Option.some_ne_none _) (Option.some_ne_none _)
    · exact h.blocks a
  · intro a hget
    change s'.db.headers.get a = none at hget
    rw [hheaders, Store.get_put] at hget
    split at hget
    · cases hget
    · next ha =>
      have hparent : info.previousBlockHash ≠ a := by
        intro heq
        rw [← heq, hprev] at hget
        cases hget
      rw [State.children_modify_of_ne _ _ _ ha, State.children_modify_of_ne _ _ _ hparent, hs']
      exact h.unstored a hget
  · intro hget
    change s'.db.headers.get c.genesisBlockHash = none at hget
    rw [hheaders, Store.get_put_of_ne _ _ hgenesis] at hget
    rw [h.root hget] at hprev
    cases hprev
  · intro header hget
    change s'.db.headers.get c.genesisBlockHash = some header at hget
    change s'.db.headers.get header.previousBlockHash = none
    rw [hheaders, Store.get_put_of_ne _ _ hgenesis] at hget
    rw [hheaders, Store.get_put_of_ne _ _ (hroot header hget).symm]
    exact h.rootless header hget

/-- The genesis block is stored first and becomes a tip. -/
theorem addRoot (h : CountedWell c s) {s₁ : State} {pb : PreparedBlock} {info : Api.BlockHeader}
    (hstore : s.storeBlock pb info = .ok s₁) (htables : s'.treeTables = s₁.treeTables)
    (hgenesis : pb.bid = c.genesisBlockHash) (hne : info.previousBlockHash ≠ pb.bid)
    {minus : UInt32} (hminus : 1 + minus = 0) :
    s'.checkChildrenCounter info.cumulativeDifficulty pb.bid 1 = .ok () ∧
      CountedWell c (s'.modifyChildrenCounter info.cumulativeDifficulty pb.bid minus) := by
  obtain ⟨hnone, hs₁⟩ := h.storeBlock_eq hstore
  have hempty : ∀ a, s.db.headers.get a = none := h.root (hgenesis ▸ hnone)
  obtain ⟨hblocks, htables⟩ := Prod.mk.inj htables
  obtain ⟨hheaders, htables⟩ := Prod.mk.inj htables
  obtain ⟨hchildren, htips⟩ := Prod.mk.inj htables
  rw [hs₁] at hblocks hheaders hchildren htips
  dsimp only at hblocks hheaders hchildren htips
  have hget : ∀ a, s'.db.headers.get a = if pb.bid = a then some info else none := by
    intro a
    rw [hheaders, Store.get_put, hempty a]
  have hcounter : ∀ a, s'.childrenCounter a = 1 := by
    intro a
    rw [State.childrenCounter, hchildren, h.unstored a (hempty a)]
    rfl
  have htip : ∀ cd a, s'.db.cdTips.get (cd, a) = none := by
    intro cd a
    rw [htips]
    exact h.tips_unstored (hempty a) cd
  have hof : s'.childrenOf pb.bid = 0 := by
    rw [State.childrenOf_eq_zero_iff]
    intro a header hheader
    rw [hget] at hheader
    split at hheader
    · exact Option.some.inj hheader ▸ hne
    · cases hheader
  constructor
  · rw [State.checkChildrenCounter_eq_ok_iff, hcounter, htip]
    exact ⟨rfl, iff_of_false (by decide) fun hnot ↦ hnot rfl⟩
  constructor
  · constructor
    · intro a header hheader
      change s'.db.headers.get a = some header at hheader
      rw [hget] at hheader
      split at hheader
      · next ha =>
        subst ha
        rw [State.childrenOf_modify, hof, State.childrenCounter_modify, if_pos rfl, hcounter,
          hminus]
        rfl
      · cases hheader
    · intro cd a
      change _ ↔ ∃ header, s'.db.headers.get a = some header ∧ _
      rw [State.childrenOf_modify, State.cdTips_modify, hget, htip, hcounter]
      by_cases ha : pb.bid = a
      · subst ha
        rw [if_pos rfl]
        by_cases hcd : info.cumulativeDifficulty = cd
        · subst hcd
          rw [if_pos rfl]
          exact iff_of_true hminus ⟨info, rfl, rfl, hof⟩
        · rw [if_neg fun heq ↦ hcd (Prod.mk.inj heq).1]
          refine iff_of_false (fun hnot ↦ hnot rfl) ?_
          rintro ⟨header, hheader, hcd', _⟩
          exact hcd (Option.some.inj hheader ▸ hcd')
      · rw [if_neg fun heq ↦ ha (Prod.mk.inj heq).2, if_neg ha]
        refine iff_of_false (fun hnot ↦ hnot rfl) ?_
        rintro ⟨header, hheader, _⟩
        cases hheader
    · intro a header hheader ha
      change s'.db.headers.get a = some header at hheader
      rw [hget, if_neg fun heq ↦ ha (heq.symm.trans hgenesis)] at hheader
      cases hheader
  · intro a
    change s'.db.blocks.get a ≠ none ↔ s'.db.headers.get a ≠ none
    rw [hblocks, hget, Store.get_put]
    split
    · exact iff_of_true (Option.some_ne_none _) (Option.some_ne_none _)
    · rw [h.blocks a, hempty a]
  · intro a hheader
    change s'.db.headers.get a = none at hheader
    rw [hget] at hheader
    split at hheader
    · cases hheader
    · next ha =>
      rw [State.children_modify_of_ne _ _ _ ha, hchildren]
      exact h.unstored a (hempty a)
  · intro hheader
    change s'.db.headers.get c.genesisBlockHash = none at hheader
    rw [hget, if_pos hgenesis] at hheader
    cases hheader
  · intro header hheader
    change s'.db.headers.get c.genesisBlockHash = some header at hheader
    change s'.db.headers.get header.previousBlockHash = none
    rw [hget, if_pos hgenesis] at hheader
    obtain rfl := Option.some.inj hheader
    rw [hget, if_neg hne.symm]

/-! ## Deleting a branch -/

/-- A tip deleted with its header is no longer counted below it. -/
theorem removeTip (h : CountedWell c s) {cd : Difficulty} {bid : Hash} {me pa : Api.BlockHeader}
    (hcheck : s.checkChildrenCounter cd bid 0 = .ok ()) (hme : s.db.headers.get bid = some me)
    (hpa : s.db.headers.get me.previousBlockHash = some pa)
    {minus : UInt32} (hminus : minus.toNat = 4294967295)
    (hblocks : s'.db.blocks = s.db.blocks.remove bid)
    (hheaders : s'.db.headers = s.db.headers.remove bid)
    (hchildren : s'.db.children = ((s.modifyChildrenCounter cd bid 1).modifyChildrenCounter
      pa.cumulativeDifficulty me.previousBlockHash minus).db.children)
    (htips : s'.db.cdTips = ((s.modifyChildrenCounter cd bid 1).modifyChildrenCounter
      pa.cumulativeDifficulty me.previousBlockHash minus).db.cdTips) :
    CountedWell c s' := by
  obtain ⟨hzero, htip⟩ := State.checkChildrenCounter_eq_ok_iff.1 hcheck
  obtain ⟨me', hme', hcd, hof⟩ := (h.tips cd bid).1 (htip.1 rfl)
  rw [hme] at hme'
  obtain rfl := Option.some.inj hme'
  have hgenesis : bid ≠ c.genesisBlockHash := by
    intro heq
    rw [h.rootless me (heq ▸ hme)] at hpa
    cases hpa
  have hne : me.previousBlockHash ≠ bid := State.childrenOf_eq_zero_iff.1 hof bid me hme
  have hcounter : ∀ a, s'.childrenCounter a = ((s.modifyChildrenCounter cd bid
      1).modifyChildrenCounter pa.cumulativeDifficulty me.previousBlockHash minus).childrenCounter
      a := by
    intro a
    unfold State.childrenCounter
    rw [hchildren]
  have hremoved := State.childrenOf_remove hme hheaders
  have hchildOf : ∀ a header, s'.db.headers.get a = some header →
      header.previousBlockHash ≠ bid := by
    intro a header hget
    rw [hheaders, Store.get_remove] at hget
    split at hget
    · cases hget
    · exact State.childrenOf_eq_zero_iff.1 hof a header hget
  have hparentOf := hremoved me.previousBlockHash
  rw [if_pos rfl] at hparentOf
  have hparentCounter : (s.childrenCounter me.previousBlockHash + minus).toNat =
      s'.childrenOf me.previousBlockHash := by
    have hbefore := h.counter _ _ hpa
    have hlt := (s.childrenCounter me.previousBlockHash).toNat_lt
    rw [UInt32.toNat_add, hminus]
    omega
  constructor
  · constructor
    · intro a header hget
      rw [hheaders, Store.get_remove] at hget
      split at hget
      · cases hget
      · next ha =>
        rw [hcounter, State.childrenCounter_modify, State.childrenCounter_modify,
          State.childrenCounter_modify, if_neg hne.symm, if_neg ha]
        by_cases hparent : me.previousBlockHash = a
        · subst hparent
          rw [if_pos rfl]
          exact hparentCounter
        · rw [if_neg hparent, h.counter a header hget, hremoved a, if_neg hparent, Nat.zero_add]
    · intro cd' a
      rw [htips, State.cdTips_modify, State.cdTips_modify, State.childrenCounter_modify,
        if_neg hne.symm, hzero, hheaders]
      by_cases ha : bid = a
      · subst ha
        rw [if_neg fun heq ↦ hne (Prod.mk.inj heq).2, Store.get_remove_self]
        refine iff_of_false ?_ ?_
        · by_cases hcd' : cd = cd'
          · rw [hcd', if_pos rfl]
            exact fun heq ↦ by cases heq
          · rw [if_neg fun heq ↦ hcd' (Prod.mk.inj heq).1, h.tips]
            rintro ⟨header, hheader, hcd'', _⟩
            rw [hme] at hheader
            exact hcd' (hcd.symm.trans (Option.some.inj hheader ▸ hcd''))
        · rintro ⟨_, hheader, _⟩
          cases hheader
      · rw [Store.get_remove_of_ne _ ha]
        by_cases hparent : me.previousBlockHash = a
        · subst hparent
          by_cases hcd' : pa.cumulativeDifficulty = cd'
          · subst hcd'
            rw [if_pos rfl]
            constructor
            · intro hzero'
              refine ⟨pa, hpa, rfl, ?_⟩
              rw [← hparentCounter, hzero']
              rfl
            · rintro ⟨_, _, _, hnoChild⟩
              rw [← UInt32.toNat_inj, hparentCounter, hnoChild]
              rfl
          · rw [if_neg fun heq ↦ hcd' (Prod.mk.inj heq).1, if_neg fun heq ↦ ha (Prod.mk.inj heq).2,
              h.tips]
            refine iff_of_false ?_ ?_
            · rintro ⟨header, hheader, hcd'', _⟩
              rw [hpa] at hheader
              exact hcd' (Option.some.inj hheader ▸ hcd'')
            · rintro ⟨header, hheader, hcd'', _⟩
              rw [hpa] at hheader
              exact hcd' (Option.some.inj hheader ▸ hcd'')
        · rw [if_neg fun heq ↦ hparent (Prod.mk.inj heq).2,
            if_neg fun heq ↦ ha (Prod.mk.inj heq).2, h.tips, hremoved a, if_neg hparent,
            Nat.zero_add]
    · intro a header hget ha
      have hother := hchildOf a header hget
      rw [hheaders, Store.get_remove] at hget
      split at hget
      · cases hget
      · rw [hheaders, Store.get_remove_of_ne _ hother.symm]
        exact h.parent a header hget ha
  · intro a
    rw [hblocks, hheaders, Store.get_remove, Store.get_remove]
    split
    · exact iff_of_false (fun hnot ↦ hnot rfl) fun hnot ↦ hnot rfl
    · exact h.blocks a
  · intro a hget
    rw [hchildren]
    by_cases ha : bid = a
    · subst ha
      rw [State.children_modify_of_ne _ _ _ hne]
      unfold State.modifyChildrenCounter
      dsimp only
      rw [hzero, if_pos (UInt32.zero_add 1)]
      exact Store.get_remove_self _ _
    · rw [hheaders, Store.get_remove_of_ne _ ha] at hget
      have hparent : me.previousBlockHash ≠ a := by
        intro heq
        rw [← heq, hpa] at hget
        cases hget
      rw [State.children_modify_of_ne _ _ _ hparent, State.children_modify_of_ne _ _ _ ha]
      exact h.unstored a hget
  · intro hget
    rw [hheaders, Store.get_remove_of_ne _ hgenesis] at hget
    rw [h.root hget] at hme
    cases hme
  · intro header hget
    have hother := hchildOf _ header hget
    rw [hheaders, Store.get_remove_of_ne _ hgenesis] at hget
    rw [hheaders, Store.get_remove_of_ne _ hother.symm]
    exact h.rootless header hget

end CountedWell

/-! ## Runs -/

/-- What happens to the block tree; headers may be looked up at any time. -/
inductive TreeEvent where
  | lookup (bid : Hash)
  | add (now : Timestamp) (pb : PreparedBlock)
  | prune (cd : Difficulty) (bid : Hash)

section Definitions

variable (cr : Crypto) (c : Currency)

/-- One event. -/
def treeStep (σ : State × HeaderCaches) : TreeEvent → Except Fault (State × HeaderCaches)
  | .lookup bid => do
    let (_, k) ← σ.1.readHeaderCached c bid 0 σ.2
    return (σ.1, k)
  | .add now pb => do
    let (_, s, k) ← σ.1.addBlockCached cr c now pb σ.2
    return (s, k)
  | .prune cd bid => do
    let (_, s, k) ← σ.1.pruneBranch c cd bid σ.2
    return (s, k)

/-- The states reached from an empty database by events that meet a condition. -/
inductive TreeRun (ok : State × HeaderCaches → TreeEvent → Prop) : State × HeaderCaches → Prop where
  | start : TreeRun ok ({}, {})
  | step {σ σ' : State × HeaderCaches} {e : TreeEvent} : TreeRun ok σ → ok σ e →
      treeStep cr c σ e = .ok σ' → TreeRun ok σ'

/-- An event as its callers make it: blocks are prepared, and tips of the index are deleted. -/
def TreeEvent.Called (σ : State × HeaderCaches) : TreeEvent → Prop
  | .lookup _ => True
  | .add _ pb => ∃ raw context, PreparedBlock.ofRawBlock cr raw context = .ok pb
  | .prune cd bid => σ.1.db.cdTips.get (cd, bid) ≠ none

/-- The headers that the event finds are the stored ones, a block gets fewer than 2^32 children, and
none has the id that stands in the genesis block. -/
def TreeEvent.Sound (σ : State × HeaderCaches) : TreeEvent → Prop
  | .lookup _ => True
  | .add now pb => ∀ prev info k, σ.1.examine cr c now pb σ.2 = .ok (.ok (prev, info), k) →
      (pb.bid ≠ c.genesisBlockHash →
        σ.1.db.headers.get pb.block.header.previousBlockHash = some prev) ∧
      σ.1.childrenOf pb.block.header.previousBlockHash + 1 < 2 ^ 32 ∧
      pb.block.header.previousBlockHash ≠ pb.bid ∧
      ∀ header, σ.1.db.headers.get c.genesisBlockHash = some header →
        header.previousBlockHash ≠ pb.bid
  | .prune _ bid => ∀ me pa k k', σ.1.expectHeaderCached c bid 0 σ.2 = .ok (me, k) →
      σ.1.expectHeaderCached c me.previousBlockHash 0 k = .ok (pa, k') →
      σ.1.db.headers.get bid = some me ∧ σ.1.db.headers.get me.previousBlockHash = some pa

end Definitions

/-- The header of an examined block names the same previous block. -/
theorem State.examine_previousBlockHash {s : State} {now : Timestamp} {pb : PreparedBlock}
    {k k' : HeaderCaches} {prev info : Api.BlockHeader}
    (h : s.examine cr c now pb k = .ok (.ok (prev, info), k')) :
    info.previousBlockHash = pb.block.header.previousBlockHash := by
  obtain ⟨⟨header, k₁⟩, _, h⟩ := bind_eq_ok_iff.1 h
  dsimp only at h
  split at h
  · cases h
  · obtain ⟨⟨prevInfo, k₂⟩, _, h⟩ := bind_eq_ok_iff.1 h
    cases prevInfo with
    | none => cases h
    | some prevInfo =>
      dsimp only at h
      cases hcheck : (s.seen k₂).checkStandaloneConsensus cr c now pb (blockInfo pb prevInfo)
          prevInfo true with
      | fault f =>
        rw [hcheck] at h
        cases h
      | reject text =>
        rw [hcheck] at h
        cases h
      | accept info' =>
        rw [hcheck] at h
        cases h
        obtain ⟨m, -, rfl⟩ := checkStandaloneConsensus_eq_accept_iff.1 hcheck
        rfl

/-- A sound block passes the check of its counter, which is then right again. -/
theorem CountedWell.hangBlock {s s₁ s₂ : State} (h : CountedWell c s) {now : Timestamp}
    {pb : PreparedBlock} {k k' : HeaderCaches} {prev info : Api.BlockHeader}
    (hsound : (TreeEvent.add now pb).Sound cr c (s, k))
    (hexamine : s.examine cr c now pb k = .ok (.ok (prev, info), k'))
    (hstore : s.storeBlock pb info = .ok s₁) (hhang : s₁.hangBlock cr c pb info prev = .ok s₂) :
    s₂.checkChildrenCounter info.cumulativeDifficulty pb.bid 1 = .ok () ∧
      CountedWell c (s₂.modifyChildrenCounter info.cumulativeDifficulty pb.bid (-1)) := by
  obtain ⟨hprev, hfew, hne, hroot⟩ := hsound prev info k' hexamine
  have hinfo := State.examine_previousBlockHash hexamine
  unfold State.hangBlock at hhang
  split at hhang
  · next hgenesis =>
    exact h.addRoot hstore (State.applyGenesis_treeTables hhang) hgenesis (hinfo ▸ hne)
      (UInt32.add_right_neg 1)
  · next hgenesis =>
    rw [← Except.ok.inj hhang, ← hinfo]
    exact h.addBelow hstore hgenesis (hinfo ▸ hprev hgenesis) (hinfo ▸ hfew) hroot
      (UInt32.add_right_neg 1)

theorem CountedWell.step {σ σ' : State × HeaderCaches} (h : CountedWell c σ.1) {e : TreeEvent}
    (hsound : e.Sound cr c σ) (hstep : treeStep cr c σ e = .ok σ') : CountedWell c σ'.1 := by
  obtain ⟨s, k⟩ := σ
  cases e with
  | lookup bid =>
    obtain ⟨⟨_, k'⟩, _, hstep⟩ := bind_eq_ok_iff.1 hstep
    rw [← Except.ok.inj hstep]
    exact h
  | add now pb =>
    obtain ⟨⟨action, t, k'⟩, hadd, hstep⟩ := bind_eq_ok_iff.1 hstep
    rw [← Except.ok.inj hstep]
    obtain ⟨⟨examined, k₁⟩, hexamine, hadd⟩ := bind_eq_ok_iff.1 hadd
    cases examined with
    | error action' =>
      cases hadd
      exact h
    | ok accepted =>
      obtain ⟨prev, info⟩ := accepted
      obtain ⟨s₁, hstore, hadd⟩ := bind_eq_ok_iff.1 hadd
      obtain ⟨s₂, hhang, hadd⟩ := bind_eq_ok_iff.1 hadd
      obtain ⟨_, _, hadd⟩ := bind_eq_ok_iff.1 hadd
      obtain ⟨chosen, hchoose, hadd⟩ := bind_eq_ok_iff.1 hadd
      have hwell := (h.hangBlock hsound hexamine hstore hhang).2
      cases chosen with
      | none =>
        cases hadd
        exact hwell
      | some s₃ =>
        cases hadd
        exact hwell.of_treeTables (State.chooseChainCached_treeTables hchoose)
  | prune cd bid =>
    obtain ⟨⟨deleted, t, k'⟩, hprune, hstep⟩ := bind_eq_ok_iff.1 hstep
    rw [← Except.ok.inj hstep]
    unfold State.pruneBranch at hprune
    split at hprune
    · cases hprune
      exact h
    · simp only [bind_eq_ok_iff, Prod.exists, dbWrite_eq_ok_iff, Store.removeExisting_eq_ok_iff]
        at hprune
      obtain ⟨_, hcheck, me, k₁, hme, pa, k₂, hpa, blocks, ⟨_, rfl⟩, headers, ⟨_, rfl⟩, hprune⟩ :=
        hprune
      obtain ⟨hme', hpa'⟩ := hsound me pa k₁ k₂ hme hpa
      have ht := (Prod.mk.inj (Prod.mk.inj (Except.ok.inj hprune)).2).1
      have hminus : (-1 : UInt32).toNat = 4294967295 := by decide
      refine h.removeTip hcheck hme' hpa' hminus ?_ ?_ ?_ ?_
      · rw [← ht, State.blocks_modify, State.blocks_modify]
      · rw [← ht, State.headers_modify, State.headers_modify]
      · rw [← ht]
      · rw [← ht]

theorem CountedWell.empty : CountedWell c ({} : State) where
  counter bid header hget := by cases (Store.get_empty bid).symm.trans hget
  tips cd bid := by
    refine iff_of_false (fun htip ↦ htip (Store.get_empty _)) ?_
    rintro ⟨header, hget, _⟩
    cases (Store.get_empty bid).symm.trans hget
  parent bid header hget := by cases (Store.get_empty bid).symm.trans hget
  blocks bid := iff_of_false (fun hblock ↦ hblock (Store.get_empty _))
    fun hheader ↦ hheader (Store.get_empty _)
  unstored bid _ := Store.get_empty bid
  root _ bid := Store.get_empty bid
  rootless header hget := by cases (Store.get_empty c.genesisBlockHash).symm.trans hget

theorem TreeRun.countedWell {σ : State × HeaderCaches}
    (h : TreeRun cr c (TreeEvent.Sound cr c) σ) : CountedWell c σ.1 := by
  induction h with
  | start => exact CountedWell.empty
  | step _ hsound hstep ih => exact ih.step hsound hstep

/-- Along any additions and deletions of blocks that find the stored headers, counters and index
are right and no check of a counter fails. -/
theorem TreeRun.counted {σ : State × HeaderCaches} (h : TreeRun cr c (TreeEvent.Sound cr c) σ) :
    Counted c σ.1 ∧
    (∀ cd bid, (TreeEvent.prune cd bid).Called cr σ →
      σ.1.checkChildrenCounter cd bid 0 = .ok ()) ∧
    ∀ now pb prev info k s₁ s₂, (TreeEvent.add now pb).Sound cr c σ →
      σ.1.examine cr c now pb σ.2 = .ok (.ok (prev, info), k) →
      σ.1.storeBlock pb info = .ok s₁ → s₁.hangBlock cr c pb info prev = .ok s₂ →
        s₂.checkChildrenCounter info.cumulativeDifficulty pb.bid 1 = .ok () := by
  have hwell := h.countedWell
  refine ⟨hwell.toCounted, ?_, ?_⟩
  · intro cd bid htip
    obtain ⟨header, hget, _, hof⟩ := (hwell.tips cd bid).1 htip
    rw [State.checkChildrenCounter_eq_ok_iff]
    refine ⟨?_, fun _ ↦ htip, fun _ ↦ rfl⟩
    rw [← UInt32.toNat_inj, hwell.counter bid header hget, hof]
    rfl
  · intro now pb prev info k s₁ s₂ hsound hexamine hstore hhang
    exact (hwell.hangBlock hsound hexamine hstore hhang).1

/-! ## A fork and a branch that is deleted -/

/-- Whether an event finds the stored headers and room for a child. -/
def TreeEvent.soundNow (cr : Crypto) (c : Currency) (σ : State × HeaderCaches) : TreeEvent → Bool
  | .lookup _ => true
  | .add now pb =>
    match σ.1.examine cr c now pb σ.2 with
    | .ok (.ok (prev, _), _) =>
      decide ((pb.bid ≠ c.genesisBlockHash →
          σ.1.db.headers.get pb.block.header.previousBlockHash = some prev) ∧
        σ.1.childrenOf pb.block.header.previousBlockHash + 1 < 2 ^ 32 ∧
        pb.block.header.previousBlockHash ≠ pb.bid) &&
      (σ.1.db.headers.get c.genesisBlockHash).all fun header ↦
        decide (header.previousBlockHash ≠ pb.bid)
    | _ => true
  | .prune _ bid =>
    match σ.1.expectHeaderCached c bid 0 σ.2 with
    | .ok (me, k) =>
      match σ.1.expectHeaderCached c me.previousBlockHash 0 k with
      | .ok (pa, _) => decide (σ.1.db.headers.get bid = some me ∧
          σ.1.db.headers.get me.previousBlockHash = some pa)
      | .error _ => true
    | .error _ => true

theorem TreeEvent.sound_of_soundNow {σ : State × HeaderCaches} {e : TreeEvent}
    (h : e.soundNow cr c σ = true) : e.Sound cr c σ := by
  cases e with
  | lookup => trivial
  | add now pb =>
    intro prev info k hexamine
    simp only [soundNow, hexamine, Bool.and_eq_true, decide_eq_true_eq] at h
    obtain ⟨⟨hfound, hroom, hne⟩, hgenesis⟩ := h
    refine ⟨hfound, hroom, hne, fun header hget ↦ ?_⟩
    simpa [hget] using hgenesis
  | prune cd bid =>
    intro me pa k k' hme hpa
    simpa [soundNow, hme, hpa] using h

/-- One event that is sound now. -/
def soundStep (σ : State × HeaderCaches) (e : TreeEvent) :
    Except Fault (State × HeaderCaches) := do
  invariant (e.soundNow sampleCrypto testnet σ = true) ""
  treeStep sampleCrypto testnet σ e

/-- A raw block prepared and added. -/
def offerBlock (raw : RawBlock) (σ : State × HeaderCaches) :
    Except Fault (State × HeaderCaches) := do
  let pb ← PreparedBlock.ofRawBlock sampleCrypto raw false
  treeStep sampleCrypto testnet σ (.add 1000 pb)

/-- The same of a block that is sound now. -/
def offerSoundBlock (raw : RawBlock) (σ : State × HeaderCaches) :
    Except Fault (State × HeaderCaches) := do
  let pb ← PreparedBlock.ofRawBlock sampleCrypto raw false
  soundStep σ (.add 1000 pb)

/-- Two blocks upon the genesis block. -/
def forkRun : Except Fault (State × HeaderCaches) := do
  let genesis ← expect (Block.toRawBlock { header := testnet.genesisBlockTemplate }) ""
  let σ ← offerSoundBlock genesis ({}, {})
  let σ ← offerSoundBlock (firstTestnetBlock.rawBlock []) σ
  offerSoundBlock (siblingBlock.rawBlock []) σ

/-- The later one is deleted. -/
def pruneSibling (σ : State × HeaderCaches) : Except Fault (Difficulty × State × HeaderCaches) := do
  let header ← σ.1.readHeader siblingBlock.sampleHash
  invariant (σ.1.db.cdTips.get (header.cumulativeDifficulty, siblingBlock.sampleHash) ≠ none) ""
  let σ ← soundStep σ (.prune header.cumulativeDifficulty siblingBlock.sampleHash)
  return (header.cumulativeDifficulty, σ)

/-- A block at height 2 upon `siblingBlock`. -/
def siblingChild : BlockTemplate :=
  (sampleTemplate 2 siblingBlock.sampleHash 0 (sampleCoinbase 2 281466386841600 [2, 7]) []).merged

theorem returns_forkRun : returns forkRun (fun σ ↦ returns (pruneSibling σ) fun r ↦
      decide (σ.1.childrenOf testnet.genesisBlockHash = 2 ∧
        r.2.1.childrenOf testnet.genesisBlockHash = 1 ∧
        siblingChild.sampleHash ≠ testnet.genesisBlockHash) &&
      returns (offerBlock (siblingChild.rawBlock []) r.2) fun σ' ↦
        match σ'.1.db.headers.get siblingChild.sampleHash with
        | none => false
        | some header => decide (σ'.1.db.headers.get header.previousBlockHash = none)) = true := by
  decide +kernel

theorem TreeRun.soundStep {σ σ' : State × HeaderCaches} {e : TreeEvent}
    (h : TreeRun sampleCrypto testnet (TreeEvent.Sound sampleCrypto testnet) σ)
    (hok : soundStep σ e = .ok σ') :
    TreeRun sampleCrypto testnet (TreeEvent.Sound sampleCrypto testnet) σ' := by
  obtain ⟨⟨⟩, hsound, hstep⟩ := bind_eq_ok_iff.1 hok
  exact h.step (TreeEvent.sound_of_soundNow (invariant_eq_ok_iff.1 hsound)) hstep

theorem TreeRun.forkRun {σ : State × HeaderCaches} (h : forkRun = .ok σ) :
    TreeRun sampleCrypto testnet (TreeEvent.Sound sampleCrypto testnet) σ := by
  simp only [Naza.forkRun, offerSoundBlock, bind_eq_ok_iff] at h
  obtain ⟨genesis, -, σ₁, ⟨pb₁, -, h₁⟩, σ₂, ⟨pb₂, -, h₂⟩, pb₃, -, h₃⟩ := h
  exact ((TreeRun.start.soundStep h₁).soundStep h₂).soundStep h₃

/-- The genesis block has two children, its counter passes the check, and then one of them is
deleted. -/
theorem TreeRun.counted_forkRun : ∃ (σ σ' : State × HeaderCaches) (cd : Difficulty),
    σ.1.childrenOf testnet.genesisBlockHash = 2 ∧ Counted testnet σ.1 ∧
    σ.1.checkChildrenCounter cd siblingBlock.sampleHash 0 = .ok () ∧
    treeStep sampleCrypto testnet σ (.prune cd siblingBlock.sampleHash) = .ok σ' ∧
    σ'.1.childrenOf testnet.genesisBlockHash = 1 ∧ Counted testnet σ'.1 := by
  obtain ⟨σ, hfork, htest⟩ := returns_iff.1 returns_forkRun
  obtain ⟨⟨cd, σ'⟩, hprune, htest⟩ := returns_iff.1 htest
  simp only [Bool.and_eq_true, decide_eq_true_eq] at htest
  obtain ⟨⟨htwo, hone, -⟩, -⟩ := htest
  simp only [pruneSibling, bind_eq_ok_iff, invariant_eq_ok_iff] at hprune
  obtain ⟨header, -, ⟨⟩, htip, σ₄, hstep, hok⟩ := hprune
  obtain ⟨rfl, rfl⟩ := Prod.mk.inj (Except.ok.inj hok)
  have hrun := TreeRun.forkRun hfork
  obtain ⟨⟨⟩, -, hpruned⟩ := bind_eq_ok_iff.1 hstep
  exact ⟨σ, σ₄, _, htwo, (TreeRun.counted hrun).1, (TreeRun.counted hrun).2.1 _ _ htip, hpruned,
    hone, (TreeRun.counted (hrun.soundStep hstep)).1⟩

/-! ## A child of a deleted block -/

theorem TreeRun.offerBlock {σ σ' : State × HeaderCaches} {raw : RawBlock}
    (h : TreeRun sampleCrypto testnet (TreeEvent.Called sampleCrypto) σ)
    (hoffer : offerBlock raw σ = .ok σ') :
    TreeRun sampleCrypto testnet (TreeEvent.Called sampleCrypto) σ' := by
  obtain ⟨pb, hprepared, hstep⟩ := bind_eq_ok_iff.1 hoffer
  exact h.step (e := .add 1000 pb) ⟨raw, false, hprepared⟩ hstep

/-- A block hung on a deleted one, whose header is still in memory, is stored without a parent. -/
theorem not_counted : ¬∀ σ, TreeRun sampleCrypto testnet (TreeEvent.Called sampleCrypto) σ →
    Counted testnet σ.1 := by
  intro hcounted
  obtain ⟨σ, hfork, htest⟩ := returns_iff.1 returns_forkRun
  obtain ⟨⟨cd, σ₄⟩, hprune, htest⟩ := returns_iff.1 htest
  simp only [Bool.and_eq_true, decide_eq_true_eq] at htest
  obtain ⟨⟨-, -, hne⟩, hoffer⟩ := htest
  obtain ⟨σ₅, h₅, hstored⟩ := returns_iff.1 hoffer
  simp only [forkRun, pruneSibling, offerSoundBlock, soundStep, bind_eq_ok_iff,
    invariant_eq_ok_iff] at hfork hprune
  obtain ⟨genesis, -, σ₁, ⟨pb₁, hp₁, ⟨⟩, -, h₁⟩, σ₂, ⟨pb₂, hp₂, ⟨⟩, -, h₂⟩, pb₃, hp₃, ⟨⟩, -, h₃⟩ :=
    hfork
  obtain ⟨header, -, ⟨⟩, htip, σ', ⟨⟨⟩, -, hstep⟩, hok⟩ := hprune
  obtain ⟨-, rfl⟩ := Prod.mk.inj (Except.ok.inj hok)
  have hforked : TreeRun sampleCrypto testnet (TreeEvent.Called sampleCrypto) σ :=
    ((TreeRun.start.step (e := .add 1000 pb₁) ⟨_, _, hp₁⟩ h₁).step
      (e := .add 1000 pb₂) ⟨_, _, hp₂⟩ h₂).step (e := .add 1000 pb₃) ⟨_, _, hp₃⟩ h₃
  have hpruned := hforked.step
    (e := .prune header.cumulativeDifficulty siblingBlock.sampleHash) htip hstep
  have hreached := hpruned.offerBlock h₅
  split at hstored
  · cases hstored
  · next child hchild =>
    rw [decide_eq_true_eq] at hstored
    exact (hcounted σ₅ hreached).parent _ child hchild hne hstored

end Naza
