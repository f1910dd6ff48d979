import Naza.BranchRefusals

/-!
# The weight of the tip

A switch to another branch undoes the blocks down to the common one and redoes the branch until a
block is refused.  The tip then stays where the switch ended; the former branch is not restored.
-/

open Lib Relation

namespace Naza

variable {cr : Crypto} {c : Currency} {P : State → PreparedBlock → Prop}

namespace State

/-! ## What a call may do to the tip -/

/-- The tip, the chain table and the tables that follow the main chain. -/
def mainChainState (s : State) :=
  (s.tipBid, s.tipHeight, s.tipCumulativeDifficulty, s.db.chain, s.db.keyImages, s.db.outputs,
    s.db.globalIndices, s.db.transactions, s.db.timestamps)

/-- The tip has not become lighter; and if blocks above the common one had to be undone, the switch
went through to the new block or everything is as it was. -/
structure TipKept (s : State) (pb : PreparedBlock) (t : State) : Prop where
  weight : s.tipCumulativeDifficulty ≤ t.tipCumulativeDifficulty
  restored : t.tipBid = pb.bid ∨
    Ancestor s.parentOf s.tipBid pb.block.header.previousBlockHash ∨
    t.mainChainState = s.mainChainState

/-- The stored block of an id. -/
def rawOf (s : State) (bid : Hash) : Option (Hash × RawBlock) :=
  match s.readBlock bid with
  | .ok (some (_, raw)) => some (bid, raw)
  | _ => none

/-- A heavier block on another branch, of which a block is refused by the chain below it; and
blocks of the main chain are not on that branch, or the last block before the refused one is
lighter than the tip. -/
def SwitchFails (cr : Crypto) (c : Currency) (s : State) (now : Timestamp) (pb : PreparedBlock) :
    Prop :=
  ∃ prev info common chain i last lastInfo, s.Accepts cr c now pb prev info ∧
    s.tipCumulativeDifficulty < info.cumulativeDifficulty ∧
    s.tipBid ≠ pb.block.header.previousBlockHash ∧
    HighestCommon s.parentOf s.tipBid pb.block.header.previousBlockHash common ∧
    Branch s.parentOf pb.block.header.previousBlockHash common chain ∧
    RefusedAt cr c pb.bid (s.mainBlocks.take (s.heightOf common + 1))
      (chain.reverse.filterMap s.rawOf ++ [(pb.bid, pb.rawBlock)]) i ∧
    (∀ j < i, ¬ RefusedAt cr c pb.bid (s.mainBlocks.take (s.heightOf common + 1))
      (chain.reverse.filterMap s.rawOf ++ [(pb.bid, pb.rawBlock)]) j) ∧
    (common :: chain.reverse)[i]? = some last ∧ s.db.headers.get last = some lastInfo ∧
    (s.tipBid ≠ common ∨ lastInfo.cumulativeDifficulty < s.tipCumulativeDifficulty)

/-! ## The steps of a switch -/

theorem undoTo_tipBid {s t : State} {common : Hash} {fuel : ℕ} {undone undone' : UndoneTransactions}
    (h : s.undoTo cr c common fuel undone = .ok (undone', t)) : t.tipBid = common := by
  induction fuel generalizing s undone with
  | zero =>
    unfold undoTo at h
    split at h
    · next htip => exact (Prod.mk.inj (Except.ok.inj h)).2 ▸ htip
    · cases h
  | succ fuel ih =>
    unfold undoTo at h
    split at h
    · next htip => exact (Prod.mk.inj (Except.ok.inj h)).2 ▸ htip
    · obtain ⟨⟨undone₁, s₁⟩, h₁, h⟩ := bind_eq_ok_iff.1 h
      exact ih h

/-- Without new blocks the headers stay as they are. -/
theorem headers_of_changes {s t : State} (h : Changes cr c (fun _ _ ↦ False) s t) :
    t.db.headers = s.db.headers := by
  refine Preserves.star (R := Change cr c fun _ _ ↦ False)
    (I := fun t ↦ t.db.headers = s.db.headers) ?_ h rfl
  intro u t hchange hu
  rw [← hu]
  cases hchange with
  | addTransaction hok =>
    obtain ⟨pool, version, rfl⟩ := addTransaction_frame hok
    rfl
  | clearPool => rfl
  | poolVersion => rfl
  | cacheNextIndex => rfl
  | storeBlock hP => exact hP.elim
  | countChild => rfl
  | connect _ _ hredo hpush =>
    obtain ⟨-, _, _, rfl⟩ := pushChain_eq hpush
    exact (links_eq_iff.1 (links_of_treePart (redoBlockIndexed_treePart hredo))).1
  | disconnect hundo =>
    obtain ⟨_, _, _, s₁, s₂, -, -, h₁, h₂, h₃⟩ := undoTip_eq hundo
    obtain ⟨-, _, _, -, -, rfl⟩ := tipChanged_eq h₃
    obtain ⟨-, -, _, -, rfl⟩ := popChain_eq h₂
    exact (links_eq_iff.1 (links_of_treePart (undoBlockIndexed_treePart h₁))).1
  | readTip _ hread htip =>
    obtain ⟨-, _, _, -, -, rfl⟩ := tipChanged_eq htip
    simp only [readTip, bind_eq_ok_iff, Prod.exists] at hread
    obtain ⟨_, _, -, _, -, hread⟩ := hread
    rw [← Except.ok.inj hread]
  | tipChanged htip =>
    obtain ⟨-, _, _, -, -, rfl⟩ := tipChanged_eq htip
    rfl

/-- What is undone is the end of the main chain. -/
theorem undoTo_mainRaw {s t : State} (h : Linked cr c s) {common : Hash} {fuel : ℕ}
    {undone undone' : UndoneTransactions}
    (hok : s.undoTo cr c common fuel undone = .ok (undone', t)) :
    ∃ old, s.mainRaw = t.mainRaw ++ old := by
  induction fuel generalizing s undone with
  | zero =>
    unfold undoTo at hok
    split at hok
    · exact ⟨[], (Prod.mk.inj (Except.ok.inj hok)).2 ▸ (List.append_nil _).symm⟩
    · cases hok
  | succ fuel ih =>
    unfold undoTo at hok
    split at hok
    · exact ⟨[], (Prod.mk.inj (Except.ok.inj hok)).2 ▸ (List.append_nil _).symm⟩
    · obtain ⟨⟨undone₁, s₁⟩, h₁, hok⟩ := bind_eq_ok_iff.1 hok
      obtain ⟨raw, _, hmain, -⟩ := h.mainRaw_disconnect h₁
      have hlinked : Linked cr c s₁ :=
        linked_preserved (P := fun _ _ ↦ True) (Change.disconnect h₁) h
      obtain ⟨old, hold⟩ := ih hlinked hok
      exact ⟨old ++ [(s.tipBid, raw)], by rw [hmain, hold, List.append_assoc]⟩

/-- After the undo loop the blocks up to the common one are left. -/
theorem undoTo_mainBlocks {s t : State} (h : Linked cr c s) (hs : Started s) {common : Hash}
    {fuel : ℕ} {undone undone' : UndoneTransactions}
    (hok : s.undoTo cr c common fuel undone = .ok (undone', t)) :
    t.mainBlocks = s.mainBlocks.take (s.heightOf common + 1) := by
  obtain ⟨old, hmain⟩ := undoTo_mainRaw h hok
  have hchanges : Changes cr c (fun _ _ ↦ False) s t := undoTo_changes hok
  have lt := h.changes hchanges
  have ht := (started_preserved.star hchanges ⟨h, hs⟩).2
  obtain ⟨tip, hget, hheight⟩ := (lt.mainChain ht).tip_header
  rw [undoTo_tipBid hok, headers_of_changes hchanges] at hget
  have hlength := length_mainRaw lt ht
  rw [← hheight, ← heightOf_eq hget] at hlength
  rw [mainBlocks, mainBlocks, hmain, List.map_append, ← hlength,
    ← List.length_map fun e : Hash × RawBlock ↦ e.2.decoded,
    List.take_left]

/-- Giving transactions back leaves the tip alone. -/
theorem onReorganization_tipBid {s t : State} {undone : UndoneTransactions} {undoneBlocks : Bool}
    (h : s.onReorganization cr c undone undoneBlocks = .ok t) : t.tipBid = s.tipBid := by
  have hstep : ∀ (s t : State) (tid : Hash) (tx : Transaction) (binaryTx : BinaryArray),
      s.readdTransaction cr c tid tx binaryTx = .ok t → t.tipBid = s.tipBid := by
    intro s t tid tx binaryTx hok
    obtain ⟨⟨result, height, t'⟩, hadd, hok⟩ := bind_eq_ok_iff.1 hok
    obtain ⟨pool, version, rfl⟩ := addTransaction_frame hadd
    rw [← Except.ok.inj hok]
  obtain ⟨s₁, h₁, h⟩ := bind_eq_ok_iff.1 h
  obtain ⟨s₂, h₂, h⟩ := bind_eq_ok_iff.1 h
  have tip₁ : s₁.tipBid = s.tipBid := by
    cases undoneBlocks with
    | false => exact Except.ok.inj h₁ ▸ rfl
    | true =>
      exact foldlM_ok_preserves (I := fun t : State ↦ t.tipBid = s.tipBid)
        (fun _ _ _ _ hx hI ↦ (hstep _ _ _ _ _ hx).trans hI) h₁ rfl
  have tip₂ : s₂.tipBid = s.tipBid :=
    foldlM_ok_preserves (I := fun t : State ↦ t.tipBid = s.tipBid)
      (fun _ _ _ _ hx hI ↦ (hstep _ _ _ _ _ hx).trans hI) h₂ tip₁
  rw [← Except.ok.inj h]
  exact tip₂

/-! ## The whole call -/

theorem modifyChildrenCounter_frame {s : State} (cd : Difficulty) (bid : Hash) (delta : UInt32) :
    (s.modifyChildrenCounter cd bid delta).mainChainState = s.mainChainState ∧
      (s.modifyChildrenCounter cd bid delta).mainRaw = s.mainRaw ∧
      (s.modifyChildrenCounter cd bid delta).db.headers = s.db.headers :=
  ⟨by simp only [mainChainState, modifyChildrenCounter], mainRaw_congr rfl rfl rfl, rfl⟩

/-- Up to the choice of the chain nothing changes but that the block is stored. -/
theorem insertBlock_choose {s t : State} (h : Linked cr c s) (hs : Started s) {now : Timestamp}
    {pb : PreparedBlock} {prev info : Api.BlockHeader} (hbuilt : pb.Built cr)
    (haccepts : s.Accepts cr c now pb prev info) {action : BroadcastAction}
    (hok : s.insertBlock cr c pb info prev = .ok (action, t)) :
    ∃ s₁ s₂ chosen, s.storeBlock pb info = .ok s₁ ∧ s₁.linkBlock cr c pb info prev = .ok s₂ ∧
      s₂.chooseChain cr c pb info = .ok chosen ∧ t = chosen.getD s₂ ∧
      Changes cr c (fun _ _ ↦ True) s s₂ ∧ s₂.Stores cr c pb info ∧
      s₂.mainChainState = s.mainChainState ∧ s₂.mainRaw = s.mainRaw ∧
      s₂.db.headers = s.db.headers.put pb.bid info := by
  simp only [insertBlock, bind_eq_ok_iff] at hok
  obtain ⟨s₁, hstore, s₂, hlink, chosen, hchoose, hok⟩ := hok
  have hne := h.fresh_ne_genesis hs haccepts.fresh
  have d₁ : Change cr c (fun _ _ ↦ True) s s₁ :=
    .storeBlock trivial hbuilt (.inr hs) haccepts hstore
  have hmain := h.mainRaw_storeBlock hstore
  obtain ⟨hfresh, blocks, hnone, -, hs₁⟩ := storeBlock_eq hstore
  have hblock : s.db.blocks.get pb.bid = none := by_contra fun hsome ↦ h.blocks _ hsome hfresh
  have hstores : s₁.Stores cr c pb info := by
    refine ⟨hbuilt, by rw [hs₁]; exact Store.get_put_self _ _ _, ?_, s, now, prev, d₁.stored.1,
      haccepts⟩
    rw [hs₁, hnone hblock]
    exact Store.get_put_self _ _ _
  -- hung into the tree, the block changes counters only
  have hlinked : Changes cr c (fun _ _ ↦ True) s₁ s₂ ∧ s₂.mainChainState = s₁.mainChainState ∧
      s₂.mainRaw = s₁.mainRaw ∧ s₂.db.headers = s₁.db.headers := by
    simp only [linkBlock, if_neg hne, bind_eq_ok_iff] at hlink
    obtain ⟨u, hu, ⟨⟩, -, hlink⟩ := hlink
    have hu := Except.ok.inj hu
    have hlink := Except.ok.inj hlink
    subst hu hlink
    have hprev := haccepts.prev_eq
    rw [prevInfo, if_neg hne] at hprev
    have d₂ : Change cr c (fun _ _ ↦ True) s₁ (s₁.modifyChildrenCounter prev.cumulativeDifficulty
        pb.block.header.previousBlockHash 1) :=
      .countChild _ _ (by rw [d₁.stored.1 _ _ hprev]; simp)
    refine ⟨(ReflTransGen.single d₂).tail (.countChild _ _ ?_),
      (modifyChildrenCounter_frame _ _ _).1.trans (modifyChildrenCounter_frame _ _ _).1,
      (modifyChildrenCounter_frame _ _ _).2.1.trans (modifyChildrenCounter_frame _ _ _).2.1,
      (modifyChildrenCounter_frame _ _ _).2.2.trans (modifyChildrenCounter_frame _ _ _).2.2⟩
    rw [(hstores.change d₂).header]
    simp
  obtain ⟨c₂, hstate, hraw, hheaders⟩ := hlinked
  refine ⟨s₁, s₂, chosen, hstore, hlink, hchoose, ?_, .head d₁ c₂, hstores.changes c₂,
    hstate.trans (by rw [hs₁]; rfl), hraw.trans hmain, hheaders.trans (by rw [hs₁])⟩
  cases chosen with
  | none => exact (Prod.mk.inj (Except.ok.inj hok)).2.symm
  | some u => exact (Prod.mk.inj (Except.ok.inj hok)).2.symm

theorem addBlock_of_accepts {s : State} {now : Timestamp} {pb : PreparedBlock}
    {prev info : Api.BlockHeader} (h : s.Accepts cr c now pb prev info) :
    s.addBlock cr c now pb = (s.insertBlock cr c pb info prev).map fun r ↦ (r.1, info, r.2) := by
  simp only [addBlock, h.fresh, h.prev_eq, h.check]
  cases s.insertBlock cr c pb info prev <;> rfl

theorem Accepts.unique {s : State} {now : Timestamp} {pb : PreparedBlock}
    {prev info prev' info' : Api.BlockHeader} (h : s.Accepts cr c now pb prev info)
    (h' : s.Accepts cr c now pb prev' info') : prev = prev' ∧ info = info' := by
  have hprev := h.prev_eq
  rw [h'.prev_eq, Option.some.injEq] at hprev
  subst hprev
  have hcheck := h.check
  rw [h'.check, Check.accept.injEq] at hcheck
  exact ⟨rfl, hcheck.symm⟩

/-! ## Branches in the state that has the new block -/

section Fresh

variable {s s₂ : State} {pb : PreparedBlock} {prev info : Api.BlockHeader} {now : Timestamp}

/-- The new block is a leaf of the tree. -/
theorem Accepts.parentOf_fresh (haccepts : s.Accepts cr c now pb prev info) (h : Linked cr c s)
    (hs : Started s) (l₂ : Linked cr c s₂) (hstores : s₂.Stores cr c pb info)
    (hheaders : s₂.db.headers = s.db.headers.put pb.bid info) :
    (∀ x, x ≠ pb.bid → s₂.parentOf x = s.parentOf x) ∧ (∀ x, s.parentOf x ≠ some pb.bid) ∧
      s₂.parentOf pb.bid = some pb.block.header.previousBlockHash := by
  refine ⟨fun x hx ↦ ?_, fun x hx ↦ ?_, ?_⟩
  · rw [parentOf, parentOf, hheaders, Store.get_put_of_ne _ _ (Ne.symm hx)]
  · obtain ⟨header, hget, hif⟩ := Option.bind_eq_some_iff.1 hx
    split_ifs at hif with hzero
    obtain ⟨parent, hparent, -⟩ := h.exists_parent hget hzero
    rw [Option.some.inj hif, haccepts.fresh] at hparent
    cases hparent
  · have hne := h.fresh_ne_genesis hs haccepts.fresh
    rw [parentOf, hstores.header, Option.bind_some,
      if_neg fun hzero ↦ hne ((l₂.height_eq_zero_iff hstores.header).1 hzero),
      hstores.previousBlockHash_eq]

end Fresh

/-- The stored blocks of a branch. -/
theorem map_fst_filterMap_rawOf {s : State} {chain : List Hash}
    (hstored : ∀ bid ∈ chain, ∃ pb info, pb.bid = bid ∧ s.Stores cr c pb info) :
    (chain.filterMap s.rawOf).map Prod.fst = chain ∧
      ∀ e ∈ chain.filterMap s.rawOf, ∃ pb info, (pb.bid, pb.rawBlock) = e ∧
        s.Stores cr c pb info := by
  induction chain with
  | nil => simp
  | cons bid chain ih =>
    obtain ⟨pb, info, rfl, hstores⟩ := hstored bid List.mem_cons_self
    obtain ⟨hfst, hmem⟩ := ih fun bid hbid ↦ hstored bid (List.mem_cons_of_mem _ hbid)
    have hraw : s.rawOf pb.bid = some (pb.bid, pb.rawBlock) := by
      rw [rawOf, hstores.readBlock_eq]
    rw [List.filterMap_cons_some hraw]
    refine ⟨by rw [List.map_cons, hfst], fun e he ↦ ?_⟩
    rcases List.mem_cons.1 he with rfl | he
    · exact ⟨pb, info, rfl, hstores⟩
    · exact hmem e he

/-- Where a switch ends: the branch of the new block is redone up to the first block that the
chain below it refuses. -/
theorem reorganizeBlocks_spec {s s₂ t : State} (hvisited : Visited cr c s) (hs : Started s)
    {now : Timestamp} {pb : PreparedBlock} {prev info : Api.BlockHeader}
    (haccepts : s.Accepts cr c now pb prev info)
    (hchanges : Changes cr c (fun _ _ ↦ True) s s₂) (hstores : s₂.Stores cr c pb info)
    (hmain : s₂.mainRaw = s.mainRaw) (htip : s₂.tipBid = s.tipBid)
    (hheaders : s₂.db.headers = s.db.headers.put pb.bid info) {result : Bool}
    (hok : s₂.reorganizeBlocks cr c pb.bid pb info = .ok (result, t)) :
    ∃ common chain i,
      HighestCommon s.parentOf s.tipBid pb.block.header.previousBlockHash common ∧
      Branch s.parentOf pb.block.header.previousBlockHash common chain ∧ i ≤ chain.length + 1 ∧
      (common :: chain.reverse ++ [pb.bid])[i]? = some t.tipBid ∧
      (∀ j < i, ¬ RefusedAt cr c pb.bid (s.mainBlocks.take (s.heightOf common + 1))
        (chain.reverse.filterMap s.rawOf ++ [(pb.bid, pb.rawBlock)]) j) ∧
      (i < chain.length + 1 → RefusedAt cr c pb.bid (s.mainBlocks.take (s.heightOf common + 1))
        (chain.reverse.filterMap s.rawOf ++ [(pb.bid, pb.rawBlock)]) i) := by
  have h := hvisited.linked
  have hvisited₂ : Visited cr c s₂ := hvisited.trans hchanges
  have l₂ := hvisited₂.linked
  have started₂ := (started_preserved.star hchanges ⟨h, hs⟩).2
  obtain ⟨hsame, hleaf, hparent⟩ := haccepts.parentOf_fresh h hs l₂ hstores hheaders
  obtain ⟨tip, htipGet, -⟩ := (h.mainChain hs).tip_header
  have hstoredTip : s₂.db.headers.get s₂.tipBid ≠ none := by
    obtain ⟨tip₂, hget, -⟩ := (l₂.mainChain started₂).tip_header
    simp [hget]
  obtain ⟨chain1, chain2, common, hcommon, hbranches⟩ :=
    l₂.getCommonBlock hstoredTip (by rw [hstores.header]; simp : s₂.db.headers.get pb.bid ≠ none)
  have hnotFresh : ∀ x, s.db.headers.get x ≠ none → x ≠ pb.bid := by
    rintro x hx rfl
    exact hx haccepts.fresh
  have htipNe : s.tipBid ≠ pb.bid := hnotFresh _ (by simp [htipGet])
  have hne := h.fresh_ne_genesis hs haccepts.fresh
  have hprevGet : s.db.headers.get pb.block.header.previousBlockHash = some prev := by
    have hprev := haccepts.prev_eq
    rwa [prevInfo, if_neg hne] at hprev
  have hprevNe := hnotFresh pb.block.header.previousBlockHash (by simp [hprevGet])
  rw [htip] at hcommon hbranches
  have hhighest := HighestCommon.of_leaf hsame hleaf htipNe hprevNe hparent hbranches.highest
  have hcommonNe : common ≠ pb.bid := hhighest.left.ne_leaf hleaf htipNe
  -- the new block is the top of its branch
  obtain ⟨chain, rfl, hchain⟩ : ∃ chain, chain2 = pb.bid :: chain ∧
      Branch s.parentOf pb.block.header.previousBlockHash common chain := by
    cases hbranches.branch2 with
    | nil => exact absurd rfl hcommonNe
    | @cons _ b _ chain hparent' hbranch =>
      rw [hparent, Option.some.injEq] at hparent'
      subst hparent'
      exact ⟨chain, rfl, (Branch.of_leaf_iff hsame hleaf hprevNe).1 hbranch⟩
  have hstored : ∀ bid ∈ chain, ∃ pb info, pb.bid = bid ∧ s.Stores cr c pb info := by
    intro bid hmem
    obtain ⟨parent, hparent⟩ := Option.ne_none_iff_exists'.1 (hchain.parent_ne_none hmem)
    obtain ⟨header, hget, -⟩ := Option.bind_eq_some_iff.1 hparent
    obtain ⟨pb, hbid, hstores⟩ := h.stored _ _ hget
    exact ⟨pb, header, hbid, hstores⟩
  have hnever := getCommonBlock_ne_genesis l₂ hcommon
  have hstored' : ∀ bid ∈ chain.reverse, ∃ pb info, pb.bid = bid ∧ s.Stores cr c pb info :=
    fun bid hmem ↦ hstored bid (List.mem_reverse.1 hmem)
  obtain ⟨hfst, hraws⟩ := map_fst_filterMap_rawOf hstored'
  refine ⟨common, chain, ?_⟩
  rw [reorganizeBlocks, htip, hcommon] at hok
  simp only [bind_eq_ok_iff, Except.ok.injEq, exists_eq_left'] at hok
  split at hok
  · next hall =>
    -- a block with a header is there
    rw [Bool.eq_false_iff] at hall
    refine absurd (List.all_eq_true.2 fun bid hmem ↦ ?_) hall
    rcases List.mem_cons.1 hmem with rfl | hmem
    · rw [hasBlock, hstores.block]
      rfl
    · obtain ⟨pb', info', rfl, hstores'⟩ := hstored bid hmem
      rw [hasBlock, (hstores'.changes hchanges).block]
      rfl
  · simp only [bind_eq_ok_iff, Prod.exists] at hok
    obtain ⟨undone₁, u, h₁, undone₂, v, result', h₂, w, h₃, hok⟩ := hok
    have c₁ : Changes cr c (fun _ _ ↦ True) s₂ u := undoTo_changes h₁
    have hbelow : u.mainBlocks = s.mainBlocks.take (s.heightOf common + 1) := by
      rw [undoTo_mainBlocks l₂ started₂ h₁, mainBlocks, mainBlocks, hmain, heightOf, heightOf,
        hheaders, Store.get_put_of_ne _ _ hcommonNe.symm]
    have hbids : (chain.reverse.filterMap s.rawOf ++ [(pb.bid, pb.rawBlock)]).map Prod.fst =
        chain.reverse ++ [pb.bid] := by
      rw [List.map_append, hfst, List.map_singleton]
    have hlength : (chain.reverse.filterMap s.rawOf ++ [(pb.bid, pb.rawBlock)]).length =
        chain.length + 1 := by
      rw [← List.length_map Prod.fst, hbids, List.length_append, List.length_reverse,
        List.length_singleton]
    rw [List.reverse_cons, ← hbids] at h₂
    obtain ⟨i, hi, htop, hnone, hlast⟩ := redoBranch_spec (hvisited₂.trans c₁)
      (hstores.changes c₁) (fun e he ↦ by
        rcases List.mem_append.1 he with he | he
        · obtain ⟨pb', info', heq, hstores'⟩ := hraws e he
          exact ⟨pb', info', heq, (hstores'.changes hchanges).changes c₁⟩
        · exact ⟨pb, info, (List.mem_singleton.1 he).symm, hstores.changes c₁⟩)
      (fun e he ↦ hnever e.1 (by
        have hmem := List.mem_map_of_mem (f := Prod.fst) he
        rw [hbids] at hmem
        simpa [or_comm] using hmem)) h₂
    rw [hbelow] at hnone hlast
    rw [hlength] at hi hlast
    rw [hbids, undoTo_tipBid h₁] at htop
    refine ⟨i, hhighest, hchain, hi, ?_, hnone, hlast⟩
    rw [← (Prod.mk.inj (Except.ok.inj hok)).2, onReorganization_tipBid h₃]
    exact htop

/-- After a switch the tip is kept exactly when no block was refused, or the branch starts at the
tip and what was redone of it is not lighter. -/
theorem Accepts.tipKept_iff_of_switch {s s₂ t : State} (hvisited : Visited cr c s) (hs : Started s)
    {now : Timestamp} {pb : PreparedBlock} {prev info : Api.BlockHeader}
    (haccepts : s.Accepts cr c now pb prev info)
    (hheavier : s.tipCumulativeDifficulty < info.cumulativeDifficulty)
    (hside : s.tipBid ≠ pb.block.header.previousBlockHash)
    (hchanges : Changes cr c (fun _ _ ↦ True) s s₂) (hstores : s₂.Stores cr c pb info)
    (hmain : s₂.mainRaw = s.mainRaw) (htip : s₂.tipBid = s.tipBid)
    (hheaders : s₂.db.headers = s.db.headers.put pb.bid info) {result : Bool}
    (hok : s₂.reorganizeBlocks cr c pb.bid pb info = .ok (result, t)) :
    s.TipKept pb t ↔ ¬ s.SwitchFails cr c now pb := by
  have h := hvisited.linked
  have hvisited₂ : Visited cr c s₂ := hvisited.trans hchanges
  have l₂ := hvisited₂.linked
  obtain ⟨common, chain, i, hhighest, hchain, hi, htop, hnone, hlast⟩ :=
    reorganizeBlocks_spec hvisited hs haccepts hchanges hstores hmain htip hheaders hok
  obtain ⟨-, hleaf, -⟩ := haccepts.parentOf_fresh h hs l₂ hstores hheaders
  have hprevNe : pb.block.header.previousBlockHash ≠ pb.bid := by
    intro heq
    have hprev := haccepts.prev_eq
    rw [prevInfo, if_neg (h.fresh_ne_genesis hs haccepts.fresh), heq, haccepts.fresh] at hprev
    cases hprev
  -- the weight of the tip is that of its header
  have hreorg : Changes cr c (fun _ _ ↦ False) s₂ t := reorganizeBlocks_changes l₂ hstores hok
  have lt := l₂.changes hreorg
  have ht := (started_preserved.star hreorg
    ⟨l₂, (started_preserved.star hchanges ⟨h, hs⟩).2⟩).2
  have hmainT := lt.mainChain ht
  obtain ⟨tipInfo, htipInfo, -⟩ := hmainT.tip_header
  have hweight := hmainT.tipDifficulty tipInfo htipInfo
  rw [headers_of_changes hreorg, hheaders] at htipInfo
  rcases Nat.lt_or_ge i (chain.length + 1) with hlt | hge
  · -- a block is refused, and the tip stands below it
    have hlastBid : (common :: chain.reverse)[i]? = some t.tipBid := by
      rwa [List.getElem?_append_left (by simpa using hlt)] at htop
    have hancestor : Ancestor s.parentOf t.tipBid pb.block.header.previousBlockHash := by
      rcases List.mem_cons.1 (List.mem_of_getElem? hlastBid) with heq | hmem
      · exact heq ▸ ⟨chain, hchain⟩
      · exact hchain.ancestor_of_mem (List.mem_reverse.1 hmem)
    have htipNe : t.tipBid ≠ pb.bid := hancestor.ne_leaf hleaf hprevNe
    rw [Store.get_put_of_ne _ _ htipNe.symm] at htipInfo
    have hrestored : (t.tipBid = pb.bid ∨
        Ancestor s.parentOf s.tipBid pb.block.header.previousBlockHash ∨
          t.mainChainState = s.mainChainState) ↔ s.tipBid = common := by
      rw [or_iff_right htipNe, hhighest.eq_left_iff h.heightOf_parentOf]
      refine or_iff_left_of_imp fun hstate ↦ ?_
      have heq : t.tipBid = s.tipBid := congrArg Prod.fst hstate
      exact heq ▸ hancestor
    have hfails : s.SwitchFails cr c now pb ↔
        s.tipBid ≠ common ∨ tipInfo.cumulativeDifficulty < s.tipCumulativeDifficulty := by
      constructor
      · rintro ⟨prev', info', common', chain', j, last, lastInfo, -, -, -, hhighest', hchain',
          hrefused, hbefore, hget, hinfo, hcause⟩
        obtain rfl := hhighest.unique h.heightOf_parentOf hhighest'
        obtain rfl := hchain.unique h.heightOf_parentOf hchain'
        -- both are the first refused block
        obtain rfl : i = j := by
          rcases Nat.lt_trichotomy i j with hij | rfl | hji
          · exact absurd (hlast hlt) (hbefore i hij)
          · rfl
          · exact absurd hrefused (hnone j hji)
        rw [hlastBid, Option.some.injEq] at hget
        rw [← hget, htipInfo, Option.some.injEq] at hinfo
        rw [hinfo]
        exact hcause
      · intro hcause
        exact ⟨prev, info, common, chain, i, t.tipBid, tipInfo, haccepts, hheavier, hside, hhighest,
          hchain, hlast hlt, hnone, hlastBid, htipInfo, hcause⟩
    rw [hfails, not_or, not_not, ← hrestored, ← hweight, UInt64.not_lt]
    exact ⟨fun hkept ↦ ⟨hkept.restored, hkept.weight⟩, fun hkept ↦ ⟨hkept.2, hkept.1⟩⟩
  · have hfull : i = chain.length + 1 := le_antisymm hi hge
    have hnew : t.tipBid = pb.bid := by
      rw [hfull, List.getElem?_append_right (by simp)] at htop
      simpa using htop.symm
    rw [hnew, Store.get_put_self, Option.some.injEq] at htipInfo
    refine iff_of_true ⟨?_, .inl hnew⟩ ?_
    · rw [hweight, ← htipInfo]
      exact UInt64.le_of_lt hheavier
    · rintro ⟨prev', info', common', chain', j, _, _, -, -, -, hhighest', hchain', hrefused, -⟩
      obtain rfl := hhighest.unique h.heightOf_parentOf hhighest'
      obtain rfl := hchain.unique h.heightOf_parentOf hchain'
      obtain ⟨e, hget, -⟩ := id hrefused
      have hbound := (List.getElem?_eq_some_iff.1 hget).1
      have hcount := List.length_filterMap_le s.rawOf chain.reverse
      rw [List.length_append, List.length_singleton] at hbound
      rw [List.length_reverse] at hcount
      exact hnone j (by omega) hrefused

/-- A call keeps the tip exactly when it does not switch to a branch with a refused block. -/
theorem addBlock_tipKept_iff {s t : State} (hvisited : Visited cr c s) (hs : Started s)
    {now : Timestamp} {pb : PreparedBlock} (hbuilt : pb.Built cr) {action : BroadcastAction}
    {info : Api.BlockHeader} (hok : s.addBlock cr c now pb = .ok (action, info, t)) :
    s.TipKept pb t ↔ ¬ s.SwitchFails cr c now pb := by
  have h := hvisited.linked
  by_cases haccepted : ∃ prev info, s.Accepts cr c now pb prev info
  swap
  · -- without acceptance nothing happens
    rcases addBlock_cases h hok with ⟨rfl, -⟩ | ⟨prev, haccepts, -⟩
    · refine iff_of_true ⟨UInt64.le_refl _, .inr (.inr rfl)⟩ ?_
      rintro ⟨prev, info', _, _, _, _, _, haccepts, -⟩
      exact haccepted ⟨prev, info', haccepts⟩
    · exact absurd ⟨prev, info, haccepts⟩ haccepted
  obtain ⟨prev, info', haccepts⟩ := haccepted
  rw [addBlock_of_accepts haccepts] at hok
  cases hinsert : s.insertBlock cr c pb info' prev with
  | error e =>
    rw [hinsert] at hok
    cases hok
  | ok r =>
  obtain ⟨action', t'⟩ := r
  rw [hinsert] at hok
  obtain ⟨hinfo, hstate⟩ := Prod.mk.inj (Prod.mk.inj (Except.ok.inj hok)).2
  change t' = t at hstate
  subst hinfo hstate
  obtain ⟨s₁, s₂, chosen, -, -, hchoose, ht, hchanges, hstores, hsame, hmain, hheaders⟩ :=
    insertBlock_choose h hs hbuilt haccepts hinsert
  have htip : s₂.tipBid = s.tipBid := congrArg Prod.fst hsame
  have hcd : s₂.tipCumulativeDifficulty = s.tipCumulativeDifficulty :=
    congrArg (fun x ↦ x.2.2.1) hsame
  have hkept : t' = s₂ → s.TipKept pb t' := fun heq ↦
    heq ▸ ⟨hcd ▸ UInt64.le_refl _, .inr (.inr hsame)⟩
  unfold chooseChain at hchoose
  split at hchoose
  swap
  · next hlight =>
    rw [hcd] at hlight
    refine iff_of_true (hkept (by rw [ht, ← Except.ok.inj hchoose, Option.getD_some])) ?_
    rintro ⟨prev', info'', _, _, _, _, _, haccepts', hheavier, -⟩
    obtain ⟨rfl, rfl⟩ := haccepts.unique haccepts'
    exact hlight hheavier
  next hheavier =>
  rw [hcd] at hheavier
  split at hchoose
  · next hon =>
    rw [htip] at hon
    refine iff_of_true ?_ fun ⟨_, _, _, _, _, _, _, _, _, hside, _⟩ ↦ hside hon
    obtain ⟨r, hredo, hchoose⟩ := bind_eq_ok_iff.1 hchoose
    cases r with
    | none => exact hkept (by rw [ht, ← Except.ok.inj hchoose, Option.getD_none])
    | some u =>
      obtain ⟨w, hpush, hchoose⟩ := bind_eq_ok_iff.1 hchoose
      have hsome := Except.ok.inj hchoose
      obtain ⟨-, _, _, hw⟩ := pushChain_eq hpush
      rw [ht, ← hsome, Option.getD_some, hw]
      exact ⟨UInt64.le_of_lt hheavier, .inl hstores.hash_eq⟩
  · next hside =>
    rw [htip] at hside
    obtain ⟨⟨result, v⟩, hreorg, hchoose⟩ := bind_eq_ok_iff.1 hchoose
    have hsome := Except.ok.inj hchoose
    have hv : t' = v := by rw [ht, ← hsome, Option.getD_some]
    subst hv
    exact haccepts.tipKept_iff_of_switch hvisited hs hheavier hside hchanges hstores hmain htip
      hheaders hreorg

end State

/-! ## A branch that cannot be redone -/

/-- It spends an output that does not exist. -/
def voidSpend : Transaction :=
  sampleTransaction [{ amount := 20001, outputIndexes := [0], keyImage := 7 }] [20000] [] 5

/-- A block at height 1 with it, beside `firstTestnetBlock`. -/
def voidBlock : BlockTemplate :=
  (sampleTemplate 2 testnet.genesisBlockHash 0 (sampleCoinbase 1 (281470681743360 + 1) [1, 3])
    [voidSpend]).merged

/-- The block above it. -/
def aboveVoidBlock : BlockTemplate :=
  (sampleTemplate 2 voidBlock.sampleHash 0 (sampleCoinbase 2 281466386841600 [2, 3]) []).merged

theorem runFromStart_voidBlock : returns (runFromStart sampleCrypto testnet
      [.offer 1000 (firstTestnetBlock.rawBlock []), .offer 1000 (voidBlock.rawBlock [voidSpend])])
    (fun s ↦ returns
        (PreparedBlock.ofRawBlock sampleCrypto (aboveVoidBlock.rawBlock []) false)
      fun pb ↦ returns (s.addBlock sampleCrypto testnet 1000 pb) fun r ↦
        r.2.2.tipCumulativeDifficulty < s.tipCumulativeDifficulty) = true := by
  decide +kernel

theorem aboveVoidBlock_added : ∃ (s t : State) (pb : PreparedBlock) (action : BroadcastAction)
    (info : Api.BlockHeader), Reachable sampleCrypto testnet s ∧ pb.Built sampleCrypto ∧
    s.addBlock sampleCrypto testnet 1000 pb = .ok (action, info, t) ∧
    t.tipCumulativeDifficulty < s.tipCumulativeDifficulty := by
  obtain ⟨s, hrun, htest⟩ := returns_iff.1 runFromStart_voidBlock
  obtain ⟨pb, hprep, htest⟩ := returns_iff.1 htest
  obtain ⟨⟨action, info, t⟩, hadd, hlt⟩ := returns_iff.1 htest
  rw [decide_eq_true_eq] at hlt
  exact ⟨s, t, pb, action, info, reachable_of_runFromStart hrun,
    (PreparedBlock.built_of_ofRawBlock (by decide +kernel) hprep).1, hadd, hlt⟩

/-- A switch to a branch with a void spend leaves the node on a lighter block. -/
theorem State.addBlock_lighterTip : ∃ (s t : State) (pb : PreparedBlock) (action : BroadcastAction)
    (info : Api.BlockHeader), Reachable sampleCrypto testnet s ∧ pb.Built sampleCrypto ∧
    s.addBlock sampleCrypto testnet 1000 pb = .ok (action, info, t) ∧
    ¬ s.TipKept pb t := by
  obtain ⟨s, t, pb, action, info, hreach, hbuilt, hadd, hlt⟩ := aboveVoidBlock_added
  exact ⟨s, t, pb, action, info, hreach, hbuilt, hadd, fun hkept ↦
    UInt64.not_le.2 hlt hkept.weight⟩

theorem State.addBlock_tipKept_iff_aboveVoidBlock : ∃ (s : State) (pb : PreparedBlock),
    Reachable sampleCrypto testnet s ∧ s.SwitchFails sampleCrypto testnet 1000 pb := by
  obtain ⟨s, t, pb, action, info, hreach, hbuilt, hadd, hlt⟩ := aboveVoidBlock_added
  have hiff := State.addBlock_tipKept_iff hreach.visited hreach.started hbuilt hadd
  exact ⟨s, pb, hreach, by_contra fun hnot ↦ UInt64.not_le.2 hlt (hiff.2 hnot).weight⟩

/-! ## Two branches -/

/-- In a reachable state the branches of any two stored headers are found, down to their highest
common ancestor. -/
theorem Reachable.commonBranches {isTestnet : Bool} {s : State}
    (h : Reachable cr (Currency.make cr isTestnet) s) {bid1 bid2 : Hash}
    (hget1 : s.db.headers.get bid1 ≠ none) (hget2 : s.db.headers.get bid2 ≠ none) :
    ∃ chain1 chain2 common, s.getCommonBlock bid1 bid2 = .ok (chain1, chain2, common) ∧
      s.CommonBranches bid1 bid2 chain1 chain2 common :=
  h.linked.getCommonBlock hget1 hget2

theorem runFromStart_twoBranches : returns (runFromStart sampleCrypto testnet
      [.offer 1000 (firstTestnetBlock.rawBlock []), .offer 1000 (voidBlock.rawBlock [voidSpend])])
    (fun s ↦ s.tipBid = firstTestnetBlock.sampleHash ∧
      (s.db.headers.get firstTestnetBlock.sampleHash).isSome ∧
        (s.db.headers.get voidBlock.sampleHash).isSome) = true := by
  decide +kernel

theorem Reachable.commonBranches_twoBranches : ∃ s : State, Reachable sampleCrypto testnet s ∧
    ∃ chain1 chain2 common,
      s.getCommonBlock s.tipBid voidBlock.sampleHash = .ok (chain1, chain2, common) ∧
        s.CommonBranches s.tipBid voidBlock.sampleHash chain1 chain2 common := by
  obtain ⟨s, hrun, htest⟩ := returns_iff.1 runFromStart_twoBranches
  obtain ⟨htip, hget1, hget2⟩ := of_decide_eq_true htest
  have hreach := reachable_of_runFromStart hrun
  rw [← htip] at hget1
  exact ⟨s, hreach, Reachable.commonBranches hreach (Option.ne_none_iff_isSome.2 hget1)
    (Option.ne_none_iff_isSome.2 hget2)⟩

end Naza
