import Naza.CommonAncestor

/-!
# Events as sequences of changes

Every event of a run takes a linked state to the next one by elementary changes only; hence an
invariant of the changes holds in every reachable state.
-/

open Lib Relation

namespace Naza

variable {cr : Crypto} {c : Currency} {P : State → PreparedBlock → Prop}

/-! ## Stored blocks stay stored -/

theorem Change.stored {s t : State} (h : Change cr c P s t) : HeadersWithin s t ∧
    ∀ bid data, s.db.blocks.get bid = some data → t.db.blocks.get bid = some data := by
  have hsame : ∀ {s t : State}, t.links = s.links → HeadersWithin s t ∧
      ∀ bid data, s.db.blocks.get bid = some data → t.db.blocks.get bid = some data := by
    intro s t heq
    obtain ⟨hh, hb, -⟩ := State.links_eq_iff.1 heq
    exact ⟨fun _ _ hx ↦ hh ▸ hx, fun _ _ hx ↦ hb ▸ hx⟩
  cases h with
  | addTransaction hok =>
    obtain ⟨pool, version, rfl⟩ := State.addTransaction_frame hok
    exact hsame rfl
  | clearPool => exact hsame rfl
  | poolVersion => exact hsame rfl
  | cacheNextIndex => exact hsame rfl
  | storeBlock hP hbuilt hroot haccepts hok =>
    rename_i now pb prev info
    obtain ⟨hfresh, blocks, hnone, hsome, rfl⟩ := State.storeBlock_eq hok
    constructor
    · intro bid info' hget
      have hne : pb.bid ≠ bid := by
        rintro rfl
        rw [hfresh] at hget
        cases hget
      exact (Store.get_put_of_ne _ _ hne).trans hget
    · intro bid data hget
      cases hblock : s.db.blocks.get pb.bid with
      | some data' =>
        rw [hsome (by rw [hblock]; simp)]
        exact hget
      | none =>
        have hne : pb.bid ≠ bid := by
          rintro rfl
          rw [hblock] at hget
          cases hget
        rw [hnone hblock]
        exact (Store.get_put_of_ne _ _ hne).trans hget
  | countChild => exact hsame rfl
  | connect _ _ hredo hpush =>
    obtain ⟨-, _, _, rfl⟩ := State.pushChain_eq hpush
    have hstored := hsame (State.links_of_treePart (State.redoBlockIndexed_treePart hredo))
    exact hstored
  | disconnect hundo =>
    obtain ⟨_, _, _, s₁, s₂, -, -, h₁, h₂, h₃⟩ := State.undoTip_eq hundo
    obtain ⟨-, _, _, -, -, rfl⟩ := State.tipChanged_eq h₃
    obtain ⟨-, -, _, -, rfl⟩ := State.popChain_eq h₂
    have hstored := hsame (State.links_of_treePart (State.undoBlockIndexed_treePart h₁))
    exact hstored
  | readTip _ hread htip =>
    obtain ⟨-, _, _, -, -, rfl⟩ := State.tipChanged_eq htip
    simp only [State.readTip, bind_eq_ok_iff, Prod.exists] at hread
    obtain ⟨_, _, -, _, -, hread⟩ := hread
    rw [← Except.ok.inj hread]
    exact ⟨fun _ _ hx ↦ hx, fun _ _ hx ↦ hx⟩
  | tipChanged htip =>
    obtain ⟨-, _, _, -, -, rfl⟩ := State.tipChanged_eq htip
    exact hsame rfl

theorem State.Stores.change {s t : State} {pb : PreparedBlock} {info : Api.BlockHeader}
    (h : s.Stores cr c pb info) (hchange : Change cr c P s t) : t.Stores cr c pb info :=
  h.mono hchange.stored.1 ((hchange.stored.2 _ _ h.block).trans h.block.symm)

theorem State.Stores.changes {s t : State} {pb : PreparedBlock} {info : Api.BlockHeader}
    (h : s.Stores cr c pb info) (hchanges : Changes cr c P s t) : t.Stores cr c pb info :=
  Preserves.star (R := Change cr c P) (I := fun s ↦ s.Stores cr c pb info)
    (fun _ _ hst hs ↦ hs.change hst) hchanges h

theorem Linked.changes {s t : State} (h : Linked cr c s) (hchanges : Changes cr c P s t) :
    Linked cr c t :=
  linked_preserved.star hchanges h

/-! ## The pool -/

theorem State.readdTransaction_change {s t : State} {tid : Hash} {tx : Transaction}
    {binaryTx : BinaryArray} (h : s.readdTransaction cr c tid tx binaryTx = .ok t) :
    Change cr c P s t := by
  obtain ⟨⟨result, conflictHeight, t'⟩, hok, h⟩ := bind_eq_ok_iff.1 h
  exact Except.ok.inj h ▸ .addTransaction hok

theorem State.onReorganization_changes {s t : State} {undone : UndoneTransactions}
    {undoneBlocks : Bool} (h : s.onReorganization cr c undone undoneBlocks = .ok t) :
    Changes cr c P s t := by
  obtain ⟨s₁, h₁, h⟩ := bind_eq_ok_iff.1 h
  obtain ⟨s₂, h₂, h⟩ := bind_eq_ok_iff.1 h
  have c₁ : Changes cr c P s s₁ := by
    cases undoneBlocks with
    | false => exact Except.ok.inj h₁ ▸ .refl
    | true =>
      exact foldlM_ok_preserves (I := fun t ↦ Changes cr c P s t)
        (fun _ _ _ _ hx hI ↦ hI.tail (readdTransaction_change hx)) h₁ (.single (.clearPool s))
  have c₂ : Changes cr c P s s₂ :=
    foldlM_ok_preserves (I := fun t ↦ Changes cr c P s t)
      (fun _ _ _ _ hx hI ↦ hI.tail (readdTransaction_change hx)) h₂ c₁
  exact Except.ok.inj h ▸ c₂.tail (.poolVersion s₂ 2)

/-! ## Reorganization -/

theorem State.undoTo_changes {s t : State} {common : Hash} {fuel : ℕ}
    {undone undone' : UndoneTransactions}
    (h : s.undoTo cr c common fuel undone = .ok (undone', t)) : Changes cr c P s t := by
  induction fuel generalizing s undone with
  | zero =>
    unfold undoTo at h
    split at h
    · exact (Prod.mk.inj (Except.ok.inj h)).2 ▸ .refl
    · cases h
  | succ fuel ih =>
    unfold undoTo at h
    split at h
    · exact (Prod.mk.inj (Except.ok.inj h)).2 ▸ .refl
    · obtain ⟨⟨undone₁, s₁⟩, h₁, h⟩ := bind_eq_ok_iff.1 h
      exact .head (.disconnect h₁) (ih h)

/-- A block of the branch that is redone is one of the stored blocks. -/
theorem State.redoOne_connects {s t : State} (h : Linked cr c s) {recentPb : PreparedBlock}
    {recentInfo : Api.BlockHeader} (hrecent : s.Stores cr c recentPb recentInfo) {chha : Hash}
    {undone undone' : UndoneTransactions}
    (hok : s.redoOne cr c recentPb recentInfo chha undone = .ok (some (undone', t))) :
    ∃ pb info s₁, pb.bid = chha ∧ s.Stores cr c pb info ∧
      pb.block.header.previousBlockHash = s.tipBid ∧
      s.redoBlockIndexed cr c pb.bid pb.blockData pb.rawBlock pb.block info
        pb.baseTransactionHash = .ok (some s₁) ∧ s₁.pushChain c info = .ok t := by
  unfold redoOne at hok
  split at hok
  · next hbid =>
    simp only [bind_eq_ok_iff, invariant_eq_ok_iff] at hok
    obtain ⟨⟨⟩, hprev, r, hredo, hok⟩ := hok
    cases r with
    | none => cases hok
    | some s₁ =>
      obtain ⟨s₂, hpush, hok⟩ := bind_eq_ok_iff.1 hok
      have hok := Option.some.inj (Except.ok.inj hok)
      exact ⟨recentPb, recentInfo, s₁, hbid.symm, hrecent, hprev, hredo,
        (Prod.mk.inj hok).2 ▸ hpush⟩
  · simp only [bind_eq_ok_iff] at hok
    obtain ⟨r, hread, hok⟩ := hok
    cases r with
    | none => cases hok
    | some r =>
      obtain ⟨blockData, raw⟩ := r
      dsimp only at hok
      split at hok
      · cases hok
      · next hverdict =>
        simp only [bind_eq_ok_iff, invariant_eq_ok_iff, readHeader, expect_eq_ok_iff,
          orThrow_eq_ok_iff] at hok
        obtain ⟨⟨⟩, hprev, info, hinfo, hash, hhash, r, hredo, hok⟩ := hok
        obtain ⟨pb, rfl, hstores⟩ := h.stored chha info hinfo
        -- what is read back is what the block was stored from
        rw [hstores.readBlock_eq, Except.ok.injEq, Option.some.injEq, Prod.mk.injEq] at hread
        obtain ⟨rfl, rfl⟩ := hread
        rw [← hstores.built.block_eq] at hprev hhash hredo
        rw [hstores.built.getTransactionHash_eq, Option.some.injEq] at hhash
        subst hhash
        cases r with
        | none => cases hok
        | some s₁ =>
          obtain ⟨s₂, hpush, hok⟩ := bind_eq_ok_iff.1 hok
          have hok := Option.some.inj (Except.ok.inj hok)
          exact ⟨pb, info, s₁, rfl, hstores, hprev, hredo, (Prod.mk.inj hok).2 ▸ hpush⟩

theorem State.redoOne_change {s t : State} (h : Linked cr c s) {recentPb : PreparedBlock}
    {recentInfo : Api.BlockHeader} (hrecent : s.Stores cr c recentPb recentInfo) {chha : Hash}
    (hne : chha ≠ c.genesisBlockHash) {undone undone' : UndoneTransactions}
    (hok : s.redoOne cr c recentPb recentInfo chha undone = .ok (some (undone', t))) :
    Change cr c P s t := by
  obtain ⟨pb, info, s₁, hbid, hstores, hprev, hredo, hpush⟩ := redoOne_connects h hrecent hok
  exact .connect hstores (.inl ⟨hbid ▸ hne, hprev⟩) hredo hpush

theorem State.redoBranch_changes {s t : State} (h : Linked cr c s) {recentPb : PreparedBlock}
    {recentInfo : Api.BlockHeader} (hrecent : s.Stores cr c recentPb recentInfo)
    {branch : List Hash} (hne : ∀ bid ∈ branch, bid ≠ c.genesisBlockHash)
    {undone undone' : UndoneTransactions} {result : Bool}
    (hok : s.redoBranch cr c recentPb recentInfo branch undone = .ok (undone', t, result)) :
    Changes cr c P s t := by
  induction branch generalizing s undone with
  | nil =>
    have hok := Prod.mk.inj (Prod.mk.inj (Except.ok.inj hok)).2
    exact hok.1 ▸ .refl
  | cons chha branch ih =>
    obtain ⟨r, hone, hok⟩ := bind_eq_ok_iff.1 hok
    cases r with
    | none =>
      have hok := Prod.mk.inj (Prod.mk.inj (Except.ok.inj hok)).2
      exact hok.1 ▸ .refl
    | some r =>
      obtain ⟨undone₁, s₁⟩ := r
      have hchange : Change cr c P s s₁ :=
        redoOne_change h hrecent (hne chha List.mem_cons_self) hone
      exact .head hchange (ih (linked_preserved hchange h) (hrecent.change hchange)
        (fun bid hmem ↦ hne bid (List.mem_cons_of_mem _ hmem)) hok)

theorem State.reorganizeBlocks_changes {s t : State} (h : Linked cr c s) {switchToChain : Hash}
    {recentPb : PreparedBlock} {recentInfo : Api.BlockHeader}
    (hrecent : s.Stores cr c recentPb recentInfo) {result : Bool}
    (hok : s.reorganizeBlocks cr c switchToChain recentPb recentInfo = .ok (result, t)) :
    Changes cr c P s t := by
  obtain ⟨⟨chain1, chain2, common⟩, hcommon, hok⟩ := bind_eq_ok_iff.1 hok
  dsimp only at hok
  split at hok
  · exact (Prod.mk.inj (Except.ok.inj hok)).2 ▸ .refl
  · simp only [bind_eq_ok_iff, Prod.exists] at hok
    obtain ⟨undone₁, s₁, h₁, undone₂, s₂, result', h₂, s₃, h₃, hok⟩ := hok
    have c₁ : Changes cr c P s s₁ := undoTo_changes h₁
    have hne := getCommonBlock_ne_genesis h hcommon
    have c₂ : Changes cr c P s₁ s₂ := redoBranch_changes (h.changes c₁) (hrecent.changes c₁)
      (fun bid hmem ↦ hne bid (List.mem_reverse.1 hmem)) h₂
    have c₃ : Changes cr c P s₂ s₃ := onReorganization_changes h₃
    exact (Prod.mk.inj (Except.ok.inj hok)).2 ▸ (c₁.trans c₂).trans c₃

/-! ## Adding a block -/

/-- What `add_block` does to a block behind the check. -/
theorem State.insertBlock_changes {s t : State} (h : Linked cr c s) {now : Timestamp}
    {pb : PreparedBlock} {prev info : Api.BlockHeader} (hP : P s pb) (hbuilt : pb.Built cr)
    (hroot : pb.bid = c.genesisBlockHash ↔ s.db.chain.get 0 = none)
    (haccepts : s.Accepts cr c now pb prev info) {action : BroadcastAction}
    (hok : s.insertBlock cr c pb info prev = .ok (action, t)) :
    Changes cr c P s t ∧ (pb.bid = c.genesisBlockHash → Started t) := by
  simp only [insertBlock, bind_eq_ok_iff] at hok
  obtain ⟨s₁, hstore, s₂, hlink, chosen, hchoose, hok⟩ := hok
  have d₁ : Change cr c P s s₁ :=
    .storeBlock hP hbuilt (by by_cases hg : pb.bid = c.genesisBlockHash
                              · exact .inl hg
                              · exact .inr fun hz ↦ hg (hroot.2 hz)) haccepts hstore
  have l₁ : Linked cr c s₁ := linked_preserved d₁ h
  obtain ⟨hfresh, blocks, hnone, -, hs₁⟩ := storeBlock_eq hstore
  have hblock : s.db.blocks.get pb.bid = none := by
    by_contra hne
    exact h.blocks _ hne hfresh
  have hstores : s₁.Stores cr c pb info := by
    obtain ⟨pb', hbid, -⟩ := l₁.stored pb.bid info (by rw [hs₁]; exact Store.get_put_self _ _ _)
    refine ⟨hbuilt, by rw [hs₁]; exact Store.get_put_self _ _ _, ?_, s, now, prev, d₁.stored.1,
      haccepts⟩
    rw [hs₁, hnone hblock]
    exact Store.get_put_self _ _ _
  have hchain₁ : s₁.db.chain = s.db.chain := by rw [hs₁]
  -- the block hung into the tree
  have c₂ : Changes cr c P s₁ s₂ ∧ (pb.bid = c.genesisBlockHash →
      s₂.tipCumulativeDifficulty = info.cumulativeDifficulty ∧ Started s₂) := by
    simp only [linkBlock, bind_eq_ok_iff] at hlink
    obtain ⟨u, hu, ⟨⟩, -, hlink⟩ := hlink
    have hu' : Changes cr c P s₁ u ∧ (pb.bid = c.genesisBlockHash →
        u.tipCumulativeDifficulty = info.cumulativeDifficulty ∧ Started u) := by
      split at hu
      · next hg =>
        simp only [applyGenesis, bind_eq_ok_iff, expect_eq_ok_iff] at hu
        obtain ⟨r, hredo, v, rfl, hpush⟩ := hu
        refine ⟨.single (.connect hstores (.inr ⟨hg, ?_⟩) hredo hpush), fun _ ↦ ?_⟩
        · rw [hchain₁]
          exact hroot.1 hg
        · have hchange : Change cr c P s₁ u :=
            .connect hstores (.inr ⟨hg, hchain₁ ▸ hroot.1 hg⟩) hredo hpush
          have lu := linked_preserved hchange l₁
          obtain ⟨-, _, _, rfl⟩ := pushChain_eq hpush
          exact ⟨rfl, lu.started_of_get (Store.get_put_self _ _ _)⟩
      · next hg =>
        have hprev := haccepts.prev_eq
        rw [prevInfo, if_neg hg] at hprev
        have hprev₁ := d₁.stored.1 _ _ hprev
        refine ⟨Except.ok.inj hu ▸ .single (.countChild _ _ ?_), fun h ↦ absurd h hg⟩
        rw [hprev₁]
        simp
    have hlink := Except.ok.inj hlink
    subst hlink
    refine ⟨hu'.1.tail (.countChild _ _ ?_), fun hg ↦
      ⟨(modifyChildrenCounter_tipCumulativeDifficulty _ _ _).trans (hu'.2 hg).1, ?_⟩⟩
    · rw [(hstores.changes hu'.1).header]
      simp
    · rw [Started, modifyChildrenCounter_chain]
      exact (hu'.2 hg).2
  obtain ⟨c₂, hgenesis⟩ := c₂
  have l₂ : Linked cr c s₂ := l₁.changes c₂
  have hstores₂ : s₂.Stores cr c pb info := hstores.changes c₂
  have c₃ : ∀ u, chosen = some u → Changes cr c P s₂ u := by
    rintro u rfl
    unfold chooseChain at hchoose
    split at hchoose
    · next hheavier =>
      split at hchoose
      · next htip =>
        obtain ⟨r, hredo, hchoose⟩ := bind_eq_ok_iff.1 hchoose
        cases r with
        | none => cases hchoose
        | some v =>
          obtain ⟨w, hpush, hchoose⟩ := bind_eq_ok_iff.1 hchoose
          have hw := Option.some.inj (Except.ok.inj hchoose)
          refine hw ▸ .single (.connect hstores₂ (.inl ⟨?_, htip.symm⟩) hredo hpush)
          -- the genesis block is the tip already and weighs no more than it
          intro hg
          rw [(hgenesis hg).1] at hheavier
          exact UInt64.lt_irrefl _ hheavier
      · obtain ⟨⟨result, v⟩, hreorg, hchoose⟩ := bind_eq_ok_iff.1 hchoose
        exact Option.some.inj (Except.ok.inj hchoose) ▸ reorganizeBlocks_changes l₂ hstores₂ hreorg
    · exact Option.some.inj (Except.ok.inj hchoose) ▸ .refl
  cases chosen with
  | none =>
    have ht := (Prod.mk.inj (Except.ok.inj hok)).2
    exact ht ▸ ⟨.head d₁ c₂, fun hg ↦ (hgenesis hg).2⟩
  | some u =>
    have ht := (Prod.mk.inj (Except.ok.inj hok)).2
    exact ht ▸ ⟨.head d₁ (c₂.trans (c₃ u rfl)), fun hg ↦
      (started_preserved.star (c₃ u rfl) ⟨l₂, (hgenesis hg).2⟩).2⟩

/-! ## Events -/

/-- The block is new, or it is left alone. -/
theorem State.addBlock_cases {s t : State} (h : Linked cr c s) {now : Timestamp}
    {pb : PreparedBlock} {action : BroadcastAction} {info : Api.BlockHeader}
    (hok : s.addBlock cr c now pb = .ok (action, info, t)) :
    t = s ∧ action ≠ .broadcastAll ∨ ∃ prev, s.Accepts cr c now pb prev info ∧
      s.insertBlock cr c pb info prev = .ok (action, t) := by
  unfold addBlock at hok
  split at hok
  · have hok := Prod.mk.inj (Except.ok.inj hok)
    exact .inl ⟨(Prod.mk.inj hok.2).2.symm, hok.1 ▸ by simp⟩
  · next header hnot =>
    -- a stored header has its block, so the block is new
    have hfresh : s.db.headers.get pb.bid = none := by
      cases hget : s.db.headers.get pb.bid with
      | none => rfl
      | some info' =>
        obtain ⟨pb', hbid, hstores⟩ := h.stored pb.bid info' hget
        have hblock := hstores.block
        rw [hbid] at hblock
        exact absurd (by rw [hasBlock, hblock]; rfl) (hnot info' hget)
    split at hok
    · have hok := Prod.mk.inj (Except.ok.inj hok)
      exact .inl ⟨(Prod.mk.inj hok.2).2.symm, hok.1 ▸ by simp⟩
    · next prev hprev =>
      split at hok
      · cases hok
      · have hok := Prod.mk.inj (Except.ok.inj hok)
        exact .inl ⟨(Prod.mk.inj hok.2).2.symm, hok.1 ▸ by simp⟩
      · next info' hcheck =>
        simp only [bind_eq_ok_iff, Prod.exists] at hok
        obtain ⟨action', t', hinsert, hok⟩ := hok
        have hok := Prod.mk.inj (Except.ok.inj hok)
        obtain ⟨rfl, rfl⟩ := Prod.mk.inj hok.2
        exact .inr ⟨prev, ⟨hfresh, hprev, hcheck⟩, hok.1 ▸ hinsert⟩

theorem State.addBlock_changes {s t : State} (h : Linked cr c s) {now : Timestamp}
    {pb : PreparedBlock} (hP : P s pb) (hbuilt : pb.Built cr)
    (hroot : s.db.headers.get pb.bid = none →
      (pb.bid = c.genesisBlockHash ↔ s.db.chain.get 0 = none))
    {action : BroadcastAction} {info : Api.BlockHeader}
    (hok : s.addBlock cr c now pb = .ok (action, info, t)) :
    Changes cr c P s t ∧ (t = s ∨ (pb.bid = c.genesisBlockHash → Started t)) := by
  rcases addBlock_cases h hok with ⟨rfl, -⟩ | ⟨prev, haccepts, hinsert⟩
  · exact ⟨.refl, .inl rfl⟩
  · exact (insertBlock_changes h hP hbuilt (hroot haccepts.fresh) haccepts hinsert).imp_right .inr

/-- Every event of a started node is a sequence of changes, if `P` allows the blocks offered. -/
theorem State.step_changes {s t : State} {e : Event} (h : Linked cr c s) (hs : Started s)
    (hP : ∀ now raw context pb, e = .addBlock now raw context →
      PreparedBlock.ofRawBlock cr raw.val context = .ok pb → P s pb)
    (hok : s.step cr c e = .ok t) : Changes cr c P s t := by
  cases e with
  | addBlock now raw context =>
    unfold step at hok
    dsimp only at hok
    split at hok
    · exact Except.ok.inj hok ▸ .refl
    · next pb hprep =>
      simp only [bind_eq_ok_iff, Prod.exists] at hok
      obtain ⟨action, info, t', hadd, hok⟩ := hok
      have hroot : s.db.headers.get pb.bid = none →
          (pb.bid = c.genesisBlockHash ↔ s.db.chain.get 0 = none) := fun hfresh ↦
        iff_of_false (h.fresh_ne_genesis hs hfresh) hs
      exact Except.ok.inj hok ▸ (addBlock_changes h (hP _ _ _ _ rfl hprep)
        (PreparedBlock.built_of_ofRawBlock raw.property hprep).1 hroot hadd).1
  | addTransaction binaryTx =>
    unfold step at hok
    dsimp only at hok
    split at hok
    · exact Except.ok.inj hok ▸ .refl
    · split at hok
      · exact Except.ok.inj hok ▸ .refl
      · simp only [bind_eq_ok_iff, Prod.exists] at hok
        obtain ⟨result, conflictHeight, t', hadd, hok⟩ := hok
        exact Except.ok.inj hok ▸ .single (.addTransaction hadd)
  | cacheNextIndex amount => exact Except.ok.inj hok ▸ .single (.cacheNextIndex s amount)
  | restart now =>
    have hroot := (h.mainChain hs).root
    simp only [step, start, hroot, ne_eq, not_true_eq_false, if_false, bind_eq_ok_iff] at hok
    obtain ⟨s₁, hread, htip⟩ := hok
    exact .single (.readTip hroot hread htip)

/-- Starting on an empty database connects the genesis block. -/
theorem State.start_changes {s : State} {now : Timestamp}
    (hfits : ∀ raw, Block.toRawBlock { header := c.genesisBlockTemplate } = some raw →
      raw.FitsMemory)
    (hP : ∀ raw pb, Block.toRawBlock { header := c.genesisBlockTemplate } = some raw →
      PreparedBlock.ofRawBlock cr raw false = .ok pb → P {} pb)
    (hok : State.start cr c now {} = .ok s) : Changes cr c P {} s ∧ Started s := by
  simp only [start, Store.get_empty, addGenesis, bind_eq_ok_iff, expect_eq_ok_iff,
    invariant_eq_ok_iff, Prod.exists] at hok
  obtain ⟨s₂, ⟨raw, hraw, pb, hprep, action, info, s₁, hadd, ⟨⟩, -, h₁⟩, htip⟩ := hok
  have h₁ := Except.ok.inj h₁
  subst h₁
  obtain ⟨hbuilt, -⟩ := PreparedBlock.built_of_ofRawBlock (hfits raw hraw) hprep
  have hmoved : s₁ ≠ {} := by
    -- an empty state has no tip
    rintro rfl
    obtain ⟨tip, _, _, hget, -⟩ := tipChanged_eq htip
    simp [getTip, expect] at hget
  have hgenesis : pb.bid = c.genesisBlockHash := by
    by_contra hne
    -- without a parent nothing is stored
    simp only [addBlock, prevInfo, hne, if_false, Store.get_empty, hasBlock, Option.isSome_none,
      Except.ok.injEq, Prod.mk.injEq] at hadd
    exact hmoved hadd.2.2.symm
  obtain ⟨c₁, hstarted⟩ := addBlock_changes linked_empty (hP raw pb hraw hprep) hbuilt
    (fun _ ↦ iff_of_true hgenesis (Store.get_empty _)) hadd
  refine ⟨c₁.tail (.tipChanged htip), ?_⟩
  obtain ⟨tip, _, _, -, -, rfl⟩ := tipChanged_eq htip
  exact hstarted.resolve_left hmoved hgenesis

/-! ## Reachable states -/

theorem genesis_fitsMemory (isTestnet : Bool) (raw : RawBlock)
    (h : Block.toRawBlock { header := genesisBlockTemplate isTestnet } = some raw) :
    raw.FitsMemory := by
  have hall : ∀ isTestnet, ∀ raw ∈ Block.toRawBlock { header := genesisBlockTemplate isTestnet },
      raw.FitsMemory := by decide +kernel
  exact hall isTestnet raw h

variable {isTestnet : Bool} {ok : State → Event → Prop}

/-- A run is a sequence of changes from the empty database. -/
theorem Run.changes {s : State} (hstart : ∀ raw pb,
      Block.toRawBlock { header := (Currency.make cr isTestnet).genesisBlockTemplate } = some raw →
      PreparedBlock.ofRawBlock cr raw false = .ok pb → P {} pb)
    (hstep : ∀ s now raw context pb, ok s (.addBlock now raw context) →
      PreparedBlock.ofRawBlock cr raw.val context = .ok pb → P s pb)
    (h : Run cr (Currency.make cr isTestnet) ok s) :
    Changes cr (Currency.make cr isTestnet) P {} s ∧ Started s := by
  induction h with
  | start hok =>
    exact State.start_changes (genesis_fitsMemory isTestnet) hstart hok
  | step _ hevent hok ih =>
    obtain ⟨hchanges, hs⟩ := ih
    have hlinked := linked_empty.changes hchanges
    have hmore : Changes cr (Currency.make cr isTestnet) P _ _ :=
      State.step_changes hlinked hs
        (fun now raw context pb he hprep ↦ hstep _ now raw context pb (he ▸ hevent) hprep) hok
    exact ⟨hchanges.trans hmore, (started_preserved.star hmore ⟨hlinked, hs⟩).2⟩

theorem Reachable.started {s : State} (h : Reachable cr (Currency.make cr isTestnet) s) :
    Started s :=
  (Run.changes (P := fun _ _ ↦ True) (fun _ _ _ _ ↦ trivial) (fun _ _ _ _ _ _ _ ↦ trivial) h).2

/-! ## States on the way -/

/-- The states that a run passes through, those inside an event included. -/
abbrev Visited (cr : Crypto) (c : Currency) : State → Prop :=
  Changes cr c (fun _ _ ↦ True) {}

theorem Reachable.visited {s : State} (h : Reachable cr (Currency.make cr isTestnet) s) :
    Visited cr (Currency.make cr isTestnet) s :=
  (Run.changes (P := fun _ _ ↦ True) (fun _ _ _ _ ↦ trivial) (fun _ _ _ _ _ _ _ ↦ trivial) h).1

theorem Reachable.linked {s : State} (h : Reachable cr (Currency.make cr isTestnet) s) :
    Linked cr (Currency.make cr isTestnet) s :=
  linked_empty.changes h.visited

theorem Visited.linked {s : State} (h : Visited cr c s) : Linked cr c s :=
  linked_empty.changes h

/-- A block that passed its check and may be redone on the tip. -/
structure State.Connects (cr : Crypto) (c : Currency) (s : State) (pb : PreparedBlock)
    (info : Api.BlockHeader) : Prop where
  built : pb.Built cr
  ne_genesis : pb.bid ≠ c.genesisBlockHash
  prev_eq : pb.block.header.previousBlockHash = s.tipBid
  header : s.db.headers.get pb.bid = none ∨ s.db.headers.get pb.bid = some info
  accepted : ∃ s₀ now prev, HeadersWithin s₀ s ∧ s₀.Accepts cr c now pb prev info

/-- A new block on top of the tip that has just passed its check. -/
theorem State.Accepts.connects {s : State} {now : Timestamp} {pb : PreparedBlock}
    {prev info : Api.BlockHeader} (h : s.Accepts cr c now pb prev info) (hlinked : Linked cr c s)
    (hs : Started s) (hbuilt : pb.Built cr)
    (hprev : pb.block.header.previousBlockHash = s.tipBid) : s.Connects cr c pb info where
  built := hbuilt
  ne_genesis := hlinked.fresh_ne_genesis hs h.fresh
  prev_eq := hprev
  header := .inl h.fresh
  accepted := ⟨s, now, prev, fun _ _ hget ↦ hget, h⟩

/-- A stored block on top of the tip, as a reorganization meets it. -/
theorem State.Stores.connects {s : State} {pb : PreparedBlock} {info : Api.BlockHeader}
    (h : s.Stores cr c pb info) (hne : pb.bid ≠ c.genesisBlockHash)
    (hprev : pb.block.header.previousBlockHash = s.tipBid) : s.Connects cr c pb info where
  built := h.built
  ne_genesis := hne
  prev_eq := hprev
  header := .inr h.header
  accepted := h.accepted

/-- What the check established about a block that may be redone. -/
theorem State.Connects.accepted_on_tip {s : State} {pb : PreparedBlock} {info : Api.BlockHeader}
    (h : s.Connects cr c pb info) : ∃ context prev m,
      s.db.headers.get s.tipBid = some prev ∧
      Accepted cr c context pb (blockInfo pb prev) prev true m ∧
      info = m.info c pb (blockInfo pb prev) prev := by
  obtain ⟨s₀, now, prev, hwithin, haccepts⟩ := h.accepted
  obtain ⟨m, hm, hinfo⟩ := checkStandaloneConsensus_eq_accept_iff.1 haccepts.check
  have hprev := haccepts.prev_eq
  rw [prevInfo, if_neg h.ne_genesis, h.prev_eq] at hprev
  exact ⟨_, prev, m, hwithin _ _ hprev, hm, hinfo⟩

theorem State.Connects.height_eq {s : State} {pb : PreparedBlock} {info : Api.BlockHeader}
    (h : s.Connects cr c pb info) (hlinked : Linked cr c s) (hs : Started s) :
    info.height = s.tipHeight + 1 ∧ info.height ≠ 0 := by
  obtain ⟨context, prev, m, hprev, hm, rfl⟩ := h.accepted_on_tip
  obtain ⟨tip, htip, hheight⟩ := (hlinked.mainChain hs).tip_header
  rw [hprev, Option.some.injEq] at htip
  subst htip
  refine ⟨?_, hm.height_ne_zero (by simpa [blockInfo] using h.ne_genesis)⟩
  change prev.height + 1 = s.tipHeight + 1
  rw [hheight]

end Naza
