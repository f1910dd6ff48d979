import Naza.Runs

/-!
# The block tree and the main chain

`Linked` is the invariant of the header, block and chain tables: every stored header belongs to a
stored block that passed its check above a stored parent, and the chain table is one path from the
genesis block to the tip.
-/

open Lib Relation

namespace Naza

variable {cr : Crypto} {c : Currency} {P : State → PreparedBlock → Prop}

/-- The chain table is a path of stored headers from genesis to the tip. -/
structure MainChain (c : Currency) (s : State) : Prop where
  height_le : ∀ h bid, s.db.chain.get h = some bid → h ≤ s.tipHeight
  present : ∀ h, h ≤ s.tipHeight → s.db.chain.get h ≠ none
  header : ∀ h bid, s.db.chain.get h = some bid →
    ∃ info, s.db.headers.get bid = some info ∧ info.height = h ∧
      (h ≠ 0 → s.db.chain.get (h - 1) = some info.previousBlockHash)
  root : s.db.chain.get 0 = some c.genesisBlockHash
  tip : s.db.chain.get s.tipHeight = some s.tipBid
  tipDifficulty : ∀ info, s.db.headers.get s.tipBid = some info →
    s.tipCumulativeDifficulty = info.cumulativeDifficulty

/-- Nothing has been connected yet. -/
structure NoChain (c : Currency) (s : State) : Prop where
  chain : ∀ h, s.db.chain.get h = none
  tipHeight : s.tipHeight = 0xFFFFFFFF
  tipDifficulty : s.tipCumulativeDifficulty = 0
  headers : ∀ bid, s.db.headers.get bid ≠ none → bid = c.genesisBlockHash

/-- The invariant of the block tree. -/
structure Linked (cr : Crypto) (c : Currency) (s : State) : Prop where
  stored : ∀ bid info, s.db.headers.get bid = some info →
    ∃ pb, pb.bid = bid ∧ s.Stores cr c pb info
  blocks : ∀ bid, s.db.blocks.get bid ≠ none → s.db.headers.get bid ≠ none
  parent : ∀ bid info, s.db.headers.get bid = some info → bid ≠ c.genesisBlockHash →
    ∃ prev, s.db.headers.get info.previousBlockHash = some prev ∧
      info.height = prev.height + 1 ∧ info.height ≠ 0
  genesis : ∀ info, s.db.headers.get c.genesisBlockHash = some info → info.height = 0
  chain : NoChain c s ∨ MainChain c s

/-- The fields that `Linked` speaks about. -/
def State.links (s : State) :=
  (s.db.headers, s.db.blocks, s.db.chain, s.tipBid, s.tipHeight, s.tipCumulativeDifficulty)

theorem State.links_of_treePart {s t : State} (h : t.treePart = s.treePart) :
    t.links = s.links := by
  have hlinks : t.treePart.links = s.treePart.links := by rw [h]
  exact hlinks

theorem State.links_eq_iff {s t : State} : t.links = s.links ↔
    t.db.headers = s.db.headers ∧ t.db.blocks = s.db.blocks ∧ t.db.chain = s.db.chain ∧
      t.tipBid = s.tipBid ∧ t.tipHeight = s.tipHeight ∧
      t.tipCumulativeDifficulty = s.tipCumulativeDifficulty := by
  simp [State.links]

theorem Linked.of_links {s t : State} (h : Linked cr c s) (heq : t.links = s.links) :
    Linked cr c t := by
  obtain ⟨hh, hb, hc, ht, hth, hd⟩ := State.links_eq_iff.1 heq
  refine ⟨?_, ?_, ?_, ?_, ?_⟩
  · intro bid info hget
    obtain ⟨pb, hbid, hstores⟩ := h.stored bid info (hh ▸ hget)
    exact ⟨pb, hbid, hstores.mono (fun _ _ hx ↦ hh ▸ hx) (by rw [hb])⟩
  · rw [hb, hh]
    exact h.blocks
  · rw [hh]
    exact h.parent
  · rw [hh]
    exact h.genesis
  · refine h.chain.imp (fun hn ↦ ?_) fun hm ↦ ?_
    · exact ⟨hc ▸ hn.chain, hth ▸ hn.tipHeight, hd ▸ hn.tipDifficulty, hh ▸ hn.headers⟩
    · constructor
      · rw [hc, hth]
        exact hm.height_le
      · rw [hc, hth]
        exact hm.present
      · rw [hc, hh]
        exact hm.header
      · rw [hc]
        exact hm.root
      · rw [hc, hth, ht]
        exact hm.tip
      · rw [hh, ht, hd]
        exact hm.tipDifficulty

theorem linked_empty : Linked cr c {} where
  stored := by simp
  blocks := by simp
  parent := by simp
  genesis := by simp
  chain := .inl ⟨by simp, rfl, rfl, by simp⟩

theorem Linked.chain_of_get_zero {s : State} (h : Linked cr c s)
    (hget : s.db.chain.get 0 ≠ none) : MainChain c s :=
  h.chain.resolve_left fun hn ↦ hget (hn.chain 0)

theorem Linked.noChain_of_get_zero {s : State} (h : Linked cr c s)
    (hget : s.db.chain.get 0 = none) : NoChain c s :=
  h.chain.resolve_right fun hm ↦ by
    rw [hm.root] at hget
    cases hget

/-- The tip of a chain is a stored header at the height of the tip. -/
theorem MainChain.tip_header {s : State} (h : MainChain c s) :
    ∃ info, s.db.headers.get s.tipBid = some info ∧ info.height = s.tipHeight := by
  obtain ⟨info, hinfo, hheight, -⟩ := h.header _ _ h.tip
  exact ⟨info, hinfo, hheight⟩

/-! ## Changes keep the tree linked -/

section Changes

variable {s s' : State}

/-- Storing an accepted block adds one header above a stored parent. -/
theorem Linked.storeBlock (h : Linked cr c s) {now : Timestamp} {pb : PreparedBlock}
    {prev info : Api.BlockHeader} (hbuilt : pb.Built cr)
    (hroot : pb.bid = c.genesisBlockHash ∨ s.db.chain.get 0 ≠ none)
    (haccepts : s.Accepts cr c now pb prev info) (hok : s.storeBlock pb info = .ok s') :
    Linked cr c s' := by
  obtain ⟨hfresh, blocks, hnone, -, rfl⟩ := State.storeBlock_eq hok
  have hblock : s.db.blocks.get pb.bid = none := by
    by_contra hne
    exact h.blocks _ hne hfresh
  have hblocks := hnone hblock
  subst hblocks
  have hwithin : ∀ bid info', s.db.headers.get bid = some info' →
      (s.db.headers.put pb.bid info).get bid = some info' := by
    intro bid info' hget
    have hne : pb.bid ≠ bid := by
      rintro rfl
      rw [hfresh] at hget
      cases hget
    rwa [Store.get_put_of_ne _ _ hne]
  obtain ⟨m, hm, hinfo⟩ := checkStandaloneConsensus_eq_accept_iff.1 haccepts.check
  refine ⟨?_, ?_, ?_, ?_, ?_⟩
  · intro bid info' hget
    by_cases hbid : pb.bid = bid
    · subst hbid
      rw [Store.get_put_self, Option.some.injEq] at hget
      subst hget
      exact ⟨pb, rfl, hbuilt, Store.get_put_self _ _ _, Store.get_put_self _ _ _,
        s, now, prev, hwithin, haccepts⟩
    · have hget' : s.db.headers.get bid = some info' := by
        rwa [Store.get_put_of_ne _ _ hbid] at hget
      obtain ⟨pb', rfl, hstores⟩ := h.stored bid info' hget'
      exact ⟨pb', rfl, hstores.mono hwithin (Store.get_put_of_ne _ _ hbid)⟩
  · intro bid hget
    by_cases hbid : pb.bid = bid
    · subst hbid
      simp
    · rw [Store.get_put_of_ne _ _ hbid] at hget ⊢
      exact h.blocks bid hget
  · intro bid info' hget hne
    by_cases hbid : pb.bid = bid
    · subst hbid
      rw [Store.get_put_self, Option.some.injEq] at hget
      subst hget
      have hprev := haccepts.prev_eq
      rw [State.prevInfo, if_neg hne] at hprev
      have hheight := hm.height_ne_zero (by simpa [blockInfo] using hne)
      have hparent := hwithin _ _ hprev
      subst hinfo
      exact ⟨prev, hparent, rfl, hheight⟩
    · have hget' : s.db.headers.get bid = some info' := by
        rwa [Store.get_put_of_ne _ _ hbid] at hget
      obtain ⟨prev', hprev', hheight⟩ := h.parent bid info' hget' hne
      exact ⟨prev', hwithin _ _ hprev', hheight⟩
  · intro info' hget
    by_cases hbid : pb.bid = c.genesisBlockHash
    · rw [← hbid, Store.get_put_self, Option.some.injEq] at hget
      have hprev := haccepts.prev_eq
      rw [State.prevInfo, if_pos hbid, Option.some.injEq] at hprev
      rw [← hget, hinfo, ← hprev]
      rfl
    · rw [Store.get_put_of_ne _ _ hbid] at hget
      exact h.genesis info' hget
  · refine h.chain.imp (fun hn ↦ ?_) fun hc ↦ ?_
    · refine ⟨hn.chain, hn.tipHeight, hn.tipDifficulty, ?_⟩
      intro bid hget
      by_cases hbid : pb.bid = bid
      · exact hbid ▸ hroot.resolve_right fun hne ↦ hne (hn.chain 0)
      · rw [Store.get_put_of_ne _ _ hbid] at hget
        exact hn.headers bid hget
    · refine ⟨hc.height_le, hc.present, ?_, hc.root, hc.tip, ?_⟩
      · intro height bid hget
        obtain ⟨info', hinfo', hrest⟩ := hc.header height bid hget
        exact ⟨info', hwithin _ _ hinfo', hrest⟩
      · intro info' hget
        obtain ⟨tip, htip, -⟩ := hc.tip_header
        rw [hwithin _ _ htip, Option.some.injEq] at hget
        exact hget ▸ hc.tipDifficulty tip htip

/-- The next height above a main chain is a new one. -/
theorem MainChain.succ_ne_zero (h : MainChain c s)
    (hnone : s.db.chain.get (s.tipHeight + 1) = none) :
    s.tipHeight + 1 ≠ 0 := by
  intro hzero
  rw [hzero, h.root] at hnone
  cases hnone

/-- Connecting a block lengthens the chain table by that block. -/
theorem Linked.pushChain (h : Linked cr c s) {pb : PreparedBlock} {info : Api.BlockHeader}
    (hstores : s.Stores cr c pb info)
    (hprev : pb.bid ≠ c.genesisBlockHash ∧ pb.block.header.previousBlockHash = s.tipBid ∨
      pb.bid = c.genesisBlockHash ∧ s.db.chain.get 0 = none)
    (hok : s.pushChain c info = .ok s') : Linked cr c s' := by
  obtain ⟨hfree, size, timestamp, rfl⟩ := State.pushChain_eq hok
  refine ⟨?_, h.blocks, h.parent, h.genesis, .inr ?_⟩
  · intro bid info' hget
    obtain ⟨pb', hbid, hstores'⟩ := h.stored bid info' hget
    exact ⟨pb', hbid, hstores'.mono (fun _ _ hx ↦ hx) rfl⟩
  rw [hstores.hash_eq]
  have hdifficulty : ∀ info', s.db.headers.get pb.bid = some info' →
      info.cumulativeDifficulty = info'.cumulativeDifficulty := by
    intro info' hget
    rw [hstores.header, Option.some.injEq] at hget
    rw [hget]
  rcases hprev with ⟨hgenesis, hprev⟩ | ⟨hgenesis, hzero⟩
  · have hc : MainChain c s := by
      refine h.chain.resolve_left fun hn ↦ hgenesis (hn.headers pb.bid ?_)
      rw [hstores.header]
      simp
    have hne := hc.succ_ne_zero hfree
    obtain ⟨prev, hparent, hheight, -⟩ := h.parent _ _ hstores.header hgenesis
    obtain ⟨tip, htip, htipHeight⟩ := hc.tip_header
    rw [hstores.previousBlockHash_eq, hprev, htip, Option.some.injEq] at hparent
    subst hparent
    rw [htipHeight] at hheight
    have hother : ∀ k, k ≤ s.tipHeight → s.tipHeight + 1 ≠ k := by grind
    refine ⟨?_, ?_, ?_, ?_, Store.get_put_self _ _ _, hdifficulty⟩
    · intro k bid hget
      by_cases hk : s.tipHeight + 1 = k
      · exact hk ▸ UInt32.le_refl _
      · rw [Store.get_put_of_ne _ _ hk] at hget
        have hle := hc.height_le k bid hget
        grind
    · intro k hle
      by_cases hk : s.tipHeight + 1 = k
      · rw [hk, Store.get_put_self]
        simp
      · rw [Store.get_put_of_ne _ _ hk]
        exact hc.present k (by grind)
    · intro k bid hget
      by_cases hk : s.tipHeight + 1 = k
      · subst hk
        rw [Store.get_put_self, Option.some.injEq] at hget
        subst hget
        refine ⟨info, hstores.header, hheight, fun _ ↦ ?_⟩
        have hsub : s.tipHeight + 1 - 1 = s.tipHeight := by grind
        rw [hsub, Store.get_put_of_ne _ _ (hother _ (UInt32.le_refl _)),
          hstores.previousBlockHash_eq,
          hprev, hc.tip]
      · rw [Store.get_put_of_ne _ _ hk] at hget
        obtain ⟨info', hinfo', hheight', hbefore⟩ := hc.header k bid hget
        refine ⟨info', hinfo', hheight', fun hk0 ↦ ?_⟩
        have hle := hc.height_le k bid hget
        rw [Store.get_put_of_ne _ _ (hother _ (by grind))]
        exact hbefore hk0
    · rw [Store.get_put_of_ne _ _ hne]
      exact hc.root
  · have hn := h.noChain_of_get_zero hzero
    have hsucc : s.tipHeight + 1 = 0 := by
      rw [hn.tipHeight]
      rfl
    have hheight := h.genesis info (hgenesis ▸ hstores.header)
    rw [hsucc]
    have hget : ∀ k bid, (s.db.chain.put 0 pb.bid).get k = some bid → k = 0 ∧ bid = pb.bid := by
      intro k bid hk
      by_cases hzero : 0 = k
      · rw [← hzero, Store.get_put_self, Option.some.injEq] at hk
        exact ⟨hzero.symm, hk.symm⟩
      · rw [Store.get_put_of_ne _ _ hzero, hn.chain] at hk
        cases hk
    refine ⟨?_, ?_, ?_, ?_, Store.get_put_self _ _ _, hdifficulty⟩
    · intro k bid hk
      exact (hget k bid hk).1 ▸ UInt32.le_refl _
    · intro k hk
      have hk0 : k = 0 := by grind
      rw [hk0, Store.get_put_self]
      simp
    · intro k bid hk
      obtain ⟨rfl, rfl⟩ := hget k bid hk
      exact ⟨info, hstores.header, hheight, fun hne ↦ absurd rfl hne⟩
    · rw [Store.get_put_self, hgenesis]

/-- Disconnecting the tip shortens the chain table by one block. -/
theorem Linked.popChain (h : Linked cr c s) {newTipBid : Hash}
    (hok : s.popChain newTipBid = .ok s') : Linked cr c s' := by
  obtain ⟨hne, hget, tip, htip, rfl⟩ := State.popChain_eq hok
  refine ⟨?_, h.blocks, h.parent, h.genesis, .inr ?_⟩
  · intro bid info' hget
    obtain ⟨pb', hbid, hstores'⟩ := h.stored bid info' hget
    exact ⟨pb', hbid, hstores'.mono (fun _ _ hx ↦ hx) rfl⟩
  have hc : MainChain c s := h.chain.resolve_left fun hn ↦ by
    have hlt : s.tipHeight ≠ s.tipHeight - 1 := by grind
    rw [Store.get_remove_of_ne _ hlt, hn.chain] at hget
    cases hget
  have hremove : ∀ k bid, (s.db.chain.remove s.tipHeight).get k = some bid →
      s.tipHeight ≠ k ∧ s.db.chain.get k = some bid := by
    intro k bid hk
    rw [Store.get_remove] at hk
    split at hk
    · cases hk
    · next hne => exact ⟨hne, hk⟩
  refine ⟨?_, ?_, ?_, ?_, hget, ?_⟩
  · intro k bid hk
    obtain ⟨hkne, hk⟩ := hremove k bid hk
    have hle := hc.height_le k bid hk
    grind
  · intro k hle
    rw [Store.get_remove_of_ne _ (by grind : s.tipHeight ≠ k)]
    exact hc.present k (by grind)
  · intro k bid hk
    obtain ⟨hkne, hk⟩ := hremove k bid hk
    obtain ⟨info', hinfo', hheight', hbefore⟩ := hc.header k bid hk
    refine ⟨info', hinfo', hheight', fun hk0 ↦ ?_⟩
    have hle := hc.height_le k bid hk
    rw [Store.get_remove_of_ne _ (by grind : s.tipHeight ≠ k - 1)]
    exact hbefore hk0
  · rw [Store.get_remove_of_ne _ hne]
    exact hc.root
  · intro info' hinfo'
    rw [htip, Option.some.injEq] at hinfo'
    rw [hinfo']

/-- Reading the tip back from the database finds the tip that was. -/
theorem Linked.readTip (h : Linked cr c s) {s₁ : State} (hroot : s.db.chain.get 0 ≠ none)
    (hok : State.readTip s.db = .ok s₁) : s₁.links = s.links ∧ s₁.db = s.db := by
  have hc := h.chain_of_get_zero hroot
  have hlast : s.db.chain.toList.getLast? = some (s.tipHeight, s.tipBid) := by
    have hlast := Store.lastWhere_eq_some (p := fun _ ↦ true) hc.tip rfl (by
      intro k bid hk _ hlt
      have hle := hc.height_le k bid hk
      have hlt := compareOfLessAndEq_eq_lt.1 hlt
      grind)
    rwa [Store.lastWhere, List.filter_true] at hlast
  simp only [State.readTip, hlast, bind_eq_ok_iff, expect_eq_ok_iff, State.readHeader,
    Option.some.injEq, Prod.exists, Prod.mk.injEq] at hok
  obtain ⟨tipHeight, tipBid, ⟨rfl, rfl⟩, tip, htip, hok⟩ := hok
  rw [← Except.ok.inj hok]
  exact ⟨State.links_eq_iff.2 ⟨rfl, rfl, rfl, rfl, rfl, (hc.tipDifficulty tip htip).symm⟩, rfl⟩

end Changes

/-- Every change keeps the tree linked. -/
theorem linked_preserved : Preserves (Change cr c P) (Linked cr c) := by
  intro s s' hchange h
  cases hchange with
  | addTransaction hok =>
    obtain ⟨pool, version, rfl⟩ := State.addTransaction_frame hok
    exact h.of_links rfl
  | clearPool => exact h.of_links rfl
  | poolVersion => exact h.of_links rfl
  | cacheNextIndex => exact h.of_links rfl
  | storeBlock _ hbuilt hroot haccepts hok => exact h.storeBlock hbuilt hroot haccepts hok
  | countChild => exact h.of_links rfl
  | connect hstores hprev hredo hpush =>
    rename_i s₁ pb info
    have hlinks := State.links_of_treePart (State.redoBlockIndexed_treePart hredo)
    obtain ⟨hh, hb, hc, ht, -, -⟩ := State.links_eq_iff.1 hlinks
    have hstores₁ : s₁.Stores cr c pb info := hstores.mono (fun _ _ hx ↦ hh ▸ hx) (by rw [hb])
    exact (h.of_links hlinks).pushChain hstores₁ (by rw [ht, hc]; exact hprev) hpush
  | disconnect hundo =>
    obtain ⟨_, _, _, s₁, s₂, -, -, h₁, h₂, h₃⟩ := State.undoTip_eq hundo
    have hlinks := State.links_of_treePart (State.undoBlockIndexed_treePart h₁)
    obtain ⟨-, _, _, -, -, rfl⟩ := State.tipChanged_eq h₃
    exact ((h.of_links hlinks).popChain h₂).of_links rfl
  | readTip hroot hread htip =>
    obtain ⟨hlinks, -⟩ := h.readTip (by rw [hroot]; simp) hread
    obtain ⟨-, _, _, -, -, rfl⟩ := State.tipChanged_eq htip
    exact (h.of_links hlinks).of_links rfl
  | tipChanged htip =>
    obtain ⟨-, _, _, -, -, rfl⟩ := State.tipChanged_eq htip
    exact h.of_links rfl

/-! ## Started nodes -/

/-- The chain is not empty. -/
def Started (s : State) : Prop := s.db.chain.get 0 ≠ none

theorem Linked.mainChain {s : State} (h : Linked cr c s) (hs : Started s) : MainChain c s :=
  h.chain_of_get_zero hs

theorem Linked.started_of_get {s : State} (h : Linked cr c s) {height : Height} {bid : Hash}
    (hget : s.db.chain.get height = some bid) : Started s := by
  have hc := h.chain.resolve_left fun hn ↦ by
    rw [hn.chain height] at hget
    cases hget
  rw [Started, hc.root]
  simp

/-- A new block above a chain is not the genesis block. -/
theorem Linked.fresh_ne_genesis {s : State} (h : Linked cr c s) (hs : Started s) {bid : Hash}
    (hfresh : s.db.headers.get bid = none) : bid ≠ c.genesisBlockHash := by
  rintro rfl
  obtain ⟨info, hinfo, -⟩ := (h.mainChain hs).header _ _ (h.mainChain hs).root
  rw [hfresh] at hinfo
  cases hinfo

theorem started_preserved : Preserves (Change cr c P) fun s ↦ Linked cr c s ∧ Started s := by
  refine Preserves.and linked_preserved ?_
  intro s t hchange h hs
  have ht := linked_preserved hchange h
  have hsame : ∀ {u : State}, u.db.chain = s.db.chain → Started u := fun hu ↦ by
    rw [Started, hu]
    exact hs
  cases hchange with
  | addTransaction hok =>
    obtain ⟨pool, version, rfl⟩ := State.addTransaction_frame hok
    exact hs
  | clearPool => exact hs
  | poolVersion => exact hs
  | cacheNextIndex => exact hs
  | storeBlock hP hbuilt hroot haccepts hok =>
    obtain ⟨-, _, -, -, rfl⟩ := State.storeBlock_eq hok
    exact hs
  | countChild => exact hs
  | connect _ _ hredo hpush =>
    obtain ⟨-, -, hchain, -⟩ :=
      State.links_eq_iff.1 (State.links_of_treePart (State.redoBlockIndexed_treePart hredo))
    obtain ⟨-, _, _, rfl⟩ := State.pushChain_eq hpush
    rw [Started, Store.get_put]
    split
    · simp
    · rw [hchain]
      exact hs
  | disconnect hundo =>
    obtain ⟨_, _, block, s₁, s₂, -, -, h₁, h₂, h₃⟩ := State.undoTip_eq hundo
    obtain ⟨-, _, _, -, -, rfl⟩ := State.tipChanged_eq h₃
    obtain ⟨-, htip, _, -, rfl⟩ := State.popChain_eq h₂
    exact ht.started_of_get htip
  | readTip _ hread htip =>
    obtain ⟨-, hdb⟩ := h.readTip hs hread
    obtain ⟨-, _, _, -, -, rfl⟩ := State.tipChanged_eq htip
    exact hsame (by rw [hdb])
  | tipChanged htip =>
    obtain ⟨-, _, _, -, -, rfl⟩ := State.tipChanged_eq htip
    exact hs

end Naza
