import Naza.TipWeight

/-!
# Headers in memory

`read_header` answers from the window of headers below the tip and from a map of headers before it
asks the database.  Both are kept beside the state here, and every lookup, push and pop of a run
is one step on them.
-/

open Lib Relation

namespace Naza

variable {cr : Crypto} {c : Currency}

/-- `m_header_tip_window`, oldest header first, and `header_cache`. -/
structure HeaderCaches where
  tipWindow : List Api.BlockHeader := []
  headerCache : Store Hash Api.BlockHeader := ∅

/-! ## Lookups -/

namespace State

section Definitions

variable (c : Currency) (s : State)

/-- `largest_window`. -/
def largestWindow : Height :=
  max (c.getDifficultyBlocksCount (s.tipHeight + 1))
    (max c.rewardBlocksWindow (c.getTimestampCheckWindow (s.tipHeight + 1)))

/-- The second half of `read_header`: the map, which is cleared when it has grown too large, and
the database. -/
def lookupHeader (bid : Hash) (k : HeaderCaches) : Option Api.BlockHeader × HeaderCaches :=
  match k.headerCache.get bid with
  | some header => (some header, k)
  | none =>
    let headerCache :=
      if (s.largestWindow c * 10).toNat < k.headerCache.size then ∅ else k.headerCache
    match s.db.headers.get bid with
    | none => (none, { k with headerCache })
    | some header => (some header, { k with headerCache := headerCache.put bid header })

/-- `read_header` with a hint for the height.  Sizes are 64 bits wide. -/
def readHeaderCached (bid : Hash) (hint : Height) (k : HeaderCaches) :
    Except Fault (Option Api.BlockHeader × HeaderCaches) :=
  let size := UInt64.ofNat k.tipWindow.length
  if s.tipHeight ≠ 0xFFFFFFFF ∧ hint ≤ s.tipHeight ∧
      s.tipHeight.toUInt64 - size + 1 ≤ hint.toUInt64 then
    match k.tipWindow[(size - 1 - (s.tipHeight - hint).toUInt64).toNat]? with
    | none => .error .outOfRange
    | some candidate =>
      if candidate.hash = bid then .ok (some candidate, k) else .ok (s.lookupHeader c bid k)
  else .ok (s.lookupHeader c bid k)

/-- `read_header` with its invariant. -/
def expectHeaderCached (bid : Hash) (hint : Height) (k : HeaderCaches) :
    Except Fault (Api.BlockHeader × HeaderCaches) := do
  let (header, k) ← s.readHeaderCached c bid hint k
  let header ← expect header "Expected header was not found"
  return (header, k)

/-- `get_tip`: the last header of the window. -/
def getTipCached (k : HeaderCaches) : Except Fault Api.BlockHeader := do
  let tip ← expect k.tipWindow.getLast? "tip window corrupted"
  invariant (s.tipBid = tip.hash) "tip window corrupted"
  return tip

/-- The loop of `get_tip_segment`. -/
def walkBackCached : ℕ → Api.BlockHeader → HeaderCaches →
    Except Fault ((List Api.BlockHeader × Api.BlockHeader) × HeaderCaches)
  | 0, pi, k => .ok (([], pi), k)
  | window + 1, pi, k =>
    if pi.height = 0 then .ok (([], pi), k)
    else do
      let (prev, k) ← s.expectHeaderCached c pi.previousBlockHash (pi.height - 1) k
      let ((result, last), k) ← walkBackCached window prev k
      return ((pi :: result, last), k)

/-- `get_tip_segment`. -/
def getTipSegmentCached (prevInfo : Api.BlockHeader) (window : Height) (addGenesis : Bool)
    (k : HeaderCaches) : Except Fault (List Api.BlockHeader × HeaderCaches) :=
  if prevInfo.height = 0xFFFFFFFF then .ok ([], k)
  else do
    let ((result, pi), k) ← s.walkBackCached c window.toNat prevInfo k
    if result.length < window.toNat ∧ addGenesis then
      invariant (pi.height = 0)
        "Invariant dead - window size not reached, but genesis not found in get_tip_segment"
      return ((result ++ [pi]).reverse, k)
    else return (result.reverse, k)

end Definitions

end State

/-! ## Changes of the tip -/

namespace HeaderCaches

variable (c : Currency)

/-- What `push_chain` does to the window; `s` is the state with the new tip. -/
def push (s : State) (header : Api.BlockHeader) (k : HeaderCaches) : HeaderCaches :=
  let window := k.tipWindow ++ [header]
  { k with tipWindow := window.drop (window.length - (s.largestWindow c * 2).toNat) }

/-- What `pop_chain` does to the window; `s` is the state with the new tip. -/
def pop (s : State) (k : HeaderCaches) : Except Fault HeaderCaches := do
  invariant (k.tipWindow ≠ []) "pop_chain tip_height == 0"
  let k := { k with tipWindow := k.tipWindow.dropLast }
  if k.tipWindow = [] then
    let (tip, k) ← s.expectHeaderCached c s.tipBid 0 k
    return { k with tipWindow := [tip] }
  else return k

/-- What `read_tip` leaves in memory. -/
def fresh (s : State) : Except Fault HeaderCaches := do
  let (tip, k) ← s.expectHeaderCached c s.tipBid 0 {}
  return { k with tipWindow := [tip] }

end HeaderCaches

/-- `prune_branch`: whether a block was deleted. -/
def State.pruneBranch (c : Currency) (cd : Difficulty) (bid : Hash) (s : State)
    (k : HeaderCaches) : Except Fault (Bool × State × HeaderCaches) :=
  if bid = s.tipBid then .ok (false, s, k)
  else do
    s.checkChildrenCounter cd bid 0
    let (me, k) ← s.expectHeaderCached c bid 0 k
    let (pa, k) ← s.expectHeaderCached c me.previousBlockHash 0 k
    let s := s.modifyChildrenCounter cd bid 1
    let s := s.modifyChildrenCounter pa.cumulativeDifficulty me.previousBlockHash (-1)
    let blocks ← dbWrite (s.db.blocks.removeExisting bid)
    let headers ← dbWrite (s.db.headers.removeExisting bid)
    return (true, { s with db := { s.db with blocks, headers } }, k)

/-- The headers in memory behind `db_commit`. -/
def HeaderCaches.dbCommit (k : HeaderCaches) : HeaderCaches := { k with headerCache := ∅ }

/-! ## Runs -/

/-- One step of a run with the headers in memory.  Lookups may come at any time; `prunable` says
which calls of `prune_branch` are made. -/
inductive CachedChange (cr : Crypto) (c : Currency) (prunable : State → Hash → Prop) :
    State × HeaderCaches → State × HeaderCaches → Prop where
  | lookup {s : State} {k k' : HeaderCaches} {bid : Hash} {hint : Height}
      {header : Option Api.BlockHeader} :
      s.readHeaderCached c bid hint k = .ok (header, k') →
        CachedChange cr c prunable (s, k) (s, k')
  | other {s s' : State} (k : HeaderCaches) : Change cr c (fun _ _ ↦ True) s s' →
      s'.db.chain = s.db.chain → s'.tipHeight = s.tipHeight →
        CachedChange cr c prunable (s, k) (s', k)
  | connect {s s₁ s' : State} (k : HeaderCaches) {pb : PreparedBlock} {info : Api.BlockHeader} :
      s.Stores cr c pb info →
        (pb.bid ≠ c.genesisBlockHash ∧ pb.block.header.previousBlockHash = s.tipBid ∨
          pb.bid = c.genesisBlockHash ∧ s.db.chain.get 0 = none) →
        s.redoBlockIndexed cr c pb.bid pb.blockData pb.rawBlock pb.block info
          pb.baseTransactionHash = .ok (some s₁) →
        s₁.pushChain c info = .ok s' → CachedChange cr c prunable (s, k) (s', k.push c s' info)
  | disconnect {s s' : State} {k k' : HeaderCaches} {undone undone' : State.UndoneTransactions} :
      s.undoTip cr c undone = .ok (undone', s') → k.pop c s' = .ok k' →
        CachedChange cr c prunable (s, k) (s', k')
  | restart {s s₁ s' : State} (k : HeaderCaches) {k' : HeaderCaches} :
      s.db.chain.get 0 = some c.genesisBlockHash → State.readTip s.db = .ok s₁ →
        s₁.tipChanged c = .ok s' → HeaderCaches.fresh c s' = .ok k' →
          CachedChange cr c prunable (s, k) (s', k')
  | commit (s : State) (k : HeaderCaches) : CachedChange cr c prunable (s, k) (s, k.dbCommit)
  | prune {s s' : State} {k k' : HeaderCaches} {cd : Difficulty} {bid : Hash} {deleted : Bool} :
      prunable s bid → s.pruneBranch c cd bid k = .ok (deleted, s', k') →
        CachedChange cr c prunable (s, k) (s', k')

/-- The states of a node with the headers in memory, those inside its calls included. -/
abbrev CachedRun (cr : Crypto) (c : Currency) (prunable : State → Hash → Prop) :
    State × HeaderCaches → Prop :=
  ReflTransGen (CachedChange cr c prunable) ({}, {})

/-! ## Coherence -/

/-- What is in memory is what is stored. -/
structure Mirrors (s : State) (k : HeaderCaches) : Prop where
  cache : ∀ bid header, k.headerCache.get bid = some header → s.db.headers.get bid = some header
  window : ∀ i header, k.tipWindow[i]? = some header → ∃ height : Height,
    height.toNat + k.tipWindow.length = s.tipHeight.toNat + 1 + i ∧
    s.db.chain.get height = some header.hash ∧ s.db.headers.get header.hash = some header

/-- And the window is not empty once there is a chain. -/
structure Coherent (s : State) (k : HeaderCaches) : Prop extends Mirrors s k where
  started : k.tipWindow ≠ [] ↔ Started s

namespace Mirrors

variable {s s' : State} {k k' : HeaderCaches}

theorem length_le (h : Mirrors s k) : k.tipWindow.length ≤ s.tipHeight.toNat + 1 := by
  cases hwindow : k.tipWindow with
  | nil => exact Nat.zero_le _
  | cons header window =>
    obtain ⟨height, hheight, -⟩ := h.window 0 header (by rw [hwindow]; rfl)
    rw [hwindow] at hheight
    omega

/-- A lookup in the map finds what is stored, and what it adds to the map is stored. -/
theorem lookupHeader (h : Mirrors s k) (bid : Hash) :
    (s.lookupHeader c bid k).1 = s.db.headers.get bid ∧
      Mirrors s (s.lookupHeader c bid k).2 ∧
      (s.lookupHeader c bid k).2.tipWindow = k.tipWindow := by
  unfold State.lookupHeader
  cases hcached : k.headerCache.get bid with
  | some header => exact ⟨(h.cache bid header hcached).symm, h, rfl⟩
  | none =>
    dsimp only
    have hcleared : ∀ bid header, (if (s.largestWindow c * 10).toNat < k.headerCache.size then ∅
        else k.headerCache).get bid = some header → s.db.headers.get bid = some header := by
      intro bid header hget
      split at hget
      · rw [Store.get_empty] at hget
        cases hget
      · exact h.cache bid header hget
    cases hget : s.db.headers.get bid with
    | none => exact ⟨rfl, ⟨hcleared, h.window⟩, rfl⟩
    | some header =>
      refine ⟨rfl, ⟨fun bid' header' hget' ↦ ?_, h.window⟩, rfl⟩
      dsimp only at hget'
      rw [Store.get_put] at hget'
      split at hget'
      · next heq => rw [← heq, hget, hget']
      · exact hcleared bid' header' hget'

/-- A hint that points into the window points at one of its headers. -/
theorem index_lt {tip hint : Height} {length : ℕ} (hlength : length ≤ tip.toNat + 1)
    (hhint : hint ≤ tip)
    (hwindow : tip.toUInt64 - UInt64.ofNat length + 1 ≤ hint.toUInt64) :
    (UInt64.ofNat length - 1 - (tip - hint).toUInt64).toNat < length := by
  have htip := tip.toNat_lt
  have hhint' := UInt32.le_iff_toNat_le.1 hhint
  have hdistance : (tip - hint).toUInt64.toNat = tip.toNat - hint.toNat := by
    rw [UInt32.toNat_toUInt64, UInt32.toNat_sub_of_le _ _ hhint]
  have hsize : (UInt64.ofNat length).toNat = length :=
    UInt64.toNat_ofNat_of_lt' (lt_of_le_of_lt hlength (by unfold UInt64.size; omega))
  rw [UInt64.le_iff_toNat_le, UInt64.toNat_add, UInt64.toNat_sub, hsize, UInt32.toNat_toUInt64,
    UInt32.toNat_toUInt64, UInt64.toNat_one] at hwindow
  rw [UInt64.toNat_sub, UInt64.toNat_sub, hdistance, hsize, UInt64.toNat_one]
  omega

/-- `read_header` finds what is stored, whatever the hint is. -/
theorem readHeaderCached (h : Mirrors s k) (bid : Hash) (hint : Height) :
    ∃ k', s.readHeaderCached c bid hint k = .ok (s.db.headers.get bid, k') ∧ Mirrors s k' ∧
      k'.tipWindow = k.tipWindow := by
  obtain ⟨hvalue, hmirrors⟩ := h.lookupHeader (c := c) bid
  have hlookup : (.ok (s.lookupHeader c bid k) : Except Fault _) =
      .ok (s.db.headers.get bid, (s.lookupHeader c bid k).2) := by
    rw [← hvalue]
  unfold State.readHeaderCached
  dsimp only
  split
  · next hhint =>
    have hlt := index_lt h.length_le hhint.2.1 hhint.2.2
    cases hget : k.tipWindow[(UInt64.ofNat k.tipWindow.length - 1 -
        (s.tipHeight - hint).toUInt64).toNat]? with
    | none => exact absurd (List.getElem?_eq_none_iff.1 hget) (Nat.not_le.2 hlt)
    | some candidate =>
      dsimp only
      split
      · next hhash =>
        obtain ⟨_, -, -, hstored⟩ := h.window _ candidate hget
        rw [hhash] at hstored
        exact ⟨k, by rw [hstored], h, rfl⟩
      · exact ⟨_, hlookup, hmirrors⟩
  · exact ⟨_, hlookup, hmirrors⟩

theorem expectHeaderCached_eq (h : Mirrors s k) (bid : Hash) (hint : Height) :
    ∃ k', Mirrors s k' ∧ k'.tipWindow = k.tipWindow ∧
      s.expectHeaderCached c bid hint k = (s.readHeader bid).map fun header ↦ (header, k') := by
  obtain ⟨k', hread, hmirrors, hwindow⟩ := h.readHeaderCached (c := c) bid hint
  refine ⟨k', hmirrors, hwindow, ?_⟩
  unfold State.expectHeaderCached State.readHeader
  rw [hread]
  cases s.db.headers.get bid <;> rfl

theorem expectHeaderCached (h : Mirrors s k) {bid : Hash} {header : Api.BlockHeader}
    (hstored : s.db.headers.get bid = some header) (hint : Height) :
    ∃ k', s.expectHeaderCached c bid hint k = .ok (header, k') ∧ Mirrors s k' := by
  obtain ⟨k', hmirrors, -, hread⟩ := h.expectHeaderCached_eq (c := c) bid hint
  rw [State.readHeader, hstored] at hread
  exact ⟨k', hread, hmirrors⟩

/-- The walk visits the stored ancestors. -/
theorem walkBackCached (h : Mirrors s k) (window : ℕ) (pi : Api.BlockHeader) :
    (s.walkBackCached c window pi k).map Prod.fst = s.walkBack window pi := by
  induction window generalizing pi k with
  | zero => rfl
  | succ window ih =>
    rw [State.walkBack, State.walkBackCached]
    split
    · rfl
    · obtain ⟨k', hmirrors, -, hread⟩ :=
        h.expectHeaderCached_eq (c := c) pi.previousBlockHash (pi.height - 1)
      rw [hread]
      cases s.readHeader pi.previousBlockHash with
      | error => rfl
      | ok prev =>
        dsimp only [Except.map, bind, Except.bind]
        rw [← ih hmirrors prev]
        cases s.walkBackCached c window prev k' <;> rfl

theorem getTipSegmentCached (h : Mirrors s k) (prevInfo : Api.BlockHeader) (window : Height)
    (addGenesis : Bool) : (s.getTipSegmentCached c prevInfo window addGenesis k).map Prod.fst =
      s.getTipSegment prevInfo window addGenesis := by
  unfold State.getTipSegmentCached State.getTipSegment
  split
  · rfl
  · rw [← h.walkBackCached (c := c)]
    cases s.walkBackCached c window.toNat prevInfo k with
    | error => rfl
    | ok walked =>
      dsimp only [Except.map, bind, Except.bind, invariant]
      split_ifs <;> rfl

/-- A window of the tip alone. -/
theorem refill (h : Mirrors s k) {tip : Api.BlockHeader} (hbid : s.db.chain.get s.tipHeight =
    some tip.hash) (hstored : s.db.headers.get tip.hash = some tip) :
    Mirrors s { k with tipWindow := [tip] } where
  cache := h.cache
  window i header hget := by
    rcases i with _ | i
    · obtain rfl := Option.some.inj hget
      exact ⟨s.tipHeight, rfl, hbid, hstored⟩
    · cases hget

end Mirrors

/-- The tip of a chain is stored under its own hash. -/
theorem Linked.tip_stored {s : State} (h : Linked cr c s) (hs : Started s) : ∃ tip,
    s.db.headers.get s.tipBid = some tip ∧ tip.hash = s.tipBid := by
  obtain ⟨tip, htip, -⟩ := (h.mainChain hs).tip_header
  obtain ⟨pb, hbid, hstores⟩ := h.stored _ _ htip
  exact ⟨tip, htip, hstores.hash_eq.trans hbid⟩

namespace Coherent

variable {s s' : State} {k k' : HeaderCaches}

/-- The last header of the window is the tip. -/
theorem getTipCached (h : Coherent s k) (hlinked : Linked cr c s) (hs : Started s) :
    s.getTipCached k = s.getTip := by
  have hlength := List.length_pos_iff.2 (h.started.2 hs)
  obtain ⟨tip, hlast⟩ : ∃ tip, k.tipWindow.getLast? = some tip :=
    ⟨_, List.getLast?_eq_some_getLast (h.started.2 hs)⟩
  have hget := hlast
  rw [List.getLast?_eq_getElem?] at hget
  obtain ⟨height, hheight, hbid, hstored⟩ := h.window _ tip hget
  have htip : height = s.tipHeight := UInt32.toNat_inj.1 (by omega)
  rw [htip, (hlinked.mainChain hs).tip, Option.some.injEq] at hbid
  rw [State.getTipCached, State.getTip, hlast, hbid, hstored]
  simp only [expect, bind, Except.bind, invariant]
  rfl

/-! ### Steps -/

theorem lookup (h : Coherent s k) {bid : Hash} {hint : Height} {header : Option Api.BlockHeader}
    (hread : s.readHeaderCached c bid hint k = .ok (header, k')) : Coherent s k' := by
  obtain ⟨k'', hread', hmirrors, hwindow⟩ := h.readHeaderCached (c := c) bid hint
  rw [hread, Except.ok.injEq] at hread'
  obtain ⟨-, rfl⟩ := Prod.mk.inj hread'
  exact ⟨hmirrors, by rw [hwindow, h.started]⟩

/-- Memory stays coherent while the chain stays and headers are only added. -/
theorem mono (h : Coherent s k) (hheaders : HeadersWithin s s') (hchain : s'.db.chain = s.db.chain)
    (htip : s'.tipHeight = s.tipHeight) : Coherent s' k where
  cache bid header hget := hheaders _ _ (h.cache bid header hget)
  window i header hget := by
    obtain ⟨height, hheight, hbid, hstored⟩ := h.window i header hget
    exact ⟨height, by rw [htip, hheight], by rw [hchain, hbid], hheaders _ _ hstored⟩
  started := by
    rw [h.started, Started, Started, hchain]

theorem connect (h : Coherent s k) (hlinked : Linked cr c s) {s₁ : State} {pb : PreparedBlock}
    {info : Api.BlockHeader} (hstores : s.Stores cr c pb info)
    (hredo : s.redoBlockIndexed cr c pb.bid pb.blockData pb.rawBlock pb.block info
      pb.baseTransactionHash = .ok (some s₁)) (hpush : s₁.pushChain c info = .ok s')
    (hlargest : 0 < (s'.largestWindow c * 2).toNat) : Coherent s' (k.push c s' info) := by
  obtain ⟨hheaders, -, hchain, -, htip, -⟩ := State.links_eq_iff.1 (State.links_of_treePart
    (State.redoBlockIndexed_treePart hredo))
  obtain ⟨hnone, _, _, hs'⟩ := State.pushChain_eq hpush
  have hheaders' : s'.db.headers = s.db.headers := by rw [hs', ← hheaders]
  have hchain' : s'.db.chain = s.db.chain.put (s.tipHeight + 1) info.hash := by
    rw [hs', ← hchain, ← htip]
  have htip' : s'.tipHeight = s.tipHeight + 1 := by rw [hs', ← htip]
  rw [hchain, htip] at hnone
  have hstarted : Started s' := by
    rw [Started, hchain', Store.get_put]
    split
    · simp
    · next hne =>
      intro hzero
      have hno := hlinked.noChain_of_get_zero hzero
      rw [hno.tipHeight] at hne
      exact hne (by decide)
  -- the heights of the old window are those below the new tip
  have hbelow : k.tipWindow ≠ [] → s'.tipHeight.toNat = s.tipHeight.toNat + 1 := by
    intro hne
    have hmain := hlinked.mainChain (h.started.1 hne)
    have hnonzero : s.tipHeight + 1 ≠ 0 := fun heq ↦ by
      rw [heq, hmain.root] at hnone
      cases hnone
    rw [htip']
    have hlt := s.tipHeight.toNat_lt
    have hmod := UInt32.toNat_add s.tipHeight 1
    have hzero : (s.tipHeight + 1).toNat ≠ 0 := fun heq ↦ hnonzero (UInt32.toNat_inj.1 heq)
    rw [UInt32.toNat_one] at hmod
    omega
  have hall : ∀ i header, (k.tipWindow ++ [info])[i]? = some header → ∃ height : Height,
      height.toNat + (k.tipWindow.length + 1) = s'.tipHeight.toNat + 1 + i ∧
      s'.db.chain.get height = some header.hash ∧
      s'.db.headers.get header.hash = some header := by
    intro i header hget
    rcases Nat.lt_trichotomy i k.tipWindow.length with hlt | heq | hgt
    · rw [List.getElem?_append_left hlt] at hget
      obtain ⟨height, hheight, hbid, hstored⟩ := h.window i header hget
      have hne : k.tipWindow ≠ [] := List.ne_nil_of_length_pos (by omega)
      refine ⟨height, by rw [hbelow hne]; omega, ?_, by rw [hheaders', hstored]⟩
      rw [hchain', Store.get_put_of_ne _ _ fun heq ↦ ?_, hbid]
      rw [heq, hbid] at hnone
      cases hnone
    · subst heq
      rw [List.getElem?_append_right (le_refl _), Nat.sub_self] at hget
      obtain rfl := Option.some.inj hget
      refine ⟨s'.tipHeight, by omega, ?_, ?_⟩
      · rw [hchain', htip', Store.get_put_self]
      · rw [hheaders', hstores.hash_eq, hstores.header]
    · rw [List.getElem?_eq_none (by simpa using hgt)] at hget
      cases hget
  refine ⟨⟨?_, ?_⟩, ?_⟩
  · intro bid header hget
    rw [hheaders']
    exact h.cache bid header hget
  · intro i header hget
    simp only [HeaderCaches.push, List.getElem?_drop, List.length_drop, List.length_append,
      List.length_singleton] at hget ⊢
    have hlt := (List.getElem?_eq_some_iff.1 hget).1
    rw [List.length_append, List.length_singleton] at hlt
    obtain ⟨height, hheight, hrest⟩ := hall _ header hget
    exact ⟨height, by omega, hrest⟩
  · refine iff_of_true (fun hnil ↦ ?_) hstarted
    have hlength := congrArg List.length hnil
    simp only [HeaderCaches.push, List.length_drop, List.length_append, List.length_singleton,
      List.length_nil] at hlength
    omega

/-- The window loses its last header; when it was the only one the new tip is looked up. -/
theorem disconnect (h : Coherent s k) (hlinked : Linked cr c s)
    {undone undone' : State.UndoneTransactions}
    (hundo : s.undoTip cr c undone = .ok (undone', s')) :
    ∃ k', k.pop c s' = .ok k' ∧ Coherent s' k' := by
  have hlinked' : Linked cr c s' :=
    linked_preserved (P := fun _ _ ↦ True) (Change.disconnect hundo) hlinked
  obtain ⟨_, _, block, s₁, s₂, -, -, h₁, h₂, h₃⟩ := State.undoTip_eq hundo
  obtain ⟨hheaders, -, hchain, -, htip, -⟩ := State.links_eq_iff.1
    (State.links_of_treePart (State.undoBlockIndexed_treePart h₁))
  obtain ⟨hne, hbelow, _, -, hs₂⟩ := State.popChain_eq h₂
  obtain ⟨-, _, _, -, -, hs'⟩ := State.tipChanged_eq h₃
  have hheaders' : s'.db.headers = s.db.headers := by rw [hs', hs₂, ← hheaders]
  have hchain' : s'.db.chain = s.db.chain.remove s.tipHeight := by
    rw [hs', hs₂, ← hchain, ← htip]
  have htip' : s'.tipHeight = s.tipHeight - 1 := by rw [hs', hs₂, ← htip]
  rw [hchain, htip] at hbelow
  rw [htip] at hne
  have hpred : s'.tipHeight.toNat + 1 = s.tipHeight.toNat := by
    have hpos : s.tipHeight.toNat ≠ 0 := fun heq ↦ hne (UInt32.toNat_inj.1 heq)
    rw [htip', UInt32.toNat_sub_of_le _ _ (UInt32.le_iff_toNat_le.2 (by
      rw [UInt32.toNat_one]; omega)), UInt32.toNat_one]
    omega
  have hstarted' : Started s' := by
    rw [← hchain'] at hbelow
    exact hlinked'.started_of_get hbelow
  have hstarted : Started s := by
    intro hzero
    have hno := hlinked.noChain_of_get_zero hzero
    rw [Store.get_remove, hno.chain] at hbelow
    split at hbelow <;> cases hbelow
  have hwindow : k.tipWindow ≠ [] := h.started.2 hstarted
  have hrest : ∀ i header, k.tipWindow.dropLast[i]? = some header → ∃ height : Height,
      height.toNat + k.tipWindow.dropLast.length = s'.tipHeight.toNat + 1 + i ∧
      s'.db.chain.get height = some header.hash ∧
      s'.db.headers.get header.hash = some header := by
    intro i header hget
    rw [List.getElem?_dropLast] at hget
    split at hget
    · next hlt =>
      obtain ⟨height, hheight, hbid, hstored⟩ := h.window i header hget
      refine ⟨height, by rw [List.length_dropLast]; omega, ?_, by rw [hheaders', hstored]⟩
      rw [hchain', Store.get_remove_of_ne _ fun heq ↦ ?_, hbid]
      rw [← heq] at hheight
      omega
    · cases hget
  have hcache : ∀ bid header, k.headerCache.get bid = some header →
      s'.db.headers.get bid = some header := by
    intro bid header hget
    rw [hheaders']
    exact h.cache bid header hget
  unfold HeaderCaches.pop
  rw [invariant, if_pos hwindow]
  dsimp only [bind, Except.bind]
  split
  · next hempty =>
    obtain ⟨tip, htip, hhash⟩ := hlinked'.tip_stored hstarted'
    obtain ⟨k', hread, hmirrors⟩ :=
      (Mirrors.mk (k := { k with tipWindow := k.tipWindow.dropLast }) hcache
        hrest).expectHeaderCached (c := c) htip 0
    rw [hread]
    refine ⟨_, rfl, hmirrors.refill ?_ (hhash ▸ htip), iff_of_true (by simp) hstarted'⟩
    rw [hhash, (hlinked'.mainChain hstarted').tip]
  · next hmore =>
    exact ⟨_, rfl, ⟨hcache, hrest⟩, iff_of_true hmore hstarted'⟩

/-- A restart keeps nothing but the tip. -/
theorem restart (hlinked : Linked cr c s) (hs : Started s) :
    ∃ k, HeaderCaches.fresh c s = .ok k ∧ Coherent s k := by
  obtain ⟨tip, htip, hhash⟩ := hlinked.tip_stored hs
  have hempty : Mirrors s {} :=
    { cache := fun bid header hget ↦ by
        rw [Store.get_empty] at hget
        cases hget
      window := fun i header hget ↦ by cases hget }
  obtain ⟨k, hread, hmirrors⟩ := hempty.expectHeaderCached (c := c) htip 0
  unfold HeaderCaches.fresh
  rw [hread]
  refine ⟨_, rfl, hmirrors.refill ?_ (hhash ▸ htip), iff_of_true (by simp) hs⟩
  rw [hhash, (hlinked.mainChain hs).tip]

end Coherent

/-! ## Runs without deletions -/

/-- `prune_branch` leaves the tip alone. -/
theorem State.pruneBranch_tip (cd : Difficulty) (s : State) (k : HeaderCaches) :
    s.pruneBranch c cd s.tipBid k = .ok (false, s, k) :=
  if_pos rfl

/-- The window has room for one header at least. -/
theorem State.largestWindow_pos (isTestnet : Bool) (s : State) :
    0 < (s.largestWindow (Currency.make cr isTestnet) * 2).toNat := by
  have hv1 : (Currency.make cr isTestnet).difficultyBlocksCount =
      if isTestnet then 86415 else 1455 := by
    cases isTestnet <;> rfl
  have hv2 : (Currency.make cr isTestnet).difficultyBlocksCountV2 = 61 := rfl
  have hreward : (Currency.make cr isTestnet).rewardBlocksWindow = 100 := rfl
  have hcheck : (Currency.make cr isTestnet).timestampCheckWindow = 60 := rfl
  have hcheckV2 : (Currency.make cr isTestnet).timestampCheckWindowV2 = 11 := rfl
  rw [State.largestWindow, Currency.getDifficultyBlocksCount, Currency.getTimestampCheckWindow,
    hv1, hv2, hreward, hcheck, hcheckV2]
  cases isTestnet <;> split_ifs <;> decide

theorem coherent_empty : Coherent {} {} where
  cache bid header hget := by
    rw [Store.get_empty] at hget
    cases hget
  window i header hget := by cases hget
  started := iff_of_false (fun h ↦ h rfl) (fun h ↦ h (Store.get_empty _))

theorem Coherent.dbCommit {s : State} {k : HeaderCaches} (h : Coherent s k) :
    Coherent s k.dbCommit where
  cache bid header hget := by
    rw [HeaderCaches.dbCommit, Store.get_empty] at hget
    cases hget
  window := h.window
  started := h.started

variable {isTestnet : Bool}

/-- One step: the caches stay coherent when only the tip is offered for deletion. -/
theorem cachedChange_preserved : Preserves
    (CachedChange cr (Currency.make cr isTestnet) fun s bid ↦ bid = s.tipBid)
    fun p ↦ Visited cr (Currency.make cr isTestnet) p.1 ∧ Coherent p.1 p.2 := by
  rintro _ _ hchange ⟨hvisited, hcoherent⟩
  cases hchange with
  | lookup hread => exact ⟨hvisited, hcoherent.lookup hread⟩
  | other k hchange hchain htip =>
    exact ⟨hvisited.tail hchange, hcoherent.mono hchange.stored.1 hchain htip⟩
  | connect k hstores hon hredo hpush =>
    exact ⟨hvisited.tail (.connect hstores hon hredo hpush),
      hcoherent.connect hvisited.linked hstores hredo hpush (State.largestWindow_pos _ _)⟩
  | disconnect hundo hpop =>
    obtain ⟨k', hpop', hcoherent'⟩ := hcoherent.disconnect hvisited.linked hundo
    rw [hpop, Except.ok.injEq] at hpop'
    exact ⟨hvisited.tail (.disconnect hundo), hpop' ▸ hcoherent'⟩
  | restart k hroot hread htip hfresh =>
    have hchange : Change cr (Currency.make cr isTestnet) (fun _ _ ↦ True) _ _ :=
      .readTip hroot hread htip
    have hstarted := started_preserved hchange ⟨hvisited.linked, by rw [Started, hroot]; simp⟩
    obtain ⟨k', hfresh', hcoherent'⟩ := Coherent.restart hstarted.1 hstarted.2
    rw [hfresh, Except.ok.injEq] at hfresh'
    exact ⟨hvisited.tail hchange, hfresh' ▸ hcoherent'⟩
  | commit s k => exact ⟨hvisited, hcoherent.dbCommit⟩
  | prune htip hprune =>
    obtain rfl := htip
    rw [State.pruneBranch_tip, Except.ok.injEq] at hprune
    obtain ⟨-, rfl, rfl⟩ := Prod.mk.inj hprune
    exact ⟨hvisited, hcoherent⟩

/-- In a run that offers nothing but the tip for deletion, a header is read as the database has it
under every hint, the window holds the headers of the main chain up to the tip, and the tip and
the segments below a header are those of the database. -/
theorem CachedRun.headers_exact {s : State} {k : HeaderCaches}
    (h : CachedRun cr (Currency.make cr isTestnet) (fun s bid ↦ bid = s.tipBid) (s, k)) :
    (∀ (bid : Hash) (hint : Height), ∃ k', s.readHeaderCached (Currency.make cr isTestnet) bid hint
      k = .ok (s.db.headers.get bid, k')) ∧
    (∀ i header, k.tipWindow[i]? = some header → ∃ height : Height,
      height.toNat + k.tipWindow.length = s.tipHeight.toNat + 1 + i ∧
      s.db.chain.get height = some header.hash ∧
      s.db.headers.get header.hash = some header) ∧
    (Started s → s.getTipCached k = s.getTip) ∧
    ∀ (prevInfo : Api.BlockHeader) (window : Height) (addGenesis : Bool),
      (s.getTipSegmentCached (Currency.make cr isTestnet) prevInfo window addGenesis k).map
        Prod.fst = s.getTipSegment prevInfo window addGenesis := by
  obtain ⟨hvisited, hcoherent⟩ := cachedChange_preserved.star h ⟨.refl, coherent_empty⟩
  refine ⟨fun bid hint ↦ ?_, hcoherent.window, hcoherent.getTipCached hvisited.linked,
    hcoherent.getTipSegmentCached⟩
  obtain ⟨k', hread, -⟩ := hcoherent.readHeaderCached bid hint
  exact ⟨k', hread⟩

/-! ## The runs of a node -/

/-- Every state that a run passes through has headers in memory beside it. -/
theorem Visited.cachedRun {s : State} (h : Visited cr (Currency.make cr isTestnet) s)
    (prunable : State → Hash → Prop) : ∃ k,
      CachedRun cr (Currency.make cr isTestnet) prunable (s, k) ∧ Coherent s k := by
  induction h with
  | refl => exact ⟨{}, .refl, coherent_empty⟩
  | tail hbefore hchange ih =>
    rename_i s s'
    obtain ⟨k, hrun, hcoherent⟩ := ih
    have hlinked : Linked cr (Currency.make cr isTestnet) s := Visited.linked hbefore
    have hother : s'.db.chain = s.db.chain → s'.tipHeight = s.tipHeight → ∃ k,
        CachedRun cr (Currency.make cr isTestnet) prunable (s', k) ∧ Coherent s' k :=
      fun hchain htip ↦
        ⟨k, hrun.tail (.other k hchange hchain htip), hcoherent.mono hchange.stored.1 hchain htip⟩
    cases hchange with
    | addTransaction hok =>
      obtain ⟨pool, version, rfl⟩ := State.addTransaction_frame hok
      exact hother rfl rfl
    | clearPool => exact hother rfl rfl
    | poolVersion => exact hother rfl rfl
    | cacheNextIndex => exact hother rfl rfl
    | storeBlock _ _ _ _ hok =>
      obtain ⟨-, _, -, -, rfl⟩ := State.storeBlock_eq hok
      exact hother rfl rfl
    | countChild => exact hother rfl rfl
    | connect hstores hon hredo hpush =>
      exact ⟨_, hrun.tail (.connect k hstores hon hredo hpush),
        hcoherent.connect hlinked hstores hredo hpush (State.largestWindow_pos _ _)⟩
    | disconnect hundo =>
      obtain ⟨k', hpop, hcoherent'⟩ := hcoherent.disconnect hlinked hundo
      exact ⟨k', hrun.tail (.disconnect hundo hpop), hcoherent'⟩
    | readTip hroot hread htip =>
      have hchange : Change cr (Currency.make cr isTestnet) (fun _ _ ↦ True) s s' :=
        .readTip hroot hread htip
      have hstarted := started_preserved hchange ⟨hlinked, by rw [Started, hroot]; simp⟩
      obtain ⟨k', hfresh, hcoherent'⟩ := Coherent.restart hstarted.1 hstarted.2
      exact ⟨k', hrun.tail (.restart k hroot hread htip hfresh), hcoherent'⟩
    | tipChanged htip =>
      obtain ⟨-, _, _, -, -, rfl⟩ := State.tipChanged_eq htip
      exact hother rfl rfl

/-! ## A deleted branch -/

/-- A block at height 1 beside `firstTestnetBlock`. -/
def siblingBlock : BlockTemplate :=
  (sampleTemplate 2 testnet.genesisBlockHash 0 (sampleCoinbase 1 281470681743360 [1, 3]) []).merged

theorem pruneBranch_siblingBlock : returns (runFromStart sampleCrypto testnet
      [.offer 1000 (firstTestnetBlock.rawBlock []), .offer 1000 (siblingBlock.rawBlock [])])
    (fun s ↦ decide (s.db.chain.get 0 = some testnet.genesisBlockHash) &&
      returns (State.readTip s.db) fun s₁ ↦
      returns (s₁.tipChanged testnet) fun s' ↦
      returns (HeaderCaches.fresh testnet s') fun k ↦
      returns (s'.readHeader siblingBlock.sampleHash) fun header ↦
      returns (s'.pruneBranch testnet header.cumulativeDifficulty siblingBlock.sampleHash k)
        fun r ↦ decide (r.2.1.db.headers.get siblingBlock.sampleHash = none) &&
          returns (r.2.1.readHeaderCached testnet siblingBlock.sampleHash 0 r.2.2) fun found ↦
            found.1.isSome) = true := by
  decide +kernel

/-- After `prune_branch` has deleted a block its header is still read from memory. -/
theorem CachedRun.header_of_prunedBlock : ∃ (s : State) (k k' : HeaderCaches) (bid : Hash)
    (header : Api.BlockHeader),
    CachedRun sampleCrypto testnet (fun _ _ ↦ True) (s, k) ∧ s.db.headers.get bid = none ∧
    s.readHeaderCached testnet bid 0 k = .ok (some header, k') := by
  obtain ⟨s, hrun, htest⟩ := returns_iff.1 pruneBranch_siblingBlock
  have hvisited := (reachable_of_runFromStart hrun).visited
  rw [Bool.and_eq_true, decide_eq_true_eq] at htest
  obtain ⟨hroot, htest⟩ := htest
  obtain ⟨s₁, hread, htest⟩ := returns_iff.1 htest
  obtain ⟨s', htip, htest⟩ := returns_iff.1 htest
  obtain ⟨k, hfresh, htest⟩ := returns_iff.1 htest
  obtain ⟨_, -, htest⟩ := returns_iff.1 htest
  obtain ⟨⟨_, s'', k''⟩, hprune, htest⟩ := returns_iff.1 htest
  rw [Bool.and_eq_true, decide_eq_true_eq] at htest
  obtain ⟨hdeleted, htest⟩ := htest
  obtain ⟨⟨found, k'⟩, hlookup, hfound⟩ := returns_iff.1 htest
  obtain ⟨header, rfl⟩ := Option.isSome_iff_exists.1 hfound
  obtain ⟨k₀, hcached, -⟩ := hvisited.cachedRun fun _ _ ↦ True
  have hrestarted : CachedRun sampleCrypto testnet (fun _ _ ↦ True) (s', k) :=
    hcached.tail (.restart k₀ hroot hread htip hfresh)
  exact ⟨s'', k'', k', siblingBlock.sampleHash, header, hrestarted.tail (.prune trivial hprune),
    hdeleted, hlookup⟩

theorem runFromStart_siblingBlock : returns (runFromStart sampleCrypto testnet
      [.offer 1000 (firstTestnetBlock.rawBlock []), .offer 1000 (siblingBlock.rawBlock [])])
    (fun s ↦ s.tipHeight = 1 ∧ s.db.headers.get siblingBlock.sampleHash ≠ none) = true := by
  decide +kernel

/-- A side block is found under the height of the tip as its hint. -/
theorem CachedRun.headers_exact_siblingBlock : ∃ (s : State) (k k' : HeaderCaches),
    s.tipHeight = 1 ∧ s.db.headers.get siblingBlock.sampleHash ≠ none ∧
    s.readHeaderCached testnet siblingBlock.sampleHash 1 k =
      .ok (s.db.headers.get siblingBlock.sampleHash, k') := by
  obtain ⟨s, hrun, htest⟩ := returns_iff.1 runFromStart_siblingBlock
  rw [decide_eq_true_eq] at htest
  obtain ⟨k, hcached, -⟩ := (reachable_of_runFromStart hrun).visited.cachedRun
    fun s bid ↦ bid = s.tipBid
  obtain ⟨k', hread⟩ := (CachedRun.headers_exact hcached).1 siblingBlock.sampleHash 1
  exact ⟨s, k, k', htest.1, htest.2, hread⟩

end Naza
