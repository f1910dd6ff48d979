import Naza.HeaderCache
import Naza.Wallet.Answers
import Naza.Wallet.Follows

/-!
# Runs of a synchronizing wallet

What `sync_with_blockchain` leaves of the chain of a wallet and puts on it, and from this which
blocks a wallet has processed after any number of answers.
-/

open Lib

namespace Naza

variable {wc : WalletCrypto} {cr : Crypto} {c : Currency} {s t : State} {keys : WalletKeys}
  {processed processed' : List ProcessedBlock} {w w' : WalletStateBasic} {resp : SyncBlocksResponse}
  {oldestTimestamp : Timestamp}

namespace WalletStateBasic

/-! ## Taking blocks back -/

theorem Follows.nextHeight_pos (h : w.Follows wc c s processed) (hne : processed ≠ []) :
    w.nextHeight ≠ 0 := by
  have hcount := h.count
  have hlength := List.length_pos_iff.2 hne
  omega

/-- The tip is the block of the main chain at its height. -/
theorem Follows.tip_onMain (h : w.Follows wc c s processed) (hne : processed ≠ []) :
    s.db.chain.get w.tipHeight = some w.tip.hash := by
  have hcount := h.count
  have hlength := List.length_pos_iff.2 hne
  have htip := tipHeight_toNat (h.nextHeight_pos hne)
  obtain ⟨b, -, hget, hmain⟩ := h.block w.tipHeight (by omega) (by omega)
  rw [h.tip hne, Option.some.injEq] at hget
  rw [hget]
  exact hmain

/-- The loops that take blocks back end where their condition fails, and no lower. -/
theorem Follows.popWhile {p : WalletStateBasic → Bool} {fuel : ℕ} (h : w.Follows wc c s processed)
    (hok : w.popWhile p fuel = .ok w') :
    ∃ processed', w'.Follows wc c s processed' ∧ Shortened processed w processed' w' ∧
      (p w' = true → processed' = []) ∧
      ∀ k, (∀ v : WalletStateBasic, v.nextHeight ≠ 0 → p v = true → k + 1 < v.nextHeight) →
        k < w.nextHeight → k < w'.nextHeight := by
  induction fuel generalizing w processed with
  | zero =>
    rw [WalletStateBasic.popWhile] at hok
    split at hok
    · cases hok
    · next hstop =>
      rw [← Except.ok.inj hok]
      refine ⟨processed, h, .refl, fun hp ↦ ?_, fun k _ hk ↦ hk⟩
      rw [← h.emptyChain_iff]
      grind
  | succ fuel ih =>
    rw [WalletStateBasic.popWhile] at hok
    split at hok
    · next hgo =>
      simp only [bind_eq_ok_iff] at hok
      obtain ⟨v, hpop, hok⟩ := hok
      obtain ⟨b, rest, rfl, hv, hshort⟩ := h.popChain hpop
      obtain ⟨processed', hw', hshort', hempty, hkeep⟩ := ih hv hok
      refine ⟨processed', hw', hshort.trans hshort', hempty, fun k hp hk ↦ hkeep k hp ?_⟩
      have hlow := hp w (h.nextHeight_pos (by simp)) hgo.1
      have hcount := h.count
      have hcount' := hv.count
      rw [List.length_cons] at hcount
      rw [hshort.tail] at hcount'
      omega
    · next hstop =>
      rw [← Except.ok.inj hok]
      refine ⟨processed, h, .refl, fun hp ↦ ?_, fun k _ hk ↦ hk⟩
      rw [← h.emptyChain_iff]
      grind

/-- A tip that stays with the verdict `true` is below the answer, or its block there. -/
theorem Follows.compareTip {fits : Option Bool} (h : w.Follows wc c s processed)
    (hok : w.compareTip resp = .ok fits) :
    (fits = some true → processed ≠ [] → resp.startHeight ≤ w.tipHeight →
        ∃ b, resp.blocks[(w.tipHeight - resp.startHeight).toNat]? = some b ∧
          w.tip.hash = b.header.hash) ∧
      (fits ≠ some true → processed ≠ []) ∧
      (fits = none → ∀ b, resp.blocks[(w.tipHeight - resp.startHeight).toNat]? = some b →
        w.tip.hash ≠ b.header.hash) := by
  rw [WalletStateBasic.compareTip] at hok
  split at hok
  · next hgo =>
    simp only [bind_eq_ok_iff, throwing_eq_ok_iff, SyncBlocksResponse.blockAt_eq_ok_iff] at hok
    obtain ⟨other, hget, hok⟩ := hok
    have hne : processed ≠ [] := by
      rw [ne_eq, ← h.emptyChain_iff, hgo.2]
      simp
    have hfits := Except.ok.inj hok
    refine ⟨fun htrue _ _ ↦ ⟨other, hget, ?_⟩, fun _ ↦ hne, fun hnone b hb ↦ ?_⟩
    · by_contra hdiffers
      rw [if_neg hdiffers, htrue] at hfits
      split at hfits <;> cases hfits
    · rw [hget, Option.some.injEq] at hb
      intro hsame
      rw [if_pos (hb ▸ hsame), hnone] at hfits
      cases hfits
  · next hstop =>
    have hfits := Except.ok.inj hok
    refine ⟨fun _ hne hle ↦ ?_, fun hne ↦ absurd hfits.symm hne, fun hnone ↦ ?_⟩
    · exact absurd (h.emptyChain_iff.1 (by grind)) hne
    · rw [hnone] at hfits
      cases hfits

/-- Where the loop that compares blocks ends, and that it passes no common block. -/
theorem Follows.popDiffering {fuel : ℕ} {fits : Bool} (h : w.Follows wc c s processed)
    (hok : w.popDiffering resp fuel = .ok (fits, w')) :
    ∃ processed', w'.Follows wc c s processed' ∧ Shortened processed w processed' w' ∧
      (fits = false → processed' ≠ []) ∧
      (fits = true → processed' ≠ [] → resp.startHeight ≤ w'.tipHeight →
        ∃ b, resp.blocks[(w'.tipHeight - resp.startHeight).toNat]? = some b ∧
          w'.tip.hash = b.header.hash) ∧
      ∀ (k : Height) (b : SyncBlock), resp.blocks[(k - resp.startHeight).toNat]? = some b →
        s.db.chain.get k = some b.header.hash → k.toNat < w.nextHeight →
          k.toNat < w'.nextHeight := by
  induction fuel generalizing w processed with
  | zero =>
    simp only [WalletStateBasic.popDiffering, bind_eq_ok_iff] at hok
    obtain ⟨verdict, hverdict, hok⟩ := hok
    obtain ⟨htrue, hother, -⟩ := h.compareTip hverdict
    cases verdict with
    | none => cases hok
    | some fits' =>
      obtain ⟨rfl, rfl⟩ := Prod.mk.inj (Except.ok.inj hok)
      exact ⟨processed, h, .refl, fun hfalse ↦ hother (by simp [hfalse]),
        fun h ↦ htrue (congrArg some h), fun _ _ _ _ hk ↦ hk⟩
  | succ fuel ih =>
    simp only [WalletStateBasic.popDiffering, bind_eq_ok_iff] at hok
    obtain ⟨verdict, hverdict, hok⟩ := hok
    obtain ⟨htrue, hother, hdiffers⟩ := h.compareTip hverdict
    cases verdict with
    | some fits' =>
      obtain ⟨rfl, rfl⟩ := Prod.mk.inj (Except.ok.inj hok)
      exact ⟨processed, h, .refl, fun hfalse ↦ hother (by simp [hfalse]),
        fun h ↦ htrue (congrArg some h), fun _ _ _ _ hk ↦ hk⟩
    | none =>
      simp only [bind_eq_ok_iff] at hok
      obtain ⟨v, hpop, hok⟩ := hok
      have hne := hother (by simp)
      have htip := h.tip_onMain hne
      have hnat := tipHeight_toNat (h.nextHeight_pos hne)
      obtain ⟨b, rest, rfl, hv, hshort⟩ := h.popChain hpop
      obtain ⟨processed', hw', hshort', hfalse', htrue', hkeep⟩ := ih hv hok
      refine ⟨processed', hw', hshort.trans hshort', hfalse', htrue', fun k b hb hmain hk ↦
        hkeep k b hb hmain ?_⟩
      -- the tip taken back differs from the block of the answer, so it is not that common one
      have hcount := h.count
      have hcount' := hv.count
      rw [List.length_cons] at hcount
      rw [hshort.tail] at hcount'
      have hother' : k ≠ w.tipHeight := by
        rintro rfl
        rw [htip, Option.some.injEq] at hmain
        exact hdiffers rfl b hb hmain
      have hnat' : k.toNat ≠ w.tipHeight.toNat := fun heq ↦ hother' (UInt32.toNat_inj.1 heq)
      omega

/-! ## Blocks that are redone -/

/-- Every block of the main chain of `s` above genesis and up to the tip of the wallet that is not
older than the wallet was redone. -/
def Covers (oldestTimestamp : Timestamp) (s : State) (processed : List ProcessedBlock)
    (w : WalletStateBasic) : Prop :=
  ∀ (height : Height) (ts : Timestamp), height ≠ 0 → height.toNat < w.nextHeight →
    s.timestampAt height = some ts → oldestTimestamp ≤ ts → w.tailHeight ≤ height ∧
      ∃ b, processed[w.nextHeight - 1 - height.toNat]? = some b ∧ b.redone.isSome = true

theorem Covers.shortened (h : w.Covers oldestTimestamp s processed)
    (hshort : Shortened processed w processed' w') : w'.Covers oldestTimestamp s processed' := by
  obtain ⟨htail, n, rfl, hn⟩ := hshort
  intro height ts hne hlt hts hold
  obtain ⟨hle, b, hb, hredone⟩ := h height ts hne (by omega) hts hold
  refine ⟨htail ▸ hle, b, ?_, hredone⟩
  rw [List.getElem?_drop, show n + (w'.nextHeight - 1 - height.toNat) =
    w.nextHeight - 1 - height.toNat by omega, hb]

end WalletStateBasic

/-- The timestamps of the main chain leave room for the future limit. -/
def State.TimestampsFit (c : Currency) (s : State) : Prop :=
  ∀ (height : Height) (ts : Timestamp), s.timestampAt height = some ts →
    ts.toNat + (c.getBlockFutureTimeLimit height).toNat < 2 ^ 32

/-- A block stored on both sides has the same timestamp on both. -/
def SameTimestamps (s t : State) : Prop := ∀ bid info info',
  s.db.headers.get bid = some info → t.db.headers.get bid = some info' →
    info.timestamp = info'.timestamp

theorem SameTimestamps.timestampAt (h : SameTimestamps s t) (hs : MainChain c s) {height : Height}
    {ts : Timestamp} (hagree : t.db.chain.get height = s.db.chain.get height)
    (hts : t.timestampAt height = some ts) : s.timestampAt height = some ts := by
  rw [State.timestampAt, hagree] at hts
  rw [State.timestampAt]
  cases hchain : s.db.chain.get height with
  | none => simp [hchain] at hts
  | some bid =>
    obtain ⟨info, hinfo, -⟩ := hs.header height bid hchain
    rw [hchain, Option.bind_some, Option.map_eq_some_iff] at hts
    obtain ⟨info', hinfo', rfl⟩ := hts
    rw [Option.bind_some, hinfo, Option.map_some, h bid info info' hinfo hinfo']

namespace WalletStateBasic

/-- Main chains that agree below the tip of a wallet ask for the same blocks. -/
theorem Covers.change (h : w.Covers oldestTimestamp s processed) (hs : MainChain c s)
    (hsame : SameTimestamps s t)
    (hagree : ∀ k : Height, k.toNat < w.nextHeight → t.db.chain.get k = s.db.chain.get k) :
    w.Covers oldestTimestamp t processed := fun height ts hne hlt hts hold ↦
  h height ts hne hlt (hsame.timestampAt hs (hagree height hlt) hts) hold

/-! ## Putting blocks on -/

theorem Follows.nextBlock (ht : t.Answers resp) {next : Bool ⊕ SyncBlock}
    (h : w.Follows wc c t processed) (hok : WalletState.nextBlock resp w = .ok next) :
    (∀ b, next = .inr b → t.db.chain.get (w.tipHeight + 1) = some b.header.hash ∧
        t.db.headers.get b.header.hash = some b.header ∧
        w.nextHeight < resp.startHeight.toNat + resp.blocks.length) ∧
      (∀ fits, next = .inl fits → processed ≠ [] ∨
        resp.startHeight.toNat + resp.blocks.length ≤ w.nextHeight) := by
  rw [WalletState.nextBlock] at hok
  split at hok
  · next hlt =>
    simp only [bind_eq_ok_iff, throwing_eq_ok_iff, SyncBlocksResponse.blockAt_eq_ok_iff] at hok
    obtain ⟨b, hget, hok⟩ := hok
    have hnext := Except.ok.inj hok
    constructor
    · intro b' hb'
      rw [hb'] at hnext
      split at hnext
      · cases hnext
      · obtain ⟨hchain, hheader⟩ := ht.block _ b hget
        have hadd : resp.startHeight +
            UInt32.ofNat (w.tipHeight + 1 - resp.startHeight).toNat = w.tipHeight + 1 := by
          rw [UInt32.ofNat_toNat]
          grind
        rw [hadd] at hchain
        rw [← Sum.inr.inj hnext]
        exact ⟨hchain, hheader, hlt⟩
    · intro fits hfits
      rw [hfits] at hnext
      split at hnext
      · next hdiffers =>
        left
        rw [ne_eq, ← h.emptyChain_iff, hdiffers.1]
        simp
      · cases hnext
  · next hge =>
    have hnext := Except.ok.inj hok
    refine ⟨fun b hb ↦ ?_, fun fits _ ↦ .inr (Nat.not_lt.1 hge)⟩
    rw [hb] at hnext
    cases hnext

/-- The blocks that the loop puts on are blocks of the main chain, and redone where they are not
too old. -/
theorem Follows.processBlocks (hmain : MainChain c t) (htip : t.tipHeight ≠ 0xFFFFFFFF)
    (ht : t.Answers resp) {fuel : ℕ} {fits : Bool} (h : w.Follows wc c t processed)
    (hstart : resp.startHeight.toNat ≤ w.nextHeight)
    (hnonempty : processed ≠ [] ∨ w.nextHeight < resp.startHeight.toNat + resp.blocks.length)
    (hok : WalletState.processBlocks wc c keys oldestTimestamp resp fuel w = .ok (fits, w')) :
    ∃ processed', w'.Follows wc c t processed' ∧ processed' ≠ [] ∧
      (t.TimestampsFit c → w.Covers oldestTimestamp t processed →
        w'.Covers oldestTimestamp t processed') := by
  have hstop : ∀ {w : WalletStateBasic} {processed : List ProcessedBlock} {fits : Bool},
      w.Follows wc c t processed →
        (processed ≠ [] ∨ w.nextHeight < resp.startHeight.toNat + resp.blocks.length) →
        WalletState.nextBlock resp w = .ok (.inl fits) → processed ≠ [] := by
    intro w processed fits h hnonempty hnext
    rcases (h.nextBlock ht hnext).2 fits rfl with hne | hge
    · exact hne
    · exact hnonempty.resolve_right (by omega)
  induction fuel generalizing w processed with
  | zero =>
    simp only [WalletState.processBlocks, bind_eq_ok_iff] at hok
    obtain ⟨next, hnext, hok⟩ := hok
    cases next with
    | inr b => cases hok
    | inl fits' =>
      have hne := hstop h hnonempty hnext
      obtain ⟨-, rfl⟩ := Prod.mk.inj (Except.ok.inj hok)
      exact ⟨processed, h, hne, fun _ hcovers ↦ hcovers⟩
  | succ fuel ih =>
    simp only [WalletState.processBlocks, bind_eq_ok_iff] at hok
    obtain ⟨next, hnext, hok⟩ := hok
    cases next with
    | inl fits' =>
      have hne := hstop h hnonempty hnext
      obtain ⟨-, rfl⟩ := Prod.mk.inj (Except.ok.inj hok)
      exact ⟨processed, h, hne, fun _ hcovers ↦ hcovers⟩
    | inr b =>
      simp only [bind_eq_ok_iff] at hok
      obtain ⟨v, happly, hok⟩ := hok
      obtain ⟨hb, hheader, -⟩ := (h.nextBlock ht hnext).1 b rfl
      obtain ⟨hv, htail, hnextHeight⟩ := h.applyBlock hmain htip hb happly
      obtain ⟨processed', hw', hne, hcovers⟩ := ih hv (by omega) (.inl (by simp)) hok
      refine ⟨processed', hw', hne, fun hfit hold ↦ hcovers hfit ?_⟩
      intro height ts hheight hlt hts hage
      by_cases heq : height.toNat = w.nextHeight
      · obtain rfl : height = w.tipHeight + 1 := UInt32.toNat_inj.1 heq
        refine ⟨?_, WalletState.processed wc c keys oldestTimestamp (w.tipHeight + 1) b, ?_, ?_⟩
        · have hcount := h.count
          rw [htail, UInt32.le_iff_toNat_le]
          omega
        · rw [show v.nextHeight - 1 - (w.tipHeight + 1).toNat = 0 by omega,
            List.getElem?_cons_zero]
        · have hts' : b.header.timestamp = ts := by
            rw [State.timestampAt, hb, Option.bind_some, hheader, Option.map_some,
              Option.some.injEq] at hts
            exact hts
          have hsum := hfit _ ts hts
          have hage' : oldestTimestamp ≤
              b.header.timestamp + c.getBlockFutureTimeLimit (w.tipHeight + 1) := by
            rw [UInt32.le_iff_toNat_le] at hage ⊢
            rw [hts', UInt32.toNat_add, Nat.mod_eq_of_lt hsum]
            omega
          simp [WalletState.processed, hage']
      · obtain ⟨hle, b', hb', hredone⟩ := hold height ts hheight (by omega) hts hage
        refine ⟨htail ▸ hle, b', ?_, hredone⟩
        rw [show v.nextHeight - 1 - height.toNat = (w.nextHeight - 1 - height.toNat) + 1 by omega,
          List.getElem?_cons_succ, hb']

end WalletStateBasic

/-- What makes the answers of `t` complete for a wallet that followed `s`. -/
structure State.CompleteFor (c : Currency) (oldestTimestamp : Timestamp) (s t : State) : Prop where
  earliestBelow : t.EarliestBelow c oldestTimestamp 0
  timestampsFit : t.TimestampsFit c
  sameTimestamps : SameTimestamps s t

namespace WalletStateBasic

/-- Below the start of a complete answer no block is missing, unless the wallet keeps the block
at the start. -/
theorem Follows.nothing_below_start (h : w.Follows wc c s processed) (hs : s.Sound cr c)
    (ht : t.Sound cr c) (hsame : SameParents s t) {sparseChain : List Hash} {maxCount : UInt32}
    (hlocator : w.getSparseChain c = .ok sparseChain)
    (hresp : t.onWalletSync3 cr c
      { sparseChain, firstBlockTimestamp := oldestTimestamp, maxCount } = .ok resp)
    (hblocks : resp.blocks ≠ []) (hcomplete : State.CompleteFor c oldestTimestamp s t)
    (hcovers : w.Covers oldestTimestamp s processed) {height : Height} {ts : Timestamp}
    (hne : height ≠ 0) (hlt : height < resp.startHeight) (hts : t.timestampAt height = some ts)
    (hold : oldestTimestamp ≤ ts) :
    w.tailHeight.toNat < resp.startHeight.toNat ∧ resp.startHeight.toNat < w.nextHeight ∧
      ∃ b, resp.blocks[0]? = some b ∧
        s.db.chain.get resp.startHeight = some b.header.hash := by
  obtain ⟨hanswers, hcount, common, chain, hchain, hstart⟩ := ht.onWalletSync3 hresp
  have hskip := (ht.tables.skipsNothing_from_iff ht.linked ht.started oldestTimestamp 0).2
    hcomplete.earliestBelow height ts (UInt32.pos_iff_ne_zero.2 hne) hts hold
  have hcommon : resp.startHeight = common := by
    unfold higher at hstart hskip
    grind
  have hlength := List.length_pos_iff.2 hblocks
  obtain ⟨hlocates, hbelow⟩ := h.getSparseChain hs.mainChain hlocator
  obtain ⟨start, chain', hok, hnonempty, -, hrun, hboth, -, lit, hlit, k, hk, hle⟩ :=
    State.answersSync hsame hs.linked ht.linked hs.mainChain ht.mainChain ht.notFull hlocates
      (Nat.lt_of_lt_of_le hlength hcount)
  rw [hchain, Except.ok.injEq, Prod.mk.injEq] at hok
  obtain ⟨rfl, rfl⟩ := hok
  obtain ⟨bid, rest, rfl⟩ := List.exists_cons_of_ne_nil hnonempty
  have hmain : t.db.chain.get common = some bid := by
    have hfirst := hrun 0 bid rfl
    rwa [show common + UInt32.ofNat 0 = common from UInt32.add_zero _] at hfirst
  have hmain' : s.db.chain.get common = some bid := hboth
  rw [hcommon] at hlt ⊢
  rw [UInt32.lt_iff_toNat_lt] at hlt
  rw [UInt32.le_iff_toNat_le] at hle
  have hnext : common.toNat < w.nextHeight := by
    rcases hbelow lit hlit k hk with rfl | hk
    · have hzero : (0 : UInt32).toNat = 0 := rfl
      omega
    · omega
  have hagree : t.db.chain.get height = s.db.chain.get height :=
    hsame.agree_below hs.mainChain ht.mainChain hmain' hmain (UInt32.le_iff_toNat_le.2 (by omega))
  obtain ⟨htail, -⟩ := hcovers height ts hne (by omega)
    (hcomplete.sameTimestamps.timestampAt hs.mainChain hagree hts) hold
  rw [UInt32.le_iff_toNat_le] at htail
  have hb := List.getElem?_eq_getElem (l := resp.blocks) hlength
  refine ⟨by omega, hnext, _, hb, ?_⟩
  obtain ⟨hstartBlock, -⟩ := hanswers.block 0 _ hb
  rw [hcommon, show common + UInt32.ofNat 0 = common from UInt32.add_zero _, hmain] at hstartBlock
  rw [hmain', hstartBlock]

/-- An answer taken in: the wallet follows its former main chain or that of the answering node, and
where the answers are complete it still covers it. -/
theorem Follows.syncWithBlockchain (h : w.Follows wc c s processed) (hs : s.Sound cr c)
    (ht : t.Sound cr c) (hsame : SameParents s t) (hne : processed ≠ []) {sparseChain : List Hash}
    {maxCount : UInt32} (hlocator : w.getSparseChain c = .ok sparseChain)
    (hresp : t.onWalletSync3 cr c
      { sparseChain, firstBlockTimestamp := oldestTimestamp, maxCount } = .ok resp)
    {fits : Bool}
    (hok : WalletState.syncWithBlockchain wc c keys oldestTimestamp resp w = .ok (fits, w')) :
    ∃ r processed', (r = s ∨ r = t) ∧ w'.Follows wc c r processed' ∧ processed' ≠ [] ∧
      (State.CompleteFor c oldestTimestamp s t → w.Covers oldestTimestamp s processed →
        w'.Covers oldestTimestamp r processed') := by
  rw [WalletState.syncWithBlockchain] at hok
  split at hok
  · obtain ⟨-, rfl⟩ := Prod.mk.inj (Except.ok.inj hok)
    exact ⟨s, processed, .inl rfl, h, hne, fun _ hcovers ↦ hcovers⟩
  next hblocks =>
  have hlength := List.length_pos_iff.2 hblocks
  obtain ⟨hanswers, -, -⟩ := ht.onWalletSync3 hresp
  simp only [bind_eq_ok_iff] at hok
  obtain ⟨w₁, hpop₁, ⟨fits₂, w₂⟩, hpop₂, hok⟩ := hok
  obtain ⟨processed₁, h₁, hshort₁, -, hkeep₁⟩ := h.popWhile hpop₁
  obtain ⟨processed₂, h₂, hshort₂, hfalse, htrue, hkeep₂⟩ := h₁.popDiffering hpop₂
  have hshort := hshort₁.trans hshort₂
  cases hfits : fits₂ with
  | false =>
    rw [hfits] at hok
    obtain ⟨-, rfl⟩ := Prod.mk.inj (Except.ok.inj hok)
    exact ⟨s, processed₂, .inl rfl, h₂, hfalse hfits, fun _ hcovers ↦ hcovers.shortened hshort⟩
  | true =>
  rw [hfits] at hok
  simp only [Bool.true_eq_false, if_false, bind_eq_ok_iff] at hok
  obtain ⟨w₃, hpop₃, w₄, hreset, ⟨fits₅, w₅⟩, hprocess, hok⟩ := hok
  -- the wallet is left with a part of the main chain of the answering node
  have h₄ : ∃ processed₄, w₄.Follows wc c t processed₄ ∧
      resp.startHeight.toNat ≤ w₄.nextHeight ∧
      (processed₄ ≠ [] ∨ w₄.nextHeight < resp.startHeight.toNat + resp.blocks.length) ∧
      (State.CompleteFor c oldestTimestamp s t → w.Covers oldestTimestamp s processed →
        w₄.Covers oldestTimestamp t processed₄) := by
    by_cases hstays : processed₂ ≠ [] ∧ resp.startHeight ≤ w₂.tipHeight
    · obtain ⟨hne₂, hle⟩ := hstays
      have hw₃ : w₂ = w₃ := by
        rw [if_neg (UInt32.not_lt.2 hle)] at hpop₃
        exact Except.ok.inj hpop₃
      have hw₄ : w₂ = w₄ := by
        rw [← hw₃, if_neg (by rw [h₂.emptyChain_iff]; exact hne₂)] at hreset
        exact Except.ok.inj hreset
      rw [← hw₄]
      obtain ⟨b, hb, hhash⟩ := htrue hfits hne₂ hle
      obtain ⟨hmain, -⟩ := hanswers.block _ b hb
      rw [UInt32.ofNat_toNat, show resp.startHeight + (w₂.tipHeight - resp.startHeight) =
        w₂.tipHeight by grind, ← hhash] at hmain
      obtain ⟨h₂', hagree⟩ := h₂.change hsame hs.mainChain ht.mainChain hne₂ hmain
      have htip := tipHeight_toNat (h₂.nextHeight_pos hne₂)
      rw [UInt32.le_iff_toNat_le] at hle
      exact ⟨processed₂, h₂', by omega, .inl hne₂, fun hcomplete hcovers ↦
        (hcovers.shortened hshort).change hs.mainChain hcomplete.sameTimestamps hagree⟩
    · have h₃ : w₃.Follows wc c s [] := by
        by_cases hempty : processed₂ = []
        · rw [hempty] at h₂
          split at hpop₃
          · obtain ⟨processed₃, h₃, ⟨-, n, hdrop, -⟩, -⟩ := h₂.popWhile hpop₃
            rw [List.drop_nil] at hdrop
            exact hdrop ▸ h₃
          · exact Except.ok.inj hpop₃ ▸ h₂
        · rw [if_pos (UInt32.not_le.1 fun hle ↦ hstays ⟨hempty, hle⟩)] at hpop₃
          obtain ⟨processed₃, h₃, -, hnil, -⟩ := h₂.popWhile hpop₃
          exact hnil rfl ▸ h₃
      rw [if_pos (h₃.emptyChain_iff.2 rfl)] at hreset
      obtain ⟨h₄, htail, hnext⟩ := h₃.resetChain (t := t) hreset
      refine ⟨[], h₄, by omega, .inr (by omega), fun hcomplete hcovers height ts hheight hlt hts
        hold ↦ ?_⟩
      -- a block below the start would have kept the wallet from starting there
      obtain ⟨htail', hnext', b, hb, hmain⟩ := h.nothing_below_start hs ht hsame hlocator hresp
        hblocks hcomplete hcovers hheight (UInt32.lt_iff_toNat_lt.2 (by omega)) hts hold
      have hlow₁ := hkeep₁ resp.startHeight.toNat (fun v hv hp ↦ by
        have htip := tipHeight_toNat hv
        have habove := of_decide_eq_true hp
        omega) hnext'
      have hlow₂ := hkeep₂ resp.startHeight b (by simpa using hb) hmain hlow₁
      have hcount := h₂.count
      rw [hshort.tail] at hcount
      refine absurd ⟨?_, ?_⟩ hstays
      · rw [← List.length_pos_iff]
        omega
      · have htip := tipHeight_toNat (w := w₂) (by omega)
        rw [UInt32.le_iff_toNat_le]
        omega
  obtain ⟨processed₄, hw₄, hstart, hnonempty, hcovers₄⟩ := h₄
  obtain ⟨processed₅, h₅, hne₅, hcovers₅⟩ :=
    hw₄.processBlocks ht.mainChain ht.notFull hanswers hstart hnonempty hprocess
  have hw' : w' = w₅ := by
    cases hfits₅ : fits₅ with
    | false =>
      rw [hfits₅] at hok
      exact (Prod.mk.inj (Except.ok.inj hok)).2.symm
    | true =>
      rw [hfits₅] at hok
      simp only [Bool.true_eq_false, if_false, bind_eq_ok_iff] at hok
      obtain ⟨w₆, hfix, hok⟩ := hok
      have hnot : ¬ w₅.tipHeight + 1 = w₅.tailHeight := by
        intro heq
        exact hne₅ (h₅.emptyChain_iff.1 (decide_eq_true heq))
      rw [WalletStateBasic.fixEmptyChain, if_neg hnot] at hfix
      rw [Except.ok.inj hfix]
      exact (Prod.mk.inj (Except.ok.inj hok)).2.symm
  rw [hw']
  exact ⟨t, processed₅, .inr rfl, h₅, hne₅, fun hcomplete hcovers ↦
    hcovers₅ hcomplete.timestampsFit (hcovers₄ hcomplete hcovers)⟩

/-- A new wallet holds the genesis block. -/
theorem follows_start (hs : s.Sound cr c) (hok : fixEmptyChain c {} = .ok w) :
    ∃ b, w.Follows wc c s [b] ∧ w.Covers oldestTimestamp s [b] := by
  let b : ProcessedBlock :=
    { keys := {}, header := fillGenesis c.genesisBlockHash c.genesisBlockTemplate, redone := none }
  have happly : ({} : WalletStateBasic).applyBlock wc c b = .ok w := hok
  have hempty : ({} : WalletStateBasic).Follows wc c s [] :=
    follows_of_empty .start rfl rfl
  have hzero : ({} : WalletStateBasic).tipHeight + 1 = 0 := rfl
  have hroot : s.db.chain.get (({} : WalletStateBasic).tipHeight + 1) = some b.header.hash := by
    rw [hzero]
    exact hs.mainChain.root
  obtain ⟨hw, -, hnext⟩ := hempty.applyBlock hs.mainChain hs.notFull hroot happly
  refine ⟨b, hw, fun height ts hne hlt ↦ ?_⟩
  have hnext' : w.nextHeight = 1 := hnext
  have hheight : height.toNat = (0 : UInt32).toNat := by
    change height.toNat = 0
    omega
  exact absurd (UInt32.toNat_inj.1 hheight) hne

end WalletStateBasic

/-- A synchronizing wallet follows one of its nodes, and covers its main chain where the answers of
the nodes are complete. -/
theorem SyncedWallet.follows {node : State → Prop} {complete : Prop}
    (hnode : ∀ s, node s → s.Sound cr c)
    (hsame : ∀ s t, node s → node t → SameParents s t)
    (hcomplete : complete → ∀ s t, node s → node t → State.CompleteFor c oldestTimestamp s t)
    (hexists : ∃ s, node s) (h : SyncedWallet wc cr c oldestTimestamp node w) :
    ∃ s processed, node s ∧ w.Follows wc c s processed ∧ processed ≠ [] ∧
      (complete → w.Covers oldestTimestamp s processed) := by
  induction h with
  | start hok =>
    obtain ⟨s, hs⟩ := hexists
    obtain ⟨b, hw, hcovers⟩ := WalletStateBasic.follows_start (hnode s hs) hok
    exact ⟨s, [b], hs, hw, by simp, fun _ ↦ hcovers⟩
  | sync _ ht hlocator hresp hok ih =>
    obtain ⟨s, processed, hs, hw, hne, hcovers⟩ := ih
    obtain ⟨r, processed', hr, hw', hne', hcovers'⟩ := hw.syncWithBlockchain (hnode s hs)
      (hnode _ ht) (hsame s _ hs ht) hne hlocator hresp hok
    refine ⟨r, processed', ?_, hw', hne', fun hall ↦
      hcovers' (hcomplete hall s _ hs ht) (hcovers hall)⟩
    rcases hr with rfl | rfl
    · exact hs
    · exact ht

/-! ## Answers to locators -/

theorem Reachable.sound {isTestnet : Bool} {s : State}
    (h : Reachable cr (Currency.make cr isTestnet) s) (htip : s.tipHeight ≠ 0xFFFFFFFF) :
    s.Sound cr (Currency.make cr isTestnet) :=
  ⟨h.linked, h.started, h.visited.followsChain, htip⟩

/-- Both answers of `t` to a locator of `s` are right. -/
def State.SyncsWith (t s : State) (locator : List Hash) : Prop :=
  (∀ maxCount, 0 < maxCount → t.AnswersSync s locator maxCount) ∧ t.FindsSupplement s locator

theorem State.Sound.syncsWith_state_iff (hs : s.Sound cr c) (ht : t.Sound cr c)
    (hsame : SameParents s t) {locator : List Hash} (hlocates : Locates c s locator) :
    t.SyncsWith s locator ↔ t.FirstStoredOnMain locator := by
  rw [← State.findsSupplement_iff hsame hs.linked ht.linked hs.mainChain ht.mainChain hlocates]
  refine and_iff_right fun maxCount hcount ↦ ?_
  exact State.answersSync hsame hs.linked ht.linked hs.mainChain ht.mainChain ht.notFull hlocates
    hcount

/-- Among nodes on which blocks have the same parents, the answers to the locators of nodes and of
wallets are right exactly if the first entry that is stored at a height that the chain reaches is on
the main chain; the answer of `get_sync_headers_chain` always is. -/
theorem Reachable.syncsWith_iff {isTestnet : Bool} {node : State → Prop}
    (hnode : ∀ s, node s → Reachable cr (Currency.make cr isTestnet) s ∧ s.tipHeight ≠ 0xFFFFFFFF)
    (hsame : ∀ s t, node s → node t → SameParents s t) {t : State} (ht : node t) :
    (∀ s locator, node s → s.getSparseChain (Currency.make cr isTestnet) = .ok locator →
      (∀ maxCount, 0 < maxCount → t.AnswersSync s locator maxCount) ∧
        (t.SyncsWith s locator ↔ t.FirstStoredOnMain locator)) ∧
    (∀ s, node s → s.tipHeight.toNat < 2 ^ 31 →
      ∃ locator, s.getSparseChain (Currency.make cr isTestnet) = .ok locator) ∧
    ∀ (wc : WalletCrypto) (oldestTimestamp : Timestamp) (w : WalletStateBasic)
      (locator : List Hash),
      SyncedWallet wc cr (Currency.make cr isTestnet) oldestTimestamp node w →
      w.getSparseChain (Currency.make cr isTestnet) = .ok locator →
      ∃ s, node s ∧ (∀ height header, w.chain.get height = some header →
          s.db.chain.get height = some header.hash) ∧
        (∀ maxCount, 0 < maxCount → t.AnswersSync s locator maxCount) ∧
        (t.SyncsWith s locator ↔ t.FirstStoredOnMain locator) := by
  have hsound : ∀ s, node s → s.Sound cr (Currency.make cr isTestnet) := fun s hs ↦
    (hnode s hs).1.sound (hnode s hs).2
  have hanswers : ∀ s locator, node s → Locates (Currency.make cr isTestnet) s locator →
      (∀ maxCount, 0 < maxCount → t.AnswersSync s locator maxCount) ∧
        (t.SyncsWith s locator ↔ t.FirstStoredOnMain locator) := by
    intro s locator hs hlocates
    refine ⟨fun maxCount hcount ↦ ?_, (hsound s hs).syncsWith_state_iff (hsound t ht)
      (hsame s t hs ht) hlocates⟩
    exact State.answersSync (hsame s t hs ht) (hsound s hs).linked (hsound t ht).linked
      (hsound s hs).mainChain (hsound t ht).mainChain (hsound t ht).notFull hlocates hcount
  refine ⟨fun s locator hs hlocator ↦ ?_, fun s hs htip ↦ ?_, fun wc oldest w locator hw hlocator ↦
    ?_⟩
  · exact hanswers s locator hs (State.getSparseChain_locates (hsound s hs).mainChain hlocator)
  · exact State.getSparseChain_returns (hsound s hs).mainChain htip
  · obtain ⟨s, processed, hs, hfollows, -, -⟩ :=
      hw.follows hsound hsame (fun h : False ↦ h.elim) ⟨t, ht⟩
    obtain ⟨hlocates, -⟩ := hfollows.getSparseChain (hsound s hs).mainChain hlocator
    refine ⟨s, hs, fun height header hget ↦ ?_, hanswers s locator hs hlocates⟩
    obtain ⟨hle, hlt⟩ := hfollows.window height header hget
    obtain ⟨b, -, hb, hmain⟩ := hfollows.block height hle hlt
    rw [hget, Option.some.injEq] at hb
    rw [hb]
    exact hmain

/-- The test of `SameParents` on stored headers. -/
def State.sameParents (s t : State) : Bool :=
  s.db.headers.toList.all fun e ↦
    match t.db.headers.get e.1 with
    | some info => e.2.previousBlockHash = info.previousBlockHash
    | none => true

theorem State.sameParents_of_test (h : s.sameParents t = true) : SameParents s t := by
  intro bid info info' hinfo hinfo'
  have htest := List.all_eq_true.1 h (bid, info) (Store.mem_toList_iff.2 hinfo)
  dsimp only at htest
  rw [hinfo'] at htest
  exact of_decide_eq_true htest

theorem SameParents.refl (s : State) : SameParents s s := by
  intro bid info info' hinfo hinfo'
  rw [hinfo, Option.some.injEq] at hinfo'
  rw [hinfo']

theorem SameParents.symm (h : SameParents s t) : SameParents t s :=
  fun bid info info' hinfo hinfo' ↦ (h bid info' info hinfo' hinfo).symm

theorem runFromStart_longerChain : returns (runFromStart sampleCrypto testnet []) (fun s ↦
    returns (runFromStart sampleCrypto testnet [.offer 1000 (firstTestnetBlock.rawBlock [])])
      fun t ↦ decide (s.tipHeight = 0 ∧ t.tipHeight = 1 ∧ s.sameParents t = true) &&
        returns (s.getSparseChain testnet) fun locator ↦
          locator.find? t.storesBelowTip = some testnet.genesisBlockHash) = true := by
  decide +kernel

/-- A node with one more block answers a node that has only the genesis block. -/
theorem Reachable.syncsWith_iff_longerChain : ∃ (s t : State) (locator : List Hash),
    Reachable sampleCrypto testnet s ∧ Reachable sampleCrypto testnet t ∧ t.tipHeight = 1 ∧
      s.getSparseChain testnet = .ok locator ∧ t.SyncsWith s locator := by
  obtain ⟨s, hs, htest⟩ := returns_iff.1 runFromStart_longerChain
  obtain ⟨t, ht, htest⟩ := returns_iff.1 htest
  rw [Bool.and_eq_true, decide_eq_true_eq] at htest
  obtain ⟨⟨hstip, httip, hparents⟩, htest⟩ := htest
  obtain ⟨locator, hlocator, hfirst⟩ := returns_iff.1 htest
  have hs' := reachable_of_runFromStart hs
  have ht' := reachable_of_runFromStart ht
  have hsame := State.sameParents_of_test hparents
  have hnode : ∀ r, r = s ∨ r = t → Reachable sampleCrypto testnet r ∧
      r.tipHeight ≠ 0xFFFFFFFF := by
    rintro r (rfl | rfl)
    · exact ⟨hs', by rw [hstip]; decide⟩
    · exact ⟨ht', by rw [httip]; decide⟩
  have hparents' : ∀ r r', r = s ∨ r = t → r' = s ∨ r' = t → SameParents r r' := by
    rintro r r' (rfl | rfl) (rfl | rfl)
    · exact .refl _
    · exact hsame
    · exact hsame.symm
    · exact .refl _
  obtain ⟨hnodes, -⟩ := Reachable.syncsWith_iff hnode hparents' (.inr rfl)
  refine ⟨s, t, locator, hs', ht', httip, hlocator, ?_⟩
  refine (hnodes s locator (.inl rfl) hlocator).2.2 fun bid hbid ↦ ?_
  rw [of_decide_eq_true hfirst, Option.some.injEq] at hbid
  exact ⟨0, hbid ▸ (ht'.linked.mainChain ht'.started).root⟩

theorem runFromStart_sideBranch : returns
    (runFromStart sampleCrypto testnet [.offer 1000 (firstTestnetBlock.rawBlock [])]) (fun s ↦
    returns (runFromStart sampleCrypto testnet
      [.offer 1000 (siblingBlock.rawBlock []), .offer 1000 (firstTestnetBlock.rawBlock [])])
      fun t ↦ returns (s.getSparseChain testnet) fun locator ↦
        s.sameParents t = true ∧ t.findBlockchainSupplement locator = 1 ∧
          t.db.chain.get 1 ≠ s.db.chain.get 1) = true := by
  decide +kernel

/-- A block that the node has on a side branch only is taken for the last common one. -/
theorem State.not_findsSupplement_sideBranch : ∃ (s t : State) (locator : List Hash),
    Reachable sampleCrypto testnet s ∧ Reachable sampleCrypto testnet t ∧ SameParents s t ∧
      s.getSparseChain testnet = .ok locator ∧ ¬ t.FindsSupplement s locator := by
  obtain ⟨s, hs, htest⟩ := returns_iff.1 runFromStart_sideBranch
  obtain ⟨t, ht, htest⟩ := returns_iff.1 htest
  obtain ⟨locator, hlocator, htest⟩ := returns_iff.1 htest
  rw [decide_eq_true_eq] at htest
  obtain ⟨hparents, hfound, hdiffers⟩ := htest
  refine ⟨s, t, locator, reachable_of_runFromStart hs, reachable_of_runFromStart ht,
    State.sameParents_of_test hparents, hlocator, ?_⟩
  rintro ⟨bid, htget, hsget, -⟩
  rw [hfound] at htget hsget
  exact hdiffers (htget.trans hsget.symm)

/-! ## Answers to wallets -/

/-- The start of every answer skips nothing exactly if the block with the least timestamp that is
late enough is not above a block asked for; and a wallet whose nodes all meet this condition has
redone every block of the main chain that is not older than the wallet. -/
theorem Reachable.skipsNothing_iff {isTestnet : Bool} {node : State → Prop}
    (hnode : ∀ s, node s →
      Reachable cr (Currency.make cr isTestnet) s ∧ s.tipHeight ≠ 0xFFFFFFFF) :
    (∀ s req, node s → (Currency.make cr isTestnet).genesisBlockHash ∈ req.sparseChain →
      ∃ common chain start supplement,
        s.getSyncHeadersChain req.maxCount.toNat req.sparseChain = .ok (common, chain) ∧
        s.syncSupplement (Currency.make cr isTestnet) req = .ok (start, supplement) ∧
        (∀ resp, s.onWalletSync3 cr (Currency.make cr isTestnet) req = .ok resp →
          resp.startHeight = start) ∧
        (s.SkipsNothing req.firstBlockTimestamp common start ↔
          s.EarliestBelow (Currency.make cr isTestnet) req.firstBlockTimestamp common)) ∧
    ∀ oldestTimestamp, (∀ s t, node s → node t → SameParents s t ∧
        State.CompleteFor (Currency.make cr isTestnet) oldestTimestamp s t) →
      ∀ (wc : WalletCrypto) (w : WalletStateBasic), (∃ s, node s) →
        SyncedWallet wc cr (Currency.make cr isTestnet) oldestTimestamp node w →
        ∃ s processed, node s ∧ w.Follows wc (Currency.make cr isTestnet) s processed ∧
          w.Covers oldestTimestamp s processed := by
  have hsound : ∀ s, node s → s.Sound cr (Currency.make cr isTestnet) := fun s hs ↦
    (hnode s hs).1.sound (hnode s hs).2
  refine ⟨fun s req hs hgenesis ↦ ?_, fun oldest hcomplete wc w hexists hw ↦ ?_⟩
  · have h := hsound s hs
    obtain ⟨common, chain, start, supplement, hchain, hsupplement, hstart, -⟩ :=
      State.syncSupplement_spec h.linked h.mainChain h.notFull req hgenesis
        (h.tables.getTimestampLowerBoundBlockIndex_le h.linked h.started _)
    refine ⟨common, chain, start, supplement, hchain, hsupplement, fun resp hresp ↦ ?_, ?_⟩
    · obtain ⟨-, -, common', chain', hchain', hstart'⟩ := h.onWalletSync3 hresp
      rw [hchain, Except.ok.injEq, Prod.mk.injEq] at hchain'
      rw [hstart', hstart, hchain'.1]
    · rw [hstart]
      exact h.tables.skipsNothing_from_iff h.linked h.started _ common
  · obtain ⟨s, processed, hs, hfollows, -, hcovers⟩ := hw.follows hsound
      (fun s t hs ht ↦ (hcomplete s t hs ht).1)
      (fun (_ : True) s t hs ht ↦ (hcomplete s t hs ht).2) hexists
    exact ⟨s, processed, hs, hfollows, hcovers trivial⟩

/-- The answer to a wallet that has the genesis block and asks for blocks from the beginning. -/
theorem Reachable.skipsNothing_iff_firstTestnetBlock : ∃ (s : State) (supplement : List Hash),
    Reachable sampleCrypto testnet s ∧ s.tipHeight = 1 ∧
      s.syncSupplement testnet { sparseChain := [testnet.genesisBlockHash] } =
        .ok (0, supplement) ∧ s.EarliestBelow testnet 0 0 := by
  have hrun : returns (runFromStart sampleCrypto testnet
      [.offer 1000 (firstTestnetBlock.rawBlock [])]) (fun s ↦ decide (s.tipHeight = 1) &&
        returns (s.getSyncHeadersChain 100 [testnet.genesisBlockHash]) (fun r ↦ r.1 = 0) &&
        returns (s.syncSupplement testnet { sparseChain := [testnet.genesisBlockHash] })
          fun r ↦ r.1 = 0) = true := by
    decide +kernel
  obtain ⟨s, hs, htest⟩ := returns_iff.1 hrun
  rw [Bool.and_eq_true, Bool.and_eq_true, decide_eq_true_eq] at htest
  obtain ⟨⟨htip, hcommon⟩, hstart⟩ := htest
  obtain ⟨⟨common, chain⟩, hchain, hcommon⟩ := returns_iff.1 hcommon
  obtain ⟨⟨start, supplement⟩, hsupplement, hstart⟩ := returns_iff.1 hstart
  rw [decide_eq_true_eq] at hcommon hstart
  have hs' := reachable_of_runFromStart hs
  have hnode : ∀ r, r = s → Reachable sampleCrypto testnet r ∧ r.tipHeight ≠ 0xFFFFFFFF := by
    rintro r rfl
    exact ⟨hs', by rw [htip]; decide⟩
  obtain ⟨common', chain', start', supplement', hchain', hsupplement', -, hiff⟩ :=
    (Reachable.skipsNothing_iff hnode).1 s { sparseChain := [testnet.genesisBlockHash] } rfl
      (List.mem_singleton_self _)
  have hsame := (Prod.mk.inj (Except.ok.inj (hchain.symm.trans hchain'))).1
  have hsame' := (Prod.mk.inj (Except.ok.inj (hsupplement.symm.trans hsupplement'))).1
  dsimp only at hcommon hstart
  rw [← hsame, ← hsame', hcommon, hstart] at hiff
  rw [hstart] at hsupplement
  exact ⟨s, supplement, hs', htip, hsupplement, hiff.1 fun _ _ _ _ _ ↦ UInt32.zero_le⟩

/-- A block later than the next one. -/
def lateTestnetBlock : BlockTemplate :=
  (sampleTemplate 2 testnet.genesisBlockHash 100000 (sampleCoinbase 1 281470681743360 [1, 2])
    []).merged

/-- The block above it, with a timestamp before it. -/
def earlyTestnetBlock : BlockTemplate :=
  (sampleTemplate 2 lateTestnetBlock.sampleHash 99999 (sampleCoinbase 2 281466386841600 [2, 3])
    []).merged

theorem runFromStart_earlyTestnetBlock : returns (runFromStart sampleCrypto testnet
      [.offer 100000 (lateTestnetBlock.rawBlock []), .offer 100000 (earlyTestnetBlock.rawBlock [])])
    (fun s ↦ decide (s.timestampAt 1 = some 100000) &&
      returns (s.getSyncHeadersChain 100 [testnet.genesisBlockHash]) (fun r ↦ r.1 = 0) &&
      returns (s.syncSupplement testnet
        { sparseChain := [testnet.genesisBlockHash], firstBlockTimestamp := 100000 })
        fun r ↦ r.1 = 2) = true := by
  decide +kernel

/-- The answer starts behind the only block that is late enough. -/
theorem State.not_skipsNothing_earlyTestnetBlock : ∃ (s : State) (req : SyncBlocksRequest)
    (common start : Height) (chain supplement : List Hash),
    Reachable sampleCrypto testnet s ∧
      s.getSyncHeadersChain req.maxCount.toNat req.sparseChain = .ok (common, chain) ∧
      s.syncSupplement testnet req = .ok (start, supplement) ∧
      ¬ s.SkipsNothing req.firstBlockTimestamp common start := by
  obtain ⟨s, hs, htest⟩ := returns_iff.1 runFromStart_earlyTestnetBlock
  rw [Bool.and_eq_true, Bool.and_eq_true, decide_eq_true_eq] at htest
  obtain ⟨⟨hlate, hcommon⟩, hstart⟩ := htest
  obtain ⟨⟨common, chain⟩, hchain, hcommon⟩ := returns_iff.1 hcommon
  obtain ⟨⟨start, supplement⟩, hsupplement, hstart⟩ := returns_iff.1 hstart
  rw [decide_eq_true_eq] at hcommon hstart
  refine ⟨s, { sparseChain := [testnet.genesisBlockHash], firstBlockTimestamp := 100000 }, common,
    start, chain, supplement, reachable_of_runFromStart hs, hchain, hsupplement, fun hskips ↦ ?_⟩
  dsimp only at hcommon hstart
  have hle := hskips 1 100000 (by rw [hcommon]; decide) hlate (by decide)
  rw [hstart] at hle
  exact absurd hle (by decide)

end Naza
