import Naza.Wallet.Sync

/-!
# The chain of a wallet

The chain of a synchronizing wallet is a part of the main chain of the node that it last followed,
and the blocks it is made of are the processed ones.
-/

open Lib

namespace Naza

variable {wc : WalletCrypto} {cr : Crypto} {c : Currency} {s t : State}
  {processed : List ProcessedBlock} {w w' : WalletStateBasic}

namespace WalletStateBasic

/-- The height after the tip. -/
def nextHeight (w : WalletStateBasic) : ℕ := (w.tipHeight + 1).toNat

/-- The chain of a wallet is made of the processed blocks, the last one first, and is a part of the
main chain of `s`. -/
structure Follows (wc : WalletCrypto) (c : Currency) (s : State) (processed : List ProcessedBlock)
    (w : WalletStateBasic) : Prop where
  run : WalletRun wc c w.tailHeight processed w
  count : w.tailHeight.toNat + processed.length = w.nextHeight
  window : ∀ height header, w.chain.get height = some header →
    w.tailHeight.toNat ≤ height.toNat ∧ height.toNat < w.nextHeight
  block : ∀ height : Height, w.tailHeight.toNat ≤ height.toNat → height.toNat < w.nextHeight →
    ∃ b, processed[w.nextHeight - 1 - height.toNat]? = some b ∧
      w.chain.get height = some b.header ∧ s.db.chain.get height = some b.header.hash
  tip : processed ≠ [] → w.chain.get w.tipHeight = some w.tip

theorem tipHeight_toNat (h : w.nextHeight ≠ 0) : w.tipHeight.toNat = w.nextHeight - 1 := by
  have hone : (1 : UInt32).toNat = 1 := rfl
  have hlt := w.tipHeight.toNat_lt
  rw [nextHeight, UInt32.toNat_add] at h ⊢
  omega

theorem Follows.emptyChain_iff (h : w.Follows wc c s processed) :
    w.emptyChain = true ↔ processed = [] := by
  have hcount := h.count
  rw [emptyChain, decide_eq_true_iff, ← UInt32.toNat_inj, ← List.length_eq_zero_iff]
  rw [nextHeight] at hcount
  omega

/-- An empty chain is a part of every chain. -/
theorem follows_of_empty (hrun : WalletRun wc c w.tailHeight [] w)
    (hempty : w.tipHeight + 1 = w.tailHeight) (hchain : w.chain = ∅) :
    w.Follows wc c s [] := by
  have hnext : w.nextHeight = w.tailHeight.toNat := congrArg UInt32.toNat hempty
  refine ⟨hrun, by simp [hnext], fun height header hget ↦ ?_, fun height hle hlt ↦ ?_,
    fun hne ↦ absurd rfl hne⟩
  · rw [hchain, Store.get_empty] at hget
    cases hget
  · omega

theorem Follows.chain_eq_empty (h : w.Follows wc c s []) : w.chain = ∅ := by
  refine Store.ext fun height ↦ ?_
  rw [Store.get_empty]
  cases hget : w.chain.get height with
  | none => rfl
  | some header =>
    have hcount := h.count
    obtain ⟨hle, hlt⟩ := h.window height header hget
    rw [List.length_nil] at hcount
    omega

/-- The part of the chain that is left after some blocks were taken back. -/
structure Shortened (processed : List ProcessedBlock) (w : WalletStateBasic)
    (processed' : List ProcessedBlock) (w' : WalletStateBasic) : Prop where
  tail : w'.tailHeight = w.tailHeight
  blocks : ∃ n, processed' = processed.drop n ∧ w'.nextHeight + n = w.nextHeight

theorem Shortened.refl : Shortened processed w processed w := ⟨rfl, 0, rfl, rfl⟩

theorem Shortened.trans {p₁ p₂ p₃ : List ProcessedBlock} {w₁ w₂ w₃ : WalletStateBasic}
    (h : Shortened p₁ w₁ p₂ w₂) (h' : Shortened p₂ w₂ p₃ w₃) : Shortened p₁ w₁ p₃ w₃ := by
  obtain ⟨htail, n, rfl, hn⟩ := h
  obtain ⟨htail', m, rfl, hm⟩ := h'
  exact ⟨htail'.trans htail, n + m, by rw [List.drop_drop], by omega⟩

/-- One block taken back. -/
theorem Follows.popChain (h : w.Follows wc c s processed) (hok : w.popChain = .ok w') :
    ∃ b rest, processed = b :: rest ∧ w'.Follows wc c s rest ∧ Shortened processed w rest w' := by
  obtain ⟨b, rest, rfl⟩ : ∃ b rest, processed = b :: rest := by
    cases processed with
    | cons b rest => exact ⟨b, rest, rfl⟩
    | nil =>
      have hempty := h.emptyChain_iff.2 rfl
      simp only [WalletStateBasic.popChain, bind_eq_ok_iff, throwing_eq_ok_iff,
        invariant_eq_ok_iff] at hok
      obtain ⟨-, hne, -⟩ := hok
      exact absurd (of_decide_eq_true hempty) hne
  have hrun := h.run
  have hcount := h.count
  rw [List.length_cons] at hcount
  have htip := tipHeight_toNat (w := w) (by omega)
  have hpop := hok
  simp only [WalletStateBasic.popChain, bind_eq_ok_iff, throwing_eq_ok_iff, invariant_eq_ok_iff,
    walletWrite_eq_ok_iff, Store.removeExisting_eq_ok_iff] at hpop
  obtain ⟨-, -, chain, ⟨-, hchain⟩, tip, htip', hw'⟩ := hpop
  have hundo : (undoDbState w.tipHeight w).chain = w.chain ∧
      (undoDbState w.tipHeight w).tipHeight = w.tipHeight ∧
      (undoDbState w.tipHeight w).tailHeight = w.tailHeight := by
    unfold undoDbState
    split <;> exact ⟨rfl, rfl, rfl⟩
  obtain ⟨hundoChain, hundoTip, hundoTail⟩ := hundo
  rw [hundoTip] at hw' htip'
  rw [hundoChain, hundoTip] at hchain
  rw [hundoTail] at htip'
  have hfields : w'.chain = w.chain.remove w.tipHeight ∧ w'.tipHeight = w.tipHeight - 1 ∧
      w'.tailHeight = w.tailHeight ∧ w'.tip = tip := by
    rw [← Except.ok.inj hw']
    exact ⟨hchain, rfl, hundoTail, rfl⟩
  obtain ⟨hchain', htipHeight, htail, htipField⟩ := hfields
  have hback : w'.tipHeight + 1 = w.tipHeight := by rw [htipHeight]; grind
  have hnext : w'.nextHeight + 1 = w.nextHeight := by
    rw [WalletStateBasic.nextHeight, hback]
    omega
  refine ⟨b, rest, rfl, ⟨?_, ?_, ?_, ?_, ?_⟩, htail, 1, rfl, hnext⟩
  · rw [htail]
    exact .pop hrun hok
  · rw [htail]
    omega
  · intro height header hget
    rw [hchain', Store.get_remove] at hget
    split at hget
    · cases hget
    · next hne =>
      obtain ⟨hle, hlt⟩ := h.window height header hget
      have hne' : w.tipHeight.toNat ≠ height.toNat := fun heq ↦ hne (UInt32.toNat_inj.1 heq)
      rw [htail]
      omega
  · intro height hle hlt
    rw [htail] at hle
    obtain ⟨b', hb', hget, hmain⟩ := h.block height hle (by omega)
    have hne : w.tipHeight ≠ height := by
      rintro rfl
      omega
    refine ⟨b', ?_, by rw [hchain', Store.get_remove_of_ne _ hne, hget], hmain⟩
    rw [show w.nextHeight - 1 - height.toNat = (w'.nextHeight - 1 - height.toNat) + 1 by omega,
      List.getElem?_cons_succ] at hb'
    exact hb'
  · intro hne
    have hlength := List.length_pos_iff.2 hne
    have hnot : w.tipHeight - 1 + 1 ≠ w.tailHeight := by
      intro heq
      rw [← htipHeight, hback] at heq
      have hnat := congrArg UInt32.toNat heq
      omega
    rw [if_neg hnot, WalletStateBasic.readChain, expect_eq_ok_iff] at htip'
    rw [htipHeight, htipField, ← htip', hchain', hchain]

/-- A block of the main chain put on top. -/
theorem Follows.applyBlock (h : w.Follows wc c s processed) (hmain : MainChain c s)
    (htip : s.tipHeight ≠ 0xFFFFFFFF) {b : ProcessedBlock}
    (hb : s.db.chain.get (w.tipHeight + 1) = some b.header.hash)
    (hok : w.applyBlock wc c b = .ok w') :
    w'.Follows wc c s (b :: processed) ∧ w'.tailHeight = w.tailHeight ∧
      w'.nextHeight = w.nextHeight + 1 := by
  have hcount := h.count
  obtain ⟨tables, undo, -, hfree, -, hw'⟩ := applyBlock_eq hok
  have hfields : w'.chain = w.chain.put (w.tipHeight + 1) b.header ∧
      w'.tipHeight = w.tipHeight + 1 ∧ w'.tailHeight = w.tailHeight ∧ w'.tip = b.header := by
    rw [hw']
    exact ⟨rfl, rfl, rfl, rfl⟩
  obtain ⟨hchain, htipHeight, htail, htipField⟩ := hfields
  have hnext : w'.nextHeight = w.nextHeight + 1 := by
    have hle := hmain.height_le _ _ hb
    rw [UInt32.le_iff_toNat_le] at hle
    have hone : (1 : UInt32).toNat = 1 := rfl
    have hlt := s.tipHeight.toNat_lt
    have hmax : s.tipHeight.toNat ≠ 4294967295 := fun hn ↦ htip (UInt32.toNat_inj.1 hn)
    rw [WalletStateBasic.nextHeight, htipHeight, UInt32.toNat_add, hone,
      WalletStateBasic.nextHeight]
    exact Nat.mod_eq_of_lt (by omega)
  refine ⟨⟨?_, ?_, ?_, ?_, ?_⟩, htail, hnext⟩
  · rw [htail]
    exact .apply b h.run hok
  · rw [htail, List.length_cons]
    omega
  · intro height header hget
    rw [hchain, Store.get_put] at hget
    rw [htail]
    split at hget
    · next heq =>
      have hnat : w.nextHeight = height.toNat := congrArg UInt32.toNat heq
      omega
    · have hold := h.window height header hget
      omega
  · intro height hle hlt
    rw [htail] at hle
    by_cases heq : w.tipHeight + 1 = height
    · have hnat : w.nextHeight = height.toNat := congrArg UInt32.toNat heq
      refine ⟨b, ?_, ?_, heq ▸ hb⟩
      · rw [show w'.nextHeight - 1 - height.toNat = 0 by omega, List.getElem?_cons_zero]
      · rw [hchain, heq, Store.get_put_self]
    · have hne : w.nextHeight ≠ height.toNat := fun hnat ↦ heq (UInt32.toNat_inj.1 hnat)
      obtain ⟨b', hb', hget, hmain'⟩ := h.block height hle (by omega)
      refine ⟨b', ?_, by rw [hchain, Store.get_put_of_ne _ _ heq, hget], hmain'⟩
      rw [show w'.nextHeight - 1 - height.toNat = (w.nextHeight - 1 - height.toNat) + 1 by omega,
        List.getElem?_cons_succ, hb']
  · intro _
    rw [hchain, htipHeight, htipField, Store.get_put_self]

/-- An empty chain that starts at another height. -/
theorem Follows.resetChain (h : w.Follows wc c s []) {start : Height}
    (hok : w.resetChain start = .ok w') :
    w'.Follows wc c t [] ∧ w'.tailHeight = start ∧ w'.nextHeight = start.toNat := by
  have hrun := WalletRun.reset h.run hok
  simp only [WalletStateBasic.resetChain, bind_eq_ok_iff, throwing_eq_ok_iff,
    invariant_eq_ok_iff] at hok
  obtain ⟨-, -, hok⟩ := hok
  have hempty : start - 1 + 1 = start := by grind
  rw [← Except.ok.inj hok] at hrun ⊢
  exact ⟨follows_of_empty hrun hempty h.chain_eq_empty, rfl, congrArg UInt32.toNat hempty⟩

end WalletStateBasic

/-- Two main chains with a common block are the same below it. -/
theorem SameParents.agree_below (h : SameParents s t) (hs : MainChain c s) (ht : MainChain c t)
    {height : Height} {bid : Hash} (hsget : s.db.chain.get height = some bid)
    (htget : t.db.chain.get height = some bid) {k : Height} (hk : k ≤ height) :
    t.db.chain.get k = s.db.chain.get k := by
  induction hn : height.toNat generalizing height bid with
  | zero =>
    rw [UInt32.le_iff_toNat_le] at hk
    obtain rfl : k = height := UInt32.toNat_inj.1 (by omega)
    rw [hsget, htget]
  | succ n ih =>
    by_cases heq : k = height
    · rw [heq, hsget, htget]
    · have hne : height ≠ 0 := by
        rintro rfl
        cases hn
      have hone : (1 : UInt32).toNat = 1 := rfl
      have hpred : (height - 1).toNat = n := by
        rw [UInt32.toNat_sub_of_le _ _ (UInt32.le_iff_toNat_le.2 (by omega)), hn]
        omega
      obtain ⟨info, hinfo, -, hbefore⟩ := hs.header height bid hsget
      obtain ⟨info', hinfo', -, hbefore'⟩ := ht.header height bid htget
      have hprev := h bid info info' hinfo hinfo'
      refine ih (hbefore hne) (hprev ▸ hbefore' hne) ?_ hpred
      rw [UInt32.le_iff_toNat_le] at hk ⊢
      have hnat : k.toNat ≠ height.toNat := fun hnat ↦ heq (UInt32.toNat_inj.1 hnat)
      omega

namespace WalletStateBasic

/-- A wallet whose tip is on another main chain follows that one, too. -/
theorem Follows.change (h : w.Follows wc c s processed) (hsame : SameParents s t)
    (hs : MainChain c s) (ht : MainChain c t) (hne : processed ≠ [])
    (htip : t.db.chain.get w.tipHeight = some w.tip.hash) :
    w.Follows wc c t processed ∧
      ∀ k : Height, k.toNat < w.nextHeight → t.db.chain.get k = s.db.chain.get k := by
  have hcount := h.count
  have hlength := List.length_pos_iff.2 hne
  have htipNat := tipHeight_toNat (w := w) (by omega)
  obtain ⟨b, -, hget, hmain⟩ := h.block w.tipHeight (by omega) (by omega)
  rw [h.tip hne, Option.some.injEq] at hget
  rw [hget] at htip
  have hagree : ∀ k : Height, k.toNat < w.nextHeight →
      t.db.chain.get k = s.db.chain.get k := fun k hk ↦
    hsame.agree_below hs ht hmain htip (UInt32.le_iff_toNat_le.2 (by omega))
  refine ⟨⟨h.run, h.count, h.window, fun height hle hlt ↦ ?_, h.tip⟩, hagree⟩
  obtain ⟨b', hb', hget', hmain'⟩ := h.block height hle hlt
  exact ⟨b', hb', hget', (hagree height hlt).trans hmain'⟩

/-- The locators of a wallet locate the main chain that it follows, below its tip. -/
theorem Follows.getSparseChain (h : w.Follows wc c s processed) (hs : MainChain c s)
    {locator : List Hash} (hok : w.getSparseChain c = .ok locator) :
    Locates c s locator ∧ ∀ bid ∈ locator, ∀ height : Height,
      s.db.chain.get height = some bid → height = 0 ∨ height.toNat < w.nextHeight := by
  simp only [WalletStateBasic.getSparseChain, bind_eq_ok_iff] at hok
  obtain ⟨tipPath, hpath, hok⟩ := hok
  have hread : ∀ height bid, Api.BlockHeader.hash <$> w.readChain height = .ok bid →
      w.tailHeight ≤ height ∧ height.toNat < w.nextHeight ∧
        s.db.chain.get height = some bid := by
    intro height bid hread
    cases hget : w.readChain height with
    | error e =>
      rw [hget] at hread
      cases hread
    | ok header =>
      rw [hget] at hread
      have hheader := expect_eq_ok_iff.1 hget
      obtain ⟨hle, hlt⟩ := h.window height header hheader
      obtain ⟨b, -, hb, hmain⟩ := h.block height hle hlt
      rw [hheader, Option.some.injEq] at hb
      rw [← hb] at hmain
      exact ⟨UInt32.le_iff_toNat_le.2 hle, hlt, hmain.trans (congrArg some (Except.ok.inj hread))⟩
  rw [← Except.ok.inj hok]
  have hon : ∀ bid ∈ tipPath, ∃ height, s.db.chain.get height = some bid ∧
      height.toNat < w.nextHeight := by
    intro bid hmem
    split at hpath
    · obtain ⟨height, hheight⟩ := sparseEntries_mem hpath bid hmem
      obtain ⟨-, hlt, hmain⟩ := hread height bid hheight
      exact ⟨height, hmain, hlt⟩
    · rw [← Except.ok.inj hpath] at hmem
      cases hmem
  refine ⟨?_, fun bid hmem height hget ↦ ?_⟩
  · split at hpath
    · refine Locates.of_sparseEntries hs (fun height bid hheight ↦ ?_) hpath
      obtain ⟨hle, hlt, hmain⟩ := hread height bid hheight
      have htip := tipHeight_toNat (w := w) (by omega)
      exact ⟨hle, UInt32.le_iff_toNat_le.2 (by omega), hmain⟩
    · rw [← Except.ok.inj hpath]
      refine ⟨?_, ?_, by simp [withGenesis]⟩
      · intro bid hmem
        rw [withGenesis, if_neg (by simp), List.nil_append, List.mem_singleton] at hmem
        exact ⟨0, hmem ▸ hs.root⟩
      · rw [withGenesis, if_neg (by simp)]
        exact List.pairwise_singleton _ _
  · have hcases : bid ∈ tipPath ∨ bid = c.genesisBlockHash := by
      unfold withGenesis at hmem
      split at hmem
      · exact .inl hmem
      · simpa using hmem
    rcases hcases with hmem | rfl
    · obtain ⟨height', hget', hlt⟩ := hon bid hmem
      rw [hs.height_unique hget hget']
      exact .inr hlt
    · exact .inl (hs.height_unique hget hs.root)

end WalletStateBasic

end Naza
