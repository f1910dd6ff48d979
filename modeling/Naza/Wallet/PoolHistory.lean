import Naza.Wallet.PaymentQueue
import Naza.Wallet.Transfers

/-!
# The memory pool behind the pages

`get_transfers` adds the block of the memory pool to a page that reaches over the tip.  In either
direction the pages asked for one after the other have it once at most, and the recorded history is
not touched by it.
-/

open Lib

namespace Naza

namespace WalletState

variable (w : WalletState) (address : String) (forward : Bool)

/-- `api_get_pool_as_history`. -/
def apiGetPoolAsHistory : Api.Block where
  header := { height := w.base.tipHeight + 1 }
  transactions := w.memoryState.transactions.toList.map fun hit ↦
    let tx := { hit.2.2 with blockHeight := w.base.tipHeight + 1 }
    if address = "" then tx
    else { tx with transfers := tx.transfers.filter fun transfer ↦ transfer.address = address }

/-- The interval that `api_get_transfers` leaves reaches over the tip. -/
def reachesOverTip (bounds : Height × Height) : Bool :=
  bounds.1 < w.base.tipHeight ∧ w.base.tipHeight ≤ bounds.2

/-- `handle_get_transfers3` for an address of the wallet. -/
def handleGetTransfers3 (fromHeight toHeight : Height) (desiredTransactionsCount : UInt32) :
    Except WalletFault WalletStateBasic.TransfersPage := do
  let bounds :=
    (w.base.apiGetTransfers address forward fromHeight toHeight desiredTransactionsCount).2
  let poolBlock := w.apiGetPoolAsHistory address
  let page ← w.base.handleGetTransfers3 address forward fromHeight toHeight
    desiredTransactionsCount
  if w.reachesOverTip bounds = true ∧ poolBlock.transactions ≠ [] then
    return { page with
      blocks := if forward then page.blocks ++ [poolBlock] else poolBlock :: page.blocks }
  else return page

/-- Pages asked for until the interval is empty; `none` where `n` pages are not enough. -/
def transferPages (desiredTransactionsCount : UInt32) :
    ℕ → Height → Height → Except WalletFault (Option (List WalletStateBasic.TransfersPage))
  | 0, fromHeight, toHeight => .ok (if toHeight ≤ fromHeight then some [] else none)
  | n + 1, fromHeight, toHeight =>
    if toHeight ≤ fromHeight then .ok (some [])
    else do
      let page ← w.handleGetTransfers3 address forward fromHeight toHeight desiredTransactionsCount
      let rest ← transferPages desiredTransactionsCount n page.nextFromHeight page.nextToHeight
      return rest.map (page :: ·)

end WalletState

namespace WalletStateBasic

variable {s : WalletStateBasic} {address : String} {forward : Bool}

/-! ## The bounds of a page -/

/-- The walk moves one bound only, and leaves it on its side of the other. -/
theorem bounds_transfersFrom {desired : ℕ} {fromHeight toHeight : Height}
    {entries : List (Height × Hash)} {currentBlock : Api.Block} {total : ℕ}
    (hle : fromHeight ≤ toHeight)
    (hentries : ∀ e ∈ entries, if forward then fromHeight < e.1 else e.1 ≤ toHeight) :
    let bounds := (s.transfersFrom address forward desired fromHeight toHeight entries
      currentBlock total).2
    if forward then bounds.1 = fromHeight ∧ fromHeight ≤ bounds.2
    else bounds.2 = toHeight ∧ bounds.1 ≤ toHeight := by
  have hend : if forward then fromHeight = fromHeight ∧ fromHeight ≤ toHeight
      else toHeight = toHeight ∧ fromHeight ≤ toHeight := by
    split
    · exact ⟨rfl, hle⟩
    · exact ⟨rfl, hle⟩
  induction entries generalizing currentBlock total with
  | nil => exact hend
  | cons e entries ih =>
    obtain ⟨height, tid⟩ := e
    have hfirst := hentries _ List.mem_cons_self
    have hentries' : ∀ e ∈ entries, if forward then fromHeight < e.1 else e.1 ≤ toHeight :=
      fun e he ↦ hentries e (List.mem_cons_of_mem _ he)
    rw [transfersFrom]
    split
    · exact hend
    · split
      · split
        · -- the page ends before this block
          cases forward with
          | true =>
            refine ⟨rfl, ?_⟩
            have hlt : fromHeight < height := hfirst
            change fromHeight ≤ height - 1
            grind
          | false => exact ⟨rfl, hfirst⟩
        · exact ih hentries'
      · exact ih hentries'

theorem bounds_apiGetTransfers {desired : UInt32} {fromHeight toHeight : Height}
    (hlt : fromHeight < toHeight) :
    let bounds := (s.apiGetTransfers address forward fromHeight toHeight desired).2
    if forward then bounds.1 = fromHeight ∧ fromHeight ≤ bounds.2
    else bounds.2 = toHeight ∧ bounds.1 ≤ toHeight := by
  have hcursor : ∀ e ∈ s.historyCursor address forward fromHeight toHeight,
      if forward then fromHeight < e.1 else e.1 ≤ toHeight := by
    intro e he
    unfold historyCursor at he
    cases forward with
    | true =>
      have hnext : fromHeight + 1 ≤ e.1 := of_decide_eq_true (List.mem_filter.1 he).2
      change fromHeight < e.1
      grind
    | false => exact of_decide_eq_true (List.mem_filter.1 (List.mem_reverse.1 he)).2
  rw [apiGetTransfers, if_neg (UInt32.not_le.2 hlt)]
  exact bounds_transfersFrom (UInt32.le_of_lt hlt) hcursor

/-- A page hands on the bounds that the walk leaves. -/
theorem next_handleGetTransfers3 {desired : UInt32} {fromHeight toHeight : Height}
    {page : TransfersPage}
    (hok : s.handleGetTransfers3 address forward fromHeight toHeight desired = .ok page) :
    let bounds := (s.apiGetTransfers address forward fromHeight toHeight desired).2
    page.nextFromHeight = (if forward then bounds.2 else fromHeight) ∧
      page.nextToHeight = (if forward then toHeight else bounds.1) := by
  rw [handleGetTransfers3] at hok
  obtain ⟨_, -, hok⟩ := bind_eq_ok_iff.1 hok
  cases hok
  exact ⟨rfl, rfl⟩

end WalletStateBasic

namespace WalletState

variable {w : WalletState} {address : String} {forward : Bool}

/-! ## The block of the memory pool -/

/-- The pages still to come do not reach the tip from below. -/
def PastTip (w : WalletState) (forward : Bool) (fromHeight toHeight : Height) : Prop :=
  if forward then w.base.tipHeight ≤ fromHeight else toHeight < w.base.tipHeight

/-- A block is added to others at one place, or not at all. -/
def AddsOnce {α : Type*} (a : α) (recorded shown : List α) : Prop :=
  shown = recorded ∨
    ∃ before after, recorded = before ++ after ∧ shown = before ++ a :: after

theorem AddsOnce.append {α : Type*} {a : α} {recorded shown : List α}
    (h : AddsOnce a recorded shown) (l : List α) : AddsOnce a (l ++ recorded) (l ++ shown) := by
  rcases h with rfl | ⟨before, after, rfl, rfl⟩
  · exact Or.inl rfl
  · exact Or.inr ⟨l ++ before, after, by simp, by simp⟩

/-- The pool's block stands on a page that reaches over the tip; the rest is the recorded page. -/
theorem handleGetTransfers3_eq {desired : UInt32} {fromHeight toHeight : Height}
    {page : WalletStateBasic.TransfersPage}
    (hok : w.handleGetTransfers3 address forward fromHeight toHeight desired = .ok page) :
    ∃ recorded, w.base.handleGetTransfers3 address forward fromHeight toHeight desired =
        .ok recorded ∧
      page.nextFromHeight = recorded.nextFromHeight ∧
      page.nextToHeight = recorded.nextToHeight ∧
      (page.blocks = recorded.blocks ∨
        w.reachesOverTip
          (w.base.apiGetTransfers address forward fromHeight toHeight desired).2 = true ∧
        AddsOnce (w.apiGetPoolAsHistory address) recorded.blocks page.blocks) := by
  obtain ⟨recorded, hrecorded, hok⟩ := bind_eq_ok_iff.1 hok
  refine ⟨recorded, hrecorded, ?_⟩
  split at hok
  · next hreaches =>
    cases hok
    refine ⟨rfl, rfl, Or.inr ⟨hreaches.1, Or.inr ?_⟩⟩
    cases forward with
    | true => exact ⟨recorded.blocks, [], (List.append_nil _).symm, rfl⟩
    | false => exact ⟨[], recorded.blocks, rfl, rfl⟩
  · cases hok
    exact ⟨rfl, rfl, Or.inl rfl⟩

/-- Where the pages are past the tip they stay so, and none reaches over it. -/
theorem PastTip.next {desired : UInt32} {fromHeight toHeight : Height}
    (hlt : fromHeight < toHeight) (hpast : w.PastTip forward fromHeight toHeight) :
    let bounds := (w.base.apiGetTransfers address forward fromHeight toHeight desired).2
    w.reachesOverTip bounds = false ∧
      w.PastTip forward (if forward then bounds.2 else fromHeight)
        (if forward then toHeight else bounds.1) := by
  have hbounds := @WalletStateBasic.bounds_apiGetTransfers w.base address forward desired _ _ hlt
  cases forward with
  | true =>
    obtain ⟨hfrom, hle⟩ := hbounds
    have htip : w.base.tipHeight ≤ fromHeight := hpast
    refine ⟨decide_eq_false fun hreaches ↦ ?_, UInt32.le_trans htip hle⟩
    rw [hfrom] at hreaches
    exact UInt32.not_le.2 hreaches.1 htip
  | false =>
    obtain ⟨hto, hle⟩ := hbounds
    have htip : toHeight < w.base.tipHeight := hpast
    refine ⟨decide_eq_false fun hreaches ↦ ?_, UInt32.lt_of_le_of_lt hle htip⟩
    rw [hto] at hreaches
    exact UInt32.not_le.2 htip hreaches.2

/-- A page that reaches over the tip leaves the next one past it. -/
theorem pastTip_of_reachesOverTip {bounds : Height × Height} {fromHeight toHeight : Height}
    (hreaches : w.reachesOverTip bounds = true) :
    w.PastTip forward (if forward then bounds.2 else fromHeight)
      (if forward then toHeight else bounds.1) := by
  obtain ⟨hfrom, hto⟩ := of_decide_eq_true hreaches
  cases forward with
  | true => exact hto
  | false => exact hfrom

/-- Pages asked for one after the other are the pages of the recorded history, with the block of
the memory pool on one of them at most. -/
theorem transferPages_addsOnce {desired : UInt32} :
    ∀ {n : ℕ} {fromHeight toHeight : Height} {pages : List WalletStateBasic.TransfersPage},
      w.transferPages address forward desired n fromHeight toHeight = .ok (some pages) →
      ∃ recorded, w.base.transferPages address forward desired n fromHeight toHeight =
          .ok (some recorded) ∧
        AddsOnce (w.apiGetPoolAsHistory address)
          (recorded.flatMap WalletStateBasic.TransfersPage.blocks)
          (pages.flatMap WalletStateBasic.TransfersPage.blocks) ∧
        (w.PastTip forward fromHeight toHeight →
          pages.flatMap WalletStateBasic.TransfersPage.blocks =
            recorded.flatMap WalletStateBasic.TransfersPage.blocks) := by
  intro n
  induction n with
  | zero =>
    intro fromHeight toHeight pages hok
    refine ⟨pages, hok, Or.inl rfl, fun _ ↦ rfl⟩
  | succ n ih =>
    intro fromHeight toHeight pages hok
    rw [transferPages] at hok
    split at hok
    · next hle =>
      cases hok
      exact ⟨[], by rw [WalletStateBasic.transferPages, if_pos hle], Or.inl rfl, fun _ ↦ rfl⟩
    · next hlt =>
      obtain ⟨page, hpage, hok⟩ := bind_eq_ok_iff.1 hok
      obtain ⟨rest, hrest, hok⟩ := bind_eq_ok_iff.1 hok
      cases rest with
      | none => cases hok
      | some rest =>
        cases hok
        obtain ⟨first, hfirst, hnextFrom, hnextTo, hblocks⟩ := handleGetTransfers3_eq hpage
        obtain ⟨recorded, hrecorded, honce, hpast⟩ := ih hrest
        obtain ⟨hfrom, hto⟩ := WalletStateBasic.next_handleGetTransfers3 hfirst
        rw [hnextFrom, hnextTo] at hrecorded hpast
        rw [hfrom, hto] at hpast
        refine ⟨first :: recorded, ?_, ?_, fun hbegun ↦ ?_⟩
        · rw [WalletStateBasic.transferPages, if_neg hlt, hfirst]
          exact bind_eq_ok_iff.2 ⟨first, rfl, bind_eq_ok_iff.2 ⟨some recorded, hrecorded, rfl⟩⟩
        · rw [List.flatMap_cons, List.flatMap_cons]
          rcases hblocks with heq | ⟨hreaches, hadds⟩
          · rw [heq]
            exact honce.append _
          · -- the later pages are past the tip
            rw [hpast (pastTip_of_reachesOverTip hreaches)]
            rcases hadds with heq | ⟨before, after, heq, heq'⟩
            · exact Or.inl (by rw [heq])
            · exact Or.inr ⟨before, after ++ _, by rw [heq, List.append_assoc],
                by rw [heq', List.append_assoc, List.cons_append]⟩
        · obtain ⟨hreaches, hnext⟩ := hbegun.next (UInt32.not_le.1 hlt)
          rw [List.flatMap_cons, List.flatMap_cons, hpast hnext]
          rcases hblocks with heq | ⟨hover, -⟩
          · rw [heq]
          · exact absurd hover (by rw [hreaches]; decide)

end WalletState

end Naza
