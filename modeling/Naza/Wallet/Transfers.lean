import Naza.Wallet.Spendable

/-!
# Pages of transfers

`api_get_transfers` walks over the history of an address in either direction and ends a page with
the block in which the desired number of transactions is reached; `get_transfers` hands on the
bound at which the next page starts.  Pages asked for one after the other have every transaction
once, block by block, and every unlocked output once.
-/

open Lib

namespace Naza

structure Api.Block where
  header : Api.BlockHeader := {}
  transactions : List Api.Transaction := []

namespace WalletStateBasic

variable (s : WalletStateBasic) (address : String) (forward : Bool)

/-! ## One page -/

/-- The header that `read_chain` fills in. -/
def headerAt (height : Height) : Api.BlockHeader := (s.chain.get height).getD {}

/-- A transaction with the transfers of the address. -/
def shownTransaction (tid : Hash) : Api.Transaction :=
  let tx := (s.tables.transactions.table.get tid).elim {} Prod.snd
  if address = "" then tx
  else { tx with transfers := tx.transfers.filter fun transfer ↦ transfer.address = address }

/-- The cursor over the history of the address: forward from the first height behind `fromHeight`,
or back from the last one up to `toHeight`. -/
def historyCursor (fromHeight toHeight : Height) : List (Height × Hash) :=
  let entries := (s.tables.history.table.toList.filter fun e ↦ e.1.1 = address).map fun e ↦ e.1.2
  if forward then entries.filter fun e ↦ fromHeight + 1 ≤ e.1
  else (entries.filter fun e ↦ e.1 ≤ toHeight).reverse

/-- The loop of `api_get_transfers`: the blocks, and the bounds as it leaves them. -/
def transfersFrom (desiredTxCount : ℕ) (fromHeight toHeight : Height) :
    List (Height × Hash) → Api.Block → ℕ → List Api.Block × Height × Height
  | [], currentBlock, _ =>
    (if currentBlock.transactions = [] then [] else [currentBlock], fromHeight, toHeight)
  | (height, tid) :: rest, currentBlock, totalTransactionsFound =>
    if forward = true ∧ toHeight < height ∨ forward = false ∧ height ≤ fromHeight then
      (if currentBlock.transactions = [] then [] else [currentBlock], fromHeight, toHeight)
    else if currentBlock.header.height ≠ height ∧ currentBlock.transactions ≠ [] then
      if desiredTxCount ≤ totalTransactionsFound then
        ([currentBlock], if forward then (fromHeight, height - 1) else (height, toHeight))
      else
        let (blocks, bounds) := transfersFrom desiredTxCount fromHeight toHeight rest
          { header := s.headerAt height, transactions := [s.shownTransaction address tid] }
          (totalTransactionsFound + 1)
        (currentBlock :: blocks, bounds)
    else
      transfersFrom desiredTxCount fromHeight toHeight rest
        { header := if currentBlock.transactions = [] then s.headerAt height
            else currentBlock.header
          transactions := currentBlock.transactions ++ [s.shownTransaction address tid] }
        (totalTransactionsFound + 1)

/-- `api_get_transfers`. -/
def apiGetTransfers (fromHeight toHeight : Height) (desiredTxCount : UInt32) :
    List Api.Block × Height × Height :=
  if toHeight ≤ fromHeight then ([], fromHeight, toHeight)
  else s.transfersFrom address forward desiredTxCount.toNat fromHeight toHeight
    (s.historyCursor address forward fromHeight toHeight) {} 0

/-- `api::walletd::GetTransfers::Response`. -/
structure TransfersPage where
  blocks : List Api.Block
  unlockedTransfers : List Api.Transfer
  nextFromHeight : Height
  nextToHeight : Height

/-- `handle_get_transfers3` for an address of the wallet, without the block of the memory pool that
it adds where the interval reaches over the tip. -/
def handleGetTransfers3 (fromHeight toHeight : Height) (desiredTransactionsCount : UInt32) :
    Except WalletFault TransfersPage := do
  let (blocks, requestFrom, requestTo) :=
    s.apiGetTransfers address forward fromHeight toHeight desiredTransactionsCount
  let unlockedOutputs ← s.tables.apiGetUnlockedOutputs address requestFrom requestTo
  return {
    blocks
    unlockedTransfers := unlockedOutputs.toList.map fun lou ↦
      { ours := true, amount := lou.2.amount.toInt64, address := lou.2.address, outputs := [lou.2] }
    nextFromHeight := if forward then requestTo else fromHeight
    nextToHeight := if forward then toHeight else requestFrom }

/-- Pages asked for until the interval is empty; `none` where `n` pages are not enough. -/
def transferPages (desiredTransactionsCount : UInt32) :
    ℕ → Height → Height → Except WalletFault (Option (List TransfersPage))
  | 0, fromHeight, toHeight => .ok (if toHeight ≤ fromHeight then some [] else none)
  | n + 1, fromHeight, toHeight =>
    if toHeight ≤ fromHeight then .ok (some [])
    else do
      let page ← s.handleGetTransfers3 address forward fromHeight toHeight desiredTransactionsCount
      let rest ← transferPages desiredTransactionsCount n page.nextFromHeight page.nextToHeight
      return rest.map (page :: ·)

/-! ## The blocks of a page -/

variable {s address forward}

/-- The order in which heights come. -/
def Before (forward : Bool) (a b : Height) : Prop := if forward then a < b else b < a

theorem Before.trans {a b c : Height} (hab : Before forward a b) (hbc : Before forward b c) :
    Before forward a c := by
  cases forward with
  | true => exact UInt32.lt_trans (a := a) hab hbc
  | false => exact UInt32.lt_trans (a := c) hbc hab

/-- The walk has passed the interval. -/
def passed (forward : Bool) (fromHeight toHeight height : Height) : Bool :=
  forward = true ∧ toHeight < height ∨ forward = false ∧ height ≤ fromHeight

/-- The transactions of blocks with their heights. -/
def heightsAndTransactions (blocks : List Api.Block) : List (Height × Api.Transaction) :=
  blocks.flatMap fun b ↦ b.transactions.map fun tx ↦ (b.header.height, tx)

/-- Blocks that follow each other. -/
def Ordered (forward : Bool) (blocks : List Api.Block) : Prop :=
  blocks.Pairwise fun a b ↦ Before forward a.header.height b.header.height

/-- How a page ends: at the end of the interval, or before a height with the bound moved there. -/
def EndsBefore (forward : Bool) (fromHeight toHeight : Height) (rest : List (Height × Hash))
    (bounds : Height × Height) : Prop :=
  match rest with
  | [] => bounds = (fromHeight, toHeight)
  | e :: _ => bounds = if forward then (fromHeight, e.1 - 1) else (e.1, toHeight)

/-- What the loop makes of the transactions before it, with a block begun. -/
structure Paged (s : WalletStateBasic) (address : String) (forward : Bool)
    (fromHeight toHeight : Height) (entries : List (Height × Hash)) (currentBlock : Api.Block)
    (taken rest : List (Height × Hash)) (r : List Api.Block × Height × Height) : Prop where
  split : entries.takeWhile (fun e ↦ !passed forward fromHeight toHeight e.1) = taken ++ rest
  transactions : heightsAndTransactions r.1 = heightsAndTransactions [currentBlock] ++
    taken.map fun e ↦ (e.1, s.shownTransaction address e.2)
  ordered : Ordered forward r.1
  blocks : ∀ b ∈ r.1, b.transactions ≠ []
  after : currentBlock.transactions ≠ [] → ∀ b ∈ r.1,
    b.header.height = currentBlock.header.height ∨
      Before forward currentBlock.header.height b.header.height
  bounds : EndsBefore forward fromHeight toHeight rest r.2
  cut : ∀ e ∈ rest.head?, (∀ e' ∈ taken, Before forward e'.1 e.1) ∧
    (currentBlock.transactions ≠ [] → Before forward currentBlock.header.height e.1)
  progress : currentBlock.transactions = [] → taken = [] → rest = []

/-- Where the walk has passed the interval the begun block is closed. -/
theorem paged_of_passed {fromHeight toHeight : Height} {entries : List (Height × Hash)}
    (currentBlock : Api.Block)
    (hnil : entries.takeWhile (fun e ↦ !passed forward fromHeight toHeight e.1) = []) :
    Paged s address forward fromHeight toHeight entries currentBlock [] []
      (if currentBlock.transactions = [] then [] else [currentBlock], fromHeight, toHeight) := by
  refine ⟨hnil, ?_, ?_, ?_, ?_, rfl, by simp, fun _ _ ↦ rfl⟩
  · split
    · next hempty => simp [heightsAndTransactions, hempty]
    · simp
  · split
    · exact List.Pairwise.nil
    · exact List.pairwise_singleton _ _
  · intro b hb
    split at hb
    · exact absurd hb List.not_mem_nil
    · next hne => rwa [List.mem_singleton.1 hb]
  · intro hne b hb
    rw [if_neg hne] at hb
    exact Or.inl (by rw [List.mem_singleton.1 hb])

theorem transfersFrom_spec {desiredTxCount : ℕ} {fromHeight toHeight : Height}
    {entries : List (Height × Hash)} {currentBlock : Api.Block} {total : ℕ}
    (hheaders : ∀ e ∈ entries, (s.headerAt e.1).height = e.1)
    (hsorted : entries.Pairwise fun a b ↦ a.1 = b.1 ∨ Before forward a.1 b.1)
    (hcurrent : currentBlock.transactions ≠ [] → ∀ e ∈ entries,
      currentBlock.header.height = e.1 ∨ Before forward currentBlock.header.height e.1) :
    ∃ taken rest, Paged s address forward fromHeight toHeight entries currentBlock taken rest
      (s.transfersFrom address forward desiredTxCount fromHeight toHeight entries currentBlock
        total) := by
  induction entries generalizing currentBlock total with
  | nil => exact ⟨[], [], paged_of_passed currentBlock rfl⟩
  | cons e entries ih =>
    obtain ⟨height, tid⟩ := e
    obtain ⟨hfirst, hsorted⟩ := List.pairwise_cons.1 hsorted
    have hheader : (s.headerAt height).height = height := hheaders _ List.mem_cons_self
    have hheaders' : ∀ e ∈ entries, (s.headerAt e.1).height = e.1 :=
      fun e he ↦ hheaders e (List.mem_cons_of_mem _ he)
    rw [transfersFrom]
    split
    · next hpassed =>
      refine ⟨[], [], paged_of_passed currentBlock ?_⟩
      rw [List.takeWhile_cons_of_neg (by simp [passed, hpassed])]
    · next hinside =>
      have htake : ((height, tid) :: entries).takeWhile
            (fun e ↦ !passed forward fromHeight toHeight e.1) =
          (height, tid) :: entries.takeWhile
            (fun e ↦ !passed forward fromHeight toHeight e.1) :=
        List.takeWhile_cons_of_pos (by simp [passed, hinside])
      split
      · next hother =>
        obtain ⟨hne, hbegun⟩ := hother
        have hbefore : Before forward currentBlock.header.height height :=
          (hcurrent hbegun _ List.mem_cons_self).resolve_left hne
        split
        · exact ⟨[], _, {
            split := htake
            transactions := by simp
            ordered := List.pairwise_singleton _ _
            blocks := fun b hb ↦ by rwa [List.mem_singleton.1 hb]
            after := fun _ b hb ↦ Or.inl (by rw [List.mem_singleton.1 hb])
            bounds := rfl
            cut := fun e he ↦ by
              cases he
              exact ⟨by simp, fun _ ↦ hbefore⟩
            progress := fun hempty ↦ absurd hempty hbegun }⟩
        · -- the block is closed, and the next one begun
          obtain ⟨taken, rest, h⟩ := @ih {
            header := s.headerAt height, transactions := [s.shownTransaction address tid] }
            (total + 1) hheaders' hsorted fun _ e he ↦ by
              rw [hheader]
              exact hfirst e he
          have hafter := h.after (by simp)
          rw [hheader] at hafter
          refine ⟨(height, tid) :: taken, rest, {
            split := by rw [htake, h.split, List.cons_append]
            transactions := ?_
            ordered := List.pairwise_cons.2 ⟨fun b hb ↦ ?_, h.ordered⟩
            blocks := ?_
            after := ?_
            bounds := h.bounds
            cut := fun e he ↦ ?_
            progress := fun hempty ↦ absurd hempty hbegun }⟩
          · have htransactions := h.transactions
            simp only [heightsAndTransactions] at htransactions ⊢
            rw [List.flatMap_cons, htransactions]
            simp [hheader]
          · rcases hafter b hb with heq | hlater
            · rwa [heq]
            · exact hbefore.trans hlater
          · intro b hb
            rcases List.mem_cons.1 hb with rfl | hb
            · exact hbegun
            · exact h.blocks b hb
          · intro _ b hb
            rcases List.mem_cons.1 hb with rfl | hb
            · exact Or.inl rfl
            · rcases hafter b hb with heq | hlater
              · exact Or.inr (heq ▸ hbefore)
              · exact Or.inr (hbefore.trans hlater)
          · obtain ⟨htaken, hcut⟩ := h.cut e he
            have hnext := hcut (by simp)
            rw [hheader] at hnext
            refine ⟨fun e' he' ↦ ?_, fun _ ↦ hbefore.trans hnext⟩
            rcases List.mem_cons.1 he' with rfl | he'
            · exact hnext
            · exact htaken e' he'
      · next hsame =>
        -- one more transaction of the block
        have hheight : (if currentBlock.transactions = [] then s.headerAt height
            else currentBlock.header).height = height := by
          split
          · exact hheader
          · next hbegun => exact not_not.1 fun hne ↦ hsame ⟨hne, hbegun⟩
        obtain ⟨taken, rest, h⟩ := @ih {
          header := if currentBlock.transactions = [] then s.headerAt height
            else currentBlock.header
          transactions := currentBlock.transactions ++ [s.shownTransaction address tid] }
          (total + 1) hheaders' hsorted fun _ e he ↦ by
            rw [hheight]
            exact hfirst e he
        have hafter := h.after (by simp)
        have hcut := h.cut
        dsimp only at hafter hcut
        rw [hheight] at hafter hcut
        refine ⟨(height, tid) :: taken, rest, {
          split := by rw [htake, h.split, List.cons_append]
          transactions := ?_
          ordered := h.ordered
          blocks := h.blocks
          after := fun hbegun b hb ↦ ?_
          bounds := h.bounds
          cut := fun e he ↦ ?_
          progress := fun _ hnil ↦ absurd hnil (by simp) }⟩
        · have htransactions := h.transactions
          simp only [heightsAndTransactions] at htransactions ⊢
          rw [htransactions]
          by_cases hempty : currentBlock.transactions = []
          · simp [hempty, hheader]
          · rw [if_neg hempty] at hheight
            simp [hempty, hheight]
        · have hcurrentHeight : currentBlock.header.height = height :=
            not_not.1 fun hne ↦ hsame ⟨hne, hbegun⟩
          rw [hcurrentHeight]
          exact hafter b hb
        · obtain ⟨htaken, hnext⟩ := hcut e he
          have hnext := hnext (by simp)
          refine ⟨fun e' he' ↦ ?_, fun hbegun ↦ ?_⟩
          · rcases List.mem_cons.1 he' with rfl | he'
            · exact hnext
            · exact htaken e' he'
          · have hcurrentHeight : currentBlock.header.height = height :=
              not_not.1 fun hne ↦ hsame ⟨hne, hbegun⟩
            rwa [hcurrentHeight]

/-! ## The history of an address -/

/-- The transactions of an address recorded in an interval of heights, in ascending order. -/
def recorded (s : WalletStateBasic) (address : String) (fromHeight toHeight : Height) :
    List (Height × Hash) :=
  ((s.tables.history.table.toList.filter fun e ↦ e.1.1 = address).map fun e ↦ e.1.2).filter
    fun e ↦ fromHeight < e.1 ∧ e.1 ≤ toHeight

/-- The same in the order asked for. -/
def recordedInOrder (s : WalletStateBasic) (address : String) (forward : Bool)
    (fromHeight toHeight : Height) : List (Height × Hash) :=
  if forward then s.recorded address fromHeight toHeight
  else (s.recorded address fromHeight toHeight).reverse

/-- A cursor reads the history of an address by height. -/
theorem pairwise_history (s : WalletStateBasic) (address : String) :
    ((s.tables.history.table.toList.filter fun e ↦ e.1.1 = address).map fun e ↦ e.1.2).Pairwise
      fun a b ↦ a.1 ≤ b.1 := by
  rw [List.pairwise_map]
  have hsorted := (Store.pairwise_toList s.tables.history.table).filter
    fun e ↦ decide (e.1.1 = address)
  refine hsorted.imp_of_mem ?_
  rintro ⟨⟨a, h, tid⟩, _⟩ ⟨⟨a', h', tid'⟩, _⟩ hmem hmem' hlt
  obtain rfl : a = address := of_decide_eq_true (List.mem_filter.1 hmem).2
  obtain rfl : a' = a := of_decide_eq_true (List.mem_filter.1 hmem').2
  change (compare a' a').then ((compare h h').then (compare tid tid')) = .lt at hlt
  rw [show compare a' a' = .eq from Std.ReflCmp.compare_self] at hlt
  change (compare h h').then (compare tid tid') = .lt at hlt
  refine UInt32.not_lt.1 fun hgt ↦ ?_
  have hcompare : compare h h' = .gt := by
    change compareOfLessAndEq h h' = .gt
    rw [compareOfLessAndEq, if_neg (UInt32.lt_asymm hgt), if_neg]
    rintro rfl
    exact UInt32.lt_irrefl h hgt
  rw [hcompare] at hlt
  cases hlt

theorem takeWhile_eq_filter {α : Type} {p : α → Bool} {l : List α}
    (h : l.Pairwise fun a b ↦ p b = true → p a = true) : l.takeWhile p = l.filter p := by
  induction l with
  | nil => rfl
  | cons a l ih =>
    obtain ⟨hfirst, hrest⟩ := List.pairwise_cons.1 h
    by_cases ha : p a = true
    · rw [List.takeWhile_cons_of_pos ha, List.filter_cons_of_pos ha, ih hrest]
    · rw [List.takeWhile_cons_of_neg ha, List.filter_cons_of_neg ha]
      exact (List.filter_eq_nil_iff.2 fun b hb hpb ↦ ha (hfirst b hb hpb)).symm

theorem pairwise_historyCursor (fromHeight toHeight : Height) :
    (s.historyCursor address forward fromHeight toHeight).Pairwise
      fun a b ↦ a.1 = b.1 ∨ Before forward a.1 b.1 := by
  have horder : ∀ {a b : Height}, a ≤ b → a = b ∨ a < b := fun hle ↦ by
    rcases UInt32.le_iff_lt_or_eq.1 hle with hlt | heq
    · exact Or.inr hlt
    · exact Or.inl heq
  have hsorted := s.pairwise_history address
  unfold historyCursor
  dsimp only
  split
  · next hforward =>
    subst hforward
    exact (hsorted.filter _).imp fun hle ↦ horder hle
  · next hback =>
    have hforward : forward = false := Bool.not_eq_true _ ▸ hback
    subst hforward
    rw [List.pairwise_reverse]
    exact (hsorted.filter _).imp fun hle ↦ (horder hle).imp Eq.symm id

/-- The cursor reads the transactions recorded in the interval before it passes it. -/
theorem takeWhile_historyCursor {fromHeight toHeight : Height} (hlt : fromHeight < toHeight) :
    (s.historyCursor address forward fromHeight toHeight).takeWhile
        (fun e ↦ !passed forward fromHeight toHeight e.1) =
      s.recordedInOrder address forward fromHeight toHeight := by
  have hnext : ∀ h : Height, fromHeight + 1 ≤ h ↔ fromHeight < h := by
    intro h
    rw [UInt32.lt_iff_toNat_lt] at hlt
    have hto := toHeight.toNat_lt
    rw [UInt32.le_iff_toNat_le, UInt32.lt_iff_toNat_lt, UInt32.toNat_add, UInt32.toNat_one]
    omega
  rw [takeWhile_eq_filter]
  · unfold historyCursor recordedInOrder recorded
    cases forward with
    | true =>
      simp only [if_true, List.filter_filter]
      refine List.filter_congr fun e _ ↦ ?_
      rw [Bool.eq_iff_iff]
      simp [passed, hnext, and_comm]
    | false =>
      simp only [Bool.false_eq_true, if_false, ← List.filter_reverse, List.filter_filter]
      refine List.filter_congr fun e _ ↦ ?_
      rw [Bool.eq_iff_iff]
      simp [passed]
  · refine (pairwise_historyCursor fromHeight toHeight).imp fun {a b} hab hb ↦ ?_
    rcases hab with heq | hbefore
    · rwa [heq]
    · cases forward with
      | true =>
        simp only [passed, Bool.not_eq_true', decide_eq_false_iff_not, not_or] at hb ⊢
        simp only [true_and, UInt32.not_lt, Bool.true_eq_false, false_and, not_false_eq_true,
          and_true] at hb ⊢
        exact UInt32.le_trans (UInt32.le_of_lt hbefore) hb
      | false =>
        simp only [passed, Bool.not_eq_true', decide_eq_false_iff_not, not_or] at hb ⊢
        simp only [true_and, UInt32.not_le, Bool.false_eq_true, false_and, not_false_eq_true]
          at hb ⊢
        exact UInt32.lt_trans hb hbefore

theorem mem_recorded {fromHeight toHeight : Height} {e : Height × Hash}
    (he : e ∈ s.recordedInOrder address forward fromHeight toHeight) :
    fromHeight < e.1 ∧ e.1 ≤ toHeight := by
  have hmem : e ∈ s.recorded address fromHeight toHeight := by
    unfold recordedInOrder at he
    split at he
    · exact he
    · exact List.mem_reverse.1 he
  exact of_decide_eq_true (List.mem_filter.1 hmem).2

theorem recordedInOrder_of_le {fromHeight toHeight : Height} (hle : toHeight ≤ fromHeight) :
    s.recordedInOrder address forward fromHeight toHeight = [] := by
  refine List.eq_nil_iff_forall_not_mem.2 fun e he ↦ ?_
  obtain ⟨hfrom, hto⟩ := mem_recorded he
  exact UInt32.not_le.2 hfrom (UInt32.le_trans hto hle)

/-- What is behind a height where the history is cut. -/
theorem recordedInOrder_behind {fromHeight toHeight middle : Height}
    {taken rest : List (Height × Hash)} (hfrom : fromHeight ≤ middle)
    (hsplit : s.recordedInOrder address true fromHeight toHeight = taken ++ rest)
    (htaken : ∀ e ∈ taken, e.1 ≤ middle) (hrest : ∀ e ∈ rest, middle < e.1) :
    s.recordedInOrder address true middle toHeight = rest := by
  have hfilter : s.recordedInOrder address true middle toHeight =
      (s.recordedInOrder address true fromHeight toHeight).filter fun e ↦ middle < e.1 := by
    simp only [recordedInOrder, recorded, if_true, List.filter_filter]
    refine List.filter_congr fun e _ ↦ ?_
    rw [Bool.eq_iff_iff]
    simp only [decide_eq_true_iff, Bool.and_eq_true]
    constructor
    · exact fun h ↦ ⟨h.1, UInt32.lt_of_le_of_lt hfrom h.1, h.2⟩
    · exact fun h ↦ ⟨h.1, h.2.2⟩
  rw [hfilter, hsplit, List.filter_append, List.filter_eq_nil_iff.2, List.filter_eq_self.2,
    List.nil_append]
  · exact fun e he ↦ decide_eq_true (hrest e he)
  · exact fun e he ↦ by simpa using htaken e he

/-- What is before a height where the history is cut. -/
theorem recordedInOrder_before {fromHeight toHeight middle : Height}
    {taken rest : List (Height × Hash)} (hto : middle ≤ toHeight)
    (hsplit : s.recordedInOrder address false fromHeight toHeight = taken ++ rest)
    (htaken : ∀ e ∈ taken, middle < e.1) (hrest : ∀ e ∈ rest, e.1 ≤ middle) :
    s.recordedInOrder address false fromHeight middle = rest := by
  have hfilter : s.recordedInOrder address false fromHeight middle =
      (s.recordedInOrder address false fromHeight toHeight).filter fun e ↦ e.1 ≤ middle := by
    simp only [recordedInOrder, recorded, Bool.false_eq_true, if_false, List.filter_filter,
      List.filter_reverse]
    congr 1
    refine List.filter_congr fun e _ ↦ ?_
    rw [Bool.eq_iff_iff]
    simp only [decide_eq_true_iff, Bool.and_eq_true]
    constructor
    · exact fun h ↦ ⟨h.2, h.1, UInt32.le_trans h.2 hto⟩
    · exact fun h ↦ ⟨h.2.1, h.1⟩
  rw [hfilter, hsplit, List.filter_append, List.filter_eq_nil_iff.2, List.filter_eq_self.2,
    List.nil_append]
  · exact fun e he ↦ decide_eq_true (hrest e he)
  · exact fun e he ↦ by simpa using htaken e he

/-! ## Unlocked outputs -/

/-- The outputs of an address unlocked in an interval of heights. -/
def unlockedIn (s : WalletStateBasic) (address : String) (fromHeight toHeight : Height) :
    Multiset Api.Output :=
  ((s.tables.unlocked.table.toList.filter fun e ↦ (fromHeight < e.1.1 ∧ e.1.1 ≤ toHeight) ∧
    (address = "" ∨ e.2.address = address)).map Prod.snd : List Api.Output)

/-- Outputs of an address are unlocked once for each amount and global index. -/
def UnlockedOnce (s : WalletStateBasic) (address : String) : Prop :=
  ∀ h h' amount globalIndex o o', s.tables.unlocked.table.get (h, amount, globalIndex) = some o →
    s.tables.unlocked.table.get (h', amount, globalIndex) = some o' → o.OfAddress address →
      o'.OfAddress address → h = h'

theorem unlockedIn_of_le {fromHeight toHeight : Height} (hle : toHeight ≤ fromHeight) :
    s.unlockedIn address fromHeight toHeight = 0 := by
  rw [unlockedIn, List.filter_eq_nil_iff.2, List.map_nil, Multiset.coe_nil]
  intro e _ he
  obtain ⟨⟨hfrom, hto⟩, _⟩ := of_decide_eq_true he
  exact UInt32.not_le.2 hfrom (UInt32.le_trans hto hle)

theorem unlockedIn_add {fromHeight middle toHeight : Height} (hfrom : fromHeight ≤ middle)
    (hto : middle ≤ toHeight) :
    s.unlockedIn address fromHeight toHeight =
      s.unlockedIn address fromHeight middle + s.unlockedIn address middle toHeight := by
  have hcoe : ∀ fromHeight toHeight, s.unlockedIn address fromHeight toHeight =
      ((s.tables.unlocked.table.toList : Multiset ((UInt32 × Amount × UInt32) × Api.Output)).filter
        fun e ↦ (fromHeight < e.1.1 ∧ e.1.1 ≤ toHeight) ∧
          (address = "" ∨ e.2.address = address)).map Prod.snd := fun _ _ ↦ rfl
  rw [hcoe, hcoe, hcoe, ← Multiset.map_add, Multiset.filter_add_filter]
  have hdisjoint : ∀ e : (UInt32 × Amount × UInt32) × Api.Output,
      ¬(((fromHeight < e.1.1 ∧ e.1.1 ≤ middle) ∧ (address = "" ∨ e.2.address = address)) ∧
        (middle < e.1.1 ∧ e.1.1 ≤ toHeight) ∧ (address = "" ∨ e.2.address = address)) :=
    fun e h ↦ UInt32.not_lt.2 h.1.1.2 h.2.1.1
  rw [Multiset.filter_eq_nil.2 fun e _ ↦ hdisjoint e, add_zero]
  congr 1
  refine Multiset.filter_congr fun e _ ↦ ?_
  constructor
  · intro ⟨⟨hlow, hhigh⟩, hof⟩
    by_cases hle : e.1.1 ≤ middle
    · exact Or.inl ⟨⟨hlow, hle⟩, hof⟩
    · exact Or.inr ⟨⟨UInt32.not_le.1 hle, hhigh⟩, hof⟩
  · rintro (⟨⟨hlow, hhigh⟩, hof⟩ | ⟨⟨hlow, hhigh⟩, hof⟩)
    · exact ⟨⟨hlow, UInt32.le_trans hhigh hto⟩, hof⟩
    · exact ⟨⟨UInt32.lt_of_le_of_lt hfrom hlow, hhigh⟩, hof⟩

/-- The walk of `read_unlock_index` over entries that have each their own amount and index. -/
theorem foldlM_unlocked {entries : List ((UInt32 × Amount × UInt32) × Api.Output)}
    (hindex : ∀ e ∈ entries, e.2.globalIndex = e.1.2.2) :
    ∀ {add : Store (Amount × UInt32) Api.Output},
      ((entries.filter fun e ↦ address = "" ∨ e.2.address = address).map fun e ↦ e.1.2).Nodup →
      (∀ e ∈ entries.filter fun e ↦ address = "" ∨ e.2.address = address,
        add.get e.1.2 = none) →
      ∃ result, entries.foldlM (fun add ((_, amount, globalIndex), output) ↦ do
          throwing (invariant (output.globalIndex = globalIndex) "Index corrupted")
          if address = "" ∨ output.address = address then
            match add.get (amount, output.globalIndex) with
            | none => return add.put (amount, output.globalIndex) output
            | some _ => throwing (.error
                (.invariant "Invariant dead read_unlock_index adding output twice"))
          else return add) add = .ok result ∧
        (result.toList.map Prod.snd).Perm (add.toList.map Prod.snd ++
          (entries.filter fun e ↦ address = "" ∨ e.2.address = address).map Prod.snd) := by
  induction entries with
  | nil => exact fun {add} _ _ ↦ ⟨add, rfl, by simp⟩
  | cons e entries ih =>
    intro add hnodup hnew
    obtain ⟨⟨height, amount, globalIndex⟩, output⟩ := e
    have hgi : output.globalIndex = globalIndex := hindex _ List.mem_cons_self
    have hindex' : ∀ e ∈ entries, e.2.globalIndex = e.1.2.2 :=
      fun e he ↦ hindex e (List.mem_cons_of_mem _ he)
    rw [List.foldlM_cons]
    by_cases hof : address = "" ∨ output.address = address
    · rw [List.filter_cons_of_pos (by simpa using hof)] at hnodup hnew ⊢
      have hnone : add.get (amount, output.globalIndex) = none := by
        rw [hgi]
        exact hnew _ List.mem_cons_self
      obtain ⟨hnot, hnodup⟩ := List.nodup_cons.1 hnodup
      obtain ⟨result, hresult, hperm⟩ := @ih hindex'
        (add.put (amount, output.globalIndex) output) hnodup fun e he ↦ by
          rw [Store.get_put_of_ne, hnew e (List.mem_cons_of_mem _ he)]
          rintro heq
          rw [hgi] at heq
          exact hnot (List.mem_map.2 ⟨e, he, heq.symm⟩)
      refine ⟨result, ?_, ?_⟩
      · rw [bind_eq_ok_iff]
        refine ⟨_, ?_, hresult⟩
        rw [bind_eq_ok_iff]
        refine ⟨(), throwing_eq_ok_iff.2 (invariant_eq_ok_iff.2 hgi), ?_⟩
        rw [if_pos hof, hnone]
        rfl
      · refine hperm.trans ?_
        refine (((Store.toList_put_perm add output hnone).map Prod.snd).append_right _).trans ?_
        simp only [List.map_cons, List.cons_append]
        exact List.perm_middle.symm
    · rw [List.filter_cons_of_neg (by simpa using hof)] at hnodup hnew ⊢
      obtain ⟨result, hresult, hperm⟩ := ih hindex' hnodup hnew
      refine ⟨result, ?_, hperm⟩
      rw [bind_eq_ok_iff]
      refine ⟨_, ?_, hresult⟩
      rw [bind_eq_ok_iff]
      refine ⟨(), throwing_eq_ok_iff.2 (invariant_eq_ok_iff.2 hgi), ?_⟩
      rw [if_neg hof]
      rfl

theorem apiGetUnlockedOutputs_eq (honce : s.UnlockedOnce address)
    (hindex : ∀ k o, s.tables.unlocked.table.get k = some o → o.globalIndex = k.2.2)
    {fromHeight toHeight : Height} (hlt : fromHeight < toHeight) :
    ∃ unlocked, s.tables.apiGetUnlockedOutputs address fromHeight toHeight = .ok unlocked ∧
      (unlocked.toList.map Prod.snd : Multiset Api.Output) =
        s.unlockedIn address fromHeight toHeight := by
  have hnext : ∀ h : Height, fromHeight + 1 ≤ h ↔ fromHeight < h := by
    intro h
    rw [UInt32.lt_iff_toNat_lt] at hlt
    have hto := toHeight.toNat_lt
    rw [UInt32.le_iff_toNat_le, UInt32.lt_iff_toNat_lt, UInt32.toNat_add, UInt32.toNat_one]
    omega
  set entries := s.tables.unlocked.table.toList.filter fun e ↦
    fromHeight + 1 ≤ e.1.1 ∧ e.1.1 ≤ toHeight with hentries
  have hget : ∀ e ∈ entries, s.tables.unlocked.table.get e.1 = some e.2 := fun e he ↦
    Store.mem_toList_iff.1 (List.mem_filter.1 he).1
  have hnodup : ((entries.filter fun e ↦ address = "" ∨ e.2.address = address).map
      fun e ↦ e.1.2).Nodup := by
    have hkeys : (entries.map Prod.fst).Nodup :=
      List.Nodup.sublist (List.filter_sublist.map _)
        (Store.nodup_keys_toList s.tables.unlocked.table)
    refine List.Nodup.map_on ?_ (List.Nodup.of_map _ hkeys |>.filter _)
    intro e he e' he' heq
    obtain ⟨he, hof⟩ := List.mem_filter.1 he
    obtain ⟨he', hof'⟩ := List.mem_filter.1 he'
    have hheight := honce e.1.1 e'.1.1 e.1.2.1 e.1.2.2 e.2 e'.2 (hget e he)
      (by rw [heq]; exact hget e' he') (of_decide_eq_true hof) (of_decide_eq_true hof')
    have hkey : e.1 = e'.1 := Prod.ext hheight heq
    have hvalue : some e.2 = some e'.2 := by rw [← hget e he, ← hget e' he', hkey]
    exact Prod.ext hkey (Option.some.inj hvalue)
  obtain ⟨unlocked, hok, hperm⟩ := @foldlM_unlocked address _
    (fun e he ↦ hindex e.1 e.2 (hget e he)) ∅ hnodup fun e _ ↦ Store.get_empty _
  refine ⟨unlocked, ?_, ?_⟩
  · rw [WalletTables.apiGetUnlockedOutputs, WalletTables.readUnlockIndex,
      if_neg fun h ↦ UInt32.not_le.2 hlt h.2]
    exact hok
  · have hempty : (∅ : Store (Amount × UInt32) Api.Output).toList = [] := rfl
    rw [hempty, List.map_nil, List.nil_append] at hperm
    rw [Multiset.coe_eq_coe.2 hperm, unlockedIn, hentries, List.filter_filter]
    congr 3
    funext e
    rw [Bool.eq_iff_iff]
    simp [hnext, and_comm]

/-! ## Page after page -/

/-- The bounds of a page and of the next one. -/
theorem EndsBefore.next {fromHeight toHeight : Height} {taken rest : List (Height × Hash)}
    {bounds : Height × Height} (hlt : fromHeight < toHeight)
    (hsplit : s.recordedInOrder address forward fromHeight toHeight = taken ++ rest)
    (hbounds : EndsBefore forward fromHeight toHeight rest bounds)
    (hcut : ∀ e ∈ rest.head?, ∀ e' ∈ taken, Before forward e'.1 e.1)
    (hprogress : taken = [] → rest = []) (hsorted : rest.Pairwise fun a b ↦
      a.1 = b.1 ∨ Before forward a.1 b.1) :
    bounds.1 < bounds.2 ∧
      s.recordedInOrder address forward (if forward then bounds.2 else fromHeight)
        (if forward then toHeight else bounds.1) = rest ∧
      (if forward then toHeight else bounds.1).toNat -
        (if forward then bounds.2 else fromHeight).toNat < toHeight.toNat - fromHeight.toNat ∧
      s.unlockedIn address fromHeight toHeight = s.unlockedIn address bounds.1 bounds.2 +
        s.unlockedIn address (if forward then bounds.2 else fromHeight)
          (if forward then toHeight else bounds.1) := by
  have hltNat := UInt32.lt_iff_toNat_lt.1 hlt
  cases rest with
  | nil =>
    have hbounds : bounds = (fromHeight, toHeight) := hbounds
    subst hbounds
    cases forward with
    | true =>
      simp only [if_true]
      exact ⟨hlt, recordedInOrder_of_le UInt32.le_rfl, by omega,
        by rw [unlockedIn_of_le (UInt32.le_refl toHeight), add_zero]⟩
    | false =>
      simp only [Bool.false_eq_true, if_false]
      exact ⟨hlt, recordedInOrder_of_le UInt32.le_rfl, by omega,
        by rw [unlockedIn_of_le (UInt32.le_refl fromHeight), add_zero]⟩
  | cons e rest =>
    obtain ⟨p, hp⟩ := List.exists_mem_of_ne_nil taken fun hnil ↦ by
      cases hprogress hnil
    have hmem : ∀ e' ∈ taken ++ e :: rest, fromHeight < e'.1 ∧ e'.1 ≤ toHeight :=
      fun e' he' ↦ mem_recorded (hsplit ▸ he')
    obtain ⟨hpFrom, hpTo⟩ := hmem p (List.mem_append_left _ hp)
    obtain ⟨heFrom, heTo⟩ := hmem e (List.mem_append_right _ List.mem_cons_self)
    have htaken := hcut e rfl
    have hrest : ∀ e' ∈ e :: rest, e'.1 = e.1 ∨ Before forward e.1 e'.1 := by
      intro e' he'
      rcases List.mem_cons.1 he' with rfl | he'
      · exact Or.inl rfl
      · exact ((List.pairwise_cons.1 hsorted).1 e' he').imp_left Eq.symm
    have hpe := htaken p hp
    rw [UInt32.lt_iff_toNat_lt] at hpFrom heFrom
    rw [UInt32.le_iff_toNat_le] at hpTo heTo
    cases forward with
    | true =>
      have hbounds : bounds = (fromHeight, e.1 - 1) := hbounds
      subst hbounds
      have hpe : p.1.toNat < e.1.toNat := UInt32.lt_iff_toNat_lt.1 hpe
      have hmiddle : (e.1 - 1).toNat = e.1.toNat - 1 := by
        rw [UInt32.toNat_sub_of_le _ _ (UInt32.le_iff_toNat_le.2 (by
          rw [UInt32.toNat_one]; omega)), UInt32.toNat_one]
      simp only [if_true]
      refine ⟨UInt32.lt_iff_toNat_lt.2 (by omega), ?_, by omega, unlockedIn_add
        (UInt32.le_iff_toNat_le.2 (by omega)) (UInt32.le_iff_toNat_le.2 (by omega))⟩
      refine recordedInOrder_behind (UInt32.le_iff_toNat_le.2 (by omega)) hsplit
        (fun e' he' ↦ ?_) fun e' he' ↦ ?_
      · have hlt : e'.1.toNat < e.1.toNat := UInt32.lt_iff_toNat_lt.1 (htaken e' he')
        exact UInt32.le_iff_toNat_le.2 (by omega)
      · rw [UInt32.lt_iff_toNat_lt]
        rcases hrest e' he' with heq | hlater
        · rw [heq]
          omega
        · have hlt : e.1.toNat < e'.1.toNat := UInt32.lt_iff_toNat_lt.1 hlater
          omega
    | false =>
      have hbounds : bounds = (e.1, toHeight) := hbounds
      subst hbounds
      have hpe : e.1.toNat < p.1.toNat := UInt32.lt_iff_toNat_lt.1 hpe
      simp only [Bool.false_eq_true, if_false]
      refine ⟨UInt32.lt_iff_toNat_lt.2 (by omega), ?_, by omega, ?_⟩
      · refine recordedInOrder_before (UInt32.le_iff_toNat_le.2 heTo) hsplit htaken
          fun e' he' ↦ ?_
        rcases hrest e' he' with heq | hlater
        · exact heq ▸ UInt32.le_rfl
        · exact UInt32.le_of_lt hlater
      · rw [add_comm]
        exact unlockedIn_add (UInt32.le_iff_toNat_le.2 (by omega))
          (UInt32.le_iff_toNat_le.2 heTo)

/-- The outputs that the transfers of a page list as unlocked. -/
def TransfersPage.unlockedOutputs (page : TransfersPage) : List Api.Output :=
  page.unlockedTransfers.flatMap Api.Transfer.outputs

theorem heightsAndTransactions_append (blocks blocks' : List Api.Block) :
    heightsAndTransactions (blocks ++ blocks') =
      heightsAndTransactions blocks ++ heightsAndTransactions blocks' :=
  List.flatMap_append

/-- A block with transactions is found at its height. -/
theorem mem_of_heightsAndTransactions {blocks : List Api.Block} {entries : List (Height × Hash)}
    (h : heightsAndTransactions blocks =
      entries.map fun e ↦ (e.1, s.shownTransaction address e.2))
    {b : Api.Block} (hb : b ∈ blocks) (hne : b.transactions ≠ []) :
    ∃ e ∈ entries, e.1 = b.header.height := by
  obtain ⟨tx, htx⟩ := List.exists_mem_of_ne_nil _ hne
  have hmem : (b.header.height, tx) ∈ heightsAndTransactions blocks :=
    List.mem_flatMap.2 ⟨b, hb, List.mem_map.2 ⟨tx, htx, rfl⟩⟩
  rw [h] at hmem
  obtain ⟨e, he, heq⟩ := List.mem_map.1 hmem
  exact ⟨e, he, congrArg Prod.fst heq⟩

/-- Pages asked for until the interval is empty have the transactions of the interval, block by
block, and the outputs unlocked in it. -/
structure Complete (s : WalletStateBasic) (address : String) (forward : Bool)
    (fromHeight toHeight : Height) (pages : List TransfersPage) : Prop where
  transactions : heightsAndTransactions (pages.flatMap TransfersPage.blocks) =
    (s.recordedInOrder address forward fromHeight toHeight).map fun e ↦
      (e.1, s.shownTransaction address e.2)
  ordered : Ordered forward (pages.flatMap TransfersPage.blocks)
  blocks : ∀ b ∈ pages.flatMap TransfersPage.blocks, b.transactions ≠ []
  unlocked : (pages.flatMap TransfersPage.unlockedOutputs : Multiset Api.Output) =
    s.unlockedIn address fromHeight toHeight

theorem transferPages_spec {desired : UInt32} (honce : s.UnlockedOnce address)
    (hindex : ∀ k o, s.tables.unlocked.table.get k = some o → o.globalIndex = k.2.2)
    (hheaders : ∀ h tid, s.tables.history.table.get (address, h, tid) ≠ none →
      (s.headerAt h).height = h) :
    ∀ {n : ℕ} {fromHeight toHeight : Height}, toHeight.toNat - fromHeight.toNat ≤ n →
      ∃ pages, s.transferPages address forward desired n fromHeight toHeight = .ok (some pages) ∧
        Complete s address forward fromHeight toHeight pages := by
  have hempty : ∀ {fromHeight toHeight : Height}, toHeight ≤ fromHeight →
      Complete s address forward fromHeight toHeight [] := by
    intro fromHeight toHeight hle
    refine ⟨?_, List.Pairwise.nil, by simp, ?_⟩
    · rw [recordedInOrder_of_le hle]
      rfl
    · rw [unlockedIn_of_le hle]
      rfl
  intro n
  induction n with
  | zero =>
    intro fromHeight toHeight hn
    have hle : toHeight ≤ fromHeight := UInt32.le_iff_toNat_le.2 (by omega)
    exact ⟨[], by rw [transferPages, if_pos hle], hempty hle⟩
  | succ n ih =>
    intro fromHeight toHeight hn
    by_cases hle : toHeight ≤ fromHeight
    · exact ⟨[], by rw [transferPages, if_pos hle], hempty hle⟩
    have hlt := UInt32.not_le.1 hle
    have hcursor : ∀ e ∈ s.historyCursor address forward fromHeight toHeight,
        (s.headerAt e.1).height = e.1 := by
      intro e he
      have hmem : e ∈ (s.tables.history.table.toList.filter fun e ↦ e.1.1 = address).map
          fun e ↦ e.1.2 := by
        unfold historyCursor at he
        dsimp only at he
        split at he
        · exact (List.mem_filter.1 he).1
        · exact (List.mem_filter.1 (List.mem_reverse.1 he)).1
      obtain ⟨⟨⟨a, h, tid⟩, u⟩, hentry, rfl⟩ := List.mem_map.1 hmem
      obtain ⟨hstored, ha⟩ := List.mem_filter.1 hentry
      obtain rfl : a = address := of_decide_eq_true ha
      refine hheaders h tid ?_
      rw [Store.mem_toList_iff.1 hstored]
      simp
    obtain ⟨taken, rest, hpage⟩ := @transfersFrom_spec s address _ desired.toNat
      fromHeight toHeight _ {} 0 hcursor
      (pairwise_historyCursor fromHeight toHeight) (fun hne ↦ absurd rfl hne)
    have hsplit := hpage.split
    have hsorted := (@pairwise_historyCursor s address forward
      fromHeight toHeight).sublist (List.takeWhile_sublist
        (fun e ↦ !passed forward fromHeight toHeight e.1))
    rw [takeWhile_historyCursor hlt] at hsplit hsorted
    rw [hsplit] at hsorted
    have hapi : s.apiGetTransfers address forward fromHeight toHeight desired =
        s.transfersFrom address forward desired.toNat fromHeight toHeight
          (s.historyCursor address forward fromHeight toHeight) {} 0 := if_neg hle
    rw [← hapi] at hpage
    obtain ⟨hbounds, hrest, hmeasure, hunlocked⟩ := hpage.bounds.next hlt hsplit
      (fun e he ↦ (hpage.cut e he).1) (hpage.progress rfl) (List.pairwise_append.1 hsorted).2.1
    obtain ⟨unlocked, hok, hvalues⟩ := apiGetUnlockedOutputs_eq honce hindex hbounds
    obtain ⟨pages, hpages, hcomplete⟩ := ih (Nat.lt_succ_iff.1 (hmeasure.trans_le hn))
    rcases hr : s.apiGetTransfers address forward fromHeight toHeight desired with
      ⟨blocks, requestFrom, requestTo⟩
    rw [hr] at hpage hok hvalues hpages hcomplete hunlocked hrest
    dsimp only at hok hpages hcomplete hpage hvalues hunlocked hrest
    obtain ⟨page, hblocks, hlisted, hnextFrom, hnextTo, hhandle⟩ : ∃ page : TransfersPage,
        page.blocks = blocks ∧ page.unlockedOutputs = unlocked.toList.map Prod.snd ∧
        page.nextFromHeight = (if forward then requestTo else fromHeight) ∧
        page.nextToHeight = (if forward then toHeight else requestFrom) ∧
        s.handleGetTransfers3 address forward fromHeight toHeight desired = .ok page := by
      refine ⟨{
        blocks
        unlockedTransfers := unlocked.toList.map fun lou ↦
          { ours := true, amount := lou.2.amount.toInt64, address := lou.2.address
            outputs := [lou.2] }
        nextFromHeight := if forward then requestTo else fromHeight
        nextToHeight := if forward then toHeight else requestFrom }, rfl, ?_, rfl, rfl, ?_⟩
      · rw [TransfersPage.unlockedOutputs, List.flatMap_map]
        exact List.map_eq_flatMap.symm
      · rw [handleGetTransfers3, hr]
        exact bind_eq_ok_iff.2 ⟨unlocked, hok, rfl⟩
    rw [← hnextFrom, ← hnextTo] at hpages
    refine ⟨page :: pages, ?_, ?_⟩
    · rw [transferPages, if_neg hle, hhandle]
      exact bind_eq_ok_iff.2 ⟨page, rfl, bind_eq_ok_iff.2 ⟨some pages, hpages, rfl⟩⟩
    · have htransactions := hpage.transactions
      rw [show heightsAndTransactions [({} : Api.Block)] = [] from rfl, List.nil_append]
        at htransactions
      have hlater := hcomplete.transactions
      rw [hrest] at hlater
      refine ⟨?_, ?_, ?_, ?_⟩
      · rw [List.flatMap_cons, hblocks, heightsAndTransactions_append, htransactions, hlater,
          hsplit, List.map_append]
      · rw [List.flatMap_cons, hblocks]
        refine List.pairwise_append.2 ⟨hpage.ordered, hcomplete.ordered, fun b hb b' hb' ↦ ?_⟩
        obtain ⟨e, he, heq⟩ := mem_of_heightsAndTransactions htransactions hb
          (hpage.blocks b hb)
        obtain ⟨e', he', heq'⟩ := mem_of_heightsAndTransactions hlater hb'
          (hcomplete.blocks b' hb')
        rw [← heq, ← heq']
        cases rest with
        | nil => exact absurd he' List.not_mem_nil
        | cons e₁ rest =>
          have hfirst := (hpage.cut e₁ rfl).1 e he
          rcases List.mem_cons.1 he' with rfl | he'
          · exact hfirst
          · rcases (List.pairwise_cons.1 (List.pairwise_append.1 hsorted).2.1).1 e' he' with
              heq₁ | hbefore
            · rwa [← heq₁]
            · exact hfirst.trans hbefore
      · intro b hb
        rw [List.flatMap_cons, hblocks] at hb
        rcases List.mem_append.1 hb with hb | hb
        · exact hpage.blocks b hb
        · exact hcomplete.blocks b hb
      · rw [List.flatMap_cons, hlisted, ← Multiset.coe_add, hcomplete.unlocked, hunlocked,
          ← hvalues]

end WalletStateBasic

/-! ## What blocks record -/

namespace WalletTables

variable {c : Currency} {t t' : WalletTables} {o : Api.Output}

/-- The history and the unlocked outputs. -/
def records (t : WalletTables) :
    Store (String × Height × Hash) Unit × Store HeightAmounGi Api.Output :=
  (t.history.table, t.unlocked.table)

theorem records_modifyBalance {lockedOp spendableOp : Int}
    (hok : t.modifyBalance o lockedOp spendableOp = .ok t') : t'.records = t.records := by
  obtain ⟨_, -, hok⟩ := bind_eq_ok_iff.1 hok
  obtain ⟨_, -, hok⟩ := bind_eq_ok_iff.1 hok
  cases hok
  rfl

theorem records_addToUnspentIndex (hok : t.addToUnspentIndex o = .ok t') :
    t'.records = t.records := by
  obtain ⟨t₁, hmodify, hok⟩ := bind_eq_ok_iff.1 hok
  obtain ⟨_, -, hok⟩ := bind_eq_ok_iff.1 hok
  obtain ⟨_, -, hok⟩ := bind_eq_ok_iff.1 hok
  cases hok
  change t₁.records = t.records
  exact records_modifyBalance hmodify

theorem records_removeFromUnspentIndex (hok : t.removeFromUnspentIndex o = .ok t') :
    t'.records = t.records := by
  obtain ⟨t₁, hmodify, hok⟩ := bind_eq_ok_iff.1 hok
  obtain ⟨_, -, hok⟩ := bind_eq_ok_iff.1 hok
  obtain ⟨_, -, hok⟩ := bind_eq_ok_iff.1 hok
  cases hok
  change t₁.records = t.records
  exact records_modifyBalance hmodify

theorem records_updateKeyimage {ki : KeyImage} {value : HeightAmounGi} {nooverwrite : Bool}
    (hok : t.updateKeyimage ki value nooverwrite = .ok t') : t'.records = t.records := by
  rw [updateKeyimage] at hok
  split at hok
  · cases hok
    rfl
  · split at hok
    · obtain ⟨_, -, hok⟩ := bind_eq_ok_iff.1 hok
      cases hok
      rfl
    · cases hok
      rfl

theorem records_withLockIndex (unlockTime : UnlockMoment)
    (index : LoggedTable (UInt32 × Amount × UInt32) Api.Output) (t : WalletTables) :
    (t.withLockIndex c unlockTime index).records = t.records := by
  unfold withLockIndex
  split <;> rfl

theorem records_addToLockIndex (hok : t.addToLockIndex c o = .ok t') :
    t'.records = t.records := by
  obtain ⟨t₁, hmodify, hok⟩ := bind_eq_ok_iff.1 hok
  obtain ⟨_, -, hok⟩ := bind_eq_ok_iff.1 hok
  dsimp only at hok
  split at hok
  · obtain ⟨_, -, hok⟩ := bind_eq_ok_iff.1 hok
    cases hok
    exact (records_withLockIndex _ _ _).trans (records_modifyBalance hmodify)
  · cases hok
    exact (records_withLockIndex _ _ _).trans (records_modifyBalance hmodify)

theorem records_removeFromLockIndex (hok : t.removeFromLockIndex c o = .ok t') :
    t'.records = t.records := by
  obtain ⟨t₁, hmodify, hok⟩ := bind_eq_ok_iff.1 hok
  obtain ⟨_, -, hok⟩ := bind_eq_ok_iff.1 hok
  dsimp only at hok
  split at hok
  · obtain ⟨_, -, hok⟩ := bind_eq_ok_iff.1 hok
    cases hok
    exact (records_withLockIndex _ _ _).trans (records_modifyBalance hmodify)
  · cases hok
    exact (records_withLockIndex _ _ _).trans (records_modifyBalance hmodify)

theorem records_addIncomingOutput {justUnlocked : Bool} {r : Amount × WalletTables}
    (hok : t.addIncomingOutput c o justUnlocked = .ok r) : r.2.records = t.records := by
  rw [addIncomingOutput] at hok
  split at hok
  · cases hok
    rfl
  · split at hok
    · obtain ⟨t₁, hlock, hok⟩ := bind_eq_ok_iff.1 hok
      cases hok
      exact records_addToLockIndex hlock
    · split at hok
      · split at hok
        · cases hok
          rfl
        · obtain ⟨t₁, hremove, hok⟩ := bind_eq_ok_iff.1 hok
          obtain ⟨t₂, hadd, hok⟩ := bind_eq_ok_iff.1 hok
          obtain ⟨t₃, hupdate, hok⟩ := bind_eq_ok_iff.1 hok
          cases hok
          exact (records_updateKeyimage hupdate).trans
            ((records_addToUnspentIndex hadd).trans (records_removeFromUnspentIndex hremove))
      · obtain ⟨t₁, hadd, hok⟩ := bind_eq_ok_iff.1 hok
        obtain ⟨t₂, hupdate, hok⟩ := bind_eq_ok_iff.1 hok
        cases hok
        exact (records_updateKeyimage hupdate).trans (records_addToUnspentIndex hadd)

/-- The history is that of heights in `p`, and unlocked outputs are found by their own indices. -/
structure Recorded (p : Height → Prop) (t : WalletTables) : Prop where
  history : ∀ a h tid, t.history.table.get (a, h, tid) ≠ none → p h
  unlocked : ∀ k o, t.unlocked.table.get k = some o → o.globalIndex = k.2.2

theorem Recorded.of_records {p : Height → Prop} (h : t.Recorded p) (heq : t'.records = t.records) :
    t'.Recorded p := by
  obtain ⟨hhistory, hunlocked⟩ := Prod.mk.inj heq
  exact ⟨hhistory ▸ h.history, hunlocked ▸ h.unlocked⟩

theorem Recorded.unlockOutput {p : Height → Prop} {height : Height} (h : t.Recorded p)
    (hok : t.unlockOutput c height o = .ok t') : t'.Recorded p := by
  obtain ⟨t₁, hremove, hok⟩ := bind_eq_ok_iff.1 hok
  obtain ⟨r, hadd, hok⟩ := bind_eq_ok_iff.1 hok
  obtain ⟨unlocked, hput, hok⟩ := bind_eq_ok_iff.1 hok
  cases hok
  have h₂ : r.2.Recorded p := h.of_records
    ((records_addIncomingOutput hadd).trans (records_removeFromLockIndex hremove))
  obtain ⟨-, rfl⟩ := LoggedTable.putNew_eq_ok_iff.1 (walletWrite_eq_ok_iff.1 hput)
  refine ⟨h₂.history, fun k o' hget ↦ ?_⟩
  rw [LoggedTable.table_put, Store.get_put] at hget
  split at hget
  · next heq =>
    rw [← Option.some.inj hget, ← heq]
  · exact h₂.unlocked k o' hget

theorem Recorded.unlockOutputs {p : Height → Prop} {height : Height} {outputs : List Api.Output}
    (h : t.Recorded p)
    (hok : outputs.foldlM (fun t o ↦ t.unlockOutput c height o) t = .ok t') : t'.Recorded p :=
  foldlM_ok_preserves (fun _ _ _ _ hok h ↦ Recorded.unlockOutput h hok) hok h

theorem recorded_keptAt (wc : WalletCrypto) (c : Currency) {height : Height} {p : Height → Prop}
    (hp : p height) : KeptAt wc c height (fun _ ↦ False) (Recorded p) where
  exception _ h := h
  addIncomingOutput o t _ h := by
    refine Ends.iff_forall.2 ⟨fun r hok ↦ ?_, fun _ _ h ↦ h⟩
    exact h.of_records (records_addIncomingOutput hok)
  addIncomingKeyimage ki t h := by
    refine Ends.iff_forall.2 ⟨fun r hok ↦ ?_, fun _ _ h ↦ h⟩
    obtain ⟨outputs, -, hok⟩ := bind_eq_ok_iff.1 hok
    obtain ⟨t₁, hunlock, hok⟩ := bind_eq_ok_iff.1 hok
    have h₁ := h.unlockOutputs hunlock
    split at hok
    · obtain ⟨t₂, hremove, hok⟩ := bind_eq_ok_iff.1 hok
      cases hok
      exact h₁.of_records (records_removeFromUnspentIndex hremove)
    · cases hok
      exact h₁
  unlock now t h := by
    refine Ends.iff_forall.2 ⟨fun t' hok ↦ ?_, fun _ _ h ↦ h⟩
    obtain ⟨byHeight, -, hok⟩ := bind_eq_ok_iff.1 hok
    obtain ⟨toUnlock, -, hok⟩ := bind_eq_ok_iff.1 hok
    exact foldlM_ok_preserves (fun _ _ _ _ hok h ↦ Recorded.unlockOutput h hok) hok h
  addTransaction tid tx ptx t h := by
    refine Ends.iff_forall.2 ⟨fun t' hok ↦ ?_, fun _ _ h ↦ h⟩
    obtain ⟨transactions, -, hok⟩ := bind_eq_ok_iff.1 hok
    obtain ⟨history, hfold, hok⟩ := bind_eq_ok_iff.1 hok
    cases hok
    refine ⟨?_, h.unlocked⟩
    refine foldlM_ok_preserves (I := fun history : LoggedTable (String × Height × Hash) Unit ↦
      ∀ a h tid, history.table.get (a, h, tid) ≠ none → p h) ?_ hfold h.history
    intro history addr history' _ hput hold a h' tid' hne
    obtain ⟨-, rfl⟩ := LoggedTable.putNew_eq_ok_iff.1 (walletWrite_eq_ok_iff.1 hput)
    rw [LoggedTable.table_put, Store.get_put] at hne
    split at hne
    · next heq =>
      cases heq
      exact hp
    · exact hold a h' tid' hne

theorem Recorded.imp {p q : Height → Prop} (h : t.Recorded p) (hpq : ∀ h, p h → q h) :
    t.Recorded q :=
  ⟨fun a h' tid hne ↦ hpq h' (h.history a h' tid hne), h.unlocked⟩

end WalletTables

/-! ## Runs -/

namespace WalletRun

variable {wc : WalletCrypto} {c : Currency} {tail : Height} {processed : List ProcessedBlock}
  {s : WalletStateBasic}

/-- The history is that of blocks on the chain. -/
theorem recorded (h : WalletRun wc c tail processed s) :
    s.tables.Recorded fun height ↦ s.chain.get height ≠ none := by
  refine foldlM_ok_preserves (I := fun s : WalletStateBasic ↦
    s.tables.Recorded fun height ↦ s.chain.get height ≠ none) ?_ h.applyBlocks_eq ?_
  · intro s b s' _ hok hs
    obtain ⟨tables, undo, -, -, -, hs'⟩ := WalletStateBasic.applyBlock_eq hok
    have hchain : s'.chain = s.chain.put (s.tipHeight + 1) b.header := by rw [hs']
    have hp : ∀ height, s.chain.get height ≠ none → s'.chain.get height ≠ none := by
      intro height hne
      rw [hchain, Store.get_put]
      split
      · simp
      · exact hne
    have htip : s'.chain.get (s.tipHeight + 1) ≠ none := by
      rw [hchain, Store.get_put_self]
      simp
    exact ((WalletStateBasic.applyBlock_ends (WalletTables.recorded_keptAt wc c htip)
      (fun t ht ↦ ⟨ht.history, ht.unlocked⟩) (hs.imp hp) b).of_ok hok).1
  · exact ⟨fun a h tid hne ↦ absurd rfl hne, fun k o hget ↦ by cases hget⟩

/-- In every state of a wallet whose headers carry their heights, and where no amount and global
index of the address was unlocked twice: pages asked for one after the other, from any interval, in
either direction and with any desired number of transactions, come to an end, and have the
transactions of the interval block by block and the outputs unlocked in it, once each. -/
theorem transferPages_complete (h : WalletRun wc c tail processed s) {address : String}
    (hheaders : ∀ height header, s.chain.get height = some header → header.height = height)
    (honce : s.UnlockedOnce address) (forward : Bool) (desired : UInt32)
    (fromHeight toHeight : Height) :
    ∃ pages, s.transferPages address forward desired (toHeight.toNat - fromHeight.toNat)
        fromHeight toHeight = .ok (some pages) ∧
      s.Complete address forward fromHeight toHeight pages := by
  refine WalletStateBasic.transferPages_spec honce h.recorded.unlocked ?_ le_rfl
  intro height tid hne
  obtain ⟨header, hheader⟩ := Option.ne_none_iff_exists'.1 (h.recorded.history _ _ _ hne)
  rw [WalletStateBasic.headerAt, hheader]
  exact hheaders height header hheader

/-- A block at a height that pays with one transaction after its coinbase, under indices that begin
at `index`. -/
def samplePayingBlock (height : Height) (txKey : PublicKey) (unlockTime : UnlockMoment)
    (index : UInt32) : ProcessedBlock :=
  sampleWalletBlock
    { hash := txKey + 10000 * txKey, timestamp := 100, timestampMedian := 100, height }
    (samplePayment txKey unlockTime [] [(5000000, 5)])
    [samplePayment (txKey + 1) 0 [] [(3, 6)]] [[index], [index]]

/-- Pages of one transaction or more, from a chain whose headers carry their heights. -/
theorem transferPages_complete_samplePayingBlocks : ∃ (s : WalletStateBasic)
    (pages : List WalletStateBasic.TransfersPage), pages.length = 2 ∧
      s.transferPages "" true 1 2 0 2 = .ok (some pages) ∧ s.Complete "" true 0 2 pages := by
  have hrun : yields (({} : WalletStateBasic).applyBlocks sampleWalletCrypto mainnet
      [samplePayingBlock 0 10 0 0, samplePayingBlock 1 20 0 1, samplePayingBlock 2 30 0 2])
      (fun s ↦ (∀ e ∈ s.chain.toList, e.2.height = e.1) ∧ s.tables.unlocked.table.toList = [] ∧
        yields (s.transferPages "" true 1 2 0 2) fun pages ↦
          pages.map List.length = some 2) = true := by
    decide +kernel
  obtain ⟨s, happly, htest⟩ := yields_iff.1 hrun
  obtain ⟨hheaders, hunlocked, hpages⟩ := of_decide_eq_true htest
  obtain ⟨found, hfound, hlength⟩ := yields_iff.1 hpages
  obtain ⟨s₁, hblock₁, hrest⟩ := WalletStateBasic.applyBlocks_cons.1 happly
  obtain ⟨s₂, hblock₂, hrest⟩ := WalletStateBasic.applyBlocks_cons.1 hrest
  obtain ⟨s₃, hblock₃, hnil⟩ := WalletStateBasic.applyBlocks_cons.1 hrest
  obtain rfl := Except.ok.inj hnil
  have hone : s₃.UnlockedOnce "" := by
    intro h h' amount globalIndex o o' hget
    have hmem := Store.mem_toList_iff.2 hget
    rw [hunlocked] at hmem
    exact absurd hmem List.not_mem_nil
  obtain ⟨pages, hok, hcomplete⟩ := transferPages_complete
    (.apply _ (.apply _ (.apply _ .start hblock₁) hblock₂) hblock₃)
    (fun height header hget ↦ hheaders (height, header) (Store.mem_toList_iff.2 hget))
    hone true 1 0 2
  have hsame : found = some pages := Except.ok.inj (hfound.symm.trans hok)
  subst hsame
  exact ⟨s₃, pages, by simpa using hlength, hok, hcomplete⟩

/-- Where the headers do not carry their heights a page can be cut in its first block, and hands on
the interval it was asked for; and where an amount and index was unlocked twice no page is had. -/
theorem not_transferPages_complete :
    (¬∀ (tail : Height) (processed : List ProcessedBlock) (s : WalletStateBasic) (address : String),
      WalletRun sampleWalletCrypto mainnet tail processed s → s.UnlockedOnce address →
      ∀ (forward : Bool) (desired : UInt32) (fromHeight toHeight : Height), 0 < desired →
        ∃ n pages, s.transferPages address forward desired n fromHeight toHeight =
          .ok (some pages)) ∧
      ¬∀ (tail : Height) (processed : List ProcessedBlock) (s : WalletStateBasic)
        (address : String), WalletRun sampleWalletCrypto mainnet tail processed s →
        (∀ height header, s.chain.get height = some header → header.height = height) →
        ∀ (forward : Bool) (desired : UInt32) (fromHeight toHeight : Height), 0 < desired →
          ∃ n pages, s.transferPages address forward desired n fromHeight toHeight =
            .ok (some pages) := by
  constructor
  · intro hall
    have hrun : yields (({} : WalletStateBasic).applyBlocks sampleWalletCrypto mainnet
        [samplePayingBlock 0 10 0 0, samplePayingBlock 0 20 0 1]) (fun s ↦
          s.tables.unlocked.table.toList = [] ∧ yields (s.handleGetTransfers3 "" true 0 1 1)
            fun page ↦ page.nextFromHeight = 0 ∧ page.nextToHeight = 1) = true := by
      decide +kernel
    obtain ⟨s, happly, htest⟩ := yields_iff.1 hrun
    obtain ⟨hunlocked, hpage⟩ := of_decide_eq_true htest
    obtain ⟨page, hpage, hnext⟩ := yields_iff.1 hpage
    obtain ⟨hfrom, hto⟩ := of_decide_eq_true hnext
    obtain ⟨s₁, hblock₁, hrest⟩ := WalletStateBasic.applyBlocks_cons.1 happly
    obtain ⟨s₂, hblock₂, hnil⟩ := WalletStateBasic.applyBlocks_cons.1 hrest
    obtain rfl := Except.ok.inj hnil
    obtain ⟨n, pages, hpages⟩ := hall 0 _ s₂ "" (.apply _ (.apply _ .start hblock₁) hblock₂)
      (fun h h' amount globalIndex o o' hget ↦ by
        have hmem := Store.mem_toList_iff.2 hget
        rw [hunlocked] at hmem
        exact absurd hmem List.not_mem_nil) true 1 0 1 (by decide)
    -- the interval stays the same, however many pages are asked for
    have hnever : ∀ n, s₂.transferPages "" true 1 n 0 1 = .ok none := by
      intro n
      induction n with
      | zero => rfl
      | succ n ih =>
        rw [WalletStateBasic.transferPages, if_neg (by decide), hpage]
        refine bind_eq_ok_iff.2 ⟨page, rfl, bind_eq_ok_iff.2 ⟨none, ?_, rfl⟩⟩
        rw [hfrom, hto]
        exact ih
    rw [hnever n] at hpages
    cases hpages
  · intro hall
    have hrun : yields (({} : WalletStateBasic).applyBlocks sampleWalletCrypto mainnet
        [samplePayingBlock 0 10 1 0, samplePayingBlock 1 20 2 0, samplePayingBlock 2 30 0 1])
        (fun s ↦ (∀ e ∈ s.chain.toList, e.2.height = e.1) ∧
          yields (s.handleGetTransfers3 "" true 0 2 9) (fun _ ↦ true) = false) = true := by
      decide +kernel
    obtain ⟨s, happly, htest⟩ := yields_iff.1 hrun
    obtain ⟨hheaders, hpage⟩ := of_decide_eq_true htest
    obtain ⟨s₁, hblock₁, hrest⟩ := WalletStateBasic.applyBlocks_cons.1 happly
    obtain ⟨s₂, hblock₂, hrest⟩ := WalletStateBasic.applyBlocks_cons.1 hrest
    obtain ⟨s₃, hblock₃, hnil⟩ := WalletStateBasic.applyBlocks_cons.1 hrest
    obtain rfl := Except.ok.inj hnil
    obtain ⟨n, pages, hpages⟩ := hall 0 _ s₃ ""
      (.apply _ (.apply _ (.apply _ .start hblock₁) hblock₂) hblock₃)
      (fun height header hget ↦ hheaders (height, header) (Store.mem_toList_iff.2 hget))
      true 9 0 2 (by decide)
    cases n with
    | zero => cases hpages
    | succ n =>
      rw [WalletStateBasic.transferPages, if_neg (by decide)] at hpages
      obtain ⟨page, hok, _⟩ := bind_eq_ok_iff.1 hpages
      rw [hok] at hpage
      cases hpage

end WalletRun

end Naza
