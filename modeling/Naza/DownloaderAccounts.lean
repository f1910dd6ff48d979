import Naza.Downloader

/-!
# The accounts of the downloader

Counters, total and cells agree after any events, so that no invariant of `stop_download` and
`on_disconnect` fails and every nested round of `advance_download` comes to an end.
-/

open Lib

namespace Naza

namespace DownloaderV11

/-! ## Cells and counters -/

/-- The cell is being downloaded from a client. -/
def DownloadCell.Active (dc : DownloadCell) : Bool :=
  dc.status = .downloading ∧ dc.downloadingClient.isSome = true

/-- The cell is being downloaded from the client. -/
def DownloadCell.Names (who : Client) (dc : DownloadCell) : Bool :=
  dc.status = .downloading ∧ dc.downloadingClient = some who

/-- Counters, total and cells agree, and only good clients are named. -/
structure Accounted (cells : List DownloadCell) (d : DownloaderV11) : Prop where
  sum : d.totalDownloadingBlocks = d.goodClients.total id
  active : d.totalDownloadingBlocks = cells.countP DownloadCell.Active
  counter : ∀ who n, d.goodClients.get who = some n → n = cells.countP (DownloadCell.Names who)
  named : ∀ dc ∈ cells, ∀ who, dc.downloadingClient = some who →
    dc.status = .downloading ∧ d.goodClients.get who ≠ none
  chainClient : ∀ who, d.chainClient = some who → d.goodClients.get who ≠ none

namespace Accounted

variable {cells cells' : List DownloadCell} {dc : DownloadCell} {d d' : DownloaderV11}
  {who : Client}

theorem perm (h : Accounted cells d) (hperm : cells.Perm cells') : Accounted cells' d where
  sum := h.sum
  active := h.active.trans (hperm.countP_eq _)
  counter a n hget := (h.counter a n hget).trans (hperm.countP_eq _)
  named dc' hmem := h.named dc' (hperm.mem_iff.2 hmem)
  chainClient := h.chainClient

/-- Cells of the same clients and states count alike. -/
theorem congr {f : DownloadCell → DownloadCell} (h : Accounted cells d)
    (hstatus : ∀ dc, (f dc).status = dc.status)
    (hclient : ∀ dc, (f dc).downloadingClient = dc.downloadingClient) :
    Accounted (cells.map f) d where
  sum := h.sum
  active := by
    rw [List.countP_map, h.active]
    congr 1
    funext dc
    simp only [Function.comp_apply, DownloadCell.Active, hstatus, hclient]
  counter a n hget := by
    rw [List.countP_map, h.counter a n hget]
    congr 1
    funext dc
    simp only [Function.comp_apply, DownloadCell.Names, hstatus, hclient]
  named dc' hmem a hnamed := by
    obtain ⟨dc, hdc, rfl⟩ := List.mem_map.1 hmem
    rw [hclient] at hnamed
    rw [hstatus]
    exact h.named dc hdc a hnamed
  chainClient := h.chainClient

/-- A cell without a client does not count. -/
theorem cons_free (hfree : dc.downloadingClient = none) :
    Accounted (dc :: cells) d ↔ Accounted cells d := by
  have hactive : dc.Active = false := by simp [DownloadCell.Active, hfree]
  have hnames : ∀ a, DownloadCell.Names a dc = false := by simp [DownloadCell.Names, hfree]
  constructor
  · intro h
    refine ⟨h.sum, ?_, fun a n hget ↦ ?_, fun dc' hmem ↦ h.named dc' (List.mem_cons_of_mem _ hmem),
      h.chainClient⟩
    · rw [h.active, List.countP_cons_of_neg (by simp [hactive])]
    · rw [h.counter a n hget, List.countP_cons_of_neg (by simp [hnames])]
  · intro h
    refine ⟨h.sum, ?_, fun a n hget ↦ ?_, fun dc' hmem a hnamed ↦ ?_, h.chainClient⟩
    · rw [h.active, List.countP_cons_of_neg (by simp [hactive])]
    · rw [h.counter a n hget, List.countP_cons_of_neg (by simp [hnames])]
    · rcases List.mem_cons.1 hmem with rfl | hmem
      · rw [hfree] at hnamed
        cases hnamed
      · exact h.named dc' hmem a hnamed

end Accounted

/-- A value of a store changed. -/
theorem total_update (f : ℕ → ℕ) (s : Store Client ℕ) {k : Client} {v : ℕ} (w : ℕ)
    (h : s.get k = some v) : (s.put k w).total f + f v = f w + s.total f := by
  have hput : s.put k w = (s.remove k).put k w := by
    refine Store.ext fun a ↦ ?_
    rw [Store.get_put, Store.get_put, Store.get_remove]
    split <;> rfl
  rw [hput, Store.total_put f _ w (Store.get_remove_self s k), Store.total_remove f s h]
  omega

/-! ## What a handler may do -/

/-- A cell in the plan. -/
def DownloadCell.planned (dc : DownloadCell) : Hash × Status := (dc.bid, dc.status)

/-- The blocks that are wanted: the cells with their states, then the rest of the chain. -/
def plan (d : DownloaderV11) : List (Hash × Status) :=
  d.downloadChain.map DownloadCell.planned ++ d.chain.map fun bid ↦ (bid, .downloading)

/-- The blocks in the queue, in the threads and prepared. -/
def items (d : DownloaderV11) : List Hash :=
  d.work ++ d.inThreads ++ d.preparedBlocks.toList.map Prod.fst

/-- No good client is added, blocks are only taken from the plan, and a chain is asked for only when
nothing is planned. -/
structure Advances (d d' : DownloaderV11) : Prop where
  clients : d'.clients ≤ d.clients
  plan : d'.plan.Sublist d.plan
  items : d'.items = d.items
  request : d'.chainRequestSent = true → d.chainRequestSent = true ∨ d'.plan = []

theorem Advances.refl (d : DownloaderV11) : Advances d d :=
  ⟨le_refl _, List.Sublist.refl _, rfl, Or.inl⟩

theorem Advances.trans {d d' d'' : DownloaderV11} (h : Advances d d') (h' : Advances d' d'') :
    Advances d d'' where
  clients := h'.clients.trans h.clients
  plan := h'.plan.trans h.plan
  items := h'.items.trans h.items
  request hsent := by
    rcases h'.request hsent with hbefore | hempty
    · rcases h.request hbefore with hbefore | hempty
      · exact Or.inl hbefore
      · exact Or.inr (List.sublist_nil.1 (hempty ▸ h'.plan))
    · exact Or.inr hempty

/-- Only counters, total and deliveries change, and no client comes or goes. -/
structure Booked (d d' : DownloaderV11) : Prop where
  clients : d'.clients = d.clients
  rest : d' = { d with
    goodClients := d'.goodClients
    totalDownloadingBlocks := d'.totalDownloadingBlocks
    whoDownloadedBlock := d'.whoDownloadedBlock }

theorem Booked.refl (d : DownloaderV11) : Booked d d := ⟨rfl, rfl⟩

theorem Booked.trans {d d' d'' : DownloaderV11} (h : Booked d d') (h' : Booked d' d'') :
    Booked d d'' := by
  refine ⟨h'.clients.trans h.clients, ?_⟩
  rw [h'.rest, h.rest]

section Loops

variable {cells rest : List DownloadCell} {dc : DownloadCell} {d : DownloaderV11} {who : Client}

/-! ## Single cells -/

theorem clients_put {n : ℕ} (hget : d.goodClients.get who = some n) (m : ℕ) :
    ({ d with goodClients := d.goodClients.put who m } : DownloaderV11).clients = d.clients := by
  have hupdate := total_update (fun _ ↦ 1) d.goodClients m hget
  exact Nat.add_right_cancel (hupdate.trans (Nat.add_comm _ _))

/-- A free cell is given to a good client. -/
theorem Accounted.start (h : Accounted (dc :: cells) d) (hstatus : dc.status = .downloading)
    (hfree : dc.downloadingClient = none) (hgood : d.goodClients.get who ≠ none) :
    Accounted ((startDownload dc who d).1 :: cells) (startDownload dc who d).2 ∧
      Booked d (startDownload dc who d).2 := by
  obtain ⟨n, hn⟩ := Option.ne_none_iff_exists'.1 hgood
  have hcells := (Accounted.cons_free hfree).1 h
  unfold startDownload
  rw [hn, Option.getD_some]
  dsimp only
  have hsum := total_update id d.goodClients (n + 1) hn
  have hget : ∀ a, (d.goodClients.put who (n + 1)).get a ≠ none ↔ d.goodClients.get a ≠ none := by
    intro a
    rw [Store.get_put]
    split
    · next ha => exact iff_of_true (Option.some_ne_none _) (ha ▸ hgood)
    · rfl
  refine ⟨⟨?_, ?_, fun a m hm ↦ ?_, fun dc' hmem a hnamed ↦ ?_, fun a ha ↦ ?_⟩,
    ⟨clients_put hn (n + 1), rfl⟩⟩
  · change d.totalDownloadingBlocks + 1 = (d.goodClients.put who (n + 1)).total id
    have htotal := hcells.sum
    simp only [id] at hsum htotal ⊢
    omega
  · change d.totalDownloadingBlocks + 1 = _
    rw [List.countP_cons_of_pos (by simp [DownloadCell.Active, hstatus]), hcells.active]
  · change (d.goodClients.put who (n + 1)).get a = some m at hm
    rw [Store.get_put] at hm
    by_cases ha : who = a
    · subst ha
      rw [if_pos rfl] at hm
      obtain rfl := Option.some.inj hm
      rw [List.countP_cons_of_pos (by simp [DownloadCell.Names, hstatus]),
        hcells.counter who n hn]
    · rw [if_neg ha] at hm
      rw [List.countP_cons_of_neg (by simp [DownloadCell.Names, ha]), hcells.counter a m hm]
  · change dc'.status = .downloading ∧ (d.goodClients.put who (n + 1)).get a ≠ none
    rw [hget]
    rcases List.mem_cons.1 hmem with rfl | hmem
    · obtain rfl := Option.some.inj hnamed
      exact ⟨hstatus, hgood⟩
    · exact hcells.named dc' hmem a hnamed
  · change (d.goodClients.put who (n + 1)).get a ≠ none
    rw [hget]
    exact hcells.chainClient a ha

/-- The invariant of `stop_download` holds, and the cell is free afterwards. -/
theorem Accounted.stop (h : Accounted (dc :: cells) d) (success : Bool) :
    ∃ dc' d', stopDownload dc success d = .ok (dc', d') ∧ dc'.downloadingClient = none ∧
      dc'.bid = dc.bid ∧ (success = false → dc'.status = dc.status) ∧
      Accounted cells d' ∧ Booked d d' := by
  unfold stopDownload
  split
  · next hstatus hclient =>
    rename_i who
    obtain ⟨-, hgood⟩ := h.named dc List.mem_cons_self who hclient
    obtain ⟨n, hn⟩ := Option.ne_none_iff_exists'.1 hgood
    have hnames : DownloadCell.Names who dc = true := by
      simp [DownloadCell.Names, hstatus, hclient]
    have hcounter := h.counter who n hn
    rw [List.countP_cons_of_pos hnames] at hcounter
    have hactive := h.active
    rw [List.countP_cons_of_pos (by simp [DownloadCell.Active, hstatus, hclient])] at hactive
    have hsum := total_update id d.goodClients (n - 1) hn
    have hget : ∀ a, (d.goodClients.put who (n - 1)).get a ≠ none ↔
        d.goodClients.get a ≠ none := by
      intro a
      rw [Store.get_put]
      split
      · next ha => exact iff_of_true (Option.some_ne_none _) (ha ▸ hgood)
      · rfl
    dsimp only
    rw [hn, Option.getD_some]
    have hcheck : invariant (n ≠ 0 ∧ d.totalDownloadingBlocks ≠ 0)
        "DownloadCell reference to good client not found" = .ok () :=
      invariant_eq_ok_iff.2 ⟨by omega, by omega⟩
    rw [hcheck]
    refine ⟨_, _, rfl, rfl, rfl, ?_, ⟨?_, ?_, fun a m hm ↦ ?_, fun dc' hmem a hnamed ↦ ?_,
      fun a ha ↦ ?_⟩, ⟨clients_put hn (n - 1), rfl⟩⟩
    · rintro rfl
      exact hstatus.symm
    · change d.totalDownloadingBlocks - 1 = (d.goodClients.put who (n - 1)).total id
      have htotal := h.sum
      simp only [id] at hsum htotal ⊢
      omega
    · change d.totalDownloadingBlocks - 1 = _
      omega
    · change (d.goodClients.put who (n - 1)).get a = some m at hm
      rw [Store.get_put] at hm
      by_cases ha : who = a
      · subst ha
        rw [if_pos rfl] at hm
        obtain rfl := Option.some.inj hm
        omega
      · rw [if_neg ha] at hm
        rw [h.counter a m hm, List.countP_cons_of_neg]
        simp [DownloadCell.Names, hclient, ha]
    · change dc'.status = .downloading ∧ (d.goodClients.put who (n - 1)).get a ≠ none
      rw [hget]
      exact h.named dc' (List.mem_cons_of_mem _ hmem) a hnamed
    · change (d.goodClients.put who (n - 1)).get a ≠ none
      rw [hget]
      exact h.chainClient a ha
  · next hother =>
    have hfree : dc.downloadingClient = none := by
      cases hclient : dc.downloadingClient with
      | none => rfl
      | some who =>
        have hstatus := (h.named dc List.mem_cons_self who hclient).1
        exact absurd hclient (hother who hstatus)
    exact ⟨dc, d, rfl, hfree, rfl, fun _ ↦ rfl, (Accounted.cons_free hfree).1 h, Booked.refl d⟩

/-- Cells at the end are stopped and dropped. -/
theorem Accounted.stopAll (h : Accounted (cells ++ rest) d) :
    ∃ d', stopAll rest d = .ok d' ∧ Accounted cells d' ∧ Booked d d' := by
  induction rest generalizing cells with
  | nil =>
    rw [List.append_nil] at h
    exact ⟨d, rfl, h, Booked.refl d⟩
  | cons dc rest ih =>
    have hafter : Accounted ((dc :: cells) ++ rest) d := h.perm List.perm_middle
    obtain ⟨d₁, hrest, h₁, hbooked₁⟩ := ih hafter
    obtain ⟨dc', d₂, hstop, _, _, _, h₂, hbooked₂⟩ := h₁.stop false
    refine ⟨d₂, ?_, h₂, hbooked₁.trans hbooked₂⟩
    rw [DownloaderV11.stopAll, hrest]
    dsimp only [bind, Except.bind]
    rw [hstop]
    rfl

/-! ## Loops over the cells -/

/-- The client that is chosen of a list is the one before it or one of the list. -/
theorem mem_of_readyClient {node : Node} {height : Height} (l : List (Client × ℕ))
    (ready : Option Client × UInt64 × UInt64)
    (h : (l.foldl (fun ready (who, counter) ↦
      let speed := max 1 (min (UInt64.ofNat (TOTAL_DOWNLOAD_BLOCKS / 4))
        (UInt64.ofNat (d.whoDownloadedBlock.count who)))
      if UInt64.ofNat counter * ready.2.2 < ready.2.1 * speed ∧
          height ≤ node.currentHeight who then
        (some who, UInt64.ofNat counter, speed)
      else ready) ready).1 = some who) : ready.1 = some who ∨ who ∈ l.map Prod.fst := by
  induction l generalizing ready with
  | nil => exact Or.inl h
  | cons p l ih =>
    rcases ih _ h with hfirst | hmem
    · dsimp only at hfirst
      split at hfirst
      · exact Or.inr (List.mem_map.2 ⟨p, List.mem_cons_self, Option.some.inj hfirst⟩)
      · exact Or.inl hfirst
    · exact Or.inr (List.mem_cons_of_mem _ hmem)

theorem readyClient_ne_none {node : Node} {height : Height}
    (h : d.readyClient node height = some who) : d.goodClients.get who ≠ none := by
  rcases mem_of_readyClient _ _ h with hnone | hmem
  · cases hnone
  · obtain ⟨⟨a, n⟩, hentry, rfl⟩ := List.mem_map.1 hmem
    rw [Store.mem_toList_iff.1 hentry]
    exact Option.some_ne_none n

theorem Accounted.assignCells (node : Node) (h : Accounted (cells ++ rest) d) :
    ∃ rest' d' cleaned, assignCells node rest d = .ok (rest', d', cleaned) ∧
      Accounted (cells ++ rest') d' ∧ Booked d d' ∧
      (rest'.map DownloadCell.planned).Sublist (rest.map DownloadCell.planned) := by
  induction rest generalizing cells d with
  | nil => exact ⟨[], d, false, rfl, h, Booked.refl d, List.Sublist.refl _⟩
  | cons dc rest ih =>
    rw [DownloaderV11.assignCells]
    split
    · have hafter : Accounted ((cells ++ [dc]) ++ rest) d := by
        rwa [List.append_assoc]
      obtain ⟨rest', d', cleaned, hrest, h', hbooked, hsub⟩ := ih hafter
      refine ⟨dc :: rest', d', cleaned, ?_, ?_, hbooked, hsub.cons_cons _⟩
      · rw [hrest]
        rfl
      · rwa [List.append_assoc] at h'
    · next hfree =>
      obtain ⟨hstatus, hclient⟩ := not_or.1 hfree
      split
      · exact ⟨dc :: rest, d, false, rfl, h, Booked.refl d, List.Sublist.refl _⟩
      · split
        · obtain ⟨d', hstop, h', hbooked⟩ := h.stopAll
          refine ⟨[], d', true, ?_, ?_, hbooked, List.nil_sublist _⟩
          · rw [hstop]
            rfl
          · rwa [List.append_nil]
        · next who hready =>
          have hgood : d.goodClients.get who ≠ none := by
            rcases Option.or_eq_some_iff.1 hready with hready | ⟨_, hchain⟩
            · exact readyClient_ne_none hready
            · exact h.chainClient who hchain
          obtain ⟨hstart, hbooked₁⟩ := (h.perm List.perm_middle).start (not_not.1 hstatus)
            (not_not.1 hclient) hgood
          have hafter : Accounted ((cells ++ [(startDownload dc who d).1]) ++ rest)
              (startDownload dc who d).2 := by
            rw [List.append_assoc]
            exact hstart.perm List.perm_middle.symm
          obtain ⟨rest', d', cleaned, hrest, h', hbooked, hsub⟩ := ih hafter
          refine ⟨(startDownload dc who d).1 :: rest', d', cleaned, ?_, ?_,
            hbooked₁.trans hbooked, hsub.cons_cons _⟩
          · dsimp only
            rw [hrest]
            rfl
          · rwa [List.append_assoc] at h'

theorem Accounted.missBlock (bid : Hash) (h : Accounted (cells ++ rest) d) :
    ∃ rest' d' cleaned, missBlock who bid rest d = .ok (rest', d', cleaned) ∧
      Accounted (cells ++ rest') d' ∧ Booked d d' ∧
      (rest'.map DownloadCell.planned).Sublist (rest.map DownloadCell.planned) := by
  induction rest generalizing cells d with
  | nil => exact ⟨[], d, false, rfl, h, Booked.refl d, List.Sublist.refl _⟩
  | cons dc rest ih =>
    rw [DownloaderV11.missBlock]
    split
    · next hdelivers =>
      obtain ⟨dc', d₁, hstop, hfree, hbid, hstatus, h₁, hbooked₁⟩ :=
        (h.perm List.perm_middle).stop false
      rw [hstop]
      dsimp only [bind, Except.bind]
      have hplanned : dc'.planned = dc.planned := by
        rw [DownloadCell.planned, hbid, hstatus rfl]
        rfl
      have hback : Accounted (cells ++ dc' :: rest) d₁ :=
        ((Accounted.cons_free hfree).2 h₁).perm List.perm_middle.symm
      split
      · obtain ⟨d', hstopAll, h', hbooked⟩ := hback.stopAll
        refine ⟨[], d', true, ?_, ?_, hbooked₁.trans hbooked, List.nil_sublist _⟩
        · rw [hstopAll]
          rfl
        · rwa [List.append_nil]
      · next other hother =>
        have hgood := h₁.chainClient other (Option.mem_filter_iff.1 hother).1
        obtain ⟨hstart, hbooked₂⟩ := ((Accounted.cons_free hfree).2 h₁).start
          ((hstatus rfl).trans hdelivers.1) hfree hgood
        have hafter : Accounted ((cells ++ [(startDownload dc' other d₁).1]) ++ rest)
            (startDownload dc' other d₁).2 := by
          rw [List.append_assoc]
          exact hstart.perm List.perm_middle.symm
        obtain ⟨rest', d', cleaned, hrest, h', hbooked, hsub⟩ := ih hafter
        refine ⟨(startDownload dc' other d₁).1 :: rest', d', cleaned, ?_, ?_,
          (hbooked₁.trans hbooked₂).trans hbooked, ?_⟩
        · rw [hrest]
          rfl
        · rwa [List.append_assoc] at h'
        · have hstarted : (startDownload dc' other d₁).1.planned = dc.planned := hplanned
          rw [List.map_cons, List.map_cons, hstarted]
          exact hsub.cons_cons _
    · have hafter : Accounted ((cells ++ [dc]) ++ rest) d := by
        rwa [List.append_assoc]
      obtain ⟨rest', d', cleaned, hrest, h', hbooked, hsub⟩ := ih hafter
      refine ⟨dc :: rest', d', cleaned, ?_, ?_, hbooked, hsub.cons_cons _⟩
      · rw [hrest]
        rfl
      · rwa [List.append_assoc] at h'

/-- A delivered block leaves the cells as they are, or goes from its cell into the queue. -/
theorem Accounted.receiveBlock (bid : Hash) (h : Accounted (cells ++ rest) d) :
    ∃ rest' d', receiveBlock who bid rest d = .ok (rest', d') ∧
      Accounted (cells ++ rest') d' ∧ d'.clients = d.clients ∧
      d' = { d with
        goodClients := d'.goodClients
        totalDownloadingBlocks := d'.totalDownloadingBlocks
        whoDownloadedBlock := d'.whoDownloadedBlock
        work := d'.work } ∧
      (rest'.map DownloadCell.planned = rest.map DownloadCell.planned ∧ d'.work = d.work ∨
        ∃ l r, rest.map DownloadCell.planned = l ++ (bid, .downloading) :: r ∧
          rest'.map DownloadCell.planned = l ++ (bid, .preparing) :: r ∧
          d'.work = d.work ++ [bid]) := by
  induction rest generalizing cells with
  | nil => exact ⟨[], d, rfl, h, rfl, rfl, Or.inl ⟨rfl, rfl⟩⟩
  | cons dc rest ih =>
    rw [DownloaderV11.receiveBlock]
    split
    · next hdelivers =>
      obtain ⟨dc', d₁, hstop, hfree, hbid, _, h₁, hbooked⟩ := (h.perm List.perm_middle).stop true
      have hwork : d₁.work = d.work := by rw [hbooked.rest]
      rw [hstop]
      refine ⟨_, _, rfl, ?_, hbooked.clients, ?_,
        Or.inr ⟨[], rest.map DownloadCell.planned, ?_, ?_, ?_⟩⟩
      · have hfree' : ({ dc' with status := .preparing } : DownloadCell).downloadingClient = none :=
          hfree
        have hperm := ((Accounted.cons_free hfree').2 h₁).perm List.perm_middle.symm
        exact ⟨hperm.sum, hperm.active, hperm.counter, hperm.named, hperm.chainClient⟩
      · rw [hbooked.rest]
      · rw [List.map_cons, DownloadCell.planned, hdelivers.1, hdelivers.2.2]
        rfl
      · rw [List.map_cons, DownloadCell.planned, hbid, hdelivers.2.2]
        rfl
      · rw [hwork, hbid, hdelivers.2.2]
    · have hafter : Accounted ((cells ++ [dc]) ++ rest) d := by
        rwa [List.append_assoc]
      obtain ⟨rest', d', hrest, h', hclients, hd', hplan⟩ := ih hafter
      refine ⟨dc :: rest', d', ?_, ?_, hclients, hd', ?_⟩
      · rw [hrest]
        rfl
      · rwa [List.append_assoc] at h'
      · rcases hplan with ⟨hsame, hwork⟩ | ⟨l, r, hbefore, hafter, hwork⟩
        · exact Or.inl ⟨by rw [List.map_cons, List.map_cons, hsame], hwork⟩
        · refine Or.inr ⟨dc.planned :: l, r, ?_, ?_, hwork⟩
          · rw [List.map_cons, hbefore]
            rfl
          · rw [List.map_cons, hafter]
            rfl

end Loops

/-! ## Rounds -/

section Rounds

variable {node : Node} {d d' : DownloaderV11} {who : Client}

/-- Counters, total and the cells of the window agree. -/
def Sound (d : DownloaderV11) : Prop := Accounted d.downloadChain d

/-- A round succeeds and leaves sound accounts. -/
def Succeeds (d : DownloaderV11) (x : Except Fault DownloaderV11) : Prop :=
  ∃ d', x = .ok d' ∧ Sound d' ∧ Advances d d'

theorem Succeeds.refl (h : Sound d) : Succeeds d (.ok d) := ⟨d, rfl, h, Advances.refl d⟩

theorem Succeeds.after {x : Except Fault DownloaderV11} (hadvances : Advances d d')
    (h : Succeeds d' x) : Succeeds d x := by
  obtain ⟨d'', hx, hsound, h'⟩ := h
  exact ⟨d'', hx, hsound, hadvances.trans h'⟩

/-- The window replaced by cells of a part of its plan. -/
theorem Advances.of_booked {cells : List DownloadCell} (hbooked : Booked d d')
    (hsub : (cells.map DownloadCell.planned).Sublist (d.downloadChain.map DownloadCell.planned)) :
    Advances d { d' with downloadChain := cells } := by
  have hclients := hbooked.clients
  rw [hbooked.rest]
  refine ⟨?_, hsub.append_right _, rfl, Or.inl⟩
  rw [hbooked.rest] at hclients
  exact hclients.le

theorem clients_remove_lt (h : d.goodClients.get who ≠ none) :
    (d.goodClients.remove who).total (fun _ ↦ 1) < d.clients := by
  obtain ⟨n, hn⟩ := Option.ne_none_iff_exists'.1 h
  have htotal := Store.total_remove (fun _ ↦ 1) d.goodClients hn
  unfold clients
  omega

theorem remove_of_get_none (h : d.goodClients.get who = none) :
    d.goodClients.remove who = d.goodClients := by
  refine Store.ext fun a ↦ ?_
  rw [Store.get_remove]
  split
  · next ha => rw [← ha, h]
  · rfl

theorem countP_release (p : DownloadCell → Bool) (q : DownloadCell → Bool)
    (f : DownloadCell → DownloadCell) (cells : List DownloadCell)
    (hkept : ∀ dc, q dc = false → p (f dc) = p dc) (hp : ∀ dc, q dc = true → p dc = true)
    (hreleased : ∀ dc, q dc = true → p (f dc) = false) :
    (cells.map f).countP p + cells.countP q = cells.countP p := by
  induction cells with
  | nil => rfl
  | cons dc cells ih =>
    rw [List.map_cons, List.countP_cons, List.countP_cons, List.countP_cons]
    cases hq : q dc with
    | false =>
      rw [hkept dc hq]
      simp only [Bool.false_eq_true, if_false]
      omega
    | true =>
      rw [hp dc hq, hreleased dc hq]
      simp only [Bool.false_eq_true, if_false, if_true]
      omega

/-- The cell without the client that is gone. -/
def DownloadCell.release (who : Client) (dc : DownloadCell) : DownloadCell :=
  if dc.status = .downloading ∧ dc.downloadingClient = some who then
    { dc with downloadingClient := none }
  else dc

theorem DownloadCell.planned_release (who : Client) (dc : DownloadCell) :
    (dc.release who).planned = dc.planned := by
  unfold DownloadCell.release
  split
  · rfl
  · rfl

theorem DownloadCell.names_release (who a : Client) (dc : DownloadCell) :
    DownloadCell.Names a (dc.release who) = (DownloadCell.Names a dc && decide (who ≠ a)) := by
  unfold DownloadCell.release
  split
  · next h =>
    by_cases ha : who = a
    · simp [DownloadCell.Names, ha]
    · simp [DownloadCell.Names, h.2, ha]
  · next h =>
    by_cases ha : who = a
    · subst ha
      simp [DownloadCell.Names, h]
    · simp [ha]

/-- The invariant of `on_disconnect` holds, and the accounts without the client are sound. -/
theorem Sound.disconnect (h : Sound d) (who : Client) :
    (d.goodClients.get who).getD 0 ≤ d.totalDownloadingBlocks ∧
    Sound { d with
      totalDownloadingBlocks := d.totalDownloadingBlocks - (d.goodClients.get who).getD 0
      goodClients := d.goodClients.remove who
      whoDownloadedBlock := d.whoDownloadedBlock.filter fun a ↦ a ≠ who
      downloadChain := d.downloadChain.map (DownloadCell.release who)
      chainClient := if decide (d.chainClient = some who) then none else d.chainClient
      chainRequestSent :=
        if decide (d.chainClient = some who) then false else d.chainRequestSent } := by
  have hcounter : (d.goodClients.get who).getD 0 =
      d.downloadChain.countP (DownloadCell.Names who) := by
    cases hget : d.goodClients.get who with
    | some n => exact h.counter who n hget
    | none =>
      symm
      rw [Option.getD_none, List.countP_eq_zero]
      intro dc hmem hnames
      have hclient := (of_decide_eq_true hnames).2
      exact (h.named dc hmem who hclient).2 hget
  have hreleased := countP_release DownloadCell.Active (DownloadCell.Names who)
    (DownloadCell.release who) d.downloadChain
    (fun dc hq ↦ by
      unfold DownloadCell.release
      rw [if_neg (of_decide_eq_false hq)])
    (fun dc hq ↦ by
      obtain ⟨hstatus, hclient⟩ := of_decide_eq_true hq
      simp [DownloadCell.Active, hstatus, hclient])
    (fun dc hq ↦ by
      unfold DownloadCell.release
      rw [if_pos (of_decide_eq_true hq)]
      simp [DownloadCell.Active])
  have hactive := h.active
  refine ⟨by omega, ⟨?_, ?_, fun a n hget ↦ ?_, fun dc hmem a hnamed ↦ ?_, fun a ha ↦ ?_⟩⟩
  · change d.totalDownloadingBlocks - (d.goodClients.get who).getD 0 =
      (d.goodClients.remove who).total id
    have hsum := h.sum
    cases hget : d.goodClients.get who with
    | none =>
      rw [remove_of_get_none hget]
      exact hsum
    | some n =>
      have htotal := Store.total_remove id d.goodClients hget
      rw [Option.getD_some]
      simp only [id] at hsum htotal ⊢
      omega
  · change d.totalDownloadingBlocks - (d.goodClients.get who).getD 0 =
      (d.downloadChain.map (DownloadCell.release who)).countP DownloadCell.Active
    omega
  · change (d.goodClients.remove who).get a = some n at hget
    change n = (d.downloadChain.map (DownloadCell.release who)).countP (DownloadCell.Names a)
    rw [Store.get_remove] at hget
    split at hget
    · cases hget
    · next ha =>
      rw [h.counter a n hget, List.countP_map]
      congr 1
      funext dc
      rw [Function.comp_apply, DownloadCell.names_release]
      simp [ha]
  · obtain ⟨dc₀, hdc₀, rfl⟩ := List.mem_map.1 hmem
    change _ ∧ (d.goodClients.remove who).get a ≠ none
    unfold DownloadCell.release at hnamed ⊢
    split at hnamed
    · cases hnamed
    · next hnot =>
      obtain ⟨hstatus, hgood⟩ := h.named dc₀ hdc₀ a hnamed
      have ha : who ≠ a := by
        rintro rfl
        exact hnot ⟨hstatus, hnamed⟩
      rw [if_neg hnot, Store.get_remove_of_ne _ ha]
      exact ⟨hstatus, hgood⟩
  · change (if decide (d.chainClient = some who) then none else d.chainClient) = some a at ha
    change (d.goodClients.remove who).get a ≠ none
    split at ha
    · cases ha
    · next hnot =>
      have hne : who ≠ a := by
        rintro rfl
        exact hnot (decide_eq_true ha)
      rw [Store.get_remove_of_ne _ hne]
      exact h.chainClient a ha

/-- A disconnect succeeds if the round after it does, which has one client less if a good one is
gone. -/
theorem Sound.onDisconnectBy (h : Sound d) {advance : DownloaderV11 → Except Fault DownloaderV11}
    (hadvance : ∀ d', Sound d' → d'.clients ≤ d.clients →
      (d.goodClients.get who ≠ none → d'.clients < d.clients) → Succeeds d' (advance d')) :
    Succeeds d (onDisconnectBy advance node who d) := by
  unfold DownloaderV11.onDisconnectBy
  split
  · exact Succeeds.refl h
  · obtain ⟨hle, hsound⟩ := h.disconnect who
    have hcheck : invariant ((d.goodClients.get who).getD 0 ≤ d.totalDownloadingBlocks)
        "total_downloading_blocks mismatch in disconnect" = .ok () := invariant_eq_ok_iff.2 hle
    dsimp only
    rw [hcheck]
    have hclients : (d.goodClients.remove who).total (fun _ ↦ 1) ≤ d.clients := by
      by_cases hgood : d.goodClients.get who = none
      · rw [remove_of_get_none hgood]
        exact le_refl _
      · exact (clients_remove_lt hgood).le
    refine Succeeds.after ?_ (hadvance _ hsound hclients fun hgood ↦ clients_remove_lt hgood)
    refine ⟨hclients, ?_, rfl, fun hsent ↦ Or.inl ?_⟩
    · change (((d.downloadChain.map (DownloadCell.release who)).map DownloadCell.planned) ++
        _).Sublist
        _
      rw [List.map_map]
      have hsame : DownloadCell.planned ∘ DownloadCell.release who = DownloadCell.planned :=
        funext (DownloadCell.planned_release who)
      rw [hsame]
      exact List.Sublist.refl _
    · change (if decide (d.chainClient = some who) then false else d.chainRequestSent) = true
        at hsent
      split at hsent
      · cases hsent
      · exact hsent

/-! ## `advance_download` -/

theorem Accounted.append_free {cells new : List DownloadCell} (h : Accounted cells d)
    (hnew : ∀ dc ∈ new, dc.downloadingClient = none) : Accounted (cells ++ new) d := by
  refine Accounted.perm ?_ List.perm_append_comm
  induction new with
  | nil => exact h
  | cons dc new ih =>
    exact (Accounted.cons_free (hnew dc List.mem_cons_self)).2
      (ih fun dc' hmem ↦ hnew dc' (List.mem_cons_of_mem _ hmem))

theorem drop_length_take {α : Type} (l : List α) (n : ℕ) : l.drop (l.take n).length = l.drop n := by
  rw [List.length_take]
  rcases le_total n l.length with hle | hle
  · rw [min_eq_left hle]
  · rw [min_eq_right hle, List.drop_length, List.drop_eq_nil_of_le hle]

theorem plan_fillWindow (d : DownloaderV11) : d.fillWindow.plan = d.plan := by
  unfold plan fillWindow
  dsimp only
  rw [drop_length_take, List.map_append, List.append_assoc]
  congr 1
  have hcells : ∀ (bids : List Hash) (height : Height), (bids.mapIdx fun i bid ↦
      ({ bid, expectedHeight := height + UInt32.ofNat i } : DownloadCell)).map
        DownloadCell.planned = bids.map fun bid ↦ (bid, .downloading) := by
    intro bids height
    refine List.ext_getElem (by simp) fun i _ _ ↦ ?_
    simp [DownloadCell.planned]
  rw [hcells, ← List.map_append, List.take_append_drop]

theorem Sound.fillWindow (h : Sound d) : Sound d.fillWindow ∧ Advances d d.fillWindow := by
  constructor
  · have hfree : ∀ (bids : List Hash) (height : Height), ∀ dc ∈ bids.mapIdx fun i bid ↦
        ({ bid, expectedHeight := height + UInt32.ofNat i } : DownloadCell),
        dc.downloadingClient = none := by
      intro bids height dc hmem
      obtain ⟨i, hi, rfl⟩ := List.mem_mapIdx.1 hmem
      rfl
    have hcells := Accounted.append_free h (hfree (d.chain.take
      (TOTAL_DOWNLOAD_WINDOW - d.downloadChain.length)) d.chainStartHeight)
    exact ⟨hcells.sum, hcells.active, hcells.counter, hcells.named, hcells.chainClient⟩
  · exact ⟨le_refl _, by rw [plan_fillWindow], rfl, Or.inl⟩

theorem Sound.advanceChainBy (h : Sound d)
    {advance : DownloaderV11 → Except Fault DownloaderV11}
    (hadvance : ∀ d', Sound d' → d'.clients < d.clients → Succeeds d' (advance d')) :
    Succeeds d (advanceChainBy advance node d) := by
  unfold DownloaderV11.advanceChainBy
  split
  · exact Succeeds.refl h
  · next hbusy =>
    obtain ⟨hchain, hbusy⟩ := not_or.1 hbusy
    obtain ⟨hcells, -⟩ := not_or.1 hbusy
    have hempty : d.plan = [] := by
      unfold plan
      rw [not_not.1 hchain, not_not.1 hcells]
      rfl
    have hreset : Sound { d with chainClient := none } :=
      ⟨h.sum, h.active, h.counter, h.named, fun who hwho ↦ by cases hwho⟩
    have hgood : ∀ who ∈ d.goodClients.toList.map Prod.fst, d.goodClients.get who ≠ none := by
      intro who hmem
      obtain ⟨⟨a, n⟩, hentry, rfl⟩ := List.mem_map.1 hmem
      rw [Store.mem_toList_iff.1 hentry]
      exact Option.some_ne_none n
    have hadvances : Advances d { d with chainClient := none } :=
      ⟨le_refl _, List.Sublist.refl _, rfl, Or.inl⟩
    refine Succeeds.after hadvances ?_
    dsimp only
    split
    · split
      · next who _ hlagging =>
        have hmem : who ∈ d.goodClients.toList.map Prod.fst :=
          List.mem_of_mem_filter (hlagging ▸ List.mem_cons_self)
        exact hreset.onDisconnectBy fun d' hsound _ hlt ↦ hadvance d' hsound (hlt (hgood who hmem))
      · exact Succeeds.refl hreset
    · split
      · exact Succeeds.refl hreset
      · next who hworth =>
        have hmem : who ∈ d.goodClients.toList.map Prod.fst :=
          List.mem_of_mem_filter (List.mem_of_getElem? hworth)
        refine ⟨_, rfl, ⟨h.sum, h.active, h.counter, h.named, fun a ha ↦ ?_⟩,
          ⟨le_refl _, List.Sublist.refl _, rfl, fun _ ↦ Or.inr hempty⟩⟩
        obtain rfl := Option.some.inj ha
        exact hgood who hmem

theorem slowClient_mem (h : d.slowClient node = some who) :
    ∃ dc ∈ d.downloadChain, dc.downloadingClient = some who := by
  unfold slowClient at h
  split at h
  · cases h
  · next front cells hcells =>
    split at h
    · exact ⟨front, hcells ▸ List.mem_cons_self, h⟩
    · cases h

/-- Every round comes to an end with sound accounts: a round nested in another has one good client
less. -/
theorem Sound.advanceDownloadBy {fuel : ℕ} (h : Sound d) (hfuel : d.clients < fuel) :
    Succeeds d (advanceDownloadBy fuel node d) := by
  induction fuel generalizing d with
  | zero => exact absurd hfuel (Nat.not_lt_zero _)
  | succ fuel ih =>
    rw [DownloaderV11.advanceDownloadBy]
    split
    · exact Succeeds.refl h
    · obtain ⟨hfill, hfilled⟩ := h.fillWindow
      have hnested : ∀ (d₀ : DownloaderV11), d₀.clients ≤ d.clients →
          ∀ d', Sound d' → d'.clients < d₀.clients → Succeeds d' (advanceDownloadBy fuel node d') :=
        fun d₀ hle d' hsound hlt ↦ ih hsound (by omega)
      obtain ⟨d₁, hchain, hsound₁, h₁⟩ : Succeeds d.fillWindow
          (DownloaderV11.advanceChainBy (DownloaderV11.advanceDownloadBy fuel node) node
            d.fillWindow) :=
        hfill.advanceChainBy (hnested _ hfilled.clients)
      have hadvances₁ := hfilled.trans h₁
      rw [hchain]
      dsimp only [bind, Except.bind]
      -- the list of deliveries is not part of the accounts
      generalize d₁.whoDownloadedBlock.drop
        (d₁.whoDownloadedBlock.length - TOTAL_DOWNLOAD_BLOCKS) = deliveries
      have hsound₂ : Accounted ([] ++ d₁.downloadChain)
          { d₁ with whoDownloadedBlock := deliveries } :=
        ⟨hsound₁.sum, hsound₁.active, hsound₁.counter, hsound₁.named, hsound₁.chainClient⟩
      obtain ⟨cells, d₃, cleaned, hassign, hsound₃, hbooked, hsub⟩ := hsound₂.assignCells node
      rw [List.nil_append] at hsound₃
      have hdeliveries : Advances d₁ { d₁ with whoDownloadedBlock := deliveries } :=
        ⟨le_refl _, List.Sublist.refl _, rfl, Or.inl⟩
      have hadvances₃ : Advances d { d₃ with downloadChain := cells } :=
        (hadvances₁.trans hdeliveries).trans (Advances.of_booked hbooked hsub)
      have hcells : Sound { d₃ with downloadChain := cells } :=
        ⟨hsound₃.sum, hsound₃.active, hsound₃.counter, hsound₃.named, hsound₃.chainClient⟩
      rw [hassign]
      dsimp only
      split
      · have hcleaned : Sound { d₃ with downloadChain := cells, chain := [] } :=
          ⟨hsound₃.sum, hsound₃.active, hsound₃.counter, hsound₃.named, hsound₃.chainClient⟩
        have hdropped : Advances { d₃ with downloadChain := cells }
            { d₃ with downloadChain := cells, chain := [] } :=
          ⟨le_refl _, (List.nil_sublist _).append_left _, rfl, Or.inl⟩
        have hadvances := hadvances₃.trans hdropped
        exact Succeeds.after hadvances
          (hcleaned.advanceChainBy (hnested _ hadvances.clients))
      · split
        · exact ⟨_, rfl, hcells, hadvances₃⟩
        · next who hslow =>
          obtain ⟨dc, hmem, hclient⟩ := slowClient_mem hslow
          have hgood := (hcells.named dc hmem who hclient).2
          let protect : DownloadCell → DownloadCell := fun dc ↦
            if dc.downloadingClient = some who then { dc with protectFromDisconnect := true }
            else dc
          have hprotect : ∀ dc, (protect dc).status = dc.status ∧
              (protect dc).downloadingClient = dc.downloadingClient ∧
              (protect dc).planned = dc.planned := by
            intro dc
            unfold protect
            split
            · exact ⟨rfl, rfl, rfl⟩
            · exact ⟨rfl, rfl, rfl⟩
          have hmapped := Accounted.congr hcells (fun dc ↦ (hprotect dc).1)
            fun dc ↦ (hprotect dc).2.1
          have hsound₄ : Sound { d₃ with downloadChain := cells.map protect } :=
            ⟨hmapped.sum, hmapped.active, hmapped.counter, hmapped.named, hmapped.chainClient⟩
          have hsame : (cells.map protect).map DownloadCell.planned =
              cells.map DownloadCell.planned := by
            rw [List.map_map]
            exact List.map_congr_left fun dc _ ↦ (hprotect dc).2.2
          have hprotected : Advances { d₃ with downloadChain := cells }
              { d₃ with downloadChain := cells.map protect } :=
            ⟨le_refl _, List.Sublist.append_right (by rw [hsame]) _, rfl, Or.inl⟩
          have hadvances := hadvances₃.trans hprotected
          exact Succeeds.after hadvances (hsound₄.onDisconnectBy fun d' hsound _ hlt ↦
            hnested _ hadvances.clients d' hsound (hlt hgood))

theorem Sound.advanceDownload (h : Sound d) (node : Node) :
    Succeeds d (advanceDownload node d) :=
  h.advanceDownloadBy (Nat.lt_succ_self _)

theorem Sound.onDisconnect (h : Sound d) (node : Node) (who : Client) :
    Succeeds d (onDisconnect node who d) :=
  h.onDisconnectBy fun _ hsound _ _ ↦ hsound.advanceDownload node

end Rounds

/-! ## Handlers -/

section Handlers

variable {node : Node} {d d' : DownloaderV11} {who : Client}

/-- What handlers do to the plan: rounds of `advance_download`, and blocks that are delivered. -/
inductive Moves (d : DownloaderV11) : DownloaderV11 → Prop where
  | refl : Moves d d
  | shrinks {d' d'' : DownloaderV11} (before : Moves d d') (plan : d''.plan.Sublist d'.plan)
      (items : d''.items = d'.items)
      (request : d''.chainRequestSent = true → d'.chainRequestSent = true ∨ d''.plan = []) :
      Moves d d''
  | receives {d' d'' : DownloaderV11} {l r : List (Hash × Status)} {bid : Hash}
      (before : Moves d d') (plan : d'.plan = l ++ (bid, .downloading) :: r)
      (plan' : d''.plan = l ++ (bid, .preparing) :: r) (items : d''.items.Perm (bid :: d'.items))
      (request : d''.chainRequestSent = d'.chainRequestSent) : Moves d d''

theorem Moves.trans {d'' : DownloaderV11} (h : Moves d d') (h' : Moves d' d'') : Moves d d'' := by
  induction h' with
  | refl => exact h
  | shrinks _ plan items request ih => exact .shrinks ih plan items request
  | receives _ plan plan' items request ih => exact .receives ih plan plan' items request

theorem Advances.moves (h : Advances d d') : Moves d d' :=
  .shrinks .refl h.plan h.items h.request

/-- A handler succeeds and leaves sound accounts. -/
def Returns (d : DownloaderV11) (x : Except Fault DownloaderV11) : Prop :=
  ∃ d', x = .ok d' ∧ Sound d' ∧ Moves d d'

theorem Returns.refl (h : Sound d) : Returns d (.ok d) := ⟨d, rfl, h, .refl⟩

theorem Returns.after {x : Except Fault DownloaderV11} (hmoves : Moves d d') (h : Returns d' x) :
    Returns d x := by
  obtain ⟨d'', hx, hsound, h'⟩ := h
  exact ⟨d'', hx, hsound, hmoves.trans h'⟩

theorem Succeeds.returns {x : Except Fault DownloaderV11} (h : Succeeds d x) : Returns d x := by
  obtain ⟨d', hx, hsound, hadvances⟩ := h
  exact ⟨d', hx, hsound, hadvances.moves⟩

theorem Sound.onConnect (h : Sound d) (node : Node) (who : Client) :
    Returns d (onConnect node who d) := by
  unfold DownloaderV11.onConnect
  split
  · exact Returns.refl h
  · split
    · dsimp only
      split
      · next hnone =>
        have hget : ∀ a, d.goodClients.get a ≠ none → (d.goodClients.put who 0).get a ≠ none := by
          intro a ha
          rw [Store.get_put]
          split
          · exact Option.some_ne_none _
          · exact ha
        have hconnected : Sound { d with goodClients := d.goodClients.put who 0 } := by
          refine ⟨?_, h.active, ?_, ?_, ?_⟩
          · change d.totalDownloadingBlocks = (d.goodClients.put who 0).total id
            rw [Store.total_put id _ _ hnone, h.sum]
            exact (Nat.zero_add _).symm
          · intro a n hn
            change (d.goodClients.put who 0).get a = some n at hn
            rw [Store.get_put] at hn
            split at hn
            · next ha =>
              obtain rfl := Option.some.inj hn
              subst ha
              symm
              rw [List.countP_eq_zero]
              intro dc hmem hnames
              exact (h.named dc hmem _ (of_decide_eq_true hnames).2).2 hnone
            · exact h.counter a n hn
          · intro dc hmem a hnamed
            obtain ⟨hstatus, hgood⟩ := h.named dc hmem a hnamed
            exact ⟨hstatus, hget a hgood⟩
          · intro a ha
            exact hget a (h.chainClient a ha)
        have hmoves : Moves d { d with goodClients := d.goodClients.put who 0 } :=
          .shrinks .refl (List.Sublist.refl _) rfl Or.inl
        exact (hconnected.advanceDownload node).returns.after hmoves
      · exact (h.advanceDownload node).returns
    · exact Returns.refl h

theorem Sound.onChainTimer (h : Sound d) (node : Node) : Returns d (onChainTimer node d) := by
  unfold DownloaderV11.onChainTimer
  split
  · exact Returns.refl h
  · exact (h.onDisconnect node _).returns

theorem Sound.onDownloadTimer (h : Sound d) (node : Node) :
    Returns d (onDownloadTimer node d) := by
  unfold DownloaderV11.onDownloadTimer
  split
  · exact Returns.refl h
  · split
    · exact Returns.refl h
    · split
      · exact (h.onDisconnect node _).returns
      · exact Returns.refl h

/-- The ids of an answer after those that the node has or downloads. -/
def strip (node : Node) (blockIds : List Hash) (d : DownloaderV11) : List Hash :=
  blockIds.dropWhile fun bid ↦
    node.hasBlock bid || decide (bid ∈ d.downloadChain.map DownloadCell.bid)

/-- The chain of an answer is taken. -/
def takeChain (node : Node) (startHeight : Height) (blockIds : List Hash) (d : DownloaderV11) :
    DownloaderV11 :=
  { d with
    chainRequestSent := false
    chain := d.strip node blockIds
    chainStartHeight :=
      startHeight + UInt32.ofNat (blockIds.length - (d.strip node blockIds).length) }

/-- The chain is taken from the client that was asked, and no other answer changes anything. -/
theorem Sound.onMsgNotifyRequestChain (h : Sound d) (node : Node) (who : Client)
    (startHeight : Height) (blockIds : List Hash) :
    onMsgNotifyRequestChain node who startHeight blockIds d = .ok d ∨
      (d.chainClient = some who ∧ d.chainRequestSent = true) ∧
        Returns (d.takeChain node startHeight blockIds)
          (onMsgNotifyRequestChain node who startHeight blockIds d) := by
  unfold DownloaderV11.onMsgNotifyRequestChain
  split
  · exact Or.inl rfl
  · next hasked =>
    obtain ⟨hclient, hsent⟩ := not_or.1 hasked
    refine Or.inr ⟨⟨not_not.1 hclient, (Bool.not_eq_false _).mp hsent⟩, ?_⟩
    have htaken : Sound (d.takeChain node startHeight blockIds) :=
      ⟨h.sum, h.active, h.counter, h.named, h.chainClient⟩
    change Returns _ ((if blockIds = [] then
      (d.takeChain node startHeight blockIds).onDisconnect node who
        else .ok (d.takeChain node startHeight blockIds)) >>= fun d ↦ d.advanceDownload node)
    split
    · obtain ⟨d₁, hdisconnect, h₁, hadvances⟩ := htaken.onDisconnect node who
      rw [hdisconnect]
      exact (h₁.advanceDownload node).returns.after hadvances.moves
    · exact (htaken.advanceDownload node).returns

theorem Sound.receiveBlocks (h : Sound d) (node : Node) (who : Client)
    (blocks : List (Option Hash)) : Returns d (receiveBlocks node who blocks d) := by
  induction blocks generalizing d with
  | nil => exact Returns.refl h
  | cons block blocks ih =>
    cases block with
    | none => exact (h.onDisconnect node who).returns
    | some bid =>
      obtain ⟨cells, d₁, hreceive, h₁, _, hd₁, hplan⟩ :=
        @Accounted.receiveBlock [] d.downloadChain d who bid h
      rw [DownloaderV11.receiveBlocks, hreceive]
      have hsound : Sound { d₁ with downloadChain := cells } :=
        ⟨h₁.sum, h₁.active, h₁.counter, h₁.named, h₁.chainClient⟩
      refine (ih hsound).after ?_
      have hchain : d₁.chain = d.chain := by rw [hd₁]
      have hthreads : d₁.inThreads = d.inThreads := by rw [hd₁]
      have hprepared : d₁.preparedBlocks = d.preparedBlocks := by rw [hd₁]
      have hrequest : d₁.chainRequestSent = d.chainRequestSent := by rw [hd₁]
      rcases hplan with ⟨hsame, hwork⟩ | ⟨l, r, hbefore, hafter, hwork⟩
      · refine .shrinks .refl ?_ ?_ fun hsent ↦ Or.inl (hrequest ▸ hsent)
        · change (cells.map DownloadCell.planned ++ d₁.chain.map _).Sublist _
          rw [hsame, hchain]
          exact List.Sublist.refl _
        · change d₁.work ++ d₁.inThreads ++ d₁.preparedBlocks.toList.map Prod.fst = _
          rw [hwork, hthreads, hprepared]
          rfl
      · have hplan : d.plan = l ++ (bid, .downloading) ::
            (r ++ d.chain.map fun bid ↦ (bid, .downloading)) := by
          unfold plan
          rw [hbefore, List.append_assoc]
          rfl
        refine .receives .refl hplan ?_ ?_ hrequest
        · change cells.map DownloadCell.planned ++ d₁.chain.map _ = _
          rw [hafter, hchain, List.append_assoc]
          rfl
        · change (d₁.work ++ d₁.inThreads ++ d₁.preparedBlocks.toList.map Prod.fst).Perm _
          rw [hwork, hthreads, hprepared, List.append_assoc, List.append_assoc]
          have hitems : d.items = d.work ++ (d.inThreads ++ d.preparedBlocks.toList.map Prod.fst) :=
            List.append_assoc _ _ _
          rw [hitems]
          exact List.perm_middle

theorem Sound.missBlocks (h : Sound d) (node : Node) (who : Client) (missedIds : List Hash) :
    Returns d (missBlocks node who missedIds d) := by
  induction missedIds generalizing d with
  | nil => exact (h.advanceDownload node).returns
  | cons bid missedIds ih =>
    obtain ⟨cells, d₁, cleaned, hmiss, h₁, hbooked, hsub⟩ :=
      @Accounted.missBlock [] d.downloadChain d who bid h
    have hmissed : Advances d { d₁ with downloadChain := cells } := Advances.of_booked hbooked hsub
    rw [DownloaderV11.missBlocks, hmiss]
    dsimp only [bind, Except.bind]
    split
    · have hcleaned : Sound { d₁ with downloadChain := cells, chain := [] } :=
        ⟨h₁.sum, h₁.active, h₁.counter, h₁.named, h₁.chainClient⟩
      have hdropped : Advances { d₁ with downloadChain := cells }
          { d₁ with downloadChain := cells, chain := [] } :=
        ⟨le_refl _, (List.nil_sublist _).append_left _, rfl, Or.inl⟩
      exact (hcleaned.advanceDownload node).returns.after (hmissed.trans hdropped).moves
    · have hsound : Sound { d₁ with downloadChain := cells } :=
        ⟨h₁.sum, h₁.active, h₁.counter, h₁.named, h₁.chainClient⟩
      exact (ih hsound).after hmissed.moves

theorem Sound.onMsgNotifyRequestObjects (h : Sound d) (node : Node) (who : Client)
    (blocks : List (Option Hash)) (missedIds : List Hash) :
    Returns d (onMsgNotifyRequestObjects node who blocks missedIds d) := by
  obtain ⟨d₁, hreceive, h₁, hmoves⟩ := h.receiveBlocks node who blocks
  unfold DownloaderV11.onMsgNotifyRequestObjects
  rw [hreceive]
  exact (h₁.missBlocks node who missedIds).after hmoves

/-- A cell that waits for its prepared block has no client. -/
theorem Accounted.takePrepared {cells rest : List DownloadCell} (bid : Hash)
    (h : Accounted (cells ++ rest) d) : Accounted (cells ++ takePrepared bid rest) d := by
  induction rest generalizing cells with
  | nil => exact h
  | cons dc rest ih =>
    rw [DownloaderV11.takePrepared]
    split
    · next hwaits =>
      have hcons := h.perm List.perm_middle
      have hfree : dc.downloadingClient = none := by
        cases hclient : dc.downloadingClient with
        | none => rfl
        | some who =>
          have hstatus := (hcons.named dc List.mem_cons_self who hclient).1
          rw [hwaits.1] at hstatus
          cases hstatus
      have hfree' : ({ dc with status := .prepared } : DownloadCell).downloadingClient = none :=
        hfree
      exact ((Accounted.cons_free hfree').2 ((Accounted.cons_free hfree).1 hcons)).perm
        List.perm_middle.symm
    · have hafter : Accounted ((cells ++ [dc]) ++ rest) d := by rwa [List.append_assoc]
      have hrest := ih hafter
      rwa [List.append_assoc] at hrest

theorem Sound.takeAllPrepared (h : Sound d) : Sound d.takeAllPrepared := by
  have hcells : ∀ (bids : List Hash) (cells : List DownloadCell), Accounted cells d →
      Accounted (bids.foldl (fun cells bid ↦ takePrepared bid cells) cells) d := by
    intro bids
    induction bids with
    | nil => exact fun _ h ↦ h
    | cons bid bids ih => exact fun cells h ↦ ih _ (@Accounted.takePrepared d [] cells bid h)
  have hall := hcells (d.preparedBlocks.toList.map Prod.fst) d.downloadChain h
  exact ⟨hall.sum, hall.active, hall.counter, hall.named, hall.chainClient⟩

/-- Cells whose blocks are prepared may be taken from the front. -/
theorem Accounted.drop {cells : List DownloadCell} (h : Accounted cells d) (n : ℕ)
    (hn : n ≤ (cells.takeWhile fun dc ↦ dc.status = .prepared).length) :
    Accounted (cells.drop n) d := by
  induction n generalizing cells with
  | zero => exact h
  | succ n ih =>
    cases cells with
    | nil => exact h
    | cons dc cells =>
      rw [List.takeWhile_cons] at hn
      split at hn
      · next hprepared =>
        have hfree : dc.downloadingClient = none := by
          cases hclient : dc.downloadingClient with
          | none => rfl
          | some who =>
            have hstatus := (h.named dc List.mem_cons_self who hclient).1
            rw [of_decide_eq_true hprepared] at hstatus
            cases hstatus
        exact ih ((Accounted.cons_free hfree).1 h) (Nat.succ_le_succ_iff.1 hn)
      · cases hn

theorem Sound.onIdle (h : Sound d) (node : Node) (limit : ℕ) :
    Returns d.takeAllPrepared (onIdle node limit d) := by
  unfold DownloaderV11.onIdle
  dsimp only
  have htaken := h.takeAllPrepared
  generalize d.takeAllPrepared = taken at htaken ⊢
  split
  · exact Returns.refl htaken
  · have hdropped := Accounted.drop htaken (taken.addedCells limit) (min_le_right _ _)
    let cells := taken.downloadChain.drop (taken.addedCells limit)
    have hsound : Sound { taken with downloadChain := cells } :=
      ⟨hdropped.sum, hdropped.active, hdropped.counter, hdropped.named, hdropped.chainClient⟩
    have hmoves : Moves taken { taken with downloadChain := cells } :=
      .shrinks .refl (((List.drop_sublist _ _).map _).append_right _) rfl Or.inl
    exact (hsound.advanceDownload node).returns.after hmoves

theorem Sound.step (h : Sound d) (e : Node × Event) : ∃ d', step d e = .ok d' ∧ Sound d' := by
  have hreturns : ∀ {d₀ : DownloaderV11} {x : Except Fault DownloaderV11}, Returns d₀ x →
      ∃ d', x = .ok d' ∧ Sound d' := fun ⟨d', hx, hsound, _⟩ ↦ ⟨d', hx, hsound⟩
  obtain ⟨node, e⟩ := e
  cases e with
  | connect who => exact hreturns (h.onConnect node who)
  | disconnect who => exact hreturns (h.onDisconnect node who).returns
  | chain who startHeight blockIds =>
    rcases h.onMsgNotifyRequestChain node who startHeight blockIds with hsame | ⟨_, hreturned⟩
    · exact ⟨d, hsame, h⟩
    · exact hreturns hreturned
  | objects who blocks missedIds =>
    exact hreturns (h.onMsgNotifyRequestObjects node who blocks missedIds)
  | idle limit => exact hreturns (h.onIdle node limit)
  | chainTimer => exact hreturns (h.onChainTimer node)
  | downloadTimer => exact hreturns (h.onDownloadTimer node)
  | advance => exact hreturns (h.advanceDownload node).returns
  | threadTakes =>
    unfold DownloaderV11.step
    dsimp only
    split
    · exact ⟨d, rfl, h⟩
    · exact ⟨_, rfl, h.sum, h.active, h.counter, h.named, h.chainClient⟩
  | threadPrepares bid =>
    unfold DownloaderV11.step
    dsimp only
    split
    · exact ⟨_, rfl, h.sum, h.active, h.counter, h.named, h.chainClient⟩
    · exact ⟨d, rfl, h⟩

end Handlers

/-- A run step by step. -/
theorem run_snoc {events : List (Node × Event)} {e : Node × Event} {d : DownloaderV11}
    (h : run events = .ok d) : run (events ++ [e]) = step d e := by
  have hrun : events.foldlM step {} = (.ok d : Except Fault DownloaderV11) := h
  unfold run
  rw [List.foldlM_append, hrun]
  change (step d e >>= fun d ↦ .ok d) = step d e
  cases step d e
  · rfl
  · rfl

theorem run_sound (events : List (Node × Event)) : ∃ d, run events = .ok d ∧ Sound d := by
  induction events using List.reverseRecOn with
  | nil =>
    refine ⟨{}, rfl, (Store.total_empty id).symm, rfl, fun who n hget ↦ ?_, fun dc hmem ↦ ?_,
      fun who hwho ↦ ?_⟩
    · cases (Store.get_empty who).symm.trans hget
    · cases hmem
    · cases hwho
  | append_singleton events e ih =>
    obtain ⟨d, hrun, hsound⟩ := ih
    rw [run_snoc hrun]
    exact hsound.step e

/-- After any events no invariant has failed, and counters, total and cells agree. -/
theorem run_accounted (events : List (Node × Event)) :
    ∃ d, run events = .ok d ∧ Accounted d.downloadChain d := run_sound events

end DownloaderV11

end Naza
