import Naza.DownloaderAccounts

/-!
# The cells that wait for a thread

Cells, queue, threads and prepared blocks are linked by the block id alone, and a prepared block
overwrites another of its id.
-/

open Lib

namespace Naza

namespace DownloaderV11

/-! ## Matched cells -/

/-- The ids of the cells that wait for a thread. -/
def preparing (d : DownloaderV11) : List Hash :=
  (d.downloadChain.filter fun dc ↦ dc.status = .preparing).map DownloadCell.bid

/-- Every cell that waits has an item of its own in the queue, in a thread or prepared. -/
def Matched (d : DownloaderV11) : Prop := d.preparing.Subperm d.items

/-- The blocks of a plan that wait for a thread. -/
def waiting (plan : List (Hash × Status)) : List Hash :=
  (plan.filter fun p ↦ p.2 = .preparing).map Prod.fst

section Plans

variable {d d' : DownloaderV11} {bid : Hash}

theorem preparing_eq (d : DownloaderV11) : d.preparing = waiting d.plan := by
  unfold preparing waiting plan
  have hchain : (d.chain.map fun bid ↦ (bid, Status.downloading)).filter
      (fun p ↦ p.2 = .preparing) = [] := by
    rw [List.filter_eq_nil_iff]
    intro p hmem
    obtain ⟨bid, _, rfl⟩ := List.mem_map.1 hmem
    simp
  rw [List.filter_append, hchain, List.append_nil, List.filter_map, List.map_map]
  rfl

theorem waiting_receive (l r : List (Hash × Status)) (bid : Hash) :
    (waiting (l ++ (bid, .preparing) :: r)).Perm
      (bid :: waiting (l ++ (bid, .downloading) :: r)) := by
  unfold waiting
  rw [List.filter_append, List.filter_append, List.filter_cons_of_pos (by simp),
    List.filter_cons_of_neg (by simp), List.map_append, List.map_append]
  exact List.perm_middle

theorem matched_iff : d.Matched ↔ ∀ bid, d.preparing.count bid ≤ d.items.count bid := by
  constructor
  · intro h bid
    exact h.count_le bid
  · intro h
    exact List.subperm_ext_iff.2 fun bid _ ↦ h bid

/-- A block delivered waits with an item more. -/
theorem Matched.moves (h : Matched d) (hmoves : Moves d d') : Matched d' := by
  unfold Matched at h ⊢
  induction hmoves with
  | refl => exact h
  | shrinks _ plan items _ ih =>
    rw [items]
    rw [preparing_eq] at ih ⊢
    exact ((plan.filter _).map _).subperm.trans ih
  | receives _ plan plan' items _ ih =>
    rw [preparing_eq] at ih ⊢
    rw [plan] at ih
    rw [plan']
    exact (waiting_receive _ _ _).subperm.trans
      (((List.subperm_cons _).2 ih).trans items.symm.subperm)

/-! ## Prepared blocks -/

theorem preparing_takePrepared (bid : Hash) (cells : List DownloadCell) :
    ((takePrepared bid cells).filter fun dc ↦ dc.status = .preparing).map DownloadCell.bid =
      ((cells.filter fun dc ↦ dc.status = .preparing).map DownloadCell.bid).erase bid := by
  induction cells with
  | nil => rfl
  | cons dc cells ih =>
    rw [takePrepared]
    by_cases hstatus : dc.status = .preparing
    · by_cases hbid : dc.bid = bid
      · rw [if_pos ⟨hstatus, hbid⟩, List.filter_cons_of_neg (by simp),
          List.filter_cons_of_pos (by simp [hstatus]), List.map_cons, hbid, List.erase_cons_head]
      · rw [if_neg fun h ↦ hbid h.2, List.filter_cons_of_pos (by simp [hstatus]),
          List.filter_cons_of_pos (by simp [hstatus]), List.map_cons, List.map_cons, ih,
          List.erase_cons_tail (by simpa using hbid)]
    · rw [if_neg fun h ↦ hstatus h.1, List.filter_cons_of_neg (by simp [hstatus]),
        List.filter_cons_of_neg (by simp [hstatus]), ih]

/-- Each prepared block takes a cell of its id out of those that wait. -/
theorem preparing_takeAllPrepared (d : DownloaderV11) :
    d.takeAllPrepared.preparing = d.preparing.diff (d.preparedBlocks.toList.map Prod.fst) := by
  have hcells : ∀ (bids : List Hash) (cells : List DownloadCell),
      ((bids.foldl (fun cells bid ↦ takePrepared bid cells) cells).filter
        fun dc ↦ dc.status = .preparing).map DownloadCell.bid =
      ((cells.filter fun dc ↦ dc.status = .preparing).map DownloadCell.bid).diff bids := by
    intro bids
    induction bids with
    | nil => exact fun cells ↦ (List.diff_nil _).symm
    | cons bid bids ih =>
      intro cells
      rw [List.foldl_cons, ih, preparing_takePrepared, List.diff_cons]
  exact hcells _ _

theorem items_takeAllPrepared (d : DownloaderV11) :
    d.takeAllPrepared.items = d.work ++ d.inThreads := by
  have hempty : (∅ : Store Hash Unit).toList = [] := rfl
  unfold items takeAllPrepared
  rw [hempty, List.map_nil, List.append_nil]

theorem Matched.takeAllPrepared (h : Matched d) : Matched d.takeAllPrepared := by
  rw [matched_iff] at h ⊢
  intro bid
  have hbid := h bid
  rw [preparing_takeAllPrepared, items_takeAllPrepared, List.count_diff]
  unfold items at hbid
  rw [List.count_append] at hbid
  omega

/-- A cell whose item has left queue and threads gets its block from `on_idle`. -/
theorem Matched.prepared (h : Matched d) (hwork : bid ∉ d.work) (hthreads : bid ∉ d.inThreads) :
    bid ∉ d.takeAllPrepared.preparing := by
  have hcount := matched_iff.1 h.takeAllPrepared bid
  rw [items_takeAllPrepared, List.count_append, List.count_eq_zero_of_not_mem hwork,
    List.count_eq_zero_of_not_mem hthreads] at hcount
  exact List.count_eq_zero.1 (Nat.le_zero.1 hcount)

/-! ## Threads -/

theorem mem_keys {s : Store Hash Unit} : bid ∈ s.toList.map Prod.fst ↔ s.get bid ≠ none := by
  constructor
  · intro hmem
    obtain ⟨⟨a, v⟩, hentry, rfl⟩ := List.mem_map.1 hmem
    rw [Store.mem_toList_iff.1 hentry]
    exact Option.some_ne_none v
  · intro hget
    obtain ⟨v, hv⟩ := Option.ne_none_iff_exists'.1 hget
    exact List.mem_map.2 ⟨(bid, v), Store.mem_toList_iff.2 hv, rfl⟩

/-- A key that is new counts once more. -/
theorem count_keys_put (s : Store Hash Unit) (bid a : Hash) :
    ((s.put bid ()).toList.map Prod.fst).count a =
      if bid = a ∧ s.get bid = none then 1 else (s.toList.map Prod.fst).count a := by
  have hcount : ∀ s : Store Hash Unit, (s.toList.map Prod.fst).count a =
      if s.get a ≠ none then 1 else 0 := by
    intro s
    rw [List.Nodup.count s.nodup_keys_toList]
    simp only [mem_keys]
  rw [hcount, hcount, Store.get_put]
  by_cases hbid : bid = a
  · subst hbid
    by_cases hget : s.get bid = none
    · simp [hget]
    · simp [hget]
  · simp [hbid]

/-- The state after a thread has prepared a block. -/
def prepare (bid : Hash) (d : DownloaderV11) : DownloaderV11 :=
  { d with
    inThreads := d.inThreads.erase bid
    preparedBlocks := d.preparedBlocks.put bid () }

/-- The items of a block prepared stay as they are unless it overwrites another. -/
theorem count_items_prepare (hthreads : bid ∈ d.inThreads) (a : Hash) :
    (d.prepare bid).items.count a =
      d.items.count a - if bid = a ∧ d.preparedBlocks.get bid ≠ none then 1 else 0 := by
  unfold items prepare
  dsimp only
  rw [List.count_append, List.count_append, List.count_append, List.count_append, count_keys_put,
    List.count_erase]
  by_cases hbid : bid = a
  · subst hbid
    have hpos := List.count_pos_iff.2 hthreads
    by_cases hget : d.preparedBlocks.get bid = none
    · have hkeys : bid ∉ d.preparedBlocks.toList.map Prod.fst := fun hmem ↦ mem_keys.1 hmem hget
      simp only [beq_self_eq_true, hget, and_self, if_true, ne_eq, not_true_eq_false, and_false,
        if_false, List.count_eq_zero_of_not_mem hkeys]
      omega
    · simp only [beq_self_eq_true, hget, and_false, if_true, if_false, ne_eq,
        not_false_eq_true, and_self]
      omega
  · simp [hbid]

/-- A thread has prepared a block, another of its id still waits in `prepared_blocks`, and as many
cells wait as there are items. -/
def Overwrites (d : DownloaderV11) (e : Node × Event) : Prop :=
  ∃ bid, e.2 = .threadPrepares bid ∧ bid ∈ d.inThreads ∧ d.preparedBlocks.get bid ≠ none ∧
    d.items.count bid ≤ d.preparing.count bid

/-! ## Runs -/

theorem Returns.moves {x : Except Fault DownloaderV11} (h : Returns d x) (hok : x = .ok d') :
    Moves d d' := by
  obtain ⟨d'', hx, _, hmoves⟩ := h
  obtain rfl := Except.ok.inj (hx.symm.trans hok)
  exact hmoves

/-- What an event does to cells and items. -/
theorem Sound.step_cases (h : Sound d) {e : Node × Event}
    (hstep : DownloaderV11.step d e = .ok d') :
    Moves d d' ∨
    (∃ who startHeight blockIds, e.2 = .chain who startHeight blockIds ∧
      d.chainClient = some who ∧ d.chainRequestSent = true ∧
      Moves (d.takeChain e.1 startHeight blockIds) d') ∨
    Moves d.takeAllPrepared d' ∨
    (∃ bid work, d.work = bid :: work ∧
      d' = { d with work, inThreads := d.inThreads ++ [bid] }) ∨
    ∃ bid, e.2 = .threadPrepares bid ∧ bid ∈ d.inThreads ∧ d' = d.prepare bid := by
  obtain ⟨node, e⟩ := e
  cases e with
  | connect who => exact Or.inl ((h.onConnect node who).moves hstep)
  | disconnect who => exact Or.inl ((h.onDisconnect node who).returns.moves hstep)
  | chain who startHeight blockIds =>
    rcases h.onMsgNotifyRequestChain node who startHeight blockIds with
      hsame | ⟨⟨hclient, hsent⟩, hreturned⟩
    · obtain rfl := Except.ok.inj (hsame.symm.trans hstep)
      exact Or.inl .refl
    · have hmoves := hreturned.moves hstep
      exact Or.inr (Or.inl ⟨who, startHeight, blockIds, rfl, hclient, hsent, hmoves⟩)
  | objects who blocks missedIds =>
    exact Or.inl ((h.onMsgNotifyRequestObjects node who blocks missedIds).moves hstep)
  | idle limit => exact Or.inr (Or.inr (Or.inl ((h.onIdle node limit).moves hstep)))
  | chainTimer => exact Or.inl ((h.onChainTimer node).moves hstep)
  | downloadTimer => exact Or.inl ((h.onDownloadTimer node).moves hstep)
  | advance => exact Or.inl ((h.advanceDownload node).returns.moves hstep)
  | threadTakes =>
    unfold DownloaderV11.step at hstep
    dsimp only at hstep
    split at hstep
    · obtain rfl := Except.ok.inj hstep
      exact Or.inl .refl
    · next bid work hwork =>
      exact Or.inr (Or.inr (Or.inr (Or.inl ⟨bid, work, hwork, (Except.ok.inj hstep).symm⟩)))
  | threadPrepares bid =>
    unfold DownloaderV11.step at hstep
    dsimp only at hstep
    split at hstep
    · next hthreads =>
      exact Or.inr (Or.inr (Or.inr (Or.inr ⟨bid, rfl, hthreads, (Except.ok.inj hstep).symm⟩)))
    · obtain rfl := Except.ok.inj hstep
      exact Or.inl .refl

/-- Only a block that overwrites another strands a cell. -/
theorem Matched.step (hsound : Sound d) (h : Matched d) {e : Node × Event} (he : ¬ Overwrites d e)
    (hstep : step d e = .ok d') : Matched d' := by
  rcases hsound.step_cases hstep with hmoves | ⟨who, startHeight, blockIds, _, _, _, hmoves⟩ |
    hmoves | ⟨bid, work, hwork, rfl⟩ | ⟨bid, hprepares, hthreads, rfl⟩
  · exact h.moves hmoves
  · have htaken : Matched (d.takeChain e.1 startHeight blockIds) := h
    exact htaken.moves hmoves
  · exact h.takeAllPrepared.moves hmoves
  · refine List.Subperm.trans h (List.Perm.subperm ?_)
    unfold items
    dsimp only
    rw [hwork, ← List.append_assoc]
    refine List.Perm.append_right _ ?_
    exact (List.perm_append_singleton bid _).symm
  · rw [matched_iff] at h ⊢
    intro a
    have hpreparing : (d.prepare bid).preparing = d.preparing := rfl
    rw [hpreparing, count_items_prepare hthreads]
    have ha := h a
    split
    · next hover =>
      obtain ⟨rfl, hget⟩ := hover
      have hspare : d.preparing.count bid < d.items.count bid := by
        by_contra hle
        exact he ⟨bid, hprepares, hthreads, hget, not_lt.1 hle⟩
      omega
    · omega

theorem Overwrites.strands {e : Node × Event} (h : Overwrites d e) (hstep : step d e = .ok d') :
    ¬ Matched d' := by
  obtain ⟨node, e⟩ := e
  obtain ⟨bid, rfl, hthreads, hget, hle⟩ := h
  unfold DownloaderV11.step at hstep
  dsimp only at hstep
  rw [if_pos hthreads] at hstep
  obtain rfl := Except.ok.inj hstep
  intro hmatched
  have hbid := matched_iff.1 hmatched bid
  change d.preparing.count bid ≤ (d.prepare bid).items.count bid at hbid
  rw [count_items_prepare hthreads, if_pos ⟨rfl, hget⟩] at hbid
  have hpos : 0 < d.items.count bid := by
    refine List.count_pos_iff.2 ?_
    exact List.mem_append_left _ (List.mem_append_right _ hthreads)
  omega

/-- A state of a run in which no needed block was overwritten. -/
theorem run_matched {events : List (Node × Event)}
    (h : ∀ before e, before ++ [e] <+: events → ∀ d, run before = .ok d → ¬ Overwrites d e)
    (hrun : run events = .ok d) : Matched d := by
  induction events using List.reverseRecOn generalizing d with
  | nil =>
    obtain rfl := Except.ok.inj hrun
    exact List.nil_subperm
  | append_singleton events e ih =>
    obtain ⟨d₀, hrun₀, hsound₀⟩ := run_sound events
    have hmatched₀ : Matched d₀ :=
      ih (fun before e hinitial ↦ h before e (hinitial.trans (List.prefix_append _ _))) hrun₀
    rw [run_snoc hrun₀] at hrun
    exact hmatched₀.step hsound₀ (h events e List.prefix_rfl d₀ hrun₀) hrun

/-! ## Chains without repeated ids -/

/-- No block is planned twice, and a chain is asked for when nothing is planned. -/
structure Planned (d : DownloaderV11) : Prop where
  nodup : (d.plan.map Prod.fst).Nodup
  asked : d.chainRequestSent = true → d.plan = []

/-- The chain that an event adds to the plan has no repeated id. -/
def Distinct (d : DownloaderV11) (e : Node × Event) : Prop :=
  ∀ who startHeight blockIds, e.2 = .chain who startHeight blockIds →
    d.chainClient = some who → d.chainRequestSent = true → (d.strip e.1 blockIds).Nodup

theorem plan_fst (d : DownloaderV11) :
    d.plan.map Prod.fst = d.downloadChain.map DownloadCell.bid ++ d.chain := by
  unfold plan
  rw [List.map_append, List.map_map, List.map_map]
  congr 1
  exact List.map_id _

theorem Planned.moves (h : Planned d) (hmoves : Moves d d') : Planned d' := by
  induction hmoves with
  | refl => exact h
  | shrinks _ plan items request ih =>
    refine ⟨ih.nodup.sublist (plan.map _), fun hsent ↦ ?_⟩
    rcases request hsent with hbefore | hempty
    · exact List.sublist_nil.1 (ih.asked hbefore ▸ plan)
    · exact hempty
  | receives _ plan plan' items request ih =>
    refine ⟨?_, fun hsent ↦ ?_⟩
    · have hnodup := ih.nodup
      rw [plan, List.map_append] at hnodup
      rw [plan', List.map_append]
      exact hnodup
    · have hempty := ih.asked (request ▸ hsent)
      rw [plan] at hempty
      exact absurd hempty (List.append_ne_nil_of_right_ne_nil _ (List.cons_ne_nil _ _))

theorem bids_takePrepared (bid : Hash) (cells : List DownloadCell) :
    (takePrepared bid cells).map DownloadCell.bid = cells.map DownloadCell.bid := by
  induction cells with
  | nil => rfl
  | cons dc cells ih =>
    rw [takePrepared]
    split
    · rfl
    · rw [List.map_cons, List.map_cons, ih]

theorem Planned.takeAllPrepared (h : Planned d) : Planned d.takeAllPrepared := by
  have hcells : ∀ (bids : List Hash) (cells : List DownloadCell),
      (bids.foldl (fun cells bid ↦ takePrepared bid cells) cells).map DownloadCell.bid =
        cells.map DownloadCell.bid := by
    intro bids
    induction bids with
    | nil => exact fun _ ↦ rfl
    | cons bid bids ih =>
      intro cells
      rw [List.foldl_cons, ih, bids_takePrepared]
  have hplan : d.takeAllPrepared.plan.map Prod.fst = d.plan.map Prod.fst := by
    rw [plan_fst, plan_fst]
    exact congrArg (· ++ d.chain) (hcells _ _)
  refine ⟨hplan ▸ h.nodup, fun hsent ↦ ?_⟩
  rw [h.asked hsent] at hplan
  exact List.map_eq_nil_iff.1 hplan

theorem Planned.takeChain (h : Planned d) (hsent : d.chainRequestSent = true) {node : Node}
    {startHeight : Height} {blockIds : List Hash} (hids : (d.strip node blockIds).Nodup) :
    Planned (d.takeChain node startHeight blockIds) := by
  refine ⟨?_, fun hsent' ↦ by cases hsent'⟩
  have hcells : d.downloadChain.map DownloadCell.bid = [] := by
    have hplan := plan_fst d
    rw [h.asked hsent] at hplan
    exact (List.append_eq_nil_iff.1 hplan.symm).1
  rw [plan_fst]
  change (d.downloadChain.map DownloadCell.bid ++ d.strip node blockIds).Nodup
  rwa [hcells, List.nil_append]

theorem Planned.step (hsound : Sound d) (h : Planned d) {e : Node × Event} (he : Distinct d e)
    (hstep : step d e = .ok d') : Planned d' := by
  rcases hsound.step_cases hstep with hmoves |
    ⟨who, startHeight, blockIds, hchain, hclient, hsent, hmoves⟩ | hmoves | ⟨bid, work, _, rfl⟩ |
    ⟨bid, _, _, rfl⟩
  · exact h.moves hmoves
  · have hids := he who startHeight blockIds hchain hclient hsent
    exact (h.takeChain hsent hids).moves hmoves
  · exact h.takeAllPrepared.moves hmoves
  · exact ⟨h.nodup, h.asked⟩
  · exact ⟨h.nodup, h.asked⟩

/-- A block of a single cell is not needed twice. -/
theorem Planned.not_overwrites (h : Planned d) (e : Node × Event) : ¬ Overwrites d e := by
  rintro ⟨bid, _, hthreads, hget, hle⟩
  have hnodup : d.preparing.Nodup := by
    rw [preparing_eq]
    exact h.nodup.sublist (List.filter_sublist.map _)
  have hone := List.nodup_iff_count_le_one.1 hnodup bid
  have hthread := List.count_pos_iff.2 hthreads
  have hprepared := List.count_pos_iff.2 (mem_keys.2 hget)
  unfold items at hle
  rw [List.count_append, List.count_append] at hle
  omega

/-- Peers that never repeat an id in a chain strand no cell. -/
theorem run_matched_of_distinct {events : List (Node × Event)}
    (h : ∀ before e, before ++ [e] <+: events → ∀ d, run before = .ok d → Distinct d e)
    (hrun : run events = .ok d) : Matched d := by
  have hplanned : ∀ before, before <+: events → ∀ d, run before = .ok d → Planned d := by
    intro before
    induction before using List.reverseRecOn with
    | nil =>
      intro _ d hrun
      obtain rfl := Except.ok.inj hrun
      exact ⟨List.nodup_nil, fun _ ↦ rfl⟩
    | append_singleton before e ih =>
      intro hinitial d hrun
      obtain ⟨d₀, hrun₀, hsound₀⟩ := run_sound before
      have hplanned₀ := ih ((List.prefix_append _ _).trans hinitial) d₀ hrun₀
      rw [run_snoc hrun₀] at hrun
      exact hplanned₀.step hsound₀ (h before e hinitial d₀ hrun₀) hrun
  refine run_matched (fun before e hinitial d hrun ↦ ?_) hrun
  exact (hplanned before ((List.prefix_append _ _).trans hinitial) d hrun).not_overwrites e

end Plans

/-- In every state of a run every cell that waits has an item of its own, and gets its block from
`on_idle` when its items have left queue and threads, if and only if no needed block is
overwritten. -/
theorem unstranded_iff (events : List (Node × Event)) :
    (∀ before, before <+: events → ∀ d, run before = .ok d → Matched d ∧
      ∀ bid, bid ∉ d.work → bid ∉ d.inThreads → bid ∉ d.takeAllPrepared.preparing) ↔
    ∀ before e, before ++ [e] <+: events → ∀ d, run before = .ok d → ¬ Overwrites d e := by
  constructor
  · intro h before e hinitial d hrun hover
    obtain ⟨d', hrun', _⟩ := run_sound (before ++ [e])
    have hmatched := (h (before ++ [e]) hinitial d' hrun').1
    rw [run_snoc hrun] at hrun'
    exact hover.strands hrun' hmatched
  · intro h before hinitial d hrun
    have hmatched : Matched d :=
      run_matched (fun before' e hinitial' ↦ h before' e (hinitial'.trans hinitial)) hrun
    exact ⟨hmatched, fun bid ↦ hmatched.prepared⟩

/-- A chain that lists a block twice, and both copies prepared before `on_idle`. -/
def sampleEvents : List (Node × Event) :=
  [({}, .connect 1), ({}, .chain 1 1 [7, 7]), ({}, .objects 1 [some 7, some 7] []),
    ({}, .threadTakes), ({}, .threadTakes), ({}, .threadPrepares 7), ({}, .threadPrepares 7)]

/-- The second cell of a block listed twice waits for good. -/
theorem not_unstranded : ¬ ∀ (events : List (Node × Event)) (d : DownloaderV11),
    run events = .ok d → Matched d ∧
      ∀ bid, bid ∉ d.work → bid ∉ d.inThreads → bid ∉ d.takeAllPrepared.preparing := by
  intro h
  obtain ⟨d, hrun, _⟩ := run_sound sampleEvents
  have hcells : (run sampleEvents).map (fun d ↦
      (d.preparing, d.items)) = .ok ([7, 7], [7]) := by decide +kernel
  rw [hrun] at hcells
  obtain ⟨hpreparing, hitems⟩ := Prod.mk.inj (Except.ok.inj hcells)
  have hlength := (h sampleEvents d hrun).1.length_le
  rw [hpreparing, hitems] at hlength
  exact absurd hlength (by decide)

end DownloaderV11

end Naza
