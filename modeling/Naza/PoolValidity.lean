import Naza.PoolSize
import Naza.TipWeight

/-!
# Transactions of the pool and the tip

A transaction is checked against the tip when it enters the pool and again when the pool is
rebuilt.  What it spends stays in place while blocks are connected.  The timestamp of the tip may
go back, however, and take the time locks of the outputs with it.
-/

open Lib Relation

namespace Naza

variable {cr : Crypto} {c : Currency}

/-! ## What a transaction needs of the tables -/

section Definitions

variable (cr : Crypto) (c : Currency)

/-- A ring with a new key image whose members are stored, unlocked and fit its signatures. -/
structure RingUsable (reads : StateReads) (height : Height) (timestamp : Timestamp)
    (txPrefixHash : Hash) (input : KeyInput) (signatures : List Signature) : Prop where
  fresh : reads.readKeyimage input.keyImage = none
  nonempty : input.outputIndexes ≠ []
  ring : ∃ unps : List UnlockTimePublickKeyHeightSpent,
    (globalIndexes input.outputIndexes).map (reads.readAmountOutput input.amount) =
      unps.map some ∧
    (∀ unp ∈ unps, c.isTransactionSpendTimeUnlocked unp.unlockTime height timestamp = true) ∧
    cr.checkRingSignature txPrefixHash input.keyImage
      (unps.map UnlockTimePublickKeyHeightSpent.publicKey) signatures = .valid

/-- The inputs of a transaction can be spent at a height and a timestamp. -/
structure Spendable (reads : StateReads) (tx : Transaction) (height : Height)
    (timestamp : Timestamp) : Prop where
  nodup : (inputKeyImages tx.inputs).Nodup
  rings : ∀ e ∈ signedInputs tx.inputs tx.signatures, RingUsable cr c reads height timestamp
    (getTransactionPrefixHash cr tx.toTransactionPrefix) e.1 e.2

/-- The transaction passes `redo_transaction_get_error`, signatures included, over an empty
delta. -/
def State.Redoes (s : State) (tx : Transaction) (height : Height) (timestamp : Timestamp) : Prop :=
  ∃ result, redoTransactionGetError cr c tx s.reads
    { blockHeight := height, unlockTimestamp := timestamp } true = .accept result

end Definitions

/-! ## Redoing a transaction -/

section Redo

variable {reads : StateReads} {height : Height} {timestamp : Timestamp}

theorem readRing_eq_ok_iff {amount : Amount} {indexes : List UInt32}
    {unps : List UnlockTimePublickKeyHeightSpent} :
    readRing c reads height timestamp amount indexes = .ok unps ↔
      indexes.map (reads.readAmountOutput amount) = unps.map some ∧
      ∀ unp ∈ unps, c.isTransactionSpendTimeUnlocked unp.unlockTime height timestamp = true := by
  induction indexes generalizing unps with
  | nil => cases unps <;> simp [readRing]
  | cons index indexes ih =>
    unfold readRing
    cases hget : reads.readAmountOutput amount index with
    | none => cases unps <;> simp [hget]
    | some unp =>
      cases unps with
      | nil =>
        dsimp only
        split
        · split <;> simp
        · simp
      | cons unp' unps =>
        by_cases hunlocked : c.isTransactionSpendTimeUnlocked unp.unlockTime height timestamp
        · have ih := @ih unps
          cases hring : readRing c reads height timestamp amount indexes with
          | error e =>
            rw [hring] at ih
            simp only [hunlocked, if_true, reduceCtorEq, false_iff, not_and] at ih ⊢
            intro hmap hall
            rw [List.map_cons, List.map_cons, List.cons.injEq] at hmap
            exact ih hmap.2 fun unp hmem ↦ hall unp (List.mem_cons_of_mem _ hmem)
          | ok rest =>
            rw [hring, Except.ok.injEq] at ih
            simp only [hunlocked, if_true, Except.ok.injEq, List.cons.injEq, List.map_cons, hget,
              Option.some.injEq, List.forall_mem_cons, ih]
            constructor
            · rintro ⟨rfl, hmap, hall⟩
              exact ⟨⟨rfl, hmap⟩, hunlocked, hall⟩
            · rintro ⟨⟨rfl, hmap⟩, -, hall⟩
              exact ⟨rfl, hmap, hall⟩
        · simp only [hunlocked, Bool.false_eq_true, if_false, reduceCtorEq, List.map_cons, hget,
            List.cons.injEq, Option.some.injEq, List.forall_mem_cons, false_iff, not_and]
          rintro ⟨rfl, -⟩ h
          exact absurd h hunlocked

/-- The checks of one input pass exactly when its ring is usable. -/
theorem checkInput_eq_ok_iff {txPrefixHash : Hash} {input : KeyInput} {signatures : List Signature}
    {conflictHeight : Height} :
    (∃ conflictHeight', checkInput cr c reads height timestamp txPrefixHash input signatures
      conflictHeight = .ok conflictHeight') ↔
      RingUsable cr c reads height timestamp txPrefixHash input signatures := by
  unfold checkInput
  constructor
  · rintro ⟨conflictHeight', h⟩
    split at h
    · cases h
    · next hfresh =>
      split at h
      · cases h
      · next hnonempty =>
        split at h
        · cases h
        · cases h
        · next unps hring =>
          obtain ⟨hmap, hall⟩ := readRing_eq_ok_iff.1 hring
          refine ⟨hfresh, hnonempty, unps, hmap, hall, ?_⟩
          dsimp only at h
          split at h
          · assumption
          · cases h
          · cases h
  · rintro ⟨hfresh, hnonempty, unps, hmap, hall, hvalid⟩
    have hring := readRing_eq_ok_iff.2 ⟨hmap, hall⟩
    exact ⟨conflictHeightOf conflictHeight unps,
      by simp only [hfresh, if_neg hnonempty, hring, hvalid]⟩

/-- Nothing is read at or past the next index. -/
def StateReads.Bounded (reads : StateReads) : Prop :=
  ∀ amount index, reads.readAmountOutput amount index ≠ none →
    index < reads.nextGlobalIndexForAmount amount

/-- A delta without outputs hides nothing but the key images that it holds. -/
theorem DeltaState.Holds.ringUsable_iff {d : DeltaState} {kis : List KeyImage}
    {spends : List (Amount × UInt32)} (h : d.Holds kis [] spends) (hbounded : reads.Bounded)
    {txPrefixHash : Hash} {input : KeyInput} {signatures : List Signature} :
    RingUsable cr c (d.reads reads) height timestamp txPrefixHash input signatures ↔
      input.keyImage ∉ kis ∧
        RingUsable cr c reads height timestamp txPrefixHash input signatures := by
  have houtputs : (d.reads reads).readAmountOutput = reads.readAmountOutput := by
    funext amount index
    simp only [DeltaState.reads, h.outputs, pushesOf_nil, List.getElem?_nil]
    split
    · rfl
    · next hlt =>
      by_contra hne
      exact hlt (hbounded amount index fun hnone ↦ hne hnone.symm)
  have hfresh : (d.reads reads).readKeyimage input.keyImage = none ↔
      input.keyImage ∉ kis ∧ reads.readKeyimage input.keyImage = none := by
    simp only [DeltaState.reads, h.keyimages]
    by_cases hmem : input.keyImage ∈ kis <;> simp [hmem]
  constructor
  · rintro ⟨hki, hnonempty, hring⟩
    rw [houtputs] at hring
    exact ⟨(hfresh.1 hki).1, (hfresh.1 hki).2, hnonempty, hring⟩
  · rintro ⟨hnot, hki, hnonempty, hring⟩
    rw [← houtputs] at hring
    exact ⟨hfresh.2 ⟨hnot, hki⟩, hnonempty, hring⟩

/-- The inputs go through when their key images differ and all rings are usable. -/
theorem redoInputs_accept_iff {d : DeltaState} {kis : List KeyImage}
    {spends : List (Amount × UInt32)} (h : d.Holds kis [] spends) (hbounded : reads.Bounded)
    {txPrefixHash : Hash} {inputs : List TransactionInput} {signatures : List (List Signature)}
    {conflictHeight : Height} :
    (∃ result, redoInputs cr c reads true txPrefixHash inputs signatures d conflictHeight =
      .accept result) ↔ (kis ++ inputKeyImages inputs).Nodup ∧
        ∀ e ∈ signedInputs inputs signatures,
          RingUsable cr c reads d.blockHeight d.unlockTimestamp txPrefixHash e.1 e.2 := by
  induction inputs generalizing d kis spends signatures conflictHeight with
  | nil => simpa [redoInputs, inputKeyImages, signedInputs] using h.nodup
  | cons input inputs ih =>
    cases input with
    | coinbaseInput _ => exact ih h
    | keyInput input =>
      obtain ⟨hspend, hbh, hut⟩ := h.spendRing input
      have hsplit : kis ++ inputKeyImages (.keyInput input :: inputs) =
          (kis ++ [input.keyImage]) ++ inputKeyImages inputs := by
        simp [inputKeyImages, TransactionInput.keyImages]
      simp only [redoInputs, if_true, Check.bind_eq_accept_iff, Check.ofExcept_eq_accept_iff,
        Check.lift_eq_accept_iff, signedInputs, List.forall_mem_cons, hsplit]
      constructor
      · rintro ⟨result, height₁, hcheck, d₁, h₁, hok⟩
        obtain ⟨hnew, husable⟩ := (h.ringUsable_iff hbounded).1 (checkInput_eq_ok_iff.1 ⟨_, hcheck⟩)
        obtain ⟨d₂, h₂, hholds, hbh₂, hut₂⟩ := hspend.storeKeyimage hnew
        rw [h₁, Except.ok.injEq] at h₂
        subst h₂
        obtain ⟨hnodup, hrings⟩ := (ih hholds).1 ⟨result, hok⟩
        rw [hbh₂.trans hbh, hut₂.trans hut] at hrings
        exact ⟨hnodup, husable, hrings⟩
      · rintro ⟨hnodup, husable, hrings⟩
        have hnew : input.keyImage ∉ kis := fun hmem ↦
          (List.nodup_append.1 (List.nodup_append.1 hnodup).1).2.2 _ hmem _ (by simp) rfl
        obtain ⟨height₁, hcheck⟩ :=
          checkInput_eq_ok_iff.2 ((h.ringUsable_iff hbounded).2 ⟨hnew, husable⟩)
        obtain ⟨d₁, h₁, hholds, hbh₁, hut₁⟩ := hspend.storeKeyimage hnew
        rw [← hbh₁.trans hbh, ← hut₁.trans hut] at hrings
        obtain ⟨result, hok⟩ := (ih hholds).2 ⟨hnodup, hrings⟩
        exact ⟨result, height₁, hcheck, d₁, h₁, hok⟩

end Redo

/-! ## States that a transaction can be moved to -/

/-- Every output is still there with its key and its lock. -/
def OutputsWithin (reads reads' : StateReads) : Prop :=
  ∀ amount index unp, reads.readAmountOutput amount index = some unp →
    ∃ unp', reads'.readAmountOutput amount index = some unp' ∧
      unp'.unlockTime = unp.unlockTime ∧ unp'.publicKey = unp.publicKey

theorem OutputsWithin.map_read {reads reads' : StateReads} (h : OutputsWithin reads reads')
    {amount : Amount} {indexes : List UInt32} {unps : List UnlockTimePublickKeyHeightSpent}
    (hmap : indexes.map (reads.readAmountOutput amount) = unps.map some) :
    ∃ unps' : List UnlockTimePublickKeyHeightSpent,
      indexes.map (reads'.readAmountOutput amount) = unps'.map some ∧
      unps'.map UnlockTimePublickKeyHeightSpent.unlockTime =
        unps.map UnlockTimePublickKeyHeightSpent.unlockTime ∧
      unps'.map UnlockTimePublickKeyHeightSpent.publicKey =
        unps.map UnlockTimePublickKeyHeightSpent.publicKey := by
  induction indexes generalizing unps with
  | nil => exact ⟨[], rfl, by cases unps <;> simp_all, by cases unps <;> simp_all⟩
  | cons index indexes ih =>
    cases unps with
    | nil => simp at hmap
    | cons unp unps =>
      rw [List.map_cons, List.map_cons, List.cons.injEq] at hmap
      obtain ⟨unps', hmap', htimes, hkeys⟩ := ih hmap.2
      obtain ⟨unp', hget, htime, hkey⟩ := h amount index unp hmap.1
      refine ⟨unp' :: unps', ?_, ?_, ?_⟩
      · rw [List.map_cons, List.map_cons, hget, hmap']
      · rw [List.map_cons, List.map_cons, htime, htimes]
      · rw [List.map_cons, List.map_cons, hkey, hkeys]

/-- A transaction stays spendable where its key images stay new, its outputs stay and what is
unlocked stays unlocked. -/
theorem Spendable.mono {reads reads' : StateReads} {tx : Transaction} {height height' : Height}
    {timestamp timestamp' : Timestamp} (h : Spendable cr c reads tx height timestamp)
    (hfresh : ∀ e ∈ signedInputs tx.inputs tx.signatures,
      reads'.readKeyimage e.1.keyImage = none)
    (houtputs : OutputsWithin reads reads')
    (hunlocked : ∀ unlockTime, c.isTransactionSpendTimeUnlocked unlockTime height timestamp = true →
      c.isTransactionSpendTimeUnlocked unlockTime height' timestamp' = true) :
    Spendable cr c reads' tx height' timestamp' := by
  refine ⟨h.nodup, fun e hmem ↦ ?_⟩
  obtain ⟨-, hnonempty, unps, hmap, hall, hvalid⟩ := h.rings e hmem
  obtain ⟨unps', hmap', htimes, hkeys⟩ := houtputs.map_read hmap
  refine ⟨hfresh e hmem, hnonempty, unps', hmap', fun unp' hmem' ↦ ?_, hkeys ▸ hvalid⟩
  have htime := List.mem_map_of_mem (f := UnlockTimePublickKeyHeightSpent.unlockTime) hmem'
  rw [htimes] at htime
  obtain ⟨unp, hunp, heq⟩ := List.mem_map.1 htime
  exact heq ▸ hunlocked _ (hall unp hunp)

/-- The empty delta reads what its parent reads, up to the next index. -/
theorem reads_emptyDelta (reads : StateReads) (height : Height) (timestamp : Timestamp) :
    let delta : DeltaState := { blockHeight := height, unlockTimestamp := timestamp }
    (delta.reads reads).readKeyimage = reads.readKeyimage ∧
      (delta.reads reads).Bounded ∧ OutputsWithin (delta.reads reads) reads ∧
      (reads.Bounded → OutputsWithin reads (delta.reads reads)) := by
  intro delta
  have hread : ∀ amount index, (delta.reads reads).readAmountOutput amount index =
      if index < reads.nextGlobalIndexForAmount amount then reads.readAmountOutput amount index
      else none := by
    intro amount index
    simp [delta, DeltaState.reads]
  refine ⟨?_, fun amount index hne ↦ ?_, fun amount index unp hget ↦ ?_,
    fun hbounded amount index unp hget ↦ ?_⟩
  · funext ki
    simp [delta, DeltaState.reads]
  · rw [hread] at hne
    by_contra hlt
    apply hne
    rw [if_neg]
    simpa [delta, DeltaState.reads] using hlt
  · rw [hread] at hget
    split at hget
    · exact ⟨unp, hget, rfl, rfl⟩
    · cases hget
  · refine ⟨unp, ?_, rfl, rfl⟩
    rw [hread, if_pos (hbounded amount index (by rw [hget]; simp)), hget]

/-- The transaction passes when its inputs can be spent. -/
theorem State.redoes_iff {s : State} {tx : Transaction} {height : Height} {timestamp : Timestamp} :
    s.Redoes cr c tx height timestamp ↔ Spendable cr c
      (({ blockHeight := height, unlockTimestamp := timestamp : DeltaState }).reads s.reads) tx
      height timestamp := by
  have hempty := DeltaState.holds_empty height timestamp
  obtain ⟨-, hbounded, -⟩ := reads_emptyDelta s.reads height timestamp
  have hiff := @redoInputs_accept_iff cr c _ _ _ _ hempty hbounded
    (getTransactionPrefixHash cr tx.toTransactionPrefix) tx.inputs tx.signatures 0
  rw [List.nil_append] at hiff
  constructor
  · rintro ⟨result, hok⟩
    simp only [redoTransactionGetError, if_true, Check.bind_eq_accept_iff] at hok
    obtain ⟨inputs, hinputs, -⟩ := hok
    obtain ⟨hnodup, hrings⟩ := hiff.1 ⟨inputs, hinputs⟩
    exact ⟨hnodup, hrings⟩
  · rintro ⟨hnodup, hrings⟩
    obtain ⟨⟨txDelta, conflictHeight⟩, hinputs⟩ := hiff.2 ⟨hnodup, hrings⟩
    obtain ⟨htx, hbh, -⟩ := redoInputs_accept hempty hinputs
    obtain ⟨htx, hbh', -⟩ := @redoOutputs_holds
      (({ blockHeight := height, unlockTimestamp := timestamp : DeltaState }).reads s.reads) _ _ _ _
      htx tx.unlockTime tx.outputs
    obtain ⟨delta, happly, -⟩ := hempty.apply htx (hbh'.trans hbh) (by simpa using hnodup)
    let outputs := redoOutputs
      (({ blockHeight := height, unlockTimestamp := timestamp : DeltaState }).reads s.reads)
      tx.unlockTime tx.outputs txDelta
    refine ⟨⟨delta, outputs.2, conflictHeight⟩, ?_⟩
    simp only [redoTransactionGetError, if_true, hinputs, Check.accept_bind, happly, Check.lift,
      Check.pure_eq, outputs]

/-- Whatever passes is spendable; the converse needs every stored output below the next index. -/
theorem State.Redoes.spendable {s : State} {tx : Transaction} {height : Height}
    {timestamp : Timestamp} (h : s.Redoes cr c tx height timestamp) :
    Spendable cr c s.reads tx height timestamp := by
  have hspendable := State.redoes_iff.1 h
  obtain ⟨hki, -, hwithin, -⟩ := reads_emptyDelta s.reads height timestamp
  exact hspendable.mono (fun e hmem ↦ hki ▸ (hspendable.rings e hmem).fresh) hwithin fun _ h ↦ h

theorem Spendable.redoes {s : State} {tx : Transaction} {height : Height} {timestamp : Timestamp}
    (h : Spendable cr c s.reads tx height timestamp) (hbounded : s.reads.Bounded) :
    s.Redoes cr c tx height timestamp := by
  obtain ⟨hki, -, -, hwithin⟩ := reads_emptyDelta s.reads height timestamp
  apply State.redoes_iff.2
  exact h.mono (fun e hmem ↦ hki ▸ (h.rings e hmem).fresh) (hwithin hbounded) fun _ h ↦ h

theorem map_keyImage_signedInputs (inputs : List TransactionInput)
    (signatures : List (List Signature)) :
    (signedInputs inputs signatures).map (fun e ↦ e.1.keyImage) = inputKeyImages inputs := by
  induction inputs generalizing signatures with
  | nil => rfl
  | cons input inputs ih =>
    cases input with
    | coinbaseInput _ => exact ih _
    | keyInput input => exact congrArg (input.keyImage :: ·) (ih _)

/-- The key images of a transaction are those of its rings. -/
theorem TransactionPrefix.mem_keyImages_iff {tx : Transaction} {ki : KeyImage} :
    ki ∈ tx.keyImages ↔ ∃ e ∈ signedInputs tx.inputs tx.signatures, e.1.keyImage = ki := by
  rw [TransactionPrefix.keyImages_eq, ← map_keyImage_signedInputs tx.inputs tx.signatures,
    List.mem_map]

/-! ## The pool of a state -/

/-- Every transaction of the pool can be spent at the height above a block of the main chain and
at that block's timestamp. -/
def State.PoolSpendable (cr : Crypto) (c : Currency) (s : State) : Prop :=
  ∀ tid p, s.pool.tx.get tid = some p → ∃ height bid info,
    s.db.chain.get height = some bid ∧ s.db.headers.get bid = some info ∧
    Spendable cr c s.reads p.tx (height + 1) info.timestamp

namespace State

variable {s s' : State}

/-- The pool stays spendable while it only loses transactions, no key image of it is spent and the
chain and the outputs only grow. -/
theorem PoolSpendable.mono (h : s.PoolSpendable cr c)
    (hpool : ∀ tid p, s'.pool.tx.get tid = some p → s.pool.tx.get tid = some p)
    (hfresh : ∀ tid p, s'.pool.tx.get tid = some p → ∀ ki ∈ p.tx.keyImages,
      s'.db.keyImages.get ki = none)
    (hchain : ∀ height bid, s.db.chain.get height = some bid →
      s'.db.chain.get height = some bid)
    (hheaders : HeadersWithin s s') (houtputs : OutputsWithin s.reads s'.reads) :
    s'.PoolSpendable cr c := by
  intro tid p hget
  obtain ⟨height, bid, info, hbid, hinfo, hspendable⟩ := h tid p (hpool tid p hget)
  refine ⟨height, bid, info, hchain _ _ hbid, hheaders _ _ hinfo, ?_⟩
  apply hspendable.mono _ houtputs fun _ h ↦ h
  intro e hmem
  apply hfresh tid p hget
  exact TransactionPrefix.mem_keyImages_iff.2 ⟨e, hmem, rfl⟩

theorem PoolSpendable.fresh (h : s.PoolSpendable cr c) {tid : Hash} {p : PoolTransaction}
    (hget : s.pool.tx.get tid = some p) {ki : KeyImage} (hki : ki ∈ p.tx.keyImages) :
    s.db.keyImages.get ki = none := by
  obtain ⟨_, _, _, -, -, hspendable⟩ := h tid p hget
  obtain ⟨e, hmem, rfl⟩ := TransactionPrefix.mem_keyImages_iff.1 hki
  exact (hspendable.rings e hmem).fresh

/-! ## Connecting a block -/

/-- The key images of a block displace the pool transactions that share them. -/
structure PoolFresh (s s' : State) : Prop where
  consistent : s'.pool.Consistent
  within : ∀ tid p, s'.pool.tx.get tid = some p → s.pool.tx.get tid = some p
  fresh : ∀ tid p, s'.pool.tx.get tid = some p → ∀ ki ∈ p.tx.keyImages,
    s'.db.keyImages.get ki = none

theorem PoolFresh.storeKeyimage {t t' : State} (h : s.PoolFresh t) {ki : KeyImage}
    {height : Height} (hok : t.storeKeyimage ki height = .ok t') : s.PoolFresh t' := by
  have hconsistent := storeKeyimage_consistent h.consistent hok
  simp only [State.storeKeyimage, bind_eq_ok_iff, dbWrite_eq_ok_iff, Store.putNew_eq_ok_iff] at hok
  obtain ⟨keyImages, ⟨-, rfl⟩, hok⟩ := hok
  -- what is left in the pool does not share the key image
  have hother : ∀ tid p, t'.pool.tx.get tid = some p →
      t.pool.tx.get tid = some p ∧ ki ∉ p.tx.keyImages := by
    intro tid p hget
    split at hok
    · next hnone =>
      rw [← Except.ok.inj hok] at hget
      refine ⟨hget, fun hmem ↦ ?_⟩
      have hsome := (h.consistent.kiTx_iff ki tid).2 ⟨p, hget, hmem⟩
      rw [hnone] at hsome
      cases hsome
    · next other hother =>
      obtain ⟨pool, hremove, hok⟩ := bind_eq_ok_iff.1 hok
      rw [← Except.ok.inj hok] at hget
      obtain ⟨q, hq, -⟩ := h.consistent.get_of_kiTx hother
      change pool.tx.get tid = some p at hget
      rw [(Pool.removeFromPool_totalSize hq hremove).2, Store.get_remove] at hget
      split at hget
      · cases hget
      · next hne =>
        refine ⟨hget, fun hmem ↦ hne ?_⟩
        have hsome := (h.consistent.kiTx_iff ki tid).2 ⟨p, hget, hmem⟩
        change t.pool.kiTx.get ki = some other at hother
        rw [hother, Option.some.injEq] at hsome
        exact hsome
  have hkeyImages : t'.db.keyImages = t.db.keyImages.put ki height := by
    split at hok
    · rw [← Except.ok.inj hok]
    · obtain ⟨pool, -, hok⟩ := bind_eq_ok_iff.1 hok
      rw [← Except.ok.inj hok]
  refine ⟨hconsistent, fun tid p hget ↦ h.within tid p (hother tid p hget).1, ?_⟩
  intro tid p hget ki' hki'
  obtain ⟨hget', hnot⟩ := hother tid p hget
  have hne : ki ≠ ki' := fun heq ↦ hnot (heq ▸ hki')
  rw [hkeyImages, Store.get_put_of_ne _ _ hne]
  exact h.fresh tid p hget' ki' hki'

theorem PoolFresh.of_eq {t t' : State} (h : s.PoolFresh t) (hpool : t'.pool = t.pool)
    (hkeyImages : t'.db.keyImages = t.db.keyImages) : s.PoolFresh t' where
  consistent := hpool ▸ h.consistent
  within := hpool ▸ h.within
  fresh := hpool ▸ hkeyImages ▸ h.fresh

theorem PoolFresh.apply {t t' : State} (h : s.PoolFresh t) {delta : DeltaState}
    (hok : delta.apply writes t = .ok t') : s.PoolFresh t' := by
  simp only [DeltaState.apply, bind_eq_ok_iff] at hok
  obtain ⟨t₁, h₁, t₂, h₂, h₃⟩ := hok
  have hfirst : s.PoolFresh t₁ :=
    foldlM_ok_preserves (I := s.PoolFresh) (fun _ _ _ _ hx hI ↦ hI.storeKeyimage hx) h₁ h
  have hsecond : s.PoolFresh t₂ := by
    apply foldlM_ok_preserves (I := s.PoolFresh) _ h₂ hfirst
    intro u x u' _ hx hI
    apply foldlM_ok_preserves (I := s.PoolFresh) _ hx hI
    intro v y v' _ hy hJ
    obtain ⟨outputs, -, hy⟩ := bind_eq_ok_iff.1 hy
    rw [← Except.ok.inj hy]
    exact hJ.of_eq rfl rfl
  apply foldlM_ok_preserves (I := s.PoolFresh) _ h₃ hsecond
  intro u x u' _ hx hI
  rw [← Except.ok.inj hx]
  unfold setSpent
  split
  · exact hI
  · exact hI.of_eq rfl rfl

theorem PoolFresh.redoBlock (h : s.PoolFresh s) {bhash : Hash} {block : Block}
    {info : Api.BlockHeader} (hok : s.redoBlock cr c bhash block info = .ok (some s')) :
    s.PoolFresh s' := by
  unfold State.redoBlock at hok
  split at hok
  · cases hok
  · split at hok
    · cases hok
    · cases hok
    · split at hok
      · simp only [bind_eq_ok_iff] at hok
        obtain ⟨s₁, h₁, table, -, hok⟩ := hok
        rw [← Option.some.inj (Except.ok.inj hok)]
        exact (h.apply h₁).of_eq rfl rfl
      · cases hok

/-- A block adds outputs and spends some; none is lost. -/
theorem Represents.outputsWithin {L : Ledger} (h : s.Represents L) {height : Height}
    {txs : List Transaction} (h' : s'.Represents (L.connect height txs)) :
    OutputsWithin s.reads s'.reads := by
  intro amount index unp hget
  change s.db.outputs.get (amount, index) = some unp at hget
  have hlt : index.toNat < (L.outputs amount).length := by
    rw [h.outputs] at hget
    exact (List.getElem?_eq_some_iff.1 hget).1
  have hget' : s'.db.outputs.get (amount, index) = some
      (if (amount, UInt32.ofNat index.toNat) ∈ spendsOf txs then { unp with spent := true }
        else unp) := by
    rw [h'.outputs, Ledger.connect_outputs, getElem?_markSpent, List.getElem?_append_left hlt,
      ← h.outputs, hget]
    rfl
  refine ⟨_, hget', ?_, ?_⟩ <;> split <;> rfl

theorem PoolSpendable.connect (h : s.PoolSpendable cr c) (hpool : s.pool.Consistent) {L : Ledger}
    (hrep : s.Represents L) {pb : PreparedBlock} {info : Api.BlockHeader} {s₁ : State}
    (hredo : s.redoBlockIndexed cr c pb.bid pb.blockData pb.rawBlock pb.block info
      pb.baseTransactionHash = .ok (some s₁)) (hpush : s₁.pushChain c info = .ok s') :
    s'.PoolSpendable cr c := by
  obtain ⟨hheaders, -, hchain, -⟩ := links_eq_iff.1 (links_of_treePart
    (redoBlockIndexed_treePart hredo))
  obtain ⟨u, hu, hindex⟩ := redoBlockIndexed_eq hredo
  obtain ⟨_, _, hs₁⟩ := indexBlock_frame hindex
  obtain ⟨hnone, _, _, hs'⟩ := pushChain_eq hpush
  have hself : s.PoolFresh s := ⟨hpool, fun _ _ hget ↦ hget, fun _ _ hget _ hki ↦ h.fresh hget hki⟩
  have hfresh : s.PoolFresh s' := by
    apply (hself.redoBlock hu).of_eq
    · rw [hs', hs₁]
    · rw [hs', hs₁]
  have hrep' : s'.Represents (L.connect info.height pb.block.allTransactions) := by
    apply (hrep.redoBlock hu).2.2.2.1.of_eq
    · rw [hs', hs₁]
    · rw [hs', hs₁]
    · rw [hs', hs₁]
  apply h.mono hfresh.within hfresh.fresh
  · intro height bid hget
    rw [← hchain] at hget
    rw [hs']
    refine (Store.get_put_of_ne _ _ fun heq ↦ ?_).trans hget
    subst heq
    rw [hnone] at hget
    cases hget
  · intro bid info' hget
    rw [← hheaders] at hget
    rwa [hs']
  · exact hrep.outputsWithin hrep'

/-! ## Adding a transaction -/

theorem checkTransaction_redoes {tid : Hash} {tx : Transaction} {binaryTx : BinaryArray}
    {unlockHeight : Height} {unlockTimestamp : Timestamp} {result : DeltaState × Height}
    (h : s.checkTransaction cr c tid tx binaryTx unlockHeight unlockTimestamp true =
      .accept result) : s.Redoes cr c tx unlockHeight unlockTimestamp := by
  simp only [checkTransaction, Check.bind_eq_accept_iff, Check.require_eq_accept_iff] at h
  obtain ⟨-, -, -, -, _, -, -, -, -, -, -, -, -, -, h⟩ := h
  split at h
  · cases h
  · split at h
    · cases h
    · split at h
      · cases h
      · cases h
      · next hredo => exact ⟨_, hredo⟩

theorem removeFromPool_within {pool pool' : Pool} {tid tid' : Hash} {p : PoolTransaction}
    (hok : pool.removeFromPool tid = .ok pool') (hget : pool'.tx.get tid' = some p) :
    pool.tx.get tid' = some p := by
  cases htid : pool.tx.get tid with
  | none => exact Pool.removeFromPool_of_none htid hok ▸ hget
  | some q =>
    rw [(Pool.removeFromPool_totalSize htid hok).2, Store.get_remove] at hget
    split at hget
    · cases hget
    · exact hget

/-- A transaction of the pool was there before, or it has just been checked. -/
theorem addTransaction_pool {tid : Hash} {tx : Transaction} {binaryTx : BinaryArray}
    {result : AddTransactionResult} {conflictHeight : Height}
    (hok : s.addTransaction cr c tid tx binaryTx = .ok (result, conflictHeight, s')) :
    ∃ tip, s.getTip = .ok tip ∧ ∀ tid' p, s'.pool.tx.get tid' = some p →
      s.pool.tx.get tid' = some p ∨
        p.tx = tx ∧ s.Redoes cr c tx (s.tipHeight + 1) tip.timestamp := by
  obtain ⟨tip, htip, hok⟩ := bind_eq_ok_iff.1 hok
  refine ⟨tip, htip, ?_⟩
  unfold addTransactionAt at hok
  split at hok
  · cases hok
  · rw [Except.ok.injEq, Prod.mk.injEq, Prod.mk.injEq] at hok
    exact hok.2.2 ▸ fun _ _ hget ↦ .inl hget
  · next delta conflictHeight' hcheck =>
    have hredoes := checkTransaction_redoes hcheck
    obtain ⟨⟨pool, displaced⟩, hdisplace, hok⟩ := bind_eq_ok_iff.1 hok
    have hkept : ∀ tid' p, pool.tx.get tid' = some p → s.pool.tx.get tid' = some p :=
      Pool.displace_keeps
        (I := fun pool ↦ ∀ tid' p, pool.tx.get tid' = some p → s.pool.tx.get tid' = some p)
        (fun _ _ _ h hrem _ _ hget ↦ h _ _ (removeFromPool_within hrem hget))
        (fun _ _ hget ↦ hget) hdisplace
    dsimp only at hok
    split at hok
    · obtain ⟨pool₁, hinsert, hok⟩ := bind_eq_ok_iff.1 hok
      obtain ⟨pool₂, htrim, hok⟩ := bind_eq_ok_iff.1 hok
      have hok := (Prod.mk.inj (Prod.mk.inj (Except.ok.inj hok)).2).2
      rw [← hok]
      apply (Pool.trim_keeps (I := fun pool ↦ ∀ tid' p, pool.tx.get tid' = some p →
        s.pool.tx.get tid' = some p ∨ p.tx = tx ∧ s.Redoes cr c tx (s.tipHeight + 1) tip.timestamp)
        (fun _ _ _ h _ hrem _ _ hget ↦ h _ _ (removeFromPool_within hrem hget)) _ htrim).1
      intro tid' p hget
      rw [(Pool.insert_eq hinsert).2.1, Store.get_put] at hget
      split at hget
      · exact .inr ⟨by rw [← Option.some.inj hget], hredoes⟩
      · exact .inl (hkept tid' p hget)
    · have hok := (Prod.mk.inj (Prod.mk.inj (Except.ok.inj hok)).2).2
      rw [← hok]
      exact fun tid' p hget ↦ .inl (hkept tid' p hget)

theorem PoolSpendable.addTransaction (h : s.PoolSpendable cr c) (hmain : MainChain c s)
    {tid : Hash} {tx : Transaction} {binaryTx : BinaryArray} {result : AddTransactionResult}
    {conflictHeight : Height}
    (hok : s.addTransaction cr c tid tx binaryTx = .ok (result, conflictHeight, s')) :
    s'.PoolSpendable cr c := by
  obtain ⟨tip, htip, hpool⟩ := addTransaction_pool hok
  obtain ⟨pool, version, rfl⟩ := addTransaction_frame hok
  intro tid' p hget
  rcases hpool tid' p hget with hold | ⟨rfl, hredoes⟩
  · exact h tid' p hold
  · rw [getTip, expect_eq_ok_iff] at htip
    exact ⟨s.tipHeight, s.tipBid, tip, hmain.tip, htip, hredoes.spendable⟩

theorem PoolSpendable.onReorganization {undone : UndoneTransactions} {undoneBlocks : Bool}
    (h : undoneBlocks = false → s.PoolSpendable cr c) (hmain : MainChain c s)
    (hok : s.onReorganization cr c undone undoneBlocks = .ok s') : s'.PoolSpendable cr c := by
  have hstep : ∀ (t t' : State) (tid : Hash) (tx : Transaction) (binaryTx : BinaryArray),
      t.readdTransaction cr c tid tx binaryTx = .ok t' →
      MainChain c t ∧ t.PoolSpendable cr c → MainChain c t' ∧ t'.PoolSpendable cr c := by
    rintro t t' tid tx binaryTx hok ⟨hmain, hpool⟩
    obtain ⟨⟨result, height, t''⟩, hadd, hok⟩ := bind_eq_ok_iff.1 hok
    obtain rfl : t'' = t' := Except.ok.inj hok
    refine ⟨?_, hpool.addTransaction hmain hadd⟩
    obtain ⟨pool, version, rfl⟩ := addTransaction_frame hadd
    exact ⟨hmain.height_le, hmain.present, hmain.header, hmain.root, hmain.tip,
      hmain.tipDifficulty⟩
  obtain ⟨s₁, h₁, hok⟩ := bind_eq_ok_iff.1 hok
  obtain ⟨s₂, h₂, hok⟩ := bind_eq_ok_iff.1 hok
  have hfirst : MainChain c s₁ ∧ s₁.PoolSpendable cr c := by
    cases undoneBlocks with
    | false => exact Except.ok.inj h₁ ▸ ⟨hmain, h rfl⟩
    | true =>
      apply foldlM_ok_preserves (I := fun t : State ↦ MainChain c t ∧ t.PoolSpendable cr c)
        (fun t x t' _ hx hI ↦ hstep t t' _ _ _ hx hI) h₁
      refine ⟨⟨hmain.height_le, hmain.present, hmain.header, hmain.root, hmain.tip,
        hmain.tipDifficulty⟩, fun tid p hget ↦ ?_⟩
      rw [Store.get_empty] at hget
      cases hget
  obtain ⟨-, hsecond⟩ := foldlM_ok_preserves
    (I := fun t : State ↦ MainChain c t ∧ t.PoolSpendable cr c)
    (fun t x t' _ hx hI ↦ hstep t t' _ _ _ hx hI) h₂ hfirst
  rw [← Except.ok.inj hok]
  exact hsecond

/-! ## Adding a block -/

theorem PoolSpendable.connect_visited (h : s.PoolSpendable cr c) (hvisited : Visited cr c s)
    {pb : PreparedBlock} {info : Api.BlockHeader} {s₁ : State}
    (hredo : s.redoBlockIndexed cr c pb.bid pb.blockData pb.rawBlock pb.block info
      pb.baseTransactionHash = .ok (some s₁)) (hpush : s₁.pushChain c info = .ok s') :
    s'.PoolSpendable cr c := by
  obtain ⟨L, hrep, -⟩ := hvisited.followsChain.holds.ledger
  exact h.connect hvisited.pool_consistent hrep hredo hpush

theorem PoolSpendable.redoBranch (h : s.PoolSpendable cr c) (hvisited : Visited cr c s)
    {recentPb : PreparedBlock} {recentInfo : Api.BlockHeader}
    (hrecent : s.Stores cr c recentPb recentInfo) {branch : List Hash}
    (hne : ∀ bid ∈ branch, bid ≠ c.genesisBlockHash) {undone undone' : UndoneTransactions}
    {result : Bool}
    (hok : s.redoBranch cr c recentPb recentInfo branch undone = .ok (undone', s', result)) :
    s'.PoolSpendable cr c := by
  induction branch generalizing s undone with
  | nil =>
    have hok := Prod.mk.inj (Prod.mk.inj (Except.ok.inj hok)).2
    exact hok.1 ▸ h
  | cons chha branch ih =>
    obtain ⟨r, hone, hok⟩ := bind_eq_ok_iff.1 hok
    cases r with
    | none =>
      have hok := Prod.mk.inj (Prod.mk.inj (Except.ok.inj hok)).2
      exact hok.1 ▸ h
    | some r =>
      obtain ⟨undone₁, s₁⟩ := r
      have hchange : Change cr c (fun _ _ ↦ True) s s₁ :=
        redoOne_change hvisited.linked hrecent (hne chha List.mem_cons_self) hone
      obtain ⟨pb, info, u, -, -, -, hredo, hpush⟩ :=
        redoOne_connects hvisited.linked hrecent hone
      exact ih (h.connect_visited hvisited hredo hpush) (hvisited.tail hchange)
        (hrecent.change hchange) (fun bid hmem ↦ hne bid (List.mem_cons_of_mem _ hmem)) hok

theorem undoTo_of_tipBid {common : Hash} {fuel : ℕ} {undone undone' : UndoneTransactions}
    (htip : s.tipBid = common) (hok : s.undoTo cr c common fuel undone = .ok (undone', s')) :
    s' = s := by
  cases fuel <;> rw [undoTo, if_pos htip] at hok <;> exact (Prod.mk.inj (Except.ok.inj hok)).2.symm

/-- A switch either connects blocks only, or it rebuilds the pool on the new tip. -/
theorem PoolSpendable.reorganizeBlocks (h : s.PoolSpendable cr c) (hvisited : Visited cr c s)
    (hs : Started s) {recentPb : PreparedBlock} {recentInfo : Api.BlockHeader}
    (hrecent : s.Stores cr c recentPb recentInfo) {switchToChain : Hash} {result : Bool}
    (hok : s.reorganizeBlocks cr c switchToChain recentPb recentInfo = .ok (result, s')) :
    s'.PoolSpendable cr c := by
  obtain ⟨⟨chain1, chain2, common⟩, hcommon, hok⟩ := bind_eq_ok_iff.1 hok
  dsimp only at hok
  split at hok
  · exact (Prod.mk.inj (Except.ok.inj hok)).2 ▸ h
  · simp only [bind_eq_ok_iff, Prod.exists] at hok
    obtain ⟨undone₁, s₁, h₁, undone₂, s₂, result', h₂, s₃, h₃, hok⟩ := hok
    have hne : ∀ bid ∈ chain2.reverse, bid ≠ c.genesisBlockHash := fun bid hmem ↦
      getCommonBlock_ne_genesis hvisited.linked hcommon bid (List.mem_reverse.1 hmem)
    have c₁ : Changes cr c (fun _ _ ↦ True) s s₁ := undoTo_changes h₁
    have c₂ : Changes cr c (fun _ _ ↦ True) s₁ s₂ :=
      redoBranch_changes (hvisited.linked.changes c₁) (hrecent.changes c₁) hne h₂
    have hstarted := started_preserved.star (c₁.trans c₂) ⟨hvisited.linked, hs⟩
    rw [← (Prod.mk.inj (Except.ok.inj hok)).2]
    apply PoolSpendable.onReorganization _ (hstarted.1.mainChain hstarted.2) h₃
    intro hundone
    have htip : s.tipBid = common := by simpa using hundone
    obtain rfl := undoTo_of_tipBid htip h₁
    exact h.redoBranch hvisited hrecent hne h₂

theorem PoolSpendable.storeBlock (h : s.PoolSpendable cr c) {pb : PreparedBlock}
    {info : Api.BlockHeader} (hok : s.storeBlock pb info = .ok s') : s'.PoolSpendable cr c := by
  obtain ⟨hfresh, _, -, -, rfl⟩ := storeBlock_eq hok
  refine h.mono (fun _ _ hget ↦ hget) (fun _ _ hget _ hki ↦ h.fresh hget hki) (fun _ _ hget ↦ hget)
    ?_ fun _ _ unp hget ↦ ⟨unp, hget, rfl, rfl⟩
  intro bid info' hget
  refine (Store.get_put_of_ne _ _ fun heq ↦ ?_).trans hget
  rw [← heq, hfresh] at hget
  cases hget

theorem PoolSpendable.modifyChildrenCounter (h : s.PoolSpendable cr c) (cd : Difficulty)
    (bid : Hash) (delta : UInt32) : (s.modifyChildrenCounter cd bid delta).PoolSpendable cr c :=
  h.mono (fun _ _ hget ↦ hget) (fun _ _ hget _ hki ↦ h.fresh hget hki) (fun _ _ hget ↦ hget)
    (fun _ _ hget ↦ hget) fun _ _ unp hget ↦ ⟨unp, hget, rfl, rfl⟩

theorem PoolSpendable.insertBlock (h : s.PoolSpendable cr c) (hvisited : Visited cr c s)
    (hs : Started s) {now : Timestamp} {pb : PreparedBlock} {prev info : Api.BlockHeader}
    (hbuilt : pb.Built cr) (haccepts : s.Accepts cr c now pb prev info) {action : BroadcastAction}
    (hok : s.insertBlock cr c pb info prev = .ok (action, s')) : s'.PoolSpendable cr c := by
  obtain ⟨s₁, s₂, chosen, hstore, hlink, hchoose, rfl, hchanges, hstores, -⟩ :=
    insertBlock_choose hvisited.linked hs hbuilt haccepts hok
  have h₂ : s₂.PoolSpendable cr c := by
    simp only [linkBlock, if_neg (hvisited.linked.fresh_ne_genesis hs haccepts.fresh),
      bind_eq_ok_iff] at hlink
    obtain ⟨u, hu, ⟨⟩, -, hlink⟩ := hlink
    rw [← Except.ok.inj hlink, ← Except.ok.inj hu]
    exact ((h.storeBlock hstore).modifyChildrenCounter _ _ _).modifyChildrenCounter _ _ _
  have hvisited₂ : Visited cr c s₂ := hvisited.trans hchanges
  have hs₂ := (started_preserved.star hchanges ⟨hvisited.linked, hs⟩).2
  unfold chooseChain at hchoose
  split at hchoose
  · split at hchoose
    · obtain ⟨r, hredo, hchoose⟩ := bind_eq_ok_iff.1 hchoose
      cases r with
      | none =>
        rw [← Except.ok.inj hchoose]
        exact h₂
      | some v =>
        obtain ⟨w, hpush, hchoose⟩ := bind_eq_ok_iff.1 hchoose
        rw [← Except.ok.inj hchoose]
        exact h₂.connect_visited hvisited₂ hredo hpush
    · obtain ⟨⟨result, v⟩, hreorg, hchoose⟩ := bind_eq_ok_iff.1 hchoose
      rw [← Except.ok.inj hchoose]
      exact h₂.reorganizeBlocks hvisited₂ hs₂ hstores hreorg
  · rw [← Except.ok.inj hchoose]
    exact h₂

/-! ## Runs -/

theorem poolSpendable_of_empty (h : s.pool = {}) : s.PoolSpendable cr c := by
  intro tid p hget
  rw [h, Store.get_empty] at hget
  cases hget

theorem PoolSpendable.step (h : s.PoolSpendable cr c) (hvisited : Visited cr c s) (hs : Started s)
    {e : Event} (hok : s.step cr c e = .ok s') : s'.PoolSpendable cr c := by
  cases e with
  | addBlock now raw context =>
    unfold State.step at hok
    dsimp only at hok
    split at hok
    · exact Except.ok.inj hok ▸ h
    · next pb hprep =>
      simp only [bind_eq_ok_iff, Prod.exists] at hok
      obtain ⟨action, info, t, hadd, hok⟩ := hok
      rw [← Except.ok.inj hok]
      have hbuilt := (PreparedBlock.built_of_ofRawBlock raw.property hprep).1
      rcases addBlock_cases hvisited.linked hadd with ⟨rfl, -⟩ | ⟨prev, haccepts, hinsert⟩
      · exact h
      · exact h.insertBlock hvisited hs hbuilt haccepts hinsert
  | addTransaction binaryTx =>
    unfold State.step at hok
    dsimp only at hok
    split at hok
    · exact Except.ok.inj hok ▸ h
    · split at hok
      · exact Except.ok.inj hok ▸ h
      · simp only [bind_eq_ok_iff, Prod.exists] at hok
        obtain ⟨result, conflictHeight, t, hadd, hok⟩ := hok
        exact Except.ok.inj hok ▸ h.addTransaction (hvisited.linked.mainChain hs) hadd
  | cacheNextIndex amount =>
    rw [← Except.ok.inj hok]
    exact h.mono (fun _ _ hget ↦ hget) (fun _ _ hget _ hki ↦ h.fresh hget hki)
      (fun _ _ hget ↦ hget) (fun _ _ hget ↦ hget) fun _ _ unp hget ↦ ⟨unp, hget, rfl, rfl⟩
  | restart now =>
    have hroot := (hvisited.linked.mainChain hs).root
    simp only [State.step, start, hroot, ne_eq, not_true_eq_false, if_false, bind_eq_ok_iff] at hok
    obtain ⟨s₁, hread, htip⟩ := hok
    obtain ⟨-, _, _, -, -, rfl⟩ := tipChanged_eq htip
    simp only [readTip, bind_eq_ok_iff, Prod.exists] at hread
    obtain ⟨_, _, -, _, -, hread⟩ := hread
    rw [← Except.ok.inj hread]
    exact poolSpendable_of_empty rfl

theorem modifyChildrenCounter_pool (cd : Difficulty) (bid : Hash) (delta : UInt32) :
    (s.modifyChildrenCounter cd bid delta).pool = s.pool := rfl

/-- The genesis block finds an empty pool and leaves it so. -/
theorem start_pool {now : Timestamp} (hok : State.start cr c now {} = .ok s) : s.pool = {} := by
  simp only [start, Store.get_empty, addGenesis, bind_eq_ok_iff, expect_eq_ok_iff,
    invariant_eq_ok_iff, Prod.exists] at hok
  obtain ⟨s₂, ⟨raw, -, pb, -, action, info, s₁, hadd, ⟨⟩, -, h₁⟩, htip⟩ := hok
  obtain ⟨-, _, _, -, -, rfl⟩ := tipChanged_eq htip
  obtain rfl := Except.ok.inj h₁
  rcases addBlock_cases linked_empty hadd with ⟨rfl, -⟩ | ⟨prev, haccepts, hinsert⟩
  · rfl
  · have hgenesis : pb.bid = c.genesisBlockHash := by
      by_contra hne
      have hprev := haccepts.prev_eq
      rw [prevInfo, if_neg hne, Store.get_empty] at hprev
      cases hprev
    simp only [insertBlock, bind_eq_ok_iff] at hinsert
    obtain ⟨t₁, hstore, t₂, hlink, chosen, hchoose, hok⟩ := hinsert
    obtain ⟨-, _, -, -, rfl⟩ := storeBlock_eq hstore
    simp only [linkBlock, if_pos hgenesis, applyGenesis, bind_eq_ok_iff, expect_eq_ok_iff] at hlink
    obtain ⟨u, ⟨applied, hredo, v, rfl, hpush⟩, ⟨⟩, -, hlink⟩ := hlink
    obtain ⟨w, hw, hindex⟩ := redoBlockIndexed_eq hredo
    have hpool : w.pool = {} := redoBlock_keeps (I := fun pool ↦ pool = {})
      (fun pool tid pool' hempty hremove ↦ by
        subst hempty
        exact Pool.removeFromPool_of_none (Store.get_empty _) hremove) rfl hw
    obtain ⟨_, _, hindexed⟩ := indexBlock_frame hindex
    obtain ⟨-, _, _, hpushed⟩ := pushChain_eq hpush
    have hlink := Except.ok.inj hlink
    -- the genesis block is the tip already and weighs no more than it
    have hnot : ¬ t₂.tipCumulativeDifficulty < info.cumulativeDifficulty := by
      rw [← hlink, modifyChildrenCounter_tipCumulativeDifficulty, hpushed]
      exact UInt64.lt_irrefl _
    rw [chooseChain, if_neg hnot] at hchoose
    have hchoose := Except.ok.inj hchoose
    subst hchoose
    rw [← (Prod.mk.inj (Except.ok.inj hok)).2, ← hlink, modifyChildrenCounter_pool, hpushed,
      hindexed, hpool]

end State

theorem Reachable.poolSpendable {isTestnet : Bool} {s : State}
    (h : Reachable cr (Currency.make cr isTestnet) s) :
    s.PoolSpendable cr (Currency.make cr isTestnet) := by
  induction h with
  | start hok => exact State.poolSpendable_of_empty (State.start_pool hok)
  | step hrun _ hok ih =>
    have hreach : Reachable cr (Currency.make cr isTestnet) _ := hrun
    exact ih.step hreach.visited hreach.started hok

/-! ## Later heights and timestamps -/

/-- Sums of 32 bits grow with their first part where they do not wrap. -/
theorem toUInt64_add_le {a a' d : UInt32}
    (h : a' = a ∨ a ≤ a' ∧ a'.toNat + d.toNat < 2 ^ 32) : (a + d).toUInt64 ≤ (a' + d).toUInt64 := by
  rcases h with rfl | ⟨hle, hlt⟩
  · exact UInt64.le_refl _
  · rw [UInt64.le_iff_toNat_le, UInt32.toNat_toUInt64, UInt32.toNat_toUInt64, UInt32.toNat_add,
      UInt32.toNat_add]
    have hle := UInt32.le_iff_toNat_le.1 hle
    rw [Nat.mod_eq_of_lt hlt, Nat.mod_eq_of_lt (by omega)]
    omega

/-- What is unlocked stays unlocked while the sums do not wrap. -/
theorem Currency.isTransactionSpendTimeUnlocked_mono {height height' : Height}
    {timestamp timestamp' : Timestamp}
    (hheight : height' = height ∨
      height ≤ height' ∧ height'.toNat + c.lockedTxAllowedDeltaBlocks.toNat < 2 ^ 32)
    (htimestamp : timestamp' = timestamp ∨
      timestamp ≤ timestamp' ∧ timestamp'.toNat + c.lockedTxAllowedDeltaSeconds.toNat < 2 ^ 32)
    {unlockTime : UnlockMoment}
    (h : c.isTransactionSpendTimeUnlocked unlockTime height timestamp = true) :
    c.isTransactionSpendTimeUnlocked unlockTime height' timestamp' = true := by
  unfold isTransactionSpendTimeUnlocked at h ⊢
  by_cases hblock : unlockTime < c.maxBlockHeight.toUInt64
  · rw [if_pos hblock, decide_eq_true_eq] at h ⊢
    exact UInt64.le_trans h (toUInt64_add_le hheight)
  · rw [if_neg hblock, decide_eq_true_eq] at h ⊢
    exact UInt64.le_trans h (toUInt64_add_le htimestamp)

theorem State.Represents.bounded {s : State} {L : Ledger} (h : s.Represents L)
    (hroom : ∀ amount, s.db.outputs.get (amount, 0xFFFFFFFF) = none) : s.reads.Bounded := by
  intro amount index hne
  have hlast := hroom amount
  rw [h.outputs, List.getElem?_eq_none_iff] at hlast
  have hlength : (L.outputs amount).length < 2 ^ 32 := lt_of_le_of_lt hlast (by decide)
  change s.db.outputs.get (amount, index) ≠ none at hne
  change index < s.nextGlobalIndexForAmount amount
  rw [h.outputs, ne_eq, List.getElem?_eq_none_iff, not_le] at hne
  rw [h.next, UInt32.lt_iff_toNat_lt, toNat_ofNat_of_lt hlength]
  exact hne

/-- Every transaction of the pool can be spent at the height above a block of the main chain and at
its timestamp.  It passes on the tip with that timestamp, and with the tip's own if that is no
earlier, as long as heights, timestamps and global indices have not run out. -/
theorem Reachable.pool_redoes {isTestnet : Bool} {s : State}
    (h : Reachable cr (Currency.make cr isTestnet) s) {tid : Hash} {p : PoolTransaction}
    (hget : s.pool.tx.get tid = some p) : ∃ height bid info,
      s.db.chain.get height = some bid ∧ s.db.headers.get bid = some info ∧
      Spendable cr (Currency.make cr isTestnet) s.reads p.tx (height + 1) info.timestamp ∧
      (s.tipHeight < 0xFFFFFFFE → (∀ amount, s.db.outputs.get (amount, 0xFFFFFFFF) = none) →
        s.Redoes cr (Currency.make cr isTestnet) p.tx (s.tipHeight + 1) info.timestamp ∧
        ∀ tip, s.getTip = .ok tip → info.timestamp ≤ tip.timestamp → tip.timestamp.toNat +
            (Currency.make cr isTestnet).lockedTxAllowedDeltaSeconds.toNat < 2 ^ 32 →
          s.Redoes cr (Currency.make cr isTestnet) p.tx (s.tipHeight + 1) tip.timestamp) := by
  obtain ⟨height, bid, info, hbid, hinfo, hspendable⟩ := h.poolSpendable tid p hget
  refine ⟨height, bid, info, hbid, hinfo, hspendable, fun hlast hroom ↦ ?_⟩
  obtain ⟨L, hrep, -⟩ := h.visited.followsChain.holds.ledger
  have hbounded := hrep.bounded hroom
  have hle := (h.linked.mainChain h.started).height_le height bid hbid
  have hdelta : (Currency.make cr isTestnet).lockedTxAllowedDeltaBlocks.toNat = 1 := by rfl
  have hheight : height + 1 ≤ s.tipHeight + 1 ∧ (s.tipHeight + 1).toNat +
      (Currency.make cr isTestnet).lockedTxAllowedDeltaBlocks.toNat < 2 ^ 32 := by
    have hle := UInt32.le_iff_toNat_le.1 hle
    have hlast := UInt32.lt_iff_toNat_lt.1 hlast
    have hmax : (0xFFFFFFFE : UInt32).toNat = 2 ^ 32 - 2 := by decide
    rw [UInt32.le_iff_toNat_le, UInt32.toNat_add, UInt32.toNat_add, hdelta]
    simp only [UInt32.reduceToNat]
    omega
  have hkeep : ∀ timestamp, (timestamp = info.timestamp ∨ info.timestamp ≤ timestamp ∧
      timestamp.toNat + (Currency.make cr isTestnet).lockedTxAllowedDeltaSeconds.toNat < 2 ^ 32) →
      s.Redoes cr (Currency.make cr isTestnet) p.tx (s.tipHeight + 1) timestamp := by
    intro timestamp htimestamp
    apply Spendable.redoes _ hbounded
    exact hspendable.mono (fun e hmem ↦ (hspendable.rings e hmem).fresh)
      (fun _ _ unp hread ↦ ⟨unp, hread, rfl, rfl⟩)
      fun _ hunlocked ↦ Currency.isTransactionSpendTimeUnlocked_mono (.inr hheight) htimestamp
        hunlocked
  exact ⟨hkeep _ (.inl rfl), fun tip _ hearlier hfits ↦ hkeep _ (.inr ⟨hearlier, hfits⟩)⟩

/-! ## A time lock that closes again -/

/-- It makes outputs of the checkpoint zone that are locked until a moment. -/
def lockingTransaction : Transaction :=
  { sampleTransaction [{ amount := 20001, outputIndexes := [0], keyImage := 7 }] [10000, 10000]
      (List.replicate 32 5) 0 with unlockTime := 500000100 }

/-- The block at height 1 with `lockingTransaction`. -/
def lockingBlock : BlockTemplate :=
  sampleTemplate 1 mainnet.genesisBlockHash 0 (sampleCoinbase 1 281470681743361 [1, 2])
    [lockingTransaction]

/-- The block at height 2, after the moment. -/
def lateBlock : BlockTemplate :=
  (sampleTemplate 2 lockingBlock.sampleHash 500000200 (sampleCoinbase 2 281466386841600 [3])
    []).merged

/-- The block at height 3, long before the moment. -/
def earlyBlock : BlockTemplate :=
  (sampleTemplate 3 lateBlock.sampleHash 0 (sampleCoinbase 3 281462092005375 [4]) []).merged

/-- It spends the first of the locked outputs. -/
def lockedSpend : Transaction :=
  sampleTransaction [{ amount := 10000, outputIndexes := [0], keyImage := 11 }] [9999] [] 1

/-- `lockedSpend` enters the pool between the last two blocks. -/
def lockingEvents : List Event :=
  [.offer 1000 (lockingBlock.rawBlock [lockingTransaction]),
    .offer 500000200 (lateBlock.rawBlock []), .addTransaction lockedSpend.bytes,
    .offer 500000200 (earlyBlock.rawBlock [])]

theorem runFromStart_lockingEvents : returns (runFromStart sampleCrypto mainnet lockingEvents)
    (fun s ↦
      match s.getTip, s.pool.tx.get lockedSpend.sampleHash with
      | .ok tip, some p =>
        match redoTransactionGetError sampleCrypto mainnet p.tx s.reads
          { blockHeight := s.tipHeight + 1, unlockTimestamp := tip.timestamp } true with
        | .reject error => error.text = "INPUT_SPEND_LOCKED_OUT"
        | _ => false
      | _, _ => false) = true := by
  decide +kernel

/-- The pool holds a transaction that does not pass on the tip. -/
theorem State.pool_locked_out : ∃ (s : State) (tip : Api.BlockHeader) (tid : Hash)
    (p : PoolTransaction), Reachable sampleCrypto mainnet s ∧ s.getTip = .ok tip ∧
    s.pool.tx.get tid = some p ∧
    ¬ s.Redoes sampleCrypto mainnet p.tx (s.tipHeight + 1) tip.timestamp := by
  obtain ⟨s, hrun, htest⟩ := returns_iff.1 runFromStart_lockingEvents
  split at htest
  · next tip p htip hget =>
    refine ⟨s, tip, lockedSpend.sampleHash, p, reachable_of_runFromStart hrun, htip, hget, ?_⟩
    rintro ⟨result, hok⟩
    rw [hok] at htest
    cases htest
  · cases htest

theorem Reachable.pool_redoes_lockedSpend : ∃ (s : State) (p : PoolTransaction) (height : Height)
    (bid : Hash) (info : Api.BlockHeader), Reachable sampleCrypto mainnet s ∧
    s.pool.tx.get lockedSpend.sampleHash = some p ∧ s.db.chain.get height = some bid ∧
    s.db.headers.get bid = some info ∧
    Spendable sampleCrypto mainnet s.reads p.tx (height + 1) info.timestamp := by
  obtain ⟨s, hrun, htest⟩ := returns_iff.1 runFromStart_lockingEvents
  have hreach := reachable_of_runFromStart hrun
  split at htest
  · next tip p htip hget =>
    obtain ⟨height, bid, info, hbid, hinfo, hspendable, -⟩ := Reachable.pool_redoes hreach hget
    exact ⟨s, p, height, bid, info, hreach, hget, hbid, hinfo, hspendable⟩
  · cases htest

end Naza
