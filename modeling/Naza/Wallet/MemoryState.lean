import Naza.Wallet.Listing

/-!
# The memory state of a wallet

`DeltaState`: the outputs and key images of transactions that are in no block yet.  Undoing a
transaction does not know what the transaction added: for each of its outputs the first one kept
under the same key with the same amount is erased.
-/

open Lib

namespace Naza

namespace WalletState

/-- `DeltaState`. -/
structure DeltaState extends MemoryState where
  transactions : Store Hash (TransactionPrefix × Api.Transaction) := ∅

namespace DeltaState

/-- `add_incoming_output`. -/
def addIncomingOutput (output : Api.Output) (d : DeltaState) : DeltaState :=
  { d with unspents :=
      d.unspents.put output.publicKey ((d.unspents.get output.publicKey).getD [] ++ [output]) }

/-- One more use of a key image. -/
def useKeyimage (used : Store KeyImage ℕ) (keyImage : KeyImage) : Store KeyImage ℕ :=
  used.put keyImage ((used.get keyImage).getD 0 + 1)

/-- `add_transaction`. -/
def addTransaction (tid : Hash) (tx : TransactionPrefix) (ptx : Api.Transaction)
    (d : DeltaState) : Except Fault DeltaState := do
  invariant (d.transactions.get tid = none) "transaction already exists. Invariant dead"
  return { d with
    transactions := d.transactions.put tid (tx, ptx)
    usedKeyimages := tx.keyImages.foldl useKeyimage d.usedKeyimages }

/-- The first output of the amount erased under the key of an output. -/
def eraseOutput (unspents : Store PublicKey (List Api.Output)) (output : TransactionOutput) :
    Store PublicKey (List Api.Output) :=
  match unspents.get output.key with
  | none => unspents
  | some outputs =>
    match outputs.eraseP fun o ↦ o.amount = output.amount with
    | [] => unspents.remove output.key
    | o :: rest => unspents.put output.key (o :: rest)

/-- One use less of a key image. -/
def releaseKeyimage (used : Store KeyImage ℕ) (keyImage : KeyImage) :
    Except Fault (Store KeyImage ℕ) := do
  let count ← expect (used.get keyImage) ""
  invariant (1 ≤ count) ""
  return if count = 1 then used.remove keyImage else used.put keyImage (count - 1)

/-- `undo_transaction`. -/
def undoTransaction (tid : Hash) (d : DeltaState) : Except Fault DeltaState :=
  match d.transactions.get tid with
  | none => .ok d
  | some (tx, _) => do
    let usedKeyimages ← tx.keyImages.foldlM releaseKeyimage d.usedKeyimages
    return {
      unspents := tx.outputs.foldl eraseOutput d.unspents
      usedKeyimages
      transactions := d.transactions.remove tid }

/-! ## Calls -/

/-- A call of the memory state: a transaction with the outputs it adds, or an undo. -/
inductive Call where
  | add (tid : Hash) (tx : TransactionPrefix) (ptx : Api.Transaction) (outputs : List Api.Output)
  | undo (tid : Hash)

/-- The state after a call. -/
def call (d : DeltaState) : Call → Except Fault DeltaState
  | .add tid tx ptx outputs =>
    (outputs.foldl (fun d output ↦ d.addIncomingOutput output) d).addTransaction tid tx ptx
  | .undo tid => d.undoTransaction tid

/-- The state after some calls. -/
def replay (calls : List Call) : Except Fault DeltaState := calls.foldlM call {}

/-- What the transactions now present added. -/
def contributed (calls : List Call) : Store Hash (List Api.Output) :=
  calls.foldl (fun added m ↦ match m with
    | .add tid _ _ outputs => added.put tid outputs
    | .undo tid => added.remove tid) ∅

/-- The outputs kept under a key. -/
def outputsAt (unspents : Store PublicKey (List Api.Output)) (key : PublicKey) :
    List Api.Output := (unspents.get key).getD []

/-- Every output stands under its key, and no key stands without outputs. -/
def Keyed (unspents : Store PublicKey (List Api.Output)) : Prop :=
  ∀ key outputs, unspents.get key = some outputs →
    outputs ≠ [] ∧ ∀ o ∈ outputs, o.publicKey = key

/-- The part that every call keeps. -/
structure Kept (calls : List Call) (d : DeltaState) : Prop where
  present : ∀ tid, (contributed calls).get tid = none ↔ d.transactions.get tid = none
  keyed : Keyed d.unspents
  usedKeyimages : ∀ ki, (d.usedKeyimages.get ki).getD 0 =
    d.transactions.total fun p ↦ p.1.keyImages.count ki
  positive : ∀ ki, d.usedKeyimages.get ki ≠ some 0

/-- Outputs and key images are the sum of what the transactions now present added. -/
structure Summed (calls : List Call) (d : DeltaState) : Prop extends Kept calls d where
  unspents : ∀ o, (outputsAt d.unspents o.publicKey).count o =
    (contributed calls).total fun outputs ↦ outputs.count o

/-- An undo finds, first among the outputs of a key and an amount, those that the transaction
itself added. -/
def FindsOwn (calls : List Call) (tid : Hash) (d : DeltaState) : Prop :=
  ∀ tx ptx, d.transactions.get tid = some (tx, ptx) → ∀ key amount,
    (((outputsAt d.unspents key).filter fun o ↦ o.amount = amount).take
      (tx.outputs.countP fun output ↦ output.key = key ∧ output.amount = amount)).Perm
    ((((contributed calls).get tid).getD []).filter fun o ↦
      o.publicKey = key ∧ o.amount = amount)

/-! ## Outputs -/

section Outputs

variable {unspents : Store PublicKey (List Api.Output)} {key : PublicKey} {amount : Amount}
  {d d' : DeltaState} {calls : List Call} {tid : Hash}

theorem outputsAt_eraseOutput (unspents : Store PublicKey (List Api.Output))
    (output : TransactionOutput) (key : PublicKey) :
    outputsAt (eraseOutput unspents output) key =
      if output.key = key then
        (outputsAt unspents key).eraseP fun o ↦ o.amount = output.amount
      else outputsAt unspents key := by
  unfold eraseOutput outputsAt
  split
  · next hnone =>
    split
    · next hkey =>
      rw [← hkey, hnone]
      rfl
    · rfl
  · next outputs hsome =>
    by_cases hkey : output.key = key
    · rw [if_pos hkey, ← hkey, hsome, Option.getD_some]
      split
      · next hnil => rw [hnil, Store.get_remove_self, Option.getD_none]
      · next o rest hcons => rw [hcons, Store.get_put_self, Option.getD_some]
    · rw [if_neg hkey]
      split
      · rw [Store.get_remove_of_ne _ hkey]
      · rw [Store.get_put_of_ne _ _ hkey]

theorem filter_eraseP (a b : Amount) (l : List Api.Output) :
    (l.eraseP fun o ↦ o.amount = b).filter (fun o ↦ o.amount = a) =
      (l.filter fun o ↦ o.amount = a).drop (if b = a then 1 else 0) := by
  induction l with
  | nil => simp
  | cons o l ih =>
    by_cases hb : o.amount = b
    · rw [List.eraseP_cons_of_pos (by simpa using hb)]
      by_cases ha : b = a
      · rw [List.filter_cons_of_pos (by simpa using hb.trans ha), if_pos ha]
        rfl
      · rw [List.filter_cons_of_neg (by simpa [hb] using ha), if_neg ha, List.drop_zero]
    · rw [List.eraseP_cons_of_neg (by simpa using hb)]
      by_cases ha : o.amount = a
      · have hab : b ≠ a := fun hab ↦ hb (ha.trans hab.symm)
        rw [if_neg hab] at ih ⊢
        rw [List.filter_cons_of_pos (by simpa using ha), ih,
          List.filter_cons_of_pos (by simpa using ha), List.drop_zero, List.drop_zero]
      · rw [List.filter_cons_of_neg (by simpa using ha), ih,
          List.filter_cons_of_neg (by simpa using ha)]

/-- Of each key and amount as many outputs are dropped from the front as are undone. -/
theorem filter_undone (outputs : List TransactionOutput)
    (unspents : Store PublicKey (List Api.Output)) (key : PublicKey) (amount : Amount) :
    (outputsAt (outputs.foldl eraseOutput unspents) key).filter (fun o ↦ o.amount = amount) =
      ((outputsAt unspents key).filter fun o ↦ o.amount = amount).drop
        (outputs.countP fun output ↦ output.key = key ∧ output.amount = amount) := by
  induction outputs generalizing unspents with
  | nil => rfl
  | cons output outputs ih =>
    rw [List.foldl_cons, ih, outputsAt_eraseOutput, List.countP_cons]
    by_cases hkey : output.key = key
    · rw [if_pos hkey, filter_eraseP, List.drop_drop]
      congr 1
      by_cases hamount : output.amount = amount
      · simp [hkey, hamount, Nat.add_comm]
      · simp [hamount]
    · simp [hkey]

/-- What is left of an output, and what the undo took of it. -/
theorem count_undone (outputs : List TransactionOutput)
    (unspents : Store PublicKey (List Api.Output)) (o : Api.Output) :
    (outputsAt (outputs.foldl eraseOutput unspents) o.publicKey).count o +
      (((outputsAt unspents o.publicKey).filter fun o' ↦ o'.amount = o.amount).take
        (outputs.countP fun output ↦
          output.key = o.publicKey ∧ output.amount = o.amount)).count o =
      (outputsAt unspents o.publicKey).count o := by
  have hsame : ∀ l : List Api.Output,
      (l.filter fun o' ↦ o'.amount = o.amount).count o = l.count o :=
    fun l ↦ List.count_filter (by simp)
  rw [← hsame (outputsAt (outputs.foldl eraseOutput unspents) o.publicKey), filter_undone,
    ← hsame (outputsAt unspents o.publicKey)]
  conv_rhs => rw [← List.take_append_drop
    (outputs.countP fun output ↦ output.key = o.publicKey ∧ output.amount = o.amount)
    ((outputsAt unspents o.publicKey).filter fun o' ↦ o'.amount = o.amount)]
  rw [List.count_append]
  exact Nat.add_comm _ _

theorem Keyed.eraseOutput (h : Keyed unspents) (output : TransactionOutput) :
    Keyed (eraseOutput unspents output) := by
  intro key outputs hget
  unfold DeltaState.eraseOutput at hget
  split at hget
  · exact h key outputs hget
  · next before hbefore =>
    split at hget
    · rw [Store.get_remove] at hget
      split at hget
      · cases hget
      · exact h key outputs hget
    · next o rest hrest =>
      rw [Store.get_put] at hget
      split at hget
      · next hkey =>
        obtain rfl := Option.some.inj hget
        refine ⟨List.cons_ne_nil _ _, fun o' hmem ↦ ?_⟩
        rw [← hrest] at hmem
        rw [← hkey]
        exact (h output.key before hbefore).2 o' (List.mem_of_mem_eraseP hmem)
      · exact h key outputs hget

theorem Keyed.undone (h : Keyed unspents) (outputs : List TransactionOutput) :
    Keyed (outputs.foldl DeltaState.eraseOutput unspents) := by
  induction outputs generalizing unspents with
  | nil => exact h
  | cons output outputs ih => exact ih (h.eraseOutput output)

theorem mem_outputsAt (h : Keyed unspents) {o : Api.Output} (hmem : o ∈ outputsAt unspents key) :
    o.publicKey = key := by
  unfold outputsAt at hmem
  cases hget : unspents.get key with
  | none =>
    rw [hget] at hmem
    cases hmem
  | some outputs =>
    rw [hget] at hmem
    exact (h key outputs hget).2 o hmem

theorem outputsAt_addIncomingOutput (output : Api.Output) (d : DeltaState) (key : PublicKey) :
    outputsAt (d.addIncomingOutput output).unspents key =
      if output.publicKey = key then outputsAt d.unspents key ++ [output]
      else outputsAt d.unspents key := by
  unfold outputsAt addIncomingOutput
  dsimp only
  rw [Store.get_put]
  split
  · next hkey => rw [hkey, Option.getD_some]
  · rfl

theorem Keyed.addIncomingOutput (h : Keyed d.unspents) (output : Api.Output) :
    Keyed (d.addIncomingOutput output).unspents := by
  intro key outputs hget
  unfold DeltaState.addIncomingOutput at hget
  dsimp only at hget
  rw [Store.get_put] at hget
  split at hget
  · next hkey =>
    obtain rfl := Option.some.inj hget
    refine ⟨by simp, fun o hmem ↦ ?_⟩
    rcases List.mem_append.1 hmem with hmem | hmem
    · exact hkey ▸ mem_outputsAt h hmem
    · rw [List.mem_singleton.1 hmem, hkey]
  · exact h key outputs hget

/-- Outputs received one after the other. -/
theorem addIncomingOutputs (h : Keyed d.unspents) (outputs : List Api.Output) :
    ∃ unspents, outputs.foldl (fun d output ↦ d.addIncomingOutput output) d =
        { d with unspents } ∧ Keyed unspents ∧
      ∀ o, (outputsAt unspents o.publicKey).count o =
        (outputsAt d.unspents o.publicKey).count o + outputs.count o := by
  induction outputs generalizing d with
  | nil => exact ⟨d.unspents, rfl, h, fun o ↦ rfl⟩
  | cons output outputs ih =>
    obtain ⟨unspents, hfold, hkeyed, hcount⟩ := ih (h.addIncomingOutput output)
    refine ⟨unspents, hfold, hkeyed, fun o ↦ ?_⟩
    rw [hcount, outputsAt_addIncomingOutput, List.count_cons]
    split
    · next hkey =>
      rw [List.count_append, List.count_singleton]
      omega
    · next hkey =>
      have hne : (output == o) = false := by
        rw [beq_eq_false_iff_ne]
        rintro rfl
        exact hkey rfl
      simp [hne]

end Outputs

/-! ## Key images -/

section KeyImages

variable {used used' : Store KeyImage ℕ}

theorem useKeyimages (images : List KeyImage) (hpositive : ∀ ki, used.get ki ≠ some 0) :
    (∀ ki, (images.foldl useKeyimage used).get ki ≠ some 0) ∧
      ∀ ki, ((images.foldl useKeyimage used).get ki).getD 0 =
        (used.get ki).getD 0 + images.count ki := by
  induction images generalizing used with
  | nil => exact ⟨hpositive, fun ki ↦ rfl⟩
  | cons image images ih =>
    have hget : ∀ ki, (useKeyimage used image).get ki =
        if image = ki then some ((used.get image).getD 0 + 1) else used.get ki :=
      fun ki ↦ Store.get_put _ _ _ _
    obtain ⟨hafter, hcount⟩ := @ih (useKeyimage used image) fun ki ↦ by
      rw [hget]
      split
      · simp
      · exact hpositive ki
    refine ⟨hafter, fun ki ↦ ?_⟩
    rw [List.foldl_cons, hcount, hget, List.count_cons]
    by_cases hki : image = ki
    · subst hki
      rw [if_pos rfl, Option.getD_some, beq_self_eq_true, if_pos rfl]
      omega
    · simp [hki]

theorem releaseKeyimage_eq_ok {image : KeyImage} (hpositive : ∀ ki, used.get ki ≠ some 0)
    (h : releaseKeyimage used image = .ok used') : (∀ ki, used'.get ki ≠ some 0) ∧
      ∀ ki, (used.get ki).getD 0 = (used'.get ki).getD 0 + if image = ki then 1 else 0 := by
  unfold releaseKeyimage expect at h
  split at h
  · next count hget =>
    have hone : 1 ≤ count := by
      rcases Nat.eq_zero_or_pos count with rfl | hpos
      · exact absurd hget (hpositive image)
      · exact hpos
    have hcheck : invariant (1 ≤ count) "" = .ok () := invariant_eq_ok_iff.2 hone
    dsimp only [bind, Except.bind] at h
    rw [hcheck] at h
    have hused := (Except.ok.inj h).symm
    subst hused
    constructor
    · intro ki
      split
      · rw [Store.get_remove]
        split
        · exact (Option.some_ne_none 0).symm
        · exact hpositive ki
      · rw [Store.get_put]
        split
        · intro heq
          have := Option.some.inj heq
          omega
        · exact hpositive ki
    · intro ki
      by_cases hki : image = ki
      · subst hki
        rw [if_pos rfl, hget, Option.getD_some]
        split
        · next hlast => rw [Store.get_remove_self, Option.getD_none, hlast]
        · rw [Store.get_put_self, Option.getD_some]
          omega
      · rw [if_neg hki]
        split
        · rw [Store.get_remove_of_ne _ hki, Nat.add_zero]
        · rw [Store.get_put_of_ne _ _ hki, Nat.add_zero]
  · cases h

theorem releaseKeyimages {images : List KeyImage} (hpositive : ∀ ki, used.get ki ≠ some 0)
    (h : images.foldlM releaseKeyimage used = .ok used') : (∀ ki, used'.get ki ≠ some 0) ∧
      ∀ ki, (used.get ki).getD 0 = (used'.get ki).getD 0 + images.count ki := by
  induction images generalizing used with
  | nil =>
    obtain rfl := Except.ok.inj h
    exact ⟨hpositive, fun ki ↦ rfl⟩
  | cons image images ih =>
    rw [List.foldlM_cons] at h
    cases hrelease : releaseKeyimage used image with
    | error f =>
      rw [hrelease] at h
      cases h
    | ok used₁ =>
      rw [hrelease] at h
      obtain ⟨hpositive₁, hcount₁⟩ := releaseKeyimage_eq_ok hpositive hrelease
      obtain ⟨hpositive', hcount⟩ := ih hpositive₁ h
      refine ⟨hpositive', fun ki ↦ ?_⟩
      rw [hcount₁, hcount, List.count_cons]
      simp only [beq_iff_eq]
      omega

end KeyImages

/-! ## One call -/

section Calls

variable {calls : List Call} {d d' : DeltaState} {tid : Hash}

theorem contributed_snoc (calls : List Call) (m : Call) : contributed (calls ++ [m]) =
    match m with
    | .add tid _ _ outputs => (contributed calls).put tid outputs
    | .undo tid => (contributed calls).remove tid := by
  unfold contributed
  rw [List.foldl_append]
  cases m with
  | add tid tx ptx outputs => rfl
  | undo tid => rfl

theorem replay_snoc {m : Call} (h : replay calls = .ok d) : replay (calls ++ [m]) = d.call m := by
  unfold replay at h ⊢
  rw [List.foldlM_append, h]
  change (d.call m >>= fun d ↦ .ok d) = d.call m
  cases d.call m with
  | ok d' => rfl
  | error f => rfl

/-- What comes before some calls has been replayed too. -/
theorem replay_of_append {before after : List Call} (h : replay (before ++ after) = .ok d) :
    ∃ d₀, replay before = .ok d₀ := by
  unfold replay at h ⊢
  rw [List.foldlM_append] at h
  cases hbefore : before.foldlM call {} with
  | ok d₀ => exact ⟨d₀, rfl⟩
  | error f =>
    rw [hbefore] at h
    cases h

theorem remove_of_get_none {V : Type} {s : Store Hash V} (h : s.get tid = none) :
    s.remove tid = s := by
  refine Store.ext fun a ↦ ?_
  rw [Store.get_remove]
  split
  · next ha => rw [← ha, h]
  · rfl

/-- A transaction that is new comes with its outputs. -/
theorem Kept.add {tx : TransactionPrefix} {ptx : Api.Transaction} {outputs : List Api.Output}
    (hkept : Kept calls d) (h : d.call (.add tid tx ptx outputs) = .ok d') :
    Kept (calls ++ [.add tid tx ptx outputs]) d' ∧ d.transactions.get tid = none ∧
      ∀ o, (outputsAt d'.unspents o.publicKey).count o =
        (outputsAt d.unspents o.publicKey).count o + outputs.count o := by
  obtain ⟨unspents, hfold, hkeyed, hcount⟩ := addIncomingOutputs hkept.keyed outputs
  obtain ⟨hpositive, himages⟩ := useKeyimages tx.keyImages hkept.positive
  change (outputs.foldl (fun d output ↦ d.addIncomingOutput output) d).addTransaction tid tx ptx =
    .ok d' at h
  rw [hfold] at h
  unfold addTransaction at h
  dsimp only at h
  by_cases hnone : d.transactions.get tid = none
  · have hcheck : invariant (d.transactions.get tid = none)
        "transaction already exists. Invariant dead" = .ok () := invariant_eq_ok_iff.2 hnone
    rw [hcheck] at h
    obtain rfl := Except.ok.inj h
    refine ⟨⟨fun a ↦ ?_, hkeyed, fun ki ↦ ?_, hpositive⟩, hnone, hcount⟩
    · rw [contributed_snoc]
      dsimp only
      rw [Store.get_put, Store.get_put]
      split
      · exact iff_of_false (Option.some_ne_none _) (Option.some_ne_none _)
      · exact hkept.present a
    · dsimp only
      rw [himages, hkept.usedKeyimages, Store.total_put _ _ _ hnone]
      exact Nat.add_comm _ _
  · rw [invariant, if_neg hnone] at h
    cases h

/-- An undo forgets a transaction; one that is not there changes nothing. -/
theorem Kept.undo (hkept : Kept calls d) (h : d.call (.undo tid) = .ok d') :
    Kept (calls ++ [.undo tid]) d' ∧
      (d.transactions.get tid = none → d' = d) ∧
      ∀ tx ptx, d.transactions.get tid = some (tx, ptx) →
        d'.unspents = tx.outputs.foldl eraseOutput d.unspents := by
  change d.undoTransaction tid = .ok d' at h
  unfold undoTransaction at h
  split at h
  · next hnone =>
    obtain rfl := Except.ok.inj h
    have hsame : contributed (calls ++ [.undo tid]) = contributed calls := by
      rw [contributed_snoc]
      exact remove_of_get_none ((hkept.present tid).2 hnone)
    refine ⟨⟨fun a ↦ ?_, hkept.keyed, hkept.usedKeyimages, hkept.positive⟩, fun _ ↦ rfl,
      fun tx ptx hget ↦ ?_⟩
    · rw [hsame]
      exact hkept.present a
    · rw [hnone] at hget
      cases hget
  · next tx ptx hget =>
    cases hrelease : tx.keyImages.foldlM releaseKeyimage d.usedKeyimages with
    | error f =>
      rw [hrelease] at h
      cases h
    | ok used =>
      rw [hrelease] at h
      obtain rfl := Except.ok.inj h
      obtain ⟨hpositive, himages⟩ := releaseKeyimages hkept.positive hrelease
      refine ⟨⟨fun a ↦ ?_, hkept.keyed.undone tx.outputs, fun ki ↦ ?_, hpositive⟩,
        fun hnone ↦ ?_, fun tx' ptx' hget' ↦ ?_⟩
      · rw [contributed_snoc]
        dsimp only
        rw [Store.get_remove, Store.get_remove]
        split
        · exact iff_of_true rfl rfl
        · exact hkept.present a
      · dsimp only
        have hbefore := hkept.usedKeyimages ki
        rw [himages, Store.total_remove _ _ hget] at hbefore
        dsimp only at hbefore
        omega
      · rw [hget] at hnone
        cases hnone
      · rw [hget] at hget'
        obtain ⟨rfl, rfl⟩ := Prod.mk.inj (Option.some.inj hget')
        rfl

theorem Summed.add {tx : TransactionPrefix} {ptx : Api.Transaction} {outputs : List Api.Output}
    (hsum : Summed calls d) (h : d.call (.add tid tx ptx outputs) = .ok d') :
    Summed (calls ++ [.add tid tx ptx outputs]) d' := by
  obtain ⟨hkept, hnone, hcount⟩ := hsum.toKept.add h
  refine ⟨hkept, fun o ↦ ?_⟩
  rw [hcount, hsum.unspents, contributed_snoc]
  dsimp only
  rw [Store.total_put _ _ _ ((hsum.present tid).2 hnone)]
  exact Nat.add_comm _ _

/-- The sums stay exact over an undo if and only if it finds what the transaction added. -/
theorem Summed.undo_iff (hsum : Summed calls d) (h : d.call (.undo tid) = .ok d') :
    Summed (calls ++ [.undo tid]) d' ↔ FindsOwn calls tid d := by
  obtain ⟨hkept, hnone, hsome⟩ := hsum.toKept.undo h
  cases hget : d.transactions.get tid with
  | none =>
    obtain rfl := hnone hget
    refine iff_of_true ⟨hkept, fun o ↦ ?_⟩ fun tx ptx hget' ↦ ?_
    · rw [contributed_snoc]
      dsimp only
      rw [remove_of_get_none ((hsum.present tid).2 hget)]
      exact hsum.unspents o
    · rw [hget] at hget'
      cases hget'
  | some p =>
    obtain ⟨tx, ptx⟩ := p
    have hadded : (contributed calls).get tid ≠ none := by
      intro hnone
      rw [(hsum.present tid).1 hnone] at hget
      cases hget
    obtain ⟨own, hown⟩ := Option.ne_none_iff_exists'.1 hadded
    have hunspents := hsome tx ptx hget
    have htotal : ∀ o, (contributed calls).total (fun outputs ↦ outputs.count o) =
        own.count o + (contributed (calls ++ [.undo tid])).total fun outputs ↦ outputs.count o := by
      intro o
      rw [contributed_snoc]
      exact Store.total_remove _ _ hown
    have htaken : ∀ o, (outputsAt d'.unspents o.publicKey).count o +
        (((outputsAt d.unspents o.publicKey).filter fun o' ↦ o'.amount = o.amount).take
          (tx.outputs.countP fun output ↦
            output.key = o.publicKey ∧ output.amount = o.amount)).count o =
        (contributed calls).total fun outputs ↦ outputs.count o := by
      intro o
      rw [hunspents, count_undone, hsum.unspents]
    constructor
    · intro hsum' tx' ptx' hget' key amount
      rw [hget] at hget'
      obtain ⟨rfl, rfl⟩ := Prod.mk.inj (Option.some.inj hget')
      rw [hown, Option.getD_some]
      refine List.perm_iff_count.2 fun o ↦ ?_
      by_cases hof : o.publicKey = key ∧ o.amount = amount
      · obtain ⟨rfl, rfl⟩ := hof
        rw [List.count_filter (by simp)]
        have hleft := hsum'.unspents o
        have htaken := htaken o
        have htotal := htotal o
        omega
      · rw [List.count_eq_zero_of_not_mem, List.count_eq_zero_of_not_mem]
        · intro hmem
          exact hof (of_decide_eq_true (List.mem_filter.1 hmem).2)
        · intro hmem
          obtain ⟨hmem, hamount⟩ := List.mem_filter.1 (List.mem_of_mem_take hmem)
          exact hof ⟨mem_outputsAt hsum.keyed hmem, of_decide_eq_true hamount⟩
    · intro hfinds
      refine ⟨hkept, fun o ↦ ?_⟩
      have hperm := (hfinds tx ptx hget o.publicKey o.amount).count_eq o
      rw [hown, Option.getD_some, List.count_filter (by simp)] at hperm
      have htaken := htaken o
      have htotal := htotal o
      omega

theorem summed_nil : Summed [] {} := by
  refine ⟨⟨fun _ ↦ iff_of_true (Store.get_empty _) (Store.get_empty _), fun key outputs hget ↦ ?_,
    fun ki ↦ ?_, fun ki hget ↦ ?_⟩, fun o ↦ ?_⟩
  · cases (Store.get_empty key).symm.trans hget
  · change ((∅ : Store KeyImage ℕ).get ki).getD 0 = (∅ : Store Hash _).total _
    rw [Store.get_empty, Store.total_empty]
    rfl
  · cases (Store.get_empty ki).symm.trans hget
  · change (((∅ : Store PublicKey (List Api.Output)).get o.publicKey).getD []).count o =
      (∅ : Store Hash _).total _
    rw [Store.get_empty, Store.total_empty]
    rfl

/-- Over any adds and undos the sums stay exact if and only if every undo finds what its
transaction added. -/
theorem summed_throughout_iff (h : replay calls = .ok d) :
    (∀ before, before <+: calls → ∀ d, replay before = .ok d → Summed before d) ↔
    ∀ before tid, before ++ [.undo tid] <+: calls → ∀ d, replay before = .ok d →
      FindsOwn before tid d := by
  have hreplayed : ∀ before, before <+: calls → ∃ d, replay before = .ok d := by
    intro before hinitial
    obtain ⟨after, rfl⟩ := hinitial
    exact replay_of_append h
  constructor
  · intro hsummed before tid hinitial d₀ hbefore
    obtain ⟨d₁, hafter⟩ := hreplayed _ hinitial
    have hsum₀ := hsummed before ((List.prefix_append _ _).trans hinitial) d₀ hbefore
    have hsum₁ := hsummed _ hinitial d₁ hafter
    rw [replay_snoc hbefore] at hafter
    exact (hsum₀.undo_iff hafter).1 hsum₁
  · intro hfinds before
    induction before using List.reverseRecOn with
    | nil =>
      intro _ d₀ hreplay
      obtain rfl := Except.ok.inj hreplay
      exact summed_nil
    | append_singleton before m ih =>
      intro hinitial d₁ hafter
      obtain ⟨d₀, hbefore⟩ := replay_of_append hafter
      have hsum₀ := ih ((List.prefix_append _ _).trans hinitial) d₀ hbefore
      rw [replay_snoc hbefore] at hafter
      cases m with
      | add tid tx ptx outputs => exact hsum₀.add hafter
      | undo tid => exact (hsum₀.undo_iff hafter).2 (hfinds before tid hinitial d₀ hbefore)

end Calls

end DeltaState

end WalletState

end Naza
