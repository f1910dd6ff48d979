import Naza.Concrete
import Naza.Wallet.Selector

/-!
# Choosing coins loses none

Every step of the search takes a coin that is there or gives one back, so that the coins filed and
the coins taken are together the coins at the beginning.  The fee grows from round to round and is
bounded by that of all coins, so the search ends.
-/

open Lib

namespace Naza

/-! ## Filed coins -/

namespace HaveCoins

/-- The coins of all stacks. -/
def contents (coins : HaveCoins) : Multiset Api.Output := Store.gather Stacks.contents coins

/-- No stack is empty, and no digit is without stacks. -/
def Filled (coins : HaveCoins) : Prop :=
  ∀ digit piles, Store.get coins digit = some piles → Stacks.Filled piles ∧ piles.toList ≠ []

variable {coins coins' : HaveCoins} {digit am : ℕ} {un : Api.Output} {piles : Stacks ℕ Api.Output}
  {l : List Api.Output}

theorem contents_push : contents (push coins digit am un) = un ::ₘ contents coins := by
  rw [push, contents, contents]
  cases h : Store.get coins digit with
  | none =>
    rw [Store.gather_put _ _ h, Option.getD_none, Stacks.contents_push]
    simp [Stacks.contents]
  | some piles =>
    have hput := Store.gather_put_of_get Stacks.contents (Stacks.push piles am un) h
    rw [Stacks.contents_push, Multiset.add_cons, ← Multiset.cons_add] at hput
    exact (add_right_cancel hput).symm

theorem Filled.push (h : Filled coins) : Filled (push coins digit am un) := by
  intro j piles hget
  rw [HaveCoins.push, Store.get_put] at hget
  split at hget
  · cases hget
    constructor
    · cases hold : Store.get coins digit with
      | none => exact Stacks.filled_empty.push _ _
      | some piles => exact (h digit piles hold).1.push _ _
    · rw [Ne, Store.toList_eq_nil_iff]
      intro hnone
      have := hnone am
      rw [Stacks.push, Store.get_put_self] at this
      cases this
  · exact h j piles hget

/-- What a pop does to the stacks of its digit. -/
theorem pop_eq_some_iff : pop coins digit am = some (un, coins') ↔
    ∃ piles piles', Store.get coins digit = some piles ∧ Stacks.pop piles am = some (un, piles') ∧
      coins' = if piles'.toList.isEmpty then Store.remove coins digit
        else Store.put coins digit piles' := by
  constructor
  · intro h
    rw [pop] at h
    split at h
    · cases h
    · next piles hget =>
      split at h
      · cases h
      · next popped piles' hpop =>
        cases h
        exact ⟨piles, piles', hget, hpop, rfl⟩
  · rintro ⟨piles, piles', hget, hpop, rfl⟩
    rw [pop, hget]
    simp only [hpop]

theorem contents_pop (h : pop coins digit am = some (un, coins')) :
    contents coins = un ::ₘ contents coins' := by
  obtain ⟨piles, piles', hget, hpop, rfl⟩ := pop_eq_some_iff.1 h
  have hpiles := Stacks.contents_pop hpop
  split
  · next hnil =>
    rw [List.isEmpty_iff] at hnil
    rw [contents, Store.gather_remove _ hget, hpiles, Stacks.contents,
      Store.gather_of_toList_eq_nil _ hnil, Multiset.cons_add, zero_add]
    rfl
  · have hput := Store.gather_put_of_get Stacks.contents piles' hget
    rw [hpiles, Multiset.add_cons, ← Multiset.cons_add] at hput
    exact add_right_cancel hput

theorem Filled.pop (h : Filled coins) (hpop : pop coins digit am = some (un, coins')) :
    Filled coins' := by
  obtain ⟨piles, piles', hget, hpile, rfl⟩ := pop_eq_some_iff.1 hpop
  intro j qs hj
  split at hj
  · rw [Store.get_remove] at hj
    split at hj
    · cases hj
    · exact h j qs hj
  · next hnil =>
    rw [Store.get_put] at hj
    split at hj
    · cases hj
      exact ⟨(h digit piles hget).1.pop hpile, by rwa [List.isEmpty_iff] at hnil⟩
    · exact h j qs hj

/-- A stack that is there has a last coin. -/
theorem Filled.exists_pop (h : Filled coins) (hget : Store.get coins digit = some piles)
    (hpile : Store.get piles am = some l) :
    ∃ un coins', HaveCoins.pop coins digit am = some (un, coins') := by
  obtain ⟨un, piles', hpop⟩ := (h digit piles hget).1.exists_pop hpile
  exact ⟨un, _, pop_eq_some_iff.2 ⟨piles, piles', hget, hpop, rfl⟩⟩

/-- The stacks that a pop leaves with coins. -/
theorem get_pop (hpop : pop coins digit am = some (un, coins'))
    (hget : Store.get coins digit = some piles) {bm : ℕ} {m : List Api.Output}
    (hrest : ∀ piles', Stacks.pop piles am = some (un, piles') → Store.get piles' bm = some m) :
    ∃ piles', Store.get coins' digit = some piles' ∧ Store.get piles' bm = some m := by
  obtain ⟨qs, qs', hqs, hq, rfl⟩ := pop_eq_some_iff.1 hpop
  rw [hget] at hqs
  cases hqs
  have hm := hrest qs' hq
  refine ⟨qs', ?_, hm⟩
  rw [if_neg, Store.get_put_self]
  rw [List.isEmpty_iff, Store.toList_eq_nil_iff]
  intro hnone
  rw [hnone bm] at hm
  cases hm

theorem mem_contents {coins : HaveCoins} {digit am : ℕ} {piles : Stacks ℕ Api.Output}
    {l : List Api.Output} (hget : Store.get coins digit = some piles)
    (hpile : Store.get piles am = some l) {un : Api.Output} (hun : un ∈ l) :
    un ∈ contents coins :=
  Store.mem_gather.2 ⟨digit, piles, hget, Store.mem_gather.2 ⟨am, l, hpile, hun⟩⟩

end HaveCoins

namespace Picking

/-! ## What every step keeps -/

/-- The coins that are not taken. -/
def held (s : Picking) : Multiset Api.Output :=
  HaveCoins.contents s.haveCoins + Stacks.contents s.dustCoins

/-- Coins are filed by their flags, and no stack is empty. -/
structure Filed (s : Picking) : Prop where
  filled : HaveCoins.Filled s.haveCoins
  dustFilled : Stacks.Filled s.dustCoins
  coins : ∀ un ∈ HaveCoins.contents s.haveCoins, un.dust = false
  dust : ∀ un ∈ Stacks.contents s.dustCoins, un.dust = true

/-- The coins taken and those held are the candidates, and the sums count the coins taken. -/
structure Holds (anonymity : ℕ) (candidates : Multiset Api.Output) (s : Picking) : Prop where
  filed : s.Filed
  conserved : s.held + (s.optimizationUnspents : Multiset Api.Output) = candidates
  total : s.usedTotal = (s.optimizationUnspents.map fun un ↦ un.amount.toNat).sum
  count : s.inputsCount = s.optimizationUnspents.length
  anonymous : anonymity ≠ 0 → ∀ un ∈ s.optimizationUnspents, un.dust = false

variable {anonymity : ℕ} {candidates : Multiset Api.Output} {s t : Picking}

theorem Holds.inputsCount_le (h : s.Holds anonymity candidates) :
    s.inputsCount ≤ candidates.card := by
  rw [← h.conserved, h.count, Multiset.card_add, Multiset.coe_card]
  exact Nat.le_add_left _ _

/-- A step that has a result, keeps the coins and takes at least one more. -/
def Takes (anonymity : ℕ) (candidates : Multiset Api.Output) (s : Picking) (x : Option Picking) :
    Prop :=
  ∃ t, x = some t ∧ t.Holds anonymity candidates ∧ s.usedTotal ≤ t.usedTotal ∧
    t.inputsCount = s.inputsCount + 1

/-- A step that has a result and keeps the coins. -/
def Keeps (anonymity : ℕ) (candidates : Multiset Api.Output) (s : Picking) (x : Option Picking) :
    Prop :=
  ∃ t, x = some t ∧ t.Holds anonymity candidates ∧ s.usedTotal ≤ t.usedTotal

theorem Takes.keeps {x : Option Picking} (h : Takes anonymity candidates s x) :
    Keeps anonymity candidates s x := by
  obtain ⟨t, heq, ht, hle, -⟩ := h
  exact ⟨t, heq, ht, hle⟩

theorem Holds.keeps (h : s.Holds anonymity candidates) : Keeps anonymity candidates s (some s) :=
  ⟨s, rfl, h, le_refl _⟩

theorem Keeps.bind {x : Option Picking} {f : Picking → Option Picking}
    (h : Keeps anonymity candidates s x)
    (hf : ∀ t, t.Holds anonymity candidates → x = some t → Keeps anonymity candidates t (f t)) :
    Keeps anonymity candidates s (x.bind f) := by
  obtain ⟨t, rfl, ht, hle⟩ := h
  obtain ⟨u, heq, hu, hle'⟩ := hf t ht rfl
  exact ⟨u, heq, hu, hle.trans hle'⟩

/-- A coin that is held becomes one that is taken. -/
theorem Holds.use (h : s.Holds anonymity candidates) {un : Api.Output} {t : Picking}
    (hfiled : t.Filed) (hheld : s.held = un ::ₘ t.held)
    (heq : t.optimizationUnspents = s.optimizationUnspents ∧ t.usedTotal = s.usedTotal ∧
      t.inputsCount = s.inputsCount) (hdust : anonymity ≠ 0 → un.dust = false) :
    Takes anonymity candidates s (some (t.use un)) := by
  obtain ⟨hopt, htotal, hcount⟩ := heq
  refine ⟨_, rfl, ⟨⟨hfiled.filled, hfiled.dustFilled, hfiled.coins, hfiled.dust⟩, ?_, ?_, ?_, ?_⟩,
    ?_, ?_⟩
  · rw [← h.conserved, hheld]
    show t.held + ((t.optimizationUnspents ++ [un] : List Api.Output) : Multiset Api.Output) = _
    rw [hopt, ← Multiset.coe_add, Multiset.coe_singleton, ← Multiset.singleton_add]
    abel
  · show t.usedTotal + un.amount.toNat = ((t.optimizationUnspents ++ [un]).map _).sum
    rw [htotal, hopt, h.total, List.map_append, List.sum_append, List.map_singleton,
      List.sum_singleton]
  · show t.inputsCount + 1 = (t.optimizationUnspents ++ [un]).length
    rw [hcount, hopt, h.count, List.length_append, List.length_singleton]
  · intro hne x hx
    rw [show (t.use un).optimizationUnspents = s.optimizationUnspents ++ [un] by
      rw [Picking.use, hopt], List.mem_append, List.mem_singleton] at hx
    rcases hx with hx | rfl
    · exact h.anonymous hne x hx
    · exact hdust hne
  · show s.usedTotal ≤ t.usedTotal + un.amount.toNat
    omega
  · show t.inputsCount + 1 = s.inputsCount + 1
    rw [hcount]

/-- A stack that is there gives a coin. -/
theorem takeCoin_takes (h : s.Holds anonymity candidates) {digit am : ℕ}
    {piles : Stacks ℕ Api.Output} {l : List Api.Output}
    (hget : Store.get s.haveCoins digit = some piles) (hpile : Store.get piles am = some l) :
    Takes anonymity candidates s (s.takeCoin digit am) := by
  obtain ⟨un, coins, hpop⟩ := h.filed.filled.exists_pop hget hpile
  have hcontents := HaveCoins.contents_pop hpop
  rw [takeCoin, hpop]
  refine h.use (t := { s with haveCoins := coins }) ⟨h.filed.filled.pop hpop, h.filed.dustFilled,
    fun x hx ↦ h.filed.coins x ?_, h.filed.dust⟩ ?_ ⟨rfl, rfl, rfl⟩ fun _ ↦ h.filed.coins un ?_
  · rw [hcontents]
    exact Multiset.mem_cons_of_mem hx
  · rw [held, hcontents, Multiset.cons_add]
    rfl
  · rw [hcontents]
    exact Multiset.mem_cons_self _ _

/-- Dust that is there gives a coin. -/
theorem takeDust_takes (h : s.Holds anonymity candidates) (hanon : anonymity = 0) {amount : Amount}
    {l : List Api.Output} (hget : Store.get s.dustCoins amount = some l) :
    Takes anonymity candidates s (s.takeDust amount) := by
  obtain ⟨un, coins, hpop⟩ := h.filed.dustFilled.exists_pop hget
  have hcontents := Stacks.contents_pop hpop
  rw [takeDust, hpop]
  refine h.use (t := { s with dustCoins := coins }) ⟨h.filed.filled, h.filed.dustFilled.pop hpop,
    h.filed.coins, fun x hx ↦ h.filed.dust x ?_⟩ ?_ ⟨rfl, rfl, rfl⟩ fun hne ↦ absurd hanon hne
  · rw [hcontents]
    exact Multiset.mem_cons_of_mem hx
  · rw [held, hcontents, Multiset.add_cons]
    rfl

/-! ## Filing coins -/

/-- A coin filed by its flag. -/
theorem fileCoin_filed (h : s.Filed) (un : Api.Output) (hun : un.dust = false) :
    (s.fileCoin un).Filed ∧ (s.fileCoin un).held = un ::ₘ s.held := by
  have hcontents : HaveCoins.contents (s.fileCoin un).haveCoins =
      un ::ₘ HaveCoins.contents s.haveCoins := HaveCoins.contents_push
  refine ⟨⟨h.filled.push, h.dustFilled, fun x hx ↦ ?_, h.dust⟩, ?_⟩
  · rw [hcontents, Multiset.mem_cons] at hx
    rcases hx with rfl | hx
    · exact hun
    · exact h.coins x hx
  · rw [held, hcontents, Multiset.cons_add]
    rfl

theorem fileDust_filed (h : s.Filed) (un : Api.Output) (hun : un.dust = true) :
    (s.fileDust un).Filed ∧ (s.fileDust un).held = un ::ₘ s.held := by
  have hcontents : Stacks.contents (s.fileDust un).dustCoins =
      un ::ₘ Stacks.contents s.dustCoins := Stacks.contents_push
  refine ⟨⟨h.filled, h.dustFilled.push _ _, h.coins, fun x hx ↦ ?_⟩, ?_⟩
  · rw [hcontents, Multiset.mem_cons] at hx
    rcases hx with rfl | hx
    · exact hun
    · exact h.dust x hx
  · rw [held, hcontents, Multiset.add_cons]
    rfl

theorem filed_of_empty : ({} : Picking).Filed ∧ ({} : Picking).held = 0 := by
  have hcoins : HaveCoins.contents ({} : Picking).haveCoins = 0 := Store.gather_empty _
  have hdust : Stacks.contents ({} : Picking).dustCoins = 0 := Store.gather_empty _
  refine ⟨⟨fun digit piles hget ↦ ?_, Stacks.filled_empty, ?_, ?_⟩, ?_⟩
  · rw [Store.get_empty] at hget
    cases hget
  · rw [hcoins]
    exact fun un hun ↦ absurd hun (Multiset.notMem_zero un)
  · rw [hdust]
    exact fun un hun ↦ absurd hun (Multiset.notMem_zero un)
  · rw [held, hcoins, hdust, add_zero]

/-- Coins given back one after the other. -/
theorem foldl_giveBack {l : List Api.Output} : ∀ {s : Picking}, s.Filed →
    (l.foldl giveBack s).Filed ∧ (l.foldl giveBack s).held = s.held + (l : Multiset Api.Output) ∧
      (l.foldl giveBack s).usedTotal =
        s.usedTotal - (l.map fun un ↦ un.amount.toNat).sum ∧
      (l.foldl giveBack s).inputsCount = s.inputsCount - l.length := by
  induction l with
  | nil => exact fun h ↦ ⟨h, by simp, rfl, rfl⟩
  | cons un l ih =>
    intro s h
    have hstep : (s.giveBack un).Filed ∧ (s.giveBack un).held = un ::ₘ s.held ∧
        (s.giveBack un).usedTotal = s.usedTotal - un.amount.toNat ∧
        (s.giveBack un).inputsCount = s.inputsCount - 1 := by
      have hs : ({ s with
          usedTotal := s.usedTotal - un.amount.toNat
          inputsCount := s.inputsCount - 1 } : Picking).Filed :=
        ⟨h.filled, h.dustFilled, h.coins, h.dust⟩
      rw [giveBack]
      split
      · next hun =>
        obtain ⟨hfiled, hheld⟩ := fileCoin_filed hs _ hun
        exact ⟨hfiled, hheld, rfl, rfl⟩
      · next hun =>
        obtain ⟨hfiled, hheld⟩ := fileDust_filed hs _ (Bool.not_eq_false _ ▸ hun)
        exact ⟨hfiled, hheld, rfl, rfl⟩
    obtain ⟨hfiled, hheld, htotal, hcount⟩ := hstep
    obtain ⟨hfiled', hheld', htotal', hcount'⟩ := ih hfiled
    rw [List.foldl_cons]
    refine ⟨hfiled', ?_, ?_, ?_⟩
    · rw [hheld', hheld, ← Multiset.cons_coe, Multiset.add_cons, Multiset.cons_add]
    · rw [htotal', htotal, List.map_cons, List.sum_cons]
      omega
    · rw [hcount', hcount, List.length_cons]
      omega

/-- All coins given back: none is taken. -/
theorem unoptimizeAmounts_holds (h : s.Holds anonymity candidates) :
    s.unoptimizeAmounts.Holds anonymity candidates ∧ s.unoptimizeAmounts.usedTotal = 0 ∧
      s.unoptimizeAmounts.inputsCount = 0 := by
  obtain ⟨hfiled, hheld, htotal, hcount⟩ := foldl_giveBack (l := s.optimizationUnspents) h.filed
  rw [← h.total, Nat.sub_self] at htotal
  rw [← h.count, Nat.sub_self] at hcount
  refine ⟨⟨⟨hfiled.filled, hfiled.dustFilled, hfiled.coins, hfiled.dust⟩, ?_, htotal, hcount,
    fun _ un hun ↦ absurd hun (by simp [unoptimizeAmounts])⟩, htotal, hcount⟩
  show (s.optimizationUnspents.foldl giveBack s).held + _ = _
  rw [hheld, h.conserved]
  exact add_zero _

end Picking

section createHaveCoins

variable (c : Currency) (blockHeight : Height) (blockTime : Timestamp) (confirmedHeight : Height)

/-- The coins that `create_have_coins` keeps. -/
def keptCoins (unspents : List Api.Output) : List Api.Output :=
  unspents.filter fun un ↦ decide (un.height < confirmedHeight) &&
    c.isTransactionSpendTimeUnlocked un.unlockTime blockHeight blockTime

theorem keptCoins_cons (un : Api.Output) (l : List Api.Output) :
    (keptCoins c blockHeight blockTime confirmedHeight (un :: l) : Multiset Api.Output) =
      keptCoins c blockHeight blockTime confirmedHeight [un] +
        keptCoins c blockHeight blockTime confirmedHeight l := by
  rw [Multiset.coe_add, keptCoins, keptCoins, keptCoins, ← List.filter_append]
  rfl

/-- A coin that is filed is one that is kept. -/
theorem fileUnspent_filed {coins : ℕ × Picking} (hs : coins.2.Filed) {un : Api.Output}
    (hun : un.dust = isDust un.amount) :
    (fileUnspent c blockHeight blockTime confirmedHeight coins un).2.Filed ∧
      (fileUnspent c blockHeight blockTime confirmedHeight coins un).2.held =
        coins.2.held + keptCoins c blockHeight blockTime confirmedHeight [un] ∧
      (fileUnspent c blockHeight blockTime confirmedHeight coins un).2.optimizationUnspents =
        coins.2.optimizationUnspents ∧
      (fileUnspent c blockHeight blockTime confirmedHeight coins un).2.usedTotal =
        coins.2.usedTotal ∧
      (fileUnspent c blockHeight blockTime confirmedHeight coins un).2.inputsCount =
        coins.2.inputsCount := by
  rw [fileUnspent]
  by_cases hheight : confirmedHeight ≤ un.height
  · have hkept : keptCoins c blockHeight blockTime confirmedHeight [un] = [] :=
      List.filter_cons_of_neg (by simp [UInt32.not_lt.2 hheight])
    rw [if_pos hheight, hkept]
    exact ⟨hs, (add_zero _).symm, rfl, rfl, rfl⟩
  by_cases hlocked : c.isTransactionSpendTimeUnlocked un.unlockTime blockHeight blockTime = false
  · have hkept : keptCoins c blockHeight blockTime confirmedHeight [un] = [] :=
      List.filter_cons_of_neg (by simp [hlocked])
    rw [if_neg hheight, if_pos hlocked, hkept]
    exact ⟨hs, (add_zero _).symm, rfl, rfl, rfl⟩
  have hkept : keptCoins c blockHeight blockTime confirmedHeight [un] = [un] := by
    rw [Bool.not_eq_false] at hlocked
    exact List.filter_cons_of_pos (by simp [hlocked, UInt32.not_le.1 hheight])
  rw [if_neg hheight, if_neg hlocked, hkept, Multiset.coe_singleton, add_comm,
    Multiset.singleton_add]
  by_cases hd : isDust un.amount = true
  · obtain ⟨hfiled, hheld⟩ := Picking.fileDust_filed hs un (by rw [hun, hd])
    rw [if_pos hd]
    exact ⟨hfiled, hheld, rfl, rfl, rfl⟩
  · rw [Bool.not_eq_true] at hd
    obtain ⟨hfiled, hheld⟩ := Picking.fileCoin_filed hs un (by rw [hun, hd])
    rw [if_neg (by rw [hd]; decide)]
    exact ⟨hfiled, hheld, rfl, rfl, rfl⟩

theorem foldl_fileUnspent : ∀ {l : List Api.Output}, (∀ un ∈ l, un.dust = isDust un.amount) →
    ∀ {coins : ℕ × Picking}, coins.2.Filed →
      ∃ s, (l.foldl (fileUnspent c blockHeight blockTime confirmedHeight) coins).2 = s ∧ s.Filed ∧
        s.held = coins.2.held + keptCoins c blockHeight blockTime confirmedHeight l ∧
        s.optimizationUnspents = coins.2.optimizationUnspents ∧ s.usedTotal = coins.2.usedTotal ∧
        s.inputsCount = coins.2.inputsCount := by
  intro l
  induction l with
  | nil => exact fun _ coins hs ↦ ⟨coins.2, rfl, hs, (add_zero _).symm, rfl, rfl, rfl⟩
  | cons un l ih =>
    intro hl coins hs
    obtain ⟨hfiled, hheld, hopt, htotal, hcount⟩ :=
      fileUnspent_filed c blockHeight blockTime confirmedHeight hs (hl un List.mem_cons_self)
    obtain ⟨s, heq, hs', hheld', hopt', htotal', hcount'⟩ :=
      ih (fun x hx ↦ hl x (List.mem_cons_of_mem _ hx)) hfiled
    refine ⟨s, heq, hs', ?_, hopt'.trans hopt, htotal'.trans htotal, hcount'.trans hcount⟩
    rw [hheld', hheld, keptCoins_cons c blockHeight blockTime confirmedHeight un l, add_assoc]

theorem createHaveCoins_holds {unspents : List Api.Output}
    (hdust : ∀ un ∈ unspents, un.dust = isDust un.amount) (anonymity : ℕ) :
    (createHaveCoins c blockHeight blockTime confirmedHeight unspents).2.Holds anonymity
      (keptCoins c blockHeight blockTime confirmedHeight unspents) := by
  obtain ⟨s, heq, hfiled, hheld, hopt, htotal, hcount⟩ :=
    foldl_fileUnspent c blockHeight blockTime confirmedHeight (l := unspents.reverse)
      (fun un hun ↦ hdust un (List.mem_reverse.1 hun))
      (show (((0, {}) : ℕ × Picking)).2.Filed from Picking.filed_of_empty.1)
  rw [show ((0, {}) : ℕ × Picking).2.held = 0 from Picking.filed_of_empty.2, zero_add] at hheld
  rw [show (createHaveCoins c blockHeight blockTime confirmedHeight unspents).2 = s from heq]
  refine ⟨hfiled, ?_, by rw [htotal, hopt]; rfl, by rw [hcount, hopt]; rfl,
    fun _ un hun ↦ absurd hun (by rw [hopt]; exact List.not_mem_nil)⟩
  rw [hheld, hopt, keptCoins, List.filter_reverse]
  exact (add_zero _).trans (Multiset.coe_eq_coe.2 (List.reverse_perm _))

end createHaveCoins

namespace Picking

variable {anonymity : ℕ} {candidates : Multiset Api.Output} {s t : Picking}

/-! ## Optimizing -/

/-- A fold that keeps the best element keeps what holds of every element. -/
theorem foldl_best {β γ : Type} {P : γ → Prop} {f : β → ℕ × Option γ → ℕ × Option γ}
    {l : List β} (hf : ∀ b ∈ l, ∀ best, (∀ g, best.2 = some g → P g) →
      ∀ g, (f b best).2 = some g → P g) :
    ∀ best : ℕ × Option γ, (∀ g, best.2 = some g → P g) →
      ∀ g, (l.foldl (fun best b ↦ f b best) best).2 = some g → P g := by
  induction l with
  | nil => exact fun _ h ↦ h
  | cons b l ih =>
    intro best h
    rw [List.foldl_cons]
    exact ih (fun c hc ↦ hf c (List.mem_cons_of_mem _ hc)) _ (hf b List.mem_cons_self best h)

/-- The best pair has stacks, one of them high. -/
theorem bestPair_spec {am : ℕ} {piles : Stacks ℕ Api.Output} {a b : ℕ}
    (h : bestPair am piles.toList = some (a, b)) :
    ∃ l m, Store.get piles a = some l ∧ Store.get piles b = some m ∧
      (twoThreshold ≤ l.length ∨ twoThreshold ≤ m.length) := by
  refine foldl_best (P := fun g : ℕ × ℕ ↦ ∃ l m, Store.get piles g.1 = some l ∧
    Store.get piles g.2 = some m ∧ (twoThreshold ≤ l.length ∨ twoThreshold ≤ m.length))
    (f := fun (ab : (ℕ × List Api.Output) × (ℕ × List Api.Output)) best ↦
      if (ab.1.1 + ab.2.1 + am) % 10 = 0 ∧
          (twoThreshold ≤ ab.1.2.length ∨ twoThreshold ≤ ab.2.2.length) ∧
          best.1 < ab.1.2.length + ab.2.2.length then
        (ab.1.2.length + ab.2.2.length, some (ab.1.1, ab.2.1))
      else best) ?_ (0, none) (fun g hg ↦ by cases hg) (a, b) h
  rintro ⟨⟨a, l⟩, ⟨b, m⟩⟩ hmem best hbest g hg
  simp only [List.mem_flatMap, List.mem_map, Prod.mk.injEq, Prod.exists] at hmem
  obtain ⟨a', l', hal, b', m', hbm, ⟨rfl, rfl⟩, rfl, rfl⟩ := hmem
  dsimp only at hg
  split at hg
  · next hcond =>
    cases hg
    exact ⟨l', m', Store.mem_toList_iff.1 hal, Store.mem_toList_iff.1 hbm, hcond.2.1⟩
  · exact hbest g hg

/-- The best single digit is one of the stacks. -/
theorem bestSingle_spec (am : ℕ) : ∀ (piles : List (ℕ × List Api.Output)) (best weight : ℕ),
    bestSingle am piles best weight = best ∨
      ∃ l, (bestSingle am piles best weight, l) ∈ piles
  | [], best, weight => Or.inl rfl
  | (a, uns) :: piles, best, weight => by
    rw [bestSingle]
    split
    · exact Or.inr ⟨uns, List.mem_cons_self⟩
    · split
      · rcases bestSingle_spec am piles a uns.length with heq | ⟨l, hl⟩
        · rw [heq]
          exact Or.inr ⟨uns, List.mem_cons_self⟩
        · exact Or.inr ⟨l, List.mem_cons_of_mem _ hl⟩
      · rcases bestSingle_spec am piles best weight with heq | ⟨l, hl⟩
        · exact Or.inl heq
        · exact Or.inr ⟨l, List.mem_cons_of_mem _ hl⟩

/-- The stacks of a digit after one coin of it was taken. -/
theorem get_takeCoin {digit am bm : ℕ} {piles : Stacks ℕ Api.Output} {m : List Api.Output}
    (hget : Store.get s.haveCoins digit = some piles) (ht : s.takeCoin digit am = some t)
    (hrest : ∀ un piles', Stacks.pop piles am = some (un, piles') → Store.get piles' bm = some m) :
    ∃ piles', Store.get t.haveCoins digit = some piles' ∧ Store.get piles' bm = some m := by
  rw [takeCoin] at ht
  cases hpop : HaveCoins.pop s.haveCoins digit am with
  | none => rw [hpop] at ht; cases ht
  | some popped =>
    obtain ⟨un, coins⟩ := popped
    rw [hpop] at ht
    cases ht
    exact HaveCoins.get_pop hpop hget fun piles' hp ↦ hrest un piles' hp

/-- One digit keeps the coins. -/
theorem optimizeDigit_keeps (h : s.Holds anonymity candidates) (totalAmount digit : ℕ) :
    Keeps anonymity candidates s (s.optimizeDigit totalAmount digit) := by
  rw [optimizeDigit]
  cases hget : Store.get s.haveCoins digit with
  | none => exact h.keeps
  | some piles =>
    dsimp only
    cases hpair : bestPair (s.missingDigit totalAmount digit) piles.toList with
    | some ab =>
      obtain ⟨a, b⟩ := ab
      obtain ⟨l, m, ha, hb, hhigh⟩ := bestPair_spec hpair
      refine (takeCoin_takes h hget ha).keeps.bind fun t ht heq ↦ ?_
      -- the second stack is still there, being another one or high
      obtain ⟨m', hm'⟩ : ∃ m', ∀ un piles', Stacks.pop piles a = some (un, piles') →
          Store.get piles' b = some m' := by
        by_cases hab : a = b
        · subst hab
          rw [ha] at hb
          cases hb
          have hlen : 2 ≤ l.length := by
            rw [twoThreshold, or_self] at hhigh
            omega
          exact ⟨l.tail, fun un piles' hpop ↦ Stacks.get_pop_self ha hlen hpop⟩
        · exact ⟨m, fun un piles' hpop ↦ (Stacks.get_pop_of_ne hpop hab).trans hb⟩
      obtain ⟨piles', hget', hb'⟩ := get_takeCoin hget heq hm'
      exact (takeCoin_takes ht hget' hb').keeps
    | none =>
      dsimp only
      split
      · exact h.keeps
      · split
        · exact h.keeps
        · next hne =>
          rcases bestSingle_spec (s.missingDigit totalAmount digit) piles.toList 0 0 with
            heq | ⟨l, hl⟩
          · exact absurd heq hne
          · exact (takeCoin_takes h hget (Store.mem_toList_iff.1 hl)).keeps

theorem optimizeDigits_keeps (totalAmount : ℕ) : ∀ {digits : List ℕ} {s : Picking},
    s.Holds anonymity candidates →
      Keeps anonymity candidates s (optimizeDigits totalAmount digits s)
  | [], _, h => h.keeps
  | digit :: digits, s, h => by
    rw [optimizeDigits]
    split
    · exact h.keeps
    · exact (optimizeDigit_keeps h totalAmount digit).bind fun t ht _ ↦
        optimizeDigits_keeps totalAmount ht

theorem optimizeAmounts_keeps (h : s.Holds anonymity candidates) (maxDigit totalAmount : ℕ) :
    Keeps anonymity candidates s (s.optimizeAmounts maxDigit totalAmount) :=
  optimizeDigits_keeps totalAmount h

/-! ## Taking dust and stacks -/

theorem takeLargeDust_keeps (h : s.Holds anonymity candidates) (hanon : anonymity = 0)
    (totalAmount : ℕ) : Keeps anonymity candidates s (s.takeLargeDust totalAmount) := by
  rw [takeLargeDust]
  split
  · split
    · next amount l hfind =>
      exact (takeDust_takes h hanon
        (Store.mem_toList_iff.1 (List.mem_of_find?_eq_some hfind))).keeps
    · exact h.keeps
  · exact h.keeps

/-- The largest dust has a stack. -/
theorem largestDust_spec {amount : Amount} (h : s.largestDust = some amount) :
    ∃ l, Store.get s.dustCoins amount = some l := by
  rw [largestDust, Option.map_eq_some_iff] at h
  obtain ⟨⟨k, l⟩, hlast, rfl⟩ := h
  exact ⟨l, Store.mem_toList_iff.1 (List.mem_of_getLast? hlast)⟩

theorem takeLargestDust_keeps (hanon : anonymity = 0) (totalAmount : ℕ) :
    ∀ {n : ℕ} {s : Picking}, s.Holds anonymity candidates →
      ∃ m t, takeLargestDust totalAmount n s = some (m, t) ∧ t.Holds anonymity candidates ∧
        s.usedTotal ≤ t.usedTotal
  | 0, s, h => ⟨0, s, rfl, h, le_refl _⟩
  | n + 1, s, h => by
    rw [takeLargestDust]
    split
    · next hcond =>
      obtain ⟨amount, hamount⟩ := Option.isSome_iff_exists.1 hcond.2
      obtain ⟨l, hl⟩ := largestDust_spec hamount
      rw [hamount, Option.getD_some]
      obtain ⟨t, heq, ht, hle, -⟩ := takeDust_takes h hanon hl
      obtain ⟨m, u, heq', hu, hle'⟩ := takeLargestDust_keeps hanon totalAmount (n := n) ht
      rw [heq, Option.bind_some]
      exact ⟨m, u, heq', hu, hle.trans hle'⟩
    · exact ⟨n + 1, s, rfl, h, le_refl _⟩

/-- The dust that comes first. -/
theorem takeDustFirst_keeps (h : s.Holds anonymity candidates) (totalAmount count : ℕ) :
    ∃ m t, s.takeDustFirst totalAmount anonymity count = some (m, t) ∧
      t.Holds anonymity candidates ∧ s.usedTotal ≤ t.usedTotal := by
  rw [takeDustFirst]
  split
  · next hanon =>
    obtain ⟨t, heq, ht, hle⟩ := takeLargeDust_keeps h hanon totalAmount
    obtain ⟨m, u, heq', hu, hle'⟩ := takeLargestDust_keeps hanon totalAmount (n := count) ht
    rw [heq, Option.bind_some]
    exact ⟨m, u, heq', hu, hle.trans hle'⟩
  · exact ⟨count, s, rfl, h, le_refl _⟩

/-- The best stack is there, with more coins than the threshold. -/
theorem bestStack_spec {digit am : ℕ} (h : s.bestStack = some (digit, am)) :
    ∃ piles l, Store.get s.haveCoins digit = some piles ∧ Store.get piles am = some l ∧
      stackOptimizationThreshold < l.length := by
  have hfold : ∀ l : List (ℕ × ℕ × List Api.Output),
      (∀ e ∈ l, ∃ piles, Store.get s.haveCoins e.1 = some piles ∧
        Store.get piles e.2.1 = some e.2.2) →
      ∀ best : ℕ × Option (ℕ × ℕ), stackOptimizationThreshold ≤ best.1 →
        (∀ g, best.2 = some g → ∃ piles l, Store.get s.haveCoins g.1 = some piles ∧
          Store.get piles g.2 = some l ∧ stackOptimizationThreshold < l.length) →
        ∀ g, (l.foldl (fun best e ↦
          if best.1 < e.2.2.length then (e.2.2.length, some (e.1, e.2.1)) else best) best).2 =
            some g → ∃ piles l, Store.get s.haveCoins g.1 = some piles ∧
          Store.get piles g.2 = some l ∧ stackOptimizationThreshold < l.length := by
    intro l
    induction l with
    | nil => exact fun _ _ _ h ↦ h
    | cons e l ih =>
      intro hl best hle hbest
      have hl' := fun f hf ↦ hl f (List.mem_cons_of_mem _ hf)
      rw [List.foldl_cons]
      split
      · next hlt =>
        obtain ⟨piles, hget, hpile⟩ := hl e List.mem_cons_self
        refine ih hl' _ (hle.trans hlt.le) ?_
        rintro g ⟨⟩
        exact ⟨piles, e.2.2, hget, hpile, lt_of_le_of_lt hle hlt⟩
      · exact ih hl' best hle hbest
  refine hfold _ ?_ (stackOptimizationThreshold, none) (le_refl _) (fun g hg ↦ by cases hg)
    (digit, am) h
  intro e he
  simp only [HaveCoins.allStacks, List.mem_flatMap, List.mem_map] at he
  obtain ⟨⟨d, piles⟩, hd, ⟨a, l⟩, ha, rfl⟩ := he
  exact ⟨piles, Store.mem_toList_iff.1 hd, Store.mem_toList_iff.1 ha⟩

/-- Coins of a stack that is high enough. -/
theorem takeCoins_keeps {digit am : ℕ} : ∀ {n : ℕ} {s : Picking} {piles : Stacks ℕ Api.Output}
    {l : List Api.Output}, s.Holds anonymity candidates →
      Store.get s.haveCoins digit = some piles → Store.get piles am = some l → n ≤ l.length →
        Keeps anonymity candidates s (takeCoins digit am n s)
  | 0, s, piles, l, h, _, _, _ => h.keeps
  | n + 1, s, piles, l, h, hget, hpile, hlen => by
    rw [takeCoins]
    refine (takeCoin_takes h hget hpile).keeps.bind fun t ht heq ↦ ?_
    cases n with
    | zero => exact ht.keeps
    | succ n =>
      obtain ⟨piles', hget', hpile'⟩ := get_takeCoin (m := l.tail) hget heq
        fun un piles' hpop ↦ Stacks.get_pop_self hpile (by omega) hpop
      refine takeCoins_keeps ht hget' hpile' ?_
      rw [List.length_tail]
      omega

theorem takeStack_keeps (h : s.Holds anonymity candidates) :
    Keeps anonymity candidates s s.takeStack := by
  rw [takeStack]
  cases hbest : s.bestStack with
  | none => exact h.keeps
  | some best =>
    obtain ⟨piles, l, hget, hpile, hlen⟩ := bestStack_spec hbest
    rw [stackOptimizationThreshold] at hlen
    exact takeCoins_keeps h hget hpile (by omega)

theorem takeStacks_keeps : ∀ (rounds : ℕ) {s : Picking}, s.Holds anonymity candidates →
    Keeps anonymity candidates s (takeStacks rounds s)
  | 0, _, h => h.keeps
  | rounds + 1, s, h => by
    rw [takeStacks]
    split
    · exact h.keeps
    · exact (takeStack_keeps h).bind fun t ht _ ↦ takeStacks_keeps _ ht

/-- A single large coin is there. -/
theorem takeLargeCoin_keeps (h : s.Holds anonymity candidates) (maxDigit totalAmount : ℕ) :
    Keeps anonymity candidates s (s.takeLargeCoin maxDigit totalAmount) := by
  rw [takeLargeCoin]
  cases hlarge : s.largeCoin maxDigit totalAmount with
  | none => exact h.keeps
  | some found =>
    obtain ⟨digit, am⟩ := found
    rw [largeCoin] at hlarge
    obtain ⟨d, -, hd⟩ := List.exists_of_findSome?_eq_some hlarge
    obtain ⟨piles, hget, hfound⟩ := Option.bind_eq_some_iff.1 hd
    obtain ⟨e, hfind, heq⟩ := Option.map_eq_some_iff.1 hfound
    cases heq
    exact (takeCoin_takes h hget
      (Store.mem_toList_iff.1 (List.mem_of_find?_eq_some hfind))).keeps

/-! ## Filling up -/

/-- The largest coin, where there is one. -/
theorem largestCoin_spec (h : s.Filed) (hne : s.haveCoins.toList ≠ []) :
    ∃ digit am un piles l, s.largestCoin = some (digit, am, un.amount.toNat) ∧
      Store.get s.haveCoins digit = some piles ∧ Store.get piles am = some (un :: l) := by
  rw [largestCoin]
  cases hlast : s.haveCoins.toList.getLast? with
  | none => exact absurd (List.getLast?_eq_none_iff.1 hlast) hne
  | some e =>
    obtain ⟨digit, piles⟩ := e
    have hget : Store.get s.haveCoins digit = some piles :=
      Store.mem_toList_iff.1 (List.mem_of_getLast? hlast)
    dsimp only
    cases htop : piles.toList.getLast? with
    | none => exact absurd (List.getLast?_eq_none_iff.1 htop) (h.filled digit piles hget).2
    | some f =>
      obtain ⟨am, l⟩ := f
      have hpile : Store.get piles am = some l :=
        Store.mem_toList_iff.1 (List.mem_of_getLast? htop)
      cases l with
      | nil => exact absurd rfl ((h.filled digit piles hget).1 am [] hpile)
      | cons un l => exact ⟨digit, am, un, piles, l, rfl, hget, hpile⟩

theorem largestCoin_eq_none (h : s.haveCoins.toList = []) : s.largestCoin = none := by
  rw [largestCoin, h]
  rfl

theorem exists_largestDust (h : s.dustCoins.toList ≠ []) :
    ∃ amount l, s.largestDust = some amount ∧ Store.get s.dustCoins amount = some l := by
  cases hlast : s.dustCoins.toList.getLast? with
  | none => exact absurd (List.getLast?_eq_none_iff.1 hlast) h
  | some e =>
    exact ⟨e.1, e.2, by rw [largestDust, hlast]; rfl,
      Store.mem_toList_iff.1 (List.mem_of_getLast? hlast)⟩

theorem largestDustAmount_of_nil (h : s.dustCoins.toList = []) : s.largestDustAmount = 0 := by
  rw [largestDustAmount, h]
  rfl

/-- A coin that is not dust is worth something. -/
theorem pos_of_not_dust {un : Api.Output} (h : un.dust = isDust un.amount)
    (hdust : un.dust = false) : 0 < un.amount.toNat := by
  rw [h] at hdust
  by_contra hzero
  have : un.amount = 0 := UInt64.toNat_inj.1 (by rw [Nat.eq_zero_of_not_pos hzero]; rfl)
  rw [this] at hdust
  exact absurd hdust (by decide +kernel)

/-- As long as there are coins that may be taken, a filler is taken. -/
theorem takeFiller_takes (h : s.Holds anonymity candidates)
    (hflag : ∀ un ∈ candidates, un.dust = isDust un.amount)
    (hcoins : ¬ (s.haveCoins.toList = [] ∧ (anonymity ≠ 0 ∨ s.dustCoins.toList = []))) :
    Takes anonymity candidates s (s.takeFiller anonymity) := by
  have hdust : anonymity = 0 → s.dustCoins.toList ≠ [] →
      Takes anonymity candidates s (s.takeDust (s.largestDust.getD 0)) := by
    intro hanon hne
    obtain ⟨amount, l, heq, hget⟩ := exists_largestDust hne
    rw [heq, Option.getD_some]
    exact takeDust_takes h hanon hget
  rw [takeFiller]
  by_cases hnil : s.haveCoins.toList = []
  · rw [largestCoin_eq_none hnil]
    refine hdust ?_ fun hd ↦ hcoins ⟨hnil, Or.inr hd⟩
    by_contra hanon
    exact hcoins ⟨hnil, Or.inl hanon⟩
  · obtain ⟨digit, am, un, piles, l, heq, hget, hpile⟩ := largestCoin_spec h.filed hnil
    rw [heq]
    dsimp only
    by_cases hle : (if anonymity = 0 then s.largestDustAmount else 0) < un.amount.toNat
    · rw [if_pos hle]
      exact takeCoin_takes h hget hpile
    · rw [if_neg hle]
      have hmem : un ∈ HaveCoins.contents s.haveCoins :=
        HaveCoins.mem_contents hget hpile List.mem_cons_self
      have hpos : 0 < un.amount.toNat := by
        refine pos_of_not_dust (hflag un ?_) (h.filed.coins un hmem)
        rw [← h.conserved, held]
        exact Multiset.mem_add.2 (Or.inl (Multiset.mem_add.2 (Or.inl hmem)))
      -- the largest dust is worth more than nothing, so it is there
      by_cases hanon : anonymity = 0
      · refine hdust hanon fun hd ↦ hle ?_
        rw [if_pos hanon, largestDustAmount_of_nil hd]
        exact hpos
      · rw [if_neg hanon] at hle
        exact absurd hpos hle

/-- What a search for a fixed fee found: the amount, or all coins that may be taken. -/
def Found (anonymity : ℕ) (candidates : Multiset Api.Output) (totalAmount : ℕ) (reached : Bool)
    (s : Picking) : Prop :=
  s.Holds anonymity candidates ∧
    if reached then totalAmount ≤ s.usedTotal
    else s.usedTotal < totalAmount ∧ s.haveCoins.toList = [] ∧
      (anonymity ≠ 0 ∨ s.dustCoins.toList = [])

theorem takeFillers_found (hflag : ∀ un ∈ candidates, un.dust = isDust un.amount)
    (totalAmount : ℕ) : ∀ (fuel : ℕ) {s : Picking}, s.Holds anonymity candidates →
      candidates.card < fuel + s.inputsCount →
        ∃ reached t, takeFillers totalAmount anonymity fuel s = some (reached, t) ∧
          Found anonymity candidates totalAmount reached t
  | 0, s, h, hfuel => absurd h.inputsCount_le (by omega)
  | fuel + 1, s, h, hfuel => by
    rw [takeFillers]
    split
    · next hle => exact ⟨true, s, rfl, h, hle⟩
    · next hlt =>
      split
      · next hnil => exact ⟨false, s, rfl, h, not_le.1 hlt, hnil⟩
      · next hcoins =>
        obtain ⟨t, heq, ht, -, hcount⟩ := takeFiller_takes h hflag hcoins
        rw [heq, Option.bind_some]
        exact takeFillers_found hflag totalAmount _ ht (by omega)

theorem fill_found (h : s.Holds anonymity candidates)
    (hflag : ∀ un ∈ candidates, un.dust = isDust un.amount) (fuel : ℕ)
    (hfuel : candidates.card < fuel) (maxDigit totalAmount : ℕ) :
    ∃ reached t, s.fill fuel maxDigit totalAmount anonymity = some (reached, t) ∧
      Found anonymity candidates totalAmount reached t := by
  obtain ⟨hun, -, -⟩ := unoptimizeAmounts_holds h
  obtain ⟨reached, t, heq, ht, hreached⟩ :=
    takeFillers_found hflag totalAmount fuel hun (by omega)
  rw [fill, heq, Option.bind_some]
  cases reached with
  | true =>
    obtain ⟨u, heq', hu, hle⟩ := optimizeAmounts_keeps ht maxDigit totalAmount
    refine ⟨true, u, ?_, hu, ?_⟩
    · simp only [if_true, heq', Option.map_some]
    · exact le_trans hreached hle
  | false => exact ⟨false, t, rfl, ht, hreached⟩

/-- A search for a fixed fee ends, with all coins accounted for. -/
theorem selectFor_found (h : s.Holds anonymity candidates)
    (hflag : ∀ un ∈ candidates, un.dust = isDust un.amount) (fuel : ℕ)
    (hfuel : candidates.card < fuel) (maxDigit totalAmount optimizationCount : ℕ) :
    ∃ reached t, s.selectFor fuel maxDigit totalAmount anonymity optimizationCount =
      some (reached, t) ∧ Found anonymity candidates totalAmount reached t := by
  obtain ⟨n, s₁, heq₁, h₁, -⟩ := takeDustFirst_keeps h totalAmount optimizationCount
  obtain ⟨s₂, heq₂, h₂, -⟩ := takeStacks_keeps (n / 10) h₁
  obtain ⟨s₃, heq₃, h₃, -⟩ := optimizeAmounts_keeps h₂ maxDigit totalAmount
  rw [selectFor, heq₁, Option.bind_some]
  dsimp only
  rw [heq₂, Option.bind_some, heq₃, Option.bind_some]
  split
  · next hle => exact ⟨true, s₃, rfl, h₃, hle⟩
  · obtain ⟨s₄, heq₄, h₄, -⟩ := takeLargeCoin_keeps h₃ maxDigit totalAmount
    rw [heq₄, Option.bind_some]
    split
    · next hle => exact ⟨true, s₄, rfl, h₄, hle⟩
    · exact fill_found h₄ hflag fuel hfuel maxDigit totalAmount

/-- Where the amount was not reached, all coins that may be taken are taken. -/
theorem Found.usedTotal_eq {totalAmount : ℕ}
    (h : Found anonymity candidates totalAmount false s) :
    s.usedTotal = ((candidates.filter fun un ↦ anonymity = 0 ∨ un.dust = false).map
      fun un ↦ un.amount.toNat).sum := by
  obtain ⟨hs, -, hnil, hdust⟩ := h
  have hcoins : HaveCoins.contents s.haveCoins = 0 := Store.gather_of_toList_eq_nil _ hnil
  have hfilter : candidates.filter (fun un ↦ anonymity = 0 ∨ un.dust = false) =
      (s.optimizationUnspents : Multiset Api.Output) := by
    rw [← hs.conserved, held, hcoins, zero_add, Multiset.filter_add]
    rcases hdust with hanon | hdust
    · have hheld : (Stacks.contents s.dustCoins).filter
          (fun un ↦ anonymity = 0 ∨ un.dust = false) = 0 := by
        rw [Multiset.filter_eq_nil]
        rintro un hun (hzero | hfalse)
        · exact hanon hzero
        · rw [hs.filed.dust un hun] at hfalse
          cases hfalse
      rw [hheld, zero_add, Multiset.filter_eq_self]
      exact fun un hun ↦ Or.inr (hs.anonymous hanon un hun)
    · have hheld : Stacks.contents s.dustCoins = 0 := Store.gather_of_toList_eq_nil _ hdust
      rw [hheld, Multiset.filter_zero, zero_add, Multiset.filter_eq_self]
      intro un hun
      by_cases hanon : anonymity = 0
      · exact Or.inl hanon
      · exact Or.inr (hs.anonymous hanon un hun)
  rw [hfilter, hs.total, Multiset.map_coe, Multiset.sum_coe]

end Picking

/-! ## The fee -/

/-- What a selection promises about the candidates. -/
def Selection.Sound (r : SelectionRequest) (candidates : Multiset Api.Output) : Selection → Prop
  | .selected change used usedTotal raAmounts =>
    (used : Multiset Api.Output) ≤ candidates ∧
      (r.anonymity ≠ 0 → ∀ un ∈ used, isDust un.amount = false) ∧
      usedTotal = (used.map fun un ↦ un.amount.toNat).sum ∧
      (∃ fee, usedTotal = r.totalAmount + change + fee ∧ minimumFee ≤ fee ∧
        r.feePerByte * getMaximumTxSize used.length (r.totalOutputs + 8) r.anonymity ≤ fee) ∧
      defaultDustThreshold ∣ change ∧ raAmounts = used.map Api.Output.amount
  | .notEnoughFunds lastFee =>
    ((candidates.filter fun un ↦ r.anonymity = 0 ∨ isDust un.amount = false).map
      fun un ↦ un.amount.toNat).sum < r.totalAmount + lastFee
  | .doesNotFitInBlock => True

/-- The size that is paid for grows with the number of inputs. -/
theorem getMaximumTxSize_mono {n m : ℕ} (h : n ≤ m) (outputs mixins : ℕ) :
    getMaximumTxSize n outputs mixins ≤ getMaximumTxSize m outputs mixins := by
  rw [getMaximumTxSize, getMaximumTxSize]
  exact Nat.add_le_add_left (Nat.mul_le_mul_left _ h) _

namespace SelectionRequest

/-- A fee rounded up to a multiple of the dust threshold. -/
theorem roundUp_spec (x : ℕ) :
    x ≤ (x + defaultDustThreshold - 1) / defaultDustThreshold * defaultDustThreshold ∧
      (x + defaultDustThreshold - 1) / defaultDustThreshold * defaultDustThreshold ≤
        x + defaultDustThreshold - 1 := by
  rw [defaultDustThreshold]
  omega

/-- The largest fee that can be asked for. -/
def feeBound (r : SelectionRequest) (candidates : Multiset Api.Output) : ℕ :=
  r.feePerByte * getMaximumTxSize candidates.card (r.totalOutputs + 8) r.anonymity +
    defaultDustThreshold

/-- A round ends soundly, or goes on with fewer optimizations or a higher fee. -/
theorem tryFee_spec (r : SelectionRequest) {candidates : Multiset Api.Output}
    (hflag : ∀ un ∈ candidates, un.dust = isDust un.amount) {fee : ℕ} (optimizations : ℕ)
    {s : Picking}
    (hs : s.Holds r.anonymity candidates) (hfee : minimumFee ≤ fee)
    (hle : r.totalAmount + fee ≤ s.usedTotal) :
    (∃ result, r.tryFee fee optimizations s = .inl result ∧ result.Sound r candidates) ∨
      ∃ fee' optimizations', r.tryFee fee optimizations s =
          .inr (fee', optimizations', s.unoptimizeAmounts) ∧ minimumFee ≤ fee' ∧
        ((fee' = fee ∧ optimizations' < optimizations) ∨
          (optimizations' = optimizations ∧ fee < fee' ∧ fee' ≤ r.feeBound candidates)) := by
  have hsize : r.feePerByte * r.txSize s ≤
      r.feePerByte * getMaximumTxSize candidates.card (r.totalOutputs + 8) r.anonymity :=
    Nat.mul_le_mul_left _ (getMaximumTxSize_mono hs.inputsCount_le _ _)
  have hthreshold : defaultDustThreshold = 1000000 := rfl
  rw [tryFee]
  set changeDustFee := (s.usedTotal - r.totalAmount - fee) % defaultDustThreshold with hdust
  have hdustLe : changeDustFee ≤ s.usedTotal - r.totalAmount - fee := Nat.mod_le _ _
  split
  · next hcond =>
    refine Or.inr ⟨fee, _, rfl, hfee, Or.inl ⟨rfl, ?_⟩⟩
    split
    · exact hcond.2
    · omega
  · split
    · exact Or.inl ⟨_, rfl, trivial⟩
    · split
      · next hpaid =>
        refine Or.inl ⟨_, rfl, ?_, ?_, hs.total, ⟨fee + changeDustFee, ?_, ?_, ?_⟩, ?_, rfl⟩
        · rw [← hs.conserved]
          exact Multiset.le_add_left _ _
        · intro hanon un hun
          rw [← hflag un, hs.anonymous hanon un hun]
          rw [← hs.conserved]
          exact Multiset.mem_add.2 (Or.inr hun)
        · omega
        · omega
        · rw [← hs.count]
          exact hpaid
        · rw [hdust]
          exact Nat.dvd_sub_mod _
      · next hpaid =>
        have hround := roundUp_spec (r.feePerByte * r.txSize s - changeDustFee)
        refine Or.inr ⟨_, _, rfl, ?_, Or.inr ⟨rfl, ?_, ?_⟩⟩
        · omega
        · omega
        · rw [feeBound]
          omega

/-- The loop ends, and soundly: each round lowers the optimizations or raises the fee. -/
theorem selectLoop_sound (r : SelectionRequest) (maxDigit : ℕ) {candidates : Multiset Api.Output}
    (hflag : ∀ un ∈ candidates, un.dust = isDust un.amount) :
    ∀ {fuel fee optimizations : ℕ} {s : Picking}, s.Holds r.anonymity candidates →
      minimumFee ≤ fee →
      optimizations + (r.feeBound candidates - fee) + candidates.card < fuel →
      ∃ result, r.selectLoop maxDigit fuel fee optimizations s = some result ∧
        result.Sound r candidates
  | 0, _, _, _, _, _, hfuel => absurd hfuel (Nat.not_lt_zero _)
  | fuel + 1, fee, optimizations, s, hs, hfee, hfuel => by
    obtain ⟨reached, t, heq, hfound⟩ := Picking.selectFor_found hs hflag
      (fuel + 1) (by omega) maxDigit (r.totalAmount + fee) optimizations
    rw [selectLoop, heq]
    cases reached with
    | false =>
      refine ⟨_, rfl, ?_⟩
      have hall := hfound.usedTotal_eq
      have hlt := hfound.2.1
      rw [Selection.Sound]
      rw [hall] at hlt
      rw [Multiset.filter_congr (q := fun un ↦ r.anonymity = 0 ∨ un.dust = false)
        fun un hun ↦ by rw [hflag un hun]]
      exact hlt
    | true =>
      rcases r.tryFee_spec hflag optimizations hfound.1 hfee hfound.2 with
        ⟨result, htry, hsound⟩ | ⟨fee', optimizations', htry, hfee', hless⟩
      · exact ⟨result, by simp only [htry], hsound⟩
      · simp only [htry]
        refine r.selectLoop_sound maxDigit hflag (Picking.unoptimizeAmounts_holds hfound.1).1
          hfee' ?_
        rcases hless with ⟨rfl, hless⟩ | ⟨rfl, hless, hbound⟩
        · omega
        · omega

end SelectionRequest

/-- The request of a call of `select_optimal_outputs`. -/
def selectionRequest (effectiveMedianSize anonymity totalAmount totalOutputs feePerByte : ℕ)
    (optimizationLevel : String) : SelectionRequest where
  anonymity
  totalAmount
  totalOutputs
  feePerByte
  effectiveMedianSize := 120 * effectiveMedianSize / 100
  optimizationMedian := 120 * effectiveMedianSize / 100 *
    (if optimizationLevel = "aggressive" then 30 else 12) / 100

/-- The search ends, for every list of coins that are flagged as the wallet flags them, and what it
returns is sound. -/
theorem selectOptimalOutputs_sound (c : Currency) {unspents : List Api.Output}
    (hdust : ∀ un ∈ unspents, un.dust = isDust un.amount) (blockHeight : Height)
    (blockTime : Timestamp) (confirmedHeight : Height)
    (effectiveMedianSize anonymity totalAmount totalOutputs feePerByte : ℕ)
    (optimizationLevel : String) :
    ∃ enough, ∀ fuel, enough ≤ fuel → ∃ result,
      selectOptimalOutputs c fuel unspents blockHeight blockTime confirmedHeight
        effectiveMedianSize anonymity totalAmount totalOutputs feePerByte optimizationLevel =
          some result ∧
      result.Sound (selectionRequest effectiveMedianSize anonymity totalAmount totalOutputs
        feePerByte optimizationLevel)
        (keptCoins c blockHeight blockTime confirmedHeight unspents) ∧
      (keptCoins c blockHeight blockTime confirmedHeight unspents).Sublist unspents := by
  have hholds := createHaveCoins_holds c blockHeight blockTime confirmedHeight hdust anonymity
  have hflag : ∀ un ∈ (keptCoins c blockHeight blockTime confirmedHeight unspents :
      Multiset Api.Output), un.dust = isDust un.amount := fun un hun ↦
    hdust un (List.mem_of_mem_filter (Multiset.mem_coe.1 hun))
  obtain ⟨optimizations, hoptimizations⟩ : ∃ n, n = if optimizationLevel = "aggressive" then 200
    else if optimizationLevel = "minimal" then 9 else 50 := ⟨_, rfl⟩
  let r := selectionRequest effectiveMedianSize anonymity totalAmount totalOutputs feePerByte
    optimizationLevel
  refine ⟨optimizations + (r.feeBound
    (keptCoins c blockHeight blockTime confirmedHeight unspents) - minimumFee) +
    (keptCoins c blockHeight blockTime confirmedHeight unspents).length + 1, fun fuel hfuel ↦ ?_⟩
  obtain ⟨result, heq, hsound⟩ := r.selectLoop_sound
    (createHaveCoins c blockHeight blockTime confirmedHeight unspents).1 hflag hholds
    (le_refl minimumFee) (show optimizations + _ + _ < fuel by
      rw [Multiset.coe_card]
      omega)
  refine ⟨result, ?_, hsound, List.filter_sublist⟩
  rw [selectOptimalOutputs, ← heq, hoptimizations]
  rfl

/-! ### Fuel -/

namespace Picking

variable {totalAmount anonymity fuel fuel' : ℕ}

theorem takeFillers_mono {s : Picking} {r : Bool × Picking}
    (h : s.takeFillers totalAmount anonymity fuel = some r) (hle : fuel ≤ fuel') :
    s.takeFillers totalAmount anonymity fuel' = some r := by
  induction fuel generalizing s fuel' with
  | zero => cases h
  | succ fuel ih =>
    obtain ⟨fuel', rfl⟩ := Nat.exists_eq_succ_of_ne_zero (by omega : fuel' ≠ 0)
    rw [takeFillers] at h ⊢
    split_ifs at h ⊢
    · exact h
    · exact h
    · obtain ⟨t, ht, hrest⟩ := Option.bind_eq_some_iff.1 h
      rw [ht]
      exact ih hrest (Nat.succ_le_succ_iff.1 hle)

theorem selectFor_mono {maxDigit optimizationCount : ℕ} {s : Picking} {r : Bool × Picking}
    (h : s.selectFor fuel maxDigit totalAmount anonymity optimizationCount = some r)
    (hle : fuel ≤ fuel') :
    s.selectFor fuel' maxDigit totalAmount anonymity optimizationCount = some r := by
  obtain ⟨⟨count, s₁⟩, hdust, h⟩ := Option.bind_eq_some_iff.1 h
  obtain ⟨piled, hpiled, h⟩ := Option.bind_eq_some_iff.1 h
  obtain ⟨optimized, hoptimized, h⟩ := Option.bind_eq_some_iff.1 h
  rw [selectFor, hdust, Option.bind_some]
  dsimp only
  rw [hpiled, Option.bind_some, hoptimized, Option.bind_some]
  split_ifs at h ⊢
  · exact h
  · obtain ⟨large, hlarge, h⟩ := Option.bind_eq_some_iff.1 h
    rw [hlarge, Option.bind_some]
    split_ifs at h ⊢
    · exact h
    · obtain ⟨filled, hfilled, h⟩ := Option.bind_eq_some_iff.1 h
      rw [fill, takeFillers_mono hfilled hle, Option.bind_some]
      exact h

end Picking

theorem SelectionRequest.selectLoop_mono {r : SelectionRequest} {maxDigit fuel fuel' fee : ℕ}
    {optimizations : ℕ} {s : Picking} {result : Selection}
    (h : r.selectLoop maxDigit fuel fee optimizations s = some result) (hle : fuel ≤ fuel') :
    r.selectLoop maxDigit fuel' fee optimizations s = some result := by
  induction fuel generalizing fee optimizations s fuel' with
  | zero => cases h
  | succ fuel ih =>
    obtain ⟨fuel', rfl⟩ := Nat.exists_eq_succ_of_ne_zero (by omega : fuel' ≠ 0)
    rw [selectLoop] at h ⊢
    cases hselect : s.selectFor (fuel + 1) maxDigit (r.totalAmount + fee) r.anonymity
      optimizations with
    | none =>
      rw [hselect] at h
      cases h
    | some found =>
      rw [hselect] at h
      rw [Picking.selectFor_mono hselect hle]
      obtain ⟨reached, t⟩ := found
      cases reached with
      | false => exact h
      | true =>
        dsimp only at h ⊢
        cases htry : r.tryFee fee optimizations t with
        | inl result' =>
          rw [htry] at h
          exact h
        | inr next =>
          rw [htry] at h
          exact ih h (Nat.succ_le_succ_iff.1 hle)

/-- Two coins of three pay ten coins, a fee of one coin and the change. -/
theorem selectOptimalOutputs_sound_sample :
    let unspents : List Api.Output :=
      [{ amount := 9000000 }, { amount := 8000000 }, { amount := 17, dust := true }]
    let selected : Selection := .selected 6000000 [{ amount := 8000000 }, { amount := 9000000 }]
      17000000 [8000000, 9000000]
    ∃ enough, ∀ fuel, enough ≤ fuel →
      selectOptimalOutputs (Currency.make sampleCrypto false) fuel unspents 20 0 10 1000 0 10000000
        1 100 "" = some selected ∧
      selected.Sound (selectionRequest 1000 0 10000000 1 100 "")
        (keptCoins (Currency.make sampleCrypto false) 20 0 10 unspents) ∧
      (keptCoins (Currency.make sampleCrypto false) 20 0 10 unspents).Sublist unspents := by
  intro unspents selected
  obtain ⟨enough, h⟩ := selectOptimalOutputs_sound (Currency.make sampleCrypto false)
    (show ∀ un ∈ unspents, un.dust = isDust un.amount by decide +kernel) 20 0 10 1000 0 10000000 1
    100 ""
  have hselected : selectOptimalOutputs (Currency.make sampleCrypto false) 100 unspents 20 0 10 1000
      0 10000000 1 100 "" = some selected := by
    decide +kernel
  refine ⟨max enough 100, fun fuel hfuel ↦ ?_⟩
  obtain ⟨result, heq, hsound⟩ := h fuel (le_of_max_le_left hfuel)
  have hfuel := SelectionRequest.selectLoop_mono hselected (le_of_max_le_right hfuel)
  have hresult : some result = some selected := heq.symm.trans hfuel
  obtain rfl := Option.some.inj hresult
  exact ⟨heq, hsound⟩

end Naza
