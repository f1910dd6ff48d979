import Naza.Tree
import Naza.Lib.Ancestry

/-!
# The common ancestor of two blocks

`get_common_block` on stored headers: it ends, at the highest common ancestor, and what it passed
on both sides are the two branches above it.
-/

open Lib

namespace Naza

variable {cr : Crypto} {c : Currency} {s : State}

/-- The block below a stored block; the genesis block has none. -/
def State.parentOf (s : State) (bid : Hash) : Option Hash :=
  (s.db.headers.get bid).bind fun info ↦
    if info.height = 0 then none else some info.previousBlockHash

/-- The height of a stored block. -/
def State.heightOf (s : State) (bid : Hash) : ℕ :=
  ((s.db.headers.get bid).map fun info ↦ info.height.toNat).getD 0

/-- What `get_common_block` has to answer: the common block and the branches above it. -/
structure State.CommonBranches (s : State) (bid1 bid2 : Hash) (chain1 chain2 : List Hash)
    (common : Hash) : Prop where
  highest : HighestCommon s.parentOf bid1 bid2 common
  branch1 : Branch s.parentOf bid1 common chain1
  branch2 : Branch s.parentOf bid2 common chain2
  descending1 : chain1.Pairwise fun above below ↦ s.heightOf below < s.heightOf above
  descending2 : chain2.Pairwise fun above below ↦ s.heightOf below < s.heightOf above
  /-- popped from its back, the branch is built on the common block, block by block -/
  replays : (common :: chain2.reverse).IsChain fun below above ↦ s.parentOf above = some below ∧
    s.heightOf above = s.heightOf below + 1

theorem Linked.height_eq_zero_iff (h : Linked cr c s) {bid : Hash} {info : Api.BlockHeader}
    (hget : s.db.headers.get bid = some info) : info.height = 0 ↔ bid = c.genesisBlockHash := by
  constructor
  · intro hzero
    by_contra hne
    obtain ⟨-, -, -, hheight⟩ := h.parent bid info hget hne
    exact hheight hzero
  · rintro rfl
    exact h.genesis info hget

theorem State.heightOf_eq {bid : Hash} {info : Api.BlockHeader}
    (hget : s.db.headers.get bid = some info) : s.heightOf bid = info.height.toNat := by
  rw [heightOf, hget]
  rfl

/-- Above the genesis block a stored block has a stored parent one below it. -/
theorem Linked.exists_parent (h : Linked cr c s) {bid : Hash} {info : Api.BlockHeader}
    (hget : s.db.headers.get bid = some info) (hne : info.height ≠ 0) :
    ∃ prev, s.db.headers.get info.previousBlockHash = some prev ∧
      s.parentOf bid = some info.previousBlockHash ∧
        info.height.toNat = prev.height.toNat + 1 := by
  obtain ⟨prev, hprev, hheight, -⟩ :=
    h.parent bid info hget fun hgenesis ↦ hne ((h.height_eq_zero_iff hget).2 hgenesis)
  refine ⟨prev, hprev, ?_, ?_⟩
  · rw [State.parentOf, hget, Option.bind_some, if_neg hne]
  · -- the height did not wrap, or it would be zero
    have hlt := prev.height.toNat_lt
    rw [hheight] at hne ⊢
    have hsucc : (prev.height + 1).toNat = (prev.height.toNat + 1) % 2 ^ 32 := UInt32.toNat_add _ _
    have hnz : (prev.height + 1).toNat ≠ 0 := fun h ↦ hne (UInt32.toNat_inj.1 h)
    omega

/-- The heights go down by one with each parent. -/
theorem Linked.heightOf_parentOf (h : Linked cr c s) (bid parent : Hash)
    (hparent : s.parentOf bid = some parent) : s.heightOf bid = s.heightOf parent + 1 := by
  obtain ⟨info, hget, hif⟩ := Option.bind_eq_some_iff.1 hparent
  split_ifs at hif with hzero
  obtain ⟨prev, hprev, -, hheight⟩ := h.exists_parent hget hzero
  rw [Option.some.injEq] at hif
  subst hif
  rw [State.heightOf_eq hget, State.heightOf_eq hprev, hheight]

theorem State.descend_of_not_lt {target : Height} {hid : Hash} {ha : Api.BlockHeader}
    (fuel : ℕ) (hnot : ¬ target < ha.height) :
    s.descend target fuel hid ha = .ok ([], hid, ha) := by
  unfold descend
  exact if_neg hnot

/-- One block brought down to a height, if it is above it. -/
theorem Linked.descend (h : Linked cr c s) {target : Height} {fuel : ℕ} {hid : Hash}
    {ha : Api.BlockHeader} (hget : s.db.headers.get hid = some ha)
    (hfuel : ha.height.toNat ≤ fuel + target.toNat) :
    ∃ chain hid' ha', s.descend target fuel hid ha = .ok (chain, hid', ha') ∧
      s.db.headers.get hid' = some ha' ∧ Branch s.parentOf hid hid' chain ∧
        ha'.height.toNat = min ha.height.toNat target.toNat := by
  induction fuel generalizing hid ha with
  | zero =>
    have hnot : ¬ target < ha.height := by
      rw [UInt32.lt_iff_toNat_lt]
      omega
    exact ⟨[], hid, ha, State.descend_of_not_lt 0 hnot, hget, .nil hid, by omega⟩
  | succ fuel ih =>
    by_cases hlt : target < ha.height
    · have hlt' := UInt32.lt_iff_toNat_lt.1 hlt
      have hne : ha.height ≠ 0 := by
        intro hzero
        rw [hzero, UInt32.toNat_zero] at hlt'
        omega
      obtain ⟨prev, hprev, hparent, hheight⟩ := h.exists_parent hget hne
      obtain ⟨chain, hid', ha', hok, hget', hbranch, hmin⟩ := ih hprev (by omega)
      refine ⟨hid :: chain, hid', ha', ?_, hget', .cons hparent hbranch, by omega⟩
      unfold State.descend
      rw [if_pos hlt]
      simp only [bind_eq_ok_iff, State.readHeader, expect_eq_ok_iff]
      exact ⟨prev, hprev, (chain, hid', ha'), hok, rfl⟩
    · have hle := UInt32.lt_iff_toNat_lt.not.1 hlt
      exact ⟨[], hid, ha, State.descend_of_not_lt _ hlt, hget, .nil hid, by omega⟩

/-- Two blocks of one height brought down together. -/
theorem Linked.descendBoth (h : Linked cr c s) {fuel : ℕ} {hid1 hid2 : Hash}
    {ha1 ha2 : Api.BlockHeader} (hget1 : s.db.headers.get hid1 = some ha1)
    (hget2 : s.db.headers.get hid2 = some ha2) (hheight : ha1.height = ha2.height)
    (hfuel : ha1.height.toNat ≤ fuel) :
    ∃ chain1 chain2 common,
      s.descendBoth fuel hid1 ha1 hid2 ha2 = .ok (chain1, chain2, common) ∧
        Branch s.parentOf hid1 common chain1 ∧ Branch s.parentOf hid2 common chain2 ∧
          HighestCommon s.parentOf hid1 hid2 common := by
  induction fuel generalizing hid1 ha1 hid2 ha2 with
  | zero =>
    have hzero : ha1.height = 0 := UInt32.toNat_inj.1 (by rw [UInt32.toNat_zero]; omega)
    have heq : hid1 = hid2 := ((h.height_eq_zero_iff hget1).1 hzero).trans
      ((h.height_eq_zero_iff hget2).1 (hheight ▸ hzero)).symm
    subst heq
    unfold State.descendBoth
    exact ⟨[], [], hid1, if_pos rfl, .nil _, .nil _, .refl _ _⟩
  | succ fuel ih =>
    unfold State.descendBoth
    by_cases heq : hid1 = hid2
    · subst heq
      exact ⟨[], [], hid1, if_pos rfl, .nil _, .nil _, .refl _ _⟩
    rw [if_neg heq]
    -- two different blocks of one height are both above genesis
    have hne1 : ha1.height ≠ 0 := fun hzero ↦ heq (((h.height_eq_zero_iff hget1).1 hzero).trans
      ((h.height_eq_zero_iff hget2).1 (hheight ▸ hzero)).symm)
    obtain ⟨prev1, hprev1, hparent1, hstep1⟩ := h.exists_parent hget1 hne1
    obtain ⟨prev2, hprev2, hparent2, hstep2⟩ := h.exists_parent hget2 (hheight ▸ hne1)
    have hlevel : prev1.height = prev2.height := by
      apply UInt32.toNat_inj.1
      rw [hheight] at hstep1
      omega
    obtain ⟨chain1, chain2, common, hok, hbranch1, hbranch2, hhighest⟩ :=
      ih hprev1 hprev2 hlevel (by omega)
    refine ⟨hid1 :: chain1, hid2 :: chain2, common, ?_, .cons hparent1 hbranch1,
      .cons hparent2 hbranch2, ?_⟩
    · simp only [bind_eq_ok_iff, State.readHeader, expect_eq_ok_iff]
      exact ⟨prev1, hprev1, prev2, hprev2, (chain1, chain2, common), hok, rfl⟩
    · refine HighestCommon.ofParents h.heightOf_parentOf heq ?_ hparent1 hparent2 hhighest
      rw [State.heightOf_eq hget1, State.heightOf_eq hget2, hheight]

/-- Two stored headers have a highest common ancestor, and it is found with the branches. -/
theorem Linked.getCommonBlock (h : Linked cr c s) {bid1 bid2 : Hash}
    (hget1 : s.db.headers.get bid1 ≠ none) (hget2 : s.db.headers.get bid2 ≠ none) :
    ∃ chain1 chain2 common, s.getCommonBlock bid1 bid2 = .ok (chain1, chain2, common) ∧
      s.CommonBranches bid1 bid2 chain1 chain2 common := by
  obtain ⟨ha1, hget1⟩ := Option.ne_none_iff_exists'.1 hget1
  obtain ⟨ha2, hget2⟩ := Option.ne_none_iff_exists'.1 hget2
  obtain ⟨chain1, hid1, ha1', hok1, hget1', hdown1, hmin1⟩ :=
    h.descend hget1 (Nat.le_add_right ha1.height.toNat ha2.height.toNat)
  obtain ⟨chain2, hid2, ha2', hok2, hget2', hdown2, hmin2⟩ :=
    h.descend hget2 (Nat.le_add_right ha2.height.toNat ha1'.height.toNat)
  have hlevel : ha1'.height = ha2'.height := UInt32.toNat_inj.1 (by omega)
  obtain ⟨rest1, rest2, common, hok, hrest1, hrest2, hhighest⟩ :=
    h.descendBoth hget1' hget2' hlevel (Nat.le_refl _)
  have hbranch1 := hdown1.append hrest1
  have hbranch2 := hdown2.append hrest2
  refine ⟨chain1 ++ rest1, chain2 ++ rest2, common, ?_, ?_⟩
  · simp only [State.getCommonBlock, bind_eq_ok_iff, State.readHeader, expect_eq_ok_iff]
    exact ⟨ha1, hget1, ha2, hget2, (chain1, hid1, ha1'), hok1, (chain2, hid2, ha2'), hok2,
      (rest1, rest2, common), hok, rfl⟩
  refine ⟨?_, hbranch1, hbranch2, hbranch1.pairwise_height h.heightOf_parentOf,
    hbranch2.pairwise_height h.heightOf_parentOf, ?_⟩
  · have hlevel1 := State.heightOf_eq hget1'
    have hlevel2 := State.heightOf_eq hget2'
    -- the lower of the two blocks has stayed where it was
    by_cases hle : ha1.height.toNat ≤ ha2.height.toNat
    · have hstay : hid1 = bid1 := Ancestor.eq_of_height h.heightOf_parentOf ⟨chain1, hdown1⟩
        (by rw [State.heightOf_eq hget1, hlevel1]; omega)
      exact hstay ▸ HighestCommon.symm (HighestCommon.ofBranch h.heightOf_parentOf hdown2
        (by rw [hlevel1, hlevel2, hlevel]) hhighest.symm)
    · have hstay : hid2 = bid2 := Ancestor.eq_of_height h.heightOf_parentOf ⟨chain2, hdown2⟩
        (by rw [State.heightOf_eq hget2, hlevel2]; omega)
      exact hstay ▸ HighestCommon.ofBranch h.heightOf_parentOf hdown1
        (by rw [hlevel1, hlevel2, hlevel]) hhighest
  · exact hbranch2.isChain_reverse.imp fun below above hparent ↦
      ⟨hparent, h.heightOf_parentOf _ _ hparent⟩

/-- The branch to switch to does not contain genesis. -/
theorem State.getCommonBlock_ne_genesis (h : Linked cr c s) {bid1 bid2 common : Hash}
    {chain1 chain2 : List Hash}
    (hok : s.getCommonBlock bid1 bid2 = .ok (chain1, chain2, common)) :
    ∀ bid ∈ chain2, bid ≠ c.genesisBlockHash := by
  have hstored : s.db.headers.get bid1 ≠ none ∧ s.db.headers.get bid2 ≠ none := by
    simp only [getCommonBlock, bind_eq_ok_iff, readHeader, expect_eq_ok_iff] at hok
    obtain ⟨ha1, hget1, ha2, hget2, -⟩ := hok
    exact ⟨by simp [hget1], by simp [hget2]⟩
  obtain ⟨_, _, _, hok', hbranches⟩ := h.getCommonBlock hstored.1 hstored.2
  rw [hok, Except.ok.injEq, Prod.mk.injEq, Prod.mk.injEq] at hok'
  obtain ⟨rfl, rfl, rfl⟩ := hok'
  intro bid hmem hgenesis
  obtain ⟨parent, hparent⟩ := Option.ne_none_iff_exists'.1 (hbranches.branch2.parent_ne_none hmem)
  obtain ⟨info, hget, hif⟩ := Option.bind_eq_some_iff.1 hparent
  rw [if_pos ((h.height_eq_zero_iff hget).2 hgenesis)] at hif
  cases hif

end Naza
