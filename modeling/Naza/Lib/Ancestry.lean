import Mathlib.Data.List.Chain
import Mathlib.Tactic.Common

/-!
# Ancestry

Nodes that have at most one parent each, one level below them: the branch from a node down to an
ancestor, and the highest ancestor that two nodes have in common.
-/

namespace Lib

variable {α : Type}

/-- The nodes from `a` down to its ancestor `top`, the latter excluded. -/
inductive Branch (parent : α → Option α) : α → α → List α → Prop
  | nil (a : α) : Branch parent a a []
  | cons {a b top : α} {l : List α} (hparent : parent a = some b)
      (hbranch : Branch parent b top l) :
    Branch parent a top (a :: l)

/-- A node is its own ancestor, and so are the ancestors of its parent. -/
def Ancestor (parent : α → Option α) (top a : α) : Prop := ∃ l, Branch parent a top l

/-- The common ancestor that all common ancestors are ancestors of. -/
structure HighestCommon (parent : α → Option α) (a b top : α) : Prop where
  left : Ancestor parent top a
  right : Ancestor parent top b
  highest : ∀ x, Ancestor parent x a → Ancestor parent x b → Ancestor parent x top

variable {parent : α → Option α} {a b a' top x : α} {l l' : List α}

theorem Branch.append (h : Branch parent a a' l) (h' : Branch parent a' top l') :
    Branch parent a top (l ++ l') := by
  induction h with
  | nil => exact h'
  | cons hparent _ ih => exact .cons hparent (ih h')

/-- The nodes of a branch have parents. -/
theorem Branch.parent_ne_none (h : Branch parent a top l) (hmem : x ∈ l) : parent x ≠ none := by
  induction h with
  | nil => cases hmem
  | cons hparent _ ih =>
    rcases List.mem_cons.1 hmem with rfl | hmem
    · rw [hparent]
      exact Option.some_ne_none _
    · exact ih hmem

/-- Read from its end, a branch climbs from parent to child. -/
theorem Branch.isChain_reverse (h : Branch parent a top l) :
    (top :: l.reverse).IsChain fun below above ↦ parent above = some below := by
  induction h with
  | nil => exact List.isChain_singleton _
  | @cons a b top l hparent hbranch ih =>
    rw [List.reverse_cons, ← List.cons_append]
    refine List.isChain_append.2 ⟨ih, List.isChain_singleton _, ?_⟩
    intro last hlast above habove
    rw [List.head?_cons, Option.mem_def, Option.some.injEq] at habove
    subst habove
    -- the last node of the climb is where the branch below starts
    cases hbranch with
    | nil =>
      rw [List.reverse_nil, List.getLast?_singleton, Option.mem_def, Option.some.injEq] at hlast
      rw [hparent, hlast]
    | cons =>
      rw [List.reverse_cons, ← List.cons_append, List.getLast?_append, List.getLast?_singleton,
        Option.some_or, Option.mem_def, Option.some.injEq] at hlast
      rw [hparent, hlast]

theorem Ancestor.refl (parent : α → Option α) (a : α) : Ancestor parent a a := ⟨[], .nil a⟩

theorem Ancestor.step (hparent : parent a = some b) (h : Ancestor parent top b) :
    Ancestor parent top a := by
  obtain ⟨l, hbranch⟩ := h
  exact ⟨a :: l, .cons hparent hbranch⟩

/-- Nodes passed on a branch are ancestors of its start. -/
theorem Branch.ancestor_of_mem (h : Branch parent a top l) (hmem : x ∈ l) :
    Ancestor parent x a := by
  induction h with
  | nil => cases hmem
  | cons hparent _ ih =>
    rcases List.mem_cons.1 hmem with rfl | hmem
    · exact .refl _ _
    · exact (ih hmem).step hparent

/-- Another ancestor than the node itself is one of the parent. -/
theorem Ancestor.of_ne (h : Ancestor parent top a) (hparent : parent a = some b) (hne : top ≠ a) :
    Ancestor parent top b := by
  obtain ⟨l, hbranch⟩ := h
  cases hbranch with
  | nil => exact absurd rfl hne
  | cons hparent' hbranch =>
    rw [hparent, Option.some.injEq] at hparent'
    subst hparent'
    exact ⟨_, hbranch⟩

theorem HighestCommon.refl (parent : α → Option α) (a : α) : HighestCommon parent a a a where
  left := .refl parent a
  right := .refl parent a
  highest _ h _ := h

theorem HighestCommon.symm (h : HighestCommon parent a b top) : HighestCommon parent b a top where
  left := h.right
  right := h.left
  highest x hb ha := h.highest x ha hb

section Heights

variable {height : α → ℕ} (hheight : ∀ a b, parent a = some b → height a = height b + 1)
include hheight

theorem Branch.height_eq (h : Branch parent a top l) : height a = height top + l.length := by
  induction h with
  | nil => rfl
  | cons hparent _ ih => rw [hheight _ _ hparent, ih, List.length_cons, Nat.add_assoc]

theorem Ancestor.height_le (h : Ancestor parent top a) : height top ≤ height a := by
  obtain ⟨l, hbranch⟩ := h
  exact hbranch.height_eq hheight ▸ Nat.le_add_right _ _

theorem Branch.height_le (h : Branch parent a top l) (hmem : x ∈ l) : height x ≤ height a := by
  induction h with
  | nil => cases hmem
  | cons hparent _ ih =>
    rcases List.mem_cons.1 hmem with rfl | hmem
    · exact Nat.le_refl _
    · rw [hheight _ _ hparent]
      exact (ih hmem).trans (Nat.le_succ _)

/-- A branch goes down. -/
theorem Branch.pairwise_height (h : Branch parent a top l) :
    l.Pairwise fun above below ↦ height below < height above := by
  induction h with
  | nil => exact List.Pairwise.nil
  | cons hparent hbranch ih =>
    refine List.Pairwise.cons (fun below hmem ↦ ?_) ih
    rw [hheight _ _ hparent]
    exact Nat.lt_succ_of_le (hbranch.height_le hheight hmem)

/-- A node at the height of an ancestor of it is that ancestor. -/
theorem Ancestor.eq_of_height (h : Ancestor parent top a) (heq : height a ≤ height top) :
    top = a := by
  obtain ⟨l, hbranch⟩ := h
  have hlength := hbranch.height_eq hheight
  cases hbranch with
  | nil => rfl
  | cons _ _ =>
    rw [List.length_cons] at hlength
    omega

/-- There is one branch between two nodes. -/
theorem Branch.unique (h : Branch parent a top l) (h' : Branch parent a top l') : l = l' := by
  induction h generalizing l' with
  | nil a =>
    have hlength := h'.height_eq hheight
    exact (List.length_eq_zero_iff.1 (by omega)).symm
  | @cons a b top l hparent hbranch ih =>
    cases h' with
    | nil =>
      have hlength := (Branch.cons hparent hbranch).height_eq hheight
      rw [List.length_cons] at hlength
      omega
    | @cons _ b' _ l' hparent' hbranch' =>
      rw [hparent, Option.some.injEq] at hparent'
      subst hparent'
      rw [ih hbranch']

/-- There is one highest common ancestor. -/
theorem HighestCommon.unique {top' : α} (h : HighestCommon parent a b top)
    (h' : HighestCommon parent a b top') : top = top' :=
  (h'.highest top h.left h.right).eq_of_height hheight
    ((h.highest top' h'.left h'.right).height_le hheight)

/-- A node has its ancestors in common with itself. -/
theorem HighestCommon.eq_left_iff (h : HighestCommon parent a b top) :
    a = top ↔ Ancestor parent a b := by
  constructor
  · rintro rfl
    exact h.right
  · intro hancestor
    exact (h.highest a (.refl parent a) hancestor).eq_of_height hheight
      (h.left.height_le hheight)

/-! ## Climbing down to the common ancestor -/

/-- The higher of two nodes brought down on its branch, not below the other one. -/
theorem HighestCommon.ofBranch (hbranch : Branch parent a a' l) (hle : height b ≤ height a')
    (h : HighestCommon parent a' b top) : HighestCommon parent a b top := by
  induction hbranch with
  | nil => exact h
  | @cons a c a' l hparent hbranch ih =>
    obtain ⟨hleft, hright, hhighest⟩ := ih hle h
    refine ⟨hleft.step hparent, hright, fun x hxa hxb ↦ hhighest x (hxa.of_ne hparent ?_) hxb⟩
    -- the node passed is above the other one
    rintro rfl
    have hxb := hxb.height_le hheight
    have hlength := hbranch.height_eq hheight
    have hstep := hheight _ _ hparent
    omega

/-- Two nodes of one height brought down together. -/
theorem HighestCommon.ofParents (hne : a ≠ b) (heq : height a = height b) {c d : α}
    (ha : parent a = some c) (hb : parent b = some d) (h : HighestCommon parent c d top) :
    HighestCommon parent a b top := by
  refine ⟨h.left.step ha, h.right.step hb, fun x hxa hxb ↦ ?_⟩
  refine h.highest x (hxa.of_ne ha ?_) (hxb.of_ne hb ?_)
  · rintro rfl
    exact hne (hxb.eq_of_height hheight heq.ge)
  · rintro rfl
    exact hne (hxa.eq_of_height hheight heq.le).symm

end Heights

/-! ## A new leaf -/

section Leaf

variable {parent' : α → Option α} {leaf : α} (hsame : ∀ x, x ≠ leaf → parent' x = parent x)
  (hleaf : ∀ x, parent x ≠ some leaf)

include hleaf in
/-- A leaf is an ancestor of itself only. -/
theorem Ancestor.ne_leaf (hne : a ≠ leaf) (h : Ancestor parent top a) : top ≠ leaf := by
  obtain ⟨l, hbranch⟩ := h
  induction hbranch with
  | nil => exact hne
  | cons hparent _ ih => exact ih fun heq ↦ hleaf _ (heq ▸ hparent)

include hsame hleaf

/-- A leaf takes no part in the branches of other nodes. -/
theorem Branch.of_leaf_iff (hne : a ≠ leaf) :
    Branch parent' a top l ↔ Branch parent a top l := by
  constructor
  · intro h
    induction h with
    | nil a => exact .nil a
    | cons hparent _ ih =>
      rw [hsame _ hne] at hparent
      exact .cons hparent (ih fun heq ↦ hleaf _ (heq ▸ hparent))
  · intro h
    induction h with
    | nil a => exact .nil a
    | cons hparent _ ih =>
      exact .cons ((hsame _ hne).trans hparent) (ih fun heq ↦ hleaf _ (heq ▸ hparent))

theorem Ancestor.of_leaf_iff (hne : a ≠ leaf) :
    Ancestor parent' top a ↔ Ancestor parent top a :=
  exists_congr fun _ ↦ Branch.of_leaf_iff hsame hleaf hne

/-- What a node has in common with a leaf it has in common with the parent of the leaf. -/
theorem HighestCommon.of_leaf (hne : a ≠ leaf) (hb : b ≠ leaf) (hparent : parent' leaf = some b)
    (h : HighestCommon parent' a leaf top) : HighestCommon parent a b top := by
  have htop : top ≠ leaf :=
    Ancestor.ne_leaf hleaf hne ((Ancestor.of_leaf_iff hsame hleaf hne).1 h.left)
  have hbelow := h.right.of_ne hparent htop
  refine ⟨(Ancestor.of_leaf_iff hsame hleaf hne).1 h.left,
    (Ancestor.of_leaf_iff hsame hleaf hb).1 hbelow, fun x hxa hxb ↦ ?_⟩
  have hxa' := (Ancestor.of_leaf_iff hsame hleaf hne).2 hxa
  have hxb' := (Ancestor.of_leaf_iff hsame hleaf hb).2 hxb
  exact (Ancestor.of_leaf_iff hsame hleaf htop).1
    (h.highest x hxa' (hxb'.step hparent))

end Leaf

end Lib
