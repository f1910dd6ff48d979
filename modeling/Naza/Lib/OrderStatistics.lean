import Mathlib.Data.List.Sort
import Mathlib.Data.List.Count

/-!
# Order statistics by counting

An element is at most the `k`-th smallest of a list exactly when at most `k` elements are not
above it.
-/

namespace Lib

section Sorted

variable {α : Type*} {r : α → α → Prop} [DecidableRel r] [IsTrans α r]

/-- In a sorted list the elements above `x` are a tail. -/
theorem rel_getElem_iff_of_pairwise {l : List α} (hsorted : l.Pairwise r) {k : ℕ}
    (hk : k < l.length) (x : α) : r x l[k] ↔ l.length ≤ k + l.countP fun y ↦ r x y := by
  constructor
  · intro hx
    have htail : ∀ y ∈ l.drop k, r x y := by
      intro y hy
      rw [List.drop_eq_getElem_cons hk, List.mem_cons] at hy
      rcases hy with rfl | hy
      · exact hx
      · obtain ⟨i, hi, rfl⟩ := List.mem_iff_getElem.1 hy
        rw [List.length_drop] at hi
        rw [List.getElem_drop]
        exact IsTrans.trans _ _ _ hx
          (List.pairwise_iff_getElem.1 hsorted _ _ hk (by omega) (by omega))
    have hcount := (List.drop_sublist k l).countP_le (p := fun y ↦ decide (r x y))
    rw [List.countP_eq_length.2 fun y hy ↦ decide_eq_true (htail y hy), List.length_drop] at hcount
    omega
  · intro hcount
    by_contra hx
    have hhead : ∀ y ∈ l.take (k + 1), ¬ r x y := by
      intro y hy hxy
      obtain ⟨i, hi, rfl⟩ := List.mem_iff_getElem.1 hy
      rw [List.length_take] at hi
      rw [List.getElem_take] at hxy
      rcases Nat.lt_or_ge i k with hik | hik
      · exact hx (IsTrans.trans _ _ _ hxy
          (List.pairwise_iff_getElem.1 hsorted _ _ (by omega) hk hik))
      · have heq : i = k := by omega
        subst heq
        exact hx hxy
    have hsplit : l.countP (fun y ↦ r x y) = (l.drop (k + 1)).countP fun y ↦ r x y := by
      conv_lhs => rw [← List.take_append_drop (k + 1) l, List.countP_append]
      rw [List.countP_eq_zero.2 fun y hy ↦ by simpa using hhead y hy, Nat.zero_add]
    have hle := List.countP_le_length (p := fun y ↦ decide (r x y)) (l := l.drop (k + 1))
    rw [List.length_drop] at hle
    omega

/-- The same of a list that is sorted first. -/
theorem rel_getElem_insertionSort_iff [Std.Total r] {l : List α} {k : ℕ}
    (hk : k < (l.insertionSort r).length) (x : α) :
    r x (l.insertionSort r)[k] ↔ l.length ≤ k + l.countP fun y ↦ r x y := by
  rw [rel_getElem_iff_of_pairwise (List.pairwise_insertionSort r l) hk, List.length_insertionSort,
    (List.perm_insertionSort r l).countP_eq]

end Sorted

/-! ## Words -/

instance instTotalLeUInt32 : Std.Total (fun a b : UInt32 ↦ a ≤ b) := ⟨UInt32.le_total⟩

instance instIsTransLeUInt32 : IsTrans UInt32 (· ≤ ·) := ⟨fun _ _ _ ↦ UInt32.le_trans⟩

end Lib
