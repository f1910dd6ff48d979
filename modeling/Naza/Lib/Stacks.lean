import Naza.Lib.Store

/-!
# Stores of stacks

A store whose values hold elements, taken as one bag, and stores of stacks from which elements are
popped and onto which they are pushed.  A stack that becomes empty is erased.
-/

namespace Lib

variable {K V α : Type} [Ord K] [Std.TransOrd K] [Std.LawfulEqOrd K]

namespace Store

/-- The elements that the values hold, as one bag. -/
def gather (f : V → Multiset α) (s : Store K V) : Multiset α := (s.toList.map fun e ↦ f e.2).sum

@[simp]
theorem gather_empty (f : V → Multiset α) : (∅ : Store K V).gather f = 0 := by
  have hnil : (∅ : Store K V).toList = [] := by
    rw [List.eq_nil_iff_forall_not_mem]
    rintro ⟨k, v⟩ hmem
    rw [mem_toList_iff, get_empty] at hmem
    cases hmem
  rw [gather, hnil]
  rfl

theorem gather_put (f : V → Multiset α) {s : Store K V} {k : K} (v : V) (h : s.get k = none) :
    (s.put k v).gather f = f v + s.gather f := by
  rw [gather, ((s.toList_put_perm v h).map _).sum_eq, List.map_cons, List.sum_cons, gather]

theorem gather_remove (f : V → Multiset α) {s : Store K V} {k : K} {v : V}
    (h : s.get k = some v) : s.gather f = f v + (s.remove k).gather f := by
  conv_lhs => rw [← put_remove s h]
  exact gather_put f v (by simp)

/-- A value put over another one. -/
theorem gather_put_of_get (f : V → Multiset α) {s : Store K V} {k : K} {v : V} (w : V)
    (h : s.get k = some v) : s.gather f + f w = (s.put k w).gather f + f v := by
  have hput : s.put k w = (s.remove k).put k w := by
    classical
    refine ext fun a ↦ ?_
    rw [get_put, get_put, get_remove]
    split <;> rfl
  rw [hput, gather_put f w (by simp), gather_remove f h]
  abel

theorem mem_gather {f : V → Multiset α} {s : Store K V} {a : α} :
    a ∈ s.gather f ↔ ∃ k v, s.get k = some v ∧ a ∈ f v := by
  have hsum : ∀ l : List (Multiset α), a ∈ l.sum ↔ ∃ m ∈ l, a ∈ m := by
    intro l
    induction l with
    | nil => simp
    | cons m l ih => simp [ih]
  rw [gather, hsum]
  simp only [List.mem_map, Prod.exists, mem_toList_iff]
  constructor
  · rintro ⟨_, ⟨k, v, hget, rfl⟩, hmem⟩
    exact ⟨k, v, hget, hmem⟩
  · rintro ⟨k, v, hget, hmem⟩
    exact ⟨_, ⟨k, v, hget, rfl⟩, hmem⟩

theorem toList_eq_nil_iff {s : Store K V} : s.toList = [] ↔ ∀ k, s.get k = none := by
  rw [← first_eq_none_iff, first, List.head?_eq_none_iff]

omit [Std.LawfulEqOrd K] in
theorem gather_of_toList_eq_nil (f : V → Multiset α) {s : Store K V} (h : s.toList = []) :
    s.gather f = 0 := by
  rw [gather, h]
  rfl

end Store

/-- Stacks under keys; the head of a list is the top of a stack. -/
abbrev Stacks (K α : Type) [Ord K] := Store K (List α)

namespace Stacks

variable {s t : Stacks K α} {k : K} {a : α}

/-- The elements of all stacks. -/
def contents (s : Stacks K α) : Multiset α := Store.gather Multiset.ofList s

/-- An element on top of the stack of a key. -/
def push (s : Stacks K α) (k : K) (a : α) : Stacks K α :=
  Store.put s k (a :: (Store.get s k).getD [])

/-- The top of the stack of a key. -/
def pop (s : Stacks K α) (k : K) : Option (α × Stacks K α) :=
  match Store.get s k with
  | some (a :: l) => some (a, if l.isEmpty then Store.remove s k else Store.put s k l)
  | _ => none

/-- No stack is empty. -/
def Filled (s : Stacks K α) : Prop := ∀ k l, Store.get s k = some l → l ≠ []

theorem contents_push : (s.push k a).contents = a ::ₘ s.contents := by
  rw [push, contents, contents]
  cases h : Store.get s k with
  | none =>
    rw [Store.gather_put _ _ h]
    simp
  | some l =>
    have hput := Store.gather_put_of_get Multiset.ofList (a :: l) h
    rw [← Multiset.cons_coe, Multiset.add_cons, ← Multiset.cons_add] at hput
    exact (add_right_cancel hput).symm

theorem contents_pop (h : s.pop k = some (a, t)) : s.contents = a ::ₘ t.contents := by
  rw [pop] at h
  split at h
  · next b l hget =>
    cases h
    split
    · next hnil =>
      rw [List.isEmpty_iff] at hnil
      rw [contents, Store.gather_remove _ hget, hnil]
      rfl
    · have hput := Store.gather_put_of_get Multiset.ofList l hget
      rw [← Multiset.cons_coe, Multiset.add_cons, ← Multiset.cons_add] at hput
      exact add_right_cancel hput
  · cases h

theorem filled_empty : (∅ : Stacks K α).Filled := fun k l h ↦ by
  rw [Store.get_empty] at h
  cases h

theorem Filled.push (h : s.Filled) (k : K) (a : α) : (s.push k a).Filled := by
  classical
  intro j l hget
  rw [Stacks.push, Store.get_put] at hget
  split at hget
  · cases hget
    exact List.cons_ne_nil _ _
  · exact h j l hget

theorem Filled.pop (h : s.Filled) (hpop : s.pop k = some (a, t)) : t.Filled := by
  classical
  rw [Stacks.pop] at hpop
  split at hpop
  · next b l hget =>
    cases hpop
    intro j m hm
    split at hm
    · rw [Store.get_remove] at hm
      split at hm
      · cases hm
      · exact h j m hm
    · next hnil =>
      rw [Store.get_put] at hm
      split at hm
      · cases hm
        rwa [List.isEmpty_iff] at hnil
      · exact h j m hm
  · cases hpop

omit [Std.LawfulEqOrd K] in
/-- A stack that is there has a top. -/
theorem Filled.exists_pop (h : s.Filled) {l : List α} (hget : Store.get s k = some l) :
    ∃ a t, s.pop k = some (a, t) := by
  cases l with
  | nil => exact absurd rfl (h k [] hget)
  | cons a l => exact ⟨a, _, by rw [Stacks.pop, hget]⟩

/-- What is popped off one stack leaves the others. -/
theorem get_pop_of_ne (hpop : s.pop k = some (a, t)) {j : K} (hne : k ≠ j) :
    Store.get t j = Store.get s j := by
  rw [pop] at hpop
  split at hpop
  · cases hpop
    split
    · exact Store.get_remove_of_ne _ hne
    · exact Store.get_put_of_ne _ _ hne
  · cases hpop

/-- A stack of at least two elements is there after a pop. -/
theorem get_pop_self {l : List α} (hget : Store.get s k = some l) (hlen : 2 ≤ l.length)
    (hpop : s.pop k = some (a, t)) : Store.get t k = some l.tail := by
  rw [pop, hget] at hpop
  match l, hlen with
  | b :: c :: l, _ =>
    cases hpop
    exact Store.get_put_self _ _ _

end Stacks

end Lib
