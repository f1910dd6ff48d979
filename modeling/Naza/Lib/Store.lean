import Mathlib

/-!
# Ordered key-value stores

A store is a finite map whose keys are kept in ascending order: the model of a `std::map` and of
one table of an ordered key-value database.  Besides the plain `put` and `erase` there are the two
checked database writes: `putNew`, which refuses to overwrite a key, and `eraseExisting`, which
refuses to erase an absent one.  Equal lookups mean equal stores, so "exactly the former content"
is an equation.
-/

set_option linter.unusedSectionVars false

namespace Lib

/-- Pairs are compared component by component, as concatenated database keys are. -/
instance instOrdPair {α β : Type} [Ord α] [Ord β] : Ord (α × β) := lexOrd

/-- A finite map with ascending keys. -/
abbrev Store (K V : Type) [Ord K] := Std.ExtTreeMap K V compare

/-- Why a checked database write failed. -/
inductive StoreError where
  | keyExists
  | keyMissing
  deriving DecidableEq, Repr

namespace Store

variable {K V : Type} [Ord K] [Std.TransOrd K] [Std.LawfulEqOrd K]

/-- The value stored under a key. -/
def get (s : Store K V) (k : K) : Option V := s[k]?

/-- Write a value, replacing the former one. -/
def put (s : Store K V) (k : K) (v : V) : Store K V := s.insert k v

/-- Erase a key, present or not. -/
def remove (s : Store K V) (k : K) : Store K V := s.erase k

/-- Write a value under a key that must be new. -/
def putNew (s : Store K V) (k : K) (v : V) : Except StoreError (Store K V) :=
  match s.get k with
  | none => .ok (s.put k v)
  | some _ => .error .keyExists

/-- Erase a key that must be present. -/
def removeExisting (s : Store K V) (k : K) : Except StoreError (Store K V) :=
  match s.get k with
  | none => .error .keyMissing
  | some _ => .ok (s.remove k)

/-- The entry with the smallest key. -/
def first (s : Store K V) : Option (K × V) := s.toList.head?

/-- The entry with the largest key among those whose key satisfies `p`: a cursor placed at the
end of a key range. -/
def lastWhere (s : Store K V) (p : K → Bool) : Option (K × V) :=
  (s.toList.filter fun e ↦ p e.1).getLast?

/-! ## Lookup laws -/

@[ext]
theorem ext {s t : Store K V} (h : ∀ k, s.get k = t.get k) : s = t :=
  Std.ExtTreeMap.ext_getElem? h

@[simp]
theorem get_empty (k : K) : (∅ : Store K V).get k = none := by
  simp [get]

theorem get_put [DecidableEq K] (s : Store K V) (k a : K) (v : V) :
    (s.put k v).get a = if k = a then some v else s.get a := by
  simp [get, put, Std.ExtTreeMap.getElem?_insert, Std.LawfulEqCmp.compare_eq_iff_eq]

@[simp]
theorem get_put_self (s : Store K V) (k : K) (v : V) : (s.put k v).get k = some v := by
  classical simp [get_put]

theorem get_put_of_ne (s : Store K V) {k a : K} (v : V) (h : k ≠ a) :
    (s.put k v).get a = s.get a := by
  classical simp [get_put, h]

theorem get_remove [DecidableEq K] (s : Store K V) (k a : K) :
    (s.remove k).get a = if k = a then none else s.get a := by
  simp [get, remove, Std.ExtTreeMap.getElem?_erase, Std.LawfulEqCmp.compare_eq_iff_eq]

@[simp]
theorem get_remove_self (s : Store K V) (k : K) : (s.remove k).get k = none := by
  classical simp [get_remove]

theorem get_remove_of_ne (s : Store K V) {k a : K} (h : k ≠ a) :
    (s.remove k).get a = s.get a := by
  classical simp [get_remove, h]

/-! ## Writes that undo each other -/

theorem remove_put (s : Store K V) {k : K} (v : V) (h : s.get k = none) :
    (s.put k v).remove k = s := by
  classical
  ext a
  by_cases hka : k = a
  · subst hka
    simp [h]
  · simp [get_remove, get_put, hka]

theorem put_remove (s : Store K V) {k : K} {v : V} (h : s.get k = some v) :
    (s.remove k).put k v = s := by
  classical
  refine Store.ext fun a ↦ ?_
  rw [get_put, get_remove]
  split
  · next hka => rw [← hka, h]
  · rfl

/-! ## Several writes -/

/-- Entries written one after the other. -/
def putAll (s : Store K V) (entries : List (K × V)) : Store K V :=
  entries.foldl (fun s e ↦ s.put e.1 e.2) s

/-- Keys erased one after the other. -/
def removeAll (s : Store K V) (keys : List K) : Store K V := keys.foldl remove s

theorem get_removeAll [DecidableEq K] (s : Store K V) (keys : List K) (a : K) :
    (s.removeAll keys).get a = if a ∈ keys then none else s.get a := by
  unfold removeAll
  induction keys generalizing s with
  | nil => simp
  | cons k keys ih =>
    rw [List.foldl_cons, ih, get_remove]
    by_cases hmem : a ∈ keys
    · simp [hmem]
    · by_cases hka : k = a
      · simp [hka]
      · simp [hmem, hka, Ne.symm hka]

theorem get_putAll_of_not_mem (s : Store K V) {entries : List (K × V)} {a : K}
    (h : a ∉ entries.map Prod.fst) : (s.putAll entries).get a = s.get a := by
  unfold putAll
  induction entries generalizing s with
  | nil => rfl
  | cons e entries ih =>
    rw [List.map_cons, List.mem_cons, not_or] at h
    rw [List.foldl_cons, ih _ h.2, get_put_of_ne _ _ (Ne.symm h.1)]

/-- Erasing what was written under new keys. -/
theorem removeAll_putAll (s : Store K V) {entries : List (K × V)}
    (h : ∀ k ∈ entries.map Prod.fst, s.get k = none) :
    (s.putAll entries).removeAll (entries.map Prod.fst) = s := by
  classical
  refine Store.ext fun a ↦ ?_
  rw [get_removeAll]
  split
  · next hmem => rw [h a hmem]
  · next hmem => exact get_putAll_of_not_mem s hmem

/-! ## Checked writes -/

theorem putNew_eq_ok_iff {s t : Store K V} {k : K} {v : V} :
    s.putNew k v = .ok t ↔ s.get k = none ∧ t = s.put k v := by
  unfold putNew
  cases h : s.get k with
  | none => simp [eq_comm]
  | some w => simp

theorem putNew_of_none {s : Store K V} {k : K} (v : V) (h : s.get k = none) :
    s.putNew k v = .ok (s.put k v) := by
  simp [putNew, h]

theorem removeExisting_eq_ok_iff {s t : Store K V} {k : K} :
    s.removeExisting k = .ok t ↔ s.get k ≠ none ∧ t = s.remove k := by
  unfold removeExisting
  cases h : s.get k with
  | none => simp
  | some w => simp [eq_comm]

/-! ## Entries -/

theorem mem_toList_iff {s : Store K V} {k : K} {v : V} :
    (k, v) ∈ s.toList ↔ s.get k = some v :=
  Std.ExtTreeMap.mem_toList_iff_getElem?_eq_some

theorem pairwise_toList (s : Store K V) :
    s.toList.Pairwise fun a b ↦ compare a.1 b.1 = .lt :=
  Std.ExtTreeMap.ordered_keys_toList

/-- The keys listed are pairwise different. -/
theorem nodup_keys_toList (s : Store K V) : (s.toList.map Prod.fst).Nodup := by
  rw [List.nodup_iff_pairwise_ne, List.pairwise_map]
  refine s.pairwise_toList.imp ?_
  intro a b hab heq
  rw [heq, Std.ReflOrd.compare_self] at hab
  cases hab

/-- A present key in range that no other key in range exceeds is where the cursor stands. -/
theorem lastWhere_eq_some {s : Store K V} {p : K → Bool} {k : K} {v : V}
    (hk : s.get k = some v) (hp : p k = true)
    (hmax : ∀ k' v', s.get k' = some v' → p k' = true → compare k k' ≠ .lt) :
    s.lastWhere p = some (k, v) := by
  have hmem : (k, v) ∈ s.toList.filter fun e ↦ p e.1 := by
    simpa [hp] using mem_toList_iff.2 hk
  obtain ⟨pre, post, hsplit⟩ := List.append_of_mem hmem
  have hsorted : (s.toList.filter fun e ↦ p e.1).Pairwise fun a b ↦ compare a.1 b.1 = .lt :=
    s.pairwise_toList.filter _
  have hpost : post = [] := by
    cases post with
    | nil => rfl
    | cons e rest =>
      have hemem : e ∈ s.toList.filter fun e ↦ p e.1 := by
        rw [hsplit]
        simp
      rw [hsplit, List.pairwise_append] at hsorted
      have hlt := List.rel_of_pairwise_cons hsorted.2.1 (List.mem_cons_self (a := e) (l := rest))
      have hin := List.mem_filter.1 hemem
      exact absurd hlt (hmax e.1 e.2 (mem_toList_iff.1 hin.1) hin.2)
  rw [lastWhere, hsplit, hpost]
  simp

/-- With no key in range the cursor is at the end. -/
theorem lastWhere_eq_none {s : Store K V} {p : K → Bool}
    (h : ∀ k v, s.get k = some v → p k = false) : s.lastWhere p = none := by
  rw [lastWhere, List.getLast?_eq_none_iff, List.filter_eq_nil_iff]
  intro e he
  simp [h e.1 e.2 (mem_toList_iff.1 he)]

/-- The cursor stands on a stored entry of its range. -/
theorem get_of_lastWhere {s : Store K V} {p : K → Bool} {k : K} {v : V}
    (h : s.lastWhere p = some (k, v)) : s.get k = some v ∧ p k = true := by
  have hmem := List.mem_of_getLast? h
  obtain ⟨hin, hp⟩ := List.mem_filter.1 hmem
  exact ⟨mem_toList_iff.1 hin, hp⟩

theorem get_of_first {s : Store K V} {k : K} {v : V} (h : s.first = some (k, v)) :
    s.get k = some v :=
  mem_toList_iff.1 (List.mem_of_head? h)

/-- No key is below the first one. -/
theorem compare_ne_lt_of_first {s : Store K V} {k a : K} {v w : V} (h : s.first = some (k, v))
    (ha : s.get a = some w) : compare a k ≠ .lt := by
  obtain ⟨rest, hlist⟩ := List.head?_eq_some_iff.1 h
  have hmem : (a, w) ∈ s.toList := mem_toList_iff.2 ha
  have hsorted := s.pairwise_toList
  rw [hlist] at hmem hsorted
  intro hlt
  rcases List.mem_cons.1 hmem with heq | hmem
  · rw [(Prod.mk.inj heq).1, Std.ReflOrd.compare_self] at hlt
    cases hlt
  · have hgt := List.rel_of_pairwise_cons hsorted hmem
    rw [Std.OrientedOrd.eq_swap, hlt] at hgt
    cases hgt

/-- No key that passes a test is below the first one that does. -/
theorem compare_ne_lt_of_find? {s : Store K V} {p : K × V → Bool} {e : K × V}
    (h : s.toList.find? p = some e) {a : K} {w : V} (ha : s.get a = some w) (hp : p (a, w) = true) :
    compare a e.1 ≠ .lt := by
  obtain ⟨-, before, after, hlist, hbefore⟩ := List.find?_eq_some_iff_append.1 h
  have hmem : (a, w) ∈ s.toList := mem_toList_iff.2 ha
  have hsorted := s.pairwise_toList
  rw [hlist] at hmem hsorted
  intro hlt
  rcases List.mem_append.1 hmem with hmem | hmem
  · have hnot := hbefore _ hmem
    rw [hp] at hnot
    cases hnot
  · rcases List.mem_cons.1 hmem with heq | hmem
    · rw [← heq, Std.ReflOrd.compare_self] at hlt
      cases hlt
    · have hgt := List.rel_of_pairwise_cons (List.pairwise_append.1 hsorted).2.1 hmem
      rw [Std.OrientedOrd.eq_swap, hlt] at hgt
      cases hgt

theorem first_eq_none_iff {s : Store K V} : s.first = none ↔ ∀ k, s.get k = none := by
  constructor
  · intro h k
    rw [first, List.head?_eq_none_iff] at h
    rw [Option.eq_none_iff_forall_ne_some]
    intro v hv
    have hmem := mem_toList_iff.2 hv
    rw [h] at hmem
    cases hmem
  · intro h
    rw [first, List.head?_eq_none_iff, List.eq_nil_iff_forall_not_mem]
    rintro ⟨k, v⟩ hmem
    have hget := mem_toList_iff.1 hmem
    rw [h k] at hget
    cases hget

theorem first_isNone_iff {s : Store K V} : s.first.isNone ↔ ∀ k, s.get k = none := by
  rw [Option.isNone_iff_eq_none, first_eq_none_iff]

/-! ## Sums over the entries -/

/-- The sum of a weight over all values. -/
def total (f : V → ℕ) (s : Store K V) : ℕ := (s.toList.map fun e ↦ f e.2).sum

@[simp]
theorem total_empty (f : V → ℕ) : (∅ : Store K V).total f = 0 := by
  have hnil : (∅ : Store K V).toList = [] := by
    rw [List.eq_nil_iff_forall_not_mem]
    rintro ⟨k, v⟩ hmem
    rw [mem_toList_iff, get_empty] at hmem
    cases hmem
  rw [total, hnil]
  rfl

theorem toList_put_perm (s : Store K V) {k : K} (v : V) (h : s.get k = none) :
    (s.put k v).toList.Perm ((k, v) :: s.toList) := by
  classical
  have hnot : (k, v) ∉ s.toList := fun hmem ↦ by
    rw [mem_toList_iff, h] at hmem
    cases hmem
  refine (List.perm_ext_iff_of_nodup (List.Nodup.of_map _ (nodup_keys_toList _))
    (List.nodup_cons.2 ⟨hnot, List.Nodup.of_map _ (nodup_keys_toList s)⟩)).2 ?_
  rintro ⟨a, w⟩
  rw [mem_toList_iff, get_put, List.mem_cons, mem_toList_iff, Prod.mk.injEq]
  by_cases hka : k = a
  · subst hka
    simp [h, eq_comm]
  · simp [hka, Ne.symm hka]

theorem total_put (f : V → ℕ) (s : Store K V) {k : K} (v : V) (h : s.get k = none) :
    (s.put k v).total f = f v + s.total f := by
  rw [total, ((s.toList_put_perm v h).map _).sum_eq, List.map_cons, List.sum_cons, total]

theorem total_remove (f : V → ℕ) (s : Store K V) {k : K} {v : V} (h : s.get k = some v) :
    s.total f = f v + (s.remove k).total f := by
  conv_lhs => rw [← put_remove s h]
  exact total_put f _ v (by simp)

end Store

end Lib
