import Naza.Lib.Store

/-!
# Tables with an undo log

A logged table remembers what each key held before its first write.  Rolling back puts those
values in place again; no logged write changes what a roll-back gives, so however often a key is
written between two savepoints, the table before the first write comes back exactly.
-/

set_option linter.unusedSectionVars false

namespace Lib

/-- A table and, for each key written since the last savepoint, its value before. -/
structure LoggedTable (K V : Type) [Ord K] where
  table : Store K V := ∅
  pending : Store K (Option V) := ∅

/-- The logged values in place of the present ones. -/
def Store.restore {K V : Type} [Ord K] [Std.TransOrd K] [Std.LawfulEqOrd K] (s : Store K V)
    (undo : Store K (Option V)) : Store K V :=
  undo.toList.foldl
    (fun s e ↦ match e.2 with
      | some v => s.put e.1 v
      | none => s.remove e.1) s

namespace LoggedTable

variable {K V : Type} [Ord K] [Std.TransOrd K] [Std.LawfulEqOrd K]

/-- The value of a key is logged before its first write. -/
def recordUndo (t : LoggedTable K V) (k : K) : LoggedTable K V :=
  match t.pending.get k with
  | some _ => t
  | none => { t with pending := t.pending.put k (t.table.get k) }

def put (t : LoggedTable K V) (k : K) (v : V) : LoggedTable K V :=
  let t := t.recordUndo k
  { t with table := t.table.put k v }

def remove (t : LoggedTable K V) (k : K) : LoggedTable K V :=
  let t := t.recordUndo k
  { t with table := t.table.remove k }

/-- A write that the table refuses where the key is present. -/
def putNew (t : LoggedTable K V) (k : K) (v : V) : Except StoreError (LoggedTable K V) :=
  match t.table.get k with
  | none => .ok (t.put k v)
  | some _ => .error .keyExists

/-- An erase that the table refuses where the key is absent. -/
def removeExisting (t : LoggedTable K V) (k : K) : Except StoreError (LoggedTable K V) :=
  match t.table.get k with
  | none => .error .keyMissing
  | some _ => .ok (t.remove k)

/-- The table as it was before the first logged write. -/
def rolledBack (t : LoggedTable K V) : Store K V := t.table.restore t.pending

/-- Nothing written since stays logged. -/
def settle (t : LoggedTable K V) : LoggedTable K V := { t with pending := ∅ }

end LoggedTable

/-! ## Restoring -/

section Restore

variable {K V : Type} [Ord K] [Std.TransOrd K] [Std.LawfulEqOrd K]

private theorem get_foldl_restore [DecidableEq K] (undo : List (K × Option V))
    (hkeys : (undo.map Prod.fst).Nodup) (s : Store K V) (a : K) :
    (undo.foldl (fun s e ↦ match e.2 with
      | some v => s.put e.1 v
      | none => s.remove e.1) s).get a =
        match undo.find? (fun e ↦ e.1 = a) with
        | some e => e.2
        | none => s.get a := by
  induction undo generalizing s with
  | nil => rfl
  | cons e undo ih =>
    obtain ⟨hnot, hkeys⟩ := List.nodup_cons.1 hkeys
    rw [List.foldl_cons, ih hkeys]
    by_cases heq : e.1 = a
    · have hnone : undo.find? (fun e ↦ e.1 = a) = none := by
        refine List.find?_eq_none.2 fun e' hmem hkey ↦ hnot ?_
        rw [heq, ← of_decide_eq_true hkey]
        exact List.mem_map_of_mem hmem
      rw [hnone, List.find?_cons_of_pos (by simpa using heq)]
      cases hv : e.2 with
      | none => simp [heq, hv]
      | some v => simp [heq, hv]
    · rw [List.find?_cons_of_neg (by simpa using heq)]
      cases undo.find? (fun e ↦ e.1 = a) with
      | some e' => rfl
      | none =>
        cases hv : e.2 with
        | none => exact Store.get_remove_of_ne s heq
        | some v => exact Store.get_put_of_ne s v heq

/-- A restored table holds what was logged, and elsewhere what it held. -/
theorem Store.get_restore (s : Store K V) (undo : Store K (Option V)) (a : K) :
    (s.restore undo).get a = match undo.get a with
      | some old => old
      | none => s.get a := by
  classical
  rw [restore, get_foldl_restore _ undo.nodup_keys_toList]
  cases hfind : undo.toList.find? (fun e ↦ e.1 = a) with
  | some e =>
    obtain ⟨k, old⟩ := e
    have hkey : k = a := by simpa using List.find?_some hfind
    have hmem := List.mem_of_find?_eq_some hfind
    rw [hkey] at hmem
    rw [Store.mem_toList_iff.1 hmem]
  | none =>
    cases hget : undo.get a with
    | none => rfl
    | some old =>
      have hmem := Store.mem_toList_iff.2 hget
      have hne := List.find?_eq_none.1 hfind _ hmem
      simp at hne

@[simp]
theorem Store.restore_empty (s : Store K V) : s.restore ∅ = s := by
  refine Store.ext fun a ↦ ?_
  rw [get_restore, get_empty]

end Restore

namespace LoggedTable

variable {K V : Type} [Ord K] [Std.TransOrd K] [Std.LawfulEqOrd K] {t t' : LoggedTable K V}

@[simp]
theorem table_recordUndo (t : LoggedTable K V) (k : K) : (t.recordUndo k).table = t.table := by
  unfold recordUndo
  split <;> rfl

theorem pending_recordUndo [DecidableEq K] (t : LoggedTable K V) (k a : K) :
    (t.recordUndo k).pending.get a =
      match t.pending.get a with
      | some old => some old
      | none => if k = a then some (t.table.get a) else none := by
  unfold recordUndo
  cases hk : t.pending.get k with
  | some old =>
    cases ha : t.pending.get a with
    | some old' => rfl
    | none =>
      have hne : k ≠ a := by
        rintro rfl
        rw [hk] at ha
        cases ha
      simp [hne]
  | none =>
    rw [Store.get_put]
    by_cases hka : k = a
    · subst hka
      simp [hk]
    · simp only [if_neg hka]
      cases t.pending.get a <;> rfl

/-- Writing the key that is logged does not change what a roll-back gives. -/
private theorem rolledBack_of_write (t : LoggedTable K V) (k : K) {table : Store K V}
    (h : ∀ a, k ≠ a → table.get a = t.table.get a) :
    ({ t.recordUndo k with table } : LoggedTable K V).rolledBack = t.rolledBack := by
  classical
  refine Store.ext fun a ↦ ?_
  rw [rolledBack, rolledBack, Store.get_restore, Store.get_restore, pending_recordUndo]
  cases t.pending.get a with
  | some old => rfl
  | none =>
    by_cases hka : k = a
    · simp [hka]
    · simp [hka, h a hka]

@[simp]
theorem table_put (t : LoggedTable K V) (k : K) (v : V) : (t.put k v).table = t.table.put k v := by
  simp [put]

@[simp]
theorem table_remove (t : LoggedTable K V) (k : K) : (t.remove k).table = t.table.remove k := by
  simp [remove]

@[simp]
theorem rolledBack_put (t : LoggedTable K V) (k : K) (v : V) :
    (t.put k v).rolledBack = t.rolledBack :=
  rolledBack_of_write t k fun a hne ↦ by
    rw [table_recordUndo, Store.get_put_of_ne _ _ hne]

@[simp]
theorem rolledBack_remove (t : LoggedTable K V) (k : K) :
    (t.remove k).rolledBack = t.rolledBack :=
  rolledBack_of_write t k fun a hne ↦ by
    rw [table_recordUndo, Store.get_remove_of_ne _ hne]

theorem putNew_eq_ok_iff {k : K} {v : V} :
    t.putNew k v = .ok t' ↔ t.table.get k = none ∧ t' = t.put k v := by
  unfold putNew
  cases t.table.get k with
  | none => simp [eq_comm]
  | some w => simp

theorem removeExisting_eq_ok_iff {k : K} :
    t.removeExisting k = .ok t' ↔ t.table.get k ≠ none ∧ t' = t.remove k := by
  unfold removeExisting
  cases t.table.get k with
  | none => simp
  | some w => simp [eq_comm]

end LoggedTable

/-! ## Entries as a multiset -/

namespace Store

variable {K V : Type} [Ord K] [Std.TransOrd K] [Std.LawfulEqOrd K]

/-- The values of a table. -/
def values (s : Store K V) : Multiset V := (s.toList.map Prod.snd : List V)

@[simp]
theorem values_empty : (∅ : Store K V).values = 0 := by
  have hnil : (∅ : Store K V).toList = [] := by
    refine List.eq_nil_iff_forall_not_mem.2 ?_
    rintro ⟨k, v⟩ hmem
    rw [mem_toList_iff, get_empty] at hmem
    cases hmem
  rw [values, hnil]
  rfl

theorem mem_values_iff {s : Store K V} {v : V} : v ∈ s.values ↔ ∃ k, s.get k = some v := by
  simp only [values, Multiset.mem_coe, List.mem_map, Prod.exists, mem_toList_iff]
  constructor
  · rintro ⟨k, v', hget, rfl⟩
    exact ⟨k, hget⟩
  · rintro ⟨k, hget⟩
    exact ⟨k, v, hget, rfl⟩

theorem values_put (s : Store K V) {k : K} (v : V) (h : s.get k = none) :
    (s.put k v).values = v ::ₘ s.values :=
  Quotient.sound ((s.toList_put_perm v h).map Prod.snd)

theorem values_of_get (s : Store K V) {k : K} {v : V} (h : s.get k = some v) :
    s.values = v ::ₘ (s.remove k).values := by
  conv_lhs => rw [← put_remove s h]
  exact values_put _ v (by simp)

end Store

end Lib
