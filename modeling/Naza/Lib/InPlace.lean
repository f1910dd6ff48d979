import Mathlib

/-!
# Folding adjacent pairs in place

An array whose adjacent slots are combined pair by pair, each result written over a slot of the
same array.  Every slot carries the level at which it was written, and a read names the level it
expects: reading a slot that holds a later level's value, or none yet, ends the run.
-/

namespace Lib

/-- A value in an array and the level at which it was written. -/
structure Slot (α : Type) where
  level : ℕ
  value : α

/-- An array of which some slots have been written. -/
abbrev Slots (α : Type) := List (Option (Slot α))

namespace Slots

variable {α : Type}

/-- An array as it is allocated. -/
def fresh (size : ℕ) : Slots α := List.replicate size none

/-- The value of a slot that was last written at this level. -/
def read (level : ℕ) (slots : Slots α) (i : ℕ) : Option α :=
  match slots[i]? with
  | some (some slot) => if slot.level = level then some slot.value else none
  | _ => none

/-- Write a slot of the array. -/
def write (level : ℕ) (slots : Slots α) (i : ℕ) (value : α) : Option (Slots α) :=
  if i < slots.length then some (slots.set i (some ⟨level, value⟩)) else none

/-- Copy `n` values of another array to the front. -/
def copyIn (src : List α) (start n : ℕ) (slots : Slots α) : Option (Slots α) :=
  if start + n ≤ src.length ∧ n ≤ slots.length then
    some (((src.drop start).take n).map (fun x ↦ some ⟨0, x⟩) ++ slots.drop n)
  else none

/-- Combine pairs of another array from slot `j` on. -/
def pairsIn (combine : α → α → α) (src : List α) : ℕ → ℕ → ℕ → Slots α → Option (Slots α)
  | 0, _, _, slots => some slots
  | n + 1, i, j, slots => do
    let a ← src[i]?
    let b ← src[i + 1]?
    let slots ← write 0 slots j (combine a b)
    pairsIn combine src n (i + 2) (j + 1) slots

/-- Combine the pairs from slot `i` on into the slots from `j` on. -/
def foldPairs (combine : α → α → α) (level : ℕ) : ℕ → ℕ → ℕ → Slots α → Option (Slots α)
  | 0, _, _, slots => some slots
  | n + 1, i, j, slots => do
    let a ← read level slots i
    let b ← read level slots (i + 1)
    let slots ← write (level + 1) slots j (combine a b)
    foldPairs combine level n (i + 2) (j + 1) slots

/-- From a slot on the array holds these values, written at this level. -/
def Holds (slots : Slots α) (start level : ℕ) (xs : List α) : Prop :=
  ∀ k x, xs[k]? = some x → slots[start + k]? = some (some ⟨level, x⟩)

/-- Adjacent values combined. -/
def pairUp (combine : α → α → α) : List α → List α
  | a :: b :: rest => combine a b :: pairUp combine rest
  | _ => []

theorem length_pairUp (combine : α → α → α) {n : ℕ} {xs : List α} (h : xs.length = 2 * n) :
    (pairUp combine xs).length = n := by
  induction n generalizing xs with
  | zero =>
    rw [Nat.mul_zero, List.length_eq_zero_iff] at h
    rw [h, pairUp, List.length_nil]
    simp
  | succ n ih =>
    match xs, h with
    | a :: b :: rest, h =>
      rw [List.length_cons, List.length_cons] at h
      rw [pairUp, List.length_cons, ih (by omega)]

theorem read_of_holds {slots : Slots α} {start level k : ℕ} {xs : List α} {x : α}
    (h : slots.Holds start level xs) (hx : xs[k]? = some x) :
    slots.read level (start + k) = some x := by
  simp [read, h k x hx]

theorem write_eq_some {level j : ℕ} {slots : Slots α} (hj : j < slots.length) (x : α) :
    write level slots j x = some (slots.set j (some ⟨level, x⟩)) := if_pos hj

/-- A level that is folded where it lies: the slots written are behind the slots still read. -/
theorem foldPairs_spec (combine : α → α → α) {level n i j : ℕ} {slots : Slots α} {xs : List α}
    (hlength : xs.length = 2 * n) (hxs : slots.Holds i level xs) (hji : j ≤ i)
    (hsize : j + n ≤ slots.length) :
    ∃ slots', foldPairs combine level n i j slots = some slots' ∧
      slots'.length = slots.length ∧ slots'.Holds j (level + 1) (pairUp combine xs) ∧
        ∀ m < j, slots'[m]? = slots[m]? := by
  induction n generalizing i j slots xs with
  | zero =>
    rw [Nat.mul_zero, List.length_eq_zero_iff] at hlength
    subst hlength
    exact ⟨slots, rfl, rfl, fun k x hx ↦ by simp [pairUp] at hx, fun _ _ ↦ rfl⟩
  | succ n ih =>
    match xs, hlength with
    | a :: b :: rest, hlength =>
      rw [List.length_cons, List.length_cons] at hlength
      have ha : slots.read level (i + 0) = some a := read_of_holds hxs rfl
      have hb : slots.read level (i + 1) = some b := read_of_holds hxs rfl
      have hrest : Holds (slots.set j (some ⟨level + 1, combine a b⟩)) (i + 2) level rest := by
        intro k x hx
        rw [List.getElem?_set_ne (by omega), Nat.add_assoc, Nat.add_comm 2 k]
        exact hxs (k + 2) x hx
      obtain ⟨slots', hfold, hlen, hholds, hbelow⟩ := @ih (i + 2) (j + 1) _ _ (by omega) hrest
        (by omega) (by rw [List.length_set]; omega)
      refine ⟨slots', ?_, by rw [hlen, List.length_set], ?_, fun m hm ↦ ?_⟩
      · rw [foldPairs, ← Nat.add_zero i, ha, Nat.add_zero, hb]
        simp only [Option.bind_eq_bind, Option.bind_some]
        rw [write_eq_some (by omega), Option.bind_some, hfold]
      · intro k x hx
        cases k with
        | zero =>
          rw [pairUp, List.getElem?_cons_zero, Option.some.injEq] at hx
          rw [Nat.add_zero, hbelow j (Nat.lt_succ_self j), List.getElem?_set_self (by omega), hx]
        | succ k =>
          rw [pairUp, List.getElem?_cons_succ] at hx
          rw [← hholds k x hx]
          congr 1
          omega
      · rw [hbelow m (by omega), List.getElem?_set_ne (by omega)]

/-- Pairs of another array are combined behind what has been copied. -/
theorem pairsIn_spec (combine : α → α → α) {src : List α} {n i j : ℕ} {slots : Slots α}
    (hlength : i + 2 * n = src.length) (hsize : j + n ≤ slots.length) :
    ∃ slots', pairsIn combine src n i j slots = some slots' ∧ slots'.length = slots.length ∧
      slots'.Holds j 0 (pairUp combine (src.drop i)) ∧ ∀ m < j, slots'[m]? = slots[m]? := by
  induction n generalizing i j slots with
  | zero =>
    refine ⟨slots, rfl, rfl, fun k x hx ↦ ?_, fun _ _ ↦ rfl⟩
    rw [List.drop_eq_nil_of_le (by omega)] at hx
    simp [pairUp] at hx
  | succ n ih =>
    have ha : src[i]? = some src[i] := List.getElem?_eq_getElem (by omega)
    have hb : src[i + 1]? = some src[i + 1] := List.getElem?_eq_getElem (by omega)
    have hdrop : src.drop i = src[i] :: src[i + 1] :: src.drop (i + 2) := by
      rw [List.drop_eq_getElem_cons (by omega), List.drop_eq_getElem_cons (by omega)]
    obtain ⟨slots', hfold, hlen, hholds, hbelow⟩ := @ih (i + 2) (j + 1)
      (slots.set j (some ⟨0, combine src[i] src[i + 1]⟩)) (by omega)
      (by rw [List.length_set]; omega)
    refine ⟨slots', ?_, by rw [hlen, List.length_set], ?_, fun m hm ↦ ?_⟩
    · rw [pairsIn, ha, hb]
      simp only [Option.bind_eq_bind, Option.bind_some]
      rw [write_eq_some (by omega), Option.bind_some, hfold]
    · rw [hdrop, pairUp]
      intro k x hx
      cases k with
      | zero =>
        rw [List.getElem?_cons_zero, Option.some.injEq] at hx
        rw [Nat.add_zero, hbelow j (Nat.lt_succ_self j), List.getElem?_set_self (by omega), hx]
      | succ k =>
        rw [List.getElem?_cons_succ] at hx
        rw [← hholds k x hx]
        congr 1
        omega
    · rw [hbelow m (by omega), List.getElem?_set_ne (by omega)]

/-- A first level: some values copied, the others combined in pairs behind them. -/
theorem firstLevel_spec (combine : α → α → α) {src : List α} {start n m size : ℕ}
    (hlength : start + n + 2 * m = src.length) (hsize : n + m = size) :
    ∃ copied slots, copyIn src start n (fresh size) = some copied ∧
      pairsIn combine src m (start + n) n copied = some slots ∧ slots.length = size ∧
        slots.Holds 0 0 ((src.drop start).take n ++ pairUp combine (src.drop (start + n))) := by
  have hcopy : copyIn src start n (fresh size) =
      some (((src.drop start).take n).map (fun x ↦ some ⟨0, x⟩) ++ (fresh size).drop n) :=
    if_pos ⟨by omega, by rw [fresh, List.length_replicate]; omega⟩
  have hfront : ((src.drop start).take n).length = n := by
    rw [List.length_take, List.length_drop]
    omega
  obtain ⟨slots, hpairs, hlen, hholds, hbelow⟩ := @pairsIn_spec α combine src m (start + n) n
    (((src.drop start).take n).map (fun x ↦ some ⟨0, x⟩) ++ (fresh size).drop n) (by omega)
    (by simp only [List.length_append, List.length_map, hfront, List.length_drop, fresh,
          List.length_replicate]; omega)
  refine ⟨_, slots, hcopy, hpairs, ?_, fun k x hx ↦ ?_⟩
  · rw [hlen]
    simp only [List.length_append, List.length_map, hfront, List.length_drop, fresh,
      List.length_replicate]
    omega
  · rw [Nat.zero_add]
    rcases Nat.lt_or_ge k n with hk | hk
    · rw [List.getElem?_append_left (by omega)] at hx
      rw [hbelow k hk, List.getElem?_append_left (by rw [List.length_map]; omega),
        List.getElem?_map, hx, Option.map_some]
    · rw [List.getElem?_append_right (by omega), hfront] at hx
      rw [← hholds (k - n) x hx]
      congr 1
      omega

end Slots

end Lib
