import Mathlib.Data.List.GetD
import Mathlib.Tactic.Common

/-!
# Memory used as a ring

A list of cells whose positions are counted on past its end: what stands between two positions,
and what a write within the cells leaves of it.
-/

namespace Lib.Ring

variable {α : Type}

/-- The cell at a position. -/
def cellAt [Inhabited α] (cells : List α) (i : ℕ) : α := cells.getD (i % cells.length) default

/-- What stands from position `r` up to position `w`. -/
def stored [Inhabited α] (cells : List α) (r w : ℕ) : List α :=
  (List.range' r (w - r)).map (cellAt cells)

/-- The cells from `p` on written over. -/
def overwrite (cells : List α) (p : ℕ) (data : List α) : List α :=
  cells.take p ++ (data ++ cells.drop (p + data.length))

variable {cells data : List α} {i m p r w : ℕ}

/-! ## Writing -/

theorem length_overwrite (hp : p + data.length ≤ cells.length) :
    (overwrite cells p data).length = cells.length := by
  rw [overwrite, List.length_append, List.length_append, List.length_take, List.length_drop]
  omega

/-- What was written stands where it was written. -/
theorem take_drop_overwrite (hp : p + data.length ≤ cells.length) :
    ((overwrite cells p data).drop p).take data.length = data := by
  have htake : (cells.take p).length = p := by
    rw [List.length_take]
    omega
  rw [overwrite, List.drop_append_of_le_length (Nat.le_of_eq htake.symm),
    List.drop_of_length_le (Nat.le_of_eq htake), List.nil_append, List.take_left]

/-- The other cells stay as they are. -/
theorem getD_overwrite_of_not (hp : p + data.length ≤ cells.length)
    (hi : i < p ∨ p + data.length ≤ i) (d : α) :
    (overwrite cells p data).getD i d = cells.getD i d := by
  have htake : (cells.take p).length = p := by
    rw [List.length_take]
    omega
  rw [overwrite, List.getD_eq_getElem?_getD, List.getD_eq_getElem?_getD]
  rcases hi with hi | hi
  · rw [List.getElem?_append_left (by omega), List.getElem?_take, if_pos hi]
  · rw [List.getElem?_append_right (by omega), htake, List.getElem?_append_right (by omega),
      List.getElem?_drop]
    congr 2
    omega

/-! ## What is stored -/

variable [Inhabited α]

@[simp]
theorem length_stored (cells : List α) (r w : ℕ) : (stored cells r w).length = w - r := by
  rw [stored, List.length_map, List.length_range']

@[simp]
theorem stored_self (cells : List α) (r : ℕ) : stored cells r r = [] := by
  rw [stored, Nat.sub_self]
  rfl

theorem stored_append (hr : r ≤ m) (hw : m ≤ w) :
    stored cells r w = stored cells r m ++ stored cells m w := by
  have hrange := List.range'_append_1 (s := r) (m := m - r) (n := w - m)
  have hm : r + (m - r) = m := by omega
  have hlength : m - r + (w - m) = w - r := by omega
  rw [hm, hlength] at hrange
  rw [stored, stored, stored, ← List.map_append, hrange]

/-- Once around the ring the same cells come again. -/
theorem stored_add_length (cells : List α) (r w : ℕ) :
    stored cells (r + cells.length) (w + cells.length) = stored cells r w := by
  have hlength : w + cells.length - (r + cells.length) = w - r := by omega
  rw [stored, stored, hlength, Nat.add_comm r, List.range'_eq_map_range, List.range'_eq_map_range,
    List.map_map, List.map_map]
  apply List.map_congr_left
  intro i _
  simp only [Function.comp_apply, cellAt]
  rw [Nat.add_assoc, Nat.add_mod_left]

/-- Within the cells no position is beyond the end. -/
theorem stored_of_le (hw : w ≤ cells.length) : stored cells r w = (cells.drop r).take (w - r) := by
  apply List.ext_getElem
  · rw [length_stored, List.length_take, List.length_drop]
    omega
  · intro i hi _
    rw [length_stored] at hi
    have hlt : r + i < cells.length := by omega
    simp only [stored, List.getElem_map, List.getElem_range', cellAt, List.getElem_take,
      List.getElem_drop, Nat.one_mul, Nat.mod_eq_of_lt hlt, List.getD_eq_getElem _ _ hlt]

theorem stored_of_ge (hr : cells.length ≤ r) (hw : w ≤ 2 * cells.length) :
    stored cells r w = (cells.drop (r - cells.length)).take (w - r) := by
  by_cases hle : r ≤ w
  · have hshift := stored_add_length cells (r - cells.length) (w - cells.length)
    have hr' : r - cells.length + cells.length = r := by omega
    have hw' : w - cells.length + cells.length = w := by omega
    have hlength : w - cells.length - (r - cells.length) = w - r := by omega
    rw [hr', hw'] at hshift
    rw [hshift, stored_of_le (by omega), hlength]
  · have hzero : w - r = 0 := by omega
    rw [stored, hzero, List.take_zero]
    rfl

/-- A write beside what is stored leaves it alone. -/
theorem stored_overwrite_of_not (hp : p + data.length ≤ cells.length)
    (hi : ∀ i, r ≤ i → i < w → i % cells.length < p ∨ p + data.length ≤ i % cells.length) :
    stored (overwrite cells p data) r w = stored cells r w := by
  apply List.map_congr_left
  intro i hmem
  rw [List.mem_range'_1] at hmem
  rw [cellAt, length_overwrite hp, getD_overwrite_of_not hp (hi i hmem.1 (by omega)), cellAt]

end Lib.Ring
