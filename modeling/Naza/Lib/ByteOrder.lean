import Naza.Lib.Stream

/-!
# Byte strings in lexicographic order

The order of `std::memcmp` on unsigned bytes, a proper prefix first.  On strings of one length it
is the order of the numbers that the strings stand for.
-/

namespace Lib

theorem bytesToNat_cons (byte : UInt8) (bs : Bytes) :
    bytesToNat (byte :: bs) = byte.toNat * 256 ^ bs.length + bytesToNat bs := by
  rw [bytesToNat, List.foldl_cons, foldl_bytes, Nat.zero_mul, Nat.zero_add]

/-- Strings of one length are ordered as the numbers they stand for. -/
theorem lt_iff_bytesToNat_lt {a b : Bytes} (hlength : a.length = b.length) :
    a < b ↔ bytesToNat a < bytesToNat b := by
  induction a generalizing b with
  | nil =>
    rw [List.length_nil, eq_comm, List.length_eq_zero_iff] at hlength
    subst hlength
    simp
  | cons x a ih =>
    cases b with
    | nil => cases hlength
    | cons y b =>
      rw [List.length_cons, List.length_cons, Nat.add_right_cancel_iff] at hlength
      have ha := bytesToNat_lt a
      have hb := bytesToNat_lt b
      rw [hlength] at ha
      rw [List.cons_lt_cons_iff, ih hlength, bytesToNat_cons, bytesToNat_cons, hlength,
        UInt8.lt_iff_toNat_lt, ← UInt8.toNat_inj]
      rcases lt_trichotomy x.toNat y.toNat with h | h | h
      · have hstep := Nat.mul_le_mul_right (256 ^ b.length) (Nat.succ_le_of_lt h)
        rw [Nat.succ_mul] at hstep
        exact iff_of_true (Or.inl h) (by omega)
      · rw [h]
        simp
      · have hstep := Nat.mul_le_mul_right (256 ^ b.length) (Nat.succ_le_of_lt h)
        rw [Nat.succ_mul] at hstep
        exact iff_of_false (by omega) (by omega)

theorem natToBytes_lt_iff {n x y : ℕ} (hx : x < 256 ^ n) (hy : y < 256 ^ n) :
    natToBytes n x < natToBytes n y ↔ x < y := by
  rw [lt_iff_bytesToNat_lt (by simp), bytesToNat_natToBytes, bytesToNat_natToBytes,
    Nat.mod_eq_of_lt hx, Nat.mod_eq_of_lt hy]

theorem append_lt_append_iff (p : Bytes) {a b : Bytes} : p ++ a < p ++ b ↔ a < b := by
  induction p with
  | nil => rfl
  | cons x p ih => simp [ih]

/-- Strings that differ before either of them ends stay in order whatever follows them. -/
theorem append_lt_append_of_lt {a b : Bytes} (h : a < b) (hbegins : ¬a <+: b) (x y : Bytes) :
    a ++ x < b ++ y := by
  induction a generalizing b with
  | nil => exact absurd List.nil_prefix hbegins
  | cons c a ih =>
    cases b with
    | nil => exact absurd h (List.not_lt_nil _)
    | cons d b =>
      rw [List.cons_append, List.cons_append, List.cons_lt_cons_iff]
      rcases List.cons_lt_cons_iff.1 h with hcd | ⟨rfl, hab⟩
      · exact Or.inl hcd
      · exact Or.inr ⟨rfl, ih hab fun hp ↦ hbegins ((List.prefix_cons_inj c).2 hp)⟩

/-- The comparison under which a store of byte strings keeps its keys. -/
theorem compare_eq_lt_iff {a b : Bytes} : compare a b = .lt ↔ a < b := by
  induction a generalizing b with
  | nil => cases b <;> simp [compare, List.compareLex_nil_cons, List.compareLex_nil_nil]
  | cons x a ih =>
    cases b with
    | nil => simp [compare, List.compareLex_cons_nil]
    | cons y b =>
      have hcons : compare (x :: a) (y :: b) = (compare x y).then (compare a b) :=
        List.compareLex_cons_cons
      rw [hcons, Ordering.then_eq_lt, ih, List.cons_lt_cons_iff, Std.compare_eq_lt,
        Std.LawfulEqCmp.compare_eq_iff_eq]

/-- A number with its least significant byte first is read back from in front of anything. -/
theorem reverse_natToBytes_append (n x : ℕ) (rest : Bytes) :
    n ≤ ((natToBytes n x).reverse ++ rest).length ∧
      bytesToNat (((natToBytes n x).reverse ++ rest).take n).reverse = x % 256 ^ n ∧
      ((natToBytes n x).reverse ++ rest).drop n = rest := by
  have hlength : (natToBytes n x).reverse.length = n := by
    rw [List.length_reverse, length_natToBytes]
  refine ⟨?_, ?_, List.drop_left' hlength⟩
  · rw [List.length_append]
    omega
  · rw [List.take_left' hlength, List.reverse_reverse, bytesToNat_natToBytes]

end Lib
