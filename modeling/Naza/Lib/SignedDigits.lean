import Naza.Lib.Stream

/-!
# Signed digits

Numbers as lists of digits of any sign in a base, lowest digit first: their value, its sign, the
multiples of group elements that Horner's rule computes from them, and what adding one with carry
does to bits.
-/

namespace Lib

/-- The value of signed digits in a base, lowest digit first. -/
def ofSigned (base : ℤ) : List ℤ → ℤ
  | [] => 0
  | d :: ds => d + base * ofSigned base ds

theorem ofSigned_append (base : ℤ) (as bs : List ℤ) :
    ofSigned base (as ++ bs) = ofSigned base as + base ^ as.length * ofSigned base bs := by
  induction as with
  | nil => simp [ofSigned]
  | cons a as ih =>
    rw [List.cons_append, ofSigned, ofSigned, ih, List.length_cons, pow_succ]
    ring

theorem ofSigned_zipWith_sub (base : ℤ) {as bs : List ℤ} (h : as.length = bs.length) :
    ofSigned base (List.zipWith (· - ·) as bs) = ofSigned base as - ofSigned base bs := by
  induction as generalizing bs with
  | nil =>
    obtain rfl := List.length_eq_zero_iff.1 h.symm
    rfl
  | cons a as ih =>
    cases bs with
    | nil => cases h
    | cons b bs =>
      rw [List.zipWith_cons_cons, ofSigned, ofSigned, ofSigned, ih (Nat.succ.inj h)]
      ring

/-- The highest digit that is not zero has the sign of the whole number, as long as no digit
reaches the base. -/
theorem sign_ofSigned {base : ℤ} {ds : List ℤ} (h : ∀ d ∈ ds, |d| < base) :
    (ofSigned base ds).sign = (ofSigned 2 (ds.map Int.sign)).sign := by
  induction ds with
  | nil => rfl
  | cons d ds ih =>
    have hd := abs_lt.1 (h d List.mem_cons_self)
    have hbase : 0 < base := lt_of_le_of_lt (abs_nonneg d) (h d List.mem_cons_self)
    have hsign := ih fun d' hd' ↦ h d' (List.mem_cons_of_mem _ hd')
    have hlow : -1 ≤ d.sign ∧ d.sign ≤ 1 := by
      rcases Int.sign_trichotomy d with hd' | hd' | hd' <;> omega
    rw [List.map_cons, ofSigned, ofSigned]
    rcases lt_trichotomy (ofSigned base ds) 0 with hv | hv | hv
    · rw [Int.sign_eq_neg_one_of_neg hv, eq_comm, Int.sign_eq_neg_one_iff_neg] at hsign
      have hmul : base * ofSigned base ds ≤ base * -1 :=
        mul_le_mul_of_nonneg_left (by omega) hbase.le
      rw [Int.sign_eq_neg_one_of_neg (by omega), Int.sign_eq_neg_one_of_neg (by omega)]
    · rw [hv, Int.sign_zero, eq_comm, Int.sign_eq_zero_iff_zero] at hsign
      rw [hv, hsign, mul_zero, mul_zero, add_zero, add_zero, Int.sign_sign]
    · rw [Int.sign_eq_one_of_pos hv, eq_comm, Int.sign_eq_one_iff_pos] at hsign
      have hmul : base * 1 ≤ base * ofSigned base ds :=
        mul_le_mul_of_nonneg_left (by omega) hbase.le
      rw [Int.sign_eq_one_of_pos (by omega), Int.sign_eq_one_of_pos (by omega)]

/-! ## Horner's rule -/

section Horner

variable {P : Type} [AddCommGroup P]

/-- Two numbers digit by digit, from the highest digit down. -/
theorem foldr_zip_ofSigned (base : ℤ) (p q : P) {as bs : List ℤ} (h : as.length = bs.length) :
    (as.zip bs).foldr (fun d r ↦ base • r + d.1 • p + d.2 • q) 0 =
      ofSigned base as • p + ofSigned base bs • q := by
  induction as generalizing bs with
  | nil =>
    obtain rfl := List.length_eq_zero_iff.1 h.symm
    simp [ofSigned]
  | cons a as ih =>
    cases bs with
    | nil => cases h
    | cons b bs =>
      rw [List.zip_cons_cons, List.foldr_cons, ih (Nat.succ.inj h), ofSigned, ofSigned]
      simp only [smul_add, add_smul, mul_smul]
      abel

theorem foldr_ofSigned (base : ℤ) (p : P) (ds : List ℤ) :
    ds.foldr (fun d r ↦ base • r + d • p) 0 = ofSigned base ds • p := by
  induction ds with
  | nil => simp [ofSigned]
  | cons d ds ih =>
    rw [List.foldr_cons, ih, ofSigned, add_smul, mul_smul, add_comm]

end Horner

/-! ## Bits -/

/-- Every digit is a bit. -/
def Bits (ds : List ℤ) : Prop := ∀ d ∈ ds, d = 0 ∨ d = 1

theorem Bits.ofSigned_nonneg {ds : List ℤ} (h : Bits ds) : 0 ≤ ofSigned 2 ds := by
  induction ds with
  | nil => exact le_rfl
  | cons d ds ih =>
    have hd := h d List.mem_cons_self
    have hds := ih fun d' hd' ↦ h d' (List.mem_cons_of_mem _ hd')
    rw [ofSigned]
    omega

/-- One is added at the lowest digit, where a carry out of the highest one is lost. -/
def carryBits : List ℤ → List ℤ
  | [] => []
  | d :: ds => if d = 0 then 1 :: ds else 0 :: carryBits ds

@[simp]
theorem length_carryBits (ds : List ℤ) : (carryBits ds).length = ds.length := by
  induction ds with
  | nil => rfl
  | cons d ds ih =>
    rw [carryBits]
    split
    · rfl
    · rw [List.length_cons, List.length_cons, ih]

theorem Bits.carryBits {ds : List ℤ} (h : Bits ds) : Bits (carryBits ds) := by
  induction ds with
  | nil => exact h
  | cons d ds ih =>
    have hds : Bits ds := fun d' hd' ↦ h d' (List.mem_cons_of_mem _ hd')
    rw [Lib.carryBits]
    split
    · exact List.forall_mem_cons.2 ⟨.inr rfl, hds⟩
    · exact List.forall_mem_cons.2 ⟨.inl rfl, ih hds⟩

theorem Bits.ofSigned_carryBits {ds : List ℤ} (h : Bits ds)
    (hroom : ofSigned 2 ds + 1 < 2 ^ ds.length) :
    ofSigned 2 (Lib.carryBits ds) = ofSigned 2 ds + 1 := by
  induction ds with
  | nil => simp [ofSigned] at hroom
  | cons d ds ih =>
    have hd := h d List.mem_cons_self
    rw [ofSigned, List.length_cons, pow_succ] at hroom
    rw [Lib.carryBits]
    split
    · next hzero =>
      rw [ofSigned, ofSigned, hzero]
      ring
    · next hone =>
      have hd' : d = 1 := hd.resolve_left hone
      rw [ofSigned, ofSigned, hd', ih (fun d' hd' ↦ h d' (List.mem_cons_of_mem _ hd')) (by omega)]
      ring

end Lib
