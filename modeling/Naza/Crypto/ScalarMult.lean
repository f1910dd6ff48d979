import Naza.Lib.SignedDigits

/-!
# Multiplying curve points

The recodings and loops of `crypto-ops.c` that multiply points: signed sliding windows, signed
digits in base 16, and the addition chain of the subgroup check.  Points are the elements of a
commutative group, whose operations stand for `ge_add`, `ge_sub` and the doublings.
-/

open Lib

namespace Naza

namespace CryptoOps

/-- The integer that the bytes of a scalar stand for, lowest byte first. -/
def leValue : Bytes → ℕ
  | [] => 0
  | byte :: bytes => byte.toNat + 256 * leValue bytes

/-! ## Sliding windows -/

/-- The bits of `slide`: bit `i & 7` of byte `i >> 3`. -/
def bits (a : Bytes) : List ℤ :=
  a.flatMap fun byte ↦ (List.range 8).map fun j ↦ ((byte.toNat / 2 ^ j % 2 : ℕ) : ℤ)

/-- The loop over `b`: what `r[i]` becomes, and the digits behind it from `i + b` on. -/
def slideWindow : List ℕ → ℤ → List ℤ → ℤ × List ℤ
  | [], r, rs => (r, rs)
  | _ :: _, r, [] => (r, [])
  | b :: offsets, r, next :: rs =>
    if next = 0 then
      let (r, rs) := slideWindow offsets r rs
      (r, next :: rs)
    else if r + next * 2 ^ b ≤ 15 then
      let (r, rs) := slideWindow offsets (r + next * 2 ^ b) rs
      (r, 0 :: rs)
    else if -15 ≤ r - next * 2 ^ b then
      -- `r[i + b]` is set, so the carry clears it and goes on behind it
      let (r, rs) := slideWindow offsets (r - next * 2 ^ b) (carryBits rs)
      (r, 0 :: rs)
    else (r, next :: rs)

/-- The loop over `i`, with the number of digits to come. -/
def slideFrom : ℕ → List ℤ → List ℤ
  | 0, _ => []
  | _ + 1, [] => []
  | n + 1, r :: rs =>
    if r = 0 then r :: slideFrom n rs
    else
      let (r, rs) := slideWindow [1, 2, 3, 4, 5, 6] r rs
      r :: slideFrom n rs

def slide (a : Bytes) : List ℤ := slideFrom (bits a).length (bits a)

/-- A digit that the table of odd multiples has an entry for. -/
def Slot (d : ℤ) : Prop := d = 0 ∨ d % 2 = 1 ∧ -15 ≤ d ∧ d ≤ 15

/-- A bit that still fits into the window is taken in. -/
theorem slideWindow_absorb {b : ℕ} {r next : ℤ} (offsets : List ℕ) (rs : List ℤ)
    (hnext : next = 0 ∨ next = 1) (h : r + next * 2 ^ b ≤ 15) :
    slideWindow (b :: offsets) r (next :: rs) =
      ((slideWindow offsets (r + next * 2 ^ b) rs).1,
        0 :: (slideWindow offsets (r + next * 2 ^ b) rs).2) := by
  obtain rfl | rfl := hnext
  · simp [slideWindow]
  · rw [slideWindow, if_neg one_ne_zero, if_pos h]

/-- Behind the window nothing changes. -/
theorem slideWindow_beyond {r : ℤ} (hlow : -15 ≤ r) (hhigh : r ≤ 15) {rs : List ℤ}
    (hrs : Bits rs) : slideWindow [5, 6] r rs = (r, rs) := by
  have hstop (b : ℕ) (hb : 5 ≤ b) (offsets : List ℕ) (next : ℤ) (rest : List ℤ)
      (hnext : next = 1) : slideWindow (b :: offsets) r (next :: rest) = (r, next :: rest) := by
    have hpow : (32 : ℤ) ≤ 2 ^ b := by
      calc (32 : ℤ) = 2 ^ 5 := by norm_num
        _ ≤ 2 ^ b := pow_le_pow_right₀ (by norm_num) hb
    rw [slideWindow, hnext, if_neg one_ne_zero, if_neg (by omega), if_neg (by omega)]
  cases rs with
  | nil => rfl
  | cons x rs =>
    obtain hx | hx := hrs x List.mem_cons_self
    · cases rs with
      | nil => simp [slideWindow, hx]
      | cons y rs =>
        obtain hy | hy := hrs y (by simp)
        · cases rs <;> simp [slideWindow, hx, hy]
        · rw [slideWindow, if_pos hx, hstop 6 (by norm_num) [] y rs hy]
    · exact hstop 5 le_rfl [6] x rs hx

/-- Four zeros behind a digit, then the digits of the rest. -/
theorem slideFrom_zeros (k n : ℕ) (rs : List ℤ) :
    slideFrom (k + n) (List.replicate k 0 ++ rs) = List.replicate k 0 ++ slideFrom n rs := by
  induction k with
  | zero => simp
  | succ k ih =>
    rw [List.replicate_succ, List.cons_append, Nat.succ_add, slideFrom, if_pos rfl, ih,
      List.cons_append]

theorem ofSigned_zeros (base : ℤ) (k : ℕ) (rs : List ℤ) :
    ofSigned base (List.replicate k 0 ++ rs) = base ^ k * ofSigned base rs := by
  induction k with
  | zero => simp
  | succ k ih =>
    rw [List.replicate_succ, List.cons_append, ofSigned, ih, pow_succ]
    ring

/-- What a set bit becomes with the digits behind it: at most four of them are taken in, and with
four a carry may have gone on. -/
theorem slideWindow_one {rs : List ℤ} (hrs : Bits rs)
    (hroom : 2 * (1 + 2 * ofSigned 2 rs) ≤ 2 ^ (rs.length + 1)) :
    ∃ (r : ℤ) (k : ℕ) (rest : List ℤ),
      slideWindow [1, 2, 3, 4, 5, 6] 1 rs = (r, List.replicate k 0 ++ rest) ∧
      Slot r ∧ Bits rest ∧ k + rest.length = rs.length ∧
      r + 2 * (2 ^ k * ofSigned 2 rest) = 1 + 2 * ofSigned 2 rs ∧
      2 * ofSigned 2 rest ≤ 2 ^ rest.length := by
  rcases rs with _ | ⟨x₁, _ | ⟨x₂, _ | ⟨x₃, _ | ⟨x₄, rs⟩⟩⟩⟩
  · exact ⟨1, 0, [], by simp [slideWindow], .inr (by norm_num), hrs, rfl, by simp [ofSigned],
      by simp [ofSigned]⟩
  · have h₁ := hrs x₁ (by simp)
    refine ⟨1 + x₁ * 2 ^ 1, 1, [], ?_, .inr (by omega), by simp [Bits], rfl, ?_, by simp [ofSigned]⟩
    · rw [slideWindow_absorb _ _ h₁ (by omega)]
      rfl
    · simp only [ofSigned]
      ring
  · have h₁ := hrs x₁ (by simp)
    have h₂ := hrs x₂ (by simp)
    refine ⟨1 + x₁ * 2 ^ 1 + x₂ * 2 ^ 2, 2, [], ?_, .inr (by omega), by simp [Bits], rfl, ?_,
      by simp [ofSigned]⟩
    · rw [slideWindow_absorb _ _ h₁ (by omega), slideWindow_absorb _ _ h₂ (by omega)]
      rfl
    · simp only [ofSigned]
      ring
  · have h₁ := hrs x₁ (by simp)
    have h₂ := hrs x₂ (by simp)
    have h₃ := hrs x₃ (by simp)
    refine ⟨1 + x₁ * 2 ^ 1 + x₂ * 2 ^ 2 + x₃ * 2 ^ 3, 3, [], ?_, .inr (by omega), by simp [Bits],
      rfl, ?_, by simp [ofSigned]⟩
    · rw [slideWindow_absorb _ _ h₁ (by omega), slideWindow_absorb _ _ h₂ (by omega),
        slideWindow_absorb _ _ h₃ (by omega)]
      rfl
    · simp only [ofSigned]
      ring
  · have h₁ := hrs x₁ (by simp)
    have h₂ := hrs x₂ (by simp)
    have h₃ := hrs x₃ (by simp)
    have h₄ := hrs x₄ (by simp)
    have hrest : Bits rs := fun d hd ↦ hrs d (by simp [hd])
    have hnonneg := hrest.ofSigned_nonneg
    have hlength : (2 : ℤ) ^ (x₁ :: x₂ :: x₃ :: x₄ :: rs).length.succ = 32 * 2 ^ rs.length := by
      simp only [List.length_cons, pow_succ]
      ring
    simp only [ofSigned] at hroom
    rw [← Nat.succ_eq_add_one, hlength] at hroom
    have hwindow : slideWindow [1, 2, 3, 4, 5, 6] 1 (x₁ :: x₂ :: x₃ :: x₄ :: rs) =
        ((slideWindow [4, 5, 6] (1 + x₁ * 2 ^ 1 + x₂ * 2 ^ 2 + x₃ * 2 ^ 3) (x₄ :: rs)).1,
          0 :: 0 :: 0 ::
            (slideWindow [4, 5, 6] (1 + x₁ * 2 ^ 1 + x₂ * 2 ^ 2 + x₃ * 2 ^ 3) (x₄ :: rs)).2) := by
      rw [slideWindow_absorb _ _ h₁ (by omega), slideWindow_absorb _ _ h₂ (by omega),
        slideWindow_absorb _ _ h₃ (by omega)]
    obtain h₄ | h₄ := h₄
    · refine ⟨1 + x₁ * 2 ^ 1 + x₂ * 2 ^ 2 + x₃ * 2 ^ 3, 4, rs, ?_, .inr (by omega), hrest, ?_, ?_,
        ?_⟩
      · rw [hwindow, slideWindow, if_pos h₄, slideWindow_beyond (by omega) (by omega) hrest, h₄]
        rfl
      · simp only [List.length_cons]
        omega
      · simp only [ofSigned, h₄]
        ring
      · omega
    · have hcarry : ofSigned 2 (carryBits rs) = ofSigned 2 rs + 1 :=
        hrest.ofSigned_carryBits (by omega)
      refine ⟨1 + x₁ * 2 ^ 1 + x₂ * 2 ^ 2 + x₃ * 2 ^ 3 - 1 * 2 ^ 4, 4, carryBits rs, ?_,
        .inr (by omega), hrest.carryBits, ?_, ?_, ?_⟩
      · rw [hwindow, slideWindow, h₄, if_neg one_ne_zero, if_neg (by omega), if_pos (by omega),
          slideWindow_beyond (by omega) (by omega) hrest.carryBits]
        rfl
      · simp only [List.length_cons, length_carryBits]
        omega
      · simp only [ofSigned, h₄, hcarry]
        ring
      · rw [hcarry, length_carryBits]
        omega

/-- The digits of `slide` stand for the same number, as long as it takes up at most half of what
the bits could hold, and each of them has an entry in the table. -/
theorem slideFrom_spec (n : ℕ) {rs : List ℤ} (hlength : rs.length = n) (hrs : Bits rs)
    (hroom : 2 * ofSigned 2 rs ≤ 2 ^ n) :
    (slideFrom n rs).length = n ∧ (∀ d ∈ slideFrom n rs, Slot d) ∧
      ofSigned 2 (slideFrom n rs) = ofSigned 2 rs := by
  induction n using Nat.strong_induction_on generalizing rs with
  | _ n ih =>
    cases rs with
    | nil =>
      obtain rfl : 0 = n := hlength
      simp [slideFrom]
    | cons r rs =>
      obtain ⟨n, rfl⟩ : ∃ m, n = m + 1 := ⟨rs.length, hlength.symm⟩
      have hlength' : rs.length = n := Nat.succ.inj hlength
      have hbits : Bits rs := fun d hd ↦ hrs d (List.mem_cons_of_mem _ hd)
      obtain hr | hr := hrs r List.mem_cons_self
      · rw [ofSigned, hr, pow_succ] at hroom
        obtain ⟨hlen, hslots, hvalue⟩ := ih n (Nat.lt_succ_self n) hlength' hbits (by omega)
        rw [slideFrom, if_pos hr]
        refine ⟨by rw [List.length_cons, hlen], ?_, by rw [ofSigned, hvalue, ofSigned]⟩
        exact List.forall_mem_cons.2 ⟨.inl hr, hslots⟩
      · rw [ofSigned, hr, ← hlength'] at hroom
        obtain ⟨r', k, rest, hwindow, hslot, hrest, hk, hsum, hroom'⟩ :=
          slideWindow_one hbits hroom
        have hn : n = k + rest.length := by omega
        obtain ⟨hlen, hslots, hvalue⟩ := ih rest.length (by omega) rfl hrest hroom'
        rw [slideFrom, hr, if_neg one_ne_zero, hwindow, hn]
        simp only [slideFrom_zeros]
        refine ⟨?_, ?_, ?_⟩
        · simp [hlen]
        · intro d hd
          obtain rfl | hd := List.mem_cons.1 hd
          · exact hslot
          · obtain hd | hd := List.mem_append.1 hd
            · exact .inl (List.eq_of_mem_replicate hd)
            · exact hslots d hd
        · rw [ofSigned, ofSigned_zeros, hvalue, hsum, ofSigned]

theorem bits_byte (n : ℕ) (h : n < 256) :
    ofSigned 2 ((List.range 8).map fun j ↦ ((n / 2 ^ j % 2 : ℕ) : ℤ)) = n := by
  have : List.range 8 = [0, 1, 2, 3, 4, 5, 6, 7] := rfl
  simp only [this, List.map_cons, List.map_nil, ofSigned]
  omega

theorem length_bits (a : Bytes) : (bits a).length = 8 * a.length := by
  induction a with
  | nil => rfl
  | cons byte a ih =>
    rw [bits, List.flatMap_cons, List.length_append, List.length_cons]
    change _ + (bits a).length = _
    rw [ih, List.length_map, List.length_range]
    ring

theorem ofSigned_bits (a : Bytes) : ofSigned 2 (bits a) = leValue a := by
  induction a with
  | nil => rfl
  | cons byte a ih =>
    rw [bits, List.flatMap_cons, ofSigned_append, bits_byte _ byte.toNat_lt, List.length_map,
      List.length_range, leValue]
    change _ + _ * ofSigned 2 (bits a) = _
    rw [ih]
    push_cast
    ring

theorem bits_bits (a : Bytes) : Bits (bits a) := by
  intro d hd
  obtain ⟨byte, -, hd⟩ := List.mem_flatMap.1 hd
  obtain ⟨j, -, rfl⟩ := List.mem_map.1 hd
  omega

/-- `slide` recodes every scalar of which the highest bit is clear. -/
theorem slide_spec {a : Bytes} (hroom : 2 * leValue a ≤ 2 ^ (8 * a.length)) :
    (slide a).length = 8 * a.length ∧ (∀ d ∈ slide a, Slot d) ∧
      ofSigned 2 (slide a) = leValue a := by
  obtain ⟨hlength, hslots, hvalue⟩ := slideFrom_spec (bits a).length rfl (bits_bits a) (by
    rw [ofSigned_bits, length_bits]
    exact_mod_cast hroom)
  exact ⟨hlength.trans (length_bits a), hslots, hvalue.trans (ofSigned_bits a)⟩

/-! ## Two multiples at once -/

section Points

variable {P : Type} [AddCommGroup P]

/-- The odd multiples from one on, each the one before with twice the point added. -/
def oddMultiples (twice : P) : ℕ → P → List P
  | 0, _ => []
  | n + 1, p => p :: oddMultiples twice n (twice + p)

/-- `ge_dsm_precomp`. -/
def geDsmPrecomp (s : P) : List P := oddMultiples (s + s) 8 s

theorem getElem?_oddMultiples {twice : P} {n : ℕ} {p : P} {i : ℕ} (h : i < n) :
    (oddMultiples twice n p)[i]? = some (i • twice + p) := by
  induction n generalizing p i with
  | zero => omega
  | succ n ih =>
    cases i with
    | zero => simp [oddMultiples]
    | succ i =>
      rw [oddMultiples, List.getElem?_cons_succ, ih (by omega), succ_nsmul, add_assoc]

/-- The branches on one digit in the loops over two slides. -/
def addDigit (table : List P) (t : P) (d : ℤ) : P :=
  if 0 < d then t + (table[(d / 2).toNat]?).getD 0
  else if d < 0 then t - (table[(-d / 2).toNat]?).getD 0
  else t

theorem addDigit_geDsmPrecomp (p t : P) {d : ℤ} (hd : Slot d) :
    addDigit (geDsmPrecomp p) t d = t + d • p := by
  have hodd {e : ℤ} (hpos : 0 < e) (hle : e ≤ 15) (hmod : e % 2 = 1) :
      ((geDsmPrecomp p)[(e / 2).toNat]?).getD 0 = e • p := by
    have he : ((e / 2).toNat : ℤ) * 2 + 1 = e := by omega
    rw [geDsmPrecomp, getElem?_oddMultiples (by omega), Option.getD_some, ← natCast_zsmul]
    conv_rhs => rw [← he]
    rw [add_smul, mul_smul, one_smul, two_smul]
  rw [addDigit]
  obtain rfl | ⟨hmod, hlow, hhigh⟩ := hd
  · simp
  · split
    · next hpos => rw [hodd hpos hhigh hmod]
    · rw [if_pos (by omega), hodd (by omega) (by omega) (by omega), neg_smul, sub_neg_eq_add]

/-- The loops of `ge_double_scalarmult_base_vartime` and `ge_double_scalarmult_precomp_vartime`:
from the highest position at which one of the slides has a digit down. -/
def doubleScalarmult (tableA tableB : List P) (aslide bslide : List ℤ) : P :=
  ((aslide.zip bslide).reverse.dropWhile fun d ↦ d.1 = 0 ∧ d.2 = 0).foldl
    (fun r d ↦ addDigit tableB (addDigit tableA (r + r) d.1) d.2) 0

/-- `ge_double_scalarmult_precomp_vartime`. -/
def geDoubleScalarmultPrecompVartime (a : Bytes) (p : P) (b : Bytes) (precomp : List P) : P :=
  doubleScalarmult (geDsmPrecomp p) precomp (slide a) (slide b)

theorem addDigit_zero (table : List P) (t : P) : addDigit table t 0 = t := by
  simp [addDigit]

/-- Positions without digits do nothing to zero. -/
theorem foldl_dropWhile (tableA tableB : List P) (ds : List (ℤ × ℤ)) :
    (ds.dropWhile fun d ↦ d.1 = 0 ∧ d.2 = 0).foldl
        (fun r d ↦ addDigit tableB (addDigit tableA (r + r) d.1) d.2) 0 =
      ds.foldl (fun r d ↦ addDigit tableB (addDigit tableA (r + r) d.1) d.2) 0 := by
  induction ds with
  | nil => rfl
  | cons d ds ih =>
    rw [List.dropWhile_cons]
    split
    · next hzero =>
      obtain ⟨h₁, h₂⟩ : d.1 = 0 ∧ d.2 = 0 := by simpa using hzero
      rw [ih, List.foldl_cons, h₁, h₂, addDigit_zero, addDigit_zero, add_zero]
    · rfl

theorem foldr_addDigit (p q : P) {ds : List (ℤ × ℤ)} (h : ∀ d ∈ ds, Slot d.1 ∧ Slot d.2) :
    ds.foldr (fun d r ↦
        addDigit (geDsmPrecomp q) (addDigit (geDsmPrecomp p) (r + r) d.1) d.2) 0 =
      ds.foldr (fun d r ↦ (2 : ℤ) • r + d.1 • p + d.2 • q) 0 := by
  induction ds with
  | nil => rfl
  | cons d ds ih =>
    obtain ⟨h₁, h₂⟩ := h d List.mem_cons_self
    rw [List.foldr_cons, List.foldr_cons, ih fun d' hd' ↦ h d' (List.mem_cons_of_mem _ hd'),
      addDigit_geDsmPrecomp _ _ h₁, addDigit_geDsmPrecomp _ _ h₂, two_smul]

/-- The loop over two sliding windows computes the sum of the two multiples, for all scalars of
32 bytes that are at most `2 ^ 255`. -/
theorem geDoubleScalarmultPrecompVartime_eq {a b : Bytes} (ha : a.length = 32)
    (hb : b.length = 32) (hra : leValue a ≤ 2 ^ 255) (hrb : leValue b ≤ 2 ^ 255) (p q : P) :
    geDoubleScalarmultPrecompVartime a p b (geDsmPrecomp q) = leValue a • p + leValue b • q := by
  obtain ⟨hlena, hslotsa, hvaluea⟩ := @slide_spec a (by rw [ha]; omega)
  obtain ⟨hlenb, hslotsb, hvalueb⟩ := @slide_spec b (by rw [hb]; omega)
  have hslots : ∀ d ∈ (slide a).zip (slide b), Slot d.1 ∧ Slot d.2 := by
    intro d hd
    obtain ⟨hd₁, hd₂⟩ := List.of_mem_zip (show (d.1, d.2) ∈ _ from hd)
    exact ⟨hslotsa _ hd₁, hslotsb _ hd₂⟩
  rw [geDoubleScalarmultPrecompVartime, doubleScalarmult, foldl_dropWhile, List.foldl_reverse,
    foldr_addDigit p q hslots, foldr_zip_ofSigned 2 p q (by rw [hlena, hlenb, ha, hb]), hvaluea,
    hvalueb, natCast_zsmul, natCast_zsmul]

/-! ## Base 16 -/

/-- The digits of `ge_scalarmult`; the last byte gives two digits without a carry out. -/
def recodeBytes : ℤ → Bytes → List ℤ
  | _, [] => []
  | carry, [byte] =>
    let carry := carry + byte.toNat
    let carry2 := (carry + 8) / 16
    [carry - carry2 * 16, carry2]
  | carry, byte :: bytes =>
    let carry := carry + byte.toNat
    let carry2 := (carry + 8) / 16
    let carry := carry - carry2 * 16
    let carry' := (carry2 + 8) / 16
    carry :: (carry2 - carry' * 16) :: recodeBytes carry' bytes

/-- A digit that the table of the first eight multiples has an entry for. -/
def Nibble (d : ℤ) : Prop := -8 ≤ d ∧ d ≤ 8

theorem recodeBytes_spec {carry : ℤ} (hlow : 0 ≤ carry) (hhigh : carry ≤ 1) {a : Bytes}
    (ha : a ≠ []) (hlast : ∀ byte ∈ a.getLast?, byte.toNat ≤ 127) :
    (∀ d ∈ recodeBytes carry a, Nibble d) ∧
      ofSigned 16 (recodeBytes carry a) = carry + leValue a := by
  induction a generalizing carry with
  | nil => exact absurd rfl ha
  | cons byte a ih =>
    have hbyte := byte.toNat_lt
    cases a with
    | nil =>
      have hle := hlast byte rfl
      simp only [recodeBytes, List.forall_mem_cons, Nibble, ofSigned, leValue]
      refine ⟨⟨by omega, by omega, by simp⟩, ?_⟩
      push_cast
      ring
    | cons byte' a =>
      obtain ⟨hdigits, hvalue⟩ := @ih ((((carry + byte.toNat + 8) / 16) + 8) / 16) (by omega)
        (by omega) (by simp) (by simpa using hlast)
      rw [recodeBytes, leValue]
      · simp only [List.forall_mem_cons, ofSigned, hvalue, Nibble]
        refine ⟨⟨by omega, by omega, hdigits⟩, ?_⟩
        push_cast
        ring
      · simp

/-- The entry of a table of multiples for a digit, taken without a branch on secrets. -/
def select (table : List P) (d : ℤ) : P :=
  let t := if d = 0 then 0 else (table[d.natAbs - 1]?).getD 0
  if d < 0 then -t else t

/-- The table of `ge_scalarmult`: each entry is the point added to the one before. -/
def multiples (p : P) : ℕ → P → List P
  | 0, _ => []
  | n + 1, q => q :: multiples p n (p + q)

theorem getElem?_multiples {p : P} {n : ℕ} {q : P} {i : ℕ} (h : i < n) :
    (multiples p n q)[i]? = some (i • p + q) := by
  induction n generalizing q i with
  | zero => omega
  | succ n ih =>
    cases i with
    | zero => simp [multiples]
    | succ i => rw [multiples, List.getElem?_cons_succ, ih (by omega), succ_nsmul, add_assoc]

theorem select_multiples (p : P) {d : ℤ} (hd : Nibble d) : select (multiples p 8 p) d = d • p := by
  have hentry (hne : d ≠ 0) : ((multiples p 8 p)[d.natAbs - 1]?).getD 0 = d.natAbs • p := by
    obtain ⟨hlow, hhigh⟩ := hd
    rw [getElem?_multiples (by omega), Option.getD_some, ← succ_nsmul]
    congr 1
    omega
  rw [select]
  by_cases hzero : d = 0
  · simp [hzero]
  · simp only [if_neg hzero, hentry hzero]
    split
    · rw [← natCast_zsmul, ← neg_smul]
      congr 1
      omega
    · rw [← natCast_zsmul]
      congr 1
      omega

def double (p : P) : P := p + p

/-- `ge_scalarmult`. -/
def geScalarmult (a : Bytes) (p : P) : P :=
  (recodeBytes 0 a).foldr
    (fun d r ↦ double (double (double (double r))) + select (multiples p 8 p) d) 0

theorem double_four (p : P) : double (double (double (double p))) = (16 : ℤ) • p := by
  simp only [double]
  abel

/-- Scalars of 32 bytes whose last byte is at most 127. -/
theorem getLast_le_of_leValue {a : Bytes} {n : ℕ} (hlength : a.length = n + 1)
    (h : leValue a < 128 * 256 ^ n) : ∀ byte ∈ a.getLast?, byte.toNat ≤ 127 := by
  induction n generalizing a with
  | zero =>
    obtain ⟨byte, rfl⟩ := List.length_eq_one_iff.1 hlength
    intro byte' hbyte'
    obtain rfl : byte = byte' := by simpa using hbyte'
    simp only [leValue] at h
    omega
  | succ n ih =>
    match a, hlength with
    | byte :: byte' :: a, hlength =>
      rw [leValue, pow_succ] at h
      have := @ih (byte' :: a) (Nat.succ.inj hlength) (by omega)
      simpa using this

/-- Signed base 16 with a table of eight multiples computes the multiple, for all scalars of which
the highest bit is clear. -/
theorem geScalarmult_eq {a : Bytes} (ha : a.length = 32) (hroom : leValue a < 2 ^ 255) (p : P) :
    geScalarmult a p = leValue a • p := by
  have hlast : ∀ byte ∈ a.getLast?, byte.toNat ≤ 127 :=
    @getLast_le_of_leValue a 31 ha (by omega)
  obtain ⟨hdigits, hvalue⟩ := recodeBytes_spec le_rfl (by norm_num : (0 : ℤ) ≤ 1)
    (List.ne_nil_of_length_pos (by omega)) hlast
  have hfold (ds : List ℤ) (hds : ∀ d ∈ ds, Nibble d) :
      ds.foldr (fun d r ↦ double (double (double (double r))) + select (multiples p 8 p) d) 0 =
        ds.foldr (fun d r ↦ (16 : ℤ) • r + d • p) 0 := by
    induction ds with
    | nil => rfl
    | cons d ds ih =>
      rw [List.foldr_cons, List.foldr_cons, ih fun d' hd' ↦ hds d' (List.mem_cons_of_mem _ hd'),
        double_four, select_multiples p (hds d List.mem_cons_self)]
  rw [geScalarmult, hfold _ hdigits, foldr_ofSigned, hvalue, zero_add, natCast_zsmul]

/-! ## Multiples of the base point -/

/-- The digits of `ge_scalarmult_base` before the carries: two halves of each byte. -/
def nibbles (a : Bytes) : List ℤ :=
  a.flatMap fun byte ↦ [((byte.toNat % 16 : ℕ) : ℤ), ((byte.toNat / 16 : ℕ) : ℤ)]

/-- The carries of `ge_scalarmult_base`; the last digit keeps the carry into it. -/
def recodeNibbles : ℤ → List ℤ → List ℤ
  | _, [] => []
  | carry, [e] => [e + carry]
  | carry, e :: es =>
    let e := e + carry
    let carry := (e + 8) / 16
    (e - carry * 16) :: recodeNibbles carry es

/-- Every other digit, from the first one on. -/
def everyOther : List ℤ → List ℤ
  | [] => []
  | [e] => [e]
  | e :: _ :: es => e :: everyOther es

/-- One loop of `ge_scalarmult_base`: entries of consecutive rows of the table are added. -/
def addRows : P → List (List P) → List ℤ → P
  | h, row :: rows, e :: es => addRows (h + select row e) rows es
  | h, _, _ => h

/-- `ge_scalarmult_base` with the table `ge_base`: the odd digits, sixteen times, then the even
ones. -/
def geScalarmultBase (geBase : List (List P)) (a : Bytes) : P :=
  let e := recodeNibbles 0 (nibbles a)
  let h := addRows 0 geBase (everyOther e.tail)
  addRows (double (double (double (double h)))) geBase (everyOther e)

/-- The rows of `ge_base`: the first eight multiples of the base point times powers of 256. -/
def baseRows (base : P) : ℕ → List (List P)
  | 0 => []
  | n + 1 => multiples base 8 base :: baseRows (256 • base) n

/-- What the carries leave of halves of bytes, when there is room at the end. -/
theorem recodeNibbles_spec {carry : ℤ} (hlow : 0 ≤ carry) (hhigh : carry ≤ 1) {es : List ℤ}
    (hes : ∀ e ∈ es, 0 ≤ e ∧ e ≤ 15) (hne : es ≠ []) (hlast : ∀ e ∈ es.getLast?, e ≤ 7) :
    (recodeNibbles carry es).length = es.length ∧ (∀ d ∈ recodeNibbles carry es, Nibble d) ∧
      ofSigned 16 (recodeNibbles carry es) = carry + ofSigned 16 es := by
  induction es generalizing carry with
  | nil => exact absurd rfl hne
  | cons e es ih =>
    have he := hes e List.mem_cons_self
    cases es with
    | nil =>
      have hle := hlast e rfl
      simp only [recodeNibbles, List.forall_mem_cons, Nibble, ofSigned]
      exact ⟨rfl, ⟨by omega, by simp⟩, by ring⟩
    | cons e' es =>
      obtain ⟨hlength, hdigits, hvalue⟩ := @ih ((e + carry + 8) / 16) (by omega) (by omega)
        (fun d hd ↦ hes d (List.mem_cons_of_mem _ hd)) (by simp) (by simpa using hlast)
      rw [recodeNibbles]
      · refine ⟨by simp [hlength], ?_, ?_⟩
        · exact List.forall_mem_cons.2 ⟨by rw [Nibble]; omega, hdigits⟩
        · rw [ofSigned, hvalue,
            show ofSigned 16 (e :: e' :: es) = e + 16 * ofSigned 16 (e' :: es) from rfl]
          ring
      · simp

theorem ofSigned_nibbles (a : Bytes) : ofSigned 16 (nibbles a) = leValue a := by
  induction a with
  | nil => rfl
  | cons byte a ih =>
    rw [nibbles, List.flatMap_cons, List.cons_append, List.cons_append, List.nil_append]
    change ofSigned 16 (_ :: _ :: nibbles a) = _
    rw [ofSigned, ofSigned, ih, leValue]
    omega

theorem mem_nibbles {a : Bytes} {e : ℤ} (he : e ∈ nibbles a) : 0 ≤ e ∧ e ≤ 15 := by
  obtain ⟨byte, -, he⟩ := List.mem_flatMap.1 he
  have hbyte := byte.toNat_lt
  simp only [List.mem_cons, List.not_mem_nil, or_false] at he
  omega

theorem length_nibbles (a : Bytes) : (nibbles a).length = 2 * a.length := by
  induction a with
  | nil => rfl
  | cons byte a ih =>
    rw [nibbles, List.flatMap_cons, List.length_append]
    change _ + (nibbles a).length = _
    rw [ih, List.length_cons]
    simp
    ring

theorem getLast_nibbles {a : Bytes} (hne : a ≠ [])
    (hlast : ∀ byte ∈ a.getLast?, byte.toNat ≤ 127) : ∀ e ∈ (nibbles a).getLast?, e ≤ 7 := by
  intro e he
  obtain ⟨init, byte, rfl⟩ := List.eq_nil_or_concat' a |>.resolve_left hne
  have hle := hlast byte (by simp)
  have hlast' : (nibbles (init ++ [byte])).getLast? = some ((byte.toNat / 16 : ℕ) : ℤ) := by
    simp [nibbles]
  rw [hlast', Option.mem_some_iff] at he
  omega

theorem ofSigned_everyOther (es : List ℤ) :
    ofSigned 16 es = ofSigned 256 (everyOther es) + 16 * ofSigned 256 (everyOther es.tail) := by
  match es with
  | [] => rfl
  | [e] => simp [everyOther, ofSigned]
  | [e, e'] => simp [everyOther, ofSigned]
  | e :: e' :: e'' :: es =>
    have ih := ofSigned_everyOther (e'' :: es)
    rw [List.tail_cons] at ih ⊢
    rw [ofSigned, ofSigned, ih, everyOther, ofSigned, everyOther, ofSigned]
    ring

theorem length_everyOther (es : List ℤ) : (everyOther es).length = (es.length + 1) / 2 := by
  match es with
  | [] => rfl
  | [e] => simp [everyOther]
  | e :: e' :: es =>
    have ih := length_everyOther es
    rw [everyOther, List.length_cons, ih, List.length_cons, List.length_cons]
    omega

theorem mem_everyOther {es : List ℤ} {e : ℤ} (h : e ∈ everyOther es) : e ∈ es := by
  match es with
  | [] => exact h
  | [e'] => exact h
  | e' :: e'' :: es =>
    obtain rfl | h := List.mem_cons.1 h
    · exact List.mem_cons_self
    · exact List.mem_cons_of_mem _ (List.mem_cons_of_mem _ (mem_everyOther h))

theorem addRows_baseRows (base h : P) {es : List ℤ} (hes : ∀ e ∈ es, Nibble e) :
    addRows h (baseRows base es.length) es = h + ofSigned 256 es • base := by
  induction es generalizing base h with
  | nil => simp [addRows, ofSigned]
  | cons e es ih =>
    rw [List.length_cons, baseRows, addRows, ih _ _ fun d hd ↦ hes d (List.mem_cons_of_mem _ hd),
      select_multiples _ (hes e List.mem_cons_self), ofSigned, add_smul, mul_comm, mul_smul,
      add_assoc, ofNat_zsmul]

/-- With the multiples of the base point in its table, `ge_scalarmult_base` computes the multiple
of the base point, for all scalars of which the highest bit is clear. -/
theorem geScalarmultBase_eq {a : Bytes} (ha : a.length = 32) (hroom : leValue a < 2 ^ 255)
    (base : P) : geScalarmultBase (baseRows base 32) a = leValue a • base := by
  have hne : a ≠ [] := List.ne_nil_of_length_pos (by omega)
  have hlast := getLast_nibbles hne (@getLast_le_of_leValue a 31 ha (by omega))
  have hnibbles := length_nibbles a
  obtain ⟨hlength, hdigits, hvalue⟩ := recodeNibbles_spec le_rfl (by norm_num : (0 : ℤ) ≤ 1)
    (fun _ ↦ mem_nibbles) (List.ne_nil_of_length_pos (by omega)) hlast
  have heven := length_everyOther (recodeNibbles 0 (nibbles a))
  have hodd := length_everyOther (recodeNibbles 0 (nibbles a)).tail
  rw [List.length_tail] at hodd
  have hrows (h : P) (es : List ℤ) (hlen : es.length = 32) (hes : ∀ e ∈ es, Nibble e) :
      addRows h (baseRows base 32) es = h + ofSigned 256 es • base := by
    rw [← hlen]
    exact addRows_baseRows base h hes
  rw [geScalarmultBase, hrows _ _ (by omega) fun e he ↦ hdigits e (mem_everyOther he),
    hrows _ _ (by omega) fun e he ↦ hdigits e (List.mem_of_mem_tail (mem_everyOther he)),
    double_four, zero_add, ← mul_smul, ← add_smul, add_comm, ← ofSigned_everyOther, hvalue,
    zero_add, ofSigned_nibbles, natCast_zsmul]

/-! ## The subgroup check -/

/-- `ge_mul8`. -/
def geMul8 (p : P) : P := double (double (double p))

theorem geMul8_eq (p : P) : geMul8 p = 8 • p := by
  simp only [geMul8, double]
  abel

/-- An operation of `ge_check_subgroup_precomp_vartime`: a number of doublings, or an entry of the
table of odd multiples added or subtracted. -/
inductive ChainOp where
  | dbl (count : ℕ)
  | add (entry : ℕ)
  | sub (entry : ℕ)

/-- The operations of `ge_check_subgroup_precomp_vartime` in order. -/
def subgroupChain : List ChainOp :=
  [.add 7, .add 0, .dbl 126, .add 2, .dbl 5, .add 3, .dbl 5, .sub 0, .dbl 7, .sub 1, .dbl 4,
    .sub 0, .dbl 8, .sub 5, .dbl 5, .add 1, .dbl 5, .sub 0, .dbl 6, .sub 1, .dbl 7, .sub 6,
    .dbl 5, .add 5, .dbl 6, .add 5, .dbl 10, .add 4, .dbl 4, .add 1, .dbl 5, .add 1, .dbl 7,
    .add 6, .dbl 4, .add 1, .dbl 5, .sub 1, .dbl 7, .sub 2, .dbl 7, .sub 5, .dbl 8, .sub 2,
    .dbl 2, .add 0]

def ChainOp.run (table : List P) (s : P) : ChainOp → P
  | .dbl count => double^[count] s
  | .add entry => s + (table[entry]?).getD 0
  | .sub entry => s - (table[entry]?).getD 0

/-- `ge_check_subgroup_precomp_vartime`: whether the result of the chain is the neutral element,
that is whether the source returns zero. -/
def geCheckSubgroupPrecompVartime [DecidableEq P] (precomp : List P) : Bool :=
  subgroupChain.foldl (ChainOp.run precomp) 0 = 0

/-- The multiple of the point that an operation leaves. -/
def ChainOp.multiple (n : ℤ) : ChainOp → ℤ
  | .dbl count => 2 ^ count * n
  | .add entry => n + (2 * entry + 1)
  | .sub entry => n - (2 * entry + 1)

def ChainOp.InTable : ChainOp → Prop
  | .dbl _ => True
  | .add entry => entry < 8
  | .sub entry => entry < 8

instance (op : ChainOp) : Decidable op.InTable := by
  cases op <;> unfold ChainOp.InTable <;> infer_instance

theorem double_iterate (count : ℕ) (p : P) : double^[count] p = (2 ^ count : ℤ) • p := by
  induction count generalizing p with
  | zero => simp
  | succ count ih =>
    rw [Function.iterate_succ_apply, ih, double, ← two_smul ℤ p, ← mul_smul, pow_succ]

theorem ChainOp.run_eq (p : P) (n : ℤ) {op : ChainOp} (h : op.InTable) :
    op.run (geDsmPrecomp p) (n • p) = op.multiple n • p := by
  have hentry {entry : ℕ} (hentry : entry < 8) :
      ((geDsmPrecomp p)[entry]?).getD 0 = (2 * entry + 1 : ℤ) • p := by
    rw [geDsmPrecomp, getElem?_oddMultiples hentry, Option.getD_some, add_smul, mul_comm, mul_smul,
      one_smul, two_smul, natCast_zsmul]
  cases op with
  | dbl count => rw [run, double_iterate, multiple, mul_smul]
  | add entry => rw [run, hentry h, multiple, add_smul n]
  | sub entry => rw [run, hentry h, multiple, sub_smul n]

theorem foldl_run (p : P) (n : ℤ) {ops : List ChainOp} (h : ∀ op ∈ ops, op.InTable) :
    ops.foldl (ChainOp.run (geDsmPrecomp p)) (n • p) = ops.foldl ChainOp.multiple n • p := by
  induction ops generalizing n with
  | nil => rfl
  | cons op ops ih =>
    rw [List.foldl_cons, List.foldl_cons, ChainOp.run_eq p n (h op List.mem_cons_self)]
    exact ih _ fun op' hop ↦ h op' (List.mem_cons_of_mem _ hop)

/-- The order of the base point. -/
@[irreducible]
def groupOrder : ℕ := 2 ^ 252 + 27742317777372353535851937790883648493

/-- The unrolled chain of the subgroup check multiplies by the order of the base point: it accepts
exactly the points of which that multiple is the neutral element. -/
theorem geCheckSubgroupPrecompVartime_iff [DecidableEq P] (p : P) :
    geCheckSubgroupPrecompVartime (geDsmPrecomp p) = true ↔ groupOrder • p = 0 := by
  have hchain : subgroupChain.foldl ChainOp.multiple 0 = groupOrder := by decide +kernel
  have hrun := foldl_run p 0 (show ∀ op ∈ subgroupChain, op.InTable by decide)
  rw [zero_smul, hchain, natCast_zsmul] at hrun
  rw [geCheckSubgroupPrecompVartime, hrun, decide_eq_true_iff]

end Points

/-! ## Reduced scalars -/

/-- `load_4`, of the word at an index. -/
def load4 (a : Bytes) (word : ℕ) : ℤ := leValue ((a.drop (4 * word)).take 4)

/-- The words that the source compares with, lowest first. -/
def orderWords : List ℤ :=
  [1559614444, 1477600026, 2734136534, 350157278, 0, 0, 0, 268435456]

/-- `sc_isvalid_vartime`: the signs of the differences of the words, each in a bit of its own. -/
def scIsvalidVartime (a : Bytes) : Bool :=
  ofSigned 2 ((List.zipWith (· - ·) orderWords ((List.range 8).map (load4 a))).map Int.sign) / 256 =
    0

theorem leValue_lt (a : Bytes) : leValue a < 256 ^ a.length := by
  induction a with
  | nil => simp [leValue]
  | cons byte a ih =>
    have hbyte := byte.toNat_lt
    rw [leValue, List.length_cons, pow_succ]
    omega

theorem leValue_append (a b : Bytes) :
    leValue (a ++ b) = leValue a + 256 ^ a.length * leValue b := by
  induction a with
  | nil => simp [leValue]
  | cons byte a ih =>
    rw [List.cons_append, leValue, leValue, ih, List.length_cons, pow_succ]
    ring

theorem load4_zero (a : Bytes) : load4 a 0 = leValue (a.take 4) := rfl

theorem load4_succ (a : Bytes) (word : ℕ) : load4 a (word + 1) = load4 (a.drop 4) word := by
  rw [load4, load4, List.drop_drop, mul_add, mul_one, add_comm]

/-- The words together are the scalar. -/
theorem ofSigned_load4 (n : ℕ) {a : Bytes} (ha : a.length = 4 * n) :
    ofSigned (2 ^ 32) ((List.range n).map (load4 a)) = leValue a := by
  induction n generalizing a with
  | zero =>
    obtain rfl := List.length_eq_zero_iff.1 ha
    rfl
  | succ n ih =>
    have hdrop : (a.drop 4).length = 4 * n := by rw [List.length_drop]; omega
    have htake : (a.take 4).length = 4 := by rw [List.length_take]; omega
    have hsplit : leValue a = leValue (a.take 4) + 256 ^ 4 * leValue (a.drop 4) := by
      conv_lhs => rw [← List.take_append_drop 4 a]
      rw [leValue_append, htake]
    have hwords : ((List.range n).map Nat.succ).map (load4 a) =
        (List.range n).map (load4 (a.drop 4)) := by
      rw [List.map_map]
      exact List.map_congr_left fun word _ ↦ load4_succ a word
    rw [List.range_succ_eq_map, List.map_cons, hwords, ofSigned, ih hdrop, load4_zero, hsplit]
    push_cast
    ring

theorem load4_bounds (a : Bytes) (word : ℕ) : 0 ≤ load4 a word ∧ load4 a word < 2 ^ 32 := by
  have hlt := leValue_lt ((a.drop (4 * word)).take 4)
  have hlength : ((a.drop (4 * word)).take 4).length ≤ 4 := by
    rw [List.length_take]
    omega
  have hpow : 256 ^ ((a.drop (4 * word)).take 4).length ≤ 256 ^ 4 :=
    Nat.pow_le_pow_right (by norm_num) hlength
  rw [load4]
  omega

/-- `sc_isvalid_vartime` accepts exactly the reduced scalars. -/
theorem scIsvalidVartime_iff {a : Bytes} (ha : a.length = 32) :
    scIsvalidVartime a = true ↔ leValue a < groupOrder := by
  have hlength : orderWords.length = ((List.range 8).map (load4 a)).length := rfl
  have hbound : ∀ d ∈ List.zipWith (· - ·) orderWords ((List.range 8).map (load4 a)),
      |d| < 2 ^ 32 := by
    intro d hd
    obtain ⟨i, hi, rfl⟩ := List.mem_iff_getElem.1 hd
    rw [List.getElem_zipWith, List.getElem_map]
    have hword : ∀ w ∈ orderWords, 0 ≤ w ∧ w < 2 ^ 32 := by decide
    have hlt : i < (List.range 8).length := by
      simp only [List.length_zipWith, List.length_map] at hi
      omega
    have h₁ := hword _ (List.getElem_mem (show i < orderWords.length from hlt))
    have h₂ := load4_bounds a (List.range 8)[i]
    rw [abs_lt]
    omega
  have hsign := sign_ofSigned hbound
  rw [ofSigned_zipWith_sub _ hlength, ofSigned_load4 8 ha,
    show ofSigned (2 ^ 32) orderWords = (groupOrder : ℤ) - 1 by decide +kernel] at hsign
  have hrange : -256 < ofSigned 2 ((List.zipWith (· - ·) orderWords
      ((List.range 8).map (load4 a))).map Int.sign) ∧ ofSigned 2 ((List.zipWith (· - ·) orderWords
      ((List.range 8).map (load4 a))).map Int.sign) < 256 := by
    have hsigns (d : ℤ) : -1 ≤ d.sign ∧ d.sign ≤ 1 := by
      rcases Int.sign_trichotomy d with h | h | h <;> omega
    have hrange8 : List.range 8 = [0, 1, 2, 3, 4, 5, 6, 7] := rfl
    simp only [hrange8, orderWords, List.map_cons, List.map_nil, List.zipWith_cons_cons,
      List.zipWith_nil_left, ofSigned]
    have h₀ := hsigns (1559614444 - load4 a 0)
    have h₁ := hsigns (1477600026 - load4 a 1)
    have h₂ := hsigns (2734136534 - load4 a 2)
    have h₃ := hsigns (350157278 - load4 a 3)
    have h₄ := hsigns (0 - load4 a 4)
    have h₅ := hsigns (0 - load4 a 5)
    have h₆ := hsigns (0 - load4 a 6)
    have h₇ := hsigns (268435456 - load4 a 7)
    omega
  rw [scIsvalidVartime, decide_eq_true_iff]
  constructor
  · intro hzero
    have hnonneg := Int.sign_nonneg_iff.2 (show 0 ≤ ofSigned 2 ((List.zipWith (· - ·) orderWords
      ((List.range 8).map (load4 a))).map Int.sign) by omega)
    rw [← hsign, Int.sign_nonneg_iff] at hnonneg
    omega
  · intro hlt
    have hnonneg := Int.sign_nonneg_iff.2 (show (0 : ℤ) ≤ groupOrder - 1 - leValue a by omega)
    rw [hsign, Int.sign_nonneg_iff] at hnonneg
    omega

end CryptoOps

end Naza
