import Naza.Currency

/-!
# Amounts as text

`format_amount` groups digits by three, and behind the point by two, three and three; `parse_amount`
reads all digits behind the point.  With ten decimal places the second group holds up to five
digits, and where it holds fewer the text stands for another amount.
-/

namespace Naza

/-! ## Text -/

/-- `DECIMAL_PLACES`. -/
def decimalPlaces : List Amount :=
  [1, 10, 100, 1000, 10000, 100000, 1000000, 10000000, 100000000, 1000000000, 10000000000,
    100000000000, 1000000000000, 10000000000000, 100000000000000, 1000000000000000,
    10000000000000000, 100000000000000000, 1000000000000000000, 10000000000000000000]

/-- `DECIMAL_PLACES.at`. -/
def decimalPlacesAt (i : ℕ) : Except Fault Amount :=
  match decimalPlaces[i]? with
  | some unit => .ok unit
  | none => .error .outOfRange

/-- The apostrophe between groups of digits. -/
def groupMark : Char := Char.ofNat 39

/-- `ffw`: the digits of an amount, filled up with zeros. -/
def ffw (am digs : ℕ) : List Char :=
  let result := Nat.toDigits 10 am
  if result.length < digs then List.replicate (digs - result.length) '0' ++ result else result

/-- The groups of the digits before the point; an amount has at most seven. -/
def thousands : ℕ → ℕ → List Char → List Char
  | 0, ia, result => Nat.toDigits 10 ia ++ result
  | steps + 1, ia, result =>
    if 1000 ≤ ia then thousands steps (ia / 1000) (groupMark :: ffw (ia % 1000) 3 ++ result)
    else Nat.toDigits 10 ia ++ result

/-- `format_amount`. -/
def formatAmount (numberOfDecimalPlaces : ℕ) (amount : Amount) : Except Fault (List Char) := do
  let unit ← decimalPlacesAt numberOfDecimalPlaces
  let ia := amount / unit
  let fa := amount - ia * unit
  let result := thousands 7 ia.toNat []
  let (result, fa) ←
    if fa ≠ 0 then do
      -- the index is an unsigned difference
      let cent ← decimalPlacesAt ((numberOfDecimalPlaces + 2 ^ 64 - 2) % 2 ^ 64)
      .ok (result ++ '.' :: ffw (fa / cent).toNat 2, fa % cent)
    else .ok (result, fa)
  let (result, fa) :=
    if fa ≠ 0 then (result ++ groupMark :: ffw (fa / 1000).toNat 3, fa % 1000) else (result, fa)
  return if fa ≠ 0 then result ++ groupMark :: ffw fa.toNat 3 else result

/-- White space, as `trim` finds it. -/
def isSpace (ch : Char) : Bool := ch = ' ' || 9 ≤ ch.toNat && ch.toNat ≤ 13

/-- `trim`. -/
def trim (s : List Char) : List Char :=
  ((s.dropWhile isSpace).reverse.dropWhile isSpace).reverse

/-- Zeros at the end of a fraction that has too many digits are dropped: the fraction size, and the
text. -/
def dropFractionZeros (numberOfDecimalPlaces : ℕ) : ℕ → List Char → ℕ × List Char
  | 0, s => (0, s)
  | fractionSize + 1, s =>
    if numberOfDecimalPlaces < fractionSize + 1 ∧ s.getLast? = some '0' then
      dropFractionZeros numberOfDecimalPlaces fractionSize s.dropLast
    else (fractionSize + 1, s)

/-- The end of `parse_amount`: digits, filled up with zeros, read as a number of 64 bits. -/
def parseDigits (numberOfDecimalPlaces fractionSize : ℕ) (s : List Char) : Option Amount :=
  if s = [] then none
  else if s.all Char.isDigit = false then none
  else
    let digits := s ++ List.replicate (numberOfDecimalPlaces - fractionSize) '0'
    if Nat.ofDigitChars 10 digits 0 < 2 ^ 64 then
      some (UInt64.ofNat (Nat.ofDigitChars 10 digits 0))
    else none

/-- `parse_amount`. -/
def parseAmount (numberOfDecimalPlaces : ℕ) (str : List Char) : Option Amount :=
  let s := (trim str).filter (· ≠ groupMark)
  match s.idxOf? '.' with
  | some pointIndex =>
    let (fractionSize, s) :=
      dropFractionZeros numberOfDecimalPlaces (s.length - pointIndex - 1) s
    if numberOfDecimalPlaces < fractionSize then none
    else parseDigits numberOfDecimalPlaces fractionSize (s.eraseIdx pointIndex)
  | none => parseDigits numberOfDecimalPlaces 0 s

/-- `CRYPTONOTE_DISPLAY_DECIMAL_POINT`, which the constructor of `Currency` takes for its
`number_of_decimal_places`. -/
def Parameters.cryptonoteDisplayDecimalPoint : ℕ := 10

example : formatAmount 10 12345678900000000 = .ok "1'234'567.89".toList ∧
    parseAmount 10 " 1'234.5 ".toList = some 12345000000000 := by decide +kernel

/-! ## Digits -/

/-- The number that digits stand for. -/
def valueOf (digits : List Char) : ℕ := Nat.ofDigitChars 10 digits 0

theorem valueOf_append (l m : List Char) :
    valueOf (l ++ m) = 10 ^ m.length * valueOf l + valueOf m := by
  rw [valueOf, Nat.ofDigitChars_append, Nat.ofDigitChars_eq_ofDigitChars_zero]
  rfl

theorem valueOf_replicate_zero (n : ℕ) : valueOf (List.replicate n '0') = 0 := by
  rw [valueOf, Nat.ofDigitChars_replicate_zero, Nat.mul_zero]

theorem valueOf_toDigits (n : ℕ) : valueOf (Nat.toDigits 10 n) = n :=
  Nat.ofDigitChars_ten_toDigits

theorem valueOf_ffw (am digs : ℕ) : valueOf (ffw am digs) = am := by
  unfold ffw
  dsimp only
  split
  · rw [valueOf_append, valueOf_replicate_zero, Nat.mul_zero, Nat.zero_add, valueOf_toDigits]
  · exact valueOf_toDigits am

/-- Digits only. -/
def Digits (l : List Char) : Prop := ∀ ch ∈ l, ch.isDigit = true

theorem digits_toDigits (n : ℕ) : Digits (Nat.toDigits 10 n) := fun _ hch ↦
  Nat.isDigit_of_mem_toDigits (by decide) (by decide) hch

theorem digits_ffw (am digs : ℕ) : Digits (ffw am digs) := by
  intro ch hch
  unfold ffw at hch
  dsimp only at hch
  split at hch
  · rcases List.mem_append.1 hch with hzero | hdigit
    · rw [List.eq_of_mem_replicate hzero]
      decide
    · exact digits_toDigits am ch hdigit
  · exact digits_toDigits am ch hch

theorem length_ffw {am digs k : ℕ} (hk : 0 < k) (ham : am < 10 ^ k) (hdigs : digs ≤ k) :
    digs ≤ (ffw am digs).length ∧ (ffw am digs).length ≤ k := by
  have hle := (Nat.length_toDigits_le_iff (by decide) hk).2 ham
  unfold ffw
  dsimp only
  split
  · rw [List.length_append, List.length_replicate]
    omega
  · omega

theorem length_ffw_self {am digs : ℕ} (hdigs : 0 < digs) (ham : am < 10 ^ digs) :
    (ffw am digs).length = digs := by
  obtain ⟨hle, hge⟩ := length_ffw hdigs ham (le_refl digs)
  exact le_antisymm hge hle

theorem length_ffw_lt {am digs k : ℕ} (hk : 0 < k) (hdigs : digs ≤ k) :
    (ffw am digs).length ≤ k ↔ am < 10 ^ k := by
  rw [← Nat.length_toDigits_le_iff (by decide) hk]
  unfold ffw
  dsimp only
  split
  · rw [List.length_append, List.length_replicate]
    omega
  · rfl

theorem Digits.append {l m : List Char} (hl : Digits l) (hm : Digits m) : Digits (l ++ m) := by
  intro ch hch
  rcases List.mem_append.1 hch with hch | hch
  · exact hl ch hch
  · exact hm ch hch

theorem Digits.filter {l : List Char} (h : Digits l) : l.filter (· ≠ groupMark) = l := by
  refine List.filter_eq_self.2 fun ch hch ↦ ?_
  have hdigit := h ch hch
  refine decide_eq_true ?_
  rintro rfl
  exact absurd hdigit (by decide)

/-! ## What is written -/

/-- What is written behind the digits before the point: the point and two digits, and two further
groups. -/
def fractionText (fa : ℕ) : List Char :=
  (if fa ≠ 0 then '.' :: ffw (fa / 10 ^ 8) 2 else []) ++
    ((if fa % 10 ^ 8 ≠ 0 then groupMark :: ffw (fa % 10 ^ 8 / 1000) 3 else []) ++
      if fa % 10 ^ 8 % 1000 ≠ 0 then groupMark :: ffw (fa % 10 ^ 8 % 1000) 3 else [])

theorem toNat_ne_zero {x : UInt64} (hx : x ≠ 0) : x.toNat ≠ 0 := by
  rwa [ne_eq, ← UInt64.toNat_zero, UInt64.toNat_inj]

theorem formatAmount_eq (amount : Amount) :
    formatAmount Parameters.cryptonoteDisplayDecimalPoint amount =
      .ok (thousands 7 (amount.toNat / 10 ^ 10) [] ++ fractionText (amount.toNat % 10 ^ 10)) := by
  obtain ⟨unit, hunit, hunitNat⟩ : ∃ unit,
      decimalPlacesAt Parameters.cryptonoteDisplayDecimalPoint = .ok unit ∧ unit.toNat = 10 ^ 10 :=
    ⟨10000000000, rfl, rfl⟩
  obtain ⟨cent, hcent, hcentNat⟩ : ∃ cent,
      decimalPlacesAt ((Parameters.cryptonoteDisplayDecimalPoint + 2 ^ 64 - 2) % 2 ^ 64) =
        .ok cent ∧ cent.toNat = 10 ^ 8 :=
    ⟨100000000, by decide, rfl⟩
  have hlt := amount.toNat_lt
  have hia : (amount / unit).toNat = amount.toNat / 10 ^ 10 := by
    rw [UInt64.toNat_div, hunitNat]
  have hfa : (amount - amount / unit * unit).toNat = amount.toNat % 10 ^ 10 := by
    have hmul : (amount / unit * unit).toNat = amount.toNat / 10 ^ 10 * 10 ^ 10 := by
      rw [UInt64.toNat_mul, hia, hunitNat]
      omega
    rw [UInt64.toNat_sub_of_le _ _ (by rw [UInt64.le_iff_toNat_le, hmul]; omega), hmul]
    omega
  unfold formatAmount
  rw [hunit, hcent]
  dsimp only [bind, Except.bind, pure, Except.pure]
  rw [hia]
  generalize amount - amount / unit * unit = fa at hfa ⊢
  rw [← hfa, fractionText]
  by_cases hzero : fa = 0
  · subst hzero
    simp
  have hrest : (fa % cent).toNat = fa.toNat % 10 ^ 8 := by
    rw [UInt64.toNat_mod, hcentNat]
  have hfirst : (fa / cent).toNat = fa.toNat / 10 ^ 8 := by
    rw [UInt64.toNat_div, hcentNat]
  rw [if_pos hzero, if_pos (toNat_ne_zero hzero), ← hfirst, ← hrest]
  generalize fa % cent = r
  by_cases hr : r = 0
  · subst hr
    simp
  rw [if_pos hr, if_pos (toNat_ne_zero hr)]
  dsimp only
  have hlast : (r % 1000).toNat = r.toNat % 1000 := UInt64.toNat_mod r 1000
  have hmiddle : (r / 1000).toNat = r.toNat / 1000 := UInt64.toNat_div r 1000
  rw [← hlast, ← hmiddle]
  by_cases hl : r % 1000 = 0
  · rw [hl]
    simp
  · rw [if_pos hl, if_pos (toNat_ne_zero hl)]
    simp only [List.append_assoc, List.cons_append]

/-- The digits before the point, without marks. -/
theorem filter_thousands (steps ia : ℕ) (result : List Char) :
    ∃ digits, Digits digits ∧ digits ≠ [] ∧
      (thousands steps ia result).filter (· ≠ groupMark) =
        digits ++ result.filter (· ≠ groupMark) ∧ valueOf digits = ia := by
  have hlast : ∀ ia, ∃ digits, Digits digits ∧ digits ≠ [] ∧
      (Nat.toDigits 10 ia ++ result).filter (· ≠ groupMark) =
        digits ++ result.filter (· ≠ groupMark) ∧ valueOf digits = ia := fun ia ↦
    ⟨Nat.toDigits 10 ia, digits_toDigits ia, Nat.toDigits_ne_nil,
      by rw [List.filter_append, (digits_toDigits ia).filter], valueOf_toDigits ia⟩
  induction steps generalizing ia result with
  | zero => exact hlast ia
  | succ steps ih =>
    rw [thousands]
    split
    · next hlarge =>
      obtain ⟨digits, hdigits, hne, heq, hvalue⟩ :=
        ih (ia / 1000) (groupMark :: ffw (ia % 1000) 3 ++ result) (fun ia ↦
          ⟨Nat.toDigits 10 ia, digits_toDigits ia, Nat.toDigits_ne_nil,
            by rw [List.filter_append, (digits_toDigits ia).filter], valueOf_toDigits ia⟩)
      refine ⟨digits ++ ffw (ia % 1000) 3, hdigits.append (digits_ffw _ _), by simp [hne], ?_, ?_⟩
      · rw [heq, List.cons_append, List.filter_cons_of_neg (by simp), List.filter_append,
          (digits_ffw _ _).filter, List.append_assoc]
      · rw [valueOf_append, hvalue, valueOf_ffw, length_ffw_self (by decide) (by omega)]
        omega
    · exact hlast ia

theorem mem_thousands {steps ia : ℕ} {result : List Char} {ch : Char}
    (hch : ch ∈ thousands steps ia result) :
    ch.isDigit = true ∨ ch = groupMark ∨ ch ∈ result := by
  induction steps generalizing ia result with
  | zero =>
    rcases List.mem_append.1 hch with hdigit | hresult
    · exact Or.inl (digits_toDigits ia ch hdigit)
    · exact Or.inr (Or.inr hresult)
  | succ steps ih =>
    rw [thousands] at hch
    split at hch
    · rcases ih hch with hdigit | hmark | hmem
      · exact Or.inl hdigit
      · exact Or.inr (Or.inl hmark)
      · rcases List.mem_cons.1 hmem with hmark | hmem
        · exact Or.inr (Or.inl hmark)
        · rcases List.mem_append.1 hmem with hdigit | hresult
          · exact Or.inl (digits_ffw _ _ ch hdigit)
          · exact Or.inr (Or.inr hresult)
    · rcases List.mem_append.1 hch with hdigit | hresult
      · exact Or.inl (digits_toDigits ia ch hdigit)
      · exact Or.inr (Or.inr hresult)

/-- The digits behind the point, without the mark. -/
def fractionDigits (fa : ℕ) : List Char :=
  ffw (fa / 10 ^ 8) 2 ++
    ((if fa % 10 ^ 8 ≠ 0 then ffw (fa % 10 ^ 8 / 1000) 3 else []) ++
      if fa % 10 ^ 8 % 1000 ≠ 0 then ffw (fa % 10 ^ 8 % 1000) 3 else [])

theorem digits_fractionDigits (fa : ℕ) : Digits (fractionDigits fa) := by
  unfold fractionDigits
  refine (digits_ffw _ _).append (Digits.append ?_ ?_)
  · split
    · exact digits_ffw _ _
    · exact fun ch hch ↦ absurd hch List.not_mem_nil
  · split
    · exact digits_ffw _ _
    · exact fun ch hch ↦ absurd hch List.not_mem_nil

theorem filter_fractionText {fa : ℕ} (hfa : fa ≠ 0) :
    (fractionText fa).filter (· ≠ groupMark) = '.' :: fractionDigits fa := by
  have hgroup : ∀ (p : Prop) [Decidable p] (l : List Char), Digits l →
      (if p then groupMark :: l else []).filter (· ≠ groupMark) = if p then l else [] := by
    intro p _ l hl
    split
    · rw [List.filter_cons_of_neg (by simp), hl.filter]
    · rfl
  rw [fractionText, if_pos hfa, List.filter_append, List.filter_append,
    hgroup _ _ (digits_ffw _ _), hgroup _ _ (digits_ffw _ _),
    List.filter_cons_of_pos (by decide), (digits_ffw _ _).filter]
  rfl

/-- The digits behind the point, filled up to ten, stand for the fraction where no group lost
zeros. -/
theorem valueOf_fractionDigits_iff {fa : ℕ} (hfa : fa < 10 ^ 10) :
    (fractionDigits fa).length ≤ 10 ∧
      (valueOf (fractionDigits fa) * 10 ^ (10 - (fractionDigits fa).length) = fa ↔
        fa % 10 ^ 8 = 0 ∨ 10 ^ 7 ≤ fa % 10 ^ 8) := by
  have hq : (ffw (fa / 10 ^ 8) 2).length = 2 := length_ffw_self (by decide) (by omega)
  have hlast : (ffw (fa % 10 ^ 8 % 1000) 3).length = 3 := length_ffw_self (by decide) (by omega)
  obtain ⟨hge, hle⟩ := @length_ffw (fa % 10 ^ 8 / 1000) 3 5
    (by decide) (by omega) (by decide)
  have hfive := @length_ffw_lt (fa % 10 ^ 8 / 1000) 3 4
    (by decide) (by decide)
  have hvalue := valueOf_ffw (fa % 10 ^ 8 / 1000) 3
  have hvalueLast := valueOf_ffw (fa % 10 ^ 8 % 1000) 3
  have hvalueFirst := valueOf_ffw (fa / 10 ^ 8) 2
  unfold fractionDigits
  generalize ffw (fa / 10 ^ 8) 2 = first at *
  generalize ffw (fa % 10 ^ 8 / 1000) 3 = middle at *
  generalize ffw (fa % 10 ^ 8 % 1000) 3 = last at *
  have hparts := Nat.div_add_mod fa (10 ^ 8)
  have hr := Nat.div_add_mod (fa % 10 ^ 8) 1000
  have hlen : middle.length = 3 ∨ middle.length = 4 ∨ middle.length = 5 := by omega
  by_cases hzero : fa % 10 ^ 8 = 0
  · rw [hzero]
    simp [hq, hvalueFirst]
    omega
  · by_cases hthree : fa % 10 ^ 8 % 1000 = 0
    · rw [if_pos hzero, if_neg (not_not.2 hthree), List.append_nil, List.length_append, hq,
        valueOf_append, hvalue, hvalueFirst]
      rcases hlen with hlen | hlen | hlen
      all_goals
        rw [hlen] at hfive ⊢
        omega
    · rw [if_pos hzero, if_pos hthree, List.length_append, List.length_append, hq, hlast,
        valueOf_append, valueOf_append, List.length_append, hvalue, hvalueFirst, hvalueLast, hlast]
      rcases hlen with hlen | hlen | hlen
      all_goals
        rw [hlen] at hfive ⊢
        omega

/-! ## What is read -/

theorem dropWhile_isSpace {l : List Char} (h : ∀ ch ∈ l, isSpace ch = false) :
    l.dropWhile isSpace = l := by
  cases l with
  | nil => rfl
  | cons ch l => rw [List.dropWhile_cons_of_neg (by simp [h ch List.mem_cons_self])]

theorem trim_eq {l : List Char} (h : ∀ ch ∈ l, isSpace ch = false) : trim l = l := by
  rw [trim, dropWhile_isSpace h, dropWhile_isSpace fun ch hch ↦ h ch (List.mem_reverse.1 hch),
    List.reverse_reverse]

theorem isSpace_of_isDigit {ch : Char} (hch : ch.isDigit = true) : isSpace ch = false := by
  have hge : 48 ≤ ch.toNat := (Char.isDigit_iff_toNat.1 hch).1
  have hne : ch ≠ ' ' := by
    rintro rfl
    exact absurd hch (by decide)
  simp only [isSpace, Bool.or_eq_false_iff, Bool.and_eq_false_iff, decide_eq_false_iff_not]
  exact ⟨hne, Or.inr (by omega)⟩

/-- What `format_amount` writes is made of digits, marks and the point. -/
theorem mem_fractionText {fa : ℕ} {ch : Char} (hch : ch ∈ fractionText fa) :
    ch.isDigit = true ∨ ch = groupMark ∨ ch = '.' := by
  have hgroup : ∀ (p : Prop) [Decidable p] (mark : Char) (l : List Char), Digits l →
      ch ∈ (if p then mark :: l else []) → ch.isDigit = true ∨ ch = mark := by
    intro p _ mark l hl hmem
    split at hmem
    · rcases List.mem_cons.1 hmem with hmark | hmem
      · exact Or.inr hmark
      · exact Or.inl (hl ch hmem)
    · exact absurd hmem List.not_mem_nil
  rcases List.mem_append.1 hch with hcents | hch
  · rcases hgroup _ _ _ (digits_ffw _ _) hcents with hdigit | hmark
    · exact Or.inl hdigit
    · exact Or.inr (Or.inr hmark)
  · have hrest : ch.isDigit = true ∨ ch = groupMark := by
      rcases List.mem_append.1 hch with hmem | hmem
      · exact hgroup _ _ _ (digits_ffw _ _) hmem
      · exact hgroup _ _ _ (digits_ffw _ _) hmem
    rcases hrest with hdigit | hmark
    · exact Or.inl hdigit
    · exact Or.inr (Or.inl hmark)

theorem trim_text (steps ia fa : ℕ) :
    trim (thousands steps ia [] ++ fractionText fa) =
      thousands steps ia [] ++ fractionText fa := by
  refine trim_eq fun ch hch ↦ ?_
  have hkinds : ch.isDigit = true ∨ ch = groupMark ∨ ch = '.' := by
    rcases List.mem_append.1 hch with hmem | hmem
    · rcases mem_thousands hmem with hdigit | hmark | hnil
      · exact Or.inl hdigit
      · exact Or.inr (Or.inl hmark)
      · exact absurd hnil List.not_mem_nil
    · exact mem_fractionText hmem
  rcases hkinds with hdigit | rfl | rfl
  · exact isSpace_of_isDigit hdigit
  · decide
  · decide

theorem Digits.point_not_mem {l : List Char} (h : Digits l) : '.' ∉ l := fun hmem ↦
  absurd (h '.' hmem) (by decide)

theorem parseDigits_eq_some_iff {n fractionSize : ℕ} {s : List Char} {amount : Amount}
    (hne : s ≠ []) (hs : Digits s) :
    parseDigits n fractionSize s = some amount ↔
      valueOf s * 10 ^ (n - fractionSize) = amount.toNat := by
  have hvalue : Nat.ofDigitChars 10 (s ++ List.replicate (n - fractionSize) '0') 0 =
      valueOf s * 10 ^ (n - fractionSize) := by
    change valueOf (s ++ List.replicate (n - fractionSize) '0') = _
    rw [valueOf_append, valueOf_replicate_zero, List.length_replicate, Nat.add_zero, Nat.mul_comm]
  have hall : s.all Char.isDigit = true := List.all_eq_true.2 hs
  have hlt := amount.toNat_lt
  rw [parseDigits, if_neg hne, if_neg (by simp [hall])]
  dsimp only
  rw [hvalue]
  split
  · next hfits =>
    rw [Option.some.injEq, ← UInt64.toNat_inj, UInt64.toNat_ofNat_of_lt' hfits]
  · next hlarge =>
    constructor
    · intro h
      exact absurd h (by simp)
    · intro h
      omega

/-- Text without marks, with and without a point. -/
theorem parseAmount_digits {n : ℕ} {s digits : List Char} {amount : Amount} (htrim : trim s = s)
    (hs : s.filter (· ≠ groupMark) = digits) (hdigits : Digits digits) (hne : digits ≠ []) :
    parseAmount n s = some amount ↔ valueOf digits * 10 ^ n = amount.toNat := by
  have hpoint : digits.idxOf? '.' = none := List.idxOf?_eq_none_iff.2 hdigits.point_not_mem
  rw [parseAmount, htrim, hs]
  dsimp only
  rw [hpoint]
  exact parseDigits_eq_some_iff hne hdigits

theorem idxOf?_append_cons {x : Char} {l m : List Char} (hl : x ∉ l) :
    (l ++ x :: m).idxOf? x = some l.length := by
  induction l with
  | nil => simp [List.idxOf?_cons]
  | cons y l ih =>
    have hy : y ≠ x := fun h ↦ hl (by simp [h])
    have hnot : x ∉ l := fun h ↦ hl (List.mem_cons_of_mem y h)
    rw [List.cons_append, List.idxOf?_cons, if_neg (by simpa using hy), ih hnot]
    rfl

theorem parseAmount_point {n : ℕ} {s digits fraction : List Char} {amount : Amount}
    (htrim : trim s = s) (hs : s.filter (· ≠ groupMark) = digits ++ '.' :: fraction)
    (hdigits : Digits digits) (hne : digits ≠ []) (hfraction : Digits fraction)
    (hlength : fraction.length ≤ n) :
    parseAmount n s = some amount ↔
      valueOf (digits ++ fraction) * 10 ^ (n - fraction.length) = amount.toNat := by
  have hsize : (digits ++ '.' :: fraction).length - digits.length - 1 = fraction.length := by
    simp
  have hdrop : dropFractionZeros n fraction.length (digits ++ '.' :: fraction) =
      (fraction.length, digits ++ '.' :: fraction) := by
    cases hfl : fraction.length with
    | zero => rfl
    | succ k => rw [dropFractionZeros, if_neg (by omega)]
  have herase : (digits ++ '.' :: fraction).eraseIdx digits.length = digits ++ fraction := by
    rw [List.eraseIdx_append_of_length_le le_rfl, Nat.sub_self]
    rfl
  rw [parseAmount, htrim, hs]
  dsimp only
  rw [idxOf?_append_cons hdigits.point_not_mem]
  dsimp only
  rw [hsize, hdrop]
  dsimp only
  rw [if_neg (by omega), herase]
  exact parseDigits_eq_some_iff (by simp [hne]) (hdigits.append hfraction)

/-- What was written is read back as the amount exactly where no group behind the point lost
zeros. -/
theorem parseAmount_text_iff (a : Amount) :
    parseAmount Parameters.cryptonoteDisplayDecimalPoint
        (thousands 7 (a.toNat / 10 ^ 10) [] ++ fractionText (a.toNat % 10 ^ 10)) = some a ↔
      a.toNat % 10 ^ 8 = 0 ∨ 10 ^ 7 ≤ a.toNat % 10 ^ 8 := by
  obtain ⟨digits, hdigits, hne, hfilter, hvalue⟩ := filter_thousands 7 (a.toNat / 10 ^ 10) []
  have hparts := Nat.div_add_mod a.toNat (10 ^ 10)
  have hmod : a.toNat % 10 ^ 10 % 10 ^ 8 = a.toNat % 10 ^ 8 :=
    Nat.mod_mod_of_dvd _ (pow_dvd_pow 10 (by decide))
  by_cases hfa : a.toNat % 10 ^ 10 = 0
  · have hs : (thousands 7 (a.toNat / 10 ^ 10) [] ++ fractionText (a.toNat % 10 ^ 10)).filter
        (· ≠ groupMark) = digits := by
      rw [hfa, List.filter_append, hfilter]
      simp [fractionText]
    rw [parseAmount_digits (trim_text _ _ _) hs hdigits hne, hvalue,
      show Parameters.cryptonoteDisplayDecimalPoint = 10 from rfl]
    omega
  · have hs : (thousands 7 (a.toNat / 10 ^ 10) [] ++ fractionText (a.toNat % 10 ^ 10)).filter
        (· ≠ groupMark) = digits ++ '.' :: fractionDigits (a.toNat % 10 ^ 10) := by
      rw [List.filter_append, hfilter, filter_fractionText hfa, List.filter_nil, List.append_nil]
    obtain ⟨hlength, hiff⟩ := valueOf_fractionDigits_iff (Nat.mod_lt a.toNat (by decide))
    have hread := @parseAmount_point Parameters.cryptonoteDisplayDecimalPoint _ _ _ a
      (trim_text _ _ _) hs hdigits hne (digits_fractionDigits _) hlength
    rw [hread, valueOf_append, hvalue, ← hmod, ← hiff]
    generalize fractionDigits (a.toNat % 10 ^ 10) = fraction at hlength ⊢
    rw [Nat.add_mul, Nat.mul_right_comm, ← pow_add,
      show fraction.length + (Parameters.cryptonoteDisplayDecimalPoint - fraction.length) = 10 from
        Nat.add_sub_cancel' hlength]
    change _ + valueOf fraction * 10 ^ (10 - fraction.length) = _ ↔ _
    omega

/-! ## Different amounts -/

/-- Text is cut in one way where a mark is first met. -/
theorem append_cut_inj {x : Char} {l l' m m' : List Char} (hl : x ∉ l) (hl' : x ∉ l')
    (hm : ∀ y ∈ m.head?, y = x) (hm' : ∀ y ∈ m'.head?, y = x) (h : l ++ m = l' ++ m') :
    l = l' ∧ m = m' := by
  induction l generalizing l' with
  | nil =>
    cases l' with
    | nil => exact ⟨rfl, h⟩
    | cons y l' =>
      rw [List.nil_append] at h
      exact absurd (hm y (by rw [h]; rfl)) fun heq ↦ hl' (by simp [heq])
  | cons y l ih =>
    cases l' with
    | nil =>
      rw [List.nil_append] at h
      exact absurd (hm' y (by rw [← h]; rfl)) fun heq ↦ hl (by simp [heq])
    | cons y' l' =>
      obtain ⟨rfl, htail⟩ := List.cons.inj h
      obtain ⟨rfl, rfl⟩ := ih (fun hx ↦ hl (List.mem_cons_of_mem y hx))
        (fun hx ↦ hl' (List.mem_cons_of_mem y hx)) htail
      exact ⟨rfl, rfl⟩

theorem groupMark_not_mem {l : List Char} (h : Digits l) : groupMark ∉ l := fun hmem ↦
  absurd (h groupMark hmem) (by decide)

/-- A number other than zero is written behind a mark, and zero not at all. -/
theorem mark_ffw_inj {x : Char} {k k' am am' digs : ℕ} (hk : k = 0 → am = 0)
    (hk' : k' = 0 → am' = 0)
    (h : (if k ≠ 0 then x :: ffw am digs else []) = if k' ≠ 0 then x :: ffw am' digs else []) :
    am = am' := by
  by_cases hzero : k = 0
  · by_cases hzero' : k' = 0
    · rw [hk hzero, hk' hzero']
    · rw [if_neg (not_not.2 hzero), if_pos hzero'] at h
      exact absurd h (by simp)
  · by_cases hzero' : k' = 0
    · rw [if_pos hzero, if_neg (not_not.2 hzero')] at h
      exact absurd h (by simp)
    · rw [if_pos hzero, if_pos hzero'] at h
      have hvalue := congrArg valueOf (List.cons.inj h).2
      rwa [valueOf_ffw, valueOf_ffw] at hvalue

/-- The groups behind the first two digits. -/
def groupsText (r : ℕ) : List Char :=
  (if r ≠ 0 then groupMark :: ffw (r / 1000) 3 else []) ++
    if r % 1000 ≠ 0 then groupMark :: ffw (r % 1000) 3 else []

theorem head?_groupsText (r : ℕ) : ∀ y ∈ (groupsText r).head?, y = groupMark := by
  intro y hy
  by_cases hr : r = 0
  · subst hr
    exact absurd hy (by simp [groupsText])
  · rw [groupsText, if_pos hr, List.cons_append, List.head?_cons] at hy
    exact (Option.some.inj hy).symm

theorem groupsText_inj {r r' : ℕ} (h : groupsText r = groupsText r') : r = r' := by
  have hzero : ∀ {r}, groupsText r = [] → r = 0 := by
    intro r hnil
    by_contra hr
    rw [groupsText, if_pos hr] at hnil
    exact absurd hnil (by simp)
  have hgroups : groupsText 0 = [] := by simp [groupsText]
  by_cases hr : r = 0
  · subst hr
    exact (hzero (h.symm.trans hgroups)).symm
  · by_cases hr' : r' = 0
    · subst hr'
      exact hzero (h.trans hgroups)
    · have hhead : ∀ k, ∀ y ∈ (if k ≠ 0 then groupMark :: ffw k 3 else []).head?,
          y = groupMark := by
        intro k y hy
        split at hy
        · exact (Option.some.inj hy).symm
        · exact absurd hy (by simp)
      rw [groupsText, groupsText, if_pos hr, if_pos hr', List.cons_append, List.cons_append] at h
      obtain ⟨hmiddle, hlast⟩ := append_cut_inj (groupMark_not_mem (digits_ffw _ _))
        (groupMark_not_mem (digits_ffw _ _)) (hhead _) (hhead _) (List.cons.inj h).2
      have hquotient := congrArg valueOf hmiddle
      rw [valueOf_ffw, valueOf_ffw] at hquotient
      have hremainder := mark_ffw_inj id id hlast
      calc
        r = 1000 * (r / 1000) + r % 1000 := (Nat.div_add_mod r 1000).symm
        _ = 1000 * (r' / 1000) + r' % 1000 := by rw [hquotient, hremainder]
        _ = r' := Nat.div_add_mod r' 1000

theorem fractionText_inj {fa fa' : ℕ} (h : fractionText fa = fractionText fa') : fa = fa' := by
  have hmark : ∀ fa, groupMark ∉ (if fa ≠ 0 then '.' :: ffw (fa / 10 ^ 8) 2 else []) := by
    intro fa hmem
    split at hmem
    · rcases List.mem_cons.1 hmem with hpoint | hmem
      · exact absurd hpoint (by decide)
      · exact groupMark_not_mem (digits_ffw _ _) hmem
    · exact absurd hmem List.not_mem_nil
  obtain ⟨hcents, hgroups⟩ := append_cut_inj (hmark fa) (hmark fa')
    (head?_groupsText (fa % 10 ^ 8)) (head?_groupsText (fa' % 10 ^ 8)) h
  have hquotient : fa / 10 ^ 8 = fa' / 10 ^ 8 := by
    apply mark_ffw_inj _ _ hcents
    · rintro rfl
      rfl
    · rintro rfl
      rfl
  have hremainder := groupsText_inj hgroups
  calc
    fa = 10 ^ 8 * (fa / 10 ^ 8) + fa % 10 ^ 8 := (Nat.div_add_mod fa _).symm
    _ = 10 ^ 8 * (fa' / 10 ^ 8) + fa' % 10 ^ 8 := by rw [hquotient, hremainder]
    _ = fa' := Nat.div_add_mod fa' _

/-- The text shows the amount: no other amount has it. -/
theorem text_inj {a b : Amount}
    (h : thousands 7 (a.toNat / 10 ^ 10) [] ++ fractionText (a.toNat % 10 ^ 10) =
      thousands 7 (b.toNat / 10 ^ 10) [] ++ fractionText (b.toNat % 10 ^ 10)) : a = b := by
  have hpoint : ∀ ia, '.' ∉ thousands 7 ia [] := by
    intro ia hmem
    rcases mem_thousands hmem with hdigit | hmark | hnil
    · exact absurd hdigit (by decide)
    · exact absurd hmark (by decide)
    · exact List.not_mem_nil hnil
  have hhead : ∀ fa, ∀ y ∈ (fractionText fa).head?, y = '.' := by
    intro fa y hy
    by_cases hfa : fa = 0
    · subst hfa
      exact absurd hy (by simp [fractionText])
    · rw [fractionText, if_pos hfa, List.cons_append, List.head?_cons] at hy
      exact (Option.some.inj hy).symm
  obtain ⟨hwhole, hfraction⟩ := append_cut_inj (hpoint _) (hpoint _) (hhead _) (hhead _) h
  have hquotient : a.toNat / 10 ^ 10 = b.toNat / 10 ^ 10 := by
    obtain ⟨digits, -, -, hfilter, hvalue⟩ := filter_thousands 7 (a.toNat / 10 ^ 10) []
    obtain ⟨digits', -, -, hfilter', hvalue'⟩ := filter_thousands 7 (b.toNat / 10 ^ 10) []
    rw [hwhole, hfilter', List.filter_nil, List.append_nil, List.append_nil] at hfilter
    rw [← hvalue, ← hvalue', hfilter]
  have hremainder := fractionText_inj hfraction
  apply UInt64.toNat_inj.1
  calc
    a.toNat = 10 ^ 10 * (a.toNat / 10 ^ 10) + a.toNat % 10 ^ 10 := (Nat.div_add_mod _ _).symm
    _ = 10 ^ 10 * (b.toNat / 10 ^ 10) + b.toNat % 10 ^ 10 := by rw [hquotient, hremainder]
    _ = b.toNat := Nat.div_add_mod _ _

/-- An amount is read back from the text that shows it exactly when its last eight places are all
zero or make up a number of eight digits; the text of an amount is never that of another. -/
theorem parseAmount_formatAmount_iff (a : Amount) :
    ((∃ text, formatAmount Parameters.cryptonoteDisplayDecimalPoint a = .ok text ∧
        parseAmount Parameters.cryptonoteDisplayDecimalPoint text = some a) ↔
      a.toNat % 10 ^ 8 = 0 ∨ 10 ^ 7 ≤ a.toNat % 10 ^ 8) ∧
      ∀ b, formatAmount Parameters.cryptonoteDisplayDecimalPoint a =
        formatAmount Parameters.cryptonoteDisplayDecimalPoint b → a = b := by
  constructor
  · rw [← parseAmount_text_iff a, formatAmount_eq]
    constructor
    · intro ⟨text, htext, hread⟩
      cases htext
      exact hread
    · exact fun hread ↦ ⟨_, rfl, hread⟩
  · intro b hb
    rw [formatAmount_eq, formatAmount_eq] at hb
    exact text_inj (Except.ok.inj hb)

theorem formatAmount_one :
    formatAmount Parameters.cryptonoteDisplayDecimalPoint 1 = .ok "0.00'000'001".toList ∧
      parseAmount Parameters.cryptonoteDisplayDecimalPoint "0.00'000'001".toList = some 100 := by
  decide +kernel

/-- One of the smallest units is shown as a text that stands for a hundred of them. -/
theorem not_parseAmount_formatAmount :
    ¬∀ a : Amount, ∃ text, formatAmount Parameters.cryptonoteDisplayDecimalPoint a = .ok text ∧
      parseAmount Parameters.cryptonoteDisplayDecimalPoint text = some a := by
  intro h
  obtain ⟨text, htext, hread⟩ := h 1
  rw [formatAmount_one.1] at htext
  cases htext
  rw [formatAmount_one.2] at hread
  exact absurd hread (by decide)

end Naza
