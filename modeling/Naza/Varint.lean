import Naza.Base58
import Naza.Lib.ByteOrder
import Naza.State

/-!
# Integers of variable length

The LEB128 integers of `Varint.hpp` and `Streams.cpp` with their two readers, and the ordered
integers of `Varint.cpp` from which database keys are built.  The reader over iterators answers at
the end of its input with what it has read, which is the one difference between the two readers.
-/

open Lib

namespace Naza

/-! ## LEB128 -/

/-- The unsigned types that the readers are instantiated at. -/
inductive IntegerWidth where
  | uint8
  | uint16
  | uint32
  | uint64
  deriving DecidableEq

/-- `std::numeric_limits<T>::digits`. -/
def IntegerWidth.bits : IntegerWidth → ℕ
  | uint8 => 8
  | uint16 => 16
  | uint32 => 32
  | uint64 => 64

namespace IntegerWidth

variable (width : IntegerWidth) (b : Bytes)

theorem bits_le : width.bits ≤ 64 := by
  cases width <;> decide

/-- What the reader of streams accepts: the number of bytes consumed, and the integer. -/
def streamRead : Option (ℕ × ℕ) :=
  (Seria.readVarint width.bits b).map fun (n, rest) ↦ (b.length - rest.length, n)

/-- What the reader over iterators accepts: a positive length, and the integer. -/
def iteratorRead : Option (ℕ × ℕ) :=
  match Base58.readVarint width.bits 0 0 0 b with
  | (read, n) => if 0 < read then some (read.toNat, n) else none

/-- The bytes begin with what `write_varint` makes of a value of the width. -/
def BeginsWith (length n : ℕ) : Prop :=
  n < 2 ^ width.bits ∧ length = (Seria.writeVarint n).length ∧ Seria.writeVarint n <+: b

/-- Both readers accept exactly the canonical encodings, and they agree. -/
structure ReadsCanonically : Prop where
  stream : ∀ length n, width.streamRead b = some (length, n) ↔ width.BeginsWith b length n
  iterator : ∀ length n, width.iteratorRead b = some (length, n) ↔ width.BeginsWith b length n
  agree : width.streamRead b = width.iteratorRead b

/-- The bytes end inside an integer: each announces another one, and they are too few to overflow
the width. -/
def CutShort : Prop := b ≠ [] ∧ (∀ byte ∈ b, 0x80 ≤ byte.toNat) ∧ 7 * b.length < width.bits

variable {width b}

theorem streamRead_eq_some_iff {length n : ℕ} :
    width.streamRead b = some (length, n) ↔ width.BeginsWith b length n := by
  rw [streamRead, Option.map_eq_some_iff]
  constructor
  · rintro ⟨⟨n', rest⟩, hread, hpair⟩
    obtain ⟨rfl, rfl⟩ := Prod.mk.inj hpair
    obtain ⟨hn, hb⟩ := Seria.writeVarint_of_readVarint width.bits_le hread
    refine ⟨hn, ?_, rest, hb.symm⟩
    rw [hb, List.length_append, Nat.add_sub_cancel]
  · rintro ⟨hn, rfl, rest, rfl⟩
    refine ⟨(n, rest), Seria.readVarint_writeVarint hn width.bits_le rest, ?_⟩
    dsimp only
    rw [List.length_append, Nat.add_sub_cancel]

/-- Whatever the reader of streams accepts, the reader over iterators accepts. -/
theorem iteratorRead_of_streamRead {length n : ℕ} (h : width.streamRead b = some (length, n)) :
    width.iteratorRead b = some (length, n) := by
  rw [streamRead, Option.map_eq_some_iff] at h
  obtain ⟨⟨n', rest⟩, hread, hpair⟩ := h
  obtain ⟨rfl, rfl⟩ := Prod.mk.inj hpair
  obtain ⟨length, hlength, hiterator⟩ := @Base58.readVarint_of_readVarintFrom _ _ 0 _ _ _ _ hread
  rw [iteratorRead, hiterator]
  dsimp only
  rw [if_pos (by omega), Int.toNat_natCast]
  congr 2
  omega

theorem CutShort.iteratorRead (h : width.CutShort b) :
    ∃ n, width.iteratorRead b = some (b.length, n) := by
  obtain ⟨hne, hopen, hfits⟩ := h
  obtain ⟨n, hn⟩ := @Base58.readVarint_of_open width.bits 0 0 0 b hopen (by omega)
  have hpos := List.length_pos_iff.2 hne
  refine ⟨n, ?_⟩
  rw [IntegerWidth.iteratorRead, hn]
  dsimp only
  rw [if_pos (by omega), Int.toNat_natCast, Nat.zero_add]

theorem CutShort.streamRead (h : width.CutShort b) : width.streamRead b = none := by
  rw [IntegerWidth.streamRead, Seria.readVarint, Base58.readVarintFrom_of_open h.2.1,
    Option.map_none]

/-- What only the reader over iterators accepts is cut short. -/
theorem cutShort_of_iteratorRead {length n : ℕ} (h : width.iteratorRead b = some (length, n))
    (hstream : width.streamRead b = none) : width.CutShort b := by
  rcases hread : Base58.readVarint width.bits 0 0 0 b with ⟨read, n'⟩
  rw [IntegerWidth.iteratorRead, hread] at h
  dsimp only at h
  split at h
  · next hpos =>
    rcases Base58.readVarintFrom_of_readVarint hread hpos.le with ⟨rest, hfrom⟩ | ⟨hopen, hlength⟩
    · rw [IntegerWidth.streamRead, Seria.readVarint, hfrom] at hstream
      cases hstream
    · have hne : b ≠ [] := by
        rintro rfl
        rw [hlength, List.length_nil] at hpos
        exact absurd hpos (lt_irrefl _)
      have hfits := Base58.length_of_open hopen hread hpos.le hne
      exact ⟨hne, hopen, by omega⟩
  · cases h

/-- The readers agree on the canonical encodings except at the end of the input. -/
theorem readsCanonically_iff : width.ReadsCanonically b ↔ ¬width.CutShort b := by
  constructor
  · intro h hcut
    obtain ⟨n, hn⟩ := hcut.iteratorRead
    have hagree := h.agree
    rw [hcut.streamRead, hn] at hagree
    cases hagree
  · intro hcut
    have hagree : width.streamRead b = width.iteratorRead b := by
      cases hstream : width.streamRead b with
      | some accepted => rw [iteratorRead_of_streamRead hstream]
      | none =>
        cases hiterator : width.iteratorRead b with
        | none => rfl
        | some accepted => exact absurd (cutShort_of_iteratorRead hiterator hstream) hcut
    exact ⟨fun _ _ ↦ streamRead_eq_some_iff, fun _ _ ↦ hagree ▸ streamRead_eq_some_iff, hagree⟩

/-- A single byte that announces another one is an integer to the reader over iterators. -/
theorem not_readsCanonically : ¬∀ (width : IntegerWidth) (b : Bytes), width.ReadsCanonically b :=
  fun h ↦ by
    have hagree := (h uint64 [0x80]).agree
    revert hagree
    decide

end IntegerWidth

/-! ## Ordered integers -/

/-- `get_varint_sqlite4_size`. -/
def getVarintSqlite4Size (val : UInt64) : ℕ :=
  if val ≤ 240 then 1
  else if val ≤ 2287 then 2
  else if val ≤ 67823 then 3
  else if val ≤ 16777215 then 4
  else if val ≤ 4294967295 then 5
  else if val ≤ 1099511627775 then 6
  else if val ≤ 281474976710655 then 7
  else if val ≤ 72057594037927935 then 8
  else 9

/-- `write_varint_sqlite4`; `uint_be_to_bytes` writes the lowest bytes, most significant first. -/
def writeVarintSqlite4 (val : UInt64) : Bytes :=
  if val ≤ 240 then [val.toUInt8]
  else if val ≤ 2287 then [((val - 240) / 256 + 241).toUInt8, (val - 240).toUInt8]
  else if val ≤ 67823 then [249, ((val - 2288) / 256).toUInt8, (val - 2288).toUInt8]
  else if val ≤ 16777215 then 250 :: natToBytes 3 val.toNat
  else if val ≤ 4294967295 then 251 :: natToBytes 4 val.toNat
  else if val ≤ 1099511627775 then 252 :: natToBytes 5 val.toNat
  else if val ≤ 281474976710655 then 253 :: natToBytes 6 val.toNat
  else if val ≤ 72057594037927935 then 254 :: natToBytes 7 val.toNat
  else 255 :: natToBytes 8 val.toNat

/-- `read`: the next bytes, or an exception. -/
def readBytes (len : ℕ) (b : Bytes) : Option (Bytes × Bytes) :=
  if b.length < len then none else some (b.take len, b.drop len)

/-- `read_varint_sqlite4`: the integer and the bytes left, or an exception. -/
def readVarintSqlite4 (b : Bytes) : Option (UInt64 × Bytes) := do
  let (a0, b) ← readBytes 1 b
  let a0 := bytesToNat a0
  if a0 ≤ 240 then some (UInt64.ofNat a0, b)
  else if a0 ≤ 248 then
    let (a1, b) ← readBytes 1 b
    some (UInt64.ofNat (240 + 256 * (a0 - 241) + bytesToNat a1), b)
  else if a0 = 249 then
    let (buf, b) ← readBytes 2 b
    some (UInt64.ofNat (2288 + bytesToNat buf), b)
  else
    let (buf, b) ← readBytes (3 + a0 - 250) b
    some (UInt64.ofNat (bytesToNat buf), b)

/-- `read_varint_sqlite4` on a whole string, which refuses bytes left over. -/
def readVarintSqlite4Whole (str : Bytes) : Option UInt64 :=
  match readVarintSqlite4 str with
  | some (val, []) => some val
  | _ => none

/-- The first byte of an ordered integer, how many bytes follow it, and the number these spell. -/
def sqlite4Parts (n : ℕ) : ℕ × ℕ × ℕ :=
  if n ≤ 240 then (n, 0, 0)
  else if n ≤ 2287 then ((n - 240) / 256 + 241, 1, (n - 240) % 256)
  else if n ≤ 67823 then (249, 2, n - 2288)
  else if n ≤ 16777215 then (250, 3, n)
  else if n ≤ 4294967295 then (251, 4, n)
  else if n ≤ 1099511627775 then (252, 5, n)
  else if n ≤ 281474976710655 then (253, 6, n)
  else if n ≤ 72057594037927935 then (254, 7, n)
  else (255, 8, n)

/-- The bytes with these parts. -/
def sqlite4Bytes (parts : ℕ × ℕ × ℕ) : Bytes :=
  UInt8.ofNat parts.1 :: natToBytes parts.2.1 parts.2.2

theorem sqlite4Parts_fits {n : ℕ} (hn : n < 2 ^ 64) :
    (sqlite4Parts n).1 < 256 ∧ (sqlite4Parts n).2.2 < 256 ^ (sqlite4Parts n).2.1 := by
  unfold sqlite4Parts
  split_ifs <;> refine ⟨?_, ?_⟩ <;> dsimp only <;> omega

theorem natToBytes_one (n : ℕ) : natToBytes 1 n = [UInt8.ofNat n] := by
  simp [natToBytes]

theorem natToBytes_two (n : ℕ) : natToBytes 2 n = [UInt8.ofNat (n / 256), UInt8.ofNat n] := by
  simp [natToBytes]

theorem writeVarintSqlite4_eq (val : UInt64) :
    writeVarintSqlite4 val = sqlite4Bytes (sqlite4Parts val.toNat) := by
  have hle : ∀ {bound : UInt64}, val ≤ bound ↔ val.toNat ≤ bound.toNat := UInt64.le_iff_toNat_le
  have hsub : ∀ {low : UInt64}, low.toNat ≤ val.toNat →
      (val - low).toNat = val.toNat - low.toNat := fun h ↦
    UInt64.toNat_sub_of_le _ _ (UInt64.le_iff_toNat_le.2 h)
  have hbyte : ∀ x : UInt64, x.toUInt8 = UInt8.ofNat x.toNat := fun x ↦ UInt8.toNat_inj.1 (by simp)
  unfold writeVarintSqlite4 sqlite4Parts
  simp only [hle, UInt64.reduceToNat]
  split_ifs with h₁ h₂ h₃
  · rw [hbyte]
    rfl
  · have hlow : (val - 240).toNat = val.toNat - 240 := hsub (Nat.le_of_not_le h₁)
    have hhead : ((val - 240) / 256 + 241).toNat = (val.toNat - 240) / 256 + 241 := by
      rw [UInt64.toNat_add, UInt64.toNat_div, hlow]
      exact Nat.mod_eq_of_lt (by simp only [UInt64.reduceToNat]; omega)
    have hmod : UInt8.ofNat (val.toNat - 240) = UInt8.ofNat ((val.toNat - 240) % 256) :=
      UInt8.toNat_inj.1 (by simp)
    rw [hbyte, hbyte, hlow, hhead, sqlite4Bytes, natToBytes_one, hmod]
  · have hlow : (val - 2288).toNat = val.toNat - 2288 := hsub (Nat.lt_of_not_le h₂)
    rw [hbyte, hbyte, UInt64.toNat_div, hlow, sqlite4Bytes, natToBytes_two]
    rfl
  all_goals rfl

/-- The nine kinds of ordered integers. -/
theorem sqlite4Parts_cases (n : ℕ) :
    n ≤ 240 ∧ sqlite4Parts n = (n, 0, 0) ∨
      240 < n ∧ n ≤ 2287 ∧ sqlite4Parts n = ((n - 240) / 256 + 241, 1, (n - 240) % 256) ∨
      2287 < n ∧ n ≤ 67823 ∧ sqlite4Parts n = (249, 2, n - 2288) ∨
      67823 < n ∧ n ≤ 16777215 ∧ sqlite4Parts n = (250, 3, n) ∨
      16777215 < n ∧ n ≤ 4294967295 ∧ sqlite4Parts n = (251, 4, n) ∨
      4294967295 < n ∧ n ≤ 1099511627775 ∧ sqlite4Parts n = (252, 5, n) ∨
      1099511627775 < n ∧ n ≤ 281474976710655 ∧ sqlite4Parts n = (253, 6, n) ∨
      281474976710655 < n ∧ n ≤ 72057594037927935 ∧ sqlite4Parts n = (254, 7, n) ∨
      72057594037927935 < n ∧ sqlite4Parts n = (255, 8, n) := by
  unfold sqlite4Parts
  by_cases h₁ : n ≤ 240
  · exact Or.inl ⟨h₁, if_pos h₁⟩
  rw [if_neg h₁]
  refine Or.inr ?_
  by_cases h₂ : n ≤ 2287
  · exact Or.inl ⟨by omega, h₂, if_pos h₂⟩
  rw [if_neg h₂]
  refine Or.inr ?_
  by_cases h₃ : n ≤ 67823
  · exact Or.inl ⟨by omega, h₃, if_pos h₃⟩
  rw [if_neg h₃]
  refine Or.inr ?_
  by_cases h₄ : n ≤ 16777215
  · exact Or.inl ⟨by omega, h₄, if_pos h₄⟩
  rw [if_neg h₄]
  refine Or.inr ?_
  by_cases h₅ : n ≤ 4294967295
  · exact Or.inl ⟨by omega, h₅, if_pos h₅⟩
  rw [if_neg h₅]
  refine Or.inr ?_
  by_cases h₆ : n ≤ 1099511627775
  · exact Or.inl ⟨by omega, h₆, if_pos h₆⟩
  rw [if_neg h₆]
  refine Or.inr ?_
  by_cases h₇ : n ≤ 281474976710655
  · exact Or.inl ⟨by omega, h₇, if_pos h₇⟩
  rw [if_neg h₇]
  refine Or.inr ?_
  by_cases h₈ : n ≤ 72057594037927935
  · exact Or.inl ⟨by omega, h₈, if_pos h₈⟩
  exact Or.inr ⟨by omega, if_neg h₈⟩

/-- A larger integer has a larger first byte, or the same one, as many others, and these larger. -/
theorem sqlite4Parts_lt {m n : ℕ} (h : m < n) :
    (sqlite4Parts m).1 < (sqlite4Parts n).1 ∨ (sqlite4Parts m).1 = (sqlite4Parts n).1 ∧
      (sqlite4Parts m).2.1 = (sqlite4Parts n).2.1 ∧
        (sqlite4Parts m).2.2 < (sqlite4Parts n).2.2 := by
  rcases sqlite4Parts_cases m with ⟨hm, em⟩ | ⟨hm, hm', em⟩ | ⟨hm, hm', em⟩ | ⟨hm, hm', em⟩ |
    ⟨hm, hm', em⟩ | ⟨hm, hm', em⟩ | ⟨hm, hm', em⟩ | ⟨hm, hm', em⟩ | ⟨hm, em⟩ <;>
  rcases sqlite4Parts_cases n with ⟨hn, en⟩ | ⟨hn, hn', en⟩ | ⟨hn, hn', en⟩ | ⟨hn, hn', en⟩ |
    ⟨hn, hn', en⟩ | ⟨hn, hn', en⟩ | ⟨hn, hn', en⟩ | ⟨hn, hn', en⟩ | ⟨hn, en⟩ <;>
  rw [em, en] <;> dsimp only <;> omega

theorem writeVarintSqlite4_lt {u v : UInt64} (h : u < v) :
    writeVarintSqlite4 u < writeVarintSqlite4 v := by
  obtain ⟨huhead, hutail⟩ := sqlite4Parts_fits u.toNat_lt
  obtain ⟨hvhead, hvtail⟩ := sqlite4Parts_fits v.toNat_lt
  rw [writeVarintSqlite4_eq, writeVarintSqlite4_eq, sqlite4Bytes, sqlite4Bytes,
    List.cons_lt_cons_iff, UInt8.lt_iff_toNat_lt, UInt8.toNat_ofNat_of_lt' huhead,
    UInt8.toNat_ofNat_of_lt' hvhead]
  rcases sqlite4Parts_lt (UInt64.lt_iff_toNat_lt.1 h) with hhead | ⟨hhead, hlength, htail⟩
  · exact Or.inl hhead
  · rw [hlength] at hutail ⊢
    exact Or.inr ⟨by rw [hhead], (natToBytes_lt_iff hutail hvtail).2 htail⟩

theorem writeVarintSqlite4_lt_iff {u v : UInt64} :
    writeVarintSqlite4 u < writeVarintSqlite4 v ↔ u < v := by
  refine ⟨fun h ↦ ?_, writeVarintSqlite4_lt⟩
  by_contra hle
  rcases UInt64.lt_or_eq_of_le (UInt64.not_lt.1 hle) with hlt | rfl
  · exact absurd (List.lt_trans h (writeVarintSqlite4_lt hlt)) (List.lt_irrefl _)
  · exact absurd h (List.lt_irrefl _)

theorem length_writeVarintSqlite4 (val : UInt64) :
    (writeVarintSqlite4 val).length = getVarintSqlite4Size val := by
  unfold writeVarintSqlite4 getVarintSqlite4Size
  split_ifs <;> simp

theorem readBytes_append {len : ℕ} {bs rest : Bytes} (h : bs.length = len) :
    readBytes len (bs ++ rest) = some (bs, rest) := by
  rw [readBytes, if_neg (by rw [List.length_append]; omega), List.take_left' h, List.drop_left' h]

theorem readVarintSqlite4_cons {head : ℕ} (hhead : head < 256) (b : Bytes) :
    readVarintSqlite4 (UInt8.ofNat head :: b) =
      if head ≤ 240 then some (UInt64.ofNat head, b)
      else if head ≤ 248 then
        (readBytes 1 b).bind fun (a1, b) ↦
          some (UInt64.ofNat (240 + 256 * (head - 241) + bytesToNat a1), b)
      else if head = 249 then
        (readBytes 2 b).bind fun (buf, b) ↦ some (UInt64.ofNat (2288 + bytesToNat buf), b)
      else (readBytes (3 + head - 250) b).bind fun (buf, b) ↦
        some (UInt64.ofNat (bytesToNat buf), b) := by
  have hfirst : readBytes 1 (UInt8.ofNat head :: b) = some ([UInt8.ofNat head], b) :=
    @readBytes_append 1 [UInt8.ofNat head] b rfl
  have hvalue : bytesToNat [UInt8.ofNat head] = head := by
    rw [bytesToNat_cons, UInt8.toNat_ofNat_of_lt' hhead]
    simp [bytesToNat]
  rw [readVarintSqlite4, hfirst]
  simp only [Option.bind_eq_bind, Option.bind_some, hvalue]

/-- An ordered integer is read back, whatever follows it. -/
theorem readVarintSqlite4_writeVarintSqlite4 (val : UInt64) (rest : Bytes) :
    readVarintSqlite4 (writeVarintSqlite4 val ++ rest) = some (val, rest) := by
  have hn := val.toNat_lt
  have htail : ∀ {len x : ℕ}, x < 256 ^ len →
      readBytes len (natToBytes len x ++ rest) = some (natToBytes len x, rest) ∧
        bytesToNat (natToBytes len x) = x := fun hx ↦
    ⟨readBytes_append (length_natToBytes _ _),
      (bytesToNat_natToBytes _ _).trans (Nat.mod_eq_of_lt hx)⟩
  rw [writeVarintSqlite4_eq, sqlite4Bytes, List.cons_append]
  conv_rhs => rw [← @UInt64.ofNat_toNat val]
  generalize val.toNat = n at hn
  have hlong : ∀ {head len : ℕ}, 249 < head → head < 256 → 3 + head - 250 = len → n < 256 ^ len →
      readVarintSqlite4 (UInt8.ofNat head :: (natToBytes len n ++ rest)) =
        some (UInt64.ofNat n, rest) := by
    intro head len hlow hhigh hlength hx
    obtain ⟨hread, hvalue⟩ := htail hx
    rw [readVarintSqlite4_cons hhigh, if_neg (by omega), if_neg (by omega), if_neg (by omega),
      hlength, hread, Option.bind_some]
    dsimp only
    rw [hvalue]
  rcases sqlite4Parts_cases n with ⟨h, e⟩ | ⟨h, h', e⟩ | ⟨h, h', e⟩ | ⟨h, h', e⟩ | ⟨h, h', e⟩ |
    ⟨h, h', e⟩ | ⟨h, h', e⟩ | ⟨h, h', e⟩ | ⟨h, e⟩ <;> rw [e] <;> dsimp only
  · rw [readVarintSqlite4_cons (by omega), if_pos h]
    rfl
  · obtain ⟨hread, hvalue⟩ := @htail 1 ((n - 240) % 256) (Nat.mod_lt _ (by decide))
    rw [readVarintSqlite4_cons (by omega), if_neg (by omega), if_pos (by omega), hread,
      Option.bind_some]
    dsimp only
    rw [hvalue, show 240 + 256 * ((n - 240) / 256 + 241 - 241) + (n - 240) % 256 = n by omega]
  · obtain ⟨hread, hvalue⟩ := @htail 2 (n - 2288) (by omega)
    rw [readVarintSqlite4_cons (by omega), if_neg (by omega), if_neg (by omega), if_pos rfl, hread,
      Option.bind_some]
    dsimp only
    rw [hvalue, show 2288 + (n - 2288) = n by omega]
  all_goals exact hlong (by omega) (by omega) rfl (by omega)

theorem writeVarintSqlite4_inj {u v : UInt64} (h : writeVarintSqlite4 u = writeVarintSqlite4 v) :
    u = v := by
  have hu := readVarintSqlite4_writeVarintSqlite4 u []
  rw [h, readVarintSqlite4_writeVarintSqlite4, Option.some.injEq, Prod.mk.injEq] at hu
  exact hu.1.symm

/-- No ordered integer begins another one. -/
theorem eq_of_writeVarintSqlite4_begins {u v : UInt64}
    (h : writeVarintSqlite4 u <+: writeVarintSqlite4 v) : u = v := by
  obtain ⟨rest, hrest⟩ := h
  have hv := readVarintSqlite4_writeVarintSqlite4 v []
  rw [List.append_nil, ← hrest, readVarintSqlite4_writeVarintSqlite4, Option.some.injEq,
    Prod.mk.injEq] at hv
  exact hv.1

/-! ## Database keys -/

/-- A database key: the prefix of its table, then integers. -/
def integerKey (keyPrefix : Bytes) (integers : List UInt64) : Bytes :=
  keyPrefix ++ integers.flatMap writeVarintSqlite4

/-- A cursor over keys made of integers visits them in the order of the integers. -/
theorem integerKey_lt_iff {keyPrefix : Bytes} {us vs : List UInt64} :
    integerKey keyPrefix us < integerKey keyPrefix vs ↔ us < vs := by
  rw [integerKey, integerKey, append_lt_append_iff]
  induction us generalizing vs with
  | nil =>
    cases vs with
    | nil => simp
    | cons v vs =>
      refine iff_of_true ?_ (List.nil_lt_cons _ _)
      rw [List.flatMap_nil, List.flatMap_cons, writeVarintSqlite4_eq]
      exact List.nil_lt_cons _ _
  | cons u us ih =>
    cases vs with
    | nil => simp
    | cons v vs =>
      -- integers that differ decide the order, since neither begins the other
      have hdiffer : ∀ {u v : UInt64} (x y : Bytes), u < v →
          writeVarintSqlite4 u ++ x < writeVarintSqlite4 v ++ y := fun x y huv ↦
        append_lt_append_of_lt (writeVarintSqlite4_lt huv)
          (fun hbegins ↦ UInt64.lt_irrefl _ (eq_of_writeVarintSqlite4_begins hbegins ▸ huv)) x y
      rw [List.flatMap_cons, List.flatMap_cons, List.cons_lt_cons_iff]
      by_cases heq : u = v
      · subst heq
        rw [append_lt_append_iff, ih]
        simp
      · by_cases hlt : u < v
        · exact iff_of_true (hdiffer _ _ hlt) (Or.inl hlt)
        · have hgt : v < u :=
            (UInt64.lt_or_eq_of_le (UInt64.not_lt.1 hlt)).resolve_right (Ne.symm heq)
          refine iff_of_false (fun h ↦ ?_) fun h ↦ h.elim hlt fun h ↦ heq h.1
          exact List.lt_irrefl _ (List.lt_trans h (hdiffer _ _ hgt))

/-- `AMOUNT_OUTPUT_PREFIX`. -/
def amountOutputPrefix : Bytes := [0x61]

/-- The key of an output, as `push_amount_output` builds it. -/
def amountOutputKey (amount : Amount) (globalIndex : UInt32) : Bytes :=
  amountOutputPrefix ++ writeVarintSqlite4 amount ++ writeVarintSqlite4 globalIndex.toUInt64

/-- The table of outputs and the byte-keyed database that holds it beside other tables. -/
structure OutputKeys (V : Type) where
  outputs : Store (Amount × UInt32) V
  db : Store Bytes V
  keyed : ∀ key value, amountOutputPrefix <+: key → (db.get key = some value ↔
    ∃ amount index, key = amountOutputKey amount index ∧ outputs.get (amount, index) = some value)

namespace OutputKeys

variable {V : Type}

/-- `next_global_index_for_amount` with nothing cached: `rbegin` at the prefix of the amount. -/
def nextGlobalIndexForAmount (t : OutputKeys V) (amount : Amount) : Option UInt32 :=
  let keyPrefix := amountOutputPrefix ++ writeVarintSqlite4 amount
  match t.db.lastWhere keyPrefix.isPrefixOf with
  | none => some 0
  | some (key, _) => do
    let index ← readVarintSqlite4Whole (key.drop keyPrefix.length)
    -- `boost::lexical_cast<Height>` throws above 32 bits
    if index ≤ 0xFFFFFFFF then some (index.toUInt32 + 1) else none

theorem amountOutputKey_eq (amount : Amount) (index : UInt32) :
    amountOutputKey amount index = integerKey amountOutputPrefix [amount, index.toUInt64] := by
  simp [amountOutputKey, integerKey]

theorem amountOutputKey_inj {amount amount' : Amount} {index index' : UInt32}
    (h : amountOutputKey amount index = amountOutputKey amount' index') :
    amount = amount' ∧ index = index' := by
  rw [amountOutputKey, amountOutputKey, List.append_assoc, List.append_assoc,
    List.append_cancel_left_eq] at h
  have hread := readVarintSqlite4_writeVarintSqlite4 amount (writeVarintSqlite4 index.toUInt64)
  rw [h, readVarintSqlite4_writeVarintSqlite4, Option.some.injEq, Prod.mk.injEq] at hread
  have hindex := congrArg UInt64.toNat (writeVarintSqlite4_inj hread.2)
  exact ⟨hread.1.symm, UInt32.toNat_inj.1 (by simpa using hindex.symm)⟩

/-- Writing an output under its key. -/
def put (t : OutputKeys V) (amount : Amount) (index : UInt32) (value : V) : OutputKeys V where
  outputs := t.outputs.put (amount, index) value
  db := t.db.put (amountOutputKey amount index) value
  keyed key value' hbegins := by
    rw [Store.get_put]
    split
    · next heq =>
      subst heq
      constructor
      · rintro h
        exact ⟨amount, index, rfl, by rw [Store.get_put_self, ← h]⟩
      · rintro ⟨amount', index', heq, h⟩
        obtain ⟨rfl, rfl⟩ := amountOutputKey_inj heq
        rw [Store.get_put_self] at h
        exact h
    · next hne =>
      rw [t.keyed key value' hbegins]
      refine exists_congr fun amount' ↦ exists_congr fun index' ↦ and_congr_right fun heq ↦ ?_
      rw [Store.get_put_of_ne]
      intro hpair
      cases hpair
      exact hne heq.symm

/-- The empty database. -/
instance : Inhabited (OutputKeys V) := ⟨⟨∅, ∅, by simp⟩⟩

/-- No key of the range is above the one on which the cursor stands. -/
theorem not_lt_of_lastWhere {K : Type} [Ord K] [Std.TransOrd K] [Std.LawfulEqOrd K] {s : Store K V}
    {p : K → Bool} {k k' : K} {v v' : V} (h : s.lastWhere p = some (k, v))
    (hk' : s.get k' = some v')
    (hp : p k' = true) : compare k k' ≠ .lt := by
  obtain ⟨pre, hsplit⟩ := List.getLast?_eq_some_iff.1 h
  have hsorted : (s.toList.filter fun e ↦ p e.1).Pairwise fun a b ↦ compare a.1 b.1 = .lt :=
    s.pairwise_toList.filter _
  have hmem : (k', v') ∈ s.toList.filter fun e ↦ p e.1 :=
    List.mem_filter.2 ⟨Store.mem_toList_iff.2 hk', hp⟩
  rw [hsplit] at hsorted hmem
  intro hlt
  rcases List.mem_append.1 hmem with hpre | hlast
  · have hgt := (List.pairwise_append.1 hsorted).2.2 _ hpre _ (List.mem_singleton_self _)
    rw [@Std.OrientedCmp.eq_swap _ compare, hlt] at hgt
    cases hgt
  · obtain ⟨rfl, -⟩ := Prod.mk.inj (List.mem_singleton.1 hlast)
    rw [@Std.ReflCmp.compare_self _ compare] at hlt
    cases hlt

/-- The keys that begin as the outputs of an amount are keys of that amount. -/
theorem amount_of_prefix {amount amount' : Amount} {index : UInt32}
    (h : amountOutputPrefix ++ writeVarintSqlite4 amount <+: amountOutputKey amount' index) :
    amount = amount' := by
  rw [amountOutputKey, List.append_assoc, List.prefix_append_right_inj] at h
  obtain ⟨rest, hrest⟩ := h
  have hread := readVarintSqlite4_writeVarintSqlite4 amount rest
  rw [hrest, readVarintSqlite4_writeVarintSqlite4, Option.some.injEq, Prod.mk.injEq] at hread
  exact hread.1.symm

theorem compare_amountOutputKey_iff {amount : Amount} {index index' : UInt32} :
    compare (amountOutputKey amount index) (amountOutputKey amount index') = .lt ↔
      compare (amount, index) (amount, index') = .lt := by
  have hpair : compare (amount, index) (amount, index') = compare index index' := by
    change (compare amount amount).then (compare index index') = _
    rw [@Std.ReflCmp.compare_self _ compare]
    rfl
  rw [compare_eq_lt_iff, amountOutputKey_eq, amountOutputKey_eq, integerKey_lt_iff, hpair,
    Std.compare_eq_lt]
  simp [List.cons_lt_cons_iff, UInt64.lt_iff_toNat_lt, UInt32.lt_iff_toNat_lt]

/-- The last key of an amount is its largest index. -/
theorem nextGlobalIndexForAmount_eq (t : OutputKeys V) (amount : Amount) :
    t.nextGlobalIndexForAmount amount =
      some (match t.outputs.lastWhere (fun k ↦ k.1 = amount) with
        | some ((_, index), _) => index + 1
        | none => 0) := by
  have hrange : ∀ index, (amountOutputPrefix ++ writeVarintSqlite4 amount).isPrefixOf
      (amountOutputKey amount index) = true := fun index ↦
    List.isPrefixOf_iff_prefix.2 (List.prefix_append _ _)
  -- what the cursor can stand on
  have hfound : ∀ key value, t.db.get key = some value →
      (amountOutputPrefix ++ writeVarintSqlite4 amount).isPrefixOf key = true →
        ∃ index, key = amountOutputKey amount index ∧
          t.outputs.get (amount, index) = some value := by
    intro key value hget hbegins
    rw [List.isPrefixOf_iff_prefix] at hbegins
    obtain ⟨amount', index, rfl, hout⟩ :=
      (t.keyed key value ((List.prefix_append _ _).trans hbegins)).1 hget
    obtain rfl := amount_of_prefix hbegins
    exact ⟨index, rfl, hout⟩
  rw [nextGlobalIndexForAmount]
  cases hlast : t.outputs.lastWhere (fun k ↦ k.1 = amount) with
  | none =>
    have hnone : t.db.lastWhere (amountOutputPrefix ++ writeVarintSqlite4 amount).isPrefixOf =
        none := by
      refine Store.lastWhere_eq_none fun key value hget ↦ ?_
      by_contra hbegins
      obtain ⟨index, -, hout⟩ := hfound key value hget (Bool.eq_true_of_not_eq_false hbegins)
      rw [Store.lastWhere, List.getLast?_eq_none_iff, List.filter_eq_nil_iff] at hlast
      exact hlast _ (Store.mem_toList_iff.2 hout) (decide_eq_true rfl)
    dsimp only
    rw [hnone]
  | some entry =>
    obtain ⟨⟨amount', index⟩, value⟩ := entry
    obtain ⟨hout, hamount⟩ := Store.get_of_lastWhere hlast
    obtain rfl : amount' = amount := of_decide_eq_true hamount
    have hget : t.db.get (amountOutputKey amount' index) = some value :=
      (t.keyed _ _ ((List.prefix_append _ _).trans (List.prefix_append _ _))).2
        ⟨amount', index, rfl, hout⟩
    have hcursor := Store.lastWhere_eq_some hget (hrange index) fun key value' hget' hbegins ↦ by
      obtain ⟨index', rfl, hout'⟩ := hfound key value' hget' hbegins
      rw [Ne, compare_amountOutputKey_iff]
      exact not_lt_of_lastWhere hlast hout' (decide_eq_true rfl)
    have hread : readVarintSqlite4Whole (writeVarintSqlite4 index.toUInt64) =
        some index.toUInt64 := by
      have h := readVarintSqlite4_writeVarintSqlite4 index.toUInt64 []
      rw [List.append_nil] at h
      rw [readVarintSqlite4Whole, h]
    have hfits : index.toUInt64 ≤ 0xFFFFFFFF := by
      have hlt := index.toNat_lt
      rw [UInt64.le_iff_toNat_le, UInt32.toNat_toUInt64]
      exact Nat.le_of_lt_succ hlt
    dsimp only
    rw [hcursor]
    dsimp only
    rw [amountOutputKey, List.drop_left, hread]
    simp [hfits]

end OutputKeys

/-- Ordered integers are read back exactly, none begins another one, and they are ordered as their
values, so that cursors visit keys in the order of their integers and the last key of an amount
is its largest index. -/
theorem writeVarintSqlite4_ordered :
    (∀ val rest, readVarintSqlite4 (writeVarintSqlite4 val ++ rest) = some (val, rest) ∧
      (writeVarintSqlite4 val).length = getVarintSqlite4Size val) ∧
    (∀ u v, writeVarintSqlite4 u <+: writeVarintSqlite4 v →
      writeVarintSqlite4 u = writeVarintSqlite4 v) ∧
    (∀ u v, writeVarintSqlite4 u < writeVarintSqlite4 v ↔ u < v) ∧
    (∀ keyPrefix us vs, integerKey keyPrefix us < integerKey keyPrefix vs ↔ us < vs) ∧
    ∀ (V : Type) (t : OutputKeys V) amount, t.nextGlobalIndexForAmount amount =
      some (match t.outputs.lastWhere (fun k ↦ k.1 = amount) with
        | some ((_, index), _) => index + 1
        | none => 0) :=
  ⟨fun val rest ↦ ⟨readVarintSqlite4_writeVarintSqlite4 val rest, length_writeVarintSqlite4 val⟩,
    fun _ _ h ↦ congrArg _ (eq_of_writeVarintSqlite4_begins h), fun _ _ ↦ writeVarintSqlite4_lt_iff,
    fun _ _ _ ↦ integerKey_lt_iff, fun _ t amount ↦ t.nextGlobalIndexForAmount_eq amount⟩

end Naza
