import Naza.Lib.ByteOrder
import Naza.CryptoNote

/-!
# JSON text

`JsonValue::to_string` and `JsonValue::from_string`: values, the string writer with its escapes,
and the reader over an input stream with its two state bits.  Floating-point numbers are a type of
their own with the stream's formatting as a parameter.  Characters are classified as in the
locale "C".
-/

open Lib

namespace Naza

/-- How a stream writes and reads the floating-point numbers of a type. -/
structure DoubleText (R : Type) where
  write : R → Bytes
  read : Bytes → R

inductive JsonValue (R : Type) where
  | nil
  | bool (value : Bool)
  | signedInteger (value : Int64)
  | unsignedInteger (value : UInt64)
  | double (value : R)
  | string (value : Bytes)
  | array (items : List (JsonValue R))
  | object (entries : List (Bytes × JsonValue R))

namespace Json

/-- The byte of an ASCII character. -/
def ascii (ch : Char) : UInt8 := UInt8.ofNat ch.toNat

/-- The bytes of ASCII text. -/
def text (s : String) : Bytes := s.toList.map ascii

/-! ## Writing -/

/-- A digit of an upper case hexadecimal number. -/
def hexDigit (n : ℕ) : UInt8 := UInt8.ofNat (if n < 10 then 48 + n else 55 + n)

/-- `escape_table`. -/
def escapeControl (c : UInt8) : Bytes :=
  if c = 8 then text "\\b"
  else if c = 9 then text "\\t"
  else if c = 10 then text "\\n"
  else if c = 12 then text "\\f"
  else if c = 13 then text "\\r"
  else text "\\u00" ++ [hexDigit (c.toNat / 16), hexDigit (c.toNat % 16)]

/-- The backslash and the quotation mark. -/
def backslash : UInt8 := 0x5C
def quote : UInt8 := 0x22

def escapeChar (c : UInt8) : Bytes :=
  if c = backslash ∨ c = quote then [backslash, c]
  else if c.toNat < 0x20 then escapeControl c
  else [c]

/-- `escape_string`. -/
def escapeString (str : Bytes) : Bytes := str.flatMap escapeChar

/-- A number in decimal, as streams write it. -/
def decimal (n : ℕ) : Bytes := (Nat.toDigits 10 n).map ascii

variable {R : Type} (io : DoubleText R)

mutual

/-- `operator<<`. -/
def write : JsonValue R → Bytes
  | .nil => text "null"
  | .bool value => if value then text "true" else text "false"
  | .signedInteger value =>
    if value.toInt < 0 then text "-" ++ decimal value.toInt.natAbs
    else decimal value.toInt.natAbs
  | .unsignedInteger value => decimal value.toNat
  | .double value => io.write value
  | .string value => quote :: escapeString value ++ [quote]
  | .array [] => text "[]"
  | .array (item :: items) => text "[" ++ write item ++ writeItems items ++ text "]"
  | .object [] => text "\x7b\x7d"
  | .object ((key, value) :: entries) =>
    text "\x7b" ++ quote :: escapeString key ++ text "\":" ++ write value ++ writeEntries entries ++
      text "\x7d"

/-- The items after the first one. -/
def writeItems : List (JsonValue R) → Bytes
  | [] => []
  | item :: items => text "," ++ write item ++ writeItems items

/-- The members after the first one. -/
def writeEntries : List (Bytes × JsonValue R) → Bytes
  | [] => []
  | (key, value) :: entries =>
    text ",\"" ++ escapeString key ++ text "\":" ++ write value ++ writeEntries entries

end

/-! ## Streams -/

/-- An input stream: the characters left and its state bits. -/
structure IStream where
  rest : Bytes
  eof : Bool := false
  fail : Bool := false
  deriving DecidableEq

namespace IStream

def good (s : IStream) : Bool := !s.eof && !s.fail

/-- `peek`: a stream that is not good is marked as failed before anything is looked at. -/
def peek (s : IStream) : Option UInt8 × IStream :=
  if s.good then
    match s.rest with
    | [] => (none, { s with eof := true })
    | c :: _ => (some c, s)
  else (none, { s with fail := true })

end IStream

def isSpace (c : UInt8) : Bool := c = 0x20 || 9 ≤ c.toNat && c.toNat ≤ 13

def isCntrl (c : UInt8) : Bool := c.toNat < 0x20 || c = 0x7F

def isDigit (c : UInt8) : Bool := 0x30 ≤ c.toNat && c.toNat ≤ 0x39

/-- `read_char`, which skips white space; so does `read_non_ws_char`, whose loop ends at once. -/
def readNonWsChar (s : IStream) : Option (UInt8 × IStream) :=
  if s.good then
    match s.rest.dropWhile isSpace with
    | [] => none
    | c :: rest => some (c, { s with rest })
  else none

/-- Characters that must follow, read by `read_true`, `read_false` and `read_null`. -/
def readLiteral (expected : Bytes) (s : IStream) : Option IStream :=
  if s.good && expected.isPrefixOf s.rest then
    some { s with rest := s.rest.drop expected.length }
  else none

/-! ## Strings -/

/-- `from_hex` of one character. -/
def fromHex (c : UInt8) : Option ℕ :=
  if 0x30 ≤ c.toNat ∧ c.toNat ≤ 0x39 then some (c.toNat - 0x30)
  else if 0x41 ≤ c.toNat ∧ c.toNat ≤ 0x46 then some (c.toNat - 0x37)
  else if 0x61 ≤ c.toNat ∧ c.toNat ≤ 0x66 then some (c.toNat - 0x57)
  else none

/-- The code point of four hexadecimal digits. -/
def codePoint (c0 c1 c2 c3 : UInt8) : Option ℕ := do
  let c0v ← fromHex c0
  let c1v ← fromHex c1
  let c2v ← fromHex c2
  let c3v ← fromHex c3
  some (c0v * 4096 + c1v * 256 + c2v * 16 + c3v)

/-- What the decoder appends for a code point: the low bits first. -/
def appendCodePoint (cp : ℕ) : Option Bytes :=
  if 0xD800 ≤ cp ∧ cp ≤ 0xDFFF ∨ 0xFFFE ≤ cp then none
  else if cp < 0x80 then some [UInt8.ofNat cp]
  else if cp < 0x800 then
    some [UInt8.ofNat (0x80 ||| (cp &&& 0x3F)), UInt8.ofNat (0xC0 ||| cp >>> 6)]
  else
    some [UInt8.ofNat (0x80 ||| (cp &&& 0x3F)), UInt8.ofNat (0x80 ||| (cp >>> 6 &&& 0x3F)),
      UInt8.ofNat (0xE0 ||| cp >>> 6 >>> 6)]

/-- The character of a short escape. -/
def shortEscape (c : UInt8) : Option UInt8 :=
  if c = backslash then some backslash
  else if c = ascii '/' then some (ascii '/')
  else if c = quote then some quote
  else if c = ascii 'n' then some 10
  else if c = ascii 'r' then some 13
  else if c = ascii 't' then some 9
  else if c = ascii 'b' then some 8
  else if c = ascii 'f' then some 12
  else none

/-- `read_string_token`, after the opening quotation mark: the value and what follows. -/
def readStringToken : Bytes → Bytes → Option (Bytes × Bytes)
  | _, [] => none
  | value, c :: rest =>
    if isCntrl c then none
    else if c = quote then some (value, rest)
    else if c = backslash then
      match rest with
      | [] => none
      | e :: rest =>
        if e = ascii 'u' then
          match rest with
          | c0 :: c1 :: c2 :: c3 :: rest =>
            match (codePoint c0 c1 c2 c3).bind appendCodePoint with
            | some bytes => readStringToken (value ++ bytes) rest
            | none => none
          | _ => none
        else
          match shortEscape e with
          | some byte => readStringToken (value ++ [byte]) rest
          | none => none
    else readStringToken (value ++ [c]) rest

/-! ## Numbers -/

/-- The value of decimal digits. -/
def decimalValue (digits : Bytes) : ℕ := digits.foldl (fun n c ↦ n * 10 + (c.toNat - 0x30)) 0

/-- The integer that a stream reads out of the text; out of range it is the nearest one. -/
def readInteger (text : Bytes) : JsonValue R :=
  match text with
  | c :: digits =>
    if c = ascii '-' then
      if digits = [] then .unsignedInteger 0
      else .signedInteger (Int64.ofInt (max (-(decimalValue digits : ℤ)) (-2 ^ 63)))
    else .unsignedInteger (UInt64.ofNat (min (decimalValue text) (2 ^ 64 - 1)))
  | [] => .unsignedInteger 0

/-- The exponent after its letter: the sign, then at least one digit. -/
def readExponent (s : IStream) : Option (Bytes × IStream) :=
  let (sign, s) := match s.peek with
    | (some c, s) =>
      if c = ascii '+' ∨ c = ascii '-' then ([c], (IStream.peek { s with rest := s.rest.tail }).2)
      else ([], s)
    | (none, s) => ([], s)
  let digits := s.rest.takeWhile isDigit
  if digits = [] then none
  else some (sign ++ digits, (IStream.peek { s with rest := s.rest.drop digits.length }).2)

/-- `read_number`, whose first character has been read.  The loop over the digits ends with a
`peek`, and one more `peek` follows. -/
def readNumber (c : UInt8) (s : IStream) : Option (JsonValue R × IStream) :=
  let body := s.rest.takeWhile fun c ↦ isDigit c || c = ascii '.'
  let dots := body.count (ascii '.')
  let s := (IStream.peek { s with rest := s.rest.drop body.length }).2
  let (pee, s) := s.peek
  let exponent := pee = some (ascii 'e') || pee = some (ascii 'E')
  if 0 < dots || exponent then
    if 1 < dots then none
    else if exponent then
      match readExponent { s with rest := s.rest.tail } with
      | some (tail, s) =>
        some (.double (io.read (c :: body ++ pee.toList ++ tail)), s)
      | none => none
    else some (.double (io.read (c :: body)), s)
  else if body ≠ [] ∧ (c = ascii '0' ∨ c = ascii '-' ∧ body.head? = some (ascii '0')) then none
  else some (readInteger (c :: body), s)

/-! ## Values -/

/-- Assignment through the map's `operator[]`: entries are in the order of their keys. -/
def insertEntry (key : Bytes) (value : JsonValue R) :
    List (Bytes × JsonValue R) → List (Bytes × JsonValue R)
  | [] => [(key, value)]
  | (key', value') :: entries =>
    if key < key' then (key, value) :: (key', value') :: entries
    else if key = key' then (key, value) :: entries
    else (key', value') :: insertEntry key value entries

mutual

/-- `operator>>`, with a bound on how deep and how long the recursion goes. -/
def readValue : ℕ → IStream → Option (JsonValue R × IStream)
  | 0, _ => none
  | fuel + 1, s => do
    let (c, s) ← readNonWsChar s
    if c = ascii '[' then
      let (c, s') ← readNonWsChar s
      if c = ascii ']' then some (.array [], s')
      else
        -- the character is put back
        let (items, s) ← readItems fuel { s' with rest := c :: s'.rest }
        some (.array items, s)
    else if c = ascii 't' then
      let s ← readLiteral (text "rue") s
      some (.bool true, s)
    else if c = ascii 'f' then
      let s ← readLiteral (text "alse") s
      some (.bool false, s)
    else if c = ascii '-' || isDigit c then readNumber io c s
    else if c = ascii 'n' then
      let s ← readLiteral (text "ull") s
      some (.nil, s)
    else if c = ascii '\x7b' then
      let (c, s) ← readNonWsChar s
      if c = ascii '\x7d' then some (.object [], s)
      else
        let (entries, s) ← readEntries fuel [] c s
        some (.object entries, s)
    else if c = quote then
      let (value, rest) ← readStringToken [] s.rest
      some (.string value, { s with rest })
    else none

/-- The loop of `read_array`. -/
def readItems : ℕ → IStream → Option (List (JsonValue R) × IStream)
  | 0, _ => none
  | fuel + 1, s => do
    let (item, s) ← readValue fuel s
    let (c, s) ← readNonWsChar s
    if c = ascii ']' then some ([item], s)
    else if c = ascii ',' then
      let (items, s) ← readItems fuel s
      some (item :: items, s)
    else none

/-- The loop of `read_object`, with the members so far and the character just read. -/
def readEntries : ℕ → List (Bytes × JsonValue R) → UInt8 → IStream →
    Option (List (Bytes × JsonValue R) × IStream)
  | 0, _, _, _ => none
  | fuel + 1, entries, c, s =>
    if c = quote then do
      let (name, rest) ← readStringToken [] s.rest
      let (c, s) ← readNonWsChar { s with rest }
      if c = ascii ':' then
        let (value, s) ← readValue fuel s
        let (c, s) ← readNonWsChar s
        if c = ascii '\x7d' then some (insertEntry name value entries, s)
        else if c = ascii ',' then
          let (c, s) ← readNonWsChar s
          readEntries fuel (insertEntry name value entries) c s
        else none
      else none
    else none

end

/-- `from_string`: every level of the recursion reads at least one character. -/
def fromString (source : Bytes) : Option (JsonValue R) := do
  let (value, s) ← readValue io (source.length + 1) ⟨source, false, false⟩
  if s.fail then none
  else if s.good && !(s.rest.all isSpace) then none
  else some value

/-! ## Reading what was written -/

mutual

/-- A value without floating-point members.  An object's entries are in the order in which
`std::map` keeps them. -/
def DoubleFree : JsonValue R → Prop
  | .double _ => False
  | .array items => DoubleFreeItems items
  | .object entries => (entries.map Prod.fst).Pairwise (· < ·) ∧ DoubleFreeEntries entries
  | _ => True

def DoubleFreeItems : List (JsonValue R) → Prop
  | [] => True
  | item :: items => DoubleFree item ∧ DoubleFreeItems items

def DoubleFreeEntries : List (Bytes × JsonValue R) → Prop
  | [] => True
  | (_, value) :: entries => DoubleFree value ∧ DoubleFreeEntries entries

end

mutual

/-- The value with every integer that is not negative tagged as unsigned: two values are equal
with integers compared by numerical value if these are equal. -/
def normalize : JsonValue R → JsonValue R
  | .signedInteger value =>
    if value.toInt < 0 then .signedInteger value
    else .unsignedInteger (UInt64.ofNat value.toInt.natAbs)
  | .array items => .array (normalizeItems items)
  | .object entries => .object (normalizeEntries entries)
  | value => value

def normalizeItems : List (JsonValue R) → List (JsonValue R)
  | [] => []
  | item :: items => normalize item :: normalizeItems items

def normalizeEntries : List (Bytes × JsonValue R) → List (Bytes × JsonValue R)
  | [] => []
  | (key, value) :: entries => (key, normalize value) :: normalizeEntries entries

end

mutual

/-- No string and no key has the character 0x7F, which the writer does not escape and the reader
takes for a control character. -/
def deleteFree : JsonValue R → Bool
  | .string value => !value.contains 0x7F
  | .array items => deleteFreeItems items
  | .object entries => deleteFreeEntries entries
  | _ => true

def deleteFreeItems : List (JsonValue R) → Bool
  | [] => true
  | item :: items => deleteFree item && deleteFreeItems items

def deleteFreeEntries : List (Bytes × JsonValue R) → Bool
  | [] => true
  | (key, value) :: entries => !key.contains 0x7F && (deleteFree value && deleteFreeEntries entries)

end

def isInteger : JsonValue R → Bool
  | .signedInteger _ => true
  | .unsignedInteger _ => true
  | _ => false

/-- A stream of which nothing has been peeked at past its end. -/
def stream (rest : Bytes) : IStream := ⟨rest, false, false⟩

theorem readNonWsChar_cons {c : UInt8} {rest : Bytes} (hc : isSpace c = false) :
    readNonWsChar (stream (c :: rest)) = some (c, stream rest) := by
  simp [readNonWsChar, stream, IStream.good, hc]

/-! ### Strings -/

theorem codePoint_escapeControl :
    ∀ c : UInt8, c.toNat < 0x20 →
      codePoint (ascii '0') (ascii '0') (hexDigit (c.toNat / 16)) (hexDigit (c.toNat % 16)) =
        some c.toNat := by
  decide +kernel

theorem appendCodePoint_lt {cp : ℕ} (hcp : cp < 0x80) :
    appendCodePoint cp = some [UInt8.ofNat cp] := by
  have hsurrogate : ¬(0xD800 ≤ cp ∧ cp ≤ 0xDFFF ∨ 0xFFFE ≤ cp) := by omega
  simp [appendCodePoint, hsurrogate, hcp]

theorem readStringToken_cntrl (value rest : Bytes) {c : UInt8} (hcntrl : isCntrl c = true) :
    readStringToken value (c :: rest) = none := by
  rw [readStringToken.eq_def]
  simp only [hcntrl, if_true]

theorem readStringToken_quote (value rest : Bytes) :
    readStringToken value (quote :: rest) = some (value, rest) := by
  rw [readStringToken.eq_def]
  have hcntrl : isCntrl quote = false := by decide
  simp only [hcntrl, Bool.false_eq_true, if_false, if_true]

theorem readStringToken_plain (value rest : Bytes) {c : UInt8} (hcntrl : isCntrl c = false)
    (hquote : c ≠ quote) (hbackslash : c ≠ backslash) :
    readStringToken value (c :: rest) = readStringToken (value ++ [c]) rest := by
  rw [readStringToken.eq_def]
  simp only [hcntrl, Bool.false_eq_true, if_false, hquote, hbackslash]

theorem readStringToken_short (value rest : Bytes) {e byte : UInt8}
    (hshort : shortEscape e = some byte) :
    readStringToken value (backslash :: e :: rest) = readStringToken (value ++ [byte]) rest := by
  have hcntrl : isCntrl backslash = false := by decide
  have hquote : backslash ≠ quote := by decide
  have hu : e ≠ ascii 'u' := by
    rintro rfl
    have hnone : shortEscape (ascii 'u') = none := by decide
    rw [hnone] at hshort
    cases hshort
  rw [readStringToken.eq_def]
  simp only [hcntrl, Bool.false_eq_true, if_false, hquote, if_true, hu, hshort]

theorem readStringToken_unicode (value rest : Bytes) (c0 c1 c2 c3 : UInt8) :
    readStringToken value (backslash :: ascii 'u' :: c0 :: c1 :: c2 :: c3 :: rest) =
      ((codePoint c0 c1 c2 c3).bind appendCodePoint).bind
        fun bytes ↦ readStringToken (value ++ bytes) rest := by
  have hcntrl : isCntrl backslash = false := by decide
  have hquote : backslash ≠ quote := by decide
  rw [readStringToken.eq_def]
  simp only [hcntrl, Bool.false_eq_true, if_false, hquote, if_true]
  cases (codePoint c0 c1 c2 c3).bind appendCodePoint <;> rfl

/-- One character through the writer and the reader. -/
theorem readStringToken_escapeChar (value rest : Bytes) {c : UInt8} (hc : c ≠ 0x7F) :
    readStringToken value (escapeChar c ++ rest) = readStringToken (value ++ [c]) rest := by
  unfold escapeChar
  split_ifs with hquote hcontrol
  · obtain rfl | rfl := hquote
    · exact readStringToken_short value rest (by decide)
    · exact readStringToken_short value rest (by decide)
  · unfold escapeControl
    split_ifs with h8 h9 h10 h12 h13
    · exact readStringToken_short value rest (h8 ▸ by decide)
    · exact readStringToken_short value rest (h9 ▸ by decide)
    · exact readStringToken_short value rest (h10 ▸ by decide)
    · exact readStringToken_short value rest (h12 ▸ by decide)
    · exact readStringToken_short value rest (h13 ▸ by decide)
    · have htext : text "\\u00" = [backslash, ascii 'u', ascii '0', ascii '0'] := by decide
      have happend : appendCodePoint c.toNat = some [c] := by
        rw [appendCodePoint_lt (by omega), UInt8.ofNat_toNat]
      rw [htext]
      refine (readStringToken_unicode value rest _ _ _ _).trans ?_
      rw [codePoint_escapeControl c hcontrol, Option.bind_some, happend, Option.bind_some]
  · rw [not_or] at hquote
    have hcntrl : isCntrl c = false := by simp [isCntrl, hc, hcontrol]
    exact readStringToken_plain value rest hcntrl hquote.2 hquote.1

theorem readStringToken_escapeString (value str rest : Bytes) :
    readStringToken value (escapeString str ++ quote :: rest) =
      if str.contains 0x7F then none else some (value ++ str, rest) := by
  induction str generalizing value with
  | nil => simpa [escapeString] using readStringToken_quote value rest
  | cons c str ih =>
    by_cases hc : c = 0x7F
    · subst hc
      have hescape : escapeChar 0x7F = [0x7F] := by decide
      rw [escapeString, List.flatMap_cons, hescape, List.append_assoc]
      simpa using readStringToken_cntrl value _ (by decide : isCntrl 0x7F = true)
    · have hcontains : (c :: str).contains 0x7F = str.contains 0x7F := by
        simp [Ne.symm hc]
      rw [hcontains, escapeString, List.flatMap_cons, List.append_assoc,
        readStringToken_escapeChar _ _ hc]
      simpa [escapeString] using ih (value ++ [c])

/-! ### Integers -/

theorem toNat_ascii {ch : Char} (hdigit : ch.isDigit) :
    (ascii ch).toNat = ch.toNat ∧ 48 ≤ ch.toNat ∧ ch.toNat ≤ 57 := by
  simp only [Char.isDigit, ge_iff_le, Bool.and_eq_true, decide_eq_true_eq,
    UInt32.le_iff_toNat_le] at hdigit
  have hlow : 48 ≤ ch.toNat := hdigit.1
  have hhigh : ch.toNat ≤ 57 := hdigit.2
  refine ⟨?_, hlow, hhigh⟩
  rw [ascii, UInt8.toNat_ofNat']
  omega

theorem isDigit_decimal (n : ℕ) : ∀ c ∈ decimal n, isDigit c := by
  intro c hc
  obtain ⟨ch, hch, rfl⟩ := List.mem_map.mp hc
  obtain ⟨heq, hlow, hhigh⟩ :=
    toNat_ascii (Nat.isDigit_of_mem_toDigits (by decide) (by decide) hch)
  simp [isDigit, heq, hlow, hhigh]

theorem decimalValue_decimal (n : ℕ) : decimalValue (decimal n) = n := by
  have hfold : ∀ (chars : List Char), (∀ ch ∈ chars, ch.isDigit) → ∀ sofar : ℕ,
      (chars.map ascii).foldl (fun n c ↦ n * 10 + (c.toNat - 0x30)) sofar =
        Nat.ofDigitChars 10 chars sofar := by
    intro chars hchars
    induction chars with
    | nil => simp
    | cons ch chars ih =>
      intro sofar
      rw [List.forall_mem_cons] at hchars
      have hch : (ascii ch).toNat - 0x30 = ch.toNat - 48 := by
        rw [(toNat_ascii hchars.1).1]
      rw [List.map_cons, List.foldl_cons, Nat.ofDigitChars_cons, ih hchars.2, hch, Nat.mul_comm]
      rfl
  have hdigits : ∀ ch ∈ Nat.toDigits 10 n, ch.isDigit := fun ch hch ↦
    Nat.isDigit_of_mem_toDigits (by decide) (by decide) hch
  exact (hfold _ hdigits 0).trans Nat.ofDigitChars_ten_toDigits

theorem decimal_ne_nil (n : ℕ) : decimal n ≠ [] := by
  simp [decimal, Nat.toDigits_ne_nil]

/-- Only zero starts with the digit zero. -/
theorem head_decimal {n : ℕ} (hn : 0 < n) : (decimal n).head? ≠ some (ascii '0') := by
  induction n using Nat.strong_induction_on with
  | _ n ih =>
    by_cases hlt : n < 10
    · have hsmall : ∀ m < 10, 0 < m → (decimal m).head? ≠ some (ascii '0') := by decide
      exact hsmall n hlt hn
    · have hstep : decimal n = decimal (n / 10) ++ [ascii (Nat.digitChar (n % 10))] := by
        rw [decimal, Nat.toDigits_of_base_le (by decide) (by omega), List.map_append]
        rfl
      have hhead : (decimal n).head? = (decimal (n / 10)).head? := by
        rw [hstep, List.head?_append_of_ne_nil _ (decimal_ne_nil _)]
      rw [hhead]
      exact ih (n / 10) (by omega) (by omega)

/-- What may follow a member of an array or of an object. -/
def isDelimiter (c : UInt8) : Bool := c = ascii ',' || c = ascii ']' || c = ascii '\x7d'

theorem not_number_of_isDelimiter :
    ∀ c : UInt8, isDelimiter c →
      (isDigit c || decide (c = ascii '.')) = false ∧ c ≠ ascii 'e' ∧ c ≠ ascii 'E' := by
  decide +kernel

theorem takeWhile_digits {digits : Bytes} (hdigits : ∀ c ∈ digits, isDigit c) (rest : Bytes)
    (hrest : ∀ c ∈ rest.head?, (isDigit c || decide (c = ascii '.')) = false) :
    (digits ++ rest).takeWhile (fun c ↦ isDigit c || c = ascii '.') = digits := by
  rw [List.takeWhile_append_of_pos fun c hc ↦ by simp [hdigits c hc]]
  cases rest with
  | nil => simp
  | cons c rest => simp [hrest c rfl]

theorem count_dot {digits : Bytes} (hdigits : ∀ c ∈ digits, isDigit c) :
    digits.count (ascii '.') = 0 := by
  refine List.count_eq_zero.mpr fun hmem ↦ ?_
  exact absurd (hdigits _ hmem) (by decide)

/-- Digits before a delimiter are read as an integer. -/
theorem readNumber_delimiter {c t : UInt8} {digits rest : Bytes}
    (hdigits : ∀ c ∈ digits, isDigit c) (ht : isDelimiter t)
    (hzero : digits = [] ∨ c ≠ ascii '0' ∧ (c = ascii '-' → digits.head? ≠ some (ascii '0'))) :
    readNumber io c (stream (digits ++ t :: rest)) =
      some (readInteger (c :: digits), stream (t :: rest)) := by
  obtain ⟨hdigit, he, hE⟩ := not_number_of_isDelimiter t ht
  have hbody := takeWhile_digits hdigits (t :: rest) (by simpa using hdigit)
  have hpeek : ∀ rest, IStream.peek (stream (t :: rest)) = (some t, stream (t :: rest)) :=
    fun rest ↦ rfl
  have hzero' : ¬(digits ≠ [] ∧
      (c = ascii '0' ∨ c = ascii '-' ∧ digits.head? = some (ascii '0'))) := by
    rintro ⟨hne, hc | ⟨hc, hhead⟩⟩
    · exact (hzero.resolve_left hne).1 hc
    · exact (hzero.resolve_left hne).2 hc hhead
  unfold readNumber
  simp only [stream] at hbody hpeek ⊢
  simp only [hbody, List.drop_left, hpeek, count_dot hdigits, Option.some.injEq, he, hE,
    decide_false, Bool.or_self, lt_self_iff_false, Bool.false_eq_true, if_false, if_neg hzero']

/-- At the end of the text the second `peek` marks the stream as failed. -/
theorem fail_of_readNumber_end {c : UInt8} {digits : Bytes} (hdigits : ∀ c ∈ digits, isDigit c)
    {value : JsonValue R} {s : IStream}
    (hread : readNumber io c (stream digits) = some (value, s)) : s.fail = true := by
  have hbody := takeWhile_digits hdigits [] (by simp)
  rw [List.append_nil] at hbody
  have hpeek : IStream.peek ⟨[], false, false⟩ = (none, ⟨[], true, false⟩) := rfl
  have hpeek' : IStream.peek ⟨[], true, false⟩ = (none, ⟨[], true, true⟩) := rfl
  unfold readNumber at hread
  simp only [stream, hbody, List.drop_length, hpeek, hpeek', count_dot hdigits] at hread
  simp only [lt_self_iff_false, decide_false, reduceCtorEq, Bool.or_self, Bool.false_eq_true,
    if_false] at hread
  split_ifs at hread
  cases hread
  rfl

/-- The text of a natural number, as it is read back. -/
theorem natural_text {n : ℕ} (hn : n < 2 ^ 64) :
    ∃ c digits, decimal n = c :: digits ∧ isDigit c ∧ (∀ d ∈ digits, isDigit d) ∧
      (digits = [] ∨ c ≠ ascii '0' ∧ (c = ascii '-' → digits.head? ≠ some (ascii '0'))) ∧
      readInteger (R := R) (c :: digits) = .unsignedInteger (UInt64.ofNat n) := by
  obtain ⟨c, digits, htext⟩ := List.exists_cons_of_ne_nil (decimal_ne_nil n)
  have hall := isDigit_decimal n
  rw [htext, List.forall_mem_cons] at hall
  have hminus : c ≠ ascii '-' := by
    rintro rfl
    exact absurd hall.1 (by decide)
  have hvalue : decimalValue (c :: digits) = n := by rw [← htext, decimalValue_decimal]
  refine ⟨c, digits, htext, hall.1, hall.2, ?_, ?_⟩
  · rcases Nat.eq_zero_or_pos n with rfl | hpos
    · have hzero : decimal 0 = [ascii '0'] := by decide
      rw [hzero] at htext
      exact .inl (List.cons.inj htext).2.symm
    · have hhead := head_decimal hpos
      rw [htext, List.head?_cons] at hhead
      exact .inr ⟨fun hc ↦ hhead (congrArg some hc), fun hc ↦ absurd hc hminus⟩
  · have hmin : min n (2 ^ 64 - 1) = n := by omega
    rw [readInteger, if_neg hminus, hvalue, hmin]

/-- The text of an integer, as it is read back. -/
theorem integer_text {v : JsonValue R} (hv : isInteger v = true) :
    ∃ c digits, write io v = c :: digits ∧ (c = ascii '-' || isDigit c) ∧
      (∀ d ∈ digits, isDigit d) ∧
      (digits = [] ∨ c ≠ ascii '0' ∧ (c = ascii '-' → digits.head? ≠ some (ascii '0'))) ∧
      readInteger (c :: digits) = normalize v := by
  cases v with
  | signedInteger value =>
    have hrange := value.toInt_lt
    have hlow := value.le_toInt
    rw [write, normalize]
    split_ifs with hneg
    · have hpos : 0 < value.toInt.natAbs := by omega
      have hmax : max (-(value.toInt.natAbs : ℤ)) (-2 ^ 63) = value.toInt := by omega
      refine ⟨ascii '-', decimal value.toInt.natAbs, rfl, by decide, isDigit_decimal _,
        .inr ⟨by decide, fun _ ↦ head_decimal hpos⟩, ?_⟩
      rw [readInteger, if_pos rfl, if_neg (decimal_ne_nil _), decimalValue_decimal, hmax,
        Int64.ofInt_toInt]
    · obtain ⟨c, digits, htext, hc, hrest⟩ :=
        natural_text (R := R) (show value.toInt.natAbs < 2 ^ 64 by omega)
      exact ⟨c, digits, htext, by simp [hc], hrest⟩
  | unsignedInteger value =>
    obtain ⟨c, digits, htext, hc, hrest⟩ := natural_text (R := R) value.toNat_lt
    refine ⟨c, digits, by rw [write, htext], by simp [hc], ?_⟩
    rwa [UInt64.ofNat_toNat] at hrest
  | _ => simp [isInteger] at hv

/-! ### Nested values -/

theorem first_of_number :
    ∀ c : UInt8, (c = ascii '-' || isDigit c) = true →
      isSpace c = false ∧ c ≠ ascii '[' ∧ c ≠ ascii 't' ∧ c ≠ ascii 'f' ∧ c ≠ ascii ']' := by
  decide +kernel

/-- What is written starts with a character that is neither white space nor a bracket that
closes. -/
theorem write_eq_cons {v : JsonValue R} (hv : DoubleFree v) :
    ∃ c tail, write io v = c :: tail ∧ isSpace c = false ∧ c ≠ ascii ']' := by
  by_cases hint : isInteger v = true
  · obtain ⟨c, digits, htext, hc, -⟩ := integer_text io hint
    obtain ⟨hspace, -, -, -, hclose⟩ := first_of_number c hc
    exact ⟨c, digits, htext, hspace, hclose⟩
  · cases v with
    | nil => exact ⟨_, _, rfl, by decide, by decide⟩
    | bool value => cases value <;> exact ⟨_, _, rfl, by decide, by decide⟩
    | signedInteger value => simp [isInteger] at hint
    | unsignedInteger value => simp [isInteger] at hint
    | double value => exact absurd hv (by simp [DoubleFree])
    | string value => exact ⟨_, _, rfl, by decide, by decide⟩
    | array items => cases items <;> exact ⟨_, _, rfl, by decide, by decide⟩
    | object entries =>
      rcases entries with _ | ⟨⟨key, value⟩, entries⟩ <;> exact ⟨_, _, rfl, by decide, by decide⟩

/-- An integer must be followed by the next member or by the end of the enclosing value. -/
def Follows (v : JsonValue R) (rest : Bytes) : Prop :=
  isInteger v = true → ∃ t rest', rest = t :: rest' ∧ isDelimiter t = true

theorem readValue_number (fuel : ℕ) {c : UInt8} (rest : Bytes)
    (hc : (c = ascii '-' || isDigit c) = true) :
    readValue io (fuel + 1) (stream (c :: rest)) = readNumber io c (stream rest) := by
  obtain ⟨hspace, harray, ht, hf, -⟩ := first_of_number c hc
  rw [readValue, readNonWsChar_cons hspace]
  simp only [Option.bind_eq_bind, Option.bind_some, harray, ht, hf, if_false, hc, if_true]

theorem readValue_integer (fuel : ℕ) {v : JsonValue R} {rest : Bytes}
    (hv : isInteger v = true) (hrest : Follows v rest) :
    readValue io (fuel + 1) (stream (write io v ++ rest)) = some (normalize v, stream rest) := by
  obtain ⟨c, digits, htext, hc, hdigits, hzero, hread⟩ := integer_text io hv
  obtain ⟨t, rest', rfl, ht⟩ := hrest hv
  rw [htext, List.cons_append, readValue_number io fuel _ hc,
    readNumber_delimiter io hdigits ht hzero, hread]

theorem readValue_string (fuel : ℕ) (value rest : Bytes) :
    readValue io (fuel + 1) (stream (write io (.string value) ++ rest)) =
      if value.contains 0x7F then none else some (.string value, stream rest) := by
  have htext : write io (.string value) ++ rest =
      quote :: (escapeString value ++ quote :: rest) := by
    simp [write]
  have hread : readValue io (fuel + 1) (stream (quote :: (escapeString value ++ quote :: rest))) =
      (readStringToken [] (escapeString value ++ quote :: rest)).bind
        fun r ↦ some (.string r.1, stream r.2) := by
    rw [readValue, readNonWsChar_cons (by decide)]
    rfl
  rw [htext, hread, readStringToken_escapeString]
  split_ifs <;> rfl

/-- A member of an array has been read; the bracket or the comma comes next. -/
theorem readItems_close (fuel : ℕ) (text rest : Bytes) (item : JsonValue R)
    (hread : readValue io fuel (stream text) = some (item, stream (ascii ']' :: rest))) :
    readItems io (fuel + 1) (stream text) = some ([item], stream rest) := by
  have hspace : isSpace (ascii ']') = false := by decide
  rw [readItems, hread]
  simp only [Option.bind_eq_bind, Option.bind_some, readNonWsChar_cons hspace, if_true]

theorem readItems_comma (fuel : ℕ) (text rest : Bytes) (item : JsonValue R)
    (hread : readValue io fuel (stream text) = some (item, stream (ascii ',' :: rest))) :
    readItems io (fuel + 1) (stream text) =
      (readItems io fuel (stream rest)).map fun r ↦ (item :: r.1, r.2) := by
  have hspace : isSpace (ascii ',') = false := by decide
  have hclose : ascii ',' ≠ ascii ']' := by decide
  rw [readItems, hread]
  simp only [Option.bind_eq_bind, Option.bind_some, readNonWsChar_cons hspace, if_neg hclose,
    if_true]
  cases readItems io fuel (stream rest) <;> rfl

theorem readItems_none (fuel : ℕ) (s : IStream) (hread : readValue io fuel s = none) :
    readItems io (fuel + 1) s = none := by
  rw [readItems, hread]
  rfl

/-- The array's opening bracket before its first member. -/
theorem readValue_items (fuel : ℕ) {c : UInt8} (rest : Bytes) (hspace : isSpace c = false)
    (hclose : c ≠ ascii ']') :
    readValue io (fuel + 1) (stream (ascii '[' :: c :: rest)) =
      (readItems io fuel (stream (c :: rest))).map fun r ↦ (.array r.1, r.2) := by
  rw [readValue, readNonWsChar_cons (by decide)]
  simp only [Option.bind_eq_bind, Option.bind_some, if_true, readNonWsChar_cons hspace,
    if_neg hclose]
  change (readItems io fuel (stream (c :: rest))).bind _ = _
  cases readItems io fuel (stream (c :: rest)) <;> rfl

theorem readEntries_quote (fuel : ℕ) (entries : List (Bytes × JsonValue R)) (key text : Bytes) :
    readEntries io (fuel + 1) entries quote
        (stream (escapeString key ++ quote :: ascii ':' :: text)) =
      if key.contains 0x7F then none
      else (readValue io fuel (stream text)).bind fun r ↦
        (readNonWsChar r.2).bind fun q ↦
          if q.1 = ascii '\x7d' then some (insertEntry key r.1 entries, q.2)
          else if q.1 = ascii ',' then
            (readNonWsChar q.2).bind fun p ↦
              readEntries io fuel (insertEntry key r.1 entries) p.1 p.2
          else none := by
  have hspace : isSpace (ascii ':') = false := by decide
  have hcolon : readNonWsChar ⟨ascii ':' :: text, false, false⟩ = some (ascii ':', stream text) :=
    readNonWsChar_cons hspace
  rw [readEntries, if_pos rfl, stream, readStringToken_escapeString]
  split_ifs
  · rfl
  · simp only [Option.bind_eq_bind, Option.bind_some, hcolon, if_true, List.nil_append]

/-- A member of an object has been read; the bracket or the comma comes next. -/
theorem readEntries_close (fuel : ℕ) (entries : List (Bytes × JsonValue R)) {key : Bytes}
    (hkey : key.contains 0x7F = false) (text rest : Bytes) (value : JsonValue R)
    (hread : readValue io fuel (stream text) = some (value, stream (ascii '\x7d' :: rest))) :
    readEntries io (fuel + 1) entries quote
        (stream (escapeString key ++ quote :: ascii ':' :: text)) =
      some (insertEntry key value entries, stream rest) := by
  have hspace : isSpace (ascii '\x7d') = false := by decide
  rw [readEntries_quote, hkey, hread]
  simp only [Bool.false_eq_true, if_false, Option.bind_some, readNonWsChar_cons hspace, if_true]

theorem readEntries_comma (fuel : ℕ) (entries : List (Bytes × JsonValue R)) {key : Bytes}
    (hkey : key.contains 0x7F = false) (text rest : Bytes) (value : JsonValue R)
    (hread : readValue io fuel (stream text) = some (value, stream (ascii ',' :: quote :: rest))) :
    readEntries io (fuel + 1) entries quote
        (stream (escapeString key ++ quote :: ascii ':' :: text)) =
      readEntries io fuel (insertEntry key value entries) quote (stream rest) := by
  have hspace : isSpace (ascii ',') = false := by decide
  have hquote : isSpace quote = false := by decide
  have hclose : ascii ',' ≠ ascii '\x7d' := by decide
  rw [readEntries_quote, hkey, hread]
  simp only [Bool.false_eq_true, if_false, Option.bind_some, readNonWsChar_cons hspace,
    if_neg hclose, if_true, readNonWsChar_cons hquote]

theorem readEntries_none (fuel : ℕ) (entries : List (Bytes × JsonValue R)) (key text : Bytes)
    (hread : key.contains 0x7F = true ∨ readValue io fuel (stream text) = none) :
    readEntries io (fuel + 1) entries quote
      (stream (escapeString key ++ quote :: ascii ':' :: text)) = none := by
  rw [readEntries_quote]
  obtain hkey | hnone := hread
  · rw [if_pos hkey]
  · rw [hnone, Option.bind_none, ite_self]

/-- The object's opening bracket before its first member. -/
theorem readValue_entries (fuel : ℕ) (rest : Bytes) :
    readValue io (fuel + 1) (stream (ascii '\x7b' :: quote :: rest)) =
      (readEntries io fuel [] quote (stream rest)).map fun r ↦ (.object r.1, r.2) := by
  have hread : readValue io (fuel + 1) (stream (ascii '\x7b' :: quote :: rest)) =
      (readEntries io fuel [] quote (stream rest)).bind fun r ↦ some (.object r.1, r.2) := by
    rw [readValue, readNonWsChar_cons (by decide)]
    rfl
  rw [hread]
  cases readEntries io fuel [] quote (stream rest) <;> rfl

/-- A key after all others goes to the end. -/
theorem insertEntry_append (key : Bytes) (value : JsonValue R)
    {entries : List (Bytes × JsonValue R)} (hkeys : ∀ entry ∈ entries, entry.1 < key) :
    insertEntry key value entries = entries ++ [(key, value)] := by
  induction entries with
  | nil => rfl
  | cons entry entries ih =>
    obtain ⟨key', value'⟩ := entry
    rw [List.forall_mem_cons] at hkeys
    have hlt : key' < key := hkeys.1
    have hasymm : ¬key < key' := List.lt_asymm hlt
    have hne : key ≠ key' := by
      rintro rfl
      exact hasymm hlt
    rw [insertEntry, if_neg hasymm, if_neg hne, ih hkeys.2, List.cons_append]

theorem follows_delimiter (v : JsonValue R) {t : UInt8} (ht : isDelimiter t = true) (rest : Bytes) :
    Follows v (t :: rest) := fun _ ↦ ⟨t, rest, rfl, ht⟩

/-- A key or a value with the character 0x7F stops the reader. -/
theorem not_free {key : Bytes} {v : JsonValue R} {result : JsonValue R × IStream}
    {read : Option (JsonValue R × IStream)}
    (hfree : ¬(key.contains 0x7F = false ∧ deleteFree v = true))
    (hread : read = if deleteFree v then some result else none) :
    key.contains 0x7F = true ∨ read = none := by
  cases hkey : key.contains 0x7F with
  | true => exact .inl rfl
  | false =>
    have hdelete : ¬deleteFree v = true := fun h ↦ hfree ⟨hkey, h⟩
    exact .inr (hread.trans (if_neg hdelete))

theorem deleteFreeEntries_cons_of_free {key : Bytes} {v : JsonValue R}
    {entries : List (Bytes × JsonValue R)} (hkey : key.contains 0x7F = false)
    (hdelete : deleteFree v = true) :
    deleteFreeEntries ((key, v) :: entries) = deleteFreeEntries entries := by
  rw [deleteFreeEntries, hkey, hdelete, Bool.not_false, Bool.true_and, Bool.true_and]

theorem deleteFreeEntries_cons_of_not {key : Bytes} {v : JsonValue R}
    {entries : List (Bytes × JsonValue R)}
    (hfree : ¬(key.contains 0x7F = false ∧ deleteFree v = true)) :
    deleteFreeEntries ((key, v) :: entries) = false := by
  rw [deleteFreeEntries]
  cases hkey : key.contains 0x7F with
  | true => rfl
  | false =>
    have hdelete : deleteFree v = false := by
      rw [← Bool.not_eq_true]
      exact fun h ↦ hfree ⟨hkey, h⟩
    rw [hdelete]
    rfl

mutual

/-- Reading what was written, with anything behind it.  The recursion is the writer's; it reads
the value back if there is no character 0x7F and fails otherwise. -/
theorem readValue_write : ∀ (v : JsonValue R), DoubleFree v → ∀ (fuel : ℕ) (rest : Bytes),
    (write io v).length ≤ fuel → Follows v rest →
    readValue io fuel (stream (write io v ++ rest)) =
      if deleteFree v then some (normalize v, stream rest) else none
  | v, hv, 0, rest, hfuel, _ => by
    obtain ⟨c, tail, htext, -⟩ := write_eq_cons io hv
    rw [htext, List.length_cons] at hfuel
    exact absurd hfuel (by omega)
  | .nil, _, fuel + 1, rest, _, _ => rfl
  | .bool true, _, fuel + 1, rest, _, _ => rfl
  | .bool false, _, fuel + 1, rest, _, _ => rfl
  | .signedInteger value, _, fuel + 1, rest, _, hrest => readValue_integer io fuel rfl hrest
  | .unsignedInteger value, _, fuel + 1, rest, _, hrest => readValue_integer io fuel rfl hrest
  | .double value, hv, fuel + 1, rest, _, _ => absurd hv (by simp [DoubleFree])
  | .string value, _, fuel + 1, rest, _, _ => by
    have hnormalize : normalize (.string value : JsonValue R) = .string value := by simp [normalize]
    rw [readValue_string, deleteFree, hnormalize]
    cases value.contains 0x7F <;> rfl
  | .array [], _, fuel + 1, rest, _, _ => rfl
  | .array (item :: items), hv, fuel + 1, rest, hfuel, _ => by
    have htext : write io (.array (item :: items)) ++ rest =
        ascii '[' :: (write io item ++ (writeItems io items ++ ascii ']' :: rest)) := by
      simp [write, text]
    have hlength : (write io (.array (item :: items))).length =
        (write io item).length + (writeItems io items).length + 2 := by
      simp [write, text]; omega
    obtain ⟨hitem, hitems⟩ : DoubleFree item ∧ DoubleFreeItems items := hv
    obtain ⟨c, tail, hwrite, hspace, hclose⟩ := write_eq_cons io hitem
    have hread := readItems_write item items hitem hitems fuel rest (by omega)
    rw [hwrite, List.cons_append] at hread
    rw [htext, hwrite, List.cons_append, readValue_items io fuel _ hspace hclose, hread]
    rw [deleteFree, normalize]
    cases deleteFreeItems (item :: items) <;> rfl
  | .object [], _, fuel + 1, rest, _, _ => rfl
  | .object ((key, value) :: entries), hv, fuel + 1, rest, hfuel, _ => by
    have htext : write io (.object ((key, value) :: entries)) ++ rest =
        ascii '\x7b' :: quote :: (escapeString key ++ quote :: ascii ':' ::
          (write io value ++ (writeEntries io entries ++ ascii '\x7d' :: rest))) := by
      simp [write, text, quote]; rfl
    have hlength : (write io (.object ((key, value) :: entries))).length =
        (write io value).length + (writeEntries io entries).length +
          (escapeString key).length + 5 := by
      simp [write, text]; omega
    obtain ⟨hkeys, hvalue, hentries⟩ := hv
    have hread := readEntries_write [] key value entries (by simp) hkeys hvalue hentries fuel rest
      (by omega)
    rw [htext, readValue_entries, hread]
    rw [deleteFree, normalize]
    cases deleteFreeEntries ((key, value) :: entries) <;> rfl
termination_by v => sizeOf v

theorem readItems_write (item : JsonValue R) : ∀ (items : List (JsonValue R)), DoubleFree item →
    DoubleFreeItems items → ∀ (fuel : ℕ) (rest : Bytes),
    (write io item).length + (writeItems io items).length + 1 ≤ fuel →
    readItems io fuel (stream (write io item ++ (writeItems io items ++ ascii ']' :: rest))) =
      if deleteFreeItems (item :: items) then
        some (normalizeItems (item :: items), stream rest)
      else none
  | [], hitem, _, fuel, rest, hfuel => by
    obtain ⟨fuel, rfl⟩ : ∃ fuel', fuel = fuel' + 1 := ⟨fuel - 1, by omega⟩
    have hread := readValue_write item hitem fuel (ascii ']' :: rest) (by omega)
      (follows_delimiter item (by decide) rest)
    simp only [writeItems, List.nil_append, deleteFreeItems, Bool.and_true, normalizeItems]
    split_ifs at hread ⊢
    · exact readItems_close io fuel _ rest _ hread
    · exact readItems_none io fuel _ hread
  | item' :: items, hitem, hitems, fuel, rest, hfuel => by
    obtain ⟨fuel, rfl⟩ : ∃ fuel', fuel = fuel' + 1 := ⟨fuel - 1, by omega⟩
    have htext : writeItems io (item' :: items) ++ ascii ']' :: rest =
        ascii ',' :: (write io item' ++ (writeItems io items ++ ascii ']' :: rest)) := by
      simp [writeItems, text]
    have hlength : (writeItems io (item' :: items)).length =
        (write io item').length + (writeItems io items).length + 1 := by
      simp [writeItems, text]
    have hread := readValue_write item hitem fuel
      (ascii ',' :: (write io item' ++ (writeItems io items ++ ascii ']' :: rest))) (by omega)
      (follows_delimiter item (by decide) _)
    have hmore := readItems_write item' items hitems.1 hitems.2 fuel rest (by omega)
    rw [htext, deleteFreeItems, normalizeItems]
    cases hdelete : deleteFree item
    · rw [hdelete] at hread
      exact readItems_none io fuel _ hread
    · rw [hdelete] at hread
      rw [readItems_comma io fuel _ _ _ hread, hmore, Bool.true_and]
      split_ifs <;> rfl
termination_by items => sizeOf item + sizeOf items + 1

theorem readEntries_write (previous : List (Bytes × JsonValue R)) (key : Bytes)
    (value : JsonValue R) : ∀ (entries : List (Bytes × JsonValue R)),
    (∀ entry ∈ previous, entry.1 < key) →
    (((key, value) :: entries).map Prod.fst).Pairwise (· < ·) → DoubleFree value →
    DoubleFreeEntries entries → ∀ (fuel : ℕ) (rest : Bytes),
    (write io value).length + (writeEntries io entries).length + 1 ≤ fuel →
    readEntries io fuel previous quote (stream (escapeString key ++ quote :: ascii ':' ::
        (write io value ++ (writeEntries io entries ++ ascii '\x7d' :: rest)))) =
      if deleteFreeEntries ((key, value) :: entries) then
        some (previous ++ normalizeEntries ((key, value) :: entries), stream rest)
      else none
  | [], hprevious, _, hvalue, _, fuel, rest, hfuel => by
    obtain ⟨fuel, rfl⟩ : ∃ fuel', fuel = fuel' + 1 := ⟨fuel - 1, by omega⟩
    have hread := readValue_write value hvalue fuel (ascii '\x7d' :: rest) (by omega)
      (follows_delimiter value (by decide) rest)
    rw [writeEntries, List.nil_append]
    by_cases hfree : key.contains 0x7F = false ∧ deleteFree value = true
    · obtain ⟨hkey, hdelete⟩ := hfree
      rw [hdelete, if_pos rfl] at hread
      rw [readEntries_close io fuel previous hkey _ _ _ hread,
        insertEntry_append key (normalize value) hprevious,
        deleteFreeEntries_cons_of_free hkey hdelete]
      rfl
    · rw [readEntries_none io fuel _ _ _ (not_free hfree hread),
        deleteFreeEntries_cons_of_not hfree]
      rfl
  | (key', value') :: entries, hprevious, hkeys, hvalue, hentries, fuel, rest, hfuel => by
    obtain ⟨fuel, rfl⟩ : ∃ fuel', fuel = fuel' + 1 := ⟨fuel - 1, by omega⟩
    have htext : writeEntries io ((key', value') :: entries) ++ ascii '\x7d' :: rest =
        ascii ',' :: quote :: (escapeString key' ++ quote :: ascii ':' ::
          (write io value' ++ (writeEntries io entries ++ ascii '\x7d' :: rest))) := by
      simp [writeEntries, text, quote]; rfl
    have hlength : (writeEntries io ((key', value') :: entries)).length =
        (write io value').length + (writeEntries io entries).length +
          (escapeString key').length + 4 := by
      simp [writeEntries, text]; omega
    have hread := readValue_write value hvalue fuel
      (writeEntries io ((key', value') :: entries) ++ ascii '\x7d' :: rest) (by omega)
      (htext ▸ follows_delimiter value (by decide) _)
    rw [List.map_cons, List.pairwise_cons] at hkeys
    have hlt : key < key' := hkeys.1 key' (by simp)
    have hprevious' : ∀ entry ∈ previous ++ [(key, normalize value)], entry.1 < key' := by
      intro entry hentry
      rw [List.mem_append, List.mem_singleton] at hentry
      obtain hentry | rfl := hentry
      · exact List.lt_trans (hprevious entry hentry) hlt
      · exact hlt
    have hmore := readEntries_write (previous ++ [(key, normalize value)]) key' value' entries
      hprevious' hkeys.2 hentries.1 hentries.2 fuel rest (by omega)
    by_cases hfree : key.contains 0x7F = false ∧ deleteFree value = true
    · obtain ⟨hkey, hdelete⟩ := hfree
      rw [hdelete, if_pos rfl, htext] at hread
      rw [htext, readEntries_comma io fuel previous hkey _ _ _ hread,
        insertEntry_append key (normalize value) hprevious, hmore,
        deleteFreeEntries_cons_of_free hkey hdelete, List.append_assoc]
      rfl
    · rw [readEntries_none io fuel _ _ _ (not_free hfree hread),
        deleteFreeEntries_cons_of_not hfree]
      rfl
termination_by entries => sizeOf value + sizeOf entries + 1

end

mutual

theorem normalize_normalize : ∀ v : JsonValue R, normalize (normalize v) = normalize v
  | .nil | .bool _ | .unsignedInteger _ | .double _ | .string _ => by simp [normalize]
  | .signedInteger value => by
    by_cases hneg : value.toInt < 0 <;> simp [normalize, hneg]
  | .array items => by
    rw [normalize, normalize, normalizeItems_normalizeItems items]
  | .object entries => by
    rw [normalize, normalize, normalizeEntries_normalizeEntries entries]

theorem normalizeItems_normalizeItems : ∀ items : List (JsonValue R),
    normalizeItems (normalizeItems items) = normalizeItems items
  | [] => rfl
  | item :: items => by
    rw [normalizeItems, normalizeItems, normalize_normalize item,
      normalizeItems_normalizeItems items]

theorem normalizeEntries_normalizeEntries : ∀ entries : List (Bytes × JsonValue R),
    normalizeEntries (normalizeEntries entries) = normalizeEntries entries
  | [] => rfl
  | (key, value) :: entries => by
    rw [normalizeEntries, normalizeEntries, normalize_normalize value,
      normalizeEntries_normalizeEntries entries]

end

/-- An integer alone is written as a text that cannot be read: at its end `read_number` looks
ahead once more than the stream allows. -/
theorem fromString_integer {v : JsonValue R} (hv : isInteger v = true) :
    fromString io (write io v) = none := by
  obtain ⟨c, digits, htext, hc, hdigits, -⟩ := integer_text io hv
  have hread := readValue_number io (write io v).length digits hc
  rw [htext] at hread ⊢
  unfold fromString
  rw [← stream, hread]
  cases hnumber : readNumber io c (stream digits) with
  | none => rfl
  | some result =>
    obtain ⟨value, s⟩ := result
    have hfail := fail_of_readNumber_end io hdigits hnumber
    simp only [Option.bind_eq_bind, Option.bind_some, hfail, if_true]

theorem fromString_write {v : JsonValue R} (hv : DoubleFree v) :
    fromString io (write io v) =
      if isInteger v = false ∧ deleteFree v = true then some (normalize v) else none := by
  cases hint : isInteger v with
  | true => rw [fromString_integer io hint, if_neg (by simp)]
  | false =>
    have hread := readValue_write io v hv ((write io v).length + 1) [] (by omega)
      (fun h ↦ by rw [hint] at h; cases h)
    rw [List.append_nil] at hread
    unfold fromString
    rw [← stream, hread]
    cases hdelete : deleteFree v <;> rfl

theorem exists_fromString_write_iff {v : JsonValue R} (hv : DoubleFree v) :
    (∃ w, fromString io (write io v) = some w ∧ normalize w = normalize v) ↔
      isInteger v = false ∧ deleteFree v = true := by
  rw [fromString_write io hv]
  constructor
  · rintro ⟨w, hw, -⟩
    by_contra hcond
    rw [if_neg hcond] at hw
    cases hw
  · intro hcond
    exact ⟨normalize v, if_pos hcond, normalize_normalize v⟩

/-! ## Escaped code points -/

/-- A digit that `from_hex` knows. -/
abbrev HexDigit := {c : UInt8 // (fromHex c).isSome}

/-- One piece of a string literal: a character, a short escape or a code unit in hexadecimal. -/
inductive Piece where
  | plain (c : {c : UInt8 // 0x20 ≤ c.toNat ∧ c ≠ quote ∧ c ≠ backslash})
  | short (c : {c : UInt8 // (shortEscape c).isSome})
  | unicode (c0 c1 c2 c3 : HexDigit)

namespace Piece

def bytes : Piece → Bytes
  | plain c => [c.1]
  | short c => [backslash, c.1]
  | unicode c0 c1 c2 c3 => [backslash, ascii 'u', c0.1, c1.1, c2.1, c3.1]

end Piece

def HexDigit.value (c : HexDigit) : ℕ := (fromHex c.1).get c.2

def codeUnit (c0 c1 c2 c3 : HexDigit) : ℕ :=
  c0.value * 4096 + c1.value * 256 + c2.value * 16 + c3.value

def isHighSurrogate (cp : ℕ) : Bool := 0xD800 ≤ cp && cp < 0xDC00

def isLowSurrogate (cp : ℕ) : Bool := 0xDC00 ≤ cp && cp < 0xE000

/-- The UTF-8 encoding of a code point. -/
def utf8 (cp : ℕ) : Bytes := String.utf8EncodeChar (Char.ofNat cp)

/-- What a literal stands for: a high and a low surrogate together are one code point, and a
surrogate alone is none. -/
def meaning : List Piece → Option Bytes
  | [] => some []
  | .plain c :: pieces => (meaning pieces).map (c.1 :: ·)
  | .short c :: pieces => (meaning pieces).map ((shortEscape c.1).get c.2 :: ·)
  | .unicode c0 c1 c2 c3 :: pieces =>
    let cp := codeUnit c0 c1 c2 c3
    if isHighSurrogate cp then
      match pieces with
      | .unicode d0 d1 d2 d3 :: pieces =>
        let low := codeUnit d0 d1 d2 d3
        if isLowSurrogate low then
          (meaning pieces).map (utf8 (0x10000 + (cp - 0xD800) * 0x400 + (low - 0xDC00)) ++ ·)
        else none
      | _ => none
    else if isLowSurrogate cp then none
    else (meaning pieces).map (utf8 cp ++ ·)

/-- The string literal of the pieces. -/
def literal (pieces : List Piece) : Bytes := quote :: pieces.flatMap Piece.bytes ++ [quote]

/-- A piece that the reader understands: neither the character 0x7F nor an escape of more than
seven bits. -/
def Piece.Simple : Piece → Prop
  | .plain c => c.1 ≠ 0x7F
  | .short _ => True
  | .unicode c0 c1 c2 c3 => codeUnit c0 c1 c2 c3 < 0x80

theorem codePoint_eq_codeUnit (c0 c1 c2 c3 : HexDigit) :
    codePoint c0.1 c1.1 c2.1 c3.1 = some (codeUnit c0 c1 c2 c3) := by
  have hvalue : ∀ c : HexDigit, fromHex c.1 = some c.value := fun c ↦ (Option.some_get c.2).symm
  simp only [codePoint, hvalue, Option.bind_eq_bind, Option.bind_some, codeUnit]

/-- What has been read stays at the front of the value, and the rest is the end of the source. -/
theorem of_readStringToken {value source result rest : Bytes}
    (hread : readStringToken value source = some (result, rest)) :
    value <+: result ∧ rest <:+ source := by
  fun_induction readStringToken value source with
  | case1 => cases hread
  | case2 => cases hread
  | case3 => cases hread; exact ⟨List.prefix_rfl, List.suffix_cons _ _⟩
  | case4 => cases hread
  | case5 value c0 c1 c2 c3 source bytes _ _ _ ih =>
    obtain ⟨hbegins, hsuffix⟩ := ih hread
    exact ⟨(List.prefix_append value bytes).trans hbegins,
      hsuffix.trans (List.suffix_append [backslash, ascii 'u', c0, c1, c2, c3] source)⟩
  | case6 => cases hread
  | case7 => cases hread
  | case8 value c source _ byte _ _ _ ih =>
    obtain ⟨hbegins, hsuffix⟩ := ih hread
    exact ⟨(List.prefix_append value [byte]).trans hbegins,
      hsuffix.trans (List.suffix_append [backslash, c] source)⟩
  | case9 => cases hread
  | case10 value c source _ _ _ ih =>
    obtain ⟨hbegins, hsuffix⟩ := ih hread
    exact ⟨(List.prefix_append value [c]).trans hbegins, hsuffix.trans (List.suffix_cons c source)⟩

/-- The reader appends the low bits first, as a continuation byte. -/
theorem continuation_of_appendCodePoint {cp : ℕ} (hcp : 0x80 ≤ cp) {bytes : Bytes}
    (happend : appendCodePoint cp = some bytes) :
    ∃ x tail, bytes = x :: tail ∧ x.toNat < 0xC0 := by
  have hor : ∀ low < 64, (0x80 ||| low) < 0xC0 := by decide
  have hfirst : (UInt8.ofNat (0x80 ||| (cp &&& 0x3F))).toNat < 0xC0 := by
    have hlow : cp &&& 0x3F < 64 := Nat.and_lt_two_pow (n := 6) cp (by decide)
    have hlt := hor _ hlow
    rw [UInt8.toNat_ofNat', Nat.mod_eq_of_lt (by omega)]
    exact hlt
  unfold appendCodePoint at happend
  split_ifs at happend with hsurrogate hshort hmiddle
  · omega
  · cases happend
    exact ⟨_, _, rfl, hfirst⟩
  · cases happend
    exact ⟨_, _, rfl, hfirst⟩

/-- UTF-8 has the high bits first, in a byte that announces how many follow. -/
theorem leading_of_utf8 {cp : ℕ} (hcp : 0x80 ≤ cp) (hvalid : cp.isValidChar) :
    ∃ y tail, utf8 cp = y :: tail ∧ 0xC0 ≤ y.toNat := by
  have htoNat : (Char.ofNat cp).val.toNat = cp := by
    rw [Char.ofNat, dif_pos hvalid]
    exact UInt32.toNat_ofNatLT ..
  unfold utf8 String.utf8EncodeChar
  rw [htoNat]
  simp only
  split_ifs with h7 h11 h16
  · omega
  · refine ⟨_, _, rfl, ?_⟩
    rw [UInt8.toNat_ofNat']
    omega
  · refine ⟨_, _, rfl, ?_⟩
    rw [UInt8.toNat_ofNat']
    omega
  · refine ⟨_, _, rfl, ?_⟩
    rw [UInt8.toNat_ofNat']
    omega

theorem utf8_of_lt {cp : ℕ} (hcp : cp < 0x80) : utf8 cp = [UInt8.ofNat cp] := by
  have hvalid : cp.isValidChar := .inl (by omega)
  have htoNat : (Char.ofNat cp).val.toNat = cp := by
    rw [Char.ofNat, dif_pos hvalid]
    exact UInt32.toNat_ofNatLT ..
  unfold utf8 String.utf8EncodeChar
  rw [htoNat]
  exact if_pos (by omega)

theorem meaning_unicode (c0 c1 c2 c3 : HexDigit) (pieces : List Piece)
    (hsurrogate : ¬(0xD800 ≤ codeUnit c0 c1 c2 c3 ∧ codeUnit c0 c1 c2 c3 ≤ 0xDFFF)) :
    meaning (.unicode c0 c1 c2 c3 :: pieces) =
      (meaning pieces).map (utf8 (codeUnit c0 c1 c2 c3) ++ ·) := by
  have hhigh : isHighSurrogate (codeUnit c0 c1 c2 c3) = false := by
    simp only [isHighSurrogate, Bool.and_eq_false_iff, decide_eq_false_iff_not]
    omega
  have hlow : isLowSurrogate (codeUnit c0 c1 c2 c3) = false := by
    simp only [isLowSurrogate, Bool.and_eq_false_iff, decide_eq_false_iff_not]
    omega
  rw [meaning.eq_def]
  simp only [hhigh, hlow, Bool.false_eq_true, if_false]

/-- The pieces are read as what they stand for. -/
def Understood (value : Bytes) (pieces : List Piece) (rest : Bytes) : Prop :=
  ∃ result, meaning pieces = some result ∧
    readStringToken value (pieces.flatMap Piece.bytes ++ quote :: rest) =
      some (value ++ result, rest)

/-- A piece that stands for what the reader appends for it does not matter. -/
theorem understood_cons (value bytes rest : Bytes) (piece : Piece) (pieces : List Piece)
    (hmeaning : meaning (piece :: pieces) = (meaning pieces).map (bytes ++ ·))
    (hread : ∀ tail, readStringToken value (piece.bytes ++ tail) =
      readStringToken (value ++ bytes) tail) :
    Understood value (piece :: pieces) rest ↔ Understood (value ++ bytes) pieces rest := by
  unfold Understood
  rw [hmeaning, List.flatMap_cons, List.append_assoc, hread]
  constructor
  · rintro ⟨result, hresult, htoken⟩
    obtain ⟨tail, htail, rfl⟩ := Option.map_eq_some_iff.mp hresult
    exact ⟨tail, htail, by rw [htoken, List.append_assoc]⟩
  · rintro ⟨tail, htail, htoken⟩
    exact ⟨bytes ++ tail, by rw [htail, Option.map_some], by rw [htoken, List.append_assoc]⟩

/-- An escape of more than seven bits is refused, or its bytes come out in the wrong order. -/
theorem not_understood_unicode {c0 c1 c2 c3 : HexDigit} (hcp : 0x80 ≤ codeUnit c0 c1 c2 c3)
    (value rest : Bytes) (pieces : List Piece) :
    ¬Understood value (.unicode c0 c1 c2 c3 :: pieces) rest := by
  rintro ⟨result, hmeaning, hread⟩
  have hsource : (Piece.unicode c0 c1 c2 c3 :: pieces).flatMap Piece.bytes ++ quote :: rest =
      backslash :: ascii 'u' :: c0.1 :: c1.1 :: c2.1 :: c3.1 ::
        (pieces.flatMap Piece.bytes ++ quote :: rest) := by
    simp [Piece.bytes]
  rw [hsource, readStringToken_unicode, codePoint_eq_codeUnit, Option.bind_some] at hread
  obtain ⟨bytes, happend, htoken⟩ := Option.bind_eq_some_iff.mp hread
  obtain ⟨x, low, rfl, hx⟩ := continuation_of_appendCodePoint hcp happend
  -- the reader refuses surrogates, so the code point is one that UTF-8 encodes
  have hvalid : ¬(0xD800 ≤ codeUnit c0 c1 c2 c3 ∧ codeUnit c0 c1 c2 c3 ≤ 0xDFFF ∨
      0xFFFE ≤ codeUnit c0 c1 c2 c3) := by
    intro hrefused
    rw [appendCodePoint, if_pos hrefused] at happend
    cases happend
  rw [not_or] at hvalid
  obtain ⟨y, high, hutf8, hy⟩ := leading_of_utf8 hcp (by unfold Nat.isValidChar; omega)
  rw [meaning_unicode _ _ _ _ pieces hvalid.1, hutf8] at hmeaning
  obtain ⟨tail, -, rfl⟩ := Option.map_eq_some_iff.mp hmeaning
  have hbegins := (of_readStringToken htoken).1
  rw [List.prefix_append_right_inj] at hbegins
  have hxy : x = y := (List.cons_prefix_cons.mp hbegins).1
  rw [hxy] at hx
  omega

theorem understood_iff (value : Bytes) (pieces : List Piece) (rest : Bytes) :
    Understood value pieces rest ↔ ∀ piece ∈ pieces, piece.Simple := by
  induction pieces generalizing value with
  | nil =>
    refine iff_of_true ⟨[], rfl, ?_⟩ (by simp)
    rw [List.append_nil]
    exact readStringToken_quote value rest
  | cons piece pieces ih =>
    rw [List.forall_mem_cons]
    cases piece with
    | plain c =>
      by_cases hc : c.1 = 0x7F
      · refine iff_of_false ?_ fun h ↦ h.1 hc
        rintro ⟨result, -, hread⟩
        have hnone := readStringToken_cntrl value (pieces.flatMap Piece.bytes ++ quote :: rest)
          (show isCntrl c.1 = true by simp [isCntrl, hc])
        have hsome := hnone.symm.trans hread
        cases hsome
      · have hcntrl : isCntrl c.1 = false := by
          have hlow := c.2.1
          simp only [isCntrl, Bool.or_eq_false_iff, decide_eq_false_iff_not, hc, not_false_iff,
            and_true]
          omega
        have hstep := understood_cons value [c.1] rest (.plain c) pieces rfl
          fun tail ↦ readStringToken_plain value tail hcntrl c.2.2.1 c.2.2.2
        rw [hstep, ih]
        exact (and_iff_right hc).symm
    | short c =>
      have hshort : shortEscape c.1 = some ((shortEscape c.1).get c.2) := (Option.some_get c.2).symm
      have hstep := understood_cons value [(shortEscape c.1).get c.2] rest (.short c) pieces rfl
        fun tail ↦ readStringToken_short value tail hshort
      rw [hstep, ih]
      exact (and_iff_right trivial).symm
    | unicode c0 c1 c2 c3 =>
      by_cases hcp : codeUnit c0 c1 c2 c3 < 0x80
      · have hmeaning := meaning_unicode c0 c1 c2 c3 pieces (by omega)
        rw [utf8_of_lt hcp] at hmeaning
        have hread : ∀ tail, readStringToken value ((Piece.unicode c0 c1 c2 c3).bytes ++ tail) =
            readStringToken (value ++ [UInt8.ofNat (codeUnit c0 c1 c2 c3)]) tail := by
          intro tail
          refine (readStringToken_unicode value tail _ _ _ _).trans ?_
          rw [codePoint_eq_codeUnit, Option.bind_some, appendCodePoint_lt hcp, Option.bind_some]
        rw [understood_cons value _ rest _ pieces hmeaning hread, ih]
        exact (and_iff_right hcp).symm
      · exact iff_of_false (not_understood_unicode (by omega) value rest pieces) fun h ↦ hcp h.1

theorem fromString_literal (pieces : List Piece) :
    fromString io (literal pieces) =
      (readStringToken [] (pieces.flatMap Piece.bytes ++ [quote])).bind fun r ↦
        if r.2.all isSpace then some (.string r.1) else none := by
  have hread : readValue io ((literal pieces).length + 1) (stream (literal pieces)) =
      (readStringToken [] (pieces.flatMap Piece.bytes ++ [quote])).bind
        fun r ↦ some (.string r.1, stream r.2) := by
    rw [literal, List.cons_append, readValue, readNonWsChar_cons (by decide)]
    rfl
  unfold fromString
  rw [← stream, hread]
  cases readStringToken [] (pieces.flatMap Piece.bytes ++ [quote]) with
  | none => rfl
  | some result =>
    simp only [Option.bind_eq_bind, Option.bind_some, stream, IStream.good, Bool.not_false,
      Bool.and_self, Bool.true_and, Bool.false_eq_true, if_false]
    cases result.2.all isSpace <;> rfl

theorem fromString_literal_eq_some_iff (pieces : List Piece) (result : Bytes) :
    fromString io (literal pieces) = some (.string result) ↔
      readStringToken [] (pieces.flatMap Piece.bytes ++ [quote]) = some (result, []) := by
  rw [fromString_literal]
  constructor
  · intro h
    obtain ⟨⟨result', rest⟩, hread, hsome⟩ := Option.bind_eq_some_iff.mp h
    split_ifs at hsome with hspace
    cases hsome
    -- the literal ends with its quotation mark, so nothing else can follow it
    rcases List.eq_nil_or_concat rest with rfl | ⟨front, last, rfl⟩
    · exact hread
    · rw [List.concat_eq_append] at hread hspace
      have hsuffix := (List.suffix_append front [last]).trans (of_readStringToken hread).2
      have hlast : last = quote := List.singleton_suffix_append_singleton_iff.mp hsuffix
      rw [List.all_append, hlast] at hspace
      exact absurd (Bool.and_eq_true_iff.mp hspace).2 (by decide)
  · intro hread
    rw [hread]
    rfl

/-- A value without floating-point members comes back from its text exactly if it is not an
integer alone and has no character 0x7F; a string literal is read as what it stands for exactly if
it has no such character and no escape of more than seven bits. -/
theorem fromString_iff :
    (∀ v : JsonValue R, DoubleFree v →
      ((∃ w, fromString io (write io v) = some w ∧ normalize w = normalize v) ↔
        isInteger v = false ∧ deleteFree v = true)) ∧
    ∀ pieces : List Piece,
      (∃ result, meaning pieces = some result ∧
        fromString io (literal pieces) = some (.string result)) ↔
        ∀ piece ∈ pieces, piece.Simple := by
  refine ⟨fun v hv ↦ exists_fromString_write_iff io hv, fun pieces ↦ ?_⟩
  rw [← understood_iff [] pieces []]
  simp only [fromString_literal_eq_some_iff]
  rfl

/-- A negative number in an array comes back. -/
theorem fromString_iff_array :
    DoubleFree (.array [.signedInteger (-5)] : JsonValue Unit) ∧
      ∃ w, fromString ⟨fun _ ↦ [], fun _ ↦ ()⟩
        (write ⟨fun _ ↦ [], fun _ ↦ ()⟩ (.array [.signedInteger (-5)])) = some w ∧
          normalize w = normalize (.array [.signedInteger (-5)] : JsonValue Unit) := by
  have hfree : DoubleFree (.array [.signedInteger (-5)] : JsonValue Unit) := ⟨trivial, trivial⟩
  exact ⟨hfree, ((fromString_iff ⟨fun _ ↦ [], fun _ ↦ ()⟩).1 _ hfree).mpr ⟨rfl, rfl⟩⟩

/-- The escape of the code point 0xE9 is read as the two bytes of its encoding in the wrong
order. -/
theorem not_fromString_escape :
    ¬((∀ v : JsonValue Unit, DoubleFree v →
        ∃ w, fromString ⟨fun _ ↦ [], fun _ ↦ ()⟩ (write ⟨fun _ ↦ [], fun _ ↦ ()⟩ v) = some w ∧
          normalize w = normalize v) ∧
      ∀ pieces : List Piece, ∃ result, meaning pieces = some result ∧
        fromString ⟨fun _ ↦ [], fun _ ↦ ()⟩ (literal pieces) =
          some (.string result : JsonValue Unit)) := by
  rintro ⟨-, hliteral⟩
  let escaped : List Piece :=
    [.unicode ⟨ascii '0', rfl⟩ ⟨ascii '0', rfl⟩ ⟨ascii 'E', rfl⟩ ⟨ascii '9', rfl⟩]
  obtain ⟨result, hmeaning, hread⟩ := hliteral escaped
  have hutf8 : meaning escaped = some [0xC3, 0xA9] := by decide +kernel
  have hreversed : readStringToken [] (escaped.flatMap Piece.bytes ++ [quote]) =
      some ([0xA9, 0xC3], []) := by decide +kernel
  rw [fromString_literal_eq_some_iff, hreversed] at hread
  cases hutf8.symm.trans hmeaning
  exact absurd hread (by decide)

end Json

end Naza
