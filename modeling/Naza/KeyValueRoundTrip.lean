import Naza.KeyValue

/-!
# What a portable storage gives back

The writer in closed form, and for every tree whether the tree that is read back from it is the
same.
-/

open Lib

namespace Naza

namespace KeyValue

open KVBinaryOutputStream

/-! ## The writer in closed form -/

mutual

/-- What is written of a value after its name and its type; an array comes with the type of its
first element. -/
def payload : Tree → Option Bytes
  | .integer type value => some (pod type.size (value.1 % 2 ^ (8 * type.size)).toNat)
  | .bool value => some (pod 1 value.toNat)
  | .string value => (writeArraySize value.length).map (· ++ value)
  | .array [] => some [flagArray ||| typeString, 0]
  | .array (item :: items) => do
    let size ← writeArraySize (items.length + 1)
    let first ← payload item
    let others ← payloadItems items
    some ((flagArray ||| item.mark) :: (size ++ (first ++ others)))
  | .object entries => do
    let members ← payloadEntries entries
    let size ← writeArraySize entries.length
    some (size ++ members)

def payloadItems : List Tree → Option Bytes
  | [] => some []
  | item :: items => do
    let first ← payload item
    let others ← payloadItems items
    some (first ++ others)

def payloadEntries : List (Bytes × Tree) → Option Bytes
  | [] => some []
  | (name, value) :: entries => do
    let name ← elementName name
    let first ← payload value
    let others ← payloadEntries entries
    some (name ++ (if value.mark ≠ typeArray then [value.mark] else []) ++ first ++ others)

end

mutual

/-- Names are not empty, those of an object differ, and the elements of an array are of one type. -/
def WellFormed : Tree → Prop
  | .array items =>
    WellFormedItems items ∧ ∀ item ∈ items, ∀ item' ∈ items, item.mark = item'.mark
  | .object entries => WellFormedEntries entries ∧ (entries.map Prod.fst).Nodup
  | _ => True

def WellFormedItems : List Tree → Prop
  | [] => True
  | item :: items => WellFormed item ∧ WellFormedItems items

def WellFormedEntries : List (Bytes × Tree) → Prop
  | [] => True
  | (name, value) :: entries => name ≠ [] ∧ WellFormed value ∧ WellFormedEntries entries

end

section Writer

variable {expectingRoot : Bool} {target : Bytes}

theorem write_cons (key buffer bytes : Bytes) (buffers : List Bytes) (levels : List Level) :
    KVBinaryOutputStream.write bytes ⟨expectingRoot, key, buffer :: buffers, levels, target⟩ =
      some ⟨expectingRoot, key, (buffer ++ bytes) :: buffers, levels, target⟩ := rfl

/-- What comes before a value only goes to the innermost buffer and the innermost level, and the
key is used up. -/
theorem eq_of_writeElementPrefix {key buffer : Bytes} {buffers : List Bytes} {level : Level}
    {levels : List Level} {type : UInt8} {s : KVBinaryOutputStream}
    (hkey : level.state = .object ∨ key = [])
    (hwrite : writeElementPrefix type
      ⟨expectingRoot, key, buffer :: buffers, level :: levels, target⟩ = some s) :
    ∃ bytes level', s =
      ⟨expectingRoot, [], (buffer ++ bytes) :: buffers, level' :: levels, target⟩ := by
  obtain ⟨state, count⟩ := level
  cases state with
  | object =>
    by_cases hnil : key = []
    · subst hnil
      refine ⟨[], ⟨.object, count + 1⟩, ?_⟩
      rw [List.append_nil]
      exact (Option.some.inj hwrite).symm
    · simp only [writeElementPrefix, ne_eq, hnil, not_false_eq_true, if_true, write_cons,
        Option.bind_eq_bind, Option.bind_some] at hwrite
      obtain ⟨name, -, hsome⟩ := Option.bind_eq_some_iff.mp hwrite
      exact ⟨_, _, (Option.some.inj hsome).symm⟩
  | arrayPrefix =>
    obtain rfl := hkey.resolve_left (by simp)
    simp only [writeElementPrefix, write_cons, Option.bind_eq_bind, Option.bind_some] at hwrite
    obtain ⟨size, -, hsome⟩ := Option.bind_eq_some_iff.mp hwrite
    exact ⟨_, _, (Option.some.inj hsome).symm⟩
  | array =>
    obtain rfl := hkey.resolve_left (by simp)
    refine ⟨[], ⟨.array, count⟩, ?_⟩
    rw [List.append_nil]
    exact (Option.some.inj hwrite).symm

mutual

/-- Serializing a value writes what comes before it and then its payload. -/
theorem ser_eq : ∀ (tree : Tree), WellFormed tree →
    ∀ (key buffer : Bytes) (buffers : List Bytes) (level : Level) (levels : List Level),
    level.state = .object ∨ key = [] →
    ser tree ⟨expectingRoot, key, buffer :: buffers, level :: levels, target⟩ =
      (writeElementPrefix tree.mark
        ⟨expectingRoot, key, buffer :: buffers, level :: levels, target⟩).bind
          fun s ↦ (payload tree).bind fun bytes ↦ s.write bytes
  | .integer type value, _, key, buffer, buffers, level, levels, _ => rfl
  | .bool value, _, key, buffer, buffers, level, levels, _ => rfl
  | .string value, _, key, buffer, buffers, level, levels, _ => by
    simp only [ser, seriaString, payload, Option.bind_eq_bind, Option.bind_map]
    rfl
  | .array [], _, key, buffer, buffers, level, levels, hkey => by
    have hsize : writeArraySize 0 = some [0] := by decide
    simp only [ser, serItems, beginArray, payload, List.length_nil, if_true, Option.bind_eq_bind,
      Option.bind_assoc, Option.bind_some, hsize]
    refine Option.bind_congr fun s hs ↦ ?_
    obtain ⟨bytes, level', rfl⟩ := eq_of_writeElementPrefix hkey hs
    rfl
  | .array (item :: items), hwf, key, buffer, buffers, level, levels, hkey => by
    obtain ⟨⟨hitem, hitems⟩, -⟩ := hwf
    simp only [ser, beginArray, serItems, payload, List.length_cons, Nat.add_eq_zero_iff,
      Nat.one_ne_zero, and_false, if_false, Option.bind_eq_bind, Option.bind_assoc,
      Option.bind_some]
    refine Option.bind_congr fun s hs ↦ ?_
    obtain ⟨bytes, level', rfl⟩ := eq_of_writeElementPrefix hkey hs
    rw [ser_eq item hitem [] _ _ ⟨.arrayPrefix, items.length + 1⟩ _ (.inr rfl)]
    simp only [writeElementPrefix, write_cons, Option.bind_eq_bind, Option.bind_assoc,
      Option.bind_some]
    refine Option.bind_congr fun size _ ↦ Option.bind_congr fun first _ ↦ ?_
    rw [serItems_eq items hitems, Option.bind_map]
    refine Option.bind_congr fun others _ ↦ ?_
    simp only [endArray, Function.comp_apply, List.append_assoc, List.cons_append]
  | .object entries, hwf, key, buffer, buffers, level, levels, hkey => by
    simp only [ser, beginObject, payload, reduceCtorEq, if_false, Option.bind_eq_bind,
      Option.bind_assoc, Option.bind_some]
    refine Option.bind_congr fun s hs ↦ ?_
    obtain ⟨bytes, level', rfl⟩ := eq_of_writeElementPrefix hkey hs
    rw [serEntries_eq entries hwf.1, Option.bind_map]
    refine Option.bind_congr fun members _ ↦ ?_
    simp only [endObject, Function.comp_apply, Nat.zero_add, List.nil_append, reduceCtorEq,
      if_false,
      Option.bind_eq_bind, write_cons]
termination_by tree => sizeOf tree

theorem serItems_eq : ∀ (items : List Tree), WellFormedItems items →
    ∀ (buffer : Bytes) (buffers : List Bytes) (count : ℕ) (levels : List Level),
    serItems items ⟨expectingRoot, [], buffer :: buffers, ⟨.array, count⟩ :: levels, target⟩ =
      (payloadItems items).map fun bytes ↦
        ⟨expectingRoot, [], (buffer ++ bytes) :: buffers, ⟨.array, count⟩ :: levels, target⟩
  | [], _, buffer, buffers, count, levels => by simp [serItems, payloadItems]
  | item :: items, hwf, buffer, buffers, count, levels => by
    rw [serItems, ser_eq item hwf.1 [] _ _ ⟨.array, count⟩ _ (.inr rfl)]
    simp only [writeElementPrefix, payloadItems, Option.bind_eq_bind, Option.bind_assoc,
      Option.bind_some, write_cons, Option.map_bind]
    refine Option.bind_congr fun first _ ↦ ?_
    rw [serItems_eq items hwf.2]
    cases payloadItems items with
    | none => rfl
    | some others => simp
termination_by items => sizeOf items

theorem serEntries_eq : ∀ (entries : List (Bytes × Tree)), WellFormedEntries entries →
    ∀ (buffer : Bytes) (buffers : List Bytes) (count : ℕ) (levels : List Level),
    serEntries entries ⟨expectingRoot, [], buffer :: buffers, ⟨.object, count⟩ :: levels, target⟩ =
      (payloadEntries entries).map fun bytes ↦
        ⟨expectingRoot, [], (buffer ++ bytes) :: buffers,
          ⟨.object, count + entries.length⟩ :: levels,
          target⟩
  | [], _, buffer, buffers, count, levels => by simp [serEntries, payloadEntries]
  | (name, value) :: entries, hwf, buffer, buffers, count, levels => by
    obtain ⟨hname, hvalue, hentries⟩ := hwf
    rw [serEntries, objectKey, ser_eq value hvalue name _ _ ⟨.object, count⟩ _ (.inl rfl)]
    simp only [writeElementPrefix, ne_eq, hname, not_false_eq_true, if_true, payloadEntries,
      Option.bind_eq_bind, Option.bind_assoc, Option.bind_some, write_cons, Option.map_bind]
    refine Option.bind_congr fun nameBytes _ ↦ ?_
    rw [Function.comp_apply, Option.map_bind]
    refine Option.bind_congr fun first _ ↦ ?_
    rw [serEntries_eq entries hentries]
    cases payloadEntries entries with
    | none => rfl
    | some others =>
      simp [Nat.add_assoc, Nat.add_comm 1]
termination_by entries => sizeOf entries

end

end Writer

/-- The whole storage: the header and the payload of the object at the top. -/
theorem toBinaryKeyValue_object {entries : List (Bytes × Tree)}
    (hwf : WellFormed (.object entries)) :
    toBinaryKeyValue (.object entries) = (payload (.object entries)).map (header ++ ·) := by
  rw [toBinaryKeyValue, ser, new, payload]
  simp only [beginObject, if_true, Option.bind_eq_bind, Option.bind_some]
  rw [serEntries_eq entries hwf.1]
  cases payloadEntries entries with
  | none => rfl
  | some members =>
    simp only [Option.map_some, Option.bind_some, endObject, Nat.zero_add]
    cases writeArraySize entries.length <;> rfl

/-! ## Sizes -/

theorem natToBytes_concat (n x : ℕ) :
    natToBytes (n + 1) x = natToBytes n (x / 256) ++ [UInt8.ofNat x] := by
  induction n with
  | zero => simp [natToBytes]
  | succ n ih =>
    rw [natToBytes, ih, natToBytes, List.cons_append, Nat.div_div_eq_div_mul, ← Nat.pow_succ']

theorem pod_succ (n x : ℕ) : pod (n + 1) x = UInt8.ofNat x :: pod n (x / 256) := by
  rw [pod, natToBytes_concat, List.reverse_append]
  rfl

theorem length_pod (n x : ℕ) : (pod n x).length = n := by simp [pod]

theorem readPod_pod (n x : ℕ) (rest : Bytes) :
    readPod n (pod n x ++ rest) = some (x % 256 ^ n, rest) := by
  obtain ⟨hle, htake, hdrop⟩ := reverse_natToBytes_append n x rest
  rw [readPod, readBytes, pod, if_pos hle, hdrop, Option.map_some, htake]

theorem readPod_one (x : ℕ) (rest : Bytes) :
    readPod 1 (UInt8.ofNat x :: rest) = some (x % 256, rest) := by
  have hpod : pod 1 x = [UInt8.ofNat x] := by rw [pod_succ]; rfl
  have hread := readPod_pod 1 x rest
  rwa [hpod] at hread

theorem readBytes_append (bytes rest : Bytes) :
    readBytes bytes.length (bytes ++ rest) = some (bytes, rest) := by
  rw [readBytes, if_pos (by simp), List.take_left, List.drop_left]

theorem packVarint_eq {n typeOr val : ℕ} (htype : typeOr < 4) (hval : 4 * val < 256 ^ n) :
    packVarint n typeOr val = pod n (4 * val + typeOr) := by
  have hshift : val <<< 2 = 4 * val := by rw [Nat.shiftLeft_eq]; omega
  have hor : val <<< 2 + typeOr = val <<< 2 ||| typeOr := Nat.shiftLeft_add_eq_or_of_lt htype val
  rw [packVarint, Nat.mod_eq_of_lt (hshift ▸ hval), ← hor, hshift]

/-- A byte below the sign. -/
theorem readVarintLoop_step (bytesLeft i value b : ℕ) (s : Bytes) (hvalue : value < 2 ^ (i * 8))
    (hi : i < 4) (hb : b % 256 * 2 ^ (i * 8) < 2 ^ 31) :
    readVarintLoop (bytesLeft + 1) i value (UInt8.ofNat b :: s) =
      readVarintLoop bytesLeft (i + 1) (value + b % 256 * 2 ^ (i * 8)) s := by
  have hshift : shiftByte (b % 256) i = some ((b % 256) <<< (i * 8)) := by
    rw [shiftByte, if_neg (by omega), Nat.shiftLeft_eq, if_pos hb]
  have hor : value ||| (b % 256) <<< (i * 8) = value + b % 256 * 2 ^ (i * 8) := by
    rw [Nat.or_comm, ← Nat.shiftLeft_add_eq_or_of_lt hvalue, Nat.shiftLeft_eq, Nat.add_comm]
  rw [readVarintLoop, readPod_one]
  simp only [Option.bind_eq_bind, Option.bind_some, hshift, hor]

/-- The byte that reaches the sign fills the upper half. -/
theorem readVarintLoop_sign (bytesLeft value b : ℕ) (s : Bytes) (hvalue : value < 2 ^ 24)
    (hb : 128 ≤ b % 256) :
    readVarintLoop (bytesLeft + 1) 3 value (UInt8.ofNat b :: s) =
      readVarintLoop bytesLeft 4 (value + b % 256 * 2 ^ 24 + (2 ^ 64 - 2 ^ 32)) s := by
  have hshift : shiftByte (b % 256) 3 = some ((2 ^ 40 - 2 ^ 8 + b % 256) <<< 24) := by
    rw [shiftByte, if_neg (by omega), Nat.shiftLeft_eq, Nat.shiftLeft_eq, if_neg (by omega)]
    congr 1
    omega
  have hor : value ||| (2 ^ 40 - 2 ^ 8 + b % 256) <<< 24 =
      value + b % 256 * 2 ^ 24 + (2 ^ 64 - 2 ^ 32) := by
    rw [Nat.or_comm, ← Nat.shiftLeft_add_eq_or_of_lt hvalue, Nat.shiftLeft_eq]
    omega
  rw [readVarintLoop, readPod_one]
  simp only [Option.bind_eq_bind, Option.bind_some, hshift, hor]

/-- The fifth byte would have to be shifted by 32 bits. -/
theorem readVarintLoop_four (bytesLeft value : ℕ) (s : Bytes) :
    readVarintLoop (bytesLeft + 1) 4 value s = none := by
  rw [readVarintLoop]
  cases readPod 1 s with
  | none => rfl
  | some r =>
    have hshift : shiftByte r.1 4 = none := if_pos (by omega)
    simp only [Option.bind_eq_bind, Option.bind_some, hshift, Option.bind_none]

theorem readVarint_pod_one {x : ℕ} (hx : x < 256) (htype : x % 4 = 0) (rest : Bytes) :
    readVarint (pod 1 x ++ rest) = some (x / 4, rest) := by
  have hpod : pod 1 x ++ rest = UInt8.ofNat x :: rest := by rw [pod_succ]; rfl
  rw [readVarint, hpod, readPod_one, Nat.mod_eq_of_lt hx]
  simp only [Option.bind_eq_bind, Option.bind_some, htype, bytesLeft, readVarintLoop,
    Nat.shiftRight_eq_div_pow]

theorem readVarint_pod_two {x : ℕ} (hx : x < 256 ^ 2) (htype : x % 4 = 1) (rest : Bytes) :
    readVarint (pod 2 x ++ rest) = some (x / 4, rest) := by
  have hpod : pod 2 x ++ rest = UInt8.ofNat x :: UInt8.ofNat (x / 256) :: rest := by
    rw [pod_succ, pod_succ]
    rfl
  have hmark : x % 256 % 4 = 1 := by omega
  rw [readVarint, hpod, readPod_one]
  simp only [Option.bind_eq_bind, Option.bind_some, hmark, bytesLeft]
  rw [readVarintLoop_step 0 1 _ _ _ (by omega) (by omega) (by omega), readVarintLoop]
  simp only [Option.bind_some, Nat.shiftRight_eq_div_pow, Option.some.injEq, Prod.mk.injEq,
    and_true]
  omega

theorem readVarint_pod_four {x : ℕ} (hx : x < 256 ^ 4) (htype : x % 4 = 2) (rest : Bytes) :
    readVarint (pod 4 x ++ rest) =
      some (if x < 2 ^ 31 then x / 4 else x / 4 + (2 ^ 62 - 2 ^ 30), rest) := by
  have hpod : pod 4 x ++ rest = UInt8.ofNat x :: UInt8.ofNat (x / 256) ::
      UInt8.ofNat (x / 256 / 256) :: UInt8.ofNat (x / 256 / 256 / 256) :: rest := by
    rw [pod_succ, pod_succ, pod_succ, pod_succ]
    rfl
  have hmark : x % 256 % 4 = 2 := by omega
  rw [readVarint, hpod, readPod_one]
  simp only [Option.bind_eq_bind, Option.bind_some, hmark, bytesLeft]
  rw [readVarintLoop_step 2 1 _ _ _ (by omega) (by omega) (by omega),
    readVarintLoop_step 1 2 _ _ _ (by omega) (by omega) (by omega)]
  split_ifs with hsign
  · rw [readVarintLoop_step 0 3 _ _ _ (by omega) (by omega) (by omega), readVarintLoop]
    simp only [Option.bind_some, Nat.shiftRight_eq_div_pow, Option.some.injEq, Prod.mk.injEq,
      and_true]
    omega
  · rw [readVarintLoop_sign 0 _ _ _ (by omega) (by omega), readVarintLoop]
    simp only [Option.bind_some, Nat.shiftRight_eq_div_pow, Option.some.injEq, Prod.mk.injEq,
      and_true]
    omega

theorem readVarint_pod_eight {x : ℕ} (htype : x % 4 = 3) (rest : Bytes) :
    readVarint (pod 8 x ++ rest) = none := by
  have hpod : pod 8 x ++ rest = UInt8.ofNat x :: UInt8.ofNat (x / 256) ::
      UInt8.ofNat (x / 256 / 256) :: UInt8.ofNat (x / 256 / 256 / 256) ::
        (pod 4 (x / 256 / 256 / 256 / 256) ++ rest) := by
    rw [pod_succ, pod_succ, pod_succ, pod_succ]
    rfl
  have hmark : x % 256 % 4 = 3 := by omega
  rw [readVarint, hpod, readPod_one]
  simp only [Option.bind_eq_bind, Option.bind_some, hmark, bytesLeft]
  rw [readVarintLoop_step 6 1 _ _ _ (by omega) (by omega) (by omega),
    readVarintLoop_step 5 2 _ _ _ (by omega) (by omega) (by omega)]
  by_cases hsign : x / 256 / 256 / 256 % 256 < 128
  · rw [readVarintLoop_step 4 3 _ _ _ (by omega) (by omega) (by omega), readVarintLoop_four]
    rfl
  · rw [readVarintLoop_sign 4 _ _ _ (by omega) (by omega), readVarintLoop_four]
    rfl

/-- The size that is read back: from `2 ^ 29` on the sign of the fourth byte gets into it, and from
`2 ^ 30` on there is none. -/
def sizeReadBack (val : ℕ) : Option ℕ :=
  if val < 2 ^ 29 then some val
  else if val < 2 ^ 30 then some (val + (2 ^ 62 - 2 ^ 30))
  else none

theorem readVarint_writeArraySize {val : ℕ} {bytes : Bytes}
    (hwrite : writeArraySize val = some bytes)
    (rest : Bytes) :
    readVarint (bytes ++ rest) = (sizeReadBack val).map fun size ↦ (size, rest) := by
  unfold writeArraySize at hwrite
  split_ifs at hwrite with h1 h2 h4
  · cases hwrite
    rw [packVarint_eq (by omega) (by omega), readVarint_pod_one (by omega) (by omega), sizeReadBack,
      if_pos (by omega), Option.map_some]
    congr 2
    omega
  · cases hwrite
    rw [packVarint_eq (by omega) (by omega), readVarint_pod_two (by omega) (by omega), sizeReadBack,
      if_pos (by omega), Option.map_some]
    congr 2
    omega
  · cases hwrite
    rw [packVarint_eq (by omega) (by omega), readVarint_pod_four (by omega) (by omega),
      sizeReadBack]
    by_cases hsign : val < 2 ^ 29
    · rw [if_pos (by omega), if_pos hsign, Option.map_some]
      congr 2
      omega
    · rw [if_neg (by omega), if_neg hsign, if_pos (by omega), Option.map_some]
      congr 2
      omega
  · cases hwrite
    rw [packVarint_eq (by omega) (by omega), readVarint_pod_eight (by omega), sizeReadBack,
      if_neg (by omega), if_neg (by omega)]
    rfl

theorem length_pos_of_writeArraySize {val : ℕ} {bytes : Bytes}
    (hwrite : writeArraySize val = some bytes) : 0 < bytes.length := by
  unfold writeArraySize at hwrite
  split_ifs at hwrite <;>
  · cases hwrite
    simp [packVarint, length_pod]

theorem exists_writeArraySize (val : ℕ) (hval : val ≤ 2 ^ 62 - 1) :
    ∃ bytes, writeArraySize val = some bytes := by
  unfold writeArraySize
  split_ifs with h1 h2 h4 h8
  · exact ⟨_, rfl⟩
  · exact ⟨_, rfl⟩
  · exact ⟨_, rfl⟩
  · omega
  · exact ⟨_, rfl⟩

/-- A size is read back exactly below `2 ^ 29`. -/
theorem readVarint_writeArraySize_iff (val : ℕ) (hval : val ≤ 2 ^ 62 - 1) :
    (∃ bytes, writeArraySize val = some bytes ∧
      ∀ rest, readVarint (bytes ++ rest) = some (val, rest)) ↔ val < 2 ^ 29 := by
  obtain ⟨bytes, hbytes⟩ := exists_writeArraySize val hval
  constructor
  · rintro ⟨bytes', hbytes', hread⟩
    have hback := readVarint_writeArraySize hbytes' []
    rw [hread []] at hback
    by_contra hlarge
    unfold sizeReadBack at hback
    rw [if_neg hlarge] at hback
    split_ifs at hback with hmiddle
    · have heq : val = val + (2 ^ 62 - 2 ^ 30) :=
        congrArg Prod.fst (Option.some.inj hback)
      omega
    · cases hback
  · intro hsmall
    refine ⟨bytes, hbytes, fun rest ↦ ?_⟩
    rw [readVarint_writeArraySize hbytes, sizeReadBack, if_pos hsmall, Option.map_some]

/-! ## What is the same -/

variable {R : Type}

def numericalValue : JsonValue R → Option ℤ
  | .signedInteger value => some value.toInt
  | .unsignedInteger value => some value.toNat
  | _ => none

mutual

/-- The JSON value stands for the tree: an integer by its numerical value and an object as a map
from its names. -/
def Same : Tree → JsonValue R → Prop
  | .integer _ value, v => numericalValue v = some value.1
  | .bool value, v => v = .bool value
  | .string value, v => v = .string value
  | .array items, v => ∃ values, v = .array values ∧ SameItems items values
  | .object entries, v => ∃ members, v = .object members ∧ SameEntries entries members ∧
      ∀ name, (members.lookup name).isSome → name ∈ entries.map Prod.fst

def SameItems : List Tree → List (JsonValue R) → Prop
  | [], values => values = []
  | item :: items, values => ∃ v vs, values = v :: vs ∧ Same item v ∧ SameItems items vs

def SameEntries : List (Bytes × Tree) → List (Bytes × JsonValue R) → Prop
  | [], _ => True
  | (name, value) :: entries, members =>
    (∃ v, members.lookup name = some v ∧ Same value v) ∧ SameEntries entries members

end

mutual

/-- Every size is below `2 ^ 29` and every integer below `2 ^ 63`. -/
def Fits : Tree → Prop
  | .integer _ value => value.1 < 2 ^ 63
  | .bool _ => True
  | .string value => value.length < 2 ^ 29
  | .array items => items.length < 2 ^ 29 ∧ FitsItems items
  | .object entries => entries.length < 2 ^ 29 ∧ FitsEntries entries

def FitsItems : List Tree → Prop
  | [] => True
  | item :: items => Fits item ∧ FitsItems items

def FitsEntries : List (Bytes × Tree) → Prop
  | [] => True
  | (name, value) :: entries => (name.length ≤ 255 ∧ Fits value) ∧ FitsEntries entries

end

theorem fitsItems_iff {items : List Tree} : FitsItems items ↔ ∀ item ∈ items, Fits item := by
  induction items with
  | nil => simp [FitsItems]
  | cons item items ih => rw [FitsItems, ih, List.forall_mem_cons]

theorem fitsEntries_iff {entries : List (Bytes × Tree)} :
    FitsEntries entries ↔ ∀ entry ∈ entries, entry.1.length ≤ 255 ∧ Fits entry.2 := by
  induction entries with
  | nil => simp [FitsEntries]
  | cons entry entries ih => rw [FitsEntries, ih, List.forall_mem_cons]

theorem sameItems_iff {items : List Tree} {values : List (JsonValue R)} :
    SameItems items values ↔ List.Forall₂ (fun v item ↦ Same item v) values items := by
  induction items generalizing values with
  | nil => simp [SameItems]
  | cons item items ih =>
    rw [SameItems]
    constructor
    · rintro ⟨v, vs, rfl, hv, hvs⟩
      exact .cons hv (ih.mp hvs)
    · rintro (_ | ⟨hv, hvs⟩)
      exact ⟨_, _, rfl, hv, ih.mpr hvs⟩

theorem sameEntries_iff {entries : List (Bytes × Tree)} {members : List (Bytes × JsonValue R)} :
    SameEntries entries members ↔
      ∀ entry ∈ entries, ∃ v, members.lookup entry.1 = some v ∧ Same entry.2 v := by
  induction entries with
  | nil => simp [SameEntries]
  | cons entry entries ih => rw [SameEntries, ih, List.forall_mem_cons]

/-! ## The map that is built -/

theorem lookup_cons_ite (entry : Bytes × JsonValue R) (entries : List (Bytes × JsonValue R))
    (name : Bytes) :
    (entry :: entries).lookup name =
      if name = entry.1 then some entry.2 else entries.lookup name := by
  rw [List.lookup_cons]
  cases hbeq : name == entry.1 with
  | true => exact (if_pos (eq_of_beq hbeq)).symm
  | false => exact (if_neg (ne_of_beq_false hbeq)).symm

theorem lookup_insertEntry {key : Bytes} {value : JsonValue R}
    {entries : List (Bytes × JsonValue R)}
    (hnone : entries.lookup key = none) (name : Bytes) :
    (Json.insertEntry key value entries).lookup name =
      if name = key then some value else entries.lookup name := by
  induction entries with
  | nil => exact lookup_cons_ite (key, value) [] name
  | cons entry entries ih =>
    obtain ⟨key', value'⟩ := entry
    rw [lookup_cons_ite] at hnone
    have hne : key ≠ key' := by
      intro heq
      rw [if_pos heq] at hnone
      cases hnone
    rw [if_neg hne] at hnone
    by_cases hlt : key < key'
    · rw [Json.insertEntry, if_pos hlt, lookup_cons_ite]
    · rw [Json.insertEntry, if_neg hlt, if_neg hne, lookup_cons_ite, ih hnone, lookup_cons_ite]
      by_cases hname : name = key'
      · rw [if_pos hname, if_pos hname, if_neg (hname ▸ Ne.symm hne)]
      · rw [if_neg hname, if_neg hname]

theorem lookup_emplaceEntry (entries : List (Bytes × JsonValue R)) (entry : Bytes × JsonValue R)
    (name : Bytes) :
    (emplaceEntry entries entry).lookup name =
      (entries.lookup name).or (if name = entry.1 then some entry.2 else none) := by
  unfold emplaceEntry
  by_cases hsome : (entries.lookup entry.1).isSome
  · rw [if_pos hsome]
    by_cases hname : name = entry.1
    · obtain ⟨v, hv⟩ := Option.isSome_iff_exists.mp hsome
      rw [hname, hv, Option.some_or]
    · rw [if_neg hname, Option.or_none]
  · rw [if_neg hsome, lookup_insertEntry (Option.not_isSome_iff_eq_none.mp hsome)]
    by_cases hname : name = entry.1
    · rw [if_pos hname, if_pos hname, hname, Option.not_isSome_iff_eq_none.mp hsome, Option.none_or]
    · rw [if_neg hname, if_neg hname, Option.or_none]

/-- The map has the first value that was read under each name. -/
theorem lookup_foldl_emplaceEntry (read entries : List (Bytes × JsonValue R)) (name : Bytes) :
    (read.foldl emplaceEntry entries).lookup name =
      (entries.lookup name).or (read.lookup name) := by
  induction read generalizing entries with
  | nil => simp
  | cons entry read ih =>
    rw [List.foldl_cons, ih, lookup_emplaceEntry, Option.or_assoc, lookup_cons_ite]
    by_cases hname : name = entry.1
    · rw [if_pos hname, if_pos hname, Option.some_or]
    · rw [if_neg hname, if_neg hname, Option.none_or]

/-! ## The loaders -/

variable (real : ℕ → R)

/-- An element of an array of the type. -/
def readItem (depth : ℕ) (itemType : UInt8) (s : Bytes) : Option (JsonValue R × Bytes) :=
  if itemType = typeArray then do
    let (type, s) ← readPod 1 s
    let type := UInt8.ofNat type
    if type &&& flagArray = 0 then none
    else loadArray real depth (type &&& ~~~flagArray) s
  else loadValue real depth itemType s

/-- A member of an object. -/
def readMember (depth : ℕ) (s : Bytes) : Option ((Bytes × JsonValue R) × Bytes) := do
  let (name, s) ← readName s
  let (value, s) ← loadEntry real depth s
  some ((name, value), s)

theorem loadArray_succ (depth : ℕ) (itemType : UInt8) (s : Bytes) :
    loadArray real (depth + 1) itemType s = (readVarint s).bind fun r ↦
      (repeatRead (readItem real depth itemType) r.1 r.2).map fun q ↦ (.array q.1, q.2) := by
  rw [loadArray]
  cases readVarint s with
  | none => rfl
  | some r =>
    change (repeatRead (readItem real depth itemType) r.1 r.2).bind _ = Option.map _ _
    cases repeatRead (readItem real depth itemType) r.1 r.2 <;> rfl

theorem loadObject_succ (depth : ℕ) (s : Bytes) :
    loadObject real (depth + 1) s = (readVarint s).bind fun r ↦
      (repeatRead (readMember real depth) r.1 r.2).map
        fun q ↦ (.object (q.1.foldl emplaceEntry []), q.2) := by
  rw [loadObject]
  cases readVarint s with
  | none => rfl
  | some r =>
    change (repeatRead (readMember real depth) r.1 r.2).bind _ = Option.map _ _
    cases repeatRead (readMember real depth) r.1 r.2 <;> rfl

theorem loadEntry_succ (depth : ℕ) (s : Bytes) :
    loadEntry real (depth + 1) s = (readPod 1 s).bind fun r ↦
      if UInt8.ofNat r.1 &&& flagArray ≠ 0 then
        loadArray real depth (UInt8.ofNat r.1 &&& ~~~flagArray) r.2
      else loadValue real depth (UInt8.ofNat r.1) r.2 := by
  rw [loadEntry]
  rfl

theorem readItem_typeArray (depth : ℕ) (s : Bytes) :
    readItem real depth typeArray s = (readPod 1 s).bind fun r ↦
      if UInt8.ofNat r.1 &&& flagArray = 0 then none
      else loadArray real depth (UInt8.ofNat r.1 &&& ~~~flagArray) r.2 := by
  rw [readItem, if_pos rfl]
  rfl

/-! ### How much they take -/

theorem consumes_readBytes (n : ℕ) : Consumes n (readBytes n) := by
  intro s a s' hread
  unfold readBytes at hread
  split_ifs at hread with hle
  cases hread
  rw [List.length_drop]
  omega

theorem consumes_readPod (n : ℕ) : Consumes n (readPod n) :=
  (consumes_readBytes n).map fun bytes ↦ bytesToNat bytes.reverse

theorem consumes_readVarintLoop (bytesLeft i value : ℕ) :
    Consumes 0 (readVarintLoop bytesLeft i value) := by
  induction bytesLeft generalizing i value with
  | zero =>
    intro s a s' hread
    cases hread
    exact le_rfl
  | succ bytesLeft ih =>
    intro s a s' hread
    obtain ⟨⟨n, s₁⟩, hn, hmore⟩ := Option.bind_eq_some_iff.mp hread
    obtain ⟨shifted, -, hloop⟩ := Option.bind_eq_some_iff.mp hmore
    have hfirst := consumes_readPod 1 s n s₁ hn
    have hrest := ih _ _ s₁ a s' hloop
    omega

theorem consumes_readVarint : Consumes 1 readVarint := by
  intro s a s' hread
  obtain ⟨⟨b, s₁⟩, hb, hmore⟩ := Option.bind_eq_some_iff.mp hread
  obtain ⟨⟨value, s₂⟩, hloop, heq⟩ := Option.bind_eq_some_iff.mp hmore
  cases heq
  have hfirst := consumes_readPod 1 s b s₁ hb
  have hrest := consumes_readVarintLoop _ _ _ s₁ value s' hloop
  omega

theorem consumes_readString : Consumes 1 readString := by
  intro s a s' hread
  obtain ⟨⟨size, s₁⟩, hsize, hbytes⟩ := Option.bind_eq_some_iff.mp hread
  have hfirst := consumes_readVarint s size s₁ hsize
  have hrest := consumes_readBytes size s₁ a s' hbytes
  omega

theorem consumes_readName : Consumes 1 readName := by
  intro s a s' hread
  obtain ⟨⟨len, s₁⟩, hlen, hbytes⟩ := Option.bind_eq_some_iff.mp hread
  have hfirst := consumes_readPod 1 s len s₁ hlen
  have hrest := consumes_readBytes len s₁ a s' hbytes
  omega

theorem consumes_readIntegerJson (signed : Bool) {n : ℕ} (hn : 1 ≤ n) :
    Consumes 1 (readIntegerJson (R := R) signed n) := by
  have hread := (consumes_readPod n).map fun x ↦ (JsonValue.signedInteger
    (Int64.ofInt (if signed then (BitVec.ofNat (8 * n) x).toInt else x)) : JsonValue R)
  exact hread.mono hn

/-- Every loader takes a byte at least, and an entry two. -/
theorem consumes_load (depth : ℕ) :
    Consumes 1 (loadObject real depth) ∧ (∀ type, Consumes 1 (loadValue real depth type)) ∧
      Consumes 2 (loadEntry real depth) ∧ ∀ type, Consumes 1 (loadArray real depth type) := by
  induction depth with
  | zero =>
    refine ⟨?_, fun type ↦ ?_, ?_, fun type ↦ ?_⟩ <;>
    · intro s a s' hread
      cases hread
  | succ depth ih =>
    obtain ⟨hobject, hvalue, hentry, harray⟩ := ih
    refine ⟨?_, fun type ↦ ?_, ?_, fun itemType ↦ ?_⟩
    · intro s a s' hread
      rw [loadObject_succ] at hread
      obtain ⟨⟨count, s₁⟩, hcount, hmore⟩ := Option.bind_eq_some_iff.mp hread
      obtain ⟨⟨members, s₂⟩, hmembers, heq⟩ := Option.map_eq_some_iff.mp hmore
      cases heq
      have hmember : Consumes 0 (readMember real depth) := by
        intro s a s' hread
        obtain ⟨⟨name, s₁⟩, hname, hmore⟩ := Option.bind_eq_some_iff.mp hread
        obtain ⟨⟨value, s₂⟩, hvalue, heq⟩ := Option.bind_eq_some_iff.mp hmore
        cases heq
        have hfirst := consumes_readName s name s₁ hname
        have hrest := hentry s₁ value s' hvalue
        omega
      have hfirst := consumes_readVarint s count s₁ hcount
      have hrest := hmember.repeatRead count hmembers
      simp only at hrest ⊢
      omega
    · intro s a s' hread
      revert hread
      rw [loadValue]
      split
      · exact consumes_readIntegerJson true (by decide) s a s'
      · exact consumes_readIntegerJson true (by decide) s a s'
      · exact consumes_readIntegerJson true (by decide) s a s'
      · exact consumes_readIntegerJson true (by decide) s a s'
      · exact consumes_readIntegerJson false (by decide) s a s'
      · exact consumes_readIntegerJson false (by decide) s a s'
      · exact consumes_readIntegerJson false (by decide) s a s'
      · exact consumes_readIntegerJson false (by decide) s a s'
      · have hread : Consumes 8 fun s ↦
            (readPod 8 s).map fun r ↦ (JsonValue.double (real r.1), r.2) :=
          (consumes_readPod 8).map fun x ↦ JsonValue.double (real x)
        exact hread.mono (by decide : 1 ≤ 8) s a s'
      · exact consumes_readString.map .string s a s'
      · exact (consumes_readPod 1).map (fun x ↦ .bool (x ≠ 0)) s a s'
      · exact hobject s a s'
      · exact harray type s a s'
      · exact Consumes.none 1 s a s'
    · intro s a s' hread
      rw [loadEntry_succ] at hread
      obtain ⟨⟨type, s₁⟩, htype, hmore⟩ := Option.bind_eq_some_iff.mp hread
      have hfirst := consumes_readPod 1 s type s₁ htype
      split_ifs at hmore with hflag
      · have hrest := harray _ s₁ a s' hmore
        omega
      · have hrest := hvalue _ s₁ a s' hmore
        omega
    · intro s a s' hread
      rw [loadArray_succ] at hread
      obtain ⟨⟨count, s₁⟩, hcount, hmore⟩ := Option.bind_eq_some_iff.mp hread
      obtain ⟨⟨items, s₂⟩, hitems, heq⟩ := Option.map_eq_some_iff.mp hmore
      cases heq
      have hitem : Consumes 0 (readItem real depth itemType) := by
        intro s a s' hread
        by_cases hnested : itemType = typeArray
        · rw [hnested, readItem_typeArray] at hread
          obtain ⟨⟨type, s₁⟩, htype, hmore⟩ := Option.bind_eq_some_iff.mp hread
          have hfirst := consumes_readPod 1 s type s₁ htype
          split_ifs at hmore with hflag
          have hrest := harray _ s₁ a s' hmore
          omega
        · rw [readItem, if_neg hnested] at hread
          have hrest := hvalue _ s a s' hread
          omega
      have hfirst := consumes_readVarint s count s₁ hcount
      have hrest := hitem.repeatRead count hitems
      simp only at hrest ⊢
      omega

theorem consumes_readMember (depth : ℕ) : Consumes 3 (readMember real depth) := by
  intro s a s' hread
  obtain ⟨⟨name, s₁⟩, hname, hmore⟩ := Option.bind_eq_some_iff.mp hread
  obtain ⟨⟨value, s₂⟩, hvalue, heq⟩ := Option.bind_eq_some_iff.mp hmore
  cases heq
  have hfirst := consumes_readName s name s₁ hname
  have hrest := (consumes_load real depth).2.2.1 s₁ value s' hvalue
  omega

/-! ### Integers -/

/-- An integer comes back as the number that an `int64_t` makes of it. -/
theorem toInt_readBack (type : IntegerType) {z : ℤ} (hz : type.InRange z) :
    (Int64.ofInt (if type.signed then (BitVec.ofNat (8 * type.size)
      ((z % 2 ^ (8 * type.size)).toNat % 256 ^ type.size)).toInt
        else ((z % 2 ^ (8 * type.size)).toNat % 256 ^ type.size : ℕ))).toInt =
      if z < 2 ^ 63 then z else z - 2 ^ 64 := by
  have hsize : (Int64.size : ℤ) = 2 ^ 64 := rfl
  rw [Int64.toInt_ofInt]
  cases type <;>
  · simp only [IntegerType.InRange, IntegerType.signed, IntegerType.size, Bool.false_eq_true,
      if_true, if_false, BitVec.toInt_ofNat', Int.bmod_def, hsize] at hz ⊢
    omega

/-! ### Arrays -/

theorem readPod_cons (byte : UInt8) (rest : Bytes) :
    readPod 1 (byte :: rest) = some (byte.toNat, rest) := by
  have hread := readPod_one byte.toNat rest
  rwa [UInt8.ofNat_toNat, Nat.mod_eq_of_lt byte.toNat_lt] at hread

theorem flagArray_or (type : UInt8) : (flagArray ||| type) &&& flagArray ≠ 0 := by
  revert type
  decide +kernel

theorem flagArray_or_and_not :
    ∀ type : UInt8, type < 0x80 → (flagArray ||| type) &&& ~~~flagArray = type := by
  decide +kernel

theorem IntegerType.mark_lt (type : IntegerType) : type.mark < 0x80 := by cases type <;> decide

theorem Tree.mark_lt (tree : Tree) : tree.mark < 0x80 := by
  cases tree with
  | integer type value => exact type.mark_lt
  | bool value => exact (by decide : typeBool < 0x80)
  | string value => exact (by decide : typeString < 0x80)
  | array items => exact (by decide : typeArray < 0x80)
  | object entries => exact (by decide : typeObject < 0x80)

/-- The bytes of a value that can be written. -/
def text (tree : Tree) : Bytes := (payload tree).getD []

theorem recovers_array {items : List Tree} {depth : ℕ} {type : UInt8} {size : Bytes}
    (hsize : writeArraySize items.length = some size) (htype : type < 0x80)
    (h : ∀ item ∈ items, Recovers (2 ^ 63) (readItem real depth type) (Same item) (Fits item)
      (text item)) :
    Recovers (2 ^ 63) (readItem real (depth + 1) typeArray) (Same (.array items))
      (Fits (.array items)) ((flagArray ||| type) :: (size ++ items.flatMap text)) := by
  intro rest hlimit
  have hitems := recovers_repeatRead (fun v item ↦ Same item v) h rest (by
    rw [List.length_append, List.length_cons, List.length_append] at hlimit
    rw [List.length_append]
    omega)
  have hread : readItem real (depth + 1) typeArray
      (((flagArray ||| type) :: (size ++ items.flatMap text)) ++ rest) =
        (sizeReadBack items.length).bind fun count ↦
          (repeatRead (readItem real depth type) count (items.flatMap text ++ rest)).map
            fun q ↦ (.array q.1, q.2) := by
    rw [List.cons_append, readItem_typeArray, readPod_cons, Option.bind_some]
    simp only [UInt8.ofNat_toNat]
    rw [if_neg (flagArray_or type), flagArray_or_and_not type htype, loadArray_succ,
      List.append_assoc, readVarint_writeArraySize hsize, Option.bind_map]
    rfl
  rw [hread, Fits, fitsItems_iff]
  constructor
  · rintro ⟨hlength, hall⟩
    obtain ⟨values, hvalues, hsame⟩ := hitems.1 hall
    refine ⟨.array values, ?_, values, rfl, sameItems_iff.mpr hsame⟩
    rw [sizeReadBack, if_pos hlength, Option.bind_some, hvalues]
    rfl
  · intro hnot v rest' hsome
    obtain ⟨count, hcount, hmore⟩ := Option.bind_eq_some_iff.mp hsome
    obtain ⟨⟨values, s⟩, hvalues, heq⟩ := Option.map_eq_some_iff.mp hmore
    cases heq
    rintro ⟨values', heq, hsame⟩
    cases heq
    have hall := sameItems_iff.mp hsame
    have hcount' : count = items.length := (length_of_repeatRead hvalues).symm.trans hall.length_eq
    subst hcount'
    unfold sizeReadBack at hcount
    split_ifs at hcount with hlength hmiddle
    · have hmismatch := hitems.2 (fun hfits ↦ hnot ⟨hlength, hfits⟩) values _ hvalues
      exact hmismatch.not_forall₂ hall
    · have heq := Option.some.inj hcount
      omega

/-! ### Objects -/

theorem mem_of_lookup_isSome {members : List (Bytes × JsonValue R)} {name : Bytes}
    (hsome : (members.lookup name).isSome) : name ∈ members.map Prod.fst := by
  induction members with
  | nil => cases hsome
  | cons member members ih =>
    rw [lookup_cons_ite] at hsome
    rw [List.map_cons, List.mem_cons]
    by_cases hname : name = member.1
    · exact .inl hname
    · rw [if_neg hname] at hsome
      exact .inr (ih hsome)

/-- A member that was read for an entry. -/
def SameMember (member : Bytes × JsonValue R) (entry : Bytes × Tree) : Prop :=
  member.1 = entry.1 ∧ Same entry.2 member.2

theorem map_fst_eq {members : List (Bytes × JsonValue R)} {entries : List (Bytes × Tree)}
    (h : List.Forall₂ SameMember members entries) :
    members.map Prod.fst = entries.map Prod.fst := by
  induction h with
  | nil => rfl
  | cons hmember _ ih => rw [List.map_cons, List.map_cons, hmember.1, ih]

theorem sameEntries_of_forall₂ {members : List (Bytes × JsonValue R)}
    {entries : List (Bytes × Tree)}
    (h : List.Forall₂ SameMember members entries) (hnodup : (entries.map Prod.fst).Nodup) :
    ∀ entry ∈ entries, ∃ v, members.lookup entry.1 = some v ∧ Same entry.2 v := by
  induction h with
  | nil => simp
  | @cons member entry members entries hmember _ ih =>
    rw [List.map_cons, List.nodup_cons] at hnodup
    rw [List.forall_mem_cons]
    constructor
    · exact ⟨member.2, by rw [lookup_cons_ite, if_pos hmember.1.symm], hmember.2⟩
    · intro entry' hentry'
      obtain ⟨v, hv, hsame⟩ := ih hnodup.2 entry' hentry'
      have hne : entry'.1 ≠ member.1 := by
        rw [hmember.1]
        rintro heq
        exact hnodup.1 (heq ▸ List.mem_map_of_mem hentry')
      exact ⟨v, by rw [lookup_cons_ite, if_neg hne, hv], hsame⟩

/-- The bytes of an entry. -/
def entryText (entry : Bytes × Tree) : Bytes :=
  (elementName entry.1).getD [] ++
    (if entry.2.mark ≠ typeArray then [entry.2.mark] else []) ++ text entry.2

def FitsEntry (entry : Bytes × Tree) : Prop := entry.1.length ≤ 255 ∧ Fits entry.2

theorem recovers_object {entries : List (Bytes × Tree)} {depth : ℕ} {size : Bytes}
    (hsize : writeArraySize entries.length = some size) (hnodup : (entries.map Prod.fst).Nodup)
    (h : ∀ entry ∈ entries, Recovers (2 ^ 63) (readMember real depth) (SameMember · entry)
      (FitsEntry entry) (entryText entry))
    (hname : ∀ entry ∈ entries, ∀ s member s',
      readMember real depth (entryText entry ++ s) = some (member, s') → member.1 = entry.1) :
    Recovers (2 ^ 63) (loadObject real (depth + 1)) (Same (.object entries))
      (Fits (.object entries)) (size ++ entries.flatMap entryText) := by
  intro rest hlimit
  have hlimit' : (entries.flatMap entryText ++ rest).length < 2 ^ 63 := by
    rw [List.length_append, List.length_append] at hlimit
    rw [List.length_append]
    omega
  have hmembers := recovers_repeatRead SameMember h rest hlimit'
  have hread : loadObject real (depth + 1) (size ++ entries.flatMap entryText ++ rest) =
      (sizeReadBack entries.length).bind fun count ↦
        (repeatRead (readMember real depth) count (entries.flatMap entryText ++ rest)).map
          fun q ↦ (.object (q.1.foldl emplaceEntry []), q.2) := by
    rw [loadObject_succ, List.append_assoc, readVarint_writeArraySize hsize, Option.bind_map]
    rfl
  rw [hread, Fits, fitsEntries_iff]
  constructor
  · rintro ⟨hlength, hall⟩
    obtain ⟨members, hread, hsame⟩ := hmembers.1 hall
    refine ⟨.object (members.foldl emplaceEntry []), ?_, _, rfl, ?_, ?_⟩
    · rw [sizeReadBack, if_pos hlength, Option.bind_some, hread]
      rfl
    · rw [sameEntries_iff]
      intro entry hentry
      rw [lookup_foldl_emplaceEntry, List.lookup_nil, Option.none_or]
      exact sameEntries_of_forall₂ hsame hnodup entry hentry
    · intro name hsome
      rw [lookup_foldl_emplaceEntry, List.lookup_nil, Option.none_or] at hsome
      rw [← map_fst_eq hsame]
      exact mem_of_lookup_isSome hsome
  · intro hnot v rest' hsome
    obtain ⟨count, hcount, hmore⟩ := Option.bind_eq_some_iff.mp hsome
    obtain ⟨⟨members, s⟩, hread, heq⟩ := Option.map_eq_some_iff.mp hmore
    cases heq
    unfold sizeReadBack at hcount
    split_ifs at hcount with hlength hmiddle
    · cases hcount
      have hmismatch := hmembers.2 (fun hfits ↦ hnot ⟨hlength, hfits⟩) members _ hread
      obtain ⟨before, entry, after, members₁, member, members₂, rfl, rfl, hbefore, hwrong, s, s',
        hmember⟩ := hmismatch
      rintro ⟨built, heq, hsame, -⟩
      cases heq
      have hmem : entry ∈ before ++ entry :: after := by simp
      have hfst := hname entry hmem s member s' hmember
      -- the first value under the name is the one that stays
      have hnotMem : entry.1 ∉ members₁.map Prod.fst := by
        rw [map_fst_eq hbefore]
        rw [List.map_append, List.map_cons] at hnodup
        have hdisjoint := (List.nodup_append.mp hnodup).2.2
        exact fun hin ↦ hdisjoint entry.1 hin entry.1 (by simp) rfl
      have hnone : members₁.lookup entry.1 = none := by
        rw [← Option.not_isSome_iff_eq_none]
        exact fun hin ↦ hnotMem (mem_of_lookup_isSome hin)
      obtain ⟨v, hv, hsame⟩ := sameEntries_iff.mp hsame entry hmem
      rw [lookup_foldl_emplaceEntry, List.lookup_nil, Option.none_or, List.lookup_append, hnone,
        Option.none_or, lookup_cons_ite, if_pos hfst.symm] at hv
      cases hv
      exact hwrong ⟨hfst, hsame⟩
    · -- every member takes three bytes, and there are not so many
      have hbytes := (consumes_readMember real depth).repeatRead count hread
      cases hcount
      omega

/-! ### Values -/

theorem readName_elementName {name bytes : Bytes} (hname : elementName name = some bytes)
    (rest : Bytes) : readName (bytes ++ rest) = some (name, rest) := by
  unfold elementName at hname
  split_ifs at hname with hlong
  cases hname
  have hmod : name.length % 256 ^ 1 = name.length := Nat.mod_eq_of_lt (by omega)
  rw [readName, List.append_assoc, readPod_pod, hmod]
  exact readBytes_append name rest

theorem length_le_of_elementName {name bytes : Bytes} (hname : elementName name = some bytes) :
    name.length ≤ 255 := by
  unfold elementName at hname
  split_ifs at hname with hlong
  omega

theorem length_pos_of_elementName {name bytes : Bytes} (hname : elementName name = some bytes) :
    0 < bytes.length := by
  unfold elementName at hname
  split_ifs at hname with hlong
  cases hname
  rw [List.length_append, length_pod]
  omega

/-- The payload of an array starts with a type that has the flag. -/
theorem payload_array_eq_cons {items : List Tree} {bytes : Bytes}
    (hpayload : payload (.array items) = some bytes) :
    ∃ type tail, bytes = (flagArray ||| type) :: tail := by
  cases items with
  | nil =>
    cases hpayload
    exact ⟨typeString, [0], rfl⟩
  | cons item items =>
    obtain ⟨size, -, hmore⟩ := Option.bind_eq_some_iff.mp hpayload
    obtain ⟨first, -, hmore⟩ := Option.bind_eq_some_iff.mp hmore
    obtain ⟨others, -, heq⟩ := Option.bind_eq_some_iff.mp hmore
    cases heq
    exact ⟨item.mark, _, rfl⟩

/-- An entry's value is read as an element of its type. -/
theorem loadEntry_payload {tree : Tree} {bytes : Bytes} (hpayload : payload tree = some bytes)
    (depth : ℕ) (rest : Bytes) :
    loadEntry real (depth + 1)
        ((if tree.mark ≠ typeArray then [tree.mark] else []) ++ (bytes ++ rest)) =
      readItem real depth tree.mark (bytes ++ rest) := by
  rw [loadEntry_succ]
  by_cases harray : tree.mark = typeArray
  · obtain ⟨items, rfl⟩ : ∃ items, tree = .array items := by
      cases tree with
      | array items => exact ⟨items, rfl⟩
      | integer type value => cases type <;> exact absurd harray (by simp [Tree.mark]; decide)
      | bool value => exact absurd harray (by simp [Tree.mark]; decide)
      | string value => exact absurd harray (by simp [Tree.mark]; decide)
      | object entries => exact absurd harray (by simp [Tree.mark]; decide)
    obtain ⟨type, tail, rfl⟩ := payload_array_eq_cons hpayload
    rw [if_neg (not_not.mpr harray), List.nil_append, harray, readItem_typeArray, List.cons_append,
      readPod_cons, Option.bind_some, Option.bind_some]
    simp only [UInt8.ofNat_toNat]
    rw [if_pos (flagArray_or type), if_neg (flagArray_or type)]
  · have hflag : ∀ type : UInt8, type < 0x80 → ¬type &&& flagArray ≠ 0 := by decide +kernel
    rw [if_pos harray, List.cons_append, readPod_cons, Option.bind_some, readItem, if_neg harray]
    simp only [UInt8.ofNat_toNat, List.nil_append]
    rw [if_neg (hflag _ tree.mark_lt)]

theorem recovers_integer (type : IntegerType) (value : {z : ℤ // type.InRange z}) (depth : ℕ) :
    Recovers (2 ^ 63) (readItem real (depth + 1) type.mark) (Same (.integer type value))
      (Fits (.integer type value)) (pod type.size (value.1 % 2 ^ (8 * type.size)).toNat) := by
  intro rest _
  have hload : ∀ s, readItem real (depth + 1) type.mark s =
      readIntegerJson type.signed type.size s := by
    intro s
    cases type <;> rfl
  rw [hload, readIntegerJson, readPod_pod, Option.map_some, Fits]
  have hvalue := toInt_readBack type value.2
  constructor
  · intro hfits
    rw [if_pos hfits] at hvalue
    exact ⟨_, rfl, congrArg some hvalue⟩
  · intro hnot v rest' hsome hsame
    cases hsome
    rw [if_neg hnot] at hvalue
    have heq := Option.some.inj hsame
    rw [hvalue] at heq
    omega

theorem recovers_bool (value : Bool) (depth : ℕ) :
    Recovers (2 ^ 63) (readItem real (depth + 1) typeBool) (Same (.bool value))
      (Fits (.bool value)) (pod 1 value.toNat) := by
  refine Recovers.of_fits (fun rest ↦ ?_) trivial
  have hload : ∀ s, readItem real (depth + 1) typeBool s =
      (readPod 1 s).map fun r ↦ (.bool (r.1 ≠ 0), r.2) := fun s ↦ rfl
  rw [hload, readPod_pod, Option.map_some]
  cases value <;> exact ⟨_, rfl, rfl⟩

theorem recovers_string {value size : Bytes} (hsize : writeArraySize value.length = some size)
    (depth : ℕ) :
    Recovers (2 ^ 63) (readItem real (depth + 1) typeString) (Same (.string value))
      (Fits (.string value)) (size ++ value) := by
  intro rest _
  have hload : ∀ s, readItem real (depth + 1) typeString s =
      (readString s).map fun r ↦ (.string r.1, r.2) := fun s ↦ rfl
  have hread : readString (size ++ value ++ rest) =
      (sizeReadBack value.length).bind fun count ↦ readBytes count (value ++ rest) := by
    rw [readString, List.append_assoc, readVarint_writeArraySize hsize]
    exact Option.bind_map ..
  rw [hload, hread, Fits]
  constructor
  · intro hlength
    rw [sizeReadBack, if_pos hlength, Option.bind_some, readBytes_append]
    exact ⟨_, rfl, rfl⟩
  · intro hnot v rest' hsome hsame
    obtain ⟨⟨bytes, s⟩, hbytes, heq⟩ := Option.map_eq_some_iff.mp hsome
    cases heq
    cases hsame
    obtain ⟨count, hcount, hbytes⟩ := Option.bind_eq_some_iff.mp hbytes
    unfold sizeReadBack at hcount
    rw [if_neg hnot] at hcount
    split_ifs at hcount with hmiddle
    cases hcount
    unfold readBytes at hbytes
    split_ifs at hbytes with hle
    have hlength := congrArg (fun r ↦ r.1.length) (Option.some.inj hbytes)
    simp only [List.length_take] at hle hlength hnot
    omega

/-- One entry of an object, from its value. -/
theorem recovers_entry {name : Bytes} {value : Tree} {nameBytes bytes : Bytes} {depth : ℕ}
    (hname : elementName name = some nameBytes) (hpayload : payload value = some bytes)
    (h : Recovers (2 ^ 63) (readItem real depth value.mark) (Same value) (Fits value) bytes) :
    Recovers (2 ^ 63) (readMember real (depth + 1)) (SameMember · (name, value))
      (FitsEntry (name, value)) (entryText (name, value)) := by
  have hfits : FitsEntry (name, value) = Fits value :=
    propext (and_iff_right (length_le_of_elementName hname))
  have htext : entryText (name, value) =
      nameBytes ++ ((if value.mark ≠ typeArray then [value.mark] else []) ++ bytes) := by
    rw [entryText, text, hname, hpayload, Option.getD_some, Option.getD_some, List.append_assoc]
  have hread : ∀ rest, readMember real (depth + 1) (entryText (name, value) ++ rest) =
      (readItem real depth value.mark (bytes ++ rest)).map fun r ↦ ((name, r.1), r.2) := by
    intro rest
    rw [readMember, htext, List.append_assoc, readName_elementName hname, List.append_assoc]
    simp only [Option.bind_eq_bind, Option.bind_some]
    rw [loadEntry_payload real hpayload]
    cases readItem real depth value.mark (bytes ++ rest) <;> rfl
  rw [hfits]
  refine (h.map (fun v ↦ (name, v)) fun v ↦ and_iff_right rfl).of_eq hread ?_
  rw [htext, List.length_append, List.length_append]
  omega

theorem name_of_readMember {name : Bytes} {value : Tree} {nameBytes : Bytes}
    (hname : elementName name = some nameBytes) {depth : ℕ} {s s' : Bytes}
    {member : Bytes × JsonValue R}
    (hread : readMember real depth (entryText (name, value) ++ s) = some (member, s')) :
    member.1 = name := by
  rw [readMember, entryText, hname, Option.getD_some, List.append_assoc, List.append_assoc,
    readName_elementName hname] at hread
  simp only [Option.bind_eq_bind, Option.bind_some] at hread
  obtain ⟨r, -, heq⟩ := Option.bind_eq_some_iff.mp hread
  cases heq
  rfl

theorem payload_eq_some_text {tree : Tree} {bytes : Bytes} (hpayload : payload tree = some bytes) :
    text tree = bytes := by
  rw [text, hpayload, Option.getD_some]

mutual

/-- Every value that can be written is recovered exactly if it fits.  A level of nesting takes at
most three calls and as many bytes. -/
theorem recovers_payload : ∀ (tree : Tree), WellFormed tree → ∀ (bytes : Bytes),
    payload tree = some bytes → ∀ (depth : ℕ), 2 * bytes.length ≤ depth →
    Recovers (2 ^ 63) (readItem real depth tree.mark) (Same tree) (Fits tree) bytes
  | .integer type value, _, bytes, hpayload, depth, hdepth => by
    cases hpayload
    have hsize : 0 < type.size := by cases type <;> decide
    rw [length_pod] at hdepth
    obtain ⟨depth, rfl⟩ : ∃ d, depth = d + 1 := ⟨depth - 1, by omega⟩
    exact recovers_integer real type value depth
  | .bool value, _, bytes, hpayload, depth, hdepth => by
    cases hpayload
    rw [length_pod] at hdepth
    obtain ⟨depth, rfl⟩ : ∃ d, depth = d + 1 := ⟨depth - 1, by omega⟩
    exact recovers_bool real value depth
  | .string value, _, bytes, hpayload, depth, hdepth => by
    obtain ⟨size, hsize, rfl⟩ := Option.map_eq_some_iff.mp hpayload
    have hpos := length_pos_of_writeArraySize hsize
    rw [List.length_append] at hdepth
    obtain ⟨depth, rfl⟩ : ∃ d, depth = d + 1 := ⟨depth - 1, by omega⟩
    exact recovers_string real hsize depth
  | .array [], _, bytes, hpayload, depth, hdepth => by
    cases hpayload
    obtain ⟨depth, rfl⟩ : ∃ d, depth = d + 1 := ⟨depth - 1, by simp at hdepth; omega⟩
    have hsize : writeArraySize ([] : List Tree).length = some [0] := by decide
    exact recovers_array real hsize (by decide : typeString < 0x80) (by simp)
  | .array (item :: items), hwf, bytes, hpayload, depth, hdepth => by
    obtain ⟨size, hsize, hmore⟩ := Option.bind_eq_some_iff.mp hpayload
    obtain ⟨first, hfirst, hmore⟩ := Option.bind_eq_some_iff.mp hmore
    obtain ⟨others, hothers, heq⟩ := Option.bind_eq_some_iff.mp hmore
    cases heq
    rw [List.length_cons, List.length_append] at hdepth
    obtain ⟨depth, rfl⟩ : ∃ d, depth = d + 1 := ⟨depth - 1, by omega⟩
    have hitems : payloadItems (item :: items) = some (first ++ others) := by
      rw [payloadItems, hfirst, hothers]
      rfl
    obtain ⟨htext, hall⟩ := recovers_payloadItems (item :: items) hwf.1 (first ++ others) hitems
      depth
      (by omega)
    rw [htext]
    refine recovers_array real hsize item.mark_lt fun item' hitem' ↦ ?_
    rw [hwf.2 item (by simp) item' hitem']
    exact hall item' hitem'
  | .object entries, hwf, bytes, hpayload, depth, hdepth => by
    obtain ⟨members, hmembers, hmore⟩ := Option.bind_eq_some_iff.mp hpayload
    obtain ⟨size, hsize, heq⟩ := Option.bind_eq_some_iff.mp hmore
    cases heq
    have hpos := length_pos_of_writeArraySize hsize
    rw [List.length_append] at hdepth
    obtain ⟨depth, rfl⟩ : ∃ d, depth = d + 2 := ⟨depth - 2, by omega⟩
    obtain ⟨htext, hall⟩ := recovers_payloadEntries entries hwf.1 members hmembers depth (by omega)
    rw [htext]
    refine Recovers.of_eq (recovers_object real hsize hwf.2
      (fun entry hentry ↦ (hall entry hentry).1)
      fun entry hentry s member s' hread ↦ (hall entry hentry).2 s member s' hread)
      (fun rest ↦ rfl) le_rfl
termination_by tree => sizeOf tree

theorem recovers_payloadItems : ∀ (items : List Tree), WellFormedItems items → ∀ (bytes : Bytes),
    payloadItems items = some bytes → ∀ (depth : ℕ), 2 * bytes.length ≤ depth →
    bytes = items.flatMap text ∧ ∀ item ∈ items,
      Recovers (2 ^ 63) (readItem real depth item.mark) (Same item) (Fits item) (text item)
  | [], _, bytes, hpayload, depth, _ => by
    cases hpayload
    exact ⟨rfl, by simp⟩
  | item :: items, hwf, bytes, hpayload, depth, hdepth => by
    obtain ⟨first, hfirst, hmore⟩ := Option.bind_eq_some_iff.mp hpayload
    obtain ⟨others, hothers, heq⟩ := Option.bind_eq_some_iff.mp hmore
    cases heq
    rw [List.length_append] at hdepth
    obtain ⟨htext, hall⟩ := recovers_payloadItems items hwf.2 others hothers depth (by omega)
    have hitem := recovers_payload item hwf.1 first hfirst depth (by omega)
    rw [List.flatMap_cons, List.forall_mem_cons, payload_eq_some_text hfirst, ← htext]
    exact ⟨rfl, hitem, hall⟩
termination_by items => sizeOf items

theorem recovers_payloadEntries : ∀ (entries : List (Bytes × Tree)), WellFormedEntries entries →
    ∀ (bytes : Bytes), payloadEntries entries = some bytes → ∀ (depth : ℕ),
    2 * bytes.length ≤ depth →
    bytes = entries.flatMap entryText ∧ ∀ entry ∈ entries,
      Recovers (2 ^ 63) (readMember real depth) (SameMember · entry) (FitsEntry entry)
        (entryText entry) ∧
      ∀ s member s', readMember real depth (entryText entry ++ s) = some (member, s') →
        member.1 = entry.1
  | [], _, bytes, hpayload, depth, _ => by
    cases hpayload
    exact ⟨rfl, by simp⟩
  | (name, value) :: entries, hwf, bytes, hpayload, depth, hdepth => by
    obtain ⟨nameBytes, hname, hmore⟩ := Option.bind_eq_some_iff.mp hpayload
    obtain ⟨first, hfirst, hmore⟩ := Option.bind_eq_some_iff.mp hmore
    obtain ⟨others, hothers, heq⟩ := Option.bind_eq_some_iff.mp hmore
    cases heq
    have hpos := length_pos_of_elementName hname
    rw [List.length_append, List.length_append, List.length_append] at hdepth
    obtain ⟨depth, rfl⟩ : ∃ d, depth = d + 1 := ⟨depth - 1, by omega⟩
    obtain ⟨htext, hall⟩ := recovers_payloadEntries entries hwf.2.2 others hothers (depth + 1)
      (by omega)
    have hvalue := recovers_payload value hwf.2.1 first hfirst depth (by omega)
    have hentry : entryText (name, value) =
        nameBytes ++ (if value.mark ≠ typeArray then [value.mark] else []) ++ first := by
      rw [entryText, payload_eq_some_text hfirst, hname, Option.getD_some]
    rw [List.flatMap_cons, List.forall_mem_cons, hentry, ← htext]
    refine ⟨rfl, ⟨?_, fun s member s' hread ↦ ?_⟩, hall⟩
    · rw [← hentry]
      exact recovers_entry real hname hfirst hvalue
    · rw [← hentry] at hread
      exact name_of_readMember real hname hread
termination_by entries => sizeOf entries

end

/-! ## The round trip -/

theorem exists_elementName {name : Bytes} (hname : name.length ≤ 255) :
    ∃ bytes, elementName name = some bytes := ⟨_, if_neg (by omega)⟩

mutual

/-- What fits can be written. -/
theorem exists_payload : ∀ (tree : Tree), Fits tree → ∃ bytes, payload tree = some bytes
  | .integer _ _, _ => ⟨_, rfl⟩
  | .bool _, _ => ⟨_, rfl⟩
  | .string value, hfits => by
    have hlength : value.length < 2 ^ 29 := hfits
    obtain ⟨size, hsize⟩ := exists_writeArraySize value.length (by omega)
    exact ⟨_, by rw [payload, hsize]; rfl⟩
  | .array [], _ => ⟨_, rfl⟩
  | .array (item :: items), hfits => by
    obtain ⟨hlength, hitem, hitems⟩ := hfits
    rw [List.length_cons] at hlength
    obtain ⟨size, hsize⟩ := exists_writeArraySize (items.length + 1) (by omega)
    obtain ⟨first, hfirst⟩ := exists_payload item hitem
    obtain ⟨others, hothers⟩ := exists_payloadItems items hitems
    exact ⟨_, by rw [payload, hsize, hfirst, hothers]; rfl⟩
  | .object entries, hfits => by
    obtain ⟨hlength, hentries⟩ := hfits
    obtain ⟨size, hsize⟩ := exists_writeArraySize entries.length (by omega)
    obtain ⟨members, hmembers⟩ := exists_payloadEntries entries hentries
    exact ⟨_, by rw [payload, hsize, hmembers]; rfl⟩

theorem exists_payloadItems : ∀ (items : List Tree), FitsItems items →
    ∃ bytes, payloadItems items = some bytes
  | [], _ => ⟨_, rfl⟩
  | item :: items, hfits => by
    obtain ⟨first, hfirst⟩ := exists_payload item hfits.1
    obtain ⟨others, hothers⟩ := exists_payloadItems items hfits.2
    exact ⟨_, by rw [payloadItems, hfirst, hothers]; rfl⟩

theorem exists_payloadEntries : ∀ (entries : List (Bytes × Tree)), FitsEntries entries →
    ∃ bytes, payloadEntries entries = some bytes
  | [], _ => ⟨_, rfl⟩
  | (name, value) :: entries, hfits => by
    obtain ⟨⟨hname, hvalue⟩, hentries⟩ := hfits
    obtain ⟨nameBytes, hnameBytes⟩ := exists_elementName hname
    obtain ⟨first, hfirst⟩ := exists_payload value hvalue
    obtain ⟨others, hothers⟩ := exists_payloadEntries entries hentries
    exact ⟨_, by rw [payloadEntries, hnameBytes, hfirst, hothers]; rfl⟩

end

theorem parseBinary_header (bytes : Bytes) :
    parseBinary real (header ++ bytes) = loadObject real (2 * bytes.length + 1) bytes := by
  have hread := readBytes_append header bytes
  rw [show header.length = 9 from rfl] at hread
  rw [parseBinary, hread]
  simp only [Option.bind_eq_bind, Option.bind_some, if_true]

/-- An object comes back from its storage exactly if all sizes in it are below `2 ^ 29`, all names
have at most 255 characters and all integers are below `2 ^ 63`.  No byte vector is longer than
`2 ^ 63 - 1`. -/
theorem exists_parseBinary_iff {entries : List (Bytes × Tree)}
    (hwf : WellFormed (.object entries))
    (hlength : ∀ bytes, toBinaryKeyValue (.object entries) = some bytes → bytes.length < 2 ^ 63) :
    (∃ bytes v, toBinaryKeyValue (.object entries) = some bytes ∧
      parseBinary real bytes = some (v, []) ∧ Same (.object entries) v) ↔
        Fits (.object entries) := by
  have hrecovers : ∀ bytes, payload (.object entries) = some bytes →
      Recovers (2 ^ 63) (loadObject real (2 * bytes.length + 1)) (Same (.object entries))
        (Fits (.object entries)) bytes := by
    intro bytes hbytes
    exact (recovers_payload real (.object entries) hwf bytes hbytes (2 * bytes.length + 2)
      (by omega)).of_eq (fun rest ↦ rfl) le_rfl
  have hlimit : ∀ bytes, payload (.object entries) = some bytes →
      (bytes ++ []).length < 2 ^ 63 := by
    intro bytes hbytes
    have hall := hlength (header ++ bytes) (by rw [toBinaryKeyValue_object hwf, hbytes]; rfl)
    rw [List.length_append] at hall
    rw [List.append_nil]
    omega
  constructor
  · rintro ⟨bytes, v, hwrite, hparse, hsame⟩
    rw [toBinaryKeyValue_object hwf] at hwrite
    obtain ⟨body, hbody, rfl⟩ := Option.map_eq_some_iff.mp hwrite
    rw [parseBinary_header, ← List.append_nil body, List.append_nil body] at hparse
    by_contra hnot
    have hno := (hrecovers body hbody [] (hlimit body hbody)).2 hnot v []
    rw [List.append_nil] at hno
    exact hno hparse hsame
  · intro hfits
    obtain ⟨body, hbody⟩ := exists_payload (.object entries) hfits
    obtain ⟨v, hread, hsame⟩ := (hrecovers body hbody [] (hlimit body hbody)).1 hfits
    rw [List.append_nil] at hread
    refine ⟨header ++ body, v, ?_, ?_, hsame⟩
    · rw [toBinaryKeyValue_object hwf, hbody]
      rfl
    · rw [parseBinary_header, hread]

/-- The codec gives back what it was given exactly as far as the shift in `read_varint` reaches. -/
theorem roundTrip_iff :
    (∀ entries, WellFormed (.object entries) →
      (∀ bytes, toBinaryKeyValue (.object entries) = some bytes → bytes.length < 2 ^ 63) →
      ((∃ bytes v, toBinaryKeyValue (.object entries) = some bytes ∧
        parseBinary real bytes = some (v, []) ∧ Same (.object entries) v) ↔
          Fits (.object entries))) ∧
    ∀ val ≤ 2 ^ 62 - 1, (∃ bytes, writeArraySize val = some bytes ∧
      ∀ rest, readVarint (bytes ++ rest) = some (val, rest)) ↔ val < 2 ^ 29 :=
  ⟨fun _ hwf hlength ↦ exists_parseBinary_iff real hwf hlength,
    fun val hval ↦ readVarint_writeArraySize_iff val hval⟩

/-- An object of one string in an array. -/
theorem roundTrip_iff_one :
    ∃ bytes v, toBinaryKeyValue (.object [([0x61], .array [.string [1, 2]])]) = some bytes ∧
      parseBinary (fun _ ↦ ()) bytes = some (v, []) ∧
        Same (.object [([0x61], .array [.string [1, 2]])]) v := by
  have hwf : WellFormed (.object [([0x61], .array [.string [1, 2]])]) :=
    ⟨⟨by decide, ⟨⟨trivial, trivial⟩, by simp⟩, trivial⟩, by decide⟩
  have hfits : Fits (.object [([0x61], .array [.string [1, 2]])]) :=
    ⟨by decide, ⟨by decide, by decide, (by decide : 2 < 2 ^ 29), trivial⟩, trivial⟩
  refine ((roundTrip_iff fun _ ↦ ()).1 _ hwf fun bytes hbytes ↦ ?_).mpr hfits
  have hvalue : toBinaryKeyValue (.object [([0x61], .array [.string [1, 2]])]) =
      some (header ++ [4, 1, 0x61, 0x8A, 4, 8, 1, 2]) := by rfl
  rw [hvalue] at hbytes
  cases hbytes
  decide

/-- A size of `2 ^ 29` is not read back. -/
theorem not_roundTrip :
    ¬((∀ entries, WellFormed (.object entries) →
        ∃ bytes v, toBinaryKeyValue (.object entries) = some bytes ∧
          parseBinary (fun _ ↦ ()) bytes = some (v, []) ∧ Same (.object entries) v) ∧
      ∀ val ≤ 2 ^ 62 - 1, ∃ bytes, writeArraySize val = some bytes ∧
        ∀ rest, readVarint (bytes ++ rest) = some (val, rest)) := by
  rintro ⟨-, hsizes⟩
  have hsmall := (readVarint_writeArraySize_iff (2 ^ 29) (by omega)).mp
    (hsizes (2 ^ 29) (by omega))
  omega

end KeyValue

end Naza
