import Naza.Json
import Naza.Lib.Recover

/-!
# Portable storage

`KVBinaryOutputStream` and the functions under `KVBinaryInputStream` that read a portable storage
into a tree of JSON values.  The writer's level stack and its buffers for nested objects are kept
as the code keeps them; a shift that the language leaves undefined has no result.
-/

open Lib

namespace Naza

namespace KeyValue

/-! ## Sizes -/

/-- A number in `n` bytes, least significant byte first. -/
def pod (n x : ℕ) : Bytes := (natToBytes n x).reverse

def packVarint (n typeOr pv : ℕ) : Bytes := pod n (pv <<< 2 % 256 ^ n ||| typeOr)

def writeArraySize (val : ℕ) : Option Bytes :=
  if val ≤ 63 then some (packVarint 1 0 val)
  else if val ≤ 16383 then some (packVarint 2 1 val)
  else if val ≤ 1073741823 then some (packVarint 4 2 val)
  else if 4611686018427387903 < val then none
  else some (packVarint 8 3 val)

/-- `IInputStream::read` of `n` bytes. -/
def readBytes (n : ℕ) (s : Bytes) : Option (Bytes × Bytes) :=
  if n ≤ s.length then some (s.take n, s.drop n) else none

def readPod (n : ℕ) (s : Bytes) : Option (ℕ × Bytes) :=
  (readBytes n s).map fun r ↦ (bytesToNat r.1.reverse, r.2)

/-- `n << (i * 8)` for a byte `n`, which is an `int` there, made a `size_t` by `|=`: bit 31 is the
sign, and 32 bits and more cannot be shifted. -/
def shiftByte (n i : ℕ) : Option ℕ :=
  if 32 ≤ i * 8 then none
  else if n <<< (i * 8) < 2 ^ 31 then some (n <<< (i * 8))
  else some (2 ^ 64 - 2 ^ 32 + n <<< (i * 8))

def readVarintLoop : ℕ → ℕ → ℕ → Bytes → Option (ℕ × Bytes)
  | 0, _, value, s => some (value, s)
  | bytesLeft + 1, i, value, s => do
    let (n, s) ← readPod 1 s
    let shifted ← shiftByte n i
    readVarintLoop bytesLeft (i + 1) (value ||| shifted) s

def bytesLeft (sizeMask : ℕ) : ℕ :=
  match sizeMask with
  | 0 => 0
  | 1 => 1
  | 2 => 3
  | _ => 7

def readVarint (s : Bytes) : Option (ℕ × Bytes) := do
  let (b, s) ← readPod 1 s
  let (value, s) ← readVarintLoop (bytesLeft (b % 4)) 1 b s
  some (value >>> 2, s)

/-! ## Trees -/

/-- The integer types of the writer. -/
inductive IntegerType where
  | int64 | int32 | int16 | uint64 | uint32 | uint16 | uint8
  deriving DecidableEq

namespace IntegerType

def size : IntegerType → ℕ
  | int64 | uint64 => 8
  | int32 | uint32 => 4
  | int16 | uint16 => 2
  | uint8 => 1

def signed : IntegerType → Bool
  | int64 | int32 | int16 => true
  | uint64 | uint32 | uint16 | uint8 => false

/-- `BIN_KV_SERIALIZE_TYPE_INT64` and so on. -/
def mark : IntegerType → UInt8
  | int64 => 1
  | int32 => 2
  | int16 => 3
  | uint64 => 5
  | uint32 => 6
  | uint16 => 7
  | uint8 => 8

/-- What a variable of the type can hold. -/
def InRange (type : IntegerType) (z : ℤ) : Prop :=
  if type.signed then -(2 ^ (8 * type.size - 1)) ≤ z ∧ z < 2 ^ (8 * type.size - 1)
  else 0 ≤ z ∧ z < 2 ^ (8 * type.size)

end IntegerType

/-- What is serialized. -/
inductive Tree where
  | integer (type : IntegerType) (value : {z : ℤ // type.InRange z})
  | bool (value : Bool)
  | string (value : Bytes)
  | array (items : List Tree)
  | object (entries : List (Bytes × Tree))

def typeString : UInt8 := 10
def typeBool : UInt8 := 11
def typeObject : UInt8 := 12
def typeArray : UInt8 := 13
def flagArray : UInt8 := 0x80

def Tree.mark : Tree → UInt8
  | integer type _ => type.mark
  | bool _ => typeBool
  | string _ => typeString
  | array _ => typeArray
  | object _ => typeObject

/-! ## The writer -/

inductive LevelState where
  | object
  | arrayPrefix
  | array
  deriving DecidableEq

structure Level where
  state : LevelState
  count : ℕ
  deriving DecidableEq

/-- The stacks have their backs at the head. -/
structure KVBinaryOutputStream where
  expectingRoot : Bool
  nextKey : Bytes
  objectsStack : List Bytes
  stack : List Level
  target : Bytes
  deriving DecidableEq

/-- `KVBinaryStorageBlockHeader`. -/
def header : Bytes := pod 4 0x01011101 ++ pod 4 0x01020101 ++ [1]

namespace KVBinaryOutputStream

def new : KVBinaryOutputStream := ⟨true, [], [], [], header⟩

/-- `stream().write`. -/
def write (bytes : Bytes) (s : KVBinaryOutputStream) : Option KVBinaryOutputStream :=
  match s.objectsStack with
  | [] => none
  | buffer :: objectsStack => some { s with objectsStack := (buffer ++ bytes) :: objectsStack }

def elementName (name : Bytes) : Option Bytes :=
  if 255 < name.length then none else some (pod 1 name.length ++ name)

def objectKey (name : Bytes) (s : KVBinaryOutputStream) : KVBinaryOutputStream :=
  { s with nextKey := name }

def writeElementPrefix (type : UInt8) (s : KVBinaryOutputStream) : Option KVBinaryOutputStream :=
  match s.stack with
  | [] => none
  | level :: stack =>
    match level.state with
    | .object =>
      if s.nextKey ≠ [] then do
        let name ← elementName s.nextKey
        let s ← s.write (name ++ if type ≠ typeArray then [type] else [])
        some { s with nextKey := [], stack := ⟨.object, level.count + 1⟩ :: stack }
      else some { s with stack := ⟨.object, level.count + 1⟩ :: stack }
    | .arrayPrefix => do
      let size ← writeArraySize level.count
      let s ← s.write ((flagArray ||| type) :: size)
      some { s with stack := ⟨.array, level.count⟩ :: stack }
    | .array => some s

def beginObject (s : KVBinaryOutputStream) : Option KVBinaryOutputStream := do
  let s ←
    if s.stack = [] then
      if s.expectingRoot then some { s with expectingRoot := false } else none
    else s.writeElementPrefix typeObject
  some { s with stack := ⟨.object, 0⟩ :: s.stack, objectsStack := [] :: s.objectsStack }

def endObject (s : KVBinaryOutputStream) : Option KVBinaryOutputStream :=
  match s.stack, s.objectsStack with
  | level :: stack, buffer :: objectsStack => do
    let size ← writeArraySize level.count
    let s := { s with stack, objectsStack }
    if objectsStack = [] then some { s with target := s.target ++ (size ++ buffer) }
    else s.write (size ++ buffer)
  | _, _ => none

def beginArray (size : ℕ) (s : KVBinaryOutputStream) : Option KVBinaryOutputStream := do
  let s ← s.writeElementPrefix typeArray
  if size = 0 then
    let count ← writeArraySize 0
    let s ← s.write ((flagArray ||| typeString) :: count)
    some { s with stack := ⟨.array, 0⟩ :: s.stack }
  else some { s with stack := ⟨.arrayPrefix, size⟩ :: s.stack }

def endArray (s : KVBinaryOutputStream) : Option KVBinaryOutputStream :=
  match s.stack with
  | [] => none
  | _ :: stack => some { s with stack }

/-- `seria_v` of a number of the type. -/
def seriaInteger (type : IntegerType) (value : ℤ) (s : KVBinaryOutputStream) :
    Option KVBinaryOutputStream := do
  let s ← s.writeElementPrefix type.mark
  s.write (pod type.size (value % 2 ^ (8 * type.size)).toNat)

def seriaBool (value : Bool) (s : KVBinaryOutputStream) : Option KVBinaryOutputStream := do
  let s ← s.writeElementPrefix typeBool
  s.write (pod 1 value.toNat)

def seriaString (value : Bytes) (s : KVBinaryOutputStream) : Option KVBinaryOutputStream := do
  let s ← s.writeElementPrefix typeString
  let size ← writeArraySize value.length
  s.write (size ++ value)

end KVBinaryOutputStream

open KVBinaryOutputStream

mutual

/-- The calls by which a value serializes itself. -/
def ser : Tree → KVBinaryOutputStream → Option KVBinaryOutputStream
  | .integer type value, s => s.seriaInteger type value
  | .bool value, s => s.seriaBool value
  | .string value, s => s.seriaString value
  | .array items, s => do
    let s ← s.beginArray items.length
    let s ← serItems items s
    s.endArray
  | .object entries, s => do
    let s ← s.beginObject
    let s ← serEntries entries s
    s.endObject

def serItems : List Tree → KVBinaryOutputStream → Option KVBinaryOutputStream
  | [], s => some s
  | item :: items, s => do
    let s ← ser item s
    serItems items s

def serEntries : List (Bytes × Tree) → KVBinaryOutputStream → Option KVBinaryOutputStream
  | [], s => some s
  | (name, value) :: entries, s => do
    let s ← ser value (s.objectKey name)
    serEntries entries s

end

/-- `to_binary_key_value`. -/
def toBinaryKeyValue (tree : Tree) : Option Bytes := (ser tree .new).map (·.target)

/-! ## The reader -/

/-- `std::map::emplace` does not replace an entry. -/
def emplaceEntry {R : Type} (entries : List (Bytes × JsonValue R)) (entry : Bytes × JsonValue R) :
    List (Bytes × JsonValue R) :=
  if (entries.lookup entry.1).isSome then entries
  else Json.insertEntry entry.1 entry.2 entries

def readString (s : Bytes) : Option (Bytes × Bytes) := do
  let (size, s) ← readVarint s
  readBytes size s

def readName (s : Bytes) : Option (Bytes × Bytes) := do
  let (len, s) ← readPod 1 s
  readBytes len s

variable {R : Type} (real : ℕ → R)

/-- `read_integer_json` of an integer of `n` bytes: `static_cast<int64_t>`. -/
def readIntegerJson (signed : Bool) (n : ℕ) (s : Bytes) : Option (JsonValue R × Bytes) :=
  (readPod n s).map fun r ↦
    (.signedInteger (Int64.ofInt (if signed then (BitVec.ofNat (8 * n) r.1).toInt else r.1)), r.2)

mutual

/-- The loaders call each other once for each level of nesting. -/
def loadObject : ℕ → Bytes → Option (JsonValue R × Bytes)
  | 0, _ => none
  | depth + 1, s => do
    let (count, s) ← readVarint s
    let (entries, s) ← repeatRead (fun s ↦ do
      let (name, s) ← readName s
      let (value, s) ← loadEntry depth s
      some ((name, value), s)) count s
    some (.object (entries.foldl emplaceEntry []), s)

def loadValue : ℕ → UInt8 → Bytes → Option (JsonValue R × Bytes)
  | 0, _, _ => none
  | depth + 1, type, s =>
    match type.toNat with
    | 1 => readIntegerJson true 8 s
    | 2 => readIntegerJson true 4 s
    | 3 => readIntegerJson true 2 s
    | 4 => readIntegerJson true 1 s
    | 5 => readIntegerJson false 8 s
    | 6 => readIntegerJson false 4 s
    | 7 => readIntegerJson false 2 s
    | 8 => readIntegerJson false 1 s
    | 9 => (readPod 8 s).map fun r ↦ (.double (real r.1), r.2)
    | 10 => (readString s).map fun r ↦ (.string r.1, r.2)
    | 11 => (readPod 1 s).map fun r ↦ (.bool (r.1 ≠ 0), r.2)
    | 12 => loadObject depth s
    | 13 => loadArray depth type s
    | _ => none

def loadEntry : ℕ → Bytes → Option (JsonValue R × Bytes)
  | 0, _ => none
  | depth + 1, s => do
    let (type, s) ← readPod 1 s
    let type := UInt8.ofNat type
    if type &&& flagArray ≠ 0 then loadArray depth (type &&& ~~~flagArray) s
    else loadValue depth type s

def loadArray : ℕ → UInt8 → Bytes → Option (JsonValue R × Bytes)
  | 0, _, _ => none
  | depth + 1, itemType, s => do
    let (count, s) ← readVarint s
    let (items, s) ← repeatRead (fun s ↦
      if itemType = typeArray then do
        let (type, s) ← readPod 1 s
        let type := UInt8.ofNat type
        if type &&& flagArray = 0 then none
        else loadArray depth (type &&& ~~~flagArray) s
      else loadValue depth itemType s) count s
    some (.array items, s)

end

/-- `parse_binary`.  A level of nesting takes two calls and at least one byte. -/
def parseBinary (s : Bytes) : Option (JsonValue R × Bytes) := do
  let (hdr, s) ← readBytes 9 s
  if hdr = header then loadObject real (2 * s.length + 1) s else none

end KeyValue

end Naza
