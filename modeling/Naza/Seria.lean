import Naza.CryptoNote

/-!
# Binary streams

The primitives of `BinaryInputStream` and `BinaryOutputStream`: LEB128 integers, fixed-width
blobs, byte arrays and vectors.  Readers fill their object in place, so that an exception leaves
it half-filled exactly as the C++ streams do.
-/

open Lib

namespace Naza.Seria

/-! ## LEB128 integers -/

/-- `write_varint`: seven bits a byte, least significant first.  Ten bytes hold any 64-bit value. -/
def writeVarintBytes : ℕ → ℕ → Bytes
  | 0, _ => []
  | fuel + 1, i =>
    if i < 0x80 then [UInt8.ofNat i]
    else UInt8.ofNat (i % 0x80 + 0x80) :: writeVarintBytes fuel (i / 0x80)

def writeVarint (i : ℕ) : Bytes := writeVarintBytes 10 i

/-- The loop of `read_varint_helper` for an integer of `bits` bits. -/
def readVarintFrom (bits : ℕ) : ℕ → ℕ → Bytes → Option (ℕ × Bytes)
  | _, _, [] => none
  | shift, temp, piece :: rest =>
    if bits - 7 ≤ shift ∧ 2 ^ (bits - shift) ≤ piece.toNat then none
    else
      let temp := temp + piece.toNat % 0x80 * 2 ^ shift
      if piece.toNat < 0x80 then
        if piece = 0 ∧ shift ≠ 0 then none else some (temp, rest)
      else readVarintFrom bits (shift + 7) temp rest

def readVarint (bits : ℕ) (b : Bytes) : Option (ℕ × Bytes) := readVarintFrom bits 0 0 b

/-- Read an integer of `bits` bits; the object is left alone when the stream is refused. -/
def serVarint {α : Type} (bits : ℕ) (ofNat : ℕ → α) : Reader α := fun v b ↦
  match readVarint bits b with
  | some (n, rest) => (ofNat n, some rest)
  | none => (v, none)

def serUInt8 : Reader UInt8 := serVarint 8 UInt8.ofNat
def serUInt32 : Reader UInt32 := serVarint 32 UInt32.ofNat
def serUInt64 : Reader UInt64 := serVarint 64 UInt64.ofNat

/-! ## Fixed-width blobs -/

/-- The bytes of a 32-byte pod in memory order. -/
def podBytes (v : Pod32) : Bytes := natToBytes 32 v.val

/-- The pod with these bytes in memory. -/
def podOfBytes (bs : Bytes) : Pod32 := Fin.ofNat (2 ^ 256) (bytesToNat bs)

/-- `binary` on a 32-byte pod.  A stream that ends early has overwritten the first bytes. -/
def serPod : Reader Pod32 := fun v b ↦
  if 32 ≤ b.length then (podOfBytes (b.take 32), some (b.drop 32))
  else (podOfBytes (b ++ (podBytes v).drop b.length), none)

def serSignature : Reader Signature :=
  (Reader.field Signature.c (fun s x ↦ { s with c := x }) serPod).andThen
    (Reader.field Signature.r (fun s x ↦ { s with r := x }) serPod)

def signatureBytes (s : Signature) : Bytes := podBytes s.c ++ podBytes s.r

/-- The four bytes of a `uint32_t` in memory, least significant first. -/
def nonceBytes (v : UInt32) : Bytes := (natToBytes 4 v.toNat).reverse

/-- `binary` on the nonce. -/
def serNonce : Reader UInt32 := fun v b ↦
  if 4 ≤ b.length then (UInt32.ofNat (bytesToNat (b.take 4).reverse), some (b.drop 4))
  else (UInt32.ofNat (bytesToNat (b ++ (nonceBytes v).drop b.length).reverse), none)

/-! ## Arrays -/

/-- The step in which `common::read` grows a byte array. -/
def chunk : ℕ := 1024 * 1024

/-- `seria_v(BinaryArray &)`: the size, then the bytes.  A stream that ends early leaves the array
resized to the chunk being read. -/
def serBinaryArray : Reader BinaryArray := fun v b ↦
  match readVarint 64 b with
  | none => (v, none)
  | some (size, rest) =>
    if size ≤ rest.length then (rest.take size, some (rest.drop size))
    else
      let resized := min size ((rest.length / chunk + 1) * chunk)
      (rest ++ List.replicate (resized - rest.length) 0, none)

def binaryArrayBytes (v : BinaryArray) : Bytes := writeVarint v.length ++ v

/-- The largest size a `std::vector` of elements of `elementSize` bytes may be resized to. -/
def maxVectorSize (elementSize : ℕ) : ℕ := (2 ^ 63 - 1) / elementSize

/-- `seria_container` into a fresh vector: the size, `resize` (which throws above the maximal
size), then each element in place. -/
def serVector {α : Type} (elementSize : ℕ) (fresh : α) (r : Reader α) : Reader (List α) :=
  fun v b ↦
    match readVarint 64 b with
    | none => (v, none)
    | some (size, rest) =>
      if maxVectorSize elementSize < size then (v, none)
      else Reader.elements r fresh size rest

/-- A vector whose size is known from elsewhere is resized and filled. -/
def serFixedVector {α : Type} (size : ℕ) (fresh : α) (r : Reader α) : Reader (List α) :=
  fun _ b ↦ Reader.elements r fresh size b

def vectorBytes {α : Type} (w : α → Bytes) (v : List α) : Bytes :=
  writeVarint v.length ++ (v.map w).flatten

/-- `from_binary` into a fresh object: the object as filled, and whether no exception was thrown.
Bytes left over throw after the object has been filled. -/
def fromBinary {α : Type} (r : Reader α) (fresh : α) (blob : BinaryArray) : α × Bool :=
  match r fresh blob with
  | (v, some []) => (v, true)
  | (v, _) => (v, false)

end Naza.Seria
