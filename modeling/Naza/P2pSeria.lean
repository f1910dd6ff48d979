import Naza.CryptoNote
import Naza.Lib.Layout

/-!
# Binary vectors in network messages

`serialize_as_binary`, which puts the memory of a whole vector into one string of a message and
copies it back, and the fields of the messages that go through it.  A copy is made into a buffer of
the size of the vector; one that runs over its end is an error of its own.
-/

open Lib

namespace Naza

/-! ## Messages -/

/-- A value in a message, of which only strings matter here. -/
inductive KvValue where
  | string (value : Bytes)
  | other

/-- The members of a message. -/
abbrev KvObject := String → Option KvValue

inductive ReadError where
  /-- the value is no string: an exception, upon which the peer is disconnected -/
  | unexpectedType
  /-- `memcpy` writes behind the end of the vector -/
  | outOfBounds
  deriving DecidableEq

/-- A string member; one that is absent leaves the empty string. -/
def KvObject.readString (s : KvObject) (name : String) : Except ReadError Bytes :=
  match s name with
  | none => .ok []
  | some (.string value) => .ok value
  | some .other => .error .unexpectedType

/-! ## Vectors -/

/-- `memcpy` of all of `src` into a buffer. -/
def memcpy (buffer src : Bytes) : Except ReadError Bytes :=
  if src.length ≤ buffer.length then .ok (src ++ buffer.drop src.length) else .error .outOfBounds

/-- `std::vector::resize`. -/
def resize {α : Type} (n : ℕ) (fresh : α) (value : List α) : List α :=
  value.take n ++ List.replicate (n - value.length) fresh

/-- `serialize_as_binary` in input mode. -/
def readAsBinary {α : Type} (L : Layout α) (fresh : α) (value : List α) (name : String)
    (s : KvObject) : Except ReadError (List α) := do
  let blob ← s.readString name
  let value := resize (blob.length / L.size) fresh value
  if blob.length ≠ 0 then
    let memory ← memcpy (L.memory value) blob
    return L.objects value.length memory
  else return value

/-- `serialize_as_binary` in output mode: the string written. -/
def writeAsBinary {α : Type} (L : Layout α) (value : List α) : Bytes :=
  if value = [] then [] else L.memory value

/-! ## Elements -/

structure NetworkAddress where
  ip : UInt32 := 0
  port : UInt32 := 0
  deriving DecidableEq

structure PeerlistEntry where
  adr : NetworkAddress := {}
  id : UInt64 := 0
  lastSeen : UInt32 := 0
  reserved : UInt32 := 0
  deriving DecidableEq

structure ConnectionEntry where
  adr : NetworkAddress := {}
  id : UInt64 := 0
  isIncome : Bool := false
  deriving DecidableEq

def uint32Layout : Layout UInt32 :=
  .littleEndian 4 (by norm_num) UInt32.toNat UInt32.ofNat (fun a ↦ a.toNat_lt)
    fun a ↦ UInt32.ofNat_toNat

def uint64Layout : Layout UInt64 :=
  .littleEndian 8 (by norm_num) UInt64.toNat UInt64.ofNat (fun a ↦ a.toNat_lt)
    fun a ↦ UInt64.ofNat_toNat

def boolLayout : Layout Bool :=
  .littleEndian 1 (by norm_num) Bool.toNat (· ≠ 0) (by decide) (by decide)

/-- Hashes are written as they stand, their first byte being the most significant one of the pod. -/
def hashLayout : Layout Hash where
  size := 32
  bytes h := natToBytes 32 h.val
  object b := Fin.ofNat (2 ^ 256) (bytesToNat b)
  size_pos := by norm_num
  length_bytes h := by simp
  object_bytes h := by
    rw [bytesToNat_natToBytes, Nat.mod_eq_of_lt (by have := h.isLt; norm_num at this ⊢; omega)]
    exact Fin.ofNat_val_eq_self h

def networkAddressLayout : Layout NetworkAddress :=
  (uint32Layout.pair uint32Layout).ofEquiv
    { toFun := fun v ↦ (v.ip, v.port), invFun := fun x ↦ ⟨x.1, x.2⟩ }

/-- 24 bytes, the structure being packed. -/
def peerlistEntryLayout : Layout PeerlistEntry :=
  (networkAddressLayout.pair (uint64Layout.pair (uint32Layout.pair uint32Layout))).ofEquiv
    { toFun := fun v ↦ (v.adr, v.id, v.lastSeen, v.reserved)
      invFun := fun x ↦ ⟨x.1, x.2.1, x.2.2.1, x.2.2.2⟩ }

/-- 17 bytes. -/
def connectionEntryLayout : Layout ConnectionEntry :=
  (networkAddressLayout.pair (uint64Layout.pair boolLayout)).ofEquiv
    { toFun := fun v ↦ (v.adr, v.id, v.isIncome), invFun := fun x ↦ ⟨x.1, x.2.1, x.2.2⟩ }

/-! ## Fields -/

/-- The members of network messages that are binary vectors. -/
inductive BinaryVectorField where
  | handshakeLocalPeerlist
  | timedSyncLocalPeerlist
  | networkStateLocalPeerlistWhite
  | networkStateLocalPeerlistGray
  | networkStateConnectionsList
  | requestGetObjectsTxs
  | requestGetObjectsBlocks
  | responseGetObjectsMissedIds
  | requestChainBlockIds
  | responseChainEntryBlockIds
  | requestTxPoolTxs
  deriving DecidableEq

namespace BinaryVectorField

/-- The type of the elements, with the layout and the value of a fresh one. -/
def element : BinaryVectorField → (α : Type) × Layout α × α
  | handshakeLocalPeerlist | timedSyncLocalPeerlist | networkStateLocalPeerlistWhite
  | networkStateLocalPeerlistGray => ⟨PeerlistEntry, peerlistEntryLayout, {}⟩
  | networkStateConnectionsList => ⟨ConnectionEntry, connectionEntryLayout, {}⟩
  | requestGetObjectsTxs | requestGetObjectsBlocks | responseGetObjectsMissedIds
  | requestChainBlockIds | responseChainEntryBlockIds | requestTxPoolTxs => ⟨Hash, hashLayout, 0⟩

def name : BinaryVectorField → String
  | handshakeLocalPeerlist | timedSyncLocalPeerlist => "local_peerlist"
  | networkStateLocalPeerlistWhite => "local_peerlist_white"
  | networkStateLocalPeerlistGray => "local_peerlist_gray"
  | networkStateConnectionsList => "connections_list"
  | requestGetObjectsTxs | requestTxPoolTxs => "txs"
  | requestGetObjectsBlocks => "blocks"
  | responseGetObjectsMissedIds => "missed_ids"
  | requestChainBlockIds => "block_ids"
  | responseChainEntryBlockIds => "m_block_ids"

abbrev Element (f : BinaryVectorField) : Type := f.element.1

abbrev layout (f : BinaryVectorField) : Layout f.Element := f.element.2.1

/-- The field read from a message into a vector. -/
def read (f : BinaryVectorField) (value : List f.Element) (s : KvObject) :
    Except ReadError (List f.Element) :=
  readAsBinary f.layout f.element.2.2 value f.name s

/-- The string written for a vector. -/
def write (f : BinaryVectorField) (value : List f.Element) : Bytes := writeAsBinary f.layout value

end BinaryVectorField

/-! ## Reading in bounds -/

section Bounds

variable {α : Type} (L : Layout α) (fresh : α)

@[simp]
theorem length_resize (n : ℕ) (value : List α) : (resize n fresh value).length = n := by
  simp only [resize, List.length_append, List.length_take, List.length_replicate]
  omega

theorem memcpy_eq_ok {buffer src : Bytes} (h : src.length = buffer.length) :
    memcpy buffer src = .ok src := by
  rw [memcpy, if_pos h.le, h, List.drop_length, List.append_nil]

/-- A string of whole elements is copied into exactly the memory of the vector. -/
theorem readAsBinary_of_dvd {value : List α} {name : String} {s : KvObject} {blob : Bytes}
    (hblob : s.readString name = .ok blob) (hdvd : L.size ∣ blob.length) :
    readAsBinary L fresh value name s = .ok (L.objects (blob.length / L.size) blob) := by
  have hlength : blob.length =
      (L.memory (resize (blob.length / L.size) fresh value)).length := by
    rw [L.length_memory, length_resize, Nat.div_mul_cancel hdvd]
  have hread : s.readString name = .ok blob := hblob
  unfold readAsBinary
  rw [hread]
  change (if blob.length ≠ 0 then _ else _ : Except ReadError (List α)) = _
  split
  · rw [memcpy_eq_ok hlength, length_resize]
    rfl
  · next hzero =>
    rw [not_not] at hzero
    simp only [hzero, Nat.zero_div, Layout.objects, resize, List.take_zero, Nat.zero_sub,
      List.replicate_zero, List.append_nil]
    rfl

/-- Any other string is copied over the end of the vector. -/
theorem readAsBinary_of_not_dvd {value : List α} {name : String} {s : KvObject} {blob : Bytes}
    (hblob : s.readString name = .ok blob) (hdvd : ¬ L.size ∣ blob.length) :
    readAsBinary L fresh value name s = .error .outOfBounds := by
  have hne : blob.length ≠ 0 := fun h ↦ hdvd (h ▸ Nat.dvd_zero _)
  have hlt : ¬ blob.length ≤ (L.memory (resize (blob.length / L.size) fresh value)).length := by
    rw [L.length_memory, length_resize, not_le]
    exact lt_of_le_of_ne (Nat.div_mul_le_self _ _) fun h ↦ hdvd (h ▸ Nat.dvd_mul_left _ _)
  unfold readAsBinary
  rw [hblob]
  change (if blob.length ≠ 0 then _ else _ : Except ReadError (List α)) = _
  rw [if_pos hne, memcpy, if_neg hlt]
  rfl

theorem length_writeAsBinary (value : List α) :
    (writeAsBinary L value).length = value.length * L.size := by
  unfold writeAsBinary
  split
  · next h => simp [h]
  · exact L.length_memory value

theorem objects_writeAsBinary (value : List α) :
    L.objects value.length (writeAsBinary L value) = value := by
  unfold writeAsBinary
  split
  · next h => simp [h, Layout.objects]
  · exact L.objects_memory value

end Bounds

namespace BinaryVectorField

/-- The read stays in bounds: the message is rejected, or the whole string was copied and is as
long as the vector. -/
def ReadsInBounds (f : BinaryVectorField) (value : List f.Element) (s : KvObject) (blob : Bytes) :
    Prop :=
  match f.read value s with
  | .ok result => blob.length = result.length * f.layout.size
  | .error error => error ≠ .outOfBounds

/-- A string stays in bounds exactly when it consists of whole elements; what was written for a
vector does, and the vector is read back. -/
theorem readsInBounds_iff (f : BinaryVectorField) (value : List f.Element) (s : KvObject) :
    (∀ blob, s f.name = some (.string blob) →
      (f.ReadsInBounds value s blob ↔ f.layout.size ∣ blob.length)) ∧
    ∀ vector, s f.name = some (.string (f.write vector)) → f.read value s = .ok vector := by
  constructor
  · intro blob hblob
    have hread : s.readString f.name = .ok blob := by simp only [KvObject.readString, hblob]
    constructor
    · intro hbounds
      by_contra hdvd
      have herror : f.read value s = _ := readAsBinary_of_not_dvd f.layout _ hread hdvd
      rw [ReadsInBounds, herror] at hbounds
      exact hbounds rfl
    · intro hdvd
      have hok : f.read value s = _ := readAsBinary_of_dvd f.layout _ hread hdvd
      rw [ReadsInBounds, hok]
      dsimp only
      rw [Layout.length_objects, Nat.div_mul_cancel hdvd]
  · intro vector hblob
    have hread : s.readString f.name = .ok (f.write vector) := by
      simp only [KvObject.readString, hblob]
    have hlength : (f.write vector).length = vector.length * f.layout.size :=
      length_writeAsBinary f.layout vector
    have hok : f.read value s = _ :=
      readAsBinary_of_dvd f.layout _ hread (hlength ▸ Nat.dvd_mul_left _ _)
    rw [hok, hlength, Nat.mul_div_cancel _ f.layout.size_pos]
    exact congrArg _ (objects_writeAsBinary f.layout vector)

/-- A request for blocks whose list of transactions is one byte too long. -/
theorem readsInBounds_oddString : ¬ requestGetObjectsTxs.ReadsInBounds []
    (fun name ↦ if name = "txs" then some (.string (List.replicate 33 1)) else none)
    (List.replicate 33 1) := by
  have herror : requestGetObjectsTxs.read []
      (fun name ↦ if name = "txs" then some (.string (List.replicate 33 1)) else none) =
        .error .outOfBounds :=
    readAsBinary_of_not_dvd hashLayout 0 rfl (by decide)
  rw [ReadsInBounds, herror]
  exact fun h ↦ h rfl

theorem readsInBounds_iff_oneHash : ∃ (s : KvObject) (hashes : List requestGetObjectsTxs.Element),
    hashes ≠ [] ∧ requestGetObjectsTxs.ReadsInBounds [] s (requestGetObjectsTxs.write hashes) ∧
    requestGetObjectsTxs.read [] s = .ok hashes := by
  let hashes : List requestGetObjectsTxs.Element := [(7 : Hash)]
  let s : KvObject := fun name ↦
    if name = "txs" then some (.string (requestGetObjectsTxs.write hashes)) else none
  have hread := readsInBounds_iff requestGetObjectsTxs [] s
  have hdvd : hashLayout.size ∣ (requestGetObjectsTxs.write hashes).length := by decide +kernel
  exact ⟨s, hashes, by simp [hashes], (hread.1 _ rfl).2 hdvd, hread.2 hashes rfl⟩

end BinaryVectorField

end Naza
