import Naza.Lib.Stream

/-!
# Objects in memory

A `Layout` fixes how the objects of a type stand in memory: each in the same number of bytes, and
determined by them.  An array of objects is their bytes one after the other.
-/

namespace Lib

/-- How objects of a type stand in memory. -/
structure Layout (α : Type) where
  size : ℕ
  bytes : α → Bytes
  object : Bytes → α
  size_pos : 0 < size
  length_bytes : ∀ a, (bytes a).length = size
  object_bytes : ∀ a, object (bytes a) = a

namespace Layout

variable {α β γ : Type}

/-! ## Building layouts -/

/-- Two members one after the other, without padding. -/
def pair (L₁ : Layout α) (L₂ : Layout β) : Layout (α × β) where
  size := L₁.size + L₂.size
  bytes x := L₁.bytes x.1 ++ L₂.bytes x.2
  object b := (L₁.object (b.take L₁.size), L₂.object (b.drop L₁.size))
  size_pos := Nat.add_pos_left L₁.size_pos _
  length_bytes x := by simp [L₁.length_bytes, L₂.length_bytes]
  object_bytes x := by
    rw [List.take_left' (L₁.length_bytes _), List.drop_left' (L₁.length_bytes _), L₁.object_bytes,
      L₂.object_bytes]

/-- The layout of a type whose values are those of another. -/
def ofEquiv (L : Layout α) (e : β ≃ α) : Layout β where
  size := L.size
  bytes b := L.bytes (e b)
  object bs := e.symm (L.object bs)
  size_pos := L.size_pos
  length_bytes b := L.length_bytes _
  object_bytes b := by rw [L.object_bytes, Equiv.symm_apply_apply]

/-- A number below `256 ^ n` in `n` bytes, least significant byte first. -/
def littleEndian (n : ℕ) (hn : 0 < n) (toNat : α → ℕ) (ofNat : ℕ → α)
    (hlt : ∀ a, toNat a < 256 ^ n) (hofNat : ∀ a, ofNat (toNat a) = a) : Layout α where
  size := n
  bytes a := (natToBytes n (toNat a)).reverse
  object b := ofNat (bytesToNat b.reverse)
  size_pos := hn
  length_bytes a := by simp
  object_bytes a := by
    rw [List.reverse_reverse, bytesToNat_natToBytes, Nat.mod_eq_of_lt (hlt a), hofNat]

/-! ## Arrays -/

variable (L : Layout α)

/-- The memory of an array. -/
def memory (v : List α) : Bytes := (v.map L.bytes).flatten

/-- The first `n` objects in a piece of memory. -/
def objects : ℕ → Bytes → List α
  | 0, _ => []
  | n + 1, b => L.object (b.take L.size) :: objects n (b.drop L.size)

@[simp]
theorem length_memory (v : List α) : (L.memory v).length = v.length * L.size := by
  induction v with
  | nil => simp [memory]
  | cons a v ih =>
    have hcons : L.memory (a :: v) = L.bytes a ++ L.memory v := rfl
    rw [hcons, List.length_append, ih, L.length_bytes, List.length_cons, Nat.add_mul, Nat.one_mul,
      Nat.add_comm]

@[simp]
theorem length_objects (n : ℕ) (b : Bytes) : (L.objects n b).length = n := by
  induction n generalizing b with
  | zero => rfl
  | succ n ih => simp [objects, ih]

/-- An array is read back from its memory. -/
theorem objects_memory (v : List α) : L.objects v.length (L.memory v) = v := by
  induction v with
  | nil => rfl
  | cons a v ih =>
    have hcons : L.memory (a :: v) = L.bytes a ++ L.memory v := rfl
    rw [hcons, List.length_cons, objects, List.take_left' (L.length_bytes a),
      List.drop_left' (L.length_bytes a), L.object_bytes, ih]

end Layout

end Lib
