import Naza.Serialization

/-!
# Round trips of the binary format

A reader turns what the writer wrote back into the same value: integers, byte arrays, vectors and
the raw blocks in which blocks are stored.
-/

open Lib

namespace Naza.Seria

/-! ## Integers -/

/-- Reading on in the middle of an integer whose lower bits are `temp`. -/
theorem readVarintFrom_writeVarintBytes {bits : ℕ} (fuel shift temp i : ℕ) (rest : Bytes)
    (hi : i < 2 ^ (bits - shift)) (hfuel : i < 2 ^ (7 * (fuel + 1)))
    (hpos : shift ≠ 0 → i ≠ 0) :
    readVarintFrom bits shift temp (writeVarintBytes (fuel + 1) i ++ rest) =
      some (temp + i * 2 ^ shift, rest) := by
  induction fuel generalizing shift temp i with
  | zero =>
    have hlt : i < 0x80 := by simpa using hfuel
    have hpiece : (UInt8.ofNat i).toNat = i := by
      simp only [UInt8.toNat_ofNat']
      omega
    have hzero : UInt8.ofNat i = 0 → i = 0 := fun h ↦ by
      rw [← hpiece, h]
      rfl
    rw [writeVarintBytes, if_pos hlt, List.singleton_append, readVarintFrom, hpiece,
      if_neg (by omega), if_pos hlt, if_neg fun h ↦ hpos h.2 (hzero h.1), Nat.mod_eq_of_lt hlt]
  | succ fuel ih =>
    by_cases hlt : i < 0x80
    · have hpiece : (UInt8.ofNat i).toNat = i := by
        simp only [UInt8.toNat_ofNat']
        omega
      have hzero : UInt8.ofNat i = 0 → i = 0 := fun h ↦ by
        rw [← hpiece, h]
        rfl
      rw [writeVarintBytes, if_pos hlt, List.singleton_append, readVarintFrom, hpiece,
        if_neg (by omega), if_pos hlt, if_neg fun h ↦ hpos h.2 (hzero h.1), Nat.mod_eq_of_lt hlt]
    · have hpiece : (UInt8.ofNat (i % 0x80 + 0x80)).toNat = i % 0x80 + 0x80 := by
        simp only [UInt8.toNat_ofNat']
        omega
      -- a continued integer leaves at least eight bits
      have hbits : 7 < bits - shift := by
        by_contra hle
        have := Nat.pow_le_pow_right (n := 2) (by norm_num) (Nat.le_of_not_lt hle)
        omega
      have hsplit : 2 ^ (bits - shift) = 2 ^ (bits - (shift + 7)) * 2 ^ 7 := by
        rw [← pow_add]
        congr 1
        omega
      rw [writeVarintBytes, if_neg hlt, List.cons_append, readVarintFrom, hpiece,
        if_neg (by omega), if_neg (by omega), ih (shift + 7) _ (i / 0x80) (by omega)
          (by rw [show 7 * (fuel + 1 + 1) = 7 * (fuel + 1) + 7 by ring, pow_add] at hfuel; omega)
          (fun _ ↦ by omega)]
      have hmod : (i % 0x80 + 0x80) % 0x80 = i % 0x80 := by omega
      have hdiv : i = i % 0x80 + i / 0x80 * 0x80 := by omega
      rw [hmod, pow_add]
      congr 2
      conv_rhs => rw [hdiv]
      ring

/-- An integer is read back from its own bytes, whatever follows them. -/
theorem readVarint_writeVarint {bits n : ℕ} (hn : n < 2 ^ bits) (hbits : bits ≤ 64) (rest : Bytes) :
    readVarint bits (writeVarint n ++ rest) = some (n, rest) := by
  have hfuel : n < 2 ^ (7 * (9 + 1)) :=
    hn.trans_le (Nat.pow_le_pow_right (by norm_num) (by omega))
  have h := @readVarintFrom_writeVarintBytes bits 9 0 0 n rest (by simpa using hn) hfuel
    (fun h ↦ absurd rfl h)
  simpa [readVarint, writeVarint] using h

theorem reads_serVarint {α : Type} {bits n : ℕ} {ofNat : ℕ → α} (a : α) (hn : n < 2 ^ bits)
    (hbits : bits ≤ 64) : Reader.Reads (serVarint bits ofNat) (writeVarint n) a (ofNat n) := by
  intro rest
  simp only [serVarint, readVarint_writeVarint hn hbits]

theorem reads_serUInt8 (a v : UInt8) : Reader.Reads serUInt8 (writeVarint v.toNat) a v := by
  have h := @reads_serVarint _ _ _ UInt8.ofNat a v.toNat_lt (by norm_num)
  rwa [UInt8.ofNat_toNat] at h

theorem reads_serUInt32 (a v : UInt32) : Reader.Reads serUInt32 (writeVarint v.toNat) a v := by
  have h := @reads_serVarint _ _ _ UInt32.ofNat a v.toNat_lt (by norm_num)
  rwa [UInt32.ofNat_toNat] at h

theorem reads_serUInt64 (a v : UInt64) : Reader.Reads serUInt64 (writeVarint v.toNat) a v := by
  have h := @reads_serVarint _ _ _ UInt64.ofNat a v.toNat_lt (by norm_num)
  rwa [UInt64.ofNat_toNat] at h

/-! ## Arrays -/

theorem reads_serBinaryArray (a v : BinaryArray) (hv : v.length < 2 ^ 64) :
    Reader.Reads serBinaryArray (binaryArrayBytes v) a v := by
  intro rest
  have hle : v.length ≤ (v ++ rest).length := by simp
  simp only [serBinaryArray, binaryArrayBytes, List.append_assoc,
    readVarint_writeVarint hv (le_refl 64), if_pos hle, List.take_left, List.drop_left]

/-- A vector is read back when each of its elements is. -/
theorem reads_serVector {α : Type} {elementSize : ℕ} {fresh : α} {r : Reader α} {w : α → Bytes}
    (a v : List α) (hmax : v.length ≤ maxVectorSize elementSize)
    (h : ∀ x ∈ v, Reader.Reads r (w x) fresh x) :
    Reader.Reads (serVector elementSize fresh r) (vectorBytes w v) a v := by
  intro rest
  have hlt : v.length < 2 ^ 64 := by
    have hdiv : maxVectorSize elementSize ≤ 2 ^ 63 - 1 := Nat.div_le_self _ _
    omega
  have helements : List.Forall₂ (fun x bs ↦ Reader.Reads r bs fresh x) v (v.map w) := by
    rw [List.forall₂_map_right_iff, List.forall₂_same]
    exact h
  simp only [serVector, vectorBytes, List.append_assoc, readVarint_writeVarint hlt (le_refl 64),
    if_neg (Nat.not_lt.2 hmax), Reader.elements_flatten helements]

/-! ## Raw blocks -/

theorem reads_serRawBlock (raw : RawBlock) (h : raw.FitsMemory) :
    Reader.Reads serRawBlock (rawBlockBytes raw) {} raw := by
  obtain ⟨hblock, hcount, htxs⟩ := h
  have hmax : raw.transactions.length ≤ maxVectorSize 24 := by
    rw [maxVectorSize, Nat.le_div_iff_mul_le (by norm_num)]
    omega
  exact Reader.Reads.andThen
    (Reader.Reads.field (reads_serBinaryArray _ _ (by omega)))
    (Reader.Reads.field (reads_serVector _ _ hmax fun tx htx ↦
      reads_serBinaryArray _ _ (by have := htxs tx htx; omega)))

/-- The bytes a block is stored in decode to the same raw block. -/
theorem fromBinary_rawBlockBytes (raw : RawBlock) (h : raw.FitsMemory) :
    fromBinary serRawBlock {} (rawBlockBytes raw) = (raw, true) := by
  have hread := reads_serRawBlock raw h []
  rw [List.append_nil] at hread
  simp only [fromBinary, hread]

end Naza.Seria
