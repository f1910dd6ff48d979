import Naza.Json
import Naza.Seria

/-!
# Text in hexadecimal

`to_hex` and `from_hex` of `StringTools.cpp`, and `pod_to_hex`.
-/

open Lib

namespace Naza

open Json (fromHex)

/-- A digit of a lower case hexadecimal number. -/
def hexLetter (n : ℕ) : UInt8 := UInt8.ofNat (if n < 10 then 48 + n else 87 + n)

/-- `to_hex`. -/
def toHex (data : Bytes) : Bytes :=
  data.flatMap fun byte ↦ [hexLetter (byte.toNat / 16), hexLetter (byte.toNat % 16)]

/-- `from_hex` of a text. -/
def bytesFromHex : Bytes → Option Bytes
  | [] => some []
  | [_] => none
  | high :: low :: text => do
    let high ← fromHex high
    let low ← fromHex low
    let data ← bytesFromHex text
    some (UInt8.ofNat (high * 16 + low) :: data)

/-- `pod_to_hex`. -/
def podToHex (v : Pod32) : String :=
  String.ofList ((toHex (Seria.podBytes v)).map fun byte ↦ Char.ofNat byte.toNat)

theorem fromHex_hexLetter : ∀ n < 16, fromHex (hexLetter n) = some n := by
  decide

theorem bytesFromHex_toHex (data : Bytes) : bytesFromHex (toHex data) = some data := by
  induction data with
  | nil => rfl
  | cons byte data ih =>
    have hhigh := fromHex_hexLetter (byte.toNat / 16) (by have := byte.toNat_lt; omega)
    have hlow := fromHex_hexLetter (byte.toNat % 16) (Nat.mod_lt _ (by decide))
    rw [toHex, List.flatMap_cons, ← toHex, List.cons_append, List.cons_append, List.nil_append,
      bytesFromHex]
    simp only [hhigh, hlow, ih, Option.bind_eq_bind, Option.bind_some]
    rw [Nat.div_add_mod', UInt8.ofNat_toNat]

theorem length_toHex (data : Bytes) : (toHex data).length = data.length * 2 := by
  induction data with
  | nil => rfl
  | cons byte data ih =>
    rw [toHex, List.flatMap_cons, ← toHex, List.length_append, ih, List.length_cons]
    exact (Nat.succ_mul _ _).symm ▸ Nat.add_comm _ _

end Naza
