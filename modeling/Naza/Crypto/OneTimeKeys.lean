import Naza.Codec
import Naza.Crypto.Signatures

/-!
# One-time keys

Key derivations, and the keys of outputs that they give.  The sender derives from the view key of an
address and the secret key of a transaction, the receiver from the key of the transaction and its
own view key.
-/

open Lib

namespace Naza

open CryptoOps

namespace Curve

variable {P : Type} [AddCommGroup P] (cv : Curve P)

/-- `derivation_to_scalar`. -/
def derivationToScalar (derivation : Pod32) (outputIndex : ℕ) : Pod32 :=
  cv.hashToScalar (Seria.podBytes derivation ++ Seria.writeVarint outputIndex)

/-- `derive_public_key`. -/
def derivePublicKey (derivation : Pod32) (outputIndex : ℕ) (base : PublicKey) : Option PublicKey :=
  (cv.geFrombytesVartime base).map fun point ↦
    cv.geTobytes (point + cv.geScalarmultBase (cv.derivationToScalar derivation outputIndex))

/-- `underive_public_key`. -/
def underivePublicKey (derivation : Pod32) (outputIndex : ℕ) (derivedKey : PublicKey) :
    Option PublicKey :=
  (cv.geFrombytesVartime derivedKey).map fun point ↦
    cv.geTobytes (point - cv.geScalarmultBase (cv.derivationToScalar derivation outputIndex))

/-- `derive_secret_key`. -/
def deriveSecretKey (derivation : Pod32) (outputIndex : ℕ) (base : Pod32) : Pod32 :=
  cv.scAdd base (cv.derivationToScalar derivation outputIndex)

variable {cv}

theorem geFrombytes_eq_some_iff {b : Pod32} {p : P} :
    cv.geFrombytesVartime b = some p ↔ b = cv.geTobytes p := by
  constructor
  · exact fun h ↦ (cv.geTobytes_of_geFrombytes b p h).symm
  · rintro rfl
    exact cv.geFrombytes_geTobytes p

theorem reduced_derivationToScalar (derivation : Pod32) (outputIndex : ℕ) :
    Reduced (cv.derivationToScalar derivation outputIndex) := cv.reduced_hashToScalar _

/-- The two sides of a transaction derive the same. -/
theorem generateKeyDerivation_comm {sec sec' : Pod32} {pub pub' : PublicKey}
    (hkeys : cv.secretKeyToPublicKey sec = some pub)
    (hkeys' : cv.secretKeyToPublicKey sec' = some pub') :
    cv.generateKeyDerivation pub' sec = cv.generateKeyDerivation pub sec' := by
  obtain ⟨hsec, rfl⟩ := cv.secretKeyToPublicKey_eq_some_iff.1 hkeys
  obtain ⟨hsec', rfl⟩ := cv.secretKeyToPublicKey_eq_some_iff.1 hkeys'
  rw [generateKeyDerivation, generateKeyDerivation, cv.geFrombytes_geTobytes,
    cv.geFrombytes_geTobytes, Option.map_some, Option.map_some, geScalarmult_eq hsec,
    geScalarmult_eq hsec', smul_comm]

/-- A key is underived to a base exactly when it is derived from it. -/
theorem underivePublicKey_eq_some_iff {derivation : Pod32} {outputIndex : ℕ}
    {derivedKey base : PublicKey} :
    cv.underivePublicKey derivation outputIndex derivedKey = some base ↔
      cv.derivePublicKey derivation outputIndex base = some derivedKey := by
  simp only [underivePublicKey, derivePublicKey, Option.map_eq_some_iff, geFrombytes_eq_some_iff]
  generalize cv.geScalarmultBase (cv.derivationToScalar derivation outputIndex) = offset
  constructor
  · rintro ⟨point, rfl, rfl⟩
    exact ⟨point - offset, rfl, by rw [sub_add_cancel]⟩
  · rintro ⟨point, rfl, rfl⟩
    exact ⟨point + offset, rfl, by rw [add_sub_cancel_right]⟩

/-- The secret key that the receiver derives is that of the derived public key. -/
theorem secretKeyToPublicKey_deriveSecretKey {derivation sec : Pod32} {outputIndex : ℕ}
    {base derivedKey : PublicKey} (hkeys : cv.secretKeyToPublicKey sec = some base) :
    cv.secretKeyToPublicKey (cv.deriveSecretKey derivation outputIndex sec) = some derivedKey ↔
      cv.derivePublicKey derivation outputIndex base = some derivedKey := by
  obtain ⟨hsec, rfl⟩ := cv.secretKeyToPublicKey_eq_some_iff.1 hkeys
  have hscalar : Reduced (cv.derivationToScalar derivation outputIndex) :=
    reduced_derivationToScalar _ _
  have hvalue := cv.scAdd_eq _ _ hsec hscalar
  rw [cv.secretKeyToPublicKey_eq_some_iff, derivePublicKey, cv.geFrombytes_geTobytes,
    Option.map_some, Option.some_inj, cv.geScalarmultBase_eq hscalar, ← add_smul]
  rw [deriveSecretKey, hvalue, cv.inSubgroup_base.mod_nsmul]
  exact ⟨fun h ↦ h.2.symm, fun h ↦ ⟨cv.reduced_scAdd hsec hscalar, h.symm⟩⟩

end Curve

end Naza
