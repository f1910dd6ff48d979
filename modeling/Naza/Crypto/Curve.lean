import Naza.CanonicalCodec
import Naza.Crypto.ScalarMult

/-!
# The curve

What `crypto.cpp` uses of the curve.  The points form a commutative group; decoding, hashing to
points and the arithmetic of scalars modulo the group order are given by what they compute, and the
multiplications are those of `crypto-ops.c`.
-/

open Lib

namespace Naza

open CryptoOps

/-- The integer that a scalar stands for. -/
def scalarValue (s : Pod32) : ℕ := leValue (Seria.podBytes s)

/-- A scalar below the group order. -/
def Reduced (s : Pod32) : Prop := scalarValue s < groupOrder

/-- The curve with its encodings, and the hash function.  The order of every point divides eight
times the order of the base point; a point has one encoding, and nothing else decodes to it. -/
structure Curve (P : Type) [AddCommGroup P] where
  base : P
  nsmul_base_eq_zero_iff : ∀ n : ℕ, n • base = 0 ↔ groupOrder ∣ n
  nsmul_eq_zero : ∀ p : P, (8 * groupOrder) • p = 0
  geFrombytesVartime : Pod32 → Option P
  geTobytes : P → Pod32
  geFrombytes_geTobytes : ∀ p, geFrombytesVartime (geTobytes p) = some p
  geTobytes_of_geFrombytes : ∀ b p, geFrombytesVartime b = some p → geTobytes p = b
  geFromfeFrombytesVartime : Hash → P
  scReduce : Bytes → Pod32
  scReduce_eq : ∀ a, scalarValue (scReduce a) = leValue a % groupOrder
  scReduce32 : Pod32 → Pod32
  scReduce32_eq : ∀ s, scalarValue (scReduce32 s) = scalarValue s % groupOrder
  scAdd : Pod32 → Pod32 → Pod32
  scAdd_eq : ∀ a b, Reduced a → Reduced b →
    scalarValue (scAdd a b) = (scalarValue a + scalarValue b) % groupOrder
  scSub : Pod32 → Pod32 → Pod32
  scSub_eq : ∀ a b, Reduced a → Reduced b →
    (scalarValue (scSub a b) : ℤ) = (scalarValue a - scalarValue b : ℤ) % groupOrder
  scMulsub : Pod32 → Pod32 → Pod32 → Pod32
  scMulsub_eq : ∀ a b c, Reduced a → Reduced b → Reduced c →
    (scalarValue (scMulsub a b c) : ℤ) =
      (scalarValue c - scalarValue a * scalarValue b : ℤ) % groupOrder
  cnFastHash : Bytes → Hash

/-! ## Scalars -/

theorem leValue_inj {a b : Bytes} (hlength : a.length = b.length) (h : leValue a = leValue b) :
    a = b := by
  induction a generalizing b with
  | nil => exact (List.length_eq_zero_iff.1 hlength.symm).symm
  | cons x a ih =>
    cases b with
    | nil => cases hlength
    | cons y b =>
      have hx := x.toNat_lt
      have hy := y.toNat_lt
      rw [leValue, leValue] at h
      rw [UInt8.toNat_inj.1 (show x.toNat = y.toNat by omega),
        ih (Nat.succ.inj hlength) (by omega)]

theorem scalarValue_inj {s t : Pod32} (h : scalarValue s = scalarValue t) : s = t := by
  have hbytes := leValue_inj (by rw [Seria.length_podBytes, Seria.length_podBytes]) h
  rw [← Seria.podOfBytes_podBytes s, hbytes, Seria.podOfBytes_podBytes]

theorem scalarValue_zero : scalarValue 0 = 0 := by decide +kernel

theorem groupOrder_pos : 0 < groupOrder := by
  unfold groupOrder
  omega

theorem reduced_zero : Reduced 0 := by
  rw [Reduced, scalarValue_zero]
  exact groupOrder_pos

/-- `sc_isvalid_vartime`. -/
def scIsvalid (s : Pod32) : Bool := scIsvalidVartime (Seria.podBytes s)

theorem scIsvalid_iff {s : Pod32} : scIsvalid s = true ↔ Reduced s :=
  scIsvalidVartime_iff (Seria.length_podBytes s)

/-- `sc_iszero`. -/
def scIszero (s : Pod32) : Bool := (Seria.podBytes s).all (· = 0)

theorem scIszero_iff {s : Pod32} : scIszero s = true ↔ scalarValue s = 0 := by
  have hvalue : ∀ bytes : Bytes, bytes.all (· = 0) = true ↔ leValue bytes = 0 := by
    intro bytes
    induction bytes with
    | nil => simp [leValue]
    | cons byte bytes ih =>
      rw [List.all_cons, Bool.and_eq_true, ih, leValue, decide_eq_true_iff, ← UInt8.toNat_inj,
        UInt8.toNat_zero]
      omega
  exact hvalue _

theorem Reduced.lt {s : Pod32} (h : Reduced s) : scalarValue s < 2 ^ 255 := by
  unfold Reduced groupOrder at h
  omega

namespace Curve

variable {P : Type} [AddCommGroup P] (cv : Curve P)

theorem reduced_scReduce (a : Bytes) : Reduced (cv.scReduce a) := by
  rw [Reduced, cv.scReduce_eq]
  exact Nat.mod_lt _ groupOrder_pos

theorem reduced_scReduce32 (s : Pod32) : Reduced (cv.scReduce32 s) := by
  rw [Reduced, cv.scReduce32_eq]
  exact Nat.mod_lt _ groupOrder_pos

theorem reduced_scAdd {a b : Pod32} (ha : Reduced a) (hb : Reduced b) :
    Reduced (cv.scAdd a b) := by
  rw [Reduced, cv.scAdd_eq a b ha hb]
  exact Nat.mod_lt _ groupOrder_pos

theorem reduced_scSub {a b : Pod32} (ha : Reduced a) (hb : Reduced b) :
    Reduced (cv.scSub a b) := by
  have h := cv.scSub_eq a b ha hb
  have hlt := Int.emod_lt_of_pos (scalarValue a - scalarValue b : ℤ)
    (Int.natCast_pos.2 groupOrder_pos)
  unfold Reduced
  omega

theorem reduced_scMulsub {a b c : Pod32} (ha : Reduced a) (hb : Reduced b) (hc : Reduced c) :
    Reduced (cv.scMulsub a b c) := by
  have h := cv.scMulsub_eq a b c ha hb hc
  have hlt := Int.emod_lt_of_pos (scalarValue c - scalarValue a * scalarValue b : ℤ)
    (Int.natCast_pos.2 groupOrder_pos)
  unfold Reduced
  omega

/-- `hash_to_scalar`. -/
def hashToScalar (data : Bytes) : Pod32 := cv.scReduce32 (cv.cnFastHash data)

theorem reduced_hashToScalar (data : Bytes) : Reduced (cv.hashToScalar data) :=
  cv.reduced_scReduce32 _

/-! ## Points -/

/-- A point of the subgroup that the base point generates. -/
def InSubgroup (p : P) : Prop := groupOrder • p = 0

theorem inSubgroup_base : InSubgroup cv.base := (cv.nsmul_base_eq_zero_iff _).2 dvd_rfl

theorem InSubgroup.nsmul {p : P} (h : InSubgroup p) (n : ℕ) : InSubgroup (n • p) := by
  rw [InSubgroup, smul_comm, h, smul_zero]

/-- Multiples of a point of the subgroup depend on the scalar modulo the group order. -/
theorem InSubgroup.emod_zsmul {p : P} (h : InSubgroup p) (n : ℤ) :
    (n % (groupOrder : ℤ)) • p = n • p := by
  have hzero : (groupOrder : ℤ) • p = 0 := by rw [natCast_zsmul, h]
  conv_rhs => rw [← Int.emod_add_mul_ediv n groupOrder]
  rw [add_smul, mul_comm, mul_smul, hzero, smul_zero, add_zero]

theorem InSubgroup.nsmul_eq {p : P} (h : InSubgroup p) {m : ℕ} {n : ℤ}
    (hm : (m : ℤ) = n % groupOrder) : m • p = n • p := by
  rw [← natCast_zsmul, hm, h.emod_zsmul]

theorem InSubgroup.mod_nsmul {p : P} (h : InSubgroup p) (n : ℕ) :
    (n % groupOrder) • p = n • p := by
  rw [h.nsmul_eq (n := n) (by rw [Int.natCast_mod]), natCast_zsmul]

/-- Different encodings are different points. -/
theorem geTobytes_inj {p q : P} (h : cv.geTobytes p = cv.geTobytes q) : p = q := by
  have hp := cv.geFrombytes_geTobytes p
  rw [h, cv.geFrombytes_geTobytes] at hp
  exact (Option.some.inj hp).symm

/-- `ge_scalarmult_base`, with the table of multiples of the base point. -/
def geScalarmultBase (s : Pod32) : P :=
  CryptoOps.geScalarmultBase (baseRows cv.base 32) (Seria.podBytes s)

/-- `ge_scalarmult`. -/
def geScalarmult (s : Pod32) (p : P) : P := CryptoOps.geScalarmult (Seria.podBytes s) p

/-- `ge_double_scalarmult_precomp_vartime` on the table of a point. -/
def geDoubleScalarmultPrecomp (a : Pod32) (p : P) (b : Pod32) (q : P) : P :=
  geDoubleScalarmultPrecompVartime (Seria.podBytes a) p (Seria.podBytes b) (geDsmPrecomp q)

/-- `ge_double_scalarmult_base_vartime`, whose table `ge_Bi` is that of the base point. -/
def geDoubleScalarmultBase (a : Pod32) (p : P) (b : Pod32) : P :=
  geDoubleScalarmultPrecomp a p b cv.base

theorem geScalarmultBase_eq {s : Pod32} (hs : Reduced s) :
    cv.geScalarmultBase s = scalarValue s • cv.base :=
  CryptoOps.geScalarmultBase_eq (Seria.length_podBytes s) hs.lt cv.base

theorem geScalarmult_eq {s : Pod32} (hs : Reduced s) (p : P) :
    geScalarmult s p = scalarValue s • p :=
  CryptoOps.geScalarmult_eq (Seria.length_podBytes s) hs.lt p

theorem geDoubleScalarmultPrecomp_eq {a b : Pod32} (ha : Reduced a) (hb : Reduced b) (p q : P) :
    geDoubleScalarmultPrecomp a p b q = scalarValue a • p + scalarValue b • q :=
  geDoubleScalarmultPrecompVartime_eq (Seria.length_podBytes a) (Seria.length_podBytes b)
    ha.lt.le hb.lt.le p q

/-- `hash_to_ec`. -/
def hashToEc (key : PublicKey) : P :=
  geMul8 (cv.geFromfeFrombytesVartime (cv.cnFastHash (Seria.podBytes key)))

theorem inSubgroup_geMul8 (cv : Curve P) (p : P) : InSubgroup (geMul8 p) := by
  rw [InSubgroup, geMul8_eq, ← mul_nsmul, cv.nsmul_eq_zero]

theorem inSubgroup_hashToEc (key : PublicKey) : InSubgroup (cv.hashToEc key) :=
  cv.inSubgroup_geMul8 _

/-! ## Keys -/

/-- `key_isvalid`. -/
def keyIsvalid (key : PublicKey) : Bool := (cv.geFrombytesVartime key).isSome

@[simp]
theorem keyIsvalid_geTobytes (p : P) : cv.keyIsvalid (cv.geTobytes p) = true := by
  rw [keyIsvalid, cv.geFrombytes_geTobytes, Option.isSome_some]

/-- `secret_key_to_public_key`. -/
def secretKeyToPublicKey (sec : Pod32) : Option PublicKey :=
  if scIsvalid sec = true then some (cv.geTobytes (cv.geScalarmultBase sec)) else none

/-- `keys_match`. -/
def keysMatch (secretKey : Pod32) (expectedPublicKey : PublicKey) : Bool :=
  cv.secretKeyToPublicKey secretKey = some expectedPublicKey

theorem secretKeyToPublicKey_eq_some_iff {sec : Pod32} {pub : PublicKey} :
    cv.secretKeyToPublicKey sec = some pub ↔
      Reduced sec ∧ pub = cv.geTobytes (scalarValue sec • cv.base) := by
  rw [secretKeyToPublicKey]
  split
  · next hvalid =>
    rw [cv.geScalarmultBase_eq (scIsvalid_iff.1 hvalid), Option.some_inj, eq_comm]
    exact ⟨fun h ↦ ⟨scIsvalid_iff.1 hvalid, h⟩, And.right⟩
  · next hinvalid =>
    refine iff_of_false (by simp) fun h ↦ hinvalid (scIsvalid_iff.2 h.1)

/-- `generate_key_image`. -/
def generateKeyImage (pub : PublicKey) (sec : Pod32) : KeyImage :=
  cv.geTobytes (geScalarmult sec (cv.hashToEc pub))

/-! ## Numbers in place of points -/

theorem leValue_eq (bs : Bytes) : leValue bs = bytesToNat bs.reverse := by
  induction bs with
  | nil => rfl
  | cons byte bs ih =>
    rw [leValue, ih, List.reverse_cons, bytesToNat, bytesToNat, List.foldl_append]
    simp only [List.foldl_cons, List.foldl_nil]
    ring

/-- The scalar of a number. -/
def scalarOf (n : ℕ) : Pod32 := Seria.podOfBytes (natToBytes 32 n).reverse

theorem scalarValue_scalarOf {n : ℕ} (h : n < 2 ^ 256) : scalarValue (scalarOf n) = n := by
  rw [scalarValue, scalarOf, Seria.podBytes_podOfBytes (by simp), leValue_eq, List.reverse_reverse,
    bytesToNat_natToBytes, Nat.mod_eq_of_lt (show n < 256 ^ 32 from h)]

theorem mod_groupOrder_lt (n : ℕ) : n % groupOrder < 2 ^ 256 := by
  have h := Nat.mod_lt n groupOrder_pos
  unfold groupOrder at h ⊢
  omega

/-- The difference that the natural numbers reach by going once around. -/
theorem natCast_add_sub_mod {x y : ℕ} (hy : y ≤ groupOrder) :
    (((x + (groupOrder - y)) % groupOrder : ℕ) : ℤ) = (x - y : ℤ) % groupOrder := by
  rw [Int.natCast_mod, Int.natCast_add, Int.natCast_sub hy,
    show (x + (groupOrder - y) : ℤ) = x - y + groupOrder by ring, Int.add_emod_right]

theorem eight_groupOrder_lt : 8 * groupOrder < 2 ^ 256 := by
  unfold groupOrder
  omega

instance neZero_eight_groupOrder : NeZero (8 * groupOrder) :=
  ⟨Nat.mul_ne_zero (by decide) groupOrder_pos.ne'⟩

/-- The laws hold of the numbers modulo eight times the group order, where eight generates the
subgroup. -/
def numbers : Curve (ZMod (8 * groupOrder)) where
  base := 8
  nsmul_base_eq_zero_iff n := by
    have h : n • (8 : ZMod (8 * groupOrder)) = ((8 * n : ℕ) : ZMod (8 * groupOrder)) := by
      rw [nsmul_eq_mul, Nat.cast_mul, Nat.cast_ofNat]
      exact mul_comm _ _
    rw [h, ZMod.natCast_eq_zero_iff, Nat.mul_dvd_mul_iff_left (by decide)]
  nsmul_eq_zero p := by rw [nsmul_eq_mul, ZMod.natCast_self, zero_mul]
  geFrombytesVartime b :=
    if b.val < 8 * groupOrder then some (b.val : ZMod (8 * groupOrder)) else none
  geTobytes p := Fin.ofNat (2 ^ 256) p.val
  geFrombytes_geTobytes p := by
    have hval : (Fin.ofNat (2 ^ 256) p.val).val = p.val :=
      Nat.mod_eq_of_lt (p.val_lt.trans eight_groupOrder_lt)
    rw [hval, if_pos p.val_lt, ZMod.natCast_zmod_val]
  geTobytes_of_geFrombytes b p h := by
    obtain ⟨hlt, hsome⟩ := Option.ite_none_right_eq_some.1 h
    obtain rfl := Option.some.inj hsome
    refine Fin.ext ?_
    rw [Fin.val_ofNat, ZMod.val_natCast, Nat.mod_eq_of_lt hlt, Nat.mod_eq_of_lt b.isLt]
  geFromfeFrombytesVartime h := h.val
  scReduce a := scalarOf (leValue a % groupOrder)
  scReduce_eq a := scalarValue_scalarOf (mod_groupOrder_lt _)
  scReduce32 s := scalarOf (scalarValue s % groupOrder)
  scReduce32_eq s := scalarValue_scalarOf (mod_groupOrder_lt _)
  scAdd a b := scalarOf ((scalarValue a + scalarValue b) % groupOrder)
  scAdd_eq a b _ _ := scalarValue_scalarOf (mod_groupOrder_lt _)
  scSub a b := scalarOf ((scalarValue a + (groupOrder - scalarValue b)) % groupOrder)
  scSub_eq a b _ hb := by
    rw [scalarValue_scalarOf (mod_groupOrder_lt _), natCast_add_sub_mod (le_of_lt hb)]
  scMulsub a b c := scalarOf
    ((scalarValue c + (groupOrder - scalarValue a * scalarValue b % groupOrder)) % groupOrder)
  scMulsub_eq a b c _ _ _ := by
    rw [scalarValue_scalarOf (mod_groupOrder_lt _),
      natCast_add_sub_mod (Nat.mod_lt _ groupOrder_pos).le, Int.natCast_mod, Int.natCast_mul,
      Int.sub_emod_emod]
  cnFastHash bytes := Fin.ofNat (2 ^ 256) (leValue bytes)

/-! ## Agreement -/

/-- The multiplications by windows, by signed digits and by the table of the base point compute the
same, for all scalars that are accepted. -/
theorem multiplications_agree {a b : Pod32} (ha : scIsvalid a = true) (hb : scIsvalid b = true)
    (p q : P) :
    geDoubleScalarmultPrecomp a p b q = geScalarmult a p + geScalarmult b q ∧
      cv.geDoubleScalarmultBase a p b = geScalarmult a p + cv.geScalarmultBase b ∧
      cv.geScalarmultBase b = geScalarmult b cv.base := by
  have ha := scIsvalid_iff.1 ha
  have hb := scIsvalid_iff.1 hb
  refine ⟨?_, ?_, ?_⟩
  · rw [geDoubleScalarmultPrecomp_eq ha hb, geScalarmult_eq ha, geScalarmult_eq hb]
  · rw [geDoubleScalarmultBase, geDoubleScalarmultPrecomp_eq ha hb, geScalarmult_eq ha,
      cv.geScalarmultBase_eq hb]
  · rw [cv.geScalarmultBase_eq hb, geScalarmult_eq hb]

theorem multiplications_agree_numbers :
    geDoubleScalarmultPrecomp (scalarOf 1000) (5 : ZMod (8 * groupOrder)) (scalarOf 77) 3 =
        geScalarmult (scalarOf 1000) 5 + geScalarmult (scalarOf 77) 3 ∧
      numbers.geDoubleScalarmultBase (scalarOf 1000) 5 (scalarOf 77) =
        geScalarmult (scalarOf 1000) 5 + numbers.geScalarmultBase (scalarOf 77) ∧
      numbers.geScalarmultBase (scalarOf 77) = geScalarmult (scalarOf 77) numbers.base :=
  numbers.multiplications_agree (by decide +kernel) (by decide +kernel) 5 3

end Curve

end Naza
