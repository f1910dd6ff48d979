import Naza.Crypto.GroupOrder
import Naza.Crypto.OneTimeKeys

/-!
# What an accepted signature says

Two accepted signatures with the same commitments and different challenges give away the secret that
they were made with.  For a ring it is the secret key of a member, and the key image is the one that
belongs to this member.
-/

open Lib

namespace Naza

open CryptoOps

/-- The solution of the equations of a commitment for two challenges, modulo the group order. -/
theorem exists_secret {c c' r r' : Pod32} (hc : Reduced c) (hc' : Reduced c') (hne : c ≠ c') :
    ∃ sec, Reduced sec ∧ ∀ {P : Type} [AddCommGroup P] {p q : P},
      Curve.InSubgroup p → Curve.InSubgroup q →
      scalarValue c • p + scalarValue r • q = scalarValue c' • p + scalarValue r' • q →
      p = scalarValue sec • q := by
  have hcoprime : IsCoprime ((scalarValue c : ℤ) - scalarValue c') (groupOrder : ℤ) := by
    rw [Int.isCoprime_iff_gcd_eq_one, Int.gcd_comm, Int.gcd_eq_natAbs, Int.natAbs_natCast]
    refine (Nat.Prime.coprime_iff_not_dvd prime_groupOrder).2 fun hdvd ↦ ?_
    have hvalue : scalarValue c ≠ scalarValue c' := fun h ↦ hne (scalarValue_inj h)
    unfold Reduced at hc hc'
    have hle := Nat.le_of_dvd (by omega) hdvd
    omega
  obtain ⟨e, f, hef⟩ := hcoprime
  have hpos : (0 : ℤ) < groupOrder := Int.natCast_pos.2 groupOrder_pos
  set n := e * ((scalarValue r' : ℤ) - scalarValue r) % groupOrder with hn
  have hnonneg : 0 ≤ n := Int.emod_nonneg _ hpos.ne'
  have hlt : n < groupOrder := Int.emod_lt_of_pos _ hpos
  have hvalue : scalarValue (Curve.scalarOf n.toNat) = n.toNat := by
    refine Curve.scalarValue_scalarOf ?_
    have := Curve.eight_groupOrder_lt
    omega
  refine ⟨Curve.scalarOf n.toNat, ?_, ?_⟩
  · rw [Reduced, hvalue]
    omega
  · intro P _ p q hp hq heq
    have hdiff : ((scalarValue c : ℤ) - scalarValue c') • p =
        ((scalarValue r' : ℤ) - scalarValue r) • q := by
      rw [sub_smul, sub_smul, natCast_zsmul, natCast_zsmul, natCast_zsmul, natCast_zsmul,
        sub_eq_sub_iff_add_eq_add, heq, add_comm]
    have hone : p = (e * ((scalarValue c : ℤ) - scalarValue c')) • p := by
      have hzero : (f * (groupOrder : ℤ)) • p = 0 := by
        rw [mul_smul, natCast_zsmul, hp, smul_zero]
      rw [← add_zero (_ • p), ← hzero, ← add_smul, hef, one_smul]
    rw [hone, mul_smul, hdiff, ← mul_smul, ← hq.emod_zsmul, ← hn, hvalue, ← natCast_zsmul,
      Int.toNat_of_nonneg hnonneg]

/-- The secret of a point is one only, up to points of small order. -/
theorem Curve.eight_smul_base_inj {P : Type} [AddCommGroup P] (cv : Curve P) {sec sec' : Pod32}
    (hsec : Reduced sec) (hsec' : Reduced sec')
    (h : 8 • scalarValue sec • cv.base = 8 • scalarValue sec' • cv.base) : sec = sec' := by
  have hdvd : ∀ {a b : ℕ}, a ≤ b → b < groupOrder →
      8 • a • cv.base = 8 • b • cv.base → a = b := by
    intro a b hle hlt hab
    have hzero : (8 * (b - a)) • cv.base = 0 := by
      have hsub : 8 * (b - a) + 8 * a = 8 * b := by omega
      rw [← mul_nsmul', ← mul_nsmul', ← hsub, add_nsmul, eq_comm] at hab
      exact add_eq_right.1 hab
    have hdvd := (cv.nsmul_base_eq_zero_iff _).1 hzero
    have hcoprime : Nat.Coprime groupOrder 8 := by decide +kernel
    have hle' := hcoprime.dvd_of_dvd_mul_left hdvd
    by_contra hne
    have := Nat.le_of_dvd (by omega) hle'
    omega
  unfold Reduced at hsec hsec'
  obtain hle | hle := le_total (scalarValue sec) (scalarValue sec')
  · exact scalarValue_inj (hdvd hle hsec' h)
  · exact (scalarValue_inj (hdvd hle hsec h.symm)).symm

namespace Curve

variable {P : Type} [AddCommGroup P] {cv : Curve P}

/-- What the loop of `check_ring_signature` accepts. -/
theorem checkRingLoop_eq_ok {image : P} {pubs : List PublicKey} {sigs : List Signature}
    (hlength : sigs.length = pubs.length) {sum sum' : Pod32} {ab ab' : List (Pod32 × Pod32)}
    (h : cv.checkRingLoop image pubs sigs sum ab = .ok (sum', ab')) :
    ∃ abs : List (Pod32 × Pod32), ab' = ab ++ abs ∧ abs.length = pubs.length ∧
      ∀ e ∈ pubs.zip (sigs.zip abs), cv.Passes image e.1 e.2.1 e.2.2 := by
  induction pubs generalizing sigs sum ab with
  | nil =>
    obtain ⟨-, rfl⟩ := Prod.mk.inj (Except.ok.inj h)
    exact ⟨[], (List.append_nil _).symm, rfl, by simp⟩
  | cons pub pubs ih =>
    obtain ⟨sig, sigs, rfl⟩ := List.exists_cons_of_length_eq_add_one hlength
    by_cases hvalid : scIsvalid sig.c = true ∧ scIsvalid sig.r = true
    swap
    · simp only [checkRingLoop, List.headD_cons, hvalid, not_false_eq_true, if_true,
        reduceCtorEq] at h
    obtain ⟨hc, hr⟩ := hvalid
    simp only [checkRingLoop, List.headD_cons, List.tail_cons, hc, hr, and_self,
      not_true_eq_false, if_false] at h
    split at h
    · cases h
    next point hpoint =>
    obtain ⟨abs, rfl, habs, hpasses⟩ := ih (Nat.succ.inj hlength) h
    refine ⟨cv.commitment image pub point sig :: abs, by simp, by simp [habs], ?_⟩
    rw [List.zip_cons_cons, List.zip_cons_cons]
    exact List.forall_mem_cons.2
      ⟨⟨scIsvalid_iff.1 hc, scIsvalid_iff.1 hr, point, hpoint, rfl⟩, hpasses⟩

theorem checkRingLoop_ne_valid {image : P} {pubs : List PublicKey} {sigs : List Signature}
    {sum : Pod32} {ab : List (Pod32 × Pod32)} :
    cv.checkRingLoop image pubs sigs sum ab ≠ .error .valid := by
  induction pubs generalizing sigs sum ab with
  | nil => simp [checkRingLoop]
  | cons pub pubs ih =>
    rw [checkRingLoop]
    split
    · simp
    · split
      · simp
      · exact ih

/-- Two members with one key and one commitment, but different challenges. -/
theorem Passes.exists_secret {image : P} (himage : InSubgroup image) {pub : PublicKey}
    {sig sig' : Signature} {ab : Pod32 × Pod32} (h : cv.Passes image pub sig ab)
    (h' : cv.Passes image pub sig' ab) (hne : sig.c ≠ sig'.c) :
    ∃ point sec, cv.geFrombytesVartime pub = some point ∧ Reduced sec ∧
      8 • point = 8 • scalarValue sec • cv.base ∧ image = scalarValue sec • cv.hashToEc pub := by
  obtain ⟨hc, hr, point, hpoint, rfl⟩ := h
  obtain ⟨hc', hr', point', hpoint', hab⟩ := h'
  obtain rfl := Option.some.inj (hpoint.symm.trans hpoint')
  obtain ⟨ha, hb⟩ := Prod.mk.inj hab
  replace ha := cv.geTobytes_inj ha
  replace hb := cv.geTobytes_inj hb
  rw [geDoubleScalarmultBase, geDoubleScalarmultBase, geDoubleScalarmultPrecomp_eq hc hr,
    geDoubleScalarmultPrecomp_eq hc' hr'] at ha
  rw [geDoubleScalarmultPrecomp_eq hr hc, geDoubleScalarmultPrecomp_eq hr' hc', add_comm,
    add_comm (_ • cv.hashToEc pub)] at hb
  obtain ⟨sec, hsec, hsecret⟩ := @Naza.exists_secret _ _ sig.r sig'.r hc hc' hne
  have hsmall : InSubgroup (8 • point) := geMul8_eq point ▸ cv.inSubgroup_geMul8 point
  refine ⟨point, sec, hpoint, hsec, ?_, hsecret himage (cv.inSubgroup_hashToEc pub) hb⟩
  rw [smul_comm 8 (scalarValue sec) cv.base]
  refine hsecret hsmall (cv.inSubgroup_base.nsmul 8) ?_
  have height := congrArg (8 • ·) ha
  simpa only [smul_add, smul_comm 8] using height

/-- The commitments that `check_ring_signature` hashes, where its loop comes to its end. -/
def commitments (cv : Curve P) (image : KeyImage) (pubs : List PublicKey) (sigs : List Signature) :
    Option (List (Pod32 × Pod32)) :=
  match cv.geFrombytesVartime image with
  | none => none
  | some imageUnp =>
    match cv.checkRingLoop imageUnp pubs sigs 0 [] with
    | .error _ => none
    | .ok (_, ab) => some ab

/-- An accepted ring signature has come through the loop, and its image through its check. -/
theorem of_checkRingSignature_valid [DecidableEq P] {prefixHash : Hash} {image : KeyImage}
    {pubs : List PublicKey} {sigs : List Signature} (hlength : sigs.length = pubs.length)
    (h : cv.checkRingSignature prefixHash image pubs sigs true = .valid) :
    ∃ imageUnp abs, image = cv.geTobytes imageUnp ∧ InSubgroup imageUnp ∧
      cv.commitments image pubs sigs = some abs ∧ abs.length = pubs.length ∧
      ∀ e ∈ pubs.zip (sigs.zip abs), cv.Passes imageUnp e.1 e.2.1 e.2.2 := by
  rw [checkRingSignature] at h
  split at h
  · cases h
  next imageUnp himage =>
  split at h
  · cases h
  next hcheck =>
  split at h
  · next check hloop => exact absurd (h ▸ hloop) checkRingLoop_ne_valid
  · next sum ab hloop =>
    obtain ⟨abs, habs, habslength, hpasses⟩ := checkRingLoop_eq_ok hlength hloop
    rw [List.nil_append] at habs
    subst habs
    refine ⟨imageUnp, ab, geFrombytes_eq_some_iff.1 himage, ?_, ?_, habslength, hpasses⟩
    · exact (geCheckSubgroupPrecompVartime_iff _).1 (by simpa using hcheck)
    · rw [commitments, himage]
      simp only [hloop]

theorem exists_getElem? {α : Type} {l : List α} {i : ℕ} (h : i < l.length) :
    ∃ a, l[i]? = some a :=
  ⟨_, List.getElem?_eq_getElem h⟩

theorem exists_map_ne {α β : Type} {as bs : List α} {f : α → β}
    (hlength : as.length = bs.length) (h : as.map f ≠ bs.map f) :
    ∃ (i : ℕ) (a b : α), as[i]? = some a ∧ bs[i]? = some b ∧ f a ≠ f b := by
  induction as generalizing bs with
  | nil =>
    obtain rfl := List.length_eq_zero_iff.1 hlength.symm
    exact absurd rfl h
  | cons a as ih =>
    obtain ⟨b, bs, rfl⟩ := List.exists_cons_of_length_eq_add_one hlength.symm
    by_cases hf : f a = f b
    · obtain ⟨i, a', b', ha, hb, hne⟩ := ih (Nat.succ.inj hlength) fun hmap ↦
        h (by rw [List.map_cons, List.map_cons, hf, hmap])
      exact ⟨i + 1, a', b', ha, hb, hne⟩
    · exact ⟨0, a, b, rfl, rfl, hf⟩

theorem mem_zip_zip {α β γ : Type} {as : List α} {bs : List β} {cs : List γ} {i : ℕ} {a : α}
    {b : β} {c : γ} (ha : as[i]? = some a) (hb : bs[i]? = some b) (hc : cs[i]? = some c) :
    (a, b, c) ∈ as.zip (bs.zip cs) := by
  refine List.mem_of_getElem? (show (as.zip (bs.zip cs))[i]? = _ from ?_)
  rw [List.getElem?_zip_eq_some]
  exact ⟨ha, List.getElem?_zip_eq_some.2 ⟨hb, hc⟩⟩

/-- Two accepted signatures over a ring with the same commitments, but not the same challenges: the
secret key of a member is known, it is the only one, and the key image is that of this member. -/
theorem checkRingSignature_secret [DecidableEq P] {prefixHash prefixHash' : Hash}
    {image : KeyImage} {pubs : List PublicKey} {sigs sigs' : List Signature}
    (hlength : sigs.length = pubs.length) (hlength' : sigs'.length = pubs.length)
    (h : cv.checkRingSignature prefixHash image pubs sigs true = .valid)
    (h' : cv.checkRingSignature prefixHash' image pubs sigs' true = .valid)
    (hsame : cv.commitments image pubs sigs = cv.commitments image pubs sigs')
    (hne : sigs.map Signature.c ≠ sigs'.map Signature.c) :
    ∃ pub ∈ pubs, ∃ point sec, cv.geFrombytesVartime pub = some point ∧ Reduced sec ∧
      8 • point = 8 • scalarValue sec • cv.base ∧ image = cv.generateKeyImage pub sec ∧
      ∀ sec', Reduced sec' → 8 • point = 8 • scalarValue sec' • cv.base → sec' = sec := by
  obtain ⟨imageUnp, abs, rfl, hsubgroup, hcommitments, habs, hpasses⟩ :=
    of_checkRingSignature_valid hlength h
  obtain ⟨imageUnp', abs', himage', -, hcommitments', habs', hpasses'⟩ :=
    of_checkRingSignature_valid hlength' h'
  obtain rfl := cv.geTobytes_inj himage'
  obtain rfl : abs = abs' := Option.some.inj (by rw [← hcommitments, ← hcommitments', hsame])
  obtain ⟨i, sig, sig', hsig, hsig', hchallenge⟩ :=
    exists_map_ne (hlength.trans hlength'.symm) hne
  have hlt := (List.getElem?_eq_some_iff.1 hsig).1
  obtain ⟨pub, hpub⟩ := exists_getElem? (show i < pubs.length by omega)
  obtain ⟨ab, hab⟩ := exists_getElem? (show i < abs.length by omega)
  have hmember : cv.Passes imageUnp pub sig ab := hpasses (pub, sig, ab) (mem_zip_zip hpub hsig hab)
  have hmember' : cv.Passes imageUnp pub sig' ab :=
    hpasses' (pub, sig', ab) (mem_zip_zip hpub hsig' hab)
  obtain ⟨point, sec, hpoint, hsec, hbase, himage⟩ :=
    hmember.exists_secret hsubgroup hmember' hchallenge
  refine ⟨pub, List.mem_of_getElem? hpub, point, sec, hpoint, hsec, hbase, ?_,
    fun sec' hsec' hbase' ↦ ?_⟩
  · rw [cv.generateKeyImage_eq hsec, himage]
  · exact cv.eight_smul_base_inj hsec' hsec (hbase'.symm.trans hbase)

/-- Two signatures of one ring over different messages, by the same draws. -/
def sampleRing (prefixHash : Hash) : List Signature :=
  (numbers.generateRingSignature prefixHash (numbers.generateKeyImage (numbers.geTobytes 48)
    (scalarOf 6)) [numbers.geTobytes 96, numbers.geTobytes 48] (scalarOf 6) 1
    (fun n ↦ [UInt8.ofNat (n + 7)]) [{}, {}]).getD []

theorem checkRingSignature_secret_sampleRing :
    ∃ pub ∈ [numbers.geTobytes 96, numbers.geTobytes 48], ∃ point sec,
      numbers.geFrombytesVartime pub = some point ∧ Reduced sec ∧
      8 • point = 8 • scalarValue sec • numbers.base ∧
      numbers.generateKeyImage (numbers.geTobytes 48) (scalarOf 6) =
        numbers.generateKeyImage pub sec ∧
      ∀ sec', Reduced sec' → 8 • point = 8 • scalarValue sec' • numbers.base → sec' = sec :=
  @checkRingSignature_secret _ _ numbers _ 1 2 _ _ (sampleRing 1) (sampleRing 2)
    (by decide +kernel) (by decide +kernel) (by decide +kernel) (by decide +kernel)
    (by decide +kernel) (by decide +kernel)

/-- `ge_check_subgroup_precomp_vartime` accepts what `ge_mul8` makes, and nothing else. -/
theorem geCheckSubgroupPrecompVartime_iff_geMul8 [DecidableEq P] (cv : Curve P) (p : P) :
    geCheckSubgroupPrecompVartime (geDsmPrecomp p) = true ↔ ∃ q, p = geMul8 q := by
  rw [geCheckSubgroupPrecompVartime_iff]
  constructor
  · intro hp
    have height : 8 * ((3 * groupOrder + 1) / 8) = 3 * groupOrder + 1 := by decide +kernel
    refine ⟨((3 * groupOrder + 1) / 8) • p, ?_⟩
    rw [geMul8_eq, ← mul_nsmul', height, add_nsmul, mul_nsmul', hp, smul_zero, zero_add, one_nsmul]
  · rintro ⟨q, rfl⟩
    exact cv.inSubgroup_geMul8 q

end Curve

end Naza
