import Naza.Crypto.Curve

/-!
# Signatures

`generate_signature`, `generate_ring_signature` and `generate_sendproof` with their checks.  Random
scalars come from a sequence of draws of 64 bytes.  What the generating functions assert in a debug
build is what their callers promise.
-/

open Lib

namespace Naza

open CryptoOps

namespace Curve

variable {P : Type} [AddCommGroup P] (cv : Curve P)

/-! ## One key -/

/-- `s_comm`. -/
def sComm (h : Hash) (key : PublicKey) (comm : Pod32) : Bytes :=
  Seria.podBytes h ++ Seria.podBytes key ++ Seria.podBytes comm

/-- `generate_signature`. -/
def generateSignature (prefixHash : Hash) (pub : PublicKey) (sec : Pod32) (draw : Bytes) :
    Signature :=
  let k := cv.scReduce draw
  let c := cv.hashToScalar (sComm prefixHash pub (cv.geTobytes (cv.geScalarmultBase k)))
  ⟨c, cv.scMulsub c sec k⟩

/-- `check_signature`, with `key_corrupted` as an outcome of its own. -/
def checkSignature (prefixHash : Hash) (pub : PublicKey) (sig : Signature) : RingCheck :=
  match cv.geFrombytesVartime pub with
  | none => .corrupted
  | some point =>
    if ¬(scIsvalid sig.c = true ∧ scIsvalid sig.r = true) then .invalid
    else
      let comm := cv.geTobytes (cv.geDoubleScalarmultBase sig.c point sig.r)
      let c := cv.scSub (cv.hashToScalar (sComm prefixHash pub comm)) sig.c
      if scIszero c = true then .valid else .invalid

theorem scIszero_scSub_iff {a b : Pod32} (ha : Reduced a) (hb : Reduced b) :
    scIszero (cv.scSub a b) = true ↔ a = b := by
  have h := cv.scSub_eq a b ha hb
  rw [scIszero_iff]
  constructor
  · intro hzero
    rw [hzero, Int.natCast_zero] at h
    obtain ⟨m, hm⟩ := Int.dvd_of_emod_eq_zero h.symm
    unfold Reduced at ha hb
    have hm' : m = 0 := by
      by_contra hne
      obtain hneg | hpos := lt_or_gt_of_ne hne
      · have : (groupOrder : ℤ) * m ≤ groupOrder * -1 :=
          mul_le_mul_of_nonneg_left (by omega) (Int.natCast_nonneg _)
        omega
      · have : (groupOrder : ℤ) * 1 ≤ groupOrder * m :=
          mul_le_mul_of_nonneg_left (by omega) (Int.natCast_nonneg _)
        omega
    rw [hm', mul_zero] at hm
    exact scalarValue_inj (by omega)
  · rintro rfl
    rw [sub_self, Int.zero_emod] at h
    exact Int.natCast_eq_zero.1 h

/-- The commitment of a signature is the one that its generator drew. -/
theorem response_eq {c sec k : Pod32} (hc : Reduced c) (hsec : Reduced sec) (hk : Reduced k)
    {p : P} (hp : InSubgroup p) :
    scalarValue c • scalarValue sec • p + scalarValue (cv.scMulsub c sec k) • p =
      scalarValue k • p := by
  have hresponse := hp.nsmul_eq (cv.scMulsub_eq c sec k hc hsec hk)
  generalize scalarValue c = c, scalarValue sec = sec, scalarValue k = k at hresponse ⊢
  rw [hresponse, ← natCast_zsmul, ← natCast_zsmul p sec, ← natCast_zsmul p k, ← mul_smul,
    ← add_smul, add_sub_cancel]

/-- A signature by the secret key of a public key passes its check, whatever is drawn. -/
theorem checkSignature_generateSignature (prefixHash : Hash) {pub : PublicKey} {sec : Pod32}
    (hkeys : cv.secretKeyToPublicKey sec = some pub) (draw : Bytes) :
    cv.checkSignature prefixHash pub (cv.generateSignature prefixHash pub sec draw) = .valid := by
  obtain ⟨hsec, rfl⟩ := cv.secretKeyToPublicKey_eq_some_iff.1 hkeys
  have hk := cv.reduced_scReduce draw
  rw [generateSignature, checkSignature, cv.geFrombytes_geTobytes]
  generalize hchallenge : cv.hashToScalar (sComm prefixHash _ _) = c
  have hc : Reduced c := hchallenge ▸ cv.reduced_hashToScalar _
  have hr := cv.reduced_scMulsub hc hsec hk
  have hcomm : cv.geDoubleScalarmultBase c (scalarValue sec • cv.base)
      (cv.scMulsub c sec (cv.scReduce draw)) = cv.geScalarmultBase (cv.scReduce draw) := by
    rw [geDoubleScalarmultBase, geDoubleScalarmultPrecomp_eq hc hr,
      cv.response_eq hc hsec hk cv.inSubgroup_base, ← cv.geScalarmultBase_eq hk]
  simp only [hcomm, hchallenge, scIsvalid_iff.2 hc, scIsvalid_iff.2 hr, and_self,
    not_true_eq_false, if_false, (cv.scIszero_scSub_iff hc hc).2 rfl, if_true]

theorem checkSignature_generateSignature_numbers :
    numbers.checkSignature 9 (numbers.geTobytes 40)
      (numbers.generateSignature 9 (numbers.geTobytes 40) (scalarOf 5) [1, 2, 3]) = .valid :=
  numbers.checkSignature_generateSignature 9 (by decide +kernel) [1, 2, 3]

/-! ## Rings -/

/-- `rs_comm`. -/
def rsComm (h : Hash) (ab : List (Pod32 × Pod32)) : Bytes :=
  Seria.podBytes h ++ ab.flatMap fun e ↦ Seria.podBytes e.1 ++ Seria.podBytes e.2

/-- What a member of a ring adds to the commitment. -/
def commitment (image : P) (pub : PublicKey) (point : P) (sig : Signature) : Pod32 × Pod32 :=
  (cv.geTobytes (cv.geDoubleScalarmultBase sig.c point sig.r),
    cv.geTobytes (geDoubleScalarmultPrecomp sig.r (cv.hashToEc pub) sig.c image))

/-- What the loop of `generate_ring_signature` carries along. -/
structure RingState where
  sum : Pod32 := 0
  k : Pod32 := 0
  ab : List (Pod32 × Pod32) := []
  sigs : List Signature
  drawn : ℕ := 0

/-- The scalars drawn for a member whose secret key is not known. -/
def decoy (draws : ℕ → Bytes) (drawn : ℕ) : Signature :=
  ⟨cv.scReduce (draws drawn), cv.scReduce (draws (drawn + 1))⟩

/-- The loop of `generate_ring_signature` from a member on. -/
def generateRingLoop (image : P) (secIndex : ℕ) (draws : ℕ → Bytes) :
    ℕ → List PublicKey → RingState → Option RingState
  | _, [], s => some s
  | i, pub :: pubs, s =>
    if i = secIndex then
      let k := cv.scReduce (draws s.drawn)
      let a := cv.geTobytes (cv.geScalarmultBase k)
      let b := cv.geTobytes (geScalarmult k (cv.hashToEc pub))
      generateRingLoop image secIndex draws (i + 1) pubs
        { s with k, ab := s.ab ++ [(a, b)], drawn := s.drawn + 1 }
    else
      match cv.geFrombytesVartime pub with
      | none => none
      | some point =>
        let sig := cv.decoy draws s.drawn
        generateRingLoop image secIndex draws (i + 1) pubs
          { s with
            sum := cv.scAdd s.sum sig.c, ab := s.ab ++ [cv.commitment image pub point sig]
            sigs := s.sigs.set i sig, drawn := s.drawn + 2 }

/-- `generate_ring_signature` into an array of signatures. -/
def generateRingSignature (prefixHash : Hash) (image : KeyImage) (pubs : List PublicKey)
    (sec : Pod32) (secIndex : ℕ) (draws : ℕ → Bytes) (sigs : List Signature) :
    Option (List Signature) :=
  if pubs.length ≤ secIndex then none
  else
    match cv.geFrombytesVartime image with
    | none => none
    | some imageUnp =>
      (cv.generateRingLoop imageUnp secIndex draws 0 pubs { sigs }).map fun s ↦
        let c := cv.scSub (cv.hashToScalar (rsComm prefixHash s.ab)) s.sum
        s.sigs.set secIndex ⟨c, cv.scMulsub c sec s.k⟩

/-- The loop of `check_ring_signature`: the sum of the challenges and the commitment, or why not. -/
def checkRingLoop (image : P) :
    List PublicKey → List Signature → Pod32 → List (Pod32 × Pod32) →
    Except RingCheck (Pod32 × List (Pod32 × Pod32))
  | [], _, sum, ab => .ok (sum, ab)
  | pub :: pubs, sigs, sum, ab =>
    let sig := sigs.headD {}
    if ¬(scIsvalid sig.c = true ∧ scIsvalid sig.r = true) then .error .invalid
    else
      match cv.geFrombytesVartime pub with
      | none => .error .corrupted
      | some point =>
        checkRingLoop image pubs sigs.tail (cv.scAdd sum sig.c)
          (ab ++ [cv.commitment image pub point sig])

/-- `check_ring_signature`. -/
def checkRingSignature [DecidableEq P] (prefixHash : Hash) (image : KeyImage)
    (pubs : List PublicKey) (sigs : List Signature) (checkKeyImage : Bool) : RingCheck :=
  match cv.geFrombytesVartime image with
  | none => .invalid
  | some imageUnp =>
    if checkKeyImage = true ∧ geCheckSubgroupPrecompVartime (geDsmPrecomp imageUnp) = false then
      .invalid
    else
      match cv.checkRingLoop imageUnp pubs sigs 0 [] with
      | .error check => check
      | .ok (sum, ab) =>
        let h := cv.hashToScalar (rsComm prefixHash ab)
        if scIszero (cv.scSub h sum) = true then .valid else .invalid

/-! ### Members -/

/-- A member passes the loop of the check with a commitment. -/
def Passes (image : P) (pub : PublicKey) (sig : Signature) (ab : Pod32 × Pod32) : Prop :=
  Reduced sig.c ∧ Reduced sig.r ∧
    ∃ point, cv.geFrombytesVartime pub = some point ∧ ab = cv.commitment image pub point sig

theorem checkRingLoop_of_passes {image : P} {pubs : List PublicKey} {sigs : List Signature}
    {abs : List (Pod32 × Pod32)} (hsigs : sigs.length = pubs.length)
    (habs : abs.length = pubs.length)
    (h : ∀ e ∈ pubs.zip (sigs.zip abs), cv.Passes image e.1 e.2.1 e.2.2) (sum : Pod32)
    (ab : List (Pod32 × Pod32)) :
    cv.checkRingLoop image pubs sigs sum ab =
      .ok (sigs.foldl (fun sum sig ↦ cv.scAdd sum sig.c) sum, ab ++ abs) := by
  induction pubs generalizing sigs abs sum ab with
  | nil =>
    obtain rfl := List.length_eq_zero_iff.1 hsigs
    obtain rfl := List.length_eq_zero_iff.1 habs
    simp [checkRingLoop]
  | cons pub pubs ih =>
    obtain ⟨sig, sigs, rfl⟩ := List.exists_cons_of_length_eq_add_one hsigs
    obtain ⟨first, abs, rfl⟩ := List.exists_cons_of_length_eq_add_one habs
    obtain ⟨hc, hr, point, hpoint, rfl⟩ : cv.Passes image pub sig first :=
      h (pub, sig, first) (by simp)
    rw [checkRingLoop]
    simp only [List.headD_cons, List.tail_cons, hpoint]
    rw [if_neg (not_not.2 ⟨scIsvalid_iff.2 hc, scIsvalid_iff.2 hr⟩),
      ih (Nat.succ.inj hsigs) (Nat.succ.inj habs) fun e he ↦ h e (List.mem_cons_of_mem _ he),
      List.foldl_cons, List.append_assoc]
    rfl

theorem checkRingLoop_append_cons {image : P} {before after : List PublicKey} {pub : PublicKey}
    {sigsBefore sigsAfter : List Signature} {sig : Signature}
    {absBefore absAfter : List (Pod32 × Pod32)} {ab : Pod32 × Pod32}
    (hsigsBefore : sigsBefore.length = before.length)
    (hsigsAfter : sigsAfter.length = after.length)
    (habsBefore : absBefore.length = before.length) (habsAfter : absAfter.length = after.length)
    (hbefore : ∀ e ∈ before.zip (sigsBefore.zip absBefore), cv.Passes image e.1 e.2.1 e.2.2)
    (hown : cv.Passes image pub sig ab)
    (hafter : ∀ e ∈ after.zip (sigsAfter.zip absAfter), cv.Passes image e.1 e.2.1 e.2.2) :
    cv.checkRingLoop image (before ++ pub :: after) (sigsBefore ++ sig :: sigsAfter) 0 [] =
      .ok ((sigsBefore ++ sig :: sigsAfter).foldl (fun sum sig ↦ cv.scAdd sum sig.c) 0,
        absBefore ++ ab :: absAfter) := by
  rw [cv.checkRingLoop_of_passes (by simp [hsigsBefore, hsigsAfter])
    (show (absBefore ++ ab :: absAfter).length = _ by simp [habsBefore, habsAfter]) (fun e he ↦ ?_)
    0 [], List.nil_append]
  rw [List.zip_append (hsigsBefore.trans habsBefore.symm), List.zip_append (by
    rw [List.length_zip, hsigsBefore, habsBefore, min_self]), List.zip_cons_cons,
    List.zip_cons_cons] at he
  obtain he | rfl | he := by simpa only [List.mem_append, List.mem_cons] using he
  · exact hbefore e he
  · exact hown
  · exact hafter e he

/-- The sum that the loops carry, modulo the group order. -/
theorem foldl_scAdd {sigs : List Signature} (h : ∀ sig ∈ sigs, Reduced sig.c) {sum : Pod32}
    (hsum : Reduced sum) :
    Reduced (sigs.foldl (fun sum sig ↦ cv.scAdd sum sig.c) sum) ∧
      scalarValue (sigs.foldl (fun sum sig ↦ cv.scAdd sum sig.c) sum) =
        (scalarValue sum + (sigs.map fun sig ↦ scalarValue sig.c).sum) % groupOrder := by
  induction sigs generalizing sum with
  | nil =>
    refine ⟨hsum, ?_⟩
    simpa using (Nat.mod_eq_of_lt hsum).symm
  | cons sig sigs ih =>
    have hsig := h sig List.mem_cons_self
    obtain ⟨hreduced, hvalue⟩ := ih (fun sig' hsig' ↦ h sig' (List.mem_cons_of_mem _ hsig'))
      (cv.reduced_scAdd hsum hsig)
    refine ⟨hreduced, ?_⟩
    rw [List.foldl_cons, hvalue, cv.scAdd_eq _ _ hsum hsig, List.map_cons, List.sum_cons,
      Nat.mod_add_mod, add_assoc]

/-- The signatures of members without a known secret key, from a number of draws on. -/
def decoys (draws : ℕ → Bytes) (drawn count : ℕ) : List Signature :=
  (List.range count).map fun j ↦ cv.decoy draws (drawn + 2 * j)

theorem length_decoys (draws : ℕ → Bytes) (drawn count : ℕ) :
    (cv.decoys draws drawn count).length = count := by
  simp [decoys]

theorem decoys_succ (draws : ℕ → Bytes) (drawn count : ℕ) :
    cv.decoys draws drawn (count + 1) =
      cv.decoy draws drawn :: cv.decoys draws (drawn + 2) count := by
  rw [decoys, List.range_succ_eq_map, List.map_cons, List.map_map, decoys]
  refine congrArg₂ _ (by simp) (List.map_congr_left fun j _ ↦ ?_)
  simp only [Function.comp_apply, Nat.succ_eq_add_one]
  congr 1
  ring

theorem mem_decoys {draws : ℕ → Bytes} {drawn count : ℕ} {sig : Signature}
    (h : sig ∈ cv.decoys draws drawn count) : Reduced sig.c ∧ Reduced sig.r := by
  obtain ⟨j, -, rfl⟩ := List.mem_map.1 h
  exact ⟨cv.reduced_scReduce _, cv.reduced_scReduce _⟩

/-- A run of members without a known secret key: their signatures are drawn, and each of them
passes the check with what it has added to the commitment. -/
theorem generateRingLoop_decoys {image : P} {secIndex : ℕ} {draws : ℕ → Bytes}
    {pubs : List PublicKey} (hpubs : ∀ pub ∈ pubs, cv.keyIsvalid pub = true) {i : ℕ}
    (hi : ∀ j < pubs.length, i + j ≠ secIndex) {s : RingState} {before old after : List Signature}
    (hsigs : s.sigs = before ++ old ++ after) (hbefore : before.length = i)
    (hold : old.length = pubs.length) :
    ∃ abs : List (Pod32 × Pod32), abs.length = pubs.length ∧
      (∀ e ∈ pubs.zip ((cv.decoys draws s.drawn pubs.length).zip abs),
        cv.Passes image e.1 e.2.1 e.2.2) ∧
      ∀ rest, cv.generateRingLoop image secIndex draws i (pubs ++ rest) s =
        cv.generateRingLoop image secIndex draws (i + pubs.length) rest
          { s with
            sum := (cv.decoys draws s.drawn pubs.length).foldl
              (fun sum sig ↦ cv.scAdd sum sig.c) s.sum
            ab := s.ab ++ abs
            sigs := before ++ cv.decoys draws s.drawn pubs.length ++ after
            drawn := s.drawn + 2 * pubs.length } := by
  induction pubs generalizing i s before old with
  | nil =>
    obtain rfl := List.length_eq_zero_iff.1 hold
    refine ⟨[], rfl, by simp, fun rest ↦ ?_⟩
    rw [List.append_nil] at hsigs
    simp [decoys, ← hsigs]
  | cons pub pubs ih =>
    obtain ⟨sig, old, rfl⟩ := List.exists_cons_of_length_eq_add_one hold
    obtain ⟨point, hpoint⟩ := Option.isSome_iff_exists.1 (hpubs pub List.mem_cons_self)
    have hset : s.sigs.set i (cv.decoy draws s.drawn) =
        (before ++ [cv.decoy draws s.drawn]) ++ old ++ after := by
      rw [hsigs, ← hbefore]
      simp
    obtain ⟨abs, hlength, hpasses, hloop⟩ := @ih
      (fun pub' hpub' ↦ hpubs pub' (List.mem_cons_of_mem _ hpub')) (i + 1)
      (fun j hj ↦ by
        have := hi (j + 1) (by simpa using hj)
        omega)
      { s with
        sum := cv.scAdd s.sum (cv.decoy draws s.drawn).c
        ab := s.ab ++ [cv.commitment image pub point (cv.decoy draws s.drawn)]
        sigs := s.sigs.set i (cv.decoy draws s.drawn), drawn := s.drawn + 2 }
      (before ++ [cv.decoy draws s.drawn]) old hset (by simp [hbefore]) (Nat.succ.inj hold)
    refine ⟨cv.commitment image pub point (cv.decoy draws s.drawn) :: abs, by simp [hlength], ?_,
      fun rest ↦ ?_⟩
    · rw [List.length_cons, decoys_succ]
      intro e he
      obtain rfl | he := List.mem_cons.1 he
      · exact ⟨cv.reduced_scReduce _, cv.reduced_scReduce _, point, hpoint, rfl⟩
      · exact hpasses e he
    · rw [List.cons_append, generateRingLoop, if_neg (by simpa using hi 0 (by simp)), hpoint]
      simp only []
      rw [hloop rest, List.length_cons, decoys_succ, List.foldl_cons]
      congr 1
      · ring
      · simp only [List.append_assoc, List.cons_append, List.nil_append]
        congr 1
        ring

/-- The key image of a secret key is the multiple of the point that its public key hashes to. -/
theorem generateKeyImage_eq {sec : Pod32} (hsec : Reduced sec) (pub : PublicKey) :
    cv.generateKeyImage pub sec = cv.geTobytes (scalarValue sec • cv.hashToEc pub) := by
  rw [generateKeyImage, geScalarmult_eq hsec]

/-- The member whose secret key is known passes with the commitments to its draw. -/
theorem passes_own {sec c k : Pod32} (hsec : Reduced sec) (hc : Reduced c) (hk : Reduced k)
    {pub : PublicKey} (hpub : pub = cv.geTobytes (scalarValue sec • cv.base)) :
    cv.Passes (scalarValue sec • cv.hashToEc pub) pub ⟨c, cv.scMulsub c sec k⟩
      (cv.geTobytes (cv.geScalarmultBase k), cv.geTobytes (geScalarmult k (cv.hashToEc pub))) := by
  have hr := cv.reduced_scMulsub hc hsec hk
  refine ⟨hc, hr, scalarValue sec • cv.base, by rw [hpub, cv.geFrombytes_geTobytes], ?_⟩
  refine Prod.ext (congrArg cv.geTobytes ?_) (congrArg cv.geTobytes ?_)
  · rw [geDoubleScalarmultBase, geDoubleScalarmultPrecomp_eq hc hr,
      cv.response_eq hc hsec hk cv.inSubgroup_base, cv.geScalarmultBase_eq hk]
  · rw [geDoubleScalarmultPrecomp_eq hr hc, add_comm,
      cv.response_eq hc hsec hk (cv.inSubgroup_hashToEc pub), geScalarmult_eq hk]

theorem sub_emod_add_emod (h o l : ℤ) : (h - o % l + o) % l = h % l := by
  have hsum : h - o % l + o = h + l * (o / l) := by
    rw [Int.emod_def]
    ring
  rw [hsum, Int.add_mul_emod_self_left]

/-- The challenge that closes the ring makes the sum of all of them the hash. -/
theorem sum_challenges {h : Pod32} (hh : Reduced h) {before after : List Signature}
    (hbefore : ∀ sig ∈ before, Reduced sig.c) (hafter : ∀ sig ∈ after, Reduced sig.c)
    (r : Pod32) :
    (before ++ ⟨cv.scSub h ((before ++ after).foldl (fun sum sig ↦ cv.scAdd sum sig.c) 0), r⟩ ::
      after).foldl (fun sum sig ↦ cv.scAdd sum sig.c) 0 = h := by
  have hothers : ∀ sig ∈ before ++ after, Reduced sig.c := fun sig hsig ↦
    (List.mem_append.1 hsig).elim (hbefore sig) (hafter sig)
  obtain ⟨hsum, hvalue⟩ := cv.foldl_scAdd hothers reduced_zero
  generalize (before ++ after).foldl (fun sum sig ↦ cv.scAdd sum sig.c) 0 = sum at hsum hvalue ⊢
  have hclose := cv.scSub_eq h sum hh hsum
  have hall : ∀ sig ∈ before ++ (⟨cv.scSub h sum, r⟩ : Signature) :: after, Reduced sig.c := by
    intro sig hsig
    obtain hsig | rfl | hsig := by simpa only [List.mem_append, List.mem_cons] using hsig
    · exact hbefore sig hsig
    · exact cv.reduced_scSub hh hsum
    · exact hafter sig hsig
  refine scalarValue_inj ?_
  rw [(cv.foldl_scAdd hall reduced_zero).2]
  simp only [List.map_append, List.map_cons, List.sum_append, List.sum_cons, scalarValue_zero,
    zero_add] at hvalue ⊢
  have hlt : (scalarValue h : ℤ) < groupOrder := Int.ofNat_lt.2 hh
  have hpos : (0 : ℤ) ≤ scalarValue h := Int.natCast_nonneg _
  zify at hvalue ⊢
  rw [hclose, hvalue]
  calc
    _ = (scalarValue h : ℤ) % groupOrder := by
      rw [add_left_comm, Int.emod_add_emod, sub_emod_add_emod]
    _ = _ := Int.emod_eq_of_lt hpos hlt

theorem exists_eq_append_cons {α : Type} {l : List α} {m n : ℕ} (h : l.length = m + (n + 1)) :
    ∃ before a after, l = before ++ a :: after ∧ before.length = m ∧ after.length = n := by
  obtain ⟨a, after, hdrop⟩ := @List.exists_cons_of_length_eq_add_one _ n (l.drop m) (by
    rw [List.length_drop, h]
    omega)
  refine ⟨l.take m, a, after, ?_, ?_, ?_⟩
  · rw [← hdrop, List.take_append_drop]
  · rw [List.length_take, h]
    omega
  · have hlength := congrArg List.length hdrop
    rw [List.length_drop, h, List.length_cons] at hlength
    omega

/-- The signatures that the loop draws, for the members before and behind the one whose secret key
is known. -/
def decoysBefore (draws : ℕ → Bytes) (before : List PublicKey) : List Signature :=
  cv.decoys draws 0 before.length

def decoysAfter (draws : ℕ → Bytes) (before after : List PublicKey) : List Signature :=
  cv.decoys draws (2 * before.length + 1) after.length

/-- The loop over a whole ring. -/
theorem generateRingLoop_ring {image : P} {before after : List PublicKey} {pub : PublicKey}
    (hvalid : ∀ member ∈ before ++ after, cv.keyIsvalid member = true) (draws : ℕ → Bytes)
    {oldBefore oldAfter : List Signature} {own : Signature}
    (holdBefore : oldBefore.length = before.length) (holdAfter : oldAfter.length = after.length) :
    ∃ absBefore absAfter : List (Pod32 × Pod32),
      absBefore.length = before.length ∧ absAfter.length = after.length ∧
      (∀ e ∈ before.zip ((cv.decoysBefore draws before).zip absBefore),
        cv.Passes image e.1 e.2.1 e.2.2) ∧
      (∀ e ∈ after.zip ((cv.decoysAfter draws before after).zip absAfter),
        cv.Passes image e.1 e.2.1 e.2.2) ∧
      cv.generateRingLoop image before.length draws 0 (before ++ pub :: after)
          { sigs := oldBefore ++ own :: oldAfter } =
        let k := cv.scReduce (draws (2 * before.length))
        some
          { sum := (cv.decoysBefore draws before ++ cv.decoysAfter draws before after).foldl
              (fun sum sig ↦ cv.scAdd sum sig.c) 0
            k
            ab := absBefore ++ (cv.geTobytes (cv.geScalarmultBase k),
              cv.geTobytes (geScalarmult k (cv.hashToEc pub))) :: absAfter
            sigs := cv.decoysBefore draws before ++ own :: cv.decoysAfter draws before after
            drawn := 2 * before.length + 1 + 2 * after.length } := by
  obtain ⟨absBefore, hlengthBefore, hpassesBefore, hloopBefore⟩ := @generateRingLoop_decoys P _ cv
    image before.length draws before (fun member hmember ↦ hvalid member (by simp [hmember])) 0
    (fun j hj ↦ by omega) { sigs := oldBefore ++ own :: oldAfter } [] oldBefore (own :: oldAfter)
    rfl rfl holdBefore
  have hlengthDrawn : (cv.decoysBefore draws before).length = before.length := length_decoys _ _ _ _
  have hloopOwn : ∀ k ab, ∃ absAfter : List (Pod32 × Pod32), absAfter.length = after.length ∧
      (∀ e ∈ after.zip ((cv.decoysAfter draws before after).zip absAfter),
        cv.Passes image e.1 e.2.1 e.2.2) ∧
      cv.generateRingLoop image before.length draws (before.length + 1) after
        { sum := (cv.decoysBefore draws before).foldl (fun sum sig ↦ cv.scAdd sum sig.c) 0, k, ab
          sigs := cv.decoysBefore draws before ++ own :: oldAfter
          drawn := 2 * before.length + 1 } = some
        { sum := (cv.decoysBefore draws before ++ cv.decoysAfter draws before after).foldl
            (fun sum sig ↦ cv.scAdd sum sig.c) 0
          k, ab := ab ++ absAfter
          sigs := cv.decoysBefore draws before ++ own :: cv.decoysAfter draws before after
          drawn := 2 * before.length + 1 + 2 * after.length } := by
    intro k ab
    obtain ⟨absAfter, hlengthAfter, hpassesAfter, hloopAfter⟩ := @generateRingLoop_decoys P _ cv
      image before.length draws after (fun member hmember ↦ hvalid member (by simp [hmember]))
      (before.length + 1) (fun j hj ↦ by omega)
      { sum := (cv.decoysBefore draws before).foldl (fun sum sig ↦ cv.scAdd sum sig.c) 0, k, ab
        sigs := cv.decoysBefore draws before ++ own :: oldAfter
        drawn := 2 * before.length + 1 }
      (cv.decoysBefore draws before ++ [own]) oldAfter [] (by simp) (by simp [hlengthDrawn])
      holdAfter
    refine ⟨absAfter, hlengthAfter, hpassesAfter, ?_⟩
    have h := hloopAfter []
    rw [List.append_nil] at h
    rw [h, generateRingLoop, List.foldl_append]
    simp [decoysAfter]
  obtain ⟨absAfter, hlengthAfter, hpassesAfter, hloopAfter⟩ := hloopOwn
    (cv.scReduce (draws (2 * before.length)))
    (absBefore ++ [(cv.geTobytes (cv.geScalarmultBase (cv.scReduce (draws (2 * before.length)))),
      cv.geTobytes (geScalarmult (cv.scReduce (draws (2 * before.length))) (cv.hashToEc pub)))])
  refine ⟨absBefore, absAfter, hlengthBefore, hlengthAfter, hpassesBefore, hpassesAfter, ?_⟩
  rw [hloopBefore, generateRingLoop, if_pos (zero_add _)]
  simp only [List.nil_append, zero_add, List.append_assoc, List.cons_append] at hloopAfter ⊢
  exact hloopAfter

/-- A ring signature by the secret key of any member of a ring of valid keys passes its check,
the check of the key image included. -/
theorem checkRingSignature_generateRingSignature [DecidableEq P] (prefixHash : Hash)
    {before after : List PublicKey} {pub : PublicKey}
    (hvalid : ∀ member ∈ before ++ after, cv.keyIsvalid member = true) {sec : Pod32}
    (hkeys : cv.secretKeyToPublicKey sec = some pub) (draws : ℕ → Bytes) {sigs : List Signature}
    (hsigs : sigs.length = (before ++ pub :: after).length) (checkKeyImage : Bool) :
    ∃ out, cv.generateRingSignature prefixHash (cv.generateKeyImage pub sec)
        (before ++ pub :: after) sec before.length draws sigs = some out ∧
      out.length = (before ++ pub :: after).length ∧
      cv.checkRingSignature prefixHash (cv.generateKeyImage pub sec) (before ++ pub :: after) out
        checkKeyImage = .valid := by
  obtain ⟨hsec, hpub⟩ := cv.secretKeyToPublicKey_eq_some_iff.1 hkeys
  have hsubgroup := (cv.inSubgroup_hashToEc pub).nsmul (scalarValue sec)
  rw [generateKeyImage_eq cv hsec]
  obtain ⟨oldBefore, own, oldAfter, rfl, holdBefore, holdAfter⟩ := exists_eq_append_cons
    (m := before.length) (n := after.length) (by simpa using hsigs)
  obtain ⟨absBefore, absAfter, hlengthBefore, hlengthAfter, hpassesBefore, hpassesAfter, hloop⟩ :=
    @generateRingLoop_ring P _ cv (scalarValue sec • cv.hashToEc pub) before after pub hvalid draws
      oldBefore oldAfter own holdBefore holdAfter
  have hlengthDrawn : (cv.decoysBefore draws before).length = before.length := length_decoys _ _ _ _
  have hlengthDrawn' : (cv.decoysAfter draws before after).length = after.length :=
    length_decoys _ _ _ _
  have hk := cv.reduced_scReduce (draws (2 * before.length))
  have hbefore : ∀ sig ∈ cv.decoysBefore draws before, Reduced sig.c := fun _ hsig ↦
    (cv.mem_decoys hsig).1
  have hafter : ∀ sig ∈ cv.decoysAfter draws before after, Reduced sig.c := fun _ hsig ↦
    (cv.mem_decoys hsig).1
  have hothers : ∀ sig ∈ cv.decoysBefore draws before ++ cv.decoysAfter draws before after,
      Reduced sig.c := fun sig hsig ↦ (List.mem_append.1 hsig).elim (hbefore sig) (hafter sig)
  have hsum := (cv.foldl_scAdd hothers reduced_zero).1
  rw [generateRingSignature, if_neg (by simp), cv.geFrombytes_geTobytes]
  simp only [hloop, Option.map_some]
  refine ⟨_, rfl, by simp [hlengthDrawn, hlengthDrawn'], ?_⟩
  generalize hab : absBefore ++ _ :: absAfter = ab
  generalize hhash : cv.hashToScalar (rsComm prefixHash ab) = h
  have hh : Reduced h := hhash ▸ cv.reduced_hashToScalar _
  have hpasses := cv.passes_own hsec (cv.reduced_scSub hh hsum) hk hpub
  rw [List.set_append_right _ _ hlengthDrawn.le, hlengthDrawn, Nat.sub_self, List.set_cons_zero,
    checkRingSignature, cv.geFrombytes_geTobytes]
  simp only [(geCheckSubgroupPrecompVartime_iff _).2 hsubgroup, and_false, if_false,
    Bool.true_eq_false]
  rw [cv.checkRingLoop_append_cons hlengthDrawn hlengthDrawn' hlengthBefore hlengthAfter
    hpassesBefore hpasses hpassesAfter]
  simp only []
  rw [cv.sum_challenges hh hbefore hafter, hab, hhash,
    if_pos ((cv.scIszero_scSub_iff hh hh).2 rfl)]

/-- Whichever member of a ring of valid keys signs, and whatever is drawn, the signature is made and
passes its check, that of the key image included. -/
theorem generateRingSignature_valid [DecidableEq P] (prefixHash : Hash) {pubs : List PublicKey}
    (hvalid : ∀ member ∈ pubs, cv.keyIsvalid member = true) {secIndex : ℕ} {pub : PublicKey}
    (hpub : pubs[secIndex]? = some pub) {sec : Pod32}
    (hkeys : cv.secretKeyToPublicKey sec = some pub) (draws : ℕ → Bytes) {sigs : List Signature}
    (hsigs : sigs.length = pubs.length) :
    ∃ out, cv.generateRingSignature prefixHash (cv.generateKeyImage pub sec) pubs sec secIndex
        draws sigs = some out ∧
      out.length = pubs.length ∧
      cv.checkRingSignature prefixHash (cv.generateKeyImage pub sec) pubs out true = .valid := by
  obtain ⟨hlt, hget⟩ := List.getElem?_eq_some_iff.1 hpub
  obtain ⟨before, member, after, rfl, hbefore, -⟩ :=
    @exists_eq_append_cons _ pubs secIndex (pubs.length - secIndex - 1) (by omega)
  subst hbefore
  obtain rfl : member = pub := by
    rw [List.getElem?_append_right le_rfl, Nat.sub_self] at hpub
    exact Option.some.inj hpub
  exact cv.checkRingSignature_generateRingSignature prefixHash
    (fun other hother ↦ hvalid other (by
      obtain hother | hother := List.mem_append.1 hother <;> simp [hother]))
    hkeys draws hsigs true

theorem generateRingSignature_valid_numbers :
    ∃ out, numbers.generateRingSignature 9 (numbers.generateKeyImage (numbers.geTobytes 40)
        (scalarOf 5)) [numbers.geTobytes 88, numbers.geTobytes 40, numbers.geTobytes 16]
        (scalarOf 5)
        1 (fun n ↦ [UInt8.ofNat n]) [{}, {}, {}] = some out ∧
      out.length = 3 ∧
      numbers.checkRingSignature 9 (numbers.generateKeyImage (numbers.geTobytes 40) (scalarOf 5))
        [numbers.geTobytes 88, numbers.geTobytes 40, numbers.geTobytes 16] out true = .valid :=
  numbers.generateRingSignature_valid 9 (by simp) rfl (by decide +kernel) _ rfl

/-! ## Send proofs -/

/-- `sp_comm`. -/
def spComm (messageHash : Hash) (txkey receiverViewKey : PublicKey) (derivation a b : Pod32) :
    Bytes :=
  Seria.podBytes messageHash ++ Seria.podBytes txkey ++ Seria.podBytes receiverViewKey ++
    Seria.podBytes derivation ++ Seria.podBytes a ++ Seria.podBytes b

/-- `generate_key_derivation`. -/
def generateKeyDerivation (key1 : PublicKey) (key2 : Pod32) : Option Pod32 :=
  (cv.geFrombytesVartime key1).map fun point ↦ cv.geTobytes (geMul8 (geScalarmult key2 point))

/-- `generate_sendproof`. -/
def generateSendproof (txkeyPub : PublicKey) (txkeySec : Pod32) (receiverViewKeyPub : PublicKey)
    (derivation : Pod32) (messageHash : Hash) (draw : Bytes) : Option Signature :=
  (cv.geFrombytesVartime receiverViewKeyPub).map fun point ↦
    let k := cv.scReduce draw
    let a := cv.geTobytes (cv.geScalarmultBase k)
    let b := cv.geTobytes (geMul8 (geScalarmult k point))
    let c := cv.hashToScalar (spComm messageHash txkeyPub receiverViewKeyPub derivation a b)
    ⟨c, cv.scMulsub c txkeySec k⟩

/-- `check_sendproof`. -/
def checkSendproof [DecidableEq P] (txkeyPub receiverViewKeyPub : PublicKey) (derivation : Pod32)
    (messageHash : Hash) (proof : Signature) : Bool :=
  if ¬(scIsvalid proof.c = true ∧ scIsvalid proof.r = true) then false
  else
    match cv.geFrombytesVartime txkeyPub with
    | none => false
    | some txkey =>
      let a := cv.geTobytes (cv.geDoubleScalarmultBase proof.c txkey proof.r)
      match cv.geFrombytesVartime derivation with
      | none => false
      | some derived =>
        if geCheckSubgroupPrecompVartime (geDsmPrecomp derived) = false then false
        else
          match cv.geFrombytesVartime receiverViewKeyPub with
          | none => false
          | some view =>
            let b := cv.geTobytes (geDoubleScalarmultPrecomp proof.r (geMul8 view) proof.c derived)
            let h := cv.hashToScalar (spComm messageHash txkeyPub receiverViewKeyPub derivation a b)
            scIszero (cv.scSub h proof.c)

/-- A proof by the secret key of a transaction that a derivation is its own passes its check. -/
theorem checkSendproof_generateSendproof [DecidableEq P] {txkeyPub receiverViewKeyPub : PublicKey}
    {txkeySec derivation : Pod32} (hkeys : cv.secretKeyToPublicKey txkeySec = some txkeyPub)
    (hderivation : cv.generateKeyDerivation receiverViewKeyPub txkeySec = some derivation)
    (messageHash : Hash) (draw : Bytes) :
    ∃ proof, cv.generateSendproof txkeyPub txkeySec receiverViewKeyPub derivation messageHash draw =
        some proof ∧
      cv.checkSendproof txkeyPub receiverViewKeyPub derivation messageHash proof = true := by
  obtain ⟨hsec, rfl⟩ := cv.secretKeyToPublicKey_eq_some_iff.1 hkeys
  obtain ⟨view, hview, rfl⟩ := Option.map_eq_some_iff.1 hderivation
  have hk := cv.reduced_scReduce draw
  rw [generateSendproof, hview, Option.map_some]
  refine ⟨_, rfl, ?_⟩
  simp only [checkSendproof, cv.geFrombytes_geTobytes, hview]
  generalize hchallenge : cv.hashToScalar (spComm messageHash
    (cv.geTobytes (scalarValue txkeySec • cv.base)) receiverViewKeyPub
    (cv.geTobytes (geMul8 (geScalarmult txkeySec view)))
    (cv.geTobytes (cv.geScalarmultBase (cv.scReduce draw)))
    (cv.geTobytes (geMul8 (geScalarmult (cv.scReduce draw) view)))) = c
  have hc : Reduced c := hchallenge ▸ cv.reduced_hashToScalar _
  have hr := cv.reduced_scMulsub hc hsec hk
  have hsubgroup := cv.inSubgroup_geMul8 (geScalarmult txkeySec view)
  have ha : cv.geDoubleScalarmultBase c (scalarValue txkeySec • cv.base)
      (cv.scMulsub c txkeySec (cv.scReduce draw)) = cv.geScalarmultBase (cv.scReduce draw) := by
    rw [geDoubleScalarmultBase, geDoubleScalarmultPrecomp_eq hc hr,
      cv.response_eq hc hsec hk cv.inSubgroup_base, ← cv.geScalarmultBase_eq hk]
  have hb : geDoubleScalarmultPrecomp (cv.scMulsub c txkeySec (cv.scReduce draw)) (geMul8 view) c
      (geMul8 (geScalarmult txkeySec view)) = geMul8 (geScalarmult (cv.scReduce draw) view) := by
    rw [geDoubleScalarmultPrecomp_eq hr hc, geScalarmult_eq hsec, geScalarmult_eq hk, add_comm,
      geMul8_eq, geMul8_eq, geMul8_eq, smul_comm 8, smul_comm 8,
      cv.response_eq hc hsec hk (geMul8_eq view ▸ cv.inSubgroup_geMul8 view)]
  have hvalid := scIsvalid_iff.2 hc
  have hvalid' := scIsvalid_iff.2 hr
  have hcheck := (geCheckSubgroupPrecompVartime_iff _).2 hsubgroup
  have hzero := (cv.scIszero_scSub_iff hc hc).2 rfl
  simp only [hvalid, hvalid', and_self, not_true_eq_false, if_false, hcheck, Bool.true_eq_false,
    ha, hb, hchallenge, hzero]

end Curve

end Naza
