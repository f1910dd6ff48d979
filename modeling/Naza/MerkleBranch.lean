import Naza.Concrete
import Naza.Lib.InPlace

/-!
# Merkle trees in place

`tree_hash`, `tree_depth` and `tree_branch` as they run over one array.  The in-place folds read
only what the current level has left in place, and the branch of the first hash leads back to the
root.
-/

open Lib

namespace Naza

/-- The shifts of the searches for a power of two, `sizeof(size_t) << 2` down to 1. -/
def sizeShifts : List ℕ := [32, 16, 8, 4, 2, 1]

/-- The largest power of two below `count`: the bits under the highest one of `count - 1` are
filled, then dropped. -/
def powerBelow (count : ℕ) : ℕ :=
  let cnt := sizeShifts.reverse.foldl (fun cnt i ↦ cnt ||| cnt >>> i) (count - 1)
  cnt &&& (2 ^ 64 - 1 - cnt >>> 1)

/-- `tree_depth`. -/
def treeDepth (count : ℕ) : ℕ :=
  (sizeShifts.foldl (fun (count, depth) i ↦
    if 0 < count >>> i then (count >>> i, depth + i) else (count, depth)) (count, 0)).2

/-- The largest power of two up to `count`, and its exponent. -/
def powerUpTo (count : ℕ) : ℕ × ℕ :=
  sizeShifts.foldl (fun (cnt, depth) i ↦
    if cnt <<< i ≤ count then (cnt <<< i, depth + i) else (cnt, depth)) (1, 0)

variable {α : Type} (combine : α → α → α)

/-- The loop of `tree_hash`, and the last pair. -/
def treeLevels : ℕ → ℕ → ℕ → Slots α → Option α
  | fuel, cnt, level, ints =>
    if 2 < cnt then
      match fuel with
      | 0 => none
      | fuel + 1 => do
        let cnt := cnt >>> 1
        let ints ← Slots.foldPairs combine level cnt 0 0 ints
        treeLevels fuel cnt (level + 1) ints
    else do
      let a ← ints.read level 0
      let b ← ints.read level 1
      some (combine a b)

/-- `tree_hash` over any way to combine two hashes; `none` is a failed assert or a bad read. -/
def treeHashInPlace (hashes : List α) : Option α :=
  match hashes with
  | [] => none
  | [hash] => some hash
  | [a, b] => some (combine a b)
  | _ => do
    let count := hashes.length
    let cnt := powerBelow count
    let ints := Slots.fresh cnt
    let ints ← Slots.copyIn hashes 0 (2 * cnt - count) ints
    let pairs := cnt - (2 * cnt - count)
    let ints ← Slots.pairsIn combine hashes pairs (2 * cnt - count) (2 * cnt - count) ints
    if 2 * cnt - count + 2 * pairs ≠ count then none
    else treeLevels combine 64 cnt 0 ints

/-- The loop of `tree_branch`: the branch from the root side down. -/
def branchLevels : ℕ → ℕ → ℕ → Slots α → Option (List α)
  | 0, _, _, _ => some []
  | depth + 1, cnt, level, ints =>
    if cnt ≠ 1 <<< (depth + 1) then none
    else do
      let cnt := cnt >>> 1
      let hash ← ints.read level 0
      let ints ← Slots.foldPairs combine level (cnt - 1) 1 0 ints
      let branch ← branchLevels depth cnt (level + 1) ints
      some (branch ++ [hash])

/-- `tree_branch`. -/
def treeBranch (hashes : List α) : Option (List α) :=
  let count := hashes.length
  if count = 0 then none
  else do
    let (cnt, depth) := powerUpTo count
    if cnt ≠ 1 <<< depth ∨ depth ≠ treeDepth count then none
    else do
      let ints := Slots.fresh (cnt - 1)
      let ints ← Slots.copyIn hashes 1 (2 * cnt - count - 1) ints
      let pairs := cnt - 1 - (2 * cnt - count - 1)
      let ints ← Slots.pairsIn combine hashes pairs (2 * cnt - count) (2 * cnt - count - 1) ints
      if 2 * cnt - count + 2 * pairs ≠ count then none
      else branchLevels combine depth cnt 0 ints

/-! ## Powers of two -/

/-- The exponent that both searches find. -/
def searchDepth (count : ℕ) (shifts : List ℕ) (depth : ℕ) : ℕ :=
  shifts.foldl (fun depth i ↦ if 2 ^ (depth + i) ≤ count then depth + i else depth) depth

theorem powerUpTo_eq_search (count : ℕ) (shifts : List ℕ) (depth : ℕ) :
    shifts.foldl (fun (cnt, depth) i ↦
        if cnt <<< i ≤ count then (cnt <<< i, depth + i) else (cnt, depth)) (2 ^ depth, depth) =
      (2 ^ searchDepth count shifts depth, searchDepth count shifts depth) := by
  induction shifts generalizing depth with
  | nil => rfl
  | cons i shifts ih =>
    rw [searchDepth, List.foldl_cons, List.foldl_cons]
    dsimp only
    rw [Nat.shiftLeft_eq, ← Nat.pow_add]
    split
    · exact ih (depth + i)
    · exact ih depth

theorem treeDepth_eq_search (count : ℕ) (shifts : List ℕ) (depth : ℕ) :
    (shifts.foldl (fun (count, depth) i ↦
        if 0 < count >>> i then (count >>> i, depth + i) else (count, depth))
      (count >>> depth, depth)).2 = searchDepth count shifts depth := by
  induction shifts generalizing depth with
  | nil => rfl
  | cons i shifts ih =>
    have hiff : 0 < count >>> depth >>> i ↔ 2 ^ (depth + i) ≤ count := by
      rw [← Nat.shiftRight_add, Nat.shiftRight_eq_div_pow, Nat.div_pos_iff]
      exact and_iff_right (by positivity)
    rw [searchDepth, List.foldl_cons, List.foldl_cons]
    dsimp only
    by_cases h : 2 ^ (depth + i) ≤ count
    · rw [if_pos h, if_pos (hiff.2 h), ← Nat.shiftRight_add]
      exact ih (depth + i)
    · rw [if_neg h, if_neg fun h' ↦ h (hiff.1 h')]
      exact ih depth

/-- A shift halves the range in which the exponent lies. -/
theorem searchDepth_cons {count depth i found : ℕ} {shifts : List ℕ} (hle : 2 ^ depth ≤ count)
    (hlt : count < 2 ^ (depth + (i + i)))
    (hrest : ∀ depth, 2 ^ depth ≤ count → count < 2 ^ (depth + i) →
      searchDepth count shifts depth = found) :
    searchDepth count (i :: shifts) depth = found := by
  rw [searchDepth, List.foldl_cons]
  split
  · next h => exact hrest _ h (by rwa [Nat.add_assoc])
  · next h => exact hrest _ hle (Nat.lt_of_not_le h)

theorem searchDepth_eq {count : ℕ} (hpos : 0 < count) (hsize : count < 2 ^ 64) :
    searchDepth count sizeShifts 0 = count.log2 := by
  refine searchDepth_cons hpos hsize fun _ hle hlt ↦ ?_
  refine searchDepth_cons hle hlt fun _ hle hlt ↦ ?_
  refine searchDepth_cons hle hlt fun _ hle hlt ↦ ?_
  refine searchDepth_cons hle hlt fun _ hle hlt ↦ ?_
  refine searchDepth_cons hle hlt fun _ hle hlt ↦ ?_
  refine searchDepth_cons hle hlt fun _ hle hlt ↦ ?_
  exact ((Nat.log2_eq_iff (by omega)).2 ⟨hle, hlt⟩).symm

theorem powerUpTo_eq {count : ℕ} (hpos : 0 < count) (hsize : count < 2 ^ 64) :
    powerUpTo count = (2 ^ count.log2, count.log2) := by
  rw [← searchDepth_eq hpos hsize]
  exact powerUpTo_eq_search count sizeShifts 0

theorem treeDepth_eq {count : ℕ} (hpos : 0 < count) (hsize : count < 2 ^ 64) :
    treeDepth count = count.log2 := by
  rw [← searchDepth_eq hpos hsize]
  exact treeDepth_eq_search count sizeShifts 0

/-- The highest bit of a number is `top`, and the `window` bits from it down are set. -/
structure Filled (top window x : ℕ) : Prop where
  above : ∀ n, top < n → x.testBit n = false
  below : ∀ n ≤ top, top < n + window → x.testBit n = true

/-- A shift doubles the window. -/
theorem Filled.double {top window x : ℕ} (h : Filled top window x) :
    Filled top (window + window) (x ||| x >>> window) where
  above n hn := by
    rw [Nat.testBit_or, Nat.testBit_shiftRight, h.above n hn, h.above _ (by omega)]
    rfl
  below n hn hwindow := by
    rw [Nat.testBit_or, Nat.testBit_shiftRight]
    rcases Nat.lt_or_ge top (n + window) with hnear | hfar
    · rw [h.below n hn hnear, Bool.true_or]
    · rw [h.below (window + n) (by omega) (by omega), Bool.or_true]

theorem filled_log2 {x : ℕ} (hx : x ≠ 0) : Filled x.log2 1 x where
  above n hn := Nat.testBit_lt_two_pow ((Nat.log2_lt hx).1 hn)
  below n hn hwindow := by
    obtain rfl : n = x.log2 := by omega
    exact Nat.testBit_log2 hx

theorem powerBelow_eq {count : ℕ} (hpos : 1 < count) (hsize : count < 2 ^ 64) :
    powerBelow count = 2 ^ (count - 1).log2 := by
  have hx : count - 1 ≠ 0 := by omega
  have hfull : Filled (count - 1).log2 64
      (sizeShifts.reverse.foldl (fun cnt i ↦ cnt ||| cnt >>> i) (count - 1)) :=
    (filled_log2 hx).double.double.double.double.double.double
  have htop : (count - 1).log2 < 64 := (Nat.log2_lt hx).2 (by omega)
  rw [powerBelow]
  generalize sizeShifts.reverse.foldl (fun cnt i ↦ cnt ||| cnt >>> i) (count - 1) = x at hfull
  generalize (count - 1).log2 = top at hfull htop
  have hlt : x >>> 1 < 2 ^ 64 := by
    refine Nat.lt_pow_two_of_testBit _ fun n hn ↦ ?_
    rw [Nat.testBit_shiftRight]
    exact hfull.above _ (by omega)
  refine Nat.eq_of_testBit_eq fun n ↦ ?_
  rw [Nat.testBit_and, Nat.sub_sub, Nat.add_comm 1, Nat.testBit_two_pow_sub_succ hlt,
    Nat.testBit_shiftRight, Nat.testBit_two_pow]
  rcases Nat.lt_trichotomy n top with hn | rfl | hn
  · rw [hfull.below n hn.le (by omega), hfull.below (1 + n) (by omega) (by omega)]
    simp [hn.ne']
  · rw [hfull.below n (le_refl n) (by omega), hfull.above (1 + n) (by omega)]
    simp [htop]
  · rw [hfull.above n hn]
    simp [hn.ne]

/-! ## Levels -/

variable {combine}

open Slots

/-- The loop of `tree_hash` folds a full level down to the root. -/
theorem treeLevels_spec {fuel k level : ℕ} {ints : Slots α} {xs : List α} (hfuel : k ≤ fuel)
    (hlength : xs.length = 2 ^ (k + 1)) (hxs : ints.Holds 0 level xs)
    (hsize : 2 ^ (k + 1) ≤ ints.length) :
    treeLevels combine fuel (2 ^ (k + 1)) level ints = ((pairUp combine)^[k + 1] xs).head? := by
  induction k generalizing fuel level ints xs with
  | zero =>
    match xs, hlength with
    | [a, b], _ =>
      have ha : ints.read level (0 + 0) = some a := read_of_holds hxs rfl
      have hb : ints.read level (0 + 1) = some b := read_of_holds hxs rfl
      rw [Nat.add_zero] at ha
      rw [Nat.zero_add] at hb
      rw [treeLevels.eq_def]
      dsimp only
      rw [if_neg (by decide), ha, hb]
      rfl
  | succ k ih =>
    obtain ⟨fuel, rfl⟩ : ∃ fuel', fuel = fuel' + 1 := ⟨fuel - 1, by omega⟩
    have hhalf : 2 ^ (k + 1 + 1) >>> 1 = 2 ^ (k + 1) := by
      rw [Nat.shiftRight_eq_div_pow, pow_one, pow_succ, Nat.mul_div_cancel _ (by decide)]
    have hlarge : 2 < 2 ^ (k + 1 + 1) := by
      have := Nat.one_le_two_pow (n := k)
      rw [pow_succ, pow_succ]
      omega
    obtain ⟨ints', hfold, hlen, hholds, -⟩ := foldPairs_spec combine
      (show xs.length = 2 * 2 ^ (k + 1) by rw [hlength, pow_succ, Nat.mul_comm]) hxs (le_refl 0)
      (by rw [pow_succ] at hsize; omega)
    rw [treeLevels, if_pos hlarge]
    dsimp only
    rw [hhalf, hfold, Option.bind_eq_bind, Option.bind_some, Function.iterate_succ_apply]
    exact ih (by omega) (length_pairUp combine (by rw [hlength, pow_succ, Nat.mul_comm])) hholds
      (by rw [pow_succ] at hsize; omega)

/-- From a leaf along a branch to the root, with the leaf on the left at every depth. -/
def followBranch (combine : α → α → α) (branch : List α) (leaf : α) : α :=
  branch.foldr (fun hash node ↦ combine node hash) leaf

/-- The loop of `tree_branch` leaves the branch of the value in front of its level. -/
theorem branchLevels_spec {depth level : ℕ} {ints : Slots α} {xs : List α}
    (hlength : xs.length + 1 = 2 ^ depth) (hxs : ints.Holds 0 level xs)
    (hsize : 2 ^ depth ≤ ints.length + 1) :
    ∃ branch, branchLevels combine depth (2 ^ depth) level ints = some branch ∧
      branch.length = depth ∧
        ∀ leaf, some (followBranch combine branch leaf) =
          ((pairUp combine)^[depth] (leaf :: xs)).head? := by
  induction depth generalizing level ints xs with
  | zero => exact ⟨[], rfl, rfl, fun leaf ↦ rfl⟩
  | succ depth ih =>
    have hpos := Nat.one_le_two_pow (n := depth)
    rw [pow_succ] at hlength hsize
    match xs, hlength with
    | [], hlength => simp at hlength; omega
    | hash :: xs, hlength =>
      rw [List.length_cons] at hlength
      have hhead : ints.read level (0 + 0) = some hash := read_of_holds hxs rfl
      have htail : ints.Holds 1 level xs := fun k x hx ↦ by
        have h := hxs (k + 1) x hx
        rwa [Nat.zero_add, Nat.add_comm] at h
      have hhalf : 2 ^ (depth + 1) >>> 1 = 2 ^ depth := by
        rw [Nat.shiftRight_eq_div_pow, pow_one, pow_succ, Nat.mul_div_cancel _ (by decide)]
      have hpairs := length_pairUp combine (show xs.length = 2 * (2 ^ depth - 1) by omega)
      obtain ⟨ints', hfold, hlen, hholds, -⟩ := foldPairs_spec combine
        (show xs.length = 2 * (2 ^ depth - 1) by omega) htail (Nat.zero_le 1) (by omega)
      obtain ⟨branch, hbranch, hcount, hroot⟩ := ih (by omega) hholds (by omega)
      refine ⟨branch ++ [hash], ?_, by rw [List.length_append, hcount, List.length_singleton],
        fun leaf ↦ ?_⟩
      · rw [branchLevels, if_neg (by rw [Nat.shiftLeft_eq, Nat.one_mul]; exact not_not.2 rfl)]
        dsimp only
        rw [Nat.add_zero] at hhead
        rw [hhalf, hhead, Option.bind_eq_bind, Option.bind_some, hfold, Option.bind_eq_bind,
          Option.bind_some, hbranch]
        rfl
      · rw [followBranch, List.foldr_append, Function.iterate_succ_apply]
        exact hroot (combine leaf hash)

theorem length_iterate_pairUp {k : ℕ} {xs : List α} (h : xs.length = 2 ^ k) :
    ((pairUp combine)^[k] xs).length = 1 := by
  induction k generalizing xs with
  | zero => exact h
  | succ k ih =>
    rw [Function.iterate_succ_apply]
    exact ih (length_pairUp combine (by rw [h, pow_succ, Nat.mul_comm]))

/-- The first level over `cnt` slots: what is copied, and the uneven tail in pairs. -/
def firstLevel (combine : α → α → α) (hashes : List α) (cnt : ℕ) : List α :=
  hashes.take (2 * cnt - hashes.length) ++
    pairUp combine (hashes.drop (2 * cnt - hashes.length))

theorem length_firstLevel {hashes : List α} {cnt : ℕ} (hle : cnt ≤ hashes.length)
    (hlt : hashes.length ≤ 2 * cnt) : (firstLevel combine hashes cnt).length = cnt := by
  rw [firstLevel, List.length_append, List.length_take, length_pairUp combine
    (show (hashes.drop (2 * cnt - hashes.length)).length = 2 * (hashes.length - cnt) by
      rw [List.length_drop]; omega)]
  omega

theorem treeHashInPlace_eq {hashes : List α} (hcount : 2 < hashes.length)
    (hsize : hashes.length < 2 ^ 64) :
    treeHashInPlace combine hashes =
      ((pairUp combine)^[(hashes.length - 1).log2]
        (firstLevel combine hashes (2 ^ (hashes.length - 1).log2))).head? := by
  have hx : hashes.length - 1 ≠ 0 := by omega
  obtain ⟨hle, hlt⟩ := (Nat.log2_eq_iff hx).1 rfl
  obtain ⟨k, hk⟩ : ∃ k, (hashes.length - 1).log2 = k + 1 :=
    ⟨(hashes.length - 1).log2 - 1, by have := (Nat.le_log2 hx (k := 1)).2 (by omega); omega⟩
  have hk64 : (hashes.length - 1).log2 < 64 := (Nat.log2_lt hx).2 (by omega)
  have hpower := powerBelow_eq (show 1 < hashes.length by omega) hsize
  rw [hk] at hle hlt hk64 hpower ⊢
  rw [pow_succ 2 (k + 1)] at hlt
  obtain ⟨copied, ints, hcopy, hpairs, hlength, hholds⟩ := @firstLevel_spec α combine hashes 0
    (2 * 2 ^ (k + 1) - hashes.length) (2 ^ (k + 1) - (2 * 2 ^ (k + 1) - hashes.length))
    (2 ^ (k + 1)) (by omega) (by omega)
  rw [Nat.zero_add, List.drop_zero] at hholds
  rw [Nat.zero_add] at hpairs
  have hlevels := @treeLevels_spec α combine 64 k 0 ints
    (firstLevel combine hashes (2 ^ (k + 1))) (by omega)
    (length_firstLevel (by omega) (by omega)) hholds hlength.ge
  match hashes, hcount with
  | a :: b :: c :: rest, _ =>
    rw [treeHashInPlace]
    · dsimp only
      rw [hpower, hcopy, Option.bind_eq_bind, Option.bind_some, hpairs, Option.bind_some,
        if_neg (by omega), hlevels]
    all_goals simp

/-- The branch of the first hash leads to the root of the first level over its own slots. -/
theorem treeBranch_eq {first : α} {rest : List α} (hsize : rest.length + 1 < 2 ^ 64) :
    ∃ branch, treeBranch combine (first :: rest) = some branch ∧
      branch.length = treeDepth (rest.length + 1) ∧
        some (followBranch combine branch first) = ((pairUp combine)^[(rest.length + 1).log2]
          (firstLevel combine (first :: rest) (2 ^ (rest.length + 1).log2))).head? := by
  have hx : rest.length + 1 ≠ 0 := by omega
  obtain ⟨hle, hlt⟩ := (Nat.log2_eq_iff hx).1 rfl
  have hpower := powerUpTo_eq (Nat.pos_of_ne_zero hx) hsize
  have hdepth := treeDepth_eq (Nat.pos_of_ne_zero hx) hsize
  rw [hdepth]
  generalize (rest.length + 1).log2 = d at hle hlt hpower hdepth ⊢
  rw [pow_succ] at hlt
  -- the first hash is always among those copied
  obtain ⟨n, hn⟩ : ∃ n, 2 * 2 ^ d - (rest.length + 1) = n + 1 :=
    ⟨2 * 2 ^ d - (rest.length + 1) - 1, by omega⟩
  obtain ⟨copied, ints, hcopy, hpairs, hlength, hholds⟩ := @firstLevel_spec α combine
    (first :: rest) 1 n (2 ^ d - 1 - n) (2 ^ d - 1) (by rw [List.length_cons]; omega) (by omega)
  rw [Nat.add_comm 1 n] at hpairs hholds
  have hlevel : firstLevel combine (first :: rest) (2 ^ d) =
      first :: (((first :: rest).drop 1).take n ++
        pairUp combine ((first :: rest).drop (n + 1))) := by
    rw [firstLevel, List.length_cons, hn]
    rfl
  have hcount := @length_firstLevel α combine (first :: rest) (2 ^ d)
    (by rw [List.length_cons]; omega) (by rw [List.length_cons]; omega)
  rw [hlevel, List.length_cons] at hcount
  obtain ⟨branch, hbranch, hbranchLength, hroot⟩ := branchLevels_spec hcount hholds (by omega)
  refine ⟨branch, ?_, hbranchLength, by rw [hlevel]; exact hroot first⟩
  rw [treeBranch, List.length_cons]
  dsimp only
  rw [if_neg hx, hpower]
  dsimp only
  rw [hn, Nat.add_sub_cancel, if_neg (by rw [Nat.shiftLeft_eq, Nat.one_mul, hdepth]; simp), hcopy,
    Option.bind_eq_bind, Option.bind_some, hpairs, Option.bind_some, if_neg (by omega), hbranch]

/-- Both first levels have the same root, also where the count is a power of two. -/
theorem firstLevel_root {hashes : List α} (hcount : 2 < hashes.length) :
    ((pairUp combine)^[hashes.length.log2]
        (firstLevel combine hashes (2 ^ hashes.length.log2))) =
      ((pairUp combine)^[(hashes.length - 1).log2]
        (firstLevel combine hashes (2 ^ (hashes.length - 1).log2))) := by
  obtain ⟨hle, hlt⟩ := (Nat.log2_eq_iff (show hashes.length ≠ 0 by omega)).1 rfl
  obtain ⟨hle', hlt'⟩ := (Nat.log2_eq_iff (show hashes.length - 1 ≠ 0 by omega)).1 rfl
  by_cases hpower : hashes.length = 2 ^ hashes.length.log2
  · obtain ⟨d, hd⟩ : ∃ d, hashes.length.log2 = d + 1 :=
      ⟨hashes.length.log2 - 1, by
        have := (Nat.le_log2 (show hashes.length ≠ 0 by omega) (k := 1)).2 (by omega)
        omega⟩
    rw [hd] at hpower
    have hbelow : (hashes.length - 1).log2 = d :=
      (Nat.log2_eq_iff (by omega)).2 ⟨by rw [pow_succ] at hpower; omega, by omega⟩
    have hfull : 2 * 2 ^ (d + 1) - hashes.length = hashes.length := by omega
    have hnone : 2 * 2 ^ d - hashes.length = 0 := by rw [pow_succ] at hpower; omega
    rw [hbelow, hd, Function.iterate_succ_apply, firstLevel, hfull, List.take_length,
      List.drop_length, firstLevel, hnone, List.take_zero, List.drop_zero, List.nil_append]
    simp [pairUp]
  · have hbelow : (hashes.length - 1).log2 = hashes.length.log2 :=
      (Nat.log2_eq_iff (by omega)).2 ⟨by omega, by omega⟩
    rw [hbelow]

/-! ## The root of the node's hashes -/

variable (cr : Crypto)

theorem hashPairs_eq (hashes : List Hash) : hashPairs cr hashes = pairUp (hashPair cr) hashes := by
  induction hashes using hashPairs.induct with
  | case1 a b rest ih => rw [hashPairs, pairUp, ih]
  | case2 hashes h => rw [hashPairs.eq_2 _ _ h, pairUp.eq_2 _ _ h]

theorem treeHashFromBranch_eq (branch : List Hash) (leaf : Hash) :
    treeHashFromBranch cr branch leaf none = followBranch (hashPair cr) branch leaf := by
  rw [treeHashFromBranch, followBranch]
  conv_rhs => rw [← List.zipIdx_map_fst 0 branch, List.foldr_map]
  rfl

/-- `tree_hash` of the model is what the code computes in place. -/
theorem treeHashInPlace_hashPair {hashes : List Hash} (hne : hashes ≠ [])
    (hsize : hashes.length < 2 ^ 64) :
    treeHashInPlace (hashPair cr) hashes = some (treeHash cr hashes) := by
  match hashes, hne with
  | [hash], _ => rfl
  | [a, b], _ => rfl
  | a :: b :: c :: rest, _ =>
    have hlarge : 2 < (a :: b :: c :: rest).length := by simp
    obtain ⟨hle, hlt⟩ := (Nat.log2_eq_iff (show (a :: b :: c :: rest).length - 1 ≠ 0 by simp)).1 rfl
    have hone := @length_iterate_pairUp _ (hashPair cr) _ _
      (@length_firstLevel _ (hashPair cr) (a :: b :: c :: rest)
        (2 ^ ((a :: b :: c :: rest).length - 1).log2) (by omega) (by rw [pow_succ] at hlt; omega))
    obtain ⟨root, hroot⟩ := List.length_eq_one_iff.1 hone
    have hpairs : hashPairs cr = pairUp (hashPair cr) := funext (hashPairs_eq cr)
    rw [treeHashInPlace_eq hlarge hsize, hroot, treeHash]
    · rw [hpairs]
      change _ = some (((pairUp (hashPair cr))^[((a :: b :: c :: rest).length - 1).log2]
        (firstLevel (hashPair cr) (a :: b :: c :: rest)
          (2 ^ ((a :: b :: c :: rest).length - 1).log2))).headD 0)
      rw [hroot]
      rfl
    all_goals simp

/-- The branch of the first hash has the depth of the tree and leads to its root, and neither
function reads a slot that a later level has overwritten. -/
theorem treeHashFromBranch_treeBranch (first : Hash) (rest : List Hash)
    (hsize : rest.length + 1 < 2 ^ 64) :
    treeHashInPlace (hashPair cr) (first :: rest) = some (treeHash cr (first :: rest)) ∧
      ∃ branch, treeBranch (hashPair cr) (first :: rest) = some branch ∧
        branch.length = treeDepth (rest.length + 1) ∧
          treeHashFromBranch cr branch first none = treeHash cr (first :: rest) := by
  have hhash := treeHashInPlace_hashPair cr (List.cons_ne_nil first rest) hsize
  obtain ⟨branch, hbranch, hlength, hroot⟩ := @treeBranch_eq _ (hashPair cr) first rest hsize
  refine ⟨hhash, branch, hbranch, hlength, ?_⟩
  rw [treeHashFromBranch_eq]
  cases rest with
  | nil =>
    rw [List.length_nil, show Nat.log2 (0 + 1) = 0 from rfl] at hroot
    exact Option.some.inj hroot
  | cons second rest =>
    cases rest with
    | nil =>
      rw [List.length_singleton, show Nat.log2 (1 + 1) = 1 from rfl] at hroot
      exact Option.some.inj hroot
    | cons third rest =>
      have hlarge : 2 < (first :: second :: third :: rest).length := by simp
      rw [treeHashInPlace_eq hlarge hsize, ← firstLevel_root hlarge] at hhash
      rw [← @List.length_cons _ first] at hroot
      exact Option.some.inj (hroot.trans hhash)

/-- Three hashes, where the last two are combined first. -/
theorem treeHashFromBranch_treeBranch_three :
    treeHashInPlace (hashPair sampleCrypto) [1, 2, 3] = some (treeHash sampleCrypto [1, 2, 3]) ∧
      ∃ branch, treeBranch (hashPair sampleCrypto) [1, 2, 3] = some branch ∧
        branch.length = treeDepth 3 ∧
          treeHashFromBranch sampleCrypto branch 1 none = treeHash sampleCrypto [1, 2, 3] :=
  treeHashFromBranch_treeBranch sampleCrypto 1 [2, 3] (by decide)

end Naza
