import Naza.CanonicalCodec
import Mathlib.Data.Nat.Digits.Lemmas

/-!
# Base 58 and addresses

`Base58.cpp` codes eight bytes as eleven letters and a shorter last block by a table of sizes; an
address is a tag, a payload and the first bytes of their hash.  The code of blocks has one text for
every array of bytes.  An address whose tag is cut off is read all the same.
-/

open Lib

namespace Naza.Base58

/-! ## Blocks -/

/-- `alphabet`. -/
def alphabet : Bytes :=
  "123456789ABCDEFGHJKLMNPQRSTUVWXYZabcdefghijkmnopqrstuvwxyz".toList.map fun ch ↦
    UInt8.ofNat ch.toNat

def alphabetSize : ℕ := alphabet.length

def alphabetAt (i : ℕ) : UInt8 := alphabet.getD i 0

def encodedBlockSizes : List ℕ := [0, 2, 3, 5, 6, 7, 9, 10, 11]

def encodedBlockSize (size : ℕ) : ℕ := encodedBlockSizes.getD size 0

def fullBlockSize : ℕ := encodedBlockSizes.length - 1
def fullEncodedBlockSize : ℕ := encodedBlockSize fullBlockSize
def addrChecksumSize : ℕ := 4

/-- `m_data` of `reverse_alphabet`, `none` for its `-1`. -/
def reverseAlphabetData : List (Option ℕ) :=
  (List.range alphabetSize).foldl (fun data i ↦
    data.set ((alphabetAt i).toNat - (alphabetAt 0).toNat) (some i))
    (List.replicate ((alphabetAt (alphabetSize - 1)).toNat - (alphabetAt 0).toNat + 1) none)

/-- `reverse_alphabet`; the index of a letter before the first one is no index. -/
def reverseAlphabet (letter : UInt8) : Option ℕ :=
  if letter < alphabetAt 0 then none
  else (reverseAlphabetData[letter.toNat - (alphabetAt 0).toNat]?).join

/-- `m_data` of `decoded_block_sizes`, `none` for its `-1`. -/
def decodedBlockSizesData : List (Option ℕ) :=
  (List.range (fullBlockSize + 1)).foldl (fun data i ↦ data.set (encodedBlockSize i) (some i))
    (List.replicate (fullEncodedBlockSize + 1) none)

/-- `decoded_block_sizes`. -/
def decodedBlockSize (encodedBlockSize : ℕ) : Option ℕ :=
  (decodedBlockSizesData[encodedBlockSize]?).join

/-- `uint_8be_to_64`. -/
def uint8beTo64 (data : Bytes) : ℕ := bytesToNat data

/-- `uint_64_to_8be`: the last bytes of the number with its most significant byte first. -/
def uint64To8be (num size : ℕ) : Bytes := (natToBytes 8 num).drop (8 - size)

/-- The loop of `encode_block`; the next letter goes before the place `i`. -/
def encodeBlockFrom : ℕ → ℕ → Bytes → Bytes
  | 0, _, res => res
  | i + 1, num, res =>
    if 0 < num then
      encodeBlockFrom i (num / alphabetSize) (res.set i (alphabetAt (num % alphabetSize)))
    else res

/-- `encode_block`, into a text of the first letter. -/
def encodeBlock (block : Bytes) : Bytes :=
  encodeBlockFrom (encodedBlockSize block.length) (uint8beTo64 block)
    (List.replicate (encodedBlockSize block.length) (alphabetAt 0))

/-- The loop of `decode_block`, from the last letter to the first. -/
def decodeBlockFrom : Bytes → ℕ → ℕ → Option ℕ
  | [], _, resNum => some resNum
  | letter :: block, order, resNum =>
    match reverseAlphabet letter with
    | none => none
    | some digit =>
      let productHi := order * digit / 2 ^ 64
      let tmp := (resNum + order * digit % 2 ^ 64) % 2 ^ 64
      if tmp < resNum ∨ productHi ≠ 0 then none
      else decodeBlockFrom block (order * alphabetSize % 2 ^ 64) tmp

/-- `decode_block`. -/
def decodeBlock (block : Bytes) : Option Bytes :=
  match decodedBlockSize block.length with
  | none => none
  | some 0 => none
  | some resSize =>
    match decodeBlockFrom block.reverse 1 0 with
    | none => none
    | some resNum =>
      if resSize < fullBlockSize ∧ 2 ^ (8 * resSize) ≤ resNum then none
      else some (uint64To8be resNum resSize)

/-! ## Texts -/

/-- The loop of `encode` over the full blocks, and the last block. -/
def encodeBlocks : ℕ → Bytes → Bytes
  | 0, data => if data = [] then [] else encodeBlock data
  | fullBlockCount + 1, data =>
    encodeBlock (data.take fullBlockSize) ++ encodeBlocks fullBlockCount (data.drop fullBlockSize)

/-- `encode`. -/
def encode (data : Bytes) : Bytes := encodeBlocks (data.length / fullBlockSize) data

/-- The loop of `decode` over the full blocks, and the last block. -/
def decodeBlocks : ℕ → Bytes → Option Bytes
  | 0, enc => if enc = [] then some [] else decodeBlock enc
  | fullBlockCount + 1, enc =>
    match decodeBlock (enc.take fullEncodedBlockSize) with
    | none => none
    | some block =>
      match decodeBlocks fullBlockCount (enc.drop fullEncodedBlockSize) with
      | none => none
      | some data => some (block ++ data)

/-- `decode`. -/
def decode (enc : Bytes) : Option Bytes :=
  if enc = [] then some []
  else if decodedBlockSize (enc.length % fullEncodedBlockSize) = none then none
  else decodeBlocks (enc.length / fullEncodedBlockSize) enc

/-! ## Addresses -/

/-- `read_varint` of `Varint.hpp`: the number of bytes read or a negative code, and the integer.
At the end of the input it answers with what it has read. -/
def readVarint (bits : ℕ) : ℕ → ℕ → ℕ → Bytes → ℤ × ℕ
  | _, read, i, [] => (read, i)
  | shift, read, i, byte :: rest =>
    if bits ≤ shift + 7 ∧ 2 ^ (bits - shift) ≤ byte.toNat then (-1, i)
    else if byte = 0 ∧ shift ≠ 0 then (-2, i)
    else
      let i := i + byte.toNat % 0x80 * 2 ^ shift
      if byte.toNat < 0x80 then ((read + 1 : ℕ), i)
      else readVarint bits (shift + 7) (read + 1) i rest

variable (cr : Crypto)

/-- The first bytes of the hash. -/
def checksum (buf : Bytes) : Bytes := (Seria.podBytes (cr.cnFastHash buf)).take addrChecksumSize

/-- `encode_addr`. -/
def encodeAddr (tag : UInt64) (data : Bytes) : Bytes :=
  let buf := Seria.writeVarint tag.toNat ++ data
  encode (buf ++ checksum cr buf)

/-- `decode_addr`. -/
def decodeAddr (addr : Bytes) : Option (UInt64 × Bytes) :=
  match decode addr with
  | none => none
  | some addrData =>
    if addrData.length ≤ addrChecksumSize then none
    else
      let body := addrData.take (addrData.length - addrChecksumSize)
      if checksum cr body ≠ addrData.drop (addrData.length - addrChecksumSize) then none
      else
        let (read, tag) := readVarint 64 0 0 0 body
        if read ≤ 0 then none else some (UInt64.ofNat tag, body.drop read.toNat)

/-! ## Letters and sizes -/

/-- The two tables, entry by entry, and the sizes of blocks. -/
theorem tables : (∀ digit < 58, reverseAlphabet (alphabetAt digit) = some digit) ∧
    (∀ n < 256, ∀ digit ∈ reverseAlphabet (UInt8.ofNat n),
      digit < 58 ∧ alphabetAt digit = UInt8.ofNat n) ∧
    (∀ size ≤ 8, decodedBlockSize (encodedBlockSize size) = some size) ∧
    (∀ encodedSize < 12, ∀ size ∈ decodedBlockSize encodedSize,
      size ≤ 8 ∧ encodedBlockSize size = encodedSize) ∧
    decodedBlockSizesData.length = 12 ∧
    (∀ size ≤ 8, 256 ^ size ≤ alphabetSize ^ encodedBlockSize size) ∧
    ∀ k ≤ 10, alphabetSize ^ k < 2 ^ 64 := by
  decide +kernel

theorem reverseAlphabet_eq_some_iff {letter : UInt8} {digit : ℕ} :
    reverseAlphabet letter = some digit ↔ digit < alphabetSize ∧ alphabetAt digit = letter := by
  obtain ⟨hback, hforth, -⟩ := tables
  constructor
  · intro h
    have hletter := hforth letter.toNat letter.toNat_lt digit
    rw [UInt8.ofNat_toNat] at hletter
    exact hletter h
  · intro ⟨hlt, hletter⟩
    rw [← hletter]
    exact hback digit hlt

theorem decodedBlockSize_eq_some_iff {encodedSize size : ℕ} :
    decodedBlockSize encodedSize = some size ↔
      size ≤ fullBlockSize ∧ encodedBlockSize size = encodedSize := by
  obtain ⟨-, -, hback, hforth, hlength, -⟩ := tables
  constructor
  · intro h
    refine hforth encodedSize ?_ size h
    by_contra hge
    rw [decodedBlockSize, List.getElem?_eq_none (by omega)] at h
    cases h
  · intro ⟨hle, hsize⟩
    rw [← hsize]
    exact hback size hle

/-- The letters of a block hold every number of its bytes. -/
theorem pow_le_pow_encodedBlockSize {size : ℕ} (hsize : size ≤ fullBlockSize) :
    256 ^ size ≤ alphabetSize ^ encodedBlockSize size := by
  obtain ⟨-, -, -, -, -, h, -⟩ := tables
  exact h size hsize

/-! ## One block -/

theorem digitsAppend_succ {b : ℕ} (hb : 1 < b) (l n : ℕ) :
    Nat.digitsAppend b (l + 1) n = n % b :: Nat.digitsAppend b l (n / b) := by
  cases n with
  | zero => simp [Nat.digitsAppend, List.replicate_succ]
  | succ n =>
    rw [Nat.digitsAppend, Nat.digitsAppend, Nat.digits_def' hb (Nat.succ_pos n), List.length_cons,
      List.cons_append, Nat.add_sub_add_right]

theorem drop_natToBytes (m n x : ℕ) : (natToBytes (m + n) x).drop m = natToBytes n x := by
  induction m with
  | zero => rw [Nat.zero_add, List.drop_zero]
  | succ m ih => rw [Nat.succ_add, natToBytes, List.drop_succ_cons, ih]

theorem uint64To8be_eq {num size : ℕ} (hsize : size ≤ fullBlockSize) :
    uint64To8be num size = natToBytes size num := by
  have hsize : size ≤ 8 := hsize
  have h := drop_natToBytes (8 - size) size num
  rwa [Nat.sub_add_cancel hsize] at h

/-- The letters of a number, the first one the most significant. -/
def letters (length num : ℕ) : Bytes :=
  (Nat.digitsAppend alphabetSize length num).reverse.map alphabetAt

theorem encodeBlockFrom_eq {i num : ℕ} (hnum : num < alphabetSize ^ i) (tail : Bytes) :
    encodeBlockFrom i num (List.replicate i (alphabetAt 0) ++ tail) = letters i num ++ tail := by
  induction i generalizing num tail with
  | zero =>
    have hzero : num = 0 := by simpa using hnum
    subst hzero
    rfl
  | succ i ih =>
    have hdiv : num / alphabetSize < alphabetSize ^ i :=
      Nat.div_lt_of_lt_mul (by rwa [← pow_succ'])
    have hletters : letters (i + 1) num =
        letters i (num / alphabetSize) ++ [alphabetAt (num % alphabetSize)] := by
      rw [letters, digitsAppend_succ (by decide), List.reverse_cons, List.map_append]
      rfl
    rw [encodeBlockFrom, hletters, List.append_assoc]
    split
    · have hset : (List.replicate (i + 1) (alphabetAt 0) ++ tail).set i
            (alphabetAt (num % alphabetSize)) =
          List.replicate i (alphabetAt 0) ++ (alphabetAt (num % alphabetSize) :: tail) := by
        rw [List.replicate_succ', List.append_assoc, List.set_append_right _ _ (by simp)]
        simp
      rw [hset, ih hdiv]
      rfl
    · next hzero =>
      -- the rest of the text is already filled with the first letter
      have hzero : num = 0 := Nat.eq_zero_of_not_pos hzero
      subst hzero
      rw [Nat.zero_div, Nat.zero_mod, List.replicate_succ', List.append_assoc]
      congr 1
      simp [letters, Nat.digitsAppend]

theorem encodeBlock_eq {block : Bytes} (hblock : block.length ≤ fullBlockSize) :
    encodeBlock block = letters (encodedBlockSize block.length) (uint8beTo64 block) := by
  have hnum := (bytesToNat_lt block).trans_le (pow_le_pow_encodedBlockSize hblock)
  have h := encodeBlockFrom_eq hnum []
  rwa [List.append_nil, List.append_nil] at h

theorem length_letters {length num : ℕ} (hnum : num < alphabetSize ^ length) :
    (letters length num).length = length := by
  rw [letters, List.length_map, List.length_reverse, Nat.length_digitsAppend (by decide) _ hnum]

theorem length_encodeBlock {block : Bytes} (hblock : block.length ≤ fullBlockSize) :
    (encodeBlock block).length = encodedBlockSize block.length := by
  rw [encodeBlock_eq hblock]
  exact length_letters ((bytesToNat_lt block).trans_le (pow_le_pow_encodedBlockSize hblock))

/-- The loop over the letters of a block, from the last one on, gives the number the letters stand
for, and fails where it does not fit 64 bits. -/
theorem decodeBlockFrom_eq_some_iff {block : Bytes} {k resNum num : ℕ}
    (hk : k + block.length ≤ fullEncodedBlockSize) (hres : resNum < 2 ^ 64) :
    decodeBlockFrom block (alphabetSize ^ k % 2 ^ 64) resNum = some num ↔
      num < 2 ^ 64 ∧ ∃ digits : List ℕ, (∀ digit ∈ digits, digit < alphabetSize) ∧
        block = digits.map alphabetAt ∧
        num = resNum + alphabetSize ^ k * Nat.ofDigits alphabetSize digits := by
  induction block generalizing k resNum with
  | nil =>
    rw [decodeBlockFrom, Option.some.injEq]
    constructor
    · intro h
      subst h
      exact ⟨hres, [], by simp, rfl, by simp⟩
    · intro ⟨_, digits, _, hblock, hnum⟩
      have hdigits : digits = [] := List.map_eq_nil_iff.1 hblock.symm
      subst hdigits
      simpa using hnum.symm
  | cons letter block ih =>
    have hk' : k + (block.length + 1) ≤ 11 := hk
    obtain ⟨-, -, -, -, -, -, hpow⟩ := tables
    rw [decodeBlockFrom, Nat.mod_eq_of_lt (hpow k (by omega))]
    cases hletter : reverseAlphabet letter with
    | none =>
      constructor
      · intro h
        cases h
      · intro ⟨_, digits, hlt, hblock, _⟩
        obtain ⟨digit, digits, rfl, hdigit, _⟩ := List.map_eq_cons_iff.1 hblock.symm
        have hsome := reverseAlphabet_eq_some_iff.2 ⟨hlt digit List.mem_cons_self, hdigit⟩
        rw [hletter] at hsome
        cases hsome
    | some digit =>
      obtain ⟨hdigit, hat⟩ := reverseAlphabet_eq_some_iff.1 hletter
      have hvalue : ∀ digits : List ℕ,
          resNum + alphabetSize ^ k * Nat.ofDigits alphabetSize (digit :: digits) =
            resNum + alphabetSize ^ k * digit +
              alphabetSize ^ (k + 1) * Nat.ofDigits alphabetSize digits := by
        intro digits
        rw [Nat.ofDigits_cons, pow_succ]
        ring
      -- the digit of the letter comes first in every list of digits
      have hfirst : (∃ digits : List ℕ, (∀ digit ∈ digits, digit < alphabetSize) ∧
            letter :: block = digits.map alphabetAt ∧
            num = resNum + alphabetSize ^ k * Nat.ofDigits alphabetSize digits) ↔
          ∃ digits : List ℕ, (∀ digit ∈ digits, digit < alphabetSize) ∧
            block = digits.map alphabetAt ∧
            num = resNum + alphabetSize ^ k * digit +
              alphabetSize ^ (k + 1) * Nat.ofDigits alphabetSize digits := by
        constructor
        · intro ⟨digits, hlt, hblock, hnum⟩
          obtain ⟨digit', digits, rfl, hdigit', hrest⟩ := List.map_eq_cons_iff.1 hblock.symm
          have hsame := reverseAlphabet_eq_some_iff.2 ⟨hlt digit' List.mem_cons_self, hdigit'⟩
          rw [hletter] at hsame
          cases hsame
          exact ⟨digits, fun d hd ↦ hlt d (List.mem_cons_of_mem _ hd), hrest.symm,
            by rw [hnum, hvalue]⟩
        · intro ⟨digits, hlt, hblock, hnum⟩
          refine ⟨digit :: digits, ?_, by rw [List.map_cons, hat, hblock], by rw [hnum, hvalue]⟩
          intro d hd
          rcases List.mem_cons.1 hd with rfl | hd
          · exact hdigit
          · exact hlt d hd
      rw [hfirst]
      dsimp only
      by_cases hfits : resNum + alphabetSize ^ k * digit < 2 ^ 64
      · have hlow : alphabetSize ^ k * digit % 2 ^ 64 = alphabetSize ^ k * digit :=
          Nat.mod_eq_of_lt (by omega)
        have hhigh : alphabetSize ^ k * digit / 2 ^ 64 = 0 := Nat.div_eq_of_lt (by omega)
        rw [hlow, hhigh, Nat.mod_eq_of_lt hfits, if_neg (by omega), ← pow_succ]
        exact ih (by change k + 1 + block.length ≤ 11; omega) hfits
      · have hoverflow : (resNum + alphabetSize ^ k * digit % 2 ^ 64) % 2 ^ 64 < resNum ∨
            alphabetSize ^ k * digit / 2 ^ 64 ≠ 0 := by
          generalize alphabetSize ^ k * digit = product at hfits ⊢
          omega
        rw [if_pos hoverflow]
        constructor
        · intro h
          cases h
        · intro ⟨hnum, digits, _, _, heq⟩
          omega

theorem decodeBlockFrom_reverse_eq_some_iff {enc : Bytes} {num : ℕ}
    (henc : enc.length ≤ fullEncodedBlockSize) :
    decodeBlockFrom enc.reverse 1 0 = some num ↔
      num < 2 ^ 64 ∧ num < alphabetSize ^ enc.length ∧ enc = letters enc.length num := by
  have hinv := Nat.setInvOn_digitsAppend_ofDigits (b := alphabetSize) (by decide) enc.length
  have hloop := @decodeBlockFrom_eq_some_iff enc.reverse 0 0 num
    (by rw [List.length_reverse, Nat.zero_add]; exact henc) (by decide)
  rw [pow_zero, show 1 % 2 ^ 64 = 1 from rfl] at hloop
  rw [hloop]
  refine and_congr_right fun _ ↦ ?_
  constructor
  · intro ⟨digits, hdigits, henc, hnum⟩
    rw [Nat.zero_add, Nat.one_mul] at hnum
    have hlength : digits.length = enc.length := by
      rw [← @List.length_reverse _ enc, henc, List.length_map]
    have hback := hinv.1 (x := digits) ⟨hlength, hdigits⟩
    refine ⟨?_, ?_⟩
    · rw [hnum, ← hlength]
      exact Nat.ofDigits_lt_base_pow_length (by decide) hdigits
    · rw [letters, hnum, hback, List.map_reverse, ← henc, List.reverse_reverse]
  · intro ⟨hlt, henc⟩
    refine ⟨Nat.digitsAppend alphabetSize enc.length num,
      fun digit hdigit ↦ Nat.lt_of_mem_digitsAppend (by decide) _ _ hdigit, ?_, ?_⟩
    · conv_lhs => rw [henc, letters, List.map_reverse, List.reverse_reverse]
    · rw [Nat.zero_add, Nat.one_mul]
      exact (hinv.2 hlt).symm

/-- A block is decoded to bytes exactly when it is their code. -/
theorem decodeBlock_eq_some_iff {enc block : Bytes} :
    decodeBlock enc = some block ↔
      block ≠ [] ∧ block.length ≤ fullBlockSize ∧ enc = encodeBlock block := by
  have hsizes : ∀ size ≤ fullBlockSize, encodedBlockSize size ≤ fullEncodedBlockSize := by
    decide
  constructor
  · intro h
    unfold decodeBlock at h
    split at h
    · cases h
    · cases h
    · next size hpos hsize =>
      obtain ⟨hle, hencoded⟩ := decodedBlockSize_eq_some_iff.1 hsize
      split at h
      · cases h
      · next num hnum =>
        split at h
        · cases h
        · next hfits =>
          obtain ⟨hlt, -, hletters⟩ :=
            (decodeBlockFrom_reverse_eq_some_iff (by rw [← hencoded]; exact hsizes size hle)).1 hnum
          have hblock := Option.some.inj h
          have hnumlt : num < 256 ^ size := by
            by_cases hfull : size < fullBlockSize
            · have hlt := not_le.1 fun hge ↦ hfits ⟨hfull, hge⟩
              rwa [pow_mul] at hlt
            · have hfull : size = 8 := le_antisymm hle (not_lt.1 hfull)
              rwa [hfull]
          rw [uint64To8be_eq hle] at hblock
          have hlength : block.length = size := by rw [← hblock, length_natToBytes]
          have hnum' : uint8beTo64 block = num := by
            rw [← hblock, uint8beTo64, bytesToNat_natToBytes, Nat.mod_eq_of_lt hnumlt]
          have hle' : block.length ≤ fullBlockSize := hlength.le.trans hle
          refine ⟨?_, hle', ?_⟩
          · rintro rfl
            exact hpos hlength.symm
          · rw [encodeBlock_eq hle', hlength, hnum', hencoded]
            exact hletters
  · intro ⟨hne, hle, henc⟩
    have hlength : enc.length = encodedBlockSize block.length := by
      rw [henc, length_encodeBlock hle]
    have hsize : decodedBlockSize enc.length = some block.length :=
      decodedBlockSize_eq_some_iff.2 ⟨hle, hlength.symm⟩
    have hlt := bytesToNat_lt block
    have hpow : 256 ^ block.length ≤ 2 ^ 64 := by
      change _ ≤ 256 ^ 8
      exact Nat.pow_le_pow_right (by decide) hle
    have hnum : decodeBlockFrom enc.reverse 1 0 = some (uint8beTo64 block) := by
      refine (decodeBlockFrom_reverse_eq_some_iff (by rw [hlength]; exact hsizes _ hle)).2
        ⟨hlt.trans_le hpow, ?_, ?_⟩
      · rw [hlength]
        exact hlt.trans_le (pow_le_pow_encodedBlockSize hle)
      · rw [hlength, ← encodeBlock_eq hle]
        exact henc
    have hfits : ¬(block.length < fullBlockSize ∧ 2 ^ (8 * block.length) ≤ uint8beTo64 block) := by
      intro ⟨_, hge⟩
      rw [pow_mul] at hge
      exact absurd hlt (not_lt.2 hge)
    obtain ⟨n, hn⟩ := Nat.exists_eq_succ_of_ne_zero (mt List.length_eq_zero_iff.1 hne)
    rw [decodeBlock, hsize, hn]
    simp only [hnum]
    rw [← hn, if_neg hfits, uint64To8be_eq hle]
    exact congrArg some (natToBytes_bytesToNat block)

/-! ## Texts are codes -/

theorem encodedBlockSize_eq_full_iff {size : ℕ} (hsize : size ≤ fullBlockSize) :
    encodedBlockSize size = fullEncodedBlockSize ↔ size = fullBlockSize := by
  have h : ∀ size ≤ 8, (encodedBlockSize size = 11 ↔ size = 8) := by decide
  exact h size hsize

theorem length_encodeBlocks {count : ℕ} {data : Bytes}
    (hcount : data.length / fullBlockSize = count) :
    (encodeBlocks count data).length =
      count * fullEncodedBlockSize + encodedBlockSize (data.length % fullBlockSize) := by
  induction count generalizing data with
  | zero =>
    have hlt : data.length < fullBlockSize :=
      (Nat.div_eq_zero_iff.1 hcount).resolve_left (by decide)
    rw [encodeBlocks, Nat.zero_mul, Nat.zero_add, Nat.mod_eq_of_lt hlt]
    split
    · next hnil => rw [hnil]; rfl
    · exact length_encodeBlock hlt.le
  | succ count ih =>
    change data.length / 8 = count + 1 at hcount
    have hfirst : (data.take fullBlockSize).length = fullBlockSize := by
      rw [List.length_take]
      change min 8 _ = 8
      omega
    have hrest : (data.drop fullBlockSize).length = data.length - 8 := List.length_drop
    have hmod : (data.length - 8) % fullBlockSize = data.length % fullBlockSize := by
      change (data.length - 8) % 8 = data.length % 8
      omega
    rw [encodeBlocks, List.length_append, length_encodeBlock hfirst.le, hfirst,
      ih (by rw [hrest]; change _ / 8 = _; omega), hrest, hmod, Nat.succ_mul,
      show encodedBlockSize fullBlockSize = fullEncodedBlockSize from rfl]
    omega

theorem decodeBlocks_eq_some_iff {count : ℕ} {enc data : Bytes}
    (hcount : enc.length / fullEncodedBlockSize = count) :
    decodeBlocks count enc = some data ↔
      data.length / fullBlockSize = count ∧ enc = encodeBlocks count data := by
  have hpos : 0 < fullBlockSize := by decide
  induction count generalizing enc data with
  | zero =>
    have henc : enc.length < fullEncodedBlockSize :=
      (Nat.div_eq_zero_iff.1 hcount).resolve_left (by decide)
    rw [decodeBlocks, encodeBlocks]
    by_cases hnil : enc = []
    · subst hnil
      rw [if_pos rfl, Option.some.injEq]
      constructor
      · intro h
        subst h
        exact ⟨by decide, rfl⟩
      · intro ⟨hlength, henc⟩
        by_contra hdata
        have hne : data ≠ [] := fun h ↦ hdata h.symm
        have hlt : data.length < fullBlockSize :=
          (Nat.div_eq_zero_iff.1 hlength).resolve_left (by decide)
        have hdecode := decodeBlock_eq_some_iff.2 ⟨hne, hlt.le, rfl⟩
        rw [if_neg hne] at henc
        rw [← henc] at hdecode
        cases hdecode
    · rw [if_neg hnil, decodeBlock_eq_some_iff]
      constructor
      · intro ⟨hne, hle, heq⟩
        refine ⟨Nat.div_eq_of_lt (lt_of_le_of_ne hle fun hfull ↦ ?_), by rw [if_neg hne]; exact heq⟩
        rw [heq, length_encodeBlock hle, hfull] at henc
        exact absurd henc (by decide)
      · intro ⟨hlength, heq⟩
        have hlt : data.length < fullBlockSize :=
          (Nat.div_eq_zero_iff.1 hlength).resolve_left (by decide)
        have hne : data ≠ [] := by
          rintro rfl
          exact hnil heq
        rw [if_neg hne] at heq
        exact ⟨hne, hlt.le, heq⟩
  | succ count ih =>
    change enc.length / 11 = count + 1 at hcount
    have hfirst : (enc.take fullEncodedBlockSize).length = fullEncodedBlockSize := by
      rw [List.length_take]
      change min 11 _ = 11
      omega
    have hrest : (enc.drop fullEncodedBlockSize).length / fullEncodedBlockSize = count := by
      rw [List.length_drop]
      change (enc.length - 11) / 11 = count
      omega
    constructor
    · intro h
      rw [decodeBlocks] at h
      split at h
      · cases h
      · next block hblock =>
        split at h
        · cases h
        · next tail htail =>
          obtain ⟨-, hle, hencode⟩ := decodeBlock_eq_some_iff.1 hblock
          obtain ⟨hlength, hencodeTail⟩ := (ih hrest).1 htail
          have hfull : block.length = fullBlockSize := by
            rw [← encodedBlockSize_eq_full_iff hle, ← length_encodeBlock hle, ← hencode, hfirst]
          cases h
          refine ⟨?_, ?_⟩
          · rw [List.length_append, hfull, Nat.add_div_left _ hpos, hlength]
          · rw [encodeBlocks, ← hfull, List.take_left, List.drop_left, ← hencode, ← hencodeTail,
              List.take_append_drop]
    · intro ⟨hlength, henc⟩
      change data.length / 8 = count + 1 at hlength
      have hfull : (data.take fullBlockSize).length = fullBlockSize := by
        rw [List.length_take]
        change min 8 _ = 8
        omega
      have hcode : (encodeBlock (data.take fullBlockSize)).length = fullEncodedBlockSize := by
        rw [length_encodeBlock hfull.le, hfull]
        rfl
      have hblock : decodeBlock (enc.take fullEncodedBlockSize) =
          some (data.take fullBlockSize) := by
        refine decodeBlock_eq_some_iff.2 ⟨?_, hfull.le, ?_⟩
        · intro hnil
          rw [hnil] at hfull
          exact absurd hfull (by decide)
        · rw [henc, encodeBlocks, ← hcode, List.take_left]
      have htail : decodeBlocks count (enc.drop fullEncodedBlockSize) =
          some (data.drop fullBlockSize) := by
        refine (ih hrest).2 ⟨?_, ?_⟩
        · rw [List.length_drop]
          change (data.length - 8) / 8 = count
          omega
        · rw [henc, encodeBlocks, ← hcode, List.drop_left]
      rw [decodeBlocks, hblock, htail]
      exact congrArg some (List.take_append_drop _ _)

theorem length_encode (data : Bytes) :
    (encode data).length / fullEncodedBlockSize = data.length / fullBlockSize ∧
      (encode data).length % fullEncodedBlockSize =
        encodedBlockSize (data.length % fullBlockSize) := by
  have hsizes : ∀ size < fullBlockSize, encodedBlockSize size < fullEncodedBlockSize := by decide
  have hlast := hsizes (data.length % fullBlockSize) (Nat.mod_lt _ (by decide))
  have hlength : (encode data).length = _ := @length_encodeBlocks _ data rfl
  rw [hlength]
  change _ < 11 at hlast
  change (_ * 11 + _) / 11 = _ ∧ (_ * 11 + _) % 11 = _
  omega

/-- A text is decoded to bytes exactly when it is their code. -/
theorem decode_eq_some_iff {enc data : Bytes} : decode enc = some data ↔ enc = encode data := by
  have hblocks : decodeBlocks (enc.length / fullEncodedBlockSize) enc = some data ↔
      enc = encode data := by
    rw [decodeBlocks_eq_some_iff rfl]
    constructor
    · intro ⟨hcount, henc⟩
      rw [encode, hcount]
      exact henc
    · intro henc
      have hcount : data.length / fullBlockSize = enc.length / fullEncodedBlockSize := by
        rw [henc, (length_encode data).1]
      exact ⟨hcount, by rw [← hcount]; exact henc⟩
  rw [decode, ← hblocks]
  split
  · next hnil =>
    subst hnil
    rfl
  · split
    · next hsize =>
      constructor
      · intro h
        cases h
      · intro hdecode
        have henc := hblocks.1 hdecode
        have hlast : decodedBlockSize (enc.length % fullEncodedBlockSize) =
            some (data.length % fullBlockSize) := by
          rw [henc, (length_encode data).2]
          exact decodedBlockSize_eq_some_iff.2 ⟨(Nat.mod_lt _ (by decide)).le, rfl⟩
        rw [hsize] at hlast
        cases hlast
    · rfl

theorem encode_injective : Function.Injective encode := fun _ _ h ↦
  Option.some.inj ((decode_eq_some_iff.2 h).symm.trans (decode_eq_some_iff.2 rfl)) |>.symm

theorem alphabetAt_mem {i : ℕ} (hi : i < alphabetSize) : alphabetAt i ∈ alphabet := by
  rw [alphabetAt, List.getD_eq_getElem _ _ hi]
  exact List.getElem_mem hi

theorem mem_alphabet_of_mem_encodeBlockFrom {i num : ℕ} {res : Bytes} (hres : ∀ letter ∈ res,
    letter ∈ alphabet) : ∀ letter ∈ encodeBlockFrom i num res, letter ∈ alphabet := by
  induction i generalizing num res with
  | zero => exact hres
  | succ i ih =>
    rw [encodeBlockFrom]
    split
    · refine ih fun letter hletter ↦ ?_
      rcases List.mem_or_eq_of_mem_set hletter with hletter | rfl
      · exact hres letter hletter
      · exact alphabetAt_mem (Nat.mod_lt _ (by decide))
    · exact hres

theorem mem_alphabet_of_mem_encodeBlocks {count : ℕ} {data : Bytes} :
    ∀ letter ∈ encodeBlocks count data, letter ∈ alphabet := by
  have hblock : ∀ block, ∀ letter ∈ encodeBlock block, letter ∈ alphabet := fun block ↦
    mem_alphabet_of_mem_encodeBlockFrom fun letter hletter ↦
      List.eq_of_mem_replicate hletter ▸ alphabetAt_mem (by decide)
  induction count generalizing data with
  | zero =>
    rw [encodeBlocks]
    split
    · exact fun letter hletter ↦ absurd hletter List.not_mem_nil
    · exact hblock data
  | succ count ih =>
    rw [encodeBlocks]
    exact List.forall_mem_append.2 ⟨hblock _, ih⟩

/-- A code has no other characters than the letters. -/
theorem mem_alphabet_of_mem_encode (data : Bytes) : ∀ letter ∈ encode data, letter ∈ alphabet :=
  mem_alphabet_of_mem_encodeBlocks

/-! ## Integers at the head of an address -/

/-- The two readers of integers differ only at the end of the input. -/
theorem readVarint_of_readVarintFrom {bits shift read i n : ℕ} {b rest : Bytes}
    (h : Seria.readVarintFrom bits shift i b = some (n, rest)) :
    ∃ length, b.length = length + 1 + rest.length ∧
      readVarint bits shift read i b = (((read + length + 1 : ℕ) : ℤ), n) := by
  induction b generalizing shift read i with
  | nil => cases h
  | cons byte b ih =>
    rw [Seria.readVarintFrom] at h
    split at h
    · cases h
    · next hfits =>
      have hfits' : ¬(bits ≤ shift + 7 ∧ 2 ^ (bits - shift) ≤ byte.toNat) :=
        fun hlarge ↦ hfits ⟨by omega, hlarge.2⟩
      rw [readVarint, if_neg hfits']
      split at h
      · next hlast =>
        split at h
        · cases h
        · next hminimal =>
          obtain ⟨hn, hrest⟩ := Prod.mk.inj (Option.some.inj h)
          refine ⟨0, by rw [List.length_cons, hrest]; omega, ?_⟩
          rw [if_neg hminimal]
          dsimp only
          rw [if_pos hlast, hn, Nat.add_zero]
      · next hmore =>
        have hzero : byte ≠ 0 := by
          rintro rfl
          exact hmore (by decide)
        obtain ⟨length, hlength, hread⟩ := @ih _ (read + 1) _ h
        refine ⟨length + 1, by rw [List.length_cons, hlength]; omega, ?_⟩
        rw [if_neg fun hand ↦ hzero hand.1]
        dsimp only
        rw [if_neg hmore, hread]
        congr 2
        omega

theorem readVarintFrom_of_readVarint {bits shift read i n : ℕ} {code : ℤ} {b : Bytes}
    (h : readVarint bits shift read i b = (code, n)) (hcode : 0 ≤ code) :
    (∃ rest, Seria.readVarintFrom bits shift i b = some (n, rest)) ∨
      (∀ byte ∈ b, 0x80 ≤ byte.toNat) ∧ code = (read + b.length : ℕ) := by
  induction b generalizing shift read i with
  | nil =>
    rw [readVarint] at h
    exact Or.inr ⟨by simp, (Prod.mk.inj h).1.symm⟩
  | cons byte b ih =>
    rw [readVarint] at h
    split at h
    · have hminus := (Prod.mk.inj h).1
      omega
    · next hfits =>
      have hfits' : ¬(bits - 7 ≤ shift ∧ 2 ^ (bits - shift) ≤ byte.toNat) :=
        fun hlarge ↦ hfits ⟨by omega, hlarge.2⟩
      rw [Seria.readVarintFrom, if_neg hfits']
      split at h
      · have hminus := (Prod.mk.inj h).1
        omega
      · next hminimal =>
        dsimp only at h ⊢
        split at h
        · next hlast =>
          rw [if_pos hlast, if_neg hminimal, (Prod.mk.inj h).2]
          exact Or.inl ⟨b, rfl⟩
        · next hmore =>
          rw [if_neg hmore]
          rcases ih h with hread | ⟨hall, hlength⟩
          · exact Or.inl hread
          · refine Or.inr ⟨?_, by rw [hlength, List.length_cons]; omega⟩
            intro byte' hbyte'
            rcases List.mem_cons.1 hbyte' with rfl | hbyte'
            · exact Nat.le_of_not_lt hmore
            · exact hall byte' hbyte'

/-- The reader of streams refuses bytes that all announce another one. -/
theorem readVarintFrom_of_open {bits shift i : ℕ} {b : Bytes}
    (hopen : ∀ byte ∈ b, 0x80 ≤ byte.toNat) : Seria.readVarintFrom bits shift i b = none := by
  induction b generalizing shift i with
  | nil => rfl
  | cons byte b ih =>
    have hbyte := hopen byte List.mem_cons_self
    rw [Seria.readVarintFrom]
    split
    · rfl
    · dsimp only
      rw [if_neg (by omega)]
      exact ih fun byte' hbyte' ↦ hopen byte' (List.mem_cons_of_mem byte hbyte')

/-- Bytes that all announce another one are read to the end while they fit. -/
theorem readVarint_of_open {bits shift read i : ℕ} {b : Bytes}
    (hopen : ∀ byte ∈ b, 0x80 ≤ byte.toNat)
    (hfits : shift + 7 * b.length < bits) :
    ∃ n, readVarint bits shift read i b = (((read + b.length : ℕ) : ℤ), n) := by
  induction b generalizing shift read i with
  | nil => exact ⟨i, rfl⟩
  | cons byte b ih =>
    rw [List.length_cons] at hfits
    have hbyte := hopen byte List.mem_cons_self
    have hzero : byte ≠ 0 := by
      rintro rfl
      exact absurd hbyte (by decide)
    obtain ⟨n, hn⟩ := @ih (shift + 7) (read + 1)
      (i + byte.toNat % 0x80 * 2 ^ shift)
      (fun byte' hbyte' ↦ hopen byte' (List.mem_cons_of_mem byte hbyte')) (by omega)
    refine ⟨n, ?_⟩
    rw [readVarint, if_neg (by omega), if_neg fun hand ↦ hzero hand.1]
    dsimp only
    rw [if_neg (by omega), hn, List.length_cons]
    congr 2
    omega

/-- Open bytes that were read to the end fit. -/
theorem length_of_open {bits shift read i n : ℕ} {code : ℤ} {b : Bytes}
    (hopen : ∀ byte ∈ b, 0x80 ≤ byte.toNat) (h : readVarint bits shift read i b = (code, n))
    (hcode : 0 ≤ code) (hne : b ≠ []) : shift + 7 * b.length < bits := by
  induction b generalizing shift read i with
  | nil => exact absurd rfl hne
  | cons byte b ih =>
    have hbyte := hopen byte List.mem_cons_self
    rw [readVarint] at h
    split at h
    · have hminus := (Prod.mk.inj h).1
      omega
    · next hfits =>
      split at h
      · have hminus := (Prod.mk.inj h).1
        omega
      · dsimp only at h
        rw [if_neg (by omega)] at h
        have hroom : shift + 7 < bits := by
          by_contra hfull
          have hpow := Nat.pow_le_pow_right (n := 2) (by decide) (show bits - shift ≤ 7 by omega)
          exact hfits ⟨by omega, by omega⟩
        by_cases hlast : b = []
        · subst hlast
          exact hroom
        · have hrest := ih (fun byte' hbyte' ↦ hopen byte' (List.mem_cons_of_mem byte hbyte')) h
            hlast
          rw [List.length_cons]
          omega

/-! ## Addresses are codes -/

theorem length_checksum (buf : Bytes) : (checksum cr buf).length = addrChecksumSize := by
  rw [checksum, List.length_take, Seria.length_podBytes]
  rfl

/-- What an address is decoded to, in terms of the bytes it stands for. -/
theorem decodeAddr_eq_some_iff {addr data : Bytes} {tag : UInt64} :
    decodeAddr cr addr = some (tag, data) ↔
      ∃ body, body ≠ [] ∧ addr = encode (body ++ checksum cr body) ∧
        ∃ read n, readVarint 64 0 0 0 body = (read, n) ∧ 0 < read ∧ UInt64.ofNat n = tag ∧
          body.drop read.toNat = data := by
  constructor
  · intro h
    rw [decodeAddr] at h
    split at h
    · cases h
    · next addrData hdecode =>
      split at h
      · cases h
      · next hlength =>
        dsimp only at h
        split at h
        · cases h
        · next hsum =>
          split at h
          · cases h
          · next hread =>
            refine ⟨addrData.take (addrData.length - addrChecksumSize), ?_, ?_, _, _, rfl, ?_, ?_⟩
            · intro hnil
              rw [List.take_eq_nil_iff] at hnil
              rcases hnil with hzero | hnil
              · omega
              · rw [hnil] at hlength
                exact hlength (by decide)
            · rw [not_not.1 hsum, List.take_append_drop]
              exact decode_eq_some_iff.1 hdecode
            · exact not_le.1 hread
            · exact Prod.mk.inj (Option.some.inj h)
  · intro ⟨body, hne, haddr, read, n, hread, hpos, htag, hdata⟩
    have hlength : (body ++ checksum cr body).length - addrChecksumSize = body.length := by
      rw [List.length_append, length_checksum, Nat.add_sub_cancel]
    have hshort : ¬(body ++ checksum cr body).length ≤ addrChecksumSize := by
      rw [List.length_append, length_checksum]
      have := List.length_pos_of_ne_nil hne
      omega
    rw [decodeAddr, decode_eq_some_iff.2 haddr]
    dsimp only
    rw [if_neg hshort, hlength, List.take_left, List.drop_left, if_neg (not_not.2 rfl), hread]
    dsimp only
    rw [if_neg (not_le.2 hpos), htag, hdata]

/-- An address whose tag is cut off: the text of a few bytes that all announce another one, with
the right checksum. -/
def CutOff (addr : Bytes) : Prop :=
  ∃ body : Bytes, body ≠ [] ∧ body.length ≤ 9 ∧ (∀ byte ∈ body, 0x80 ≤ byte.toNat) ∧
    addr = encode (body ++ checksum cr body)

theorem readVarint_writeVarint (tag : UInt64) (data : Bytes) :
    ∃ read : ℕ, 0 < read ∧ read = (Seria.writeVarint tag.toNat).length ∧
      readVarint 64 0 0 0 (Seria.writeVarint tag.toNat ++ data) = ((read : ℤ), tag.toNat) := by
  have h := @Seria.readVarint_writeVarint 64 _ tag.toNat_lt (le_refl 64) data
  obtain ⟨length, hlength, hread⟩ := @readVarint_of_readVarintFrom _ _ 0 _ _ _ _ h
  rw [List.length_append] at hlength
  exact ⟨0 + length + 1, by omega, by omega, hread⟩

theorem decodeAddr_encodeAddr (tag : UInt64) (data : Bytes) :
    decodeAddr cr (encodeAddr cr tag data) = some (tag, data) := by
  obtain ⟨read, hpos, hlength, hread⟩ := readVarint_writeVarint tag data
  have hne : Seria.writeVarint tag.toNat ++ data ≠ [] := by
    intro hnil
    rw [(List.append_eq_nil_iff.1 hnil).1] at hlength
    exact absurd hlength hpos.ne'
  refine (decodeAddr_eq_some_iff cr).2 ⟨_, hne, rfl, (read : ℤ), tag.toNat, hread, ?_, ?_, ?_⟩
  · exact_mod_cast hpos
  · exact UInt64.ofNat_toNat
  · rw [Int.toNat_natCast, hlength, List.drop_left]

/-- An address that decodes is the code of what it decodes to, or its tag is cut off. -/
theorem encodeAddr_of_decodeAddr {addr data : Bytes} {tag : UInt64}
    (h : decodeAddr cr addr = some (tag, data)) :
    addr = encodeAddr cr tag data ∨ CutOff cr addr := by
  obtain ⟨body, hne, haddr, read, n, hread, hpos, htag, hdata⟩ := (decodeAddr_eq_some_iff cr).1 h
  rcases readVarintFrom_of_readVarint hread hpos.le with ⟨rest, hfrom⟩ | ⟨hopen, _⟩
  · left
    obtain ⟨hn, hbody⟩ := Seria.writeVarint_of_readVarint (le_refl 64) hfrom
    obtain ⟨length, hlength, hread'⟩ := @readVarint_of_readVarintFrom _ _ 0 _ _ _ _ hfrom
    rw [hread] at hread'
    have htagNat : tag.toNat = n := by rw [← htag, UInt64.toNat_ofNat_of_lt' hn]
    have hrest : data = rest := by
      have hcode := (Prod.mk.inj hread').1
      have hwritten : read.toNat = (Seria.writeVarint n).length := by
        rw [hbody, List.length_append] at hlength
        omega
      rw [← hdata, hwritten, hbody, List.drop_left]
    rw [haddr, encodeAddr, htagNat, hrest, ← hbody]
  · have hfits := length_of_open hopen hread hpos.le hne
    exact Or.inr ⟨body, hne, by omega, hopen, haddr⟩

/-- Every integer is closed by its last byte. -/
theorem not_open_writeVarint (tag : UInt64) :
    ¬∀ byte ∈ Seria.writeVarint tag.toNat, 0x80 ≤ byte.toNat := by
  intro hopen
  have hread := @Seria.readVarint_writeVarint 64 _ tag.toNat_lt (le_refl 64) []
  rw [List.append_nil, Seria.readVarint, readVarintFrom_of_open hopen] at hread
  cases hread

/-- A cut-off address decodes, and is the code of no tag and payload. -/
theorem CutOff.decodeAddr {addr : Bytes} (h : CutOff cr addr) :
    ∃ tag, decodeAddr cr addr = some (tag, []) ∧ addr ≠ encodeAddr cr tag [] := by
  obtain ⟨body, hne, hlength, hopen, haddr⟩ := h
  obtain ⟨n, hn⟩ := @readVarint_of_open 64 0 0 0 _ hopen
    (by omega)
  refine ⟨UInt64.ofNat n, (decodeAddr_eq_some_iff cr).2
    ⟨body, hne, haddr, _, _, hn, ?_, rfl, ?_⟩, ?_⟩
  · have := List.length_pos_of_ne_nil hne
    omega
  · rw [Int.toNat_natCast, Nat.zero_add, List.drop_length]
  · intro heq
    rw [haddr, encodeAddr, List.append_nil] at heq
    have hbytes := encode_injective heq
    have hbody := (List.append_inj' hbytes (by rw [length_checksum, length_checksum])).1
    rw [hbody] at hopen
    exact not_open_writeVarint _ hopen

/-- The code of bytes is a bijection with the texts that decode, and an address decodes to exactly
the tag and the payload it is the code of, unless its tag is cut off. -/
theorem decodeAddr_iff_encodeAddr_iff :
    (∀ data, decode (encode data) = some data) ∧
      (∀ enc data, decode enc = some data → encode data = enc) ∧
        ∀ addr, (∀ tag data, decodeAddr cr addr = some (tag, data) ↔
          addr = encodeAddr cr tag data) ↔ ¬CutOff cr addr := by
  refine ⟨fun data ↦ decode_eq_some_iff.2 rfl, fun enc data h ↦ (decode_eq_some_iff.1 h).symm, ?_⟩
  intro addr
  constructor
  · intro h hcut
    obtain ⟨tag, hdecode, hne⟩ := hcut.decodeAddr
    exact hne ((h tag []).1 hdecode)
  · intro hcut tag data
    constructor
    · intro h
      exact (encodeAddr_of_decodeAddr cr h).resolve_right hcut
    · intro h
      rw [h]
      exact decodeAddr_encodeAddr cr tag data

/-- One byte that announces another one, with its checksum. -/
def cutOffAddr : Bytes := encode (0x80 :: checksum sampleCrypto [0x80])

theorem decodeAddr_cutOffAddr : decodeAddr sampleCrypto cutOffAddr = some (0, []) ∧
    cutOffAddr ≠ encodeAddr sampleCrypto 0 [] := by
  decide +kernel

/-- The text is read as the tag zero with nothing behind it, which has another text. -/
theorem not_decodeAddr_iff_encodeAddr :
    ¬∀ addr tag data, decodeAddr sampleCrypto addr = some (tag, data) ↔
      addr = encodeAddr sampleCrypto tag data := fun h ↦
  decodeAddr_cutOffAddr.2 ((h cutOffAddr 0 []).1 decodeAddr_cutOffAddr.1)

end Naza.Base58
