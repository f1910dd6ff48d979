import Naza.Lib.ByteOrder
import Naza.RoundTrip
import Naza.State

/-!
# Block files

`LegacyBlockChainWriter` and the part of `LegacyBlockChainReader` that finds a block in the two
files: an index file with the count and the sizes of the blocks, and a file of the blocks one after
the other.
-/

open Lib

namespace Naza

structure BlockFiles where
  indexes : Bytes
  items : Bytes
  deriving DecidableEq

/-- A number in `n` bytes, least significant byte first. -/
def numberBytes (n x : ℕ) : Bytes := (natToBytes n x).reverse

/-! ## Writing -/

namespace LegacyBlockChainWriter

def new (count : ℕ) : BlockFiles := ⟨numberBytes 8 count, []⟩

/-- `write_block` of the bytes of a block; the size is cut to 32 bits. -/
def writeBytes (files : BlockFiles) (ba : Bytes) : BlockFiles :=
  ⟨files.indexes ++ numberBytes 4 (ba.length % 2 ^ 32), files.items ++ ba⟩

def writeBlock (files : BlockFiles) (raw : RawBlock) : BlockFiles :=
  writeBytes files (Seria.rawBlockBytes raw)

/-- The raw blocks of the main chain from the genesis block on. -/
def readRawBlocks (s : State) : Except Fault (List RawBlock) :=
  (List.range (s.tipHeight + 1).toNat).mapM fun ha ↦ do
    let bid ← s.readChain (UInt32.ofNat ha)
    let stored ← s.readBlock bid
    let (_, raw) ← expect stored "block_chain.read_block failed"
    return raw

/-- `export_blockchain2`. -/
def exportBlockchain2 (s : State) : Except Fault BlockFiles := do
  let raws ← readRawBlocks s
  return raws.foldl writeBlock (new (s.tipHeight + 1).toNat)

end LegacyBlockChainWriter

/-! ## Reading -/

namespace LegacyBlockChainReader

/-- The first bytes of a file as a number. -/
def readNumber (n : ℕ) (s : Bytes) : Option (ℕ × Bytes) :=
  if n ≤ s.length then some (bytesToNat (s.take n).reverse, s.drop n) else none

/-- The constructor: how many blocks there are, or none where the count is no height. -/
def blockCount (files : BlockFiles) : Option ℕ :=
  match readNumber 8 files.indexes with
  | none => some 0
  | some (readHei, _) =>
    let count := min readHei ((files.indexes.length - 8) / 4)
    if count < 2 ^ 32 then some count else none

def readSizes : ℕ → Bytes → Option (List ℕ)
  | 0, _ => some []
  | count + 1, s => do
    let (size, s) ← readNumber 4 s
    let sizes ← readSizes count s
    some (size :: sizes)

/-- The loop of `load_offsets`, which stops behind the end of the file of the blocks. -/
def offsetsFrom (fileSize : ℕ) : ℕ → List ℕ → List ℕ
  | pos, [] => [pos]
  | pos, size :: sizes =>
    pos :: if fileSize < pos + size then [] else offsetsFrom fileSize (pos + size) sizes

/-- `load_offsets`: `m_offsets`. -/
def loadOffsets (files : BlockFiles) (count : ℕ) : List ℕ :=
  if count = 0 then []
  else
    match readSizes count (files.indexes.drop 8) with
    | none => [0]
    | some sizes => offsetsFrom files.items.length 0 sizes

/-- `get_block_data_by_index`: none where `m_offsets.at` or the read throws. -/
def getBlockDataByIndex (files : BlockFiles) (count i : ℕ) : Option Bytes := do
  let offsets := loadOffsets files count
  let next ← offsets[i + 1]?
  let pos ← offsets[i]?
  if pos + (next - pos) ≤ files.items.length then some ((files.items.drop pos).take (next - pos))
  else none

end LegacyBlockChainReader

/-! ## What is read of what was written -/

/-- The files of some blocks. -/
def blockFiles (blocks : List Bytes) : BlockFiles :=
  ⟨numberBytes 8 blocks.length ++ blocks.flatMap fun ba ↦ numberBytes 4 (ba.length % 2 ^ 32),
    blocks.flatten⟩

open LegacyBlockChainReader

theorem length_numberBytes (n x : ℕ) : (numberBytes n x).length = n := by simp [numberBytes]

theorem readNumber_numberBytes (n x : ℕ) (rest : Bytes) :
    readNumber n (numberBytes n x ++ rest) = some (x % 256 ^ n, rest) := by
  obtain ⟨hle, htake, hdrop⟩ := reverse_natToBytes_append n x rest
  rw [readNumber, numberBytes, if_pos hle, htake, hdrop]

theorem foldl_writeBytes (blocks : List Bytes) (files : BlockFiles) :
    blocks.foldl LegacyBlockChainWriter.writeBytes files =
      ⟨files.indexes ++ blocks.flatMap fun ba ↦ numberBytes 4 (ba.length % 2 ^ 32),
        files.items ++ blocks.flatten⟩ := by
  induction blocks generalizing files with
  | nil => simp
  | cons ba blocks ih => simp [ih, LegacyBlockChainWriter.writeBytes]

theorem length_sizes (blocks : List Bytes) :
    (blocks.flatMap fun ba ↦ numberBytes 4 (ba.length % 2 ^ 32)).length = 4 * blocks.length := by
  induction blocks with
  | nil => rfl
  | cons ba blocks ih =>
    rw [List.flatMap_cons, List.length_append, length_numberBytes, ih, List.length_cons]
    omega

theorem blockCount_blockFiles {blocks : List Bytes} (hcount : blocks.length < 2 ^ 32) :
    blockCount (blockFiles blocks) = some blocks.length := by
  have hmod : blocks.length % 256 ^ 8 = blocks.length := Nat.mod_eq_of_lt (by omega)
  have hlength : ((blockFiles blocks).indexes.length - 8) / 4 = blocks.length := by
    rw [blockFiles, List.length_append, length_numberBytes, length_sizes]
    omega
  have hread : readNumber 8 (blockFiles blocks).indexes = some (blocks.length,
      blocks.flatMap fun ba ↦ numberBytes 4 (ba.length % 2 ^ 32)) := by
    rw [blockFiles, readNumber_numberBytes, hmod]
  unfold blockCount
  simp only [hread, hlength, Nat.min_self, if_pos hcount]

theorem readSizes_sizes {blocks : List Bytes} (hsizes : ∀ ba ∈ blocks, ba.length < 2 ^ 32) :
    readSizes blocks.length (blocks.flatMap fun ba ↦ numberBytes 4 (ba.length % 2 ^ 32)) =
      some (blocks.map List.length) := by
  induction blocks with
  | nil => rfl
  | cons ba blocks ih =>
    rw [List.forall_mem_cons] at hsizes
    have hmod : ba.length % 2 ^ 32 % 256 ^ 4 = ba.length := by omega
    rw [List.length_cons, readSizes, List.flatMap_cons, readNumber_numberBytes, hmod]
    simp only [Option.bind_eq_bind, Option.bind_some, ih hsizes.2]
    rfl

/-- The offsets are the sums of the sizes before. -/
theorem getElem?_offsetsFrom {fileSize pos : ℕ} {sizes : List ℕ} (hsum : pos + sizes.sum ≤ fileSize)
    (i : ℕ) :
    (offsetsFrom fileSize pos sizes)[i]? =
      if i ≤ sizes.length then some (pos + (sizes.take i).sum) else none := by
  induction sizes generalizing pos i with
  | nil =>
    cases i with
    | zero => rfl
    | succ i => simp [offsetsFrom]
  | cons size sizes ih =>
    rw [List.sum_cons] at hsum
    rw [offsetsFrom, if_neg (by omega)]
    cases i with
    | zero => simp
    | succ i =>
      rw [List.getElem?_cons_succ, ih (by omega), List.length_cons, List.take_succ_cons,
        List.sum_cons, Nat.add_assoc]
      simp only [Nat.add_le_add_iff_right]

/-- Every block is found under its index, and nothing else is. -/
theorem getBlockDataByIndex_blockFiles {blocks : List Bytes}
    (hsizes : ∀ ba ∈ blocks, ba.length < 2 ^ 32) (i : ℕ) :
    getBlockDataByIndex (blockFiles blocks) blocks.length i = blocks[i]? := by
  rcases Nat.eq_zero_or_pos blocks.length with hzero | hpos
  · rw [List.length_eq_zero_iff] at hzero
    subst hzero
    rfl
  have hoffsets : ∀ k, (loadOffsets (blockFiles blocks) blocks.length)[k]? =
      if k ≤ blocks.length then some ((blocks.take k).flatten.length) else none := by
    intro k
    have hdrop : (blockFiles blocks).indexes.drop 8 =
        blocks.flatMap fun ba ↦ numberBytes 4 (ba.length % 2 ^ 32) :=
      List.drop_left' (length_numberBytes 8 blocks.length)
    have hsum : 0 + (blocks.map List.length).sum ≤ (blockFiles blocks).items.length := by
      rw [blockFiles, List.length_flatten, Nat.zero_add]
    rw [loadOffsets, if_neg hpos.ne', hdrop, readSizes_sizes hsizes]
    simp only
    rw [getElem?_offsetsFrom hsum, List.length_map, Nat.zero_add, List.length_flatten,
      List.map_take]
  unfold getBlockDataByIndex
  simp only [Option.bind_eq_bind, hoffsets]
  by_cases hi : i < blocks.length
  · have hsplit : blocks.flatten =
        (blocks.take i).flatten ++ (blocks[i] ++ (blocks.drop (i + 1)).flatten) := by
      conv_lhs => rw [← List.take_append_drop i blocks, List.drop_eq_getElem_cons hi]
      rw [List.flatten_append, List.flatten_cons]
    have hnext : (blocks.take (i + 1)).flatten.length =
        (blocks.take i).flatten.length + blocks[i].length := by
      rw [List.take_succ_eq_append_getElem hi, List.flatten_append, List.length_append]
      simp
    rw [if_pos (by omega), if_pos (by omega), Option.bind_some, Option.bind_some, hnext,
      Nat.add_sub_cancel_left, if_pos, List.getElem?_eq_getElem hi]
    · rw [blockFiles, hsplit, List.drop_left, List.take_left]
    · rw [blockFiles, hsplit, List.length_append, List.length_append]
      omega
  · rw [if_neg (by omega), List.getElem?_eq_none (by omega)]
    rfl

end Naza
