import Naza.CanonicalCodec
import Naza.ChainTables
import Naza.Identity

/-!
# Transactions by hash

The index of transactions points into the stored bytes of blocks.  Positions are recovered by a
byte search that takes the first match, so the index is exact for blocks in which no transaction
is found before its own place.
-/

open Lib Relation

namespace Naza

variable {cr : Crypto} {c : Currency}

/-! ## Lookups -/

/-- What `read_transaction` gives back. -/
structure FoundTransaction where
  tx : Transaction
  blockHeight : Height
  blockHash : Hash
  indexInBlock : UInt32
  binarySize : UInt32

/-- `read_transaction`: `none` where it returns false.  The end of the range is a 32-bit sum. -/
def State.readTransaction (s : State) (tid : Hash) : Except Fault (Option FoundTransaction) :=
  match s.db.transactions.get tid with
  | none => .ok none
  | some tpos => do
    let bid ← s.readChain tpos.height
    let blockData ← expect (s.db.blocks.get bid) "block must be there if transaction is there"
    invariant ((tpos.offset + tpos.size).toNat ≤ blockData.length) "Transaction offset corrupted"
    match Seria.fromBinary Seria.serTransaction {}
      ((blockData.drop tpos.offset.toNat).take tpos.size.toNat) with
    | (tx, true) => return some {
        tx
        blockHeight := tpos.height
        blockHash := bid
        indexInBlock := tpos.index
        binarySize := tpos.size }
    | (_, false) => .error .serialization

/-! ## Searching -/

/-- The search finds the first place where a pattern stands. -/
theorem slowMemmem_eq_some {pat buf : BinaryArray} {position : ℕ} (hne : pat ≠ [])
    (hat : pat.isPrefixOf (buf.drop position) = true)
    (hfirst : ∀ j < position, pat.isPrefixOf (buf.drop j) = false) :
    slowMemmem pat buf = some position := by
  induction position generalizing buf with
  | zero =>
    cases buf with
    | nil =>
      rw [List.drop_zero] at hat
      exact absurd (List.prefix_nil.1 (List.isPrefixOf_iff_prefix.1 hat)) hne
    | cons b buf => exact if_pos ⟨hne, hat⟩
  | succ position ih =>
    cases buf with
    | nil =>
      rw [List.drop_nil] at hat
      exact absurd (List.prefix_nil.1 (List.isPrefixOf_iff_prefix.1 hat)) hne
    | cons b buf =>
      have hzero := hfirst 0 (Nat.succ_pos position)
      rw [List.drop_zero] at hzero
      rw [slowMemmem, if_neg (by rw [hzero]; simp), ih hat fun j hj ↦ hfirst (j + 1) (by omega)]
      rfl

/-! ## Places in a block -/

/-- Byte strings with the offsets at which they stand. -/
abbrev Places := List (BinaryArray × ℕ)

/-- The places follow one another from `start` on. -/
def Stand (buf : BinaryArray) : ℕ → Places → Prop
  | _, [] => True
  | start, (bytes, offset) :: places => start ≤ offset ∧ bytes ≠ [] ∧
      bytes.isPrefixOf (buf.drop offset) = true ∧ Stand buf (offset + bytes.length) places

/-- None is met on the way from the end of the one before it. -/
def MetFirst (buf : BinaryArray) : ℕ → Places → Prop
  | _, [] => True
  | start, (bytes, offset) :: places =>
      (∀ j < offset, start ≤ j → bytes.isPrefixOf (buf.drop j) = false) ∧
        MetFirst buf (offset + bytes.length) places

instance decidableMetFirst (buf : BinaryArray) : ∀ (start : ℕ) (places : Places),
    Decidable (MetFirst buf start places)
  | _, [] => inferInstanceAs (Decidable True)
  | start, (bytes, offset) :: places =>
    have := decidableMetFirst buf (offset + bytes.length) places
    inferInstanceAs (Decidable ((∀ j < offset, start ≤ j →
      bytes.isPrefixOf (buf.drop j) = false) ∧ MetFirst buf (offset + bytes.length) places))

/-- The offsets of byte arrays written one after the other from `start` on. -/
def arrayPlaces : ℕ → List BinaryArray → Places
  | _, [] => []
  | start, bytes :: rest =>
    let offset := start + (Seria.writeVarint bytes.length).length
    (bytes, offset) :: arrayPlaces (offset + bytes.length) rest

namespace RawBlock

variable (raw : RawBlock)

/-- The bytes of the coinbase. -/
def coinbaseBytes : BinaryArray :=
  (Seria.transactionToBinary raw.decoded.header.baseTransaction).getD []

/-- The coinbase stands before the hashes that end the template. -/
def coinbaseOffset : ℕ :=
  (Seria.binaryArrayBytes raw.block).length -
    (Seria.vectorBytes Seria.podBytes raw.decoded.header.transactionHashes).length -
    raw.coinbaseBytes.length

/-- The own byte ranges of the transactions of a block, the coinbase first. -/
def places : Places :=
  (raw.coinbaseBytes, raw.coinbaseOffset) ::
    arrayPlaces ((Seria.binaryArrayBytes raw.block).length +
      (Seria.writeVarint raw.transactions.length).length) raw.transactions

/-- The parser goes through, positions fit 32 bits and the search meets every transaction at its
own place. -/
structure Indexable : Prop where
  parses : (Block.fromRawBlock raw).2 = true
  size : (Seria.rawBlockBytes raw).length < 2 ^ 32
  metFirst : MetFirst (Seria.rawBlockBytes raw) 0 raw.places

instance : Decidable raw.Indexable :=
  decidable_of_iff ((Block.fromRawBlock raw).2 = true ∧ (Seria.rawBlockBytes raw).length < 2 ^ 32 ∧
    MetFirst (Seria.rawBlockBytes raw) 0 raw.places)
    ⟨fun h ↦ ⟨h.1, h.2.1, h.2.2⟩, fun h ↦ ⟨h.parses, h.size, h.metFirst⟩⟩

end RawBlock

/-- Arrays written one after the other stand at their places. -/
theorem stand_arrayPlaces (arrays : List BinaryArray) (hne : ∀ bytes ∈ arrays, bytes ≠ [])
    (before : BinaryArray) {start : ℕ} (hstart : start ≤ before.length) :
    Stand (before ++ (arrays.map Seria.binaryArrayBytes).flatten) start
      (arrayPlaces before.length arrays) := by
  induction arrays generalizing before start with
  | nil => trivial
  | cons bytes arrays ih =>
    have hbuf : before ++ ((bytes :: arrays).map Seria.binaryArrayBytes).flatten =
        (before ++ Seria.binaryArrayBytes bytes) ++
          (arrays.map Seria.binaryArrayBytes).flatten := by
      simp
    have hlength : (before ++ Seria.binaryArrayBytes bytes).length =
        before.length + (Seria.writeVarint bytes.length).length + bytes.length := by
      simp [Seria.binaryArrayBytes, Nat.add_assoc]
    refine ⟨by omega, hne bytes List.mem_cons_self, ?_, ?_⟩
    · have hsplit : before ++ ((bytes :: arrays).map Seria.binaryArrayBytes).flatten =
          (before ++ Seria.writeVarint bytes.length) ++
            (bytes ++ (arrays.map Seria.binaryArrayBytes).flatten) := by
        simp [Seria.binaryArrayBytes]
      rw [hsplit, List.drop_left' (by simp)]
      exact List.isPrefixOf_iff_prefix.2 (List.prefix_append _ _)
    · rw [hbuf, ← hlength]
      exact ih (fun bytes h ↦ hne bytes (List.mem_cons_of_mem _ h)) _ (le_refl _)

/-! ## Parsed blocks -/

theorem writeVarint_ne_nil (n : ℕ) : Seria.writeVarint n ≠ [] := by
  rw [Seria.writeVarint, Seria.writeVarintBytes]
  split <;> simp

theorem transactionToBinary_ne_nil {tx : Transaction} {bytes : BinaryArray}
    (h : Seria.transactionToBinary tx = some bytes) : bytes ≠ [] := by
  obtain ⟨signatures, -, h⟩ := Option.bind_eq_some_iff.1 h
  rw [← Option.some.inj h]
  simp [Seria.transactionPrefixBytes, writeVarint_ne_nil]

theorem parseTransactions_forall₂ {arrays : List BinaryArray} {txs : List Transaction}
    (h : parseTransactions arrays = (txs, true)) :
    List.Forall₂ (fun bytes tx ↦ Seria.fromBinary Seria.serTransaction {} bytes = (tx, true))
      arrays txs := by
  induction arrays generalizing txs with
  | nil =>
    rw [← (Prod.mk.inj h).1]
    exact .nil
  | cons bytes arrays ih =>
    unfold parseTransactions at h
    split at h
    · next tx hread =>
      obtain ⟨htxs, hverdict⟩ := Prod.mk.inj h
      rw [← htxs]
      exact .cons hread (ih (Prod.ext rfl hverdict))
    · cases (Prod.mk.inj h).2

namespace RawBlock

variable {raw : RawBlock}

/-- What a parser that went through has read. -/
theorem parsed (h : (Block.fromRawBlock raw).2 = true) :
    Seria.fromBinary Seria.serBlockTemplate {} raw.block = (raw.decoded.header, true) ∧
      parseTransactions raw.transactions = (raw.decoded.transactions, true) := by
  unfold RawBlock.decoded
  unfold Block.fromRawBlock at h ⊢
  split at h
  · next header hread =>
    rw [hread]
    exact ⟨rfl, Prod.ext rfl h⟩
  · cases h

/-- Each transaction was read from its own byte array. -/
theorem parsed_transaction (h : (Block.fromRawBlock raw).2 = true) :
    raw.transactions.length = raw.decoded.transactions.length ∧
    ∀ (i : ℕ) (bytes : BinaryArray), raw.transactions[i]? = some bytes → ∃ tx,
      raw.decoded.transactions[i]? = some tx ∧
      Seria.fromBinary Seria.serTransaction {} bytes = (tx, true) := by
  obtain ⟨hlength, hread⟩ := List.forall₂_iff_get.1 (parseTransactions_forall₂ (parsed h).2)
  refine ⟨hlength, fun i bytes hbytes ↦ ?_⟩
  obtain ⟨hi, rfl⟩ := List.getElem?_eq_some_iff.1 hbytes
  exact ⟨_, List.getElem?_eq_getElem (hlength ▸ hi), hread i hi (hlength ▸ hi)⟩

theorem block_eq (h : (Block.fromRawBlock raw).2 = true) :
    Seria.transactionToBinary raw.decoded.header.baseTransaction = some raw.coinbaseBytes ∧
    ∃ front, raw.block = front ++ (raw.coinbaseBytes ++
      Seria.vectorBytes Seria.podBytes raw.decoded.header.transactionHashes) := by
  obtain ⟨count, ignored, -, hwire⟩ :=
    Seria.of_fromBinary Seria.yields_serBlockTemplate (parsed h).1
  obtain ⟨header, -, hwire⟩ := Option.bind_eq_some_iff.1 hwire
  obtain ⟨parent, -, hwire⟩ := Option.bind_eq_some_iff.1 hwire
  obtain ⟨miner, hminer, hwire⟩ := Option.bind_eq_some_iff.1 hwire
  have hcoinbase : raw.coinbaseBytes = miner := by rw [coinbaseBytes, hminer, Option.getD_some]
  rw [hcoinbase]
  exact ⟨hminer, header ++ parent, by rw [← Option.some.inj hwire, List.append_assoc]⟩

/-- The transactions of a parsed block stand at their places. -/
theorem stand_places (h : (Block.fromRawBlock raw).2 = true) :
    Stand (Seria.rawBlockBytes raw) 0 raw.places := by
  obtain ⟨hcoinbase, front, hblock⟩ := block_eq h
  have hne : ∀ bytes ∈ raw.transactions, bytes ≠ [] := by
    intro bytes hmem
    obtain ⟨i, hi⟩ := List.mem_iff_getElem?.1 hmem
    obtain ⟨tx, -, hread⟩ := (parsed_transaction h).2 i bytes hi
    exact transactionToBinary_ne_nil (Seria.of_fromBinary Seria.yields_serTransaction hread)
  have hoffset : raw.coinbaseOffset = (Seria.writeVarint raw.block.length ++ front).length := by
    rw [coinbaseOffset, Seria.binaryArrayBytes]
    have hlength := congrArg List.length hblock
    simp only [List.length_append] at hlength ⊢
    omega
  have hsplit : Seria.rawBlockBytes raw = (Seria.writeVarint raw.block.length ++ front) ++
      (raw.coinbaseBytes ++
        (Seria.vectorBytes Seria.podBytes raw.decoded.header.transactionHashes ++
          Seria.vectorBytes Seria.binaryArrayBytes raw.transactions)) := by
    rw [Seria.rawBlockBytes, Seria.binaryArrayBytes]
    nth_rewrite 2 [hblock]
    simp only [List.append_assoc]
  have hbody : Seria.rawBlockBytes raw =
      (Seria.binaryArrayBytes raw.block ++ Seria.writeVarint raw.transactions.length) ++
        (raw.transactions.map Seria.binaryArrayBytes).flatten := by
    rw [Seria.rawBlockBytes, Seria.vectorBytes, List.append_assoc]
  refine ⟨Nat.zero_le _, transactionToBinary_ne_nil hcoinbase, ?_, ?_⟩
  · rw [hoffset, hsplit, List.drop_left]
    exact List.isPrefixOf_iff_prefix.2 (List.prefix_append _ _)
  · rw [hbody, ← List.length_append]
    refine stand_arrayPlaces _ hne _ ?_
    rw [hoffset, List.length_append, Seria.binaryArrayBytes, List.length_append, hblock]
    simp only [List.length_append]
    omega

end RawBlock

/-! ## Searching a parsed block -/

section Search

variable {buf bytes : BinaryArray} {start offset : ℕ} {places : Places}

theorem Stand.le (h : Stand buf start ((bytes, offset) :: places)) :
    offset + bytes.length ≤ buf.length := by
  have hprefix := (List.isPrefixOf_iff_prefix.1 h.2.2.1).length_le
  have hpos := List.length_pos_iff.2 h.2.1
  rw [List.length_drop] at hprefix
  omega

/-- The search finds a transaction at its own place. -/
theorem Stand.slowMemmem_eq (h : Stand buf start ((bytes, offset) :: places))
    (hmet : MetFirst buf start ((bytes, offset) :: places)) :
    slowMemmem bytes (buf.drop start) = some (offset - start) := by
  refine slowMemmem_eq_some h.2.1 ?_ fun j hj ↦ ?_
  · rw [List.drop_drop, Nat.add_sub_cancel' h.1]
    exact h.2.2.1
  · rw [List.drop_drop]
    exact hmet.1 (start + j) (by omega) (by omega)

theorem Stand.positionAfter_eq (h : Stand buf start ((bytes, offset) :: places))
    (hmet : MetFirst buf start ((bytes, offset) :: places)) {tpos : TransactionPos}
    (htpos : tpos.offset.toNat + tpos.size.toNat = start) :
    positionAfter buf bytes tpos =
      { tpos with offset := UInt32.ofNat offset, size := UInt32.ofNat bytes.length } := by
  simp only [positionAfter, htpos, h.slowMemmem_eq hmet, Option.getD_some,
    Nat.add_sub_cancel' h.1]

/-- And it goes on behind it. -/
theorem Stand.end_eq (h : Stand buf start ((bytes, offset) :: places))
    (hsize : buf.length < 2 ^ 32) :
    (UInt32.ofNat offset).toNat + (UInt32.ofNat bytes.length).toNat = offset + bytes.length := by
  have hle := h.le
  rw [toNat_ofNat_of_lt (by omega), toNat_ofNat_of_lt (by omega)]

end Search

@[simp]
theorem map_fst_arrayPlaces (start : ℕ) (arrays : List BinaryArray) :
    (arrayPlaces start arrays).map Prod.fst = arrays := by
  induction arrays generalizing start with
  | nil => rfl
  | cons bytes arrays ih => rw [arrayPlaces, List.map_cons, ih]

/-! ## Entries of a parsed block -/

/-- The index entries of places, the next one having index `index`. -/
def placeEntries (height : Height) : ℕ → List Hash → Places → List (Hash × TransactionPos)
  | index, tid :: tids, (bytes, offset) :: places =>
    (tid, {
      height
      offset := UInt32.ofNat offset
      size := UInt32.ofNat bytes.length
      index := UInt32.ofNat index }) :: placeEntries height (index + 1) tids places
  | _, _, _ => []

section Entries

variable {buf : BinaryArray} (hsize : buf.length < 2 ^ 32)

include hsize

theorem transactionEntries_eq {index start : ℕ} {txs : List Transaction} {tids : List Hash}
    {places : Places} {tpos : TransactionPos} (hlength : txs.length = places.length)
    (hstand : Stand buf start places) (hmet : MetFirst buf start places)
    (htpos : tpos.offset.toNat + tpos.size.toNat = start) :
    transactionEntries buf index txs tids (places.map Prod.fst) tpos =
      placeEntries tpos.height index tids places := by
  induction places generalizing index start txs tids tpos with
  | nil =>
    rw [List.length_eq_zero_iff.1 hlength]
    cases tids <;> rfl
  | cons place places ih =>
    obtain ⟨bytes, offset⟩ := place
    obtain ⟨tx, txs, rfl⟩ := List.exists_cons_of_length_eq_add_one hlength
    cases tids with
    | nil => rfl
    | cons tid tids =>
      have hposition : positionAfter buf bytes { tpos with index := UInt32.ofNat index } = _ :=
        hstand.positionAfter_eq hmet htpos
      rw [List.map_cons, transactionEntries, placeEntries]
      dsimp only
      rw [hposition, ih (Nat.succ.inj hlength) hstand.2.2.2 hmet.2 (hstand.end_eq hsize)]

/-- A search that finds its transaction leaves the database as the only thing that may refuse. -/
theorem State.indexTransaction_of (s : State) {start offset : ℕ} {bytes : BinaryArray}
    {places : Places} (tpos : TransactionPos)
    (hstand : Stand buf start ((bytes, offset) :: places))
    (hmet : MetFirst buf start ((bytes, offset) :: places))
    (htpos : tpos.offset.toNat + tpos.size.toNat = start) (tid : Hash) (text : String) :
    (∃ tpos' s', s.indexTransaction buf tid bytes text tpos = .ok (tpos', s') ∧
      tpos'.offset.toNat + tpos'.size.toNat = offset + bytes.length) ∨
    s.indexTransaction buf tid bytes text tpos = .error .database := by
  unfold State.indexTransaction
  dsimp only
  rw [htpos, hstand.slowMemmem_eq hmet]
  dsimp only [expect, bind, Except.bind]
  rw [Nat.add_sub_cancel' hstand.1]
  cases s.db.transactions.putNew tid { tpos with
    offset := UInt32.ofNat offset, size := UInt32.ofNat bytes.length } with
  | error => exact .inr rfl
  | ok transactions => exact .inl ⟨_, _, rfl, hstand.end_eq hsize⟩

theorem State.indexTransactions_ne_invariant {s : State} {index start : ℕ}
    {txs : List Transaction} {tids : List Hash} {places : Places} {tpos : TransactionPos}
    (hstand : Stand buf start places) (hmet : MetFirst buf start places)
    (htpos : tpos.offset.toNat + tpos.size.toNat = start) (text : String) :
    s.indexTransactions buf index txs tids (places.map Prod.fst) tpos ≠
      .error (.invariant text) := by
  induction places generalizing s index start txs tids tpos with
  | nil =>
    cases txs <;> cases tids <;> simp [State.indexTransactions]
  | cons place places ih =>
    obtain ⟨bytes, offset⟩ := place
    cases txs with
    | nil => simp [State.indexTransactions]
    | cons tx txs =>
      cases tids with
      | nil => simp [State.indexTransactions]
      | cons tid tids =>
        rw [List.map_cons, State.indexTransactions]
        rcases State.indexTransaction_of hsize s { tpos with index := UInt32.ofNat index }
          hstand hmet htpos tid "binary tx not found in binary block" with
            ⟨tpos', s', hok, hend⟩ | herror
        · rw [hok]
          exact ih hstand.2.2.2 hmet.2 hend
        · rw [herror]
          simp [bind, Except.bind]

end Entries

namespace RawBlock.Indexable

variable {raw : RawBlock}

theorem blockEntries_eq (h : raw.Indexable) (height : Height) (tid : Hash) :
    blockEntries (Seria.rawBlockBytes raw) raw raw.decoded height tid =
      placeEntries height 0 (tid :: raw.decoded.header.transactionHashes) raw.places := by
  have hstand := stand_places h.parses
  have hmet := h.metFirst
  have hlength : raw.decoded.transactions.length = (arrayPlaces
      ((Seria.binaryArrayBytes raw.block).length +
        (Seria.writeVarint raw.transactions.length).length) raw.transactions).length := by
    rw [← (parsed_transaction h.parses).1, ← List.length_map (f := Prod.fst), map_fst_arrayPlaces]
  have hcoinbase : positionAfter (Seria.rawBlockBytes raw) raw.coinbaseBytes { height } = _ :=
    hstand.positionAfter_eq hmet rfl
  have hrest : transactionEntries (Seria.rawBlockBytes raw) 1 raw.decoded.transactions
      raw.decoded.header.transactionHashes _ {
        height
        offset := UInt32.ofNat raw.coinbaseOffset
        size := UInt32.ofNat raw.coinbaseBytes.length } = _ :=
    transactionEntries_eq h.size hlength hstand.2.2.2 hmet.2 (hstand.end_eq h.size)
  rw [map_fst_arrayPlaces] at hrest
  rw [blockEntries, places, placeEntries]
  change (tid, positionAfter _ raw.coinbaseBytes { height }) :: transactionEntries _ 1 _ _ _
    (positionAfter _ raw.coinbaseBytes { height }) = _
  rw [hcoinbase]
  exact congrArg _ hrest

/-- The byte search of `redo_block` does not fail. -/
theorem indexBlock_ne_invariant (h : raw.Indexable) (s : State) (info : Api.BlockHeader)
    (tid : Hash) (text : String) :
    s.indexBlock (Seria.rawBlockBytes raw) raw raw.decoded info tid ≠
      .error (.invariant text) := by
  have hstand := stand_places h.parses
  have hmet := h.metFirst
  unfold State.indexBlock
  cases s.db.timestamps.putNew (info.timestamp, info.height) () with
  | error => simp [bind, Except.bind, dbWrite]
  | ok timestamps =>
    rw [(block_eq h.parses).1]
    dsimp only [dbWrite, orThrow, bind, Except.bind]
    rcases State.indexTransaction_of h.size { s with db := { s.db with timestamps } }
      { height := info.height } hstand hmet rfl tid
      "binary coinbase tx not found in binary block" with ⟨tpos', s', hok, hend⟩ | herror
    · rw [hok]
      dsimp only
      have hne : s'.indexTransactions _ 1 raw.decoded.transactions
          raw.decoded.header.transactionHashes _ tpos' ≠ _ :=
        State.indexTransactions_ne_invariant h.size hstand.2.2.2 hmet.2 hend text
      rwa [map_fst_arrayPlaces] at hne
    · rw [herror]
      simp

end RawBlock.Indexable

/-! ## Reading a coinbase alone -/

section Length

theorem length_le_flatten {α : Type} (w : α → Bytes) (hw : ∀ x, w x ≠ []) (xs : List α) :
    xs.length ≤ (xs.map w).flatten.length := by
  induction xs with
  | nil => exact Nat.zero_le _
  | cons x xs ih =>
    have hpos := List.length_pos_iff.2 (hw x)
    rw [List.map_cons, List.flatten_cons, List.length_append, List.length_cons]
    omega

/-- Vectors that have been written into less than 4 GiB may be resized again. -/
theorem Transaction.wellFormed_of_length {tx : Transaction} {bytes : BinaryArray}
    (hbin : Seria.transactionToBinary tx = some bytes) (hlength : bytes.length < 2 ^ 32)
    (hsignatures : Seria.isBase tx.inputs = true ∨ tx.inputs = [] → tx.signatures = []) :
    tx.WellFormed := by
  obtain ⟨signatures, -, hbytes⟩ := Option.bind_eq_some_iff.1 hbin
  have hprefix := congrArg List.length (Option.some.inj hbytes)
  simp only [Seria.transactionPrefixBytes, Seria.vectorBytes, Seria.binaryArrayBytes,
    List.length_append] at hprefix
  have hinput : ∀ input, Seria.transactionInputBytes input ≠ [] := by
    intro input
    cases input <;> simp [Seria.transactionInputBytes]
  have houtput : ∀ output, Seria.transactionOutputBytes output ≠ [] := by
    intro output
    simp [Seria.transactionOutputBytes, writeVarint_ne_nil]
  have hinputs := length_le_flatten _ hinput tx.inputs
  have houtputs := length_le_flatten _ houtput tx.outputs
  have hfits : ∀ {elementSize n : ℕ}, elementSize ∈ [4, 48, 72] → n < 2 ^ 32 →
      n ≤ Seria.maxVectorSize elementSize := by
    intro elementSize n hmem hn
    have hmax : ∀ elementSize ∈ [4, 48, 72], 2 ^ 32 ≤ Seria.maxVectorSize elementSize := by decide
    exact (Nat.le_of_lt hn).trans (hmax elementSize hmem)
  refine ⟨⟨hfits (by decide) (by omega), fun input hmem ↦ ?_, hfits (by decide) (by omega),
    by omega⟩, hsignatures⟩
  cases input with
  | coinbaseInput => trivial
  | keyInput input =>
    have hsub := (List.sublist_flatten_of_mem
      (List.mem_map_of_mem (f := Seria.transactionInputBytes)
      hmem)).length_le
    have hindexes := length_le_flatten (fun i : UInt32 ↦ Seria.writeVarint i.toNat)
      (fun i ↦ writeVarint_ne_nil _) input.outputIndexes
    simp only [Seria.transactionInputBytes, Seria.keyInputBytes, Seria.vectorBytes,
      List.length_cons, List.length_append] at hsub
    exact hfits (by decide) (by omega)

end Length

namespace Seria

/-- A coinbase is read without signatures. -/
theorem yields_signatures : Reader.Yields serTransaction fun _ v _ ↦
    isBase v.inputs = true ∨ v.inputs = [] → v.signatures = [] := by
  have hsignatures : ∀ v : Transaction, @Reader.Yields (List (List Signature))
      (fun _ b ↦ if isBase v.inputs then ([], some b) else serSignatures v.inputs b)
      fun _ signatures _ ↦ isBase v.inputs = true ∨ v.inputs = [] → signatures = [] := by
    intro v a b signatures rest h
    dsimp only at h
    split at h
    · obtain ⟨hnil, hrest⟩ := Prod.mk.inj h
      exact ⟨[], Option.some.inj hrest, fun _ ↦ hnil.symm⟩
    · next hbase =>
      obtain ⟨hb, hcounts⟩ := serSignatures_yields h
      refine ⟨_, hb, fun hcases ↦ ?_⟩
      rw [hcases.resolve_left hbase, List.map_nil] at hcounts
      exact List.map_eq_nil_iff.1 hcounts
  refine ((Reader.Yields.field yields_serTransactionPrefix).andThen
    (Reader.Yields.dependent fun v ↦ Reader.Yields.field (hsignatures v))).imp ?_
  rintro _ _ _ ⟨_, _, _, rfl, ⟨v, rfl, rfl⟩, signatures, rfl, h⟩
  exact h

theorem yields_baseSignatures : Reader.Yields serBlockTemplate fun _ v _ ↦
    isBase v.baseTransaction.inputs = true ∨ v.baseTransaction.inputs = [] →
      v.baseTransaction.signatures = [] := by
  have hparent : ∀ v : BlockTemplate, @Reader.Yields BlockTemplate
      (if 2 ≤ v.majorVersion then serParentBlock else Reader.done) fun _ _ _ ↦ True := by
    intro v
    split
    · exact yields_serParentBlock.imp fun _ _ _ _ ↦ trivial
    · exact Reader.Yields.done.imp fun _ _ _ _ ↦ trivial
  refine ((Reader.Yields.field yields_serBlockHeader).andThen <|
    (Reader.Yields.dependent hparent).andThen <|
    (Reader.Yields.field yields_signatures).andThen <|
    Reader.Yields.field (yields_serVector yields_serPod)).imp ?_
  rintro a _ _ ⟨_, _, _, _, -, v, _, _, _, -, _, _, _, _, ⟨miner, rfl, h⟩, hashes, rfl, -⟩
  exact h

end Seria

namespace RawBlock.Indexable

variable {raw : RawBlock}

/-- The bytes at the place of a transaction read back to it. -/
theorem fromBinary_place (h : raw.Indexable) {i : ℕ} {tx : Transaction}
    (htx : raw.decoded.allTransactions[i]? = some tx) : ∃ bytes offset,
    raw.places[i]? = some (bytes, offset) ∧
      Seria.fromBinary Seria.serTransaction {} bytes = (tx, true) := by
  cases i with
  | zero =>
    obtain rfl := Option.some.inj htx
    refine ⟨_, _, rfl, ?_⟩
    obtain ⟨hbin, -⟩ := block_eq h.parses
    have hsize := (stand_places h.parses).le
    have hwellFormed := Transaction.wellFormed_of_length hbin
      (lt_of_le_of_lt (by omega) h.size)
      (Seria.of_fromBinary Seria.yields_baseSignatures (parsed h.parses).1)
    exact Seria.fromBinary_of_reads (Seria.reads_serTransaction {} _ hwellFormed hbin)
  | succ i =>
    obtain ⟨hlength, hread⟩ := parsed_transaction h.parses
    have hlt := (List.getElem?_eq_some_iff.1 htx).1
    rw [Block.allTransactions, List.length_cons, Nat.add_lt_add_iff_right, ← hlength] at hlt
    obtain ⟨tx', htx', hbytes⟩ := hread i _ (List.getElem?_eq_getElem hlt)
    have hsame : some tx' = some tx := htx'.symm.trans htx
    obtain rfl := Option.some.inj hsame
    have hplaces := congrArg (fun l ↦ l[i]?) (map_fst_arrayPlaces
      ((Seria.binaryArrayBytes raw.block).length +
        (Seria.writeVarint raw.transactions.length).length) raw.transactions)
    rw [List.getElem?_map, List.getElem?_eq_getElem hlt, Option.map_eq_some_iff] at hplaces
    obtain ⟨⟨bytes, offset⟩, hplace, rfl⟩ := hplaces
    exact ⟨_, _, hplace, hbytes⟩

end RawBlock.Indexable

/-! ## The index of a chain -/

theorem Stand.slice {buf : BinaryArray} {start i : ℕ} {places : Places} (h : Stand buf start places)
    {bytes : BinaryArray} {offset : ℕ} (hplace : places[i]? = some (bytes, offset)) :
    offset + bytes.length ≤ buf.length ∧ (buf.drop offset).take bytes.length = bytes := by
  induction places generalizing i start with
  | nil => cases hplace
  | cons place places ih =>
    cases i with
    | zero =>
      obtain rfl := Option.some.inj hplace
      exact ⟨h.le, (List.prefix_iff_eq_take.1 (List.isPrefixOf_iff_prefix.1 h.2.2.1)).symm⟩
    | succ i => exact ih h.2.2.2 hplace

theorem mem_placeEntries {height : Height} {index i : ℕ} {tids : List Hash} {places : Places}
    {tid : Hash} {bytes : BinaryArray} {offset : ℕ} (htid : tids[i]? = some tid)
    (hplace : places[i]? = some (bytes, offset)) :
    (tid, {
      height
      offset := UInt32.ofNat offset
      size := UInt32.ofNat bytes.length
      index := UInt32.ofNat (index + i) }) ∈ placeEntries height index tids places := by
  induction places generalizing index i tids with
  | nil => cases hplace
  | cons place places ih =>
    cases tids with
    | nil => cases htid
    | cons first tids =>
      cases i with
      | zero =>
        obtain rfl := Option.some.inj htid
        obtain rfl := Option.some.inj hplace
        exact List.mem_cons_self
      | succ i =>
        have hindex : index + (i + 1) = index + 1 + i := by omega
        rw [List.getElem?_cons_succ] at htid hplace
        rw [hindex]
        exact List.mem_cons_of_mem _ (ih htid hplace)

/-- The places are counted by offsets. -/
theorem Stand.index_le {buf : BinaryArray} {start i : ℕ} {places : Places}
    (h : Stand buf start places) {bytes : BinaryArray} {offset : ℕ}
    (hplace : places[i]? = some (bytes, offset)) : start + i ≤ offset := by
  induction places generalizing i start with
  | nil => cases hplace
  | cons place places ih =>
    cases i with
    | zero =>
      obtain rfl := Option.some.inj hplace
      exact h.1
    | succ i =>
      have hle := ih h.2.2.2 hplace
      have hstart := h.1
      have hpos := List.length_pos_iff.2 h.2.1
      omega

theorem index_of_mem_placeEntries {height : Height} {index : ℕ} {tids : List Hash}
    {places : Places} {tid : Hash} {tpos : TransactionPos}
    (h : (tid, tpos) ∈ placeEntries height index tids places) :
    ∃ i < places.length, tids[i]? = some tid := by
  induction places generalizing index tids with
  | nil => cases tids <;> cases h
  | cons place places ih =>
    cases tids with
    | nil => cases h
    | cons first tids =>
      rw [placeEntries] at h
      rcases List.mem_cons.1 h with heq | h
      · exact ⟨0, Nat.succ_pos _, congrArg some (Prod.mk.inj heq).1.symm⟩
      · obtain ⟨i, hi, htid⟩ := ih h
        exact ⟨i + 1, Nat.succ_lt_succ hi, htid⟩

section Chain

variable {Q : Ledger → Block → Prop} {chain : List (Hash × RawBlock)}

/-- The entry of a new key is found. -/
theorem Store.get_putAll_of_mem {s : Store Hash TransactionPos}
    {entries : List (Hash × TransactionPos)} (hnodup : (entries.map Prod.fst).Nodup) {tid : Hash}
    {tpos : TransactionPos} (hmem : (tid, tpos) ∈ entries) :
    (s.putAll entries).get tid = some tpos := by
  induction entries generalizing s with
  | nil => cases hmem
  | cons e entries ih =>
    rw [List.map_cons, List.nodup_cons] at hnodup
    rw [Store.putAll, List.foldl_cons]
    rcases List.mem_cons.1 hmem with rfl | hmem
    · exact (Store.get_putAll_of_not_mem _ hnodup.1).trans (Store.get_put_self _ _ _)
    · exact ih hnodup.2 hmem

/-- The index holds the entries of the blocks of the chain and no others. -/
theorem ValidChain.transactions_get (h : ValidChain cr Q chain) {tid : Hash}
    {tpos : TransactionPos} : (tablesOf cr chain).transactions.get tid = some tpos ↔
      ∃ height bid raw, chain[height]? = some (bid, raw) ∧ (tid, tpos) ∈
        blockEntries (Seria.rawBlockBytes raw) raw raw.decoded (UInt32.ofNat height)
          (raw.baseHash cr) := by
  induction h with
  | nil =>
    change (∅ : Store Hash TransactionPos).get tid = some tpos ↔ _
    simp
  | @concat chain bid raw _ hadmits _ ih =>
    rw [tablesOf_concat]
    change ((tablesOf cr chain).transactions.putAll _).get tid = some tpos ↔ _
    have hnodup := hadmits.keys_nodup
    have hnew := hadmits.keys
    rw [← hadmits.keys_eq] at hnodup hnew
    constructor
    · intro hget
      by_cases hmem : tid ∈ (blockEntries (Seria.rawBlockBytes raw) raw raw.decoded
          (UInt32.ofNat chain.length) (raw.baseHash cr)).map Prod.fst
      · obtain ⟨⟨tid', tpos'⟩, hentry, rfl⟩ := List.mem_map.1 hmem
        rw [Store.get_putAll_of_mem hnodup hentry, Option.some.injEq] at hget
        subst hget
        exact ⟨chain.length, bid, raw, by simp, hentry⟩
      · rw [Store.get_putAll_of_not_mem _ hmem] at hget
        obtain ⟨height, bid', raw', hat, hentry⟩ := ih.1 hget
        refine ⟨height, bid', raw', ?_, hentry⟩
        rw [List.getElem?_append_left (List.getElem?_eq_some_iff.1 hat).1, hat]
    · rintro ⟨height, bid', raw', hat, hentry⟩
      rcases Nat.lt_trichotomy height chain.length with hlt | rfl | hgt
      · rw [List.getElem?_append_left hlt] at hat
        have hget := ih.2 ⟨height, bid', raw', hat, hentry⟩
        rw [Store.get_putAll_of_not_mem _ fun hmem ↦ ?_, hget]
        rw [hnew tid hmem] at hget
        cases hget
      · rw [List.getElem?_concat_length, Option.some.injEq, Prod.mk.injEq] at hat
        obtain ⟨rfl, rfl⟩ := hat
        exact Store.get_putAll_of_mem hnodup hentry
      · rw [List.getElem?_eq_none (by simpa using hgt)] at hat
        cases hat

theorem getElem?_filterMap_range {α : Type} {f : ℕ → Option α} {n : ℕ}
    (h : ∀ i < n, f i ≠ none) (i : ℕ) :
    ((List.range n).filterMap f)[i]? = if i < n then f i else none := by
  induction n generalizing i with
  | zero => rfl
  | succ n ih =>
    obtain ⟨x, hx⟩ := Option.ne_none_iff_exists'.1 (h n (Nat.lt_succ_self n))
    have hlength : ((List.range n).filterMap f).length = n := by
      rw [List.filterMap_length_eq_length.2, List.length_range]
      intro j hj
      exact Option.isSome_iff_ne_none.2 (h j (by rw [List.mem_range] at hj; omega))
    rw [List.range_succ, List.filterMap_append, List.filterMap_cons_some hx, List.filterMap_nil]
    rcases Nat.lt_trichotomy i n with hlt | rfl | hgt
    · rw [List.getElem?_append_left (by omega), ih (fun j hj ↦ h j (by omega)), if_pos hlt,
        if_pos (by omega)]
    · rw [List.getElem?_append_right (by omega), hlength, Nat.sub_self, if_pos (by omega), hx]
      rfl
    · rw [List.getElem?_eq_none (by simp [hlength]; omega), if_neg (by omega)]

/-- The main chain, indexed by height. -/
theorem State.getElem?_mainRaw {s : State} (h : Linked cr c s) (hs : Started s) (height : ℕ) :
    s.mainRaw[height]? =
      if height < s.tipHeight.toNat + 1 then s.rawAt (UInt32.ofNat height) else none := by
  refine getElem?_filterMap_range (fun height hlt ↦ ?_) height
  have htip := s.tipHeight.toNat_lt
  have hmain := h.mainChain hs
  obtain ⟨bid, hbid⟩ := Option.ne_none_iff_exists'.1 (hmain.present (UInt32.ofNat height) (by
    rw [UInt32.le_iff_toNat_le, toNat_ofNat_of_lt (by omega)]
    omega))
  obtain ⟨info, hinfo, -⟩ := hmain.header _ _ hbid
  obtain ⟨pb, rfl, hstores⟩ := h.stored bid info hinfo
  rw [rawAt_of_stores hstores hbid]
  simp

end Chain

/-! ## Runs -/

/-- The event brings a block that can be indexed, or one that its check refuses. -/
def Event.IndexableOrRefused (cr : Crypto) (c : Currency) (s : State) : Event → Prop
  | .addBlock now raw context => raw.val.Indexable ∨
    ∀ pb prev info, PreparedBlock.ofRawBlock cr raw.val context = .ok pb →
      ¬ s.Accepts cr c now pb prev info
  | _ => True

theorem genesis_indexable (isTestnet : Bool) (raw : RawBlock)
    (h : Block.toRawBlock { header := genesisBlockTemplate isTestnet } = some raw) :
    raw.Indexable := by
  have hall : ∀ isTestnet, ∀ raw ∈ Block.toRawBlock { header := genesisBlockTemplate isTestnet },
      raw.Indexable := by decide +kernel
  exact hall isTestnet raw h

/-- Every stored block reads back to a raw block that meets `Q`. -/
theorem readable_preserved {Q : RawBlock → Prop} :
    Preserves (Change cr c fun _ pb ↦ Q pb.rawBlock) fun s ↦ Linked cr c s ∧
      ∀ bid data raw, s.readBlock bid = .ok (some (data, raw)) →
        Q raw ∧ data = Seria.rawBlockBytes raw := by
  refine Preserves.and linked_preserved ?_
  intro s t hchange hlinked h
  have hsame : ∀ {u : State}, u.db.blocks = s.db.blocks → ∀ bid data raw,
      u.readBlock bid = .ok (some (data, raw)) → Q raw ∧ data = Seria.rawBlockBytes raw := by
    intro u hu bid data raw hread
    rw [State.readBlock, hu] at hread
    exact h bid data raw hread
  cases hchange with
  | addTransaction hok =>
    obtain ⟨pool, version, rfl⟩ := State.addTransaction_frame hok
    exact hsame rfl
  | clearPool => exact hsame rfl
  | poolVersion => exact hsame rfl
  | cacheNextIndex => exact hsame rfl
  | storeBlock hQ hbuilt hroot haccepts hok =>
    rename_i now pb prev info
    obtain ⟨hfresh, blocks, hnew, -, rfl⟩ := State.storeBlock_eq hok
    obtain rfl := hnew (by_contra fun hne ↦ hlinked.blocks _ hne hfresh)
    intro bid data raw hread
    by_cases heq : pb.bid = bid
    · rw [State.readBlock] at hread
      dsimp only at hread
      rw [heq, Store.get_put_self] at hread
      dsimp only at hread
      rw [hbuilt.blockData_eq, Seria.fromBinary_rawBlockBytes _ hbuilt.fits] at hread
      obtain ⟨rfl, rfl⟩ := Prod.mk.inj (Option.some.inj (Except.ok.inj hread))
      exact ⟨hQ, rfl⟩
    · refine h bid data raw ?_
      rw [State.readBlock] at hread ⊢
      dsimp only at hread
      rw [Store.get_put_of_ne _ _ heq] at hread
      exact hread
  | countChild => exact hsame rfl
  | connect hstores _ hredo hpush =>
    obtain ⟨-, hblocks, -⟩ := State.links_eq_iff.1
      (State.links_of_treePart (State.redoBlockIndexed_treePart hredo))
    obtain ⟨-, _, _, rfl⟩ := State.pushChain_eq hpush
    exact hsame hblocks
  | disconnect hundo =>
    obtain ⟨_, _, _, s₁, s₂, -, -, h₁, h₂, h₃⟩ := State.undoTip_eq hundo
    obtain ⟨-, hblocks, -⟩ := State.links_eq_iff.1
      (State.links_of_treePart (State.undoBlockIndexed_treePart h₁))
    obtain ⟨-, -, _, -, rfl⟩ := State.popChain_eq h₂
    obtain ⟨-, _, _, -, -, rfl⟩ := State.tipChanged_eq h₃
    exact hsame hblocks
  | readTip hroot hread htip =>
    obtain ⟨-, hdb⟩ := hlinked.readTip (by rw [hroot]; simp) hread
    obtain ⟨-, _, _, -, -, rfl⟩ := State.tipChanged_eq htip
    exact hsame (by rw [hdb])
  | tipChanged htip =>
    obtain ⟨-, _, _, -, -, rfl⟩ := State.tipChanged_eq htip
    exact hsame rfl

/-- The transactions of an accepted block have the hashes that its header lists. -/
theorem checkTransactions_hashes {maxSize : UInt32} {arrays : List BinaryArray}
    {txs : List Transaction} {tids : List Hash} {size : ℕ}
    (h : checkTransactions cr maxSize arrays txs tids = .accept size)
    (hcount : txs.length = tids.length) (hraws : txs.length = arrays.length) {i : ℕ}
    {tx : Transaction} (htx : txs[i]? = some tx) : ∃ tid,
      tids[i]? = some tid ∧ getTransactionHash cr tx = some tid := by
  induction txs generalizing arrays tids size i with
  | nil => cases htx
  | cons first txs ih =>
    obtain ⟨tid, tids, rfl⟩ := List.exists_cons_of_length_eq_add_one hcount.symm
    obtain ⟨bytes, arrays, rfl⟩ := List.exists_cons_of_length_eq_add_one hraws.symm
    simp only [checkTransactions, Check.bind_eq_accept_iff, Check.require_eq_accept_iff,
      Check.lift_eq_accept_iff, orThrow_eq_ok_iff] at h
    obtain ⟨-, -, hash, hhash, -, rfl, rest, hrest, -⟩ := h
    cases i with
    | zero =>
      obtain rfl := Option.some.inj htx
      exact ⟨_, rfl, hhash⟩
    | succ i => exact ih hrest (Nat.succ.inj hcount) (Nat.succ.inj hraws) htx

/-- A block of the main chain was accepted, and its table entries are those of its places. -/
theorem State.rawAt_spec {s : State} (h : Linked cr c s) {height : Height} {bid : Hash}
    {raw : RawBlock} (hat : s.rawAt height = some (bid, raw)) :
    s.db.chain.get height = some bid ∧ s.db.blocks.get bid = some (Seria.rawBlockBytes raw) ∧
    (∃ data, s.readBlock bid = .ok (some (data, raw))) ∧
    ∀ (i : ℕ) (tx : Transaction), raw.decoded.allTransactions[i]? = some tx → ∃ tid,
      (raw.baseHash cr :: raw.decoded.header.transactionHashes)[i]? = some tid ∧
      getTransactionHash cr tx = some tid := by
  obtain ⟨bid', hchain, hat⟩ := Option.bind_eq_some_iff.1 hat
  obtain ⟨info, hinfo, -⟩ := (h.mainChain (h.started_of_get hchain)).header _ _ hchain
  obtain ⟨pb, rfl, hstores⟩ := h.stored bid' info hinfo
  rw [hstores.readBlock_eq] at hat
  obtain ⟨rfl, rfl⟩ := Prod.mk.inj (Option.some.inj hat)
  refine ⟨hchain, by rw [hstores.block, hstores.built.blockData_eq],
    ⟨_, hstores.readBlock_eq⟩, fun i tx htx ↦ ?_⟩
  obtain ⟨s₀, now, prev, -, haccepts⟩ := hstores.accepted
  obtain ⟨m, haccepted, -⟩ := checkStandaloneConsensus_eq_accept_iff.1 haccepts.check
  have hblock : pb.rawBlock.decoded = pb.block := hstores.built.block_eq.symm
  have hbase : getTransactionHash cr pb.block.header.baseTransaction =
      some (pb.rawBlock.baseHash cr) := by
    rw [RawBlock.baseHash, hblock, hstores.built.getTransactionHash_eq, Option.getD_some]
  rw [hblock] at htx ⊢
  cases i with
  | zero =>
    obtain rfl := Option.some.inj htx
    exact ⟨_, rfl, hbase⟩
  | succ i =>
    exact checkTransactions_hashes haccepted.transactions haccepted.count_eq.1
      haccepted.count_eq.2 htx

/-- The index holds the entries of the main chain. -/
theorem FollowsChain.transactions_get {s : State} (h : FollowsChain cr s) (hlinked : Linked cr c s)
    (hs : Started s) {tid : Hash} {tpos : TransactionPos} :
    s.db.transactions.get tid = some tpos ↔ ∃ (height : Height) (bid : Hash) (raw : RawBlock),
      s.rawAt height = some (bid, raw) ∧ (tid, tpos) ∈
        blockEntries (Seria.rawBlockBytes raw) raw raw.decoded height (raw.baseHash cr) := by
  rw [h.holds.transactions]
  refine h.valid.transactions_get.trans ⟨?_, ?_⟩
  · rintro ⟨height, bid, raw, hat, hentry⟩
    rw [State.getElem?_mainRaw hlinked hs] at hat
    split at hat
    · exact ⟨_, bid, raw, hat, hentry⟩
    · cases hat
  · rintro ⟨height, bid, raw, hat, hentry⟩
    have hle := (hlinked.mainChain hs).height_le height bid (State.rawAt_spec hlinked hat).1
    rw [UInt32.le_iff_toNat_le] at hle
    refine ⟨height.toNat, bid, raw, ?_, by rwa [UInt32.ofNat_toNat]⟩
    rw [State.getElem?_mainRaw hlinked hs, if_pos (by omega), UInt32.ofNat_toNat, hat]

theorem RawBlock.Indexable.length_places {raw : RawBlock} (h : raw.Indexable) :
    raw.places.length = raw.decoded.allTransactions.length := by
  rw [RawBlock.places, Block.allTransactions, List.length_cons, List.length_cons,
    ← (RawBlock.parsed_transaction h.parses).1, ← List.length_map (f := Prod.fst),
    map_fst_arrayPlaces]

/-- In a run whose blocks can be indexed or are refused, `read_transaction` finds every transaction
of the main chain under its hash, read from its own bytes, and nothing else; and the byte search of
no block that is offered or stored fails. -/
theorem Run.transactions_found {isTestnet : Bool} {s : State}
    (h : Run cr (Currency.make cr isTestnet)
      (fun s e ↦ e.IndexableOrRefused cr (Currency.make cr isTestnet) s) s) :
    (∀ (height : Height) (bid : Hash) (raw : RawBlock) (i : ℕ) (tx : Transaction) (tid : Hash),
      s.rawAt height = some (bid, raw) → raw.decoded.allTransactions[i]? = some tx →
      getTransactionHash cr tx = some tid → ∃ bytes offset tpos found,
        raw.places[i]? = some (bytes, offset) ∧
        ((Seria.rawBlockBytes raw).drop offset).take bytes.length = bytes ∧
        s.db.transactions.get tid = some tpos ∧ tpos.offset.toNat = offset ∧
        tpos.size.toNat = bytes.length ∧
        s.readTransaction tid = .ok (some found) ∧ found.tx = tx ∧ found.blockHeight = height ∧
        found.blockHash = bid ∧ found.indexInBlock.toNat = i ∧
        found.binarySize.toNat = bytes.length) ∧
    (∀ tid, (∀ (height : Height) (bid : Hash) (raw : RawBlock), ∀ tx ∈ raw.decoded.allTransactions,
      s.rawAt height = some (bid, raw) → getTransactionHash cr tx ≠ some tid) →
      s.readTransaction tid = .ok none) ∧
    ∀ raw : RawBlock, (raw.Indexable ∨ ∃ bid data, s.readBlock bid = .ok (some (data, raw))) →
      ∀ (s₁ : State) (info : Api.BlockHeader) (tid : Hash) (text : String),
        s₁.indexBlock (Seria.rawBlockBytes raw) raw raw.decoded info tid ≠
          .error (.invariant text) := by
  obtain ⟨hchanges, hs⟩ := h.changes_of (genesis_indexable isTestnet) fun _ _ _ _ hevent ↦ hevent
  obtain ⟨hlinked, hreadable⟩ := readable_preserved.star hchanges ⟨linked_empty, by
    intro bid data raw hread
    rw [State.readBlock, Store.get_empty] at hread
    cases Except.ok.inj hread⟩
  have hfollows : FollowsChain cr s :=
    (followsChain_preserved.star hchanges ⟨linked_empty, followsChain_empty⟩).2
  refine ⟨?_, ?_, ?_⟩
  · intro height bid raw i tx tid hat htx htid
    obtain ⟨hchain, hblocks, ⟨data, hread⟩, hhashes⟩ := State.rawAt_spec hlinked hat
    have hindexable := (hreadable bid data raw hread).1
    have hstand := RawBlock.stand_places hindexable.parses
    obtain ⟨bytes, offset, hplace, hbytes⟩ := hindexable.fromBinary_place htx
    obtain ⟨tid', htid', hhash⟩ := hhashes i tx htx
    rw [htid, Option.some.injEq] at hhash
    obtain ⟨hend, hslice⟩ := hstand.slice hplace
    have hindex := hstand.index_le hplace
    have hsize := hindexable.size
    have hoffset32 : (UInt32.ofNat offset).toNat = offset := toNat_ofNat_of_lt (by omega)
    have hsize32 : (UInt32.ofNat bytes.length).toNat = bytes.length :=
      toNat_ofNat_of_lt (by omega)
    have hsum : (UInt32.ofNat offset + UInt32.ofNat bytes.length).toNat =
        offset + bytes.length := by
      rw [UInt32.toNat_add, hoffset32, hsize32]
      exact Nat.mod_eq_of_lt (by omega)
    have hget : s.db.transactions.get tid = some {
        height
        offset := UInt32.ofNat offset
        size := UInt32.ofNat bytes.length
        index := UInt32.ofNat (0 + i) } := by
      refine (hfollows.transactions_get hlinked hs).2 ⟨height, bid, raw, hat, ?_⟩
      rw [hindexable.blockEntries_eq]
      exact mem_placeEntries (hhash ▸ htid') hplace
    refine ⟨bytes, offset, _, ⟨tx, height, bid, UInt32.ofNat (0 + i), UInt32.ofNat bytes.length⟩,
      hplace, hslice, hget, hoffset32, hsize32, ?_, rfl, rfl, rfl, ?_, hsize32⟩
    · rw [State.readTransaction, hget]
      dsimp only
      rw [State.readChain, hchain]
      dsimp only [expect, bind, Except.bind]
      rw [hblocks]
      dsimp only
      rw [invariant, if_pos (by rw [hsum]; exact hend)]
      dsimp only
      rw [hoffset32, hsize32, hslice, hbytes]
      rfl
    · rw [Nat.zero_add]
      exact toNat_ofNat_of_lt (by omega)
  · intro tid hnone
    cases hget : s.db.transactions.get tid with
    | none => rw [State.readTransaction, hget]
    | some tpos =>
      exfalso
      obtain ⟨height, bid, raw, hat, hentry⟩ := (hfollows.transactions_get hlinked hs).1 hget
      obtain ⟨-, -, ⟨data, hread⟩, hhashes⟩ := State.rawAt_spec hlinked hat
      have hindexable := (hreadable bid data raw hread).1
      rw [hindexable.blockEntries_eq] at hentry
      obtain ⟨i, hi, htid⟩ := index_of_mem_placeEntries hentry
      rw [hindexable.length_places] at hi
      obtain ⟨tid', htid', hhash⟩ := hhashes i _ (List.getElem?_eq_getElem hi)
      rw [htid, Option.some.injEq] at htid'
      exact hnone height bid raw _ (List.getElem_mem hi) hat (htid' ▸ hhash)
  · rintro raw (hindexable | ⟨bid, data, hread⟩) s₁ info tid text
    · exact hindexable.indexBlock_ne_invariant s₁ info tid text
    · exact (hreadable bid data raw hread).1.indexBlock_ne_invariant s₁ info tid text

/-- The coinbase of a first block is found. -/
theorem runFromStart_firstCoinbase : returns (State.start sampleCrypto testnet 0 {}) (fun s ↦
      returns (s.step sampleCrypto testnet (.offer 1000 (firstTestnetBlock.rawBlock []))) fun t ↦
        (firstTestnetBlock.rawBlock []).Indexable ∧
        t.rawAt 1 = some (firstTestnetBlock.sampleHash, firstTestnetBlock.rawBlock [])) = true := by
  decide +kernel

theorem Run.transactions_found_firstTestnetBlock : ∃ (s : State) (tid : Hash)
    (found : FoundTransaction), Reachable sampleCrypto testnet s ∧
    s.readTransaction tid = .ok (some found) ∧ found.blockHeight = 1 ∧
    found.blockHash = firstTestnetBlock.sampleHash := by
  obtain ⟨s₀, hstart, htest⟩ := returns_iff.1 runFromStart_firstCoinbase
  obtain ⟨s, hstep, htest⟩ := returns_iff.1 htest
  rw [decide_eq_true_eq] at htest
  obtain ⟨hindexable, hat⟩ := htest
  have hfits : (firstTestnetBlock.rawBlock []).FitsMemory := by decide +kernel
  have hrun : Run sampleCrypto (Currency.make sampleCrypto true) (fun s e ↦
      e.IndexableOrRefused sampleCrypto (Currency.make sampleCrypto true) s) s := by
    refine .step (.start hstart) ?_ hstep
    rw [Event.offer, dif_pos hfits]
    exact .inl hindexable
  obtain ⟨tid, htid⟩ := Option.isSome_iff_exists.1 (show (getTransactionHash sampleCrypto
    (firstTestnetBlock.rawBlock []).decoded.header.baseTransaction).isSome = true by
      decide +kernel)
  obtain ⟨_, _, _, found, -, -, -, -, -, hfound, -, hheight, hhash, -⟩ :=
    (Run.transactions_found hrun).1 1 _ _ 0 _ tid hat rfl htid
  exact ⟨s, tid, found, .step (.start hstart) trivial hstep, hfound, hheight, hhash⟩

/-! ## A block that is cut off -/

/-- The bytes of a block at height 1 of the main network, cut off inside the extra of its
coinbase. -/
def truncatedBlock : RawBlock :=
  let block := ((sampleTemplate 1 mainnet.genesisBlockHash 0
    (sampleCoinbase 1 281470681743360 [1, 2, 3, 4]) []).rawBlock []).block
  { block := block.take (block.length - 3) }

theorem runFromStart_truncatedBlock : returns (runFromStart sampleCrypto mainnet []) (fun s ↦
      returns (PreparedBlock.ofRawBlock sampleCrypto truncatedBlock false) fun pb ↦
        match s.addBlock sampleCrypto mainnet 1000 pb with
        | .error (.invariant text) => text = "binary coinbase tx not found in binary block"
        | _ => false) = true := by
  decide +kernel

/-- It passes the check, and then the search for its coinbase fails. -/
theorem State.addBlock_truncatedBlock : ∃ (s : State) (pb : PreparedBlock),
    Reachable sampleCrypto mainnet s ∧ pb.Built sampleCrypto ∧
    s.addBlock sampleCrypto mainnet 1000 pb =
      .error (.invariant "binary coinbase tx not found in binary block") := by
  obtain ⟨s, hrun, htest⟩ := returns_iff.1 runFromStart_truncatedBlock
  obtain ⟨pb, hprep, htest⟩ := returns_iff.1 htest
  refine ⟨s, pb, reachable_of_runFromStart hrun,
    (PreparedBlock.built_of_ofRawBlock (by decide +kernel) hprep).1, ?_⟩
  split at htest
  · next text hadd =>
    rw [decide_eq_true_eq] at htest
    rw [hadd, htest]
  · cases htest

end Naza
