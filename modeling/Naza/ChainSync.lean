import Naza.Concrete

/-!
# Synchronizing chains

A peer sends a locator, ids of its main chain with growing gaps down to the genesis block, and the
node answers with the part of its own main chain behind the last common block.
-/

open Lib

namespace Naza

/-! ## Locators -/

/-- The distance from the tip of the next entry, after `size` entries. -/
def nextJump (jump : UInt32) (size : ℕ) : UInt32 :=
  if size ≤ 10 then jump + 1 else jump + ((1 : UInt32) <<< UInt32.ofNat (size - 10))

/-- The loop of both `get_sparse_chain`.  Forty entries reach down 2^31 blocks; `jump` overflows
before there are more, and then the loop does not end. -/
def sparseEntries (read : Height → Except Fault Hash) (tailHeight tipHeight : Height) :
    ℕ → UInt32 → ℕ → Except Fault (List Hash)
  | fuel, jump, size =>
    if jump + tailHeight ≤ tipHeight then
      match fuel with
      | 0 => .error .diverged
      | fuel + 1 => do
        let bid ← read (tipHeight - jump)
        let rest ← sparseEntries read tailHeight tipHeight fuel (nextJump jump (size + 1))
          (size + 1)
        return bid :: rest
    else .ok []

/-- The genesis block closes every locator. -/
def withGenesis (genesisBid : Hash) (tipPath : List Hash) : List Hash :=
  if tipPath.getLast? = some genesisBid then tipPath else tipPath ++ [genesisBid]

namespace State

/-- `BlockChain::get_sparse_chain`. -/
def getSparseChain (c : Currency) (s : State) : Except Fault (List Hash) := do
  let tipPath ← sparseEntries s.readChain 0 s.tipHeight 40 0 0
  return withGenesis c.genesisBlockHash tipPath

/-! ## Answers -/

/-- `find_blockchain_supplement`. -/
def findBlockchainSupplement (s : State) : List Hash → Height
  | [] => 0
  | lit :: remoteBlockIds =>
    match s.db.headers.get lit with
    | none => s.findBlockchainSupplement remoteBlockIds
    | some header =>
      if s.tipHeight < header.height then s.findBlockchainSupplement remoteBlockIds
      else header.height

/-- The loop of `get_sync_headers_chain` that leaves a side branch; heights bound the rounds. -/
def leaveSideBranch (s : State) : ℕ → Api.BlockHeader → Except Fault Api.BlockHeader
  | fuel, header =>
    if header.height = 0 ∨ s.db.chain.get header.height = some header.hash then .ok header
    else
      match fuel with
      | 0 => .error .diverged
      | fuel + 1 => do
        let prev ← s.readHeader header.previousBlockHash
        s.leaveSideBranch fuel prev

/-- The main chain from a height on, at most so many blocks. -/
def chainFrom (s : State) : ℕ → Height → Except Fault (List Hash)
  | 0, _ => .ok []
  | maxCount + 1, height =>
    if height ≤ s.tipHeight then do
      let bid ← s.readChain height
      let rest ← s.chainFrom maxCount (height + 1)
      return bid :: rest
    else .ok []

/-- `get_sync_headers_chain`: the start height and the ids. -/
def getSyncHeadersChain (maxCount : ℕ) (s : State) :
    List Hash → Except Fault (Height × List Hash)
  | [] => .ok (s.tipHeight + 1, [])
  | lit :: locator =>
    match s.db.headers.get lit with
    | none => s.getSyncHeadersChain maxCount locator
    | some header => do
      let header ← s.leaveSideBranch header.height.toNat header
      let chain ← s.chainFrom maxCount header.height
      return (header.height, chain)

end State

variable {cr : Crypto} {c : Currency}

/-! ## What locators hold -/

/-- Blocks of the main chain of `s`, from the top down, the genesis block among them. -/
structure Locates (c : Currency) (s : State) (locator : List Hash) : Prop where
  onMain : ∀ bid ∈ locator, ∃ height, s.db.chain.get height = some bid
  descending : locator.Pairwise fun bid bid' ↦ ∀ height height',
    s.db.chain.get height = some bid → s.db.chain.get height' = some bid' → height' < height
  genesis : c.genesisBlockHash ∈ locator

/-- A block stands at one height of the main chain. -/
theorem MainChain.height_unique {s : State} (h : MainChain c s) {bid : Hash} {k k' : Height}
    (hk : s.db.chain.get k = some bid) (hk' : s.db.chain.get k' = some bid) : k = k' := by
  obtain ⟨info, hinfo, hheight, -⟩ := h.header k bid hk
  obtain ⟨info', hinfo', hheight', -⟩ := h.header k' bid hk'
  have heq : info = info' := Option.some.inj (hinfo.symm.trans hinfo')
  rw [← hheight, ← hheight', heq]

/-- The distance from the tip after so many entries. -/
def jumpOf (size : ℕ) : ℕ := if size ≤ 10 then size else 2 ^ (size - 9) + 8

theorem jumpOf_lt_succ (size : ℕ) : jumpOf size < jumpOf (size + 1) := by
  have hpow : 2 ^ (size + 1 - 9) = 2 ^ (size - 9) + 2 ^ (size - 9) ∨ size < 9 := by
    by_cases h : size < 9
    · exact .inr h
    · left
      rw [Nat.sub_add_comm (by omega), Nat.pow_succ]
      omega
  have hpos : 0 < 2 ^ (size - 9) := Nat.two_pow_pos _
  unfold jumpOf
  split <;> split
  · omega
  · have : size = 10 := by omega
    subst this
    decide
  · omega
  · omega

theorem nextJump_toNat {jump : UInt32} {size : ℕ} (hsize : size < 40)
    (hjump : jump.toNat = jumpOf size) : (nextJump jump (size + 1)).toNat = jumpOf (size + 1) := by
  have hle : ∀ k < 40, jumpOf (k + 1) = (if k + 1 ≤ 10 then jumpOf k + 1
      else jumpOf k + 2 ^ (k + 1 - 10)) ∧ jumpOf (k + 1) < 2 ^ 32 := by decide
  have hshift : ∀ k < 40, 10 < k + 1 →
      ((1 : UInt32) <<< UInt32.ofNat (k + 1 - 10)).toNat = 2 ^ (k + 1 - 10) := by decide
  obtain ⟨hnext, hbound⟩ := hle size hsize
  rw [nextJump]
  by_cases hten : size + 1 ≤ 10
  · rw [if_pos hten] at hnext ⊢
    have hone : (1 : UInt32).toNat = 1 := rfl
    rw [UInt32.toNat_add, hjump, hone, hnext]
    omega
  · rw [if_neg hten] at hnext ⊢
    rw [UInt32.toNat_add, hjump, hshift size hsize (by omega), hnext]
    omega

/-- What a returned list of entries holds, when heights outside of the window cannot be read. -/
theorem sparseEntries_ok {read : Height → Except Fault Hash} {tailHeight tipHeight : Height}
    (hread : ∀ height bid, read height = .ok bid → tailHeight ≤ height ∧ height ≤ tipHeight) :
    ∀ (fuel : ℕ) (jump : UInt32) (size : ℕ) (tipPath : List Hash), size + fuel = 40 →
      jump.toNat = jumpOf size → sparseEntries read tailHeight tipHeight fuel jump size =
        .ok tipPath → ∃ heights : List Height, heights.Pairwise (fun h h' ↦ h' < h) ∧
          (∀ h ∈ heights, h.toNat + jump.toNat ≤ tipHeight.toNat) ∧
          List.Forall₂ (fun h bid ↦ read h = .ok bid) heights tipPath := by
  intro fuel
  induction fuel with
  | zero =>
    intro jump size tipPath _ _ hok
    rw [sparseEntries] at hok
    split at hok
    · cases hok
    · exact ⟨[], .nil, by simp, Except.ok.inj hok ▸ .nil⟩
  | succ fuel ih =>
    intro jump size tipPath hsize hjump hok
    rw [sparseEntries] at hok
    split at hok
    · simp only [bind_eq_ok_iff] at hok
      obtain ⟨bid, hbid, rest, hrest, hok⟩ := hok
      have hnext := nextJump_toNat (by omega : size < 40) hjump
      obtain ⟨heights, hdesc, hbelow, hall⟩ := ih _ _ _ (by omega) hnext hrest
      have hlt := jumpOf_lt_succ size
      obtain ⟨-, hwindow⟩ := hread _ _ hbid
      -- a wrapped distance would have left the window
      have hbound : ∀ k < 40, jumpOf k < 2 ^ 32 := by decide
      have hle : jump.toNat ≤ tipHeight.toNat := by
        have hj := hbound size (by omega)
        rw [UInt32.le_iff_toNat_le, UInt32.toNat_sub] at hwindow
        have ht := tipHeight.toNat_lt
        omega
      have hheight : (tipHeight - jump).toNat = tipHeight.toNat - jump.toNat :=
        UInt32.toNat_sub_of_le _ _ (UInt32.le_iff_toNat_le.2 hle)
      refine ⟨(tipHeight - jump) :: heights, ?_, ?_, ?_⟩
      · refine List.pairwise_cons.2 ⟨fun h hmem ↦ ?_, hdesc⟩
        have hb := hbelow h hmem
        rw [UInt32.lt_iff_toNat_lt, hheight]
        omega
      · intro h hmem
        rcases List.mem_cons.1 hmem with rfl | hmem
        · omega
        · have hb := hbelow h hmem
          omega
      · rw [← Except.ok.inj hok]
        exact .cons hbid hall
    · exact ⟨[], .nil, by simp, Except.ok.inj hok ▸ .nil⟩

theorem sparseEntries_mem {read : Height → Except Fault Hash} {tailHeight tipHeight : Height} :
    ∀ {fuel : ℕ} {jump : UInt32} {size : ℕ} {tipPath : List Hash},
      sparseEntries read tailHeight tipHeight fuel jump size = .ok tipPath →
        ∀ bid ∈ tipPath, ∃ height, read height = .ok bid := by
  intro fuel
  induction fuel with
  | zero =>
    intro jump size tipPath hok bid hmem
    rw [sparseEntries] at hok
    split at hok
    · cases hok
    · rw [← Except.ok.inj hok] at hmem
      cases hmem
  | succ fuel ih =>
    intro jump size tipPath hok bid hmem
    rw [sparseEntries] at hok
    split at hok
    · simp only [bind_eq_ok_iff] at hok
      obtain ⟨bid', hbid', rest, hrest, hok⟩ := hok
      rw [← Except.ok.inj hok] at hmem
      rcases List.mem_cons.1 hmem with rfl | hmem
      · exact ⟨_, hbid'⟩
      · exact ih hrest bid hmem
    · rw [← Except.ok.inj hok] at hmem
      cases hmem

/-- A chain whose readable heights are blocks of a main chain makes locators of that chain. -/
theorem Locates.of_sparseEntries {s : State} (hmain : MainChain c s)
    {read : Height → Except Fault Hash} {tailHeight tipHeight : Height}
    (hread : ∀ height bid, read height = .ok bid →
      tailHeight ≤ height ∧ height ≤ tipHeight ∧ s.db.chain.get height = some bid)
    {tipPath : List Hash} (hok : sparseEntries read tailHeight tipHeight 40 0 0 = .ok tipPath) :
    Locates c s (withGenesis c.genesisBlockHash tipPath) := by
  obtain ⟨heights, hdesc, -, hall⟩ := sparseEntries_ok
    (fun h bid hr ↦ ⟨(hread h bid hr).1, (hread h bid hr).2.1⟩) 40 0 0 tipPath rfl rfl hok
  clear hok
  have hon : ∀ bid ∈ tipPath, ∃ height, s.db.chain.get height = some bid := by
    intro bid hmem
    obtain ⟨i, hi, rfl⟩ := List.getElem_of_mem hmem
    exact ⟨_, (hread _ _ (hall.get (by rw [hall.length_eq]; exact hi) hi)).2.2⟩
  have hpair : tipPath.Pairwise fun bid bid' ↦ ∀ height height',
      s.db.chain.get height = some bid → s.db.chain.get height' = some bid' →
        height' < height := by
    induction hall with
    | nil => exact .nil
    | @cons h bid hs bids hbid hrest ih =>
      obtain ⟨hfirst, hdesc⟩ := List.pairwise_cons.1 hdesc
      refine List.pairwise_cons.2 ⟨fun bid' hmem k k' hk hk' ↦ ?_,
        ih hdesc fun bid' hmem ↦ hon bid' (List.mem_cons_of_mem _ hmem)⟩
      obtain ⟨i, hi, rfl⟩ := List.getElem_of_mem hmem
      have hi' : i < hs.length := by rw [hrest.length_eq]; exact hi
      have hlower := (hread _ _ (hrest.get hi' hi)).2.2
      rw [hmain.height_unique hk (hread _ _ hbid).2.2, hmain.height_unique hk' hlower]
      exact hfirst _ (List.getElem_mem hi')
  unfold withGenesis
  split
  · next hlast =>
    exact ⟨hon, hpair, List.mem_of_getLast? hlast⟩
  · next hlast =>
    refine ⟨?_, ?_, by simp⟩
    · intro bid hmem
      rcases List.mem_append.1 hmem with hmem | hmem
      · exact hon bid hmem
      · exact ⟨0, List.mem_singleton.1 hmem ▸ hmain.root⟩
    · refine List.pairwise_append.2 ⟨hpair, List.pairwise_singleton _ _, ?_⟩
      intro bid hmem bid' hmem' k k' hk hk'
      rw [List.mem_singleton.1 hmem'] at hk'
      rw [hmain.height_unique hk' hmain.root]
      refine UInt32.pos_iff_ne_zero.2 fun hzero ↦ hlast ?_
      -- the genesis block has nothing below it, so it is the last entry
      subst hzero
      have hgenesis : bid = c.genesisBlockHash := Option.some.inj (hk.symm.trans hmain.root)
      obtain ⟨front, back, rfl⟩ := List.append_of_mem hmem
      have hback : back = [] := by
        refine List.eq_nil_iff_forall_not_mem.2 fun bid'' hmem'' ↦ ?_
        obtain ⟨k'', hk''⟩ := hon bid'' (by simp [hmem''])
        have hlt := List.rel_of_pairwise_cons (List.pairwise_append.1 hpair).2.1 hmem'' 0 k'' hk
          hk''
        exact UInt32.not_lt_zero hlt
      rw [hback, List.getLast?_append, hgenesis]
      rfl

namespace State

theorem getSparseChain_locates {s : State} (hmain : MainChain c s) {locator : List Hash}
    (h : s.getSparseChain c = .ok locator) : Locates c s locator := by
  simp only [getSparseChain, bind_eq_ok_iff] at h
  obtain ⟨tipPath, hpath, h⟩ := h
  rw [← Except.ok.inj h]
  refine Locates.of_sparseEntries hmain (fun height bid hread ↦ ?_) hpath
  have hget : s.db.chain.get height = some bid := expect_eq_ok_iff.1 hread
  exact ⟨UInt32.zero_le, hmain.height_le _ _ hget, hget⟩

end State

/-- Below height 2^31 the locator of a chain is found. -/
theorem sparseEntries_returns (read : Height → Except Fault Hash) {tipHeight : Height}
    (hread : ∀ height, height ≤ tipHeight → ∃ bid, read height = .ok bid)
    (htip : tipHeight.toNat < 2 ^ 31) :
    ∀ (fuel : ℕ) (jump : UInt32) (size : ℕ), size + fuel = 40 → jump.toNat = jumpOf size →
      ∃ tipPath, sparseEntries read 0 tipHeight fuel jump size = .ok tipPath := by
  intro fuel
  induction fuel with
  | zero =>
    intro jump size hsize hjump
    obtain rfl : size = 40 := by omega
    have hfar : jumpOf 40 = 2 ^ 31 + 8 := by decide
    have hnot : ¬ jump + 0 ≤ tipHeight := by
      rw [UInt32.add_zero, UInt32.le_iff_toNat_le]
      omega
    exact ⟨[], by rw [sparseEntries, if_neg hnot]⟩
  | succ fuel ih =>
    intro jump size hsize hjump
    rw [sparseEntries]
    split
    · next hle =>
      rw [UInt32.add_zero] at hle
      have hbelow : tipHeight - jump ≤ tipHeight := by
        rw [UInt32.le_iff_toNat_le, UInt32.toNat_sub_of_le _ _ hle]
        omega
      obtain ⟨bid, hbid⟩ := hread (tipHeight - jump) hbelow
      obtain ⟨rest, hrest⟩ := ih _ _ (by omega) (nextJump_toNat (by omega : size < 40) hjump)
      exact ⟨bid :: rest, by rw [hbid, hrest]; rfl⟩
    · exact ⟨[], rfl⟩

theorem State.getSparseChain_returns {s : State} (hmain : MainChain c s)
    (htip : s.tipHeight.toNat < 2 ^ 31) : ∃ locator, s.getSparseChain c = .ok locator := by
  obtain ⟨tipPath, hpath⟩ := sparseEntries_returns s.readChain (fun height hle ↦ by
    obtain ⟨bid, hbid⟩ := Option.ne_none_iff_exists'.1 (hmain.present height hle)
    exact ⟨bid, expect_eq_ok_iff.2 hbid⟩) htip 40 0 0 rfl rfl
  exact ⟨withGenesis c.genesisBlockHash tipPath, by rw [getSparseChain, hpath]; rfl⟩

/-! ## Leaving a side branch -/

/-- A block stored on both sides has the same parent on both. -/
def SameParents (s t : State) : Prop := ∀ bid info info',
  s.db.headers.get bid = some info → t.db.headers.get bid = some info' →
    info.previousBlockHash = info'.previousBlockHash

section Pair

variable {s t : State}

/-- Then it stands at the same height. -/
theorem SameParents.height_eq (h : SameParents s t) (hs : Linked cr c s) (ht : Linked cr c t)
    {bid : Hash} {info info' : Api.BlockHeader} (hinfo : s.db.headers.get bid = some info)
    (hinfo' : t.db.headers.get bid = some info') : info.height = info'.height := by
  induction hn : info.height.toNat generalizing bid info info' with
  | zero =>
    have hgenesis : bid = c.genesisBlockHash := by
      by_contra hne
      obtain ⟨-, -, -, hzero⟩ := hs.parent bid info hinfo hne
      exact hzero (UInt32.toNat_inj.1 hn)
    subst hgenesis
    rw [hs.genesis info hinfo, ht.genesis info' hinfo']
  | succ n ih =>
    have hne : bid ≠ c.genesisBlockHash := by
      rintro rfl
      rw [hs.genesis info hinfo] at hn
      cases hn
    obtain ⟨prev, hprev, hheight, hzero⟩ := hs.parent bid info hinfo hne
    obtain ⟨prev', hprev', hheight', -⟩ := ht.parent bid info' hinfo' hne
    rw [← h bid info info' hinfo hinfo'] at hprev'
    have hn' : prev.height.toNat = n := by
      rw [hheight, UInt32.toNat_add] at hn
      have hlt := prev.height.toNat_lt
      have hone : (1 : UInt32).toNat = 1 := rfl
      omega
    rw [hheight, hheight', ih hprev hprev' hn']

/-- A block of both main chains stands at the same height in them. -/
theorem SameParents.chain_height_eq (h : SameParents s t) (hs : Linked cr c s)
    (ht : Linked cr c t) (hms : MainChain c s) (hmt : MainChain c t) {bid : Hash}
    {k k' : Height} (hk : s.db.chain.get k = some bid) (hk' : t.db.chain.get k' = some bid) :
    k = k' := by
  obtain ⟨info, hinfo, hheight, -⟩ := hms.header k bid hk
  obtain ⟨info', hinfo', hheight', -⟩ := hmt.header k' bid hk'
  rw [← hheight, ← hheight', h.height_eq hs ht hinfo hinfo']

/-- From a block of the other side's main chain the walk ends at the last common block. -/
theorem State.leaveSideBranch_spec (h : SameParents s t) (ht : Linked cr c t)
    (hms : MainChain c s) (hmt : MainChain c t) (fuel : ℕ) {bid : Hash}
    {header : Api.BlockHeader} (hget : t.db.headers.get bid = some header)
    (hon : s.db.chain.get header.height = some bid) (hfuel : header.height.toNat ≤ fuel) :
    ∃ common header', t.leaveSideBranch fuel header = .ok header' ∧
      header'.height ≤ header.height ∧ t.db.chain.get header'.height = some common ∧
      s.db.chain.get header'.height = some common ∧
      ∀ k b, k ≤ header.height → s.db.chain.get k = some b → t.db.chain.get k = some b →
        k ≤ header'.height := by
  induction fuel generalizing bid header with
  | zero =>
    have hzero : header.height = 0 := UInt32.toNat_inj.1 (by simpa using hfuel)
    have hroot : s.db.chain.get header.height = some c.genesisBlockHash := hzero ▸ hms.root
    refine ⟨c.genesisBlockHash, header, ?_, UInt32.le_refl _, hzero ▸ hmt.root, hroot,
      fun k b hk _ _ ↦ hk⟩
    rw [leaveSideBranch, if_pos (.inl hzero)]
  | succ fuel ih =>
    have hhash : header.hash = bid := by
      obtain ⟨pb, hpb, hstores⟩ := ht.stored bid header hget
      rw [hstores.hash_eq, hpb]
    rw [leaveSideBranch]
    split
    · next hstop =>
      have hmain : t.db.chain.get header.height = some bid := by
        rcases hstop with hzero | hmain
        · rw [hzero] at hon ⊢
          rw [hmt.root, ← hon, hms.root]
        · rwa [hhash] at hmain
      exact ⟨bid, header, rfl, UInt32.le_refl _, hmain, hon, fun k b hk _ _ ↦ hk⟩
    · next hgo =>
      obtain ⟨hzero, hside⟩ := not_or.1 hgo
      rw [hhash] at hside
      have hne : bid ≠ c.genesisBlockHash := by
        rintro rfl
        exact hzero (ht.genesis header hget)
      obtain ⟨prev, hprev, hheight, -⟩ := ht.parent bid header hget hne
      obtain ⟨info, hinfo, hinfoHeight, hbefore⟩ := hms.header _ _ hon
      have hprevOn : s.db.chain.get prev.height = some header.previousBlockHash := by
        have hstep : prev.height = header.height - 1 := by rw [hheight]; grind
        rw [hstep, ← h bid info header hinfo hget]
        exact hbefore hzero
      have hnat : header.height.toNat = prev.height.toNat + 1 := by
        have hlt := prev.height.toNat_lt
        have hone : (1 : UInt32).toNat = 1 := rfl
        have hpos : header.height.toNat ≠ 0 := fun hn ↦ hzero (UInt32.toNat_inj.1 hn)
        rw [hheight, UInt32.toNat_add] at hpos ⊢
        omega
      obtain ⟨common, header', hwalk, hle, hcommon, hcommon', habove⟩ :=
        ih hprev hprevOn (by omega)
      rw [UInt32.le_iff_toNat_le] at hle
      refine ⟨common, header', ?_, UInt32.le_iff_toNat_le.2 (by omega), hcommon, hcommon',
        fun k b hk hsk htk ↦ ?_⟩
      · rw [State.readHeader, hprev]
        exact hwalk
      · -- the block left is not on the main chain of `t`, so a common one is lower
        have hk' : k ≠ header.height := by
          rintro rfl
          exact hside (Option.some.inj (hsk.symm.trans hon) ▸ htk)
        exact habove k b (by rw [hheight] at hk hk'; grind) hsk htk

/-! ## Answers to locators -/

/-- The ids from a height on are read until the tip or the count is reached. -/
theorem State.chainFrom_spec (hmt : MainChain c t) (htip : t.tipHeight ≠ 0xFFFFFFFF) :
    ∀ (maxCount : ℕ) (height : Height), height.toNat ≤ t.tipHeight.toNat + 1 →
      ∃ chain, t.chainFrom maxCount height = .ok chain ∧
        chain.length = min maxCount (t.tipHeight.toNat + 1 - height.toNat) ∧
        ∀ i bid, chain[i]? = some bid → t.db.chain.get (height + UInt32.ofNat i) = some bid := by
  intro maxCount
  induction maxCount with
  | zero => exact fun height _ ↦ ⟨[], rfl, by simp, by simp⟩
  | succ n ih =>
    intro height hheight
    rw [chainFrom]
    split
    · next hle =>
      obtain ⟨bid, hbid⟩ := Option.ne_none_iff_exists'.1 (hmt.present height hle)
      have hnext : (height + 1).toNat = height.toNat + 1 := by
        have hlt := t.tipHeight.toNat_lt
        have hmax : t.tipHeight.toNat ≠ 4294967295 := fun hn ↦ htip (UInt32.toNat_inj.1 hn)
        have hone : (1 : UInt32).toNat = 1 := rfl
        rw [UInt32.le_iff_toNat_le] at hle
        rw [UInt32.toNat_add]
        omega
      rw [UInt32.le_iff_toNat_le] at hle
      obtain ⟨chain, hchain, hlength, hget⟩ := ih (height + 1) (by omega)
      refine ⟨bid :: chain, ?_, ?_, ?_⟩
      · rw [readChain, hbid, hchain]
        rfl
      · rw [List.length_cons, hlength]
        omega
      · intro i bid' hi
        cases i with
        | zero =>
          rw [List.getElem?_cons_zero, Option.some.injEq] at hi
          simpa [hi] using hbid
        | succ i =>
          rw [List.getElem?_cons_succ] at hi
          have hadd : height + UInt32.ofNat (i + 1) = height + 1 + UInt32.ofNat i := by
            rw [UInt32.ofNat_add, UInt32.add_assoc, UInt32.add_comm (UInt32.ofNat i)]
            rfl
          rw [hadd]
          exact hget i bid' hi
    · next hgt =>
      rw [UInt32.le_iff_toNat_le] at hgt
      exact ⟨[], rfl, by simp; omega, by simp⟩

/-- A height at or above every entry of a locator that is on the main chain. -/
def State.AboveEntries (t : State) (locator : List Hash) (start : Height) : Prop :=
  ∀ bid ∈ locator, ∀ height, t.db.chain.get height = some bid → height ≤ start

theorem State.aboveEntries_cons_iff {lit : Hash} {rest : List Hash} {start : Height}
    (hlit : ∀ height, t.db.chain.get height ≠ some lit) :
    t.AboveEntries (lit :: rest) start ↔ t.AboveEntries rest start := by
  refine ⟨fun h bid hmem ↦ h bid (List.mem_cons_of_mem _ hmem), fun h bid hmem height hget ↦ ?_⟩
  rcases List.mem_cons.1 hmem with rfl | hmem
  · exact absurd hget (hlit height)
  · exact h bid hmem height hget

/-- A height at or below an entry of a locator of `s`. -/
def State.BelowEntry (s : State) (locator : List Hash) (start : Height) : Prop :=
  ∃ bid ∈ locator, ∃ height, s.db.chain.get height = some bid ∧ start ≤ height

/-- The answer of `t` to a locator of `s` is a run of its main chain, upwards from a block that
both main chains have. -/
def State.AnswersSync (t s : State) (locator : List Hash) (maxCount : ℕ) : Prop :=
  ∃ start chain, t.getSyncHeadersChain maxCount locator = .ok (start, chain) ∧ chain ≠ [] ∧
    chain.length = min maxCount (t.tipHeight.toNat + 1 - start.toNat) ∧
    (∀ i bid, chain[i]? = some bid → t.db.chain.get (start + UInt32.ofNat i) = some bid) ∧
    s.db.chain.get start = chain.head? ∧ t.AboveEntries locator start ∧
    s.BelowEntry locator start

/-- The height found for a locator of `s` is one at which both main chains have the same block. -/
def State.FindsSupplement (t s : State) (locator : List Hash) : Prop :=
  ∃ bid, t.db.chain.get (t.findBlockchainSupplement locator) = some bid ∧
    s.db.chain.get (t.findBlockchainSupplement locator) = some bid ∧
    t.AboveEntries locator (t.findBlockchainSupplement locator)

/-- The block is stored at a height that the chain reaches. -/
def State.storesBelowTip (t : State) (bid : Hash) : Bool :=
  match t.db.headers.get bid with
  | none => false
  | some header => header.height ≤ t.tipHeight

/-- The first entry of a locator that is stored at a height that the chain reaches is on the main
chain. -/
def State.FirstStoredOnMain (t : State) (locator : List Hash) : Prop :=
  ∀ bid, locator.find? t.storesBelowTip = some bid → ∃ height, t.db.chain.get height = some bid

/-- The entries behind one of a locator are lower in the other main chain, too. -/
theorem Locates.aboveEntries_cons (h : SameParents s t) (hs : Linked cr c s)
    (ht : Linked cr c t) (hms : MainChain c s) (hmt : MainChain c t) {lit : Hash}
    {rest : List Hash} {height start : Height} (hlit : s.db.chain.get height = some lit)
    (hdesc : (lit :: rest).Pairwise fun bid bid' ↦ ∀ k k',
      s.db.chain.get k = some bid → s.db.chain.get k' = some bid' → k' < k)
    (hon : ∀ bid ∈ lit :: rest, ∃ k, s.db.chain.get k = some bid)
    (habove : ∀ k b, k ≤ height → s.db.chain.get k = some b → t.db.chain.get k = some b →
      k ≤ start) : t.AboveEntries (lit :: rest) start := by
  intro bid hmem k htk
  obtain ⟨k', hsk⟩ := hon bid hmem
  rw [h.chain_height_eq hs ht hms hmt hsk htk] at hsk
  refine habove k bid ?_ hsk htk
  rcases List.mem_cons.1 hmem with rfl | hmem
  · exact hms.height_unique hsk hlit ▸ UInt32.le_refl _
  · have hlt := List.rel_of_pairwise_cons hdesc hmem height k hlit hsk
    grind

theorem State.answersSync (h : SameParents s t) (hs : Linked cr c s) (ht : Linked cr c t)
    (hms : MainChain c s) (hmt : MainChain c t) (htip : t.tipHeight ≠ 0xFFFFFFFF)
    {locator : List Hash} (hloc : Locates c s locator) {maxCount : ℕ} (hcount : 0 < maxCount) :
    t.AnswersSync s locator maxCount := by
  obtain ⟨hon, hdesc, hgenesis⟩ := hloc
  induction locator with
  | nil => cases hgenesis
  | cons lit rest ih =>
    rw [AnswersSync, getSyncHeadersChain]
    cases hget : t.db.headers.get lit with
    | none =>
      have hne : lit ≠ c.genesisBlockHash := by
        rintro rfl
        obtain ⟨info, hinfo, -⟩ := hmt.header 0 _ hmt.root
        rw [hget] at hinfo
        cases hinfo
      obtain ⟨start, chain, hok, hchain, hlength, hrun, hcommon, habove, bid, hbid, hbelow⟩ :=
        ih (fun bid hmem ↦ hon bid (List.mem_cons_of_mem _ hmem)) hdesc.of_cons
          (List.mem_of_ne_of_mem (Ne.symm hne) hgenesis)
      refine ⟨start, chain, hok, hchain, hlength, hrun, hcommon, ?_,
        bid, List.mem_cons_of_mem _ hbid, hbelow⟩
      exact (aboveEntries_cons_iff fun k hk ↦ by
        obtain ⟨info, hinfo, -⟩ := hmt.header k _ hk
        rw [hget] at hinfo
        cases hinfo).2 habove
    | some header =>
      obtain ⟨height, hlit⟩ := hon lit List.mem_cons_self
      obtain ⟨info, hinfo, hinfoHeight, -⟩ := hms.header height lit hlit
      have hheight : header.height = height := by
        rw [← hinfoHeight, h.height_eq hs ht hinfo hget]
      obtain ⟨common, header', hwalk, hbelow, hcommon, hcommon', habove⟩ :=
        leaveSideBranch_spec h ht hms hmt header.height.toNat hget (hheight ▸ hlit) (Nat.le_refl _)
      have hle := hmt.height_le _ _ hcommon
      rw [UInt32.le_iff_toNat_le] at hle
      obtain ⟨chain, hchain, hlength, hrun⟩ :=
        chainFrom_spec hmt htip maxCount header'.height (by omega)
      have hpos : 0 < chain.length := by omega
      refine ⟨header'.height, chain, ?_, List.ne_nil_of_length_pos hpos, hlength, hrun, ?_, ?_,
        lit, List.mem_cons_self, height, hlit, hheight ▸ hbelow⟩
      · simp only [hwalk, bind_eq_ok_iff]
        exact ⟨header', rfl, chain, hchain, rfl⟩
      · have hfirst := hrun 0 _ (List.getElem?_eq_getElem hpos)
        have hzero : header'.height + UInt32.ofNat 0 = header'.height := UInt32.add_zero _
        rw [hzero, hcommon, Option.some.injEq] at hfirst
        rw [hcommon', hfirst, List.head?_eq_getElem?, List.getElem?_eq_getElem hpos]
      · exact Locates.aboveEntries_cons h hs ht hms hmt hlit hdesc hon
          (fun k b hk ↦ habove k b (hheight ▸ hk))

theorem State.findsSupplement_iff (h : SameParents s t) (hs : Linked cr c s)
    (ht : Linked cr c t) (hms : MainChain c s) (hmt : MainChain c t)
    {locator : List Hash} (hloc : Locates c s locator) :
    t.FindsSupplement s locator ↔ t.FirstStoredOnMain locator := by
  obtain ⟨hon, hdesc, hgenesis⟩ := hloc
  induction locator with
  | nil => cases hgenesis
  | cons lit rest ih =>
    by_cases hstores : t.storesBelowTip lit = true
    · -- the search ends here, at the height of the entry
      obtain ⟨header, hget, hle⟩ : ∃ header, t.db.headers.get lit = some header ∧
          header.height ≤ t.tipHeight := by
        rw [storesBelowTip] at hstores
        cases hget : t.db.headers.get lit with
        | none => simp [hget] at hstores
        | some header => exact ⟨header, rfl, by simpa [hget] using hstores⟩
      obtain ⟨height, hlit⟩ := hon lit List.mem_cons_self
      obtain ⟨info, hinfo, hinfoHeight, -⟩ := hms.header height lit hlit
      have hheight : header.height = height := by
        rw [← hinfoHeight, h.height_eq hs ht hinfo hget]
      have hfound : t.findBlockchainSupplement (lit :: rest) = header.height := by
        simp only [findBlockchainSupplement, hget, if_neg (UInt32.not_lt.2 hle)]
      rw [FindsSupplement, FirstStoredOnMain, hfound, hheight, List.find?_cons_of_pos hstores]
      constructor
      · rintro ⟨bid, htk, hsk, -⟩ bid' hbid'
        rw [← Option.some.inj hbid', ← Option.some.inj (hsk.symm.trans hlit)]
        exact ⟨height, htk⟩
      · intro hmain
        obtain ⟨k, hk⟩ := hmain lit rfl
        rw [← h.chain_height_eq hs ht hms hmt hlit hk] at hk
        exact ⟨lit, hk, hlit,
          Locates.aboveEntries_cons h hs ht hms hmt hlit hdesc hon fun _ _ hle _ _ ↦ hle⟩
    · -- an entry that is passed over is not on the main chain
      have hnot : ∀ height, t.db.chain.get height ≠ some lit := by
        intro height hget
        obtain ⟨info, hinfo, hheight, -⟩ := hmt.header height lit hget
        rw [storesBelowTip, hinfo] at hstores
        exact hstores (decide_eq_true (hheight ▸ hmt.height_le _ _ hget))
      have hfound : t.findBlockchainSupplement (lit :: rest) =
          t.findBlockchainSupplement rest := by
        rw [findBlockchainSupplement]
        rw [storesBelowTip] at hstores
        cases hget : t.db.headers.get lit with
        | none => rfl
        | some header =>
          simp only [hget, decide_eq_true_eq] at hstores
          simp only [if_pos (UInt32.not_le.1 hstores)]
      have hne : lit ≠ c.genesisBlockHash := by
        rintro rfl
        exact hnot 0 hmt.root
      rw [FindsSupplement, FirstStoredOnMain, hfound, aboveEntries_cons_iff hnot,
        List.find?_cons_of_neg hstores]
      exact ih (fun bid hmem ↦ hon bid (List.mem_cons_of_mem _ hmem)) hdesc.of_cons
        (List.mem_of_ne_of_mem (Ne.symm hne) hgenesis)

end Pair

end Naza
