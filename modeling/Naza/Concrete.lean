import Naza.Decomposition

/-!
# Runs that can be evaluated

Primitives for which a run is a closed computation, transactions and blocks made for them, and the
states reached by a list of events.
-/

open Lib

namespace Naza

/-! ## Lists of events -/

section Events

variable (cr : Crypto) (c : Currency)

/-- The events taken one after the other. -/
def State.runEvents (events : List Event) (s : State) : Except Fault State :=
  events.foldlM (State.step cr c) s

/-- A node started on an empty database, and then the events. -/
def runFromStart (events : List Event) : Except Fault State := do
  let s ← State.start cr c 0 {}
  s.runEvents cr c events

/-- The computation returns, and its result passes the test. -/
def returns {α : Type} (r : Except Fault α) (test : α → Bool) : Bool :=
  match r with
  | .ok a => test a
  | .error _ => false

end Events

theorem returns_iff {α : Type} {r : Except Fault α} {test : α → Bool} :
    returns r test = true ↔ ∃ a, r = .ok a ∧ test a = true := by
  cases r <;> simp [returns]

variable {cr : Crypto} {c : Currency}

theorem Run.runEvents {ok : State → Event → Prop} {s t : State} (h : Run cr c ok s)
    {events : List Event} (hevents : ∀ s, ∀ e ∈ events, ok s e)
    (hrun : s.runEvents cr c events = .ok t) : Run cr c ok t :=
  foldlM_ok_preserves (I := Run cr c ok) (fun s e _ he hstep hs ↦ hs.step (hevents s e he) hstep)
    hrun h

theorem reachable_of_runFromStart {s : State} {events : List Event}
    (h : runFromStart cr c events = .ok s) : Reachable cr c s := by
  obtain ⟨s₀, hstart, hrun⟩ := bind_eq_ok_iff.1 h
  exact Run.runEvents (.start hstart) (fun _ _ _ ↦ trivial) hrun

/-! ## Primitives -/

/-- A hash is the end of what is hashed; every key, signature and proof of work is good. -/
def sampleCrypto : Crypto where
  cnFastHash ba := Seria.podOfBytes (ba.drop (ba.length - 32))
  cnSlowHash _ := 0
  cnLiteSlowHashV1 _ := 0
  keyIsvalid _ := true
  checkRingSignature _ _ _ _ := .valid

abbrev mainnet : Currency := Currency.make sampleCrypto false

abbrev testnet : Currency := Currency.make sampleCrypto true

/-! ## Blocks and transactions -/

/-- A coinbase with one output. -/
def sampleCoinbase (height : Height) (reward : Amount) (extra : BinaryArray) : Transaction :=
  { version := 1, unlockTime := (height + 10).toUInt64
    inputs := [.coinbaseInput { blockIndex := height }]
    outputs := [{ amount := reward }], extra }

/-- A transaction of key inputs and outputs of given amounts; `tag` tells signatures apart. -/
def sampleTransaction (inputs : List KeyInput) (outputs : List Amount) (extra : BinaryArray)
    (tag : Pod32) : Transaction :=
  { version := 1, unlockTime := 0
    inputs := inputs.map .keyInput
    outputs := outputs.map fun amount ↦ { amount }
    extra
    signatures := inputs.map fun input ↦ input.outputIndexes.map fun _ ↦ ⟨0, tag⟩ }

/-- The bytes of a transaction. -/
def Transaction.bytes (tx : Transaction) : BinaryArray :=
  (Seria.transactionToBinary tx).getD []

/-- The hash of a transaction. -/
def Transaction.sampleHash (tx : Transaction) : Hash :=
  (getTransactionHash sampleCrypto tx).getD 0

/-- The block template above a block. -/
def sampleTemplate (majorVersion : UInt8) (prev : Hash) (timestamp : Timestamp)
    (coinbase : Transaction) (txs : List Transaction) : BlockTemplate :=
  { majorVersion, timestamp, previousBlockHash := prev, baseTransaction := coinbase
    transactionHashes := txs.map Transaction.sampleHash }

/-- The template inside a parent block that carries nothing but the merge-mining tag. -/
def BlockTemplate.merged (template : BlockTemplate) : BlockTemplate :=
  let merkleRoot := (getAuxiliaryBlockHeaderHash sampleCrypto template).getD 0
  { template with
    parentBlock := {
      majorVersion := 1
      transactionCount := 1
      baseTransaction := {
        version := 1
        unlockTime := 0
        extra := appendMergeMiningTagToExtra [] { depth := 0, merkleRoot } } } }

/-- The raw block of a template and its transactions. -/
def BlockTemplate.rawBlock (template : BlockTemplate) (txs : List Transaction) : RawBlock :=
  { block := (Seria.blockTemplateToBinary template).getD []
    transactions := txs.map Transaction.bytes }

/-- The hash of a block template. -/
def BlockTemplate.sampleHash (template : BlockTemplate) : Hash :=
  (getBlockHash sampleCrypto template).getD 0

/-- A raw block is offered; one that does not fit into memory is replaced by an empty one. -/
def Event.offer (now : Timestamp) (raw : RawBlock) : Event :=
  if h : raw.FitsMemory then .addBlock now ⟨raw, h⟩ false else .addBlock now ⟨{}, by decide⟩ false

/-! ## A first block -/

/-- A coinbase with outputs of given amounts. -/
def spreadCoinbase (height : Height) (amounts : List Amount) (extra : BinaryArray) : Transaction :=
  { sampleCoinbase height 0 extra with outputs := amounts.map fun amount ↦ { amount } }

/-- The block at height 1 of the test network without transactions; three outputs of its coinbase
have one amount. -/
def firstTestnetBlock : BlockTemplate :=
  (sampleTemplate 2 testnet.genesisBlockHash 0
    (spreadCoinbase 1 [1000, 1000, 1000, 281470681740360] [1, 2]) []).merged

theorem runFromStart_firstTestnetBlock : returns (runFromStart sampleCrypto testnet []) (fun s ↦
      returns (PreparedBlock.ofRawBlock sampleCrypto (firstTestnetBlock.rawBlock []) false)
        fun pb ↦
          match s.prevInfo testnet pb with
          | none => false
          | some prev =>
            match s.checkStandaloneConsensus sampleCrypto testnet 1000 pb (blockInfo pb prev) prev
              true with
            | .accept info => decide (pb.block.header.previousBlockHash = s.tipBid ∧
                s.db.headers.get pb.bid = none ∧
                testnet.isInSwCheckpointZone info.height = false) &&
              returns (s.redoBlock sampleCrypto testnet pb.bid pb.block info) fun applied ↦
                applied.any fun s' ↦
                  decide (s'.db.globalIndices.get pb.bid = some [[0, 1, 2, 0]])
            | _ => false) = true := by
  decide +kernel

/-- It is accepted and redone on top of the genesis block; its outputs are counted by their
amounts. -/
theorem firstTestnetBlock_redone : ∃ (s s' : State) (pb : PreparedBlock) (info : Api.BlockHeader),
    Reachable sampleCrypto testnet s ∧ s.Connects sampleCrypto testnet pb info ∧
    testnet.isInSwCheckpointZone info.height = false ∧
    s.redoBlock sampleCrypto testnet pb.bid pb.block info = .ok (some s') ∧
    s'.db.globalIndices.get pb.bid = some [[0, 1, 2, 0]] := by
  obtain ⟨s, hrun, htest⟩ := returns_iff.1 runFromStart_firstTestnetBlock
  obtain ⟨pb, hprep, htest⟩ := returns_iff.1 htest
  have hreach := reachable_of_runFromStart hrun
  split at htest
  · cases htest
  · next prev hprevInfo =>
    split at htest
    · next info hcheck =>
      simp only [Bool.and_eq_true, decide_eq_true_eq] at htest
      obtain ⟨⟨hprev, hfresh, hzone⟩, hredo⟩ := htest
      obtain ⟨applied, hredo, hsome⟩ := returns_iff.1 hredo
      obtain ⟨s', rfl, hindices⟩ := (Option.any_eq_true _ _).1 hsome
      have haccepts : s.Accepts sampleCrypto testnet 1000 pb prev info :=
        ⟨hfresh, hprevInfo, hcheck⟩
      have hbuilt := (PreparedBlock.built_of_ofRawBlock (by decide +kernel) hprep).1
      exact ⟨s, s', pb, info, hreach,
        haccepts.connects hreach.linked hreach.started hbuilt hprev, hzone, hredo,
        of_decide_eq_true hindices⟩
    · cases htest

end Naza
