import Naza.BlockFiles
import Naza.Lib.Transition

/-!
# Importing block files

`LegacyBlockChainReader::import_blocks`, and `import_blockchain2` with its preloading thread, as
steps of the threads between which another one may run.  The block chain is given by its tip height
and by what `add_block` may do.
-/

open Lib Relation

namespace Naza

/-- What an importer uses of a block chain: `add_block` takes a state to another one and says
whether it answers BROADCAST_ALL, and `PreparedBlock` may throw. -/
structure ImportTarget (S P : Type) where
  tipHeight : S → ℕ
  adds : S → P → S → Bool → Prop
  prepare : Bytes → Option P
  blockData : P → Bytes

variable {S P : Type}

/-- The block under an index: none where an exception is thrown. -/
def loadBlock (target : ImportTarget S P) (files : BlockFiles) (count i : ℕ) : Option P :=
  (LegacyBlockChainReader.getBlockDataByIndex files count i).bind target.prepare

/-! ## One thread -/

namespace ImportBlocks

/-- Where the reader is: not in a call, in the loop, or dropped after the call that was refused or
found nothing to do. -/
inductive Phase where
  | idle
  | running
  | dropped (refused : Bool)
  deriving DecidableEq

structure Config (S P : Type) where
  chain : S
  phase : Phase
  requested : List ℕ
  offered : List P

def Config.start (chain : S) : Config S P := ⟨chain, .idle, [], []⟩

/-- A step of `import_blocks` and its caller.  The loop may be left after any block. -/
inductive Step (target : ImportTarget S P) (files : BlockFiles) (count : ℕ) :
    Config S P → Config S P → Prop where
  | call {x : Config S P} : x.phase = .idle → Step target files count x { x with phase := .running }
  | offer {x : Config S P} {p : P} {chain : S} {phase : Phase} :
      x.phase = .running → target.tipHeight x.chain + 1 < count →
      loadBlock target files count (target.tipHeight x.chain + 1) = some p →
      target.adds x.chain p chain true →
      (phase = .running ∨ phase = if target.tipHeight chain + 1 < count then .idle
        else .dropped false) →
      Step target files count x
        ⟨chain, phase, x.requested ++ [target.tipHeight x.chain + 1], x.offered ++ [p]⟩
  | refuse {x : Config S P} {p : P} {chain : S} :
      x.phase = .running → target.tipHeight x.chain + 1 < count →
      loadBlock target files count (target.tipHeight x.chain + 1) = some p →
      target.adds x.chain p chain false →
      Step target files count x
        ⟨chain, .dropped true, x.requested ++ [target.tipHeight x.chain + 1], x.offered ++ [p]⟩
  | throw {x : Config S P} :
      x.phase = .running → target.tipHeight x.chain + 1 < count →
      loadBlock target files count (target.tipHeight x.chain + 1) = none →
      Step target files count x { x with
        phase := .dropped true, requested := x.requested ++ [target.tipHeight x.chain + 1] }
  | finish {x : Config S P} :
      x.phase = .running → ¬target.tipHeight x.chain + 1 < count →
      Step target files count x { x with phase := .dropped false }

end ImportBlocks

/-! ## Two threads -/

namespace ImportBlockchain2

def maxPreloadBlocks : ℕ := 100
def maxPreloadTotalSize : ℕ := 50 * 1024 * 1024

/-- The importing thread: at the condition of its loop, waiting for a prepared block, before
`add_block`, or behind the loop. -/
inductive Importer (P : Type) where
  | loop
  | waiting (i : ℕ)
  | offering (p : P)
  | returned (result : Bool)

/-- The preloading thread: before its critical section, waiting for work, outside the lock with an
index or with a block, or ended.  An exception ends the process. -/
inductive Preloader (P : Type) where
  | unstarted
  | check
  | asleep
  | loading (i : ℕ)
  | loaded (i : ℕ) (p : P)
  | exited
  | failed

/-- `have_work.notify_all`. -/
def Preloader.wake : Preloader P → Preloader P
  | asleep => check
  | preloader => preloader

/-- The thread is started by the first request. -/
def Preloader.start : Preloader P → Preloader P
  | unstarted => check
  | preloader => preloader.wake

structure Config (S P : Type) where
  chain : S
  importer : Importer P
  preloader : Preloader P
  quit : Bool
  preparedBlocks : Store ℕ P
  totalPreparedDataSize : ℕ
  lastLoadHeight : ℕ
  nextLoadHeight : ℕ
  requested : List ℕ
  offered : List P

def Config.start (chain : S) : Config S P :=
  ⟨chain, .loop, .unstarted, false, ∅, 0, 0, 0, [], []⟩

/-- `next_load_height` after the test against zero. -/
def Config.next (x : Config S P) : ℕ :=
  if x.nextLoadHeight = 0 then x.lastLoadHeight else x.nextLoadHeight

/-- The preloader is as far ahead as it may be. -/
def Config.Ahead (x : Config S P) : Prop :=
  x.lastLoadHeight + maxPreloadBlocks < x.next ∨ maxPreloadTotalSize < x.totalPreparedDataSize

/-- `import_height`, a 32-bit number. -/
def importHeight (maxHeight count : ℕ) : ℕ := min maxHeight ((count + 1) % 2 ^ 32)

/-- A step of one of the threads: a critical section, or what lies between two of them.  After an
exception in the preloader there is no process any more. -/
inductive Step (target : ImportTarget S P) (files : BlockFiles) (count height : ℕ) :
    Config S P → Config S P → Prop where
  | request {x : Config S P} : x.preloader ≠ .failed → x.importer = .loop →
      target.tipHeight x.chain < height →
      Step target files count height x { x with
        importer := .waiting (target.tipHeight x.chain + 1), preloader := x.preloader.start,
        lastLoadHeight := target.tipHeight x.chain + 1 }
  | take {x : Config S P} {i : ℕ} {p : P} : x.preloader ≠ .failed → x.importer = .waiting i →
      x.preparedBlocks.get i = some p →
      Step target files count height x { x with
        importer := .offering p, preparedBlocks := x.preparedBlocks.remove i,
        totalPreparedDataSize := x.totalPreparedDataSize - (target.blockData p).length }
  | offer {x : Config S P} {p : P} {chain : S} : x.preloader ≠ .failed → x.importer = .offering p →
      target.adds x.chain p chain true →
      Step target files count height x { x with
        chain, importer := .loop, offered := x.offered ++ [p] }
  | refuse {x : Config S P} {p : P} {chain : S} : x.preloader ≠ .failed →
      x.importer = .offering p → target.adds x.chain p chain false →
      Step target files count height x { x with
        chain, importer := .returned false, offered := x.offered ++ [p] }
  | finish {x : Config S P} : x.preloader ≠ .failed → x.importer = .loop →
      ¬target.tipHeight x.chain < height →
      Step target files count height x { x with importer := .returned true }
  | quit {x : Config S P} {result : Bool} : x.preloader ≠ .failed →
      x.importer = .returned result → x.quit = false →
      Step target files count height x { x with quit := true, preloader := x.preloader.wake }
  | exit {x : Config S P} : x.preloader = .check → x.quit = true →
      Step target files count height x { x with preloader := .exited }
  | sleep {x : Config S P} : x.preloader = .check → x.quit = false → x.Ahead →
      Step target files count height x { x with
        preloader := .asleep, nextLoadHeight := x.next }
  | choose {x : Config S P} : x.preloader = .check → x.quit = false → ¬x.Ahead →
      Step target files count height x { x with
        preloader := .loading x.next, nextLoadHeight := x.next + 1 }
  | load {x : Config S P} {i : ℕ} {p : P} : x.preloader = .loading i →
      loadBlock target files count i = some p →
      Step target files count height x { x with
        preloader := .loaded i p, requested := x.requested ++ [i] }
  | throw {x : Config S P} {i : ℕ} : x.preloader = .loading i →
      loadBlock target files count i = none →
      Step target files count height x { x with
        preloader := .failed, requested := x.requested ++ [i] }
  | store {x : Config S P} {i : ℕ} {p : P} : x.preloader = .loaded i p →
      Step target files count height x { x with
        preloader := .check, preparedBlocks := x.preparedBlocks.put i p,
        totalPreparedDataSize := x.totalPreparedDataSize + (target.blockData p).length }

end ImportBlockchain2

/-! ## What the files hold -/

/-- The files hold the blocks, and a chain that satisfies the invariant and takes the block above
its tip as its new tip is one block higher. -/
structure Holds (target : ImportTarget S P) (files : BlockFiles) (blocks : List P)
    (inv : S → Prop) : Prop where
  load : ∀ i, loadBlock target files blocks.length i = blocks[i]?
  total : ∀ chain p, ∃ chain' accepted, target.adds chain p chain' accepted
  keeps : ∀ chain p chain', inv chain → blocks[target.tipHeight chain + 1]? = some p →
    target.adds chain p chain' true → inv chain'
  grows : ∀ chain p chain', inv chain → blocks[target.tipHeight chain + 1]? = some p →
    target.adds chain p chain' true → target.tipHeight chain' = target.tipHeight chain + 1

/-- What holds of the chain behind every block taken may be kept beside the invariant. -/
theorem Holds.and {target : ImportTarget S P} {files : BlockFiles} {blocks : List P}
    {inv J : S → Prop} (h : Holds target files blocks inv)
    (hJ : ∀ chain p chain', inv chain → blocks[target.tipHeight chain + 1]? = some p →
      target.adds chain p chain' true → J chain') :
    Holds target files blocks fun chain ↦ inv chain ∧ J chain where
  load := h.load
  total := h.total
  keeps chain p chain' hinv hget hadds :=
    ⟨h.keeps chain p chain' hinv.1 hget hadds, hJ chain p chain' hinv.1 hget hadds⟩
  grows chain p chain' hinv hget hadds := h.grows chain p chain' hinv.1 hget hadds

/-- The blocks offered are those above a height, one after the other. -/
def OfferedFrom (blocks : List P) (height : ℕ) (offered : List P) : Prop :=
  offered = (blocks.drop (height + 1)).take offered.length

theorem OfferedFrom.append {blocks : List P} {height : ℕ} {offered : List P} {p : P}
    (h : OfferedFrom blocks height offered)
    (hget : blocks[height + offered.length + 1]? = some p) :
    OfferedFrom blocks height (offered ++ [p]) := by
  unfold OfferedFrom at h ⊢
  have hdrop : (blocks.drop (height + 1))[offered.length]? = some p := by
    rw [List.getElem?_drop, ← hget]
    congr 1
    omega
  obtain ⟨hlt, heq⟩ := List.getElem?_eq_some_iff.mp hdrop
  rw [List.length_append, List.length_singleton, List.take_succ_eq_append_getElem hlt, ← h, heq]

/-- An import goes well: in every run only blocks of the files are asked for, those above the tip
are offered in their order, a run goes on until it has ended and does end, and one that succeeds has
offered everything up to the height. -/
structure ImportsInOrder {C : Type} (step : C → C → Prop) (start : C) (requested : C → List ℕ)
    (offered : C → List P) (ended succeeded : C → Prop) (blocks : List P)
    (tip height : ℕ) : Prop where
  requested_lt : ∀ x, ReflTransGen step start x → ∀ i ∈ requested x, i < blocks.length
  offered_from : ∀ x, ReflTransGen step start x → OfferedFrom blocks tip (offered x)
  goes_on : ∀ x, ReflTransGen step start x → ¬ended x → ∃ y, step x y
  ends : ∀ run : ℕ → C, run 0 = start → ¬∀ k, step (run k) (run (k + 1))
  offered_all : ∀ x, ReflTransGen step start x → succeeded x →
    offered x = (blocks.drop (tip + 1)).take (height - tip)

/-- There is no infinite run where every step takes something off a measure. -/
theorem not_forall_step {C : Type} {step : C → C → Prop} {good : C → Prop} {m : C → ℕ}
    (hgood : Preserves step good) (hm : ∀ x y, good x → step x y → m y < m x) {run : ℕ → C}
    (hstart : good (run 0)) : ¬∀ k, step (run k) (run (k + 1)) := by
  intro hrun
  have hall : ∀ k, good (run k) ∧ m (run k) + k ≤ m (run 0) := by
    intro k
    induction k with
    | zero => exact ⟨hstart, le_rfl⟩
    | succ k ih =>
      obtain ⟨hk, hle⟩ := ih
      have hlt := hm _ _ hk (hrun k)
      exact ⟨hgood (hrun k) hk, by omega⟩
  have hle := (hall (m (run 0) + 1)).2
  omega

namespace ImportBlocks

variable {target : ImportTarget S P} {files : BlockFiles} {blocks : List P} {inv : S → Prop}

/-- What holds of every state of a run that started at a height. -/
structure Good (target : ImportTarget S P) (blocks : List P) (inv : S → Prop) (height : ℕ)
    (x : Config S P) : Prop where
  requested : ∀ i ∈ x.requested, i < blocks.length
  offered : OfferedFrom blocks height x.offered
  tip : x.phase ≠ .dropped true →
    inv x.chain ∧ target.tipHeight x.chain = height + x.offered.length
  finished : x.phase = .dropped false → blocks.length ≤ height + x.offered.length + 1

theorem good_start {chain : S} (hinv : inv chain) :
    Good target blocks inv (target.tipHeight chain) (Config.start chain) where
  requested := by simp [Config.start]
  offered := by simp [OfferedFrom, Config.start]
  tip _ := ⟨hinv, rfl⟩
  finished h := by cases h

theorem good_step (h : Holds target files blocks inv) {height : ℕ} {x y : Config S P}
    (hgood : Good target blocks inv height x) (hstep : Step target files blocks.length x y) :
    Good target blocks inv height y := by
  obtain ⟨hrequested, hoffered, htip, hfinished⟩ := hgood
  have hnext : target.tipHeight x.chain + 1 < blocks.length →
      ∀ i ∈ x.requested ++ [target.tipHeight x.chain + 1], i < blocks.length := by
    intro hlt i hi
    rw [List.mem_append, List.mem_singleton] at hi
    obtain hi | rfl := hi
    · exact hrequested i hi
    · exact hlt
  cases hstep with
  | call hphase =>
    exact ⟨hrequested, hoffered, fun _ ↦ htip (by simp [hphase]), fun h ↦ by cases h⟩
  | offer hphase hlt hload hadds hphase' =>
    rename_i p chain phase
    obtain ⟨hinv, heq⟩ := htip (by simp [hphase])
    rw [h.load] at hload
    have hgrows := h.grows _ _ _ hinv hload hadds
    have hoffered' := hoffered.append (by rw [← heq, hload])
    refine ⟨hnext hlt, hoffered', fun _ ↦ ⟨h.keeps _ _ _ hinv hload hadds, ?_⟩, fun hdropped ↦ ?_⟩
    · rw [hgrows, heq, List.length_append, List.length_singleton]
      rfl
    · simp only at hdropped
      rw [List.length_append, List.length_singleton]
      obtain hrunning | hleft := hphase'
      · rw [hrunning] at hdropped
        cases hdropped
      · rw [hdropped] at hleft
        split_ifs at hleft with hmore
        omega
  | refuse hphase hlt hload hadds =>
    obtain ⟨hinv, heq⟩ := htip (by simp [hphase])
    rw [h.load] at hload
    exact ⟨hnext hlt, hoffered.append (by rw [← heq, hload]), fun hne ↦ absurd rfl hne,
      fun hdropped ↦ by cases hdropped⟩
  | throw hphase hlt hload =>
    rw [h.load, List.getElem?_eq_getElem hlt] at hload
    cases hload
  | finish hphase hlt =>
    obtain ⟨hinv, heq⟩ := htip (by simp [hphase])
    exact ⟨hrequested, hoffered, fun _ ↦ ⟨hinv, heq⟩, fun _ ↦ by
      simp only
      omega⟩

def Phase.rank : Phase → ℕ
  | idle => 2
  | running => 1
  | dropped _ => 0

theorem Phase.rank_le (phase : Phase) : phase.rank ≤ 2 := by
  cases phase <;> simp [Phase.rank]

/-- How much is left to do. -/
def measure (blocks : List P) (height : ℕ) (x : Config S P) : ℕ :=
  2 * (blocks.length - (height + x.offered.length + 1)) + x.phase.rank

theorem measure_step {height : ℕ} {x y : Config S P} (hgood : Good target blocks inv height x)
    (hstep : Step target files blocks.length x y) :
    measure blocks height y < measure blocks height x := by
  cases hstep with
  | call hphase =>
    simp only [measure, hphase, Phase.rank]
    omega
  | offer hphase hlt hload hadds hphase' =>
    rename_i p chain phase
    obtain ⟨-, heq⟩ := hgood.tip (by simp [hphase])
    have hrank := phase.rank_le
    have hrunning : Phase.running.rank = 1 := rfl
    simp only [measure, hphase, hrunning, List.length_append, List.length_singleton]
    omega
  | refuse hphase hlt =>
    simp only [measure, hphase, Phase.rank, List.length_append, List.length_singleton]
    omega
  | throw hphase hlt =>
    simp only [measure, hphase, Phase.rank]
    omega
  | finish hphase hlt =>
    simp only [measure, hphase, Phase.rank]
    omega

/-- A run goes on until the reader is dropped. -/
theorem exists_step (h : Holds target files blocks inv) {x : Config S P}
    (hphase : ∀ refused, x.phase ≠ .dropped refused) :
    ∃ y, Step target files blocks.length x y := by
  cases hx : x.phase with
  | idle => exact ⟨_, .call hx⟩
  | running =>
    by_cases hlt : target.tipHeight x.chain + 1 < blocks.length
    · have hload := h.load (target.tipHeight x.chain + 1)
      rw [List.getElem?_eq_getElem hlt] at hload
      obtain ⟨chain, accepted, hadds⟩ := h.total x.chain blocks[target.tipHeight x.chain + 1]
      cases accepted with
      | true => exact ⟨_, .offer hx hlt hload hadds (.inl rfl)⟩
      | false => exact ⟨_, .refuse hx hlt hload hadds⟩
    · exact ⟨_, .finish hx hlt⟩
  | dropped refused => exact absurd hx (hphase refused)

/-- An import that succeeds leaves a chain whose tip is the last block offered. -/
theorem chain_of_succeeded (h : Holds target files blocks inv) {chain : S} (hinv : inv chain)
    {x : Config S P} (hrun : ReflTransGen (Step target files blocks.length) (Config.start chain) x)
    (hphase : x.phase = .dropped false) :
    inv x.chain ∧ target.tipHeight x.chain = target.tipHeight chain + x.offered.length := by
  have hpreserves : Preserves (Step target files blocks.length)
      (Good target blocks inv (target.tipHeight chain)) := fun _ _ hstep hgood ↦
    good_step h hgood hstep
  exact (hpreserves.star hrun (good_start hinv)).tip (by simp [hphase])

theorem importsInOrder (h : Holds target files blocks inv) {chain : S} (hinv : inv chain) :
    ImportsInOrder (Step target files blocks.length) (Config.start chain) Config.requested
      Config.offered (fun x ↦ ∃ refused, x.phase = .dropped refused)
      (fun x ↦ x.phase = .dropped false) blocks (target.tipHeight chain) blocks.length := by
  have hpreserves : Preserves (Step target files blocks.length)
      (Good target blocks inv (target.tipHeight chain)) := fun _ _ hstep hgood ↦
    good_step h hgood hstep
  have hstart : Good target blocks inv (target.tipHeight chain) (Config.start chain) :=
    good_start hinv
  constructor
  · intro x hrun
    exact (hpreserves.star hrun hstart).requested
  · intro x hrun
    exact (hpreserves.star hrun hstart).offered
  · intro x hrun hended
    exact exists_step h fun refused hphase ↦ hended ⟨refused, hphase⟩
  · intro run hrun
    exact not_forall_step hpreserves (fun _ _ hgood hstep ↦ measure_step hgood hstep)
      (hrun ▸ hstart)
  · intro x hrun hphase
    have hgood := hpreserves.star hrun hstart
    have hfinished := hgood.finished hphase
    rw [hgood.offered, List.take_of_length_le, List.take_of_length_le]
    · rw [List.length_drop]
      omega
    · rw [List.length_drop]
      omega

end ImportBlocks

namespace ImportBlockchain2

variable {target : ImportTarget S P} {files : BlockFiles} {blocks : List P} {inv : S → Prop}

/-- The bytes of the blocks from one index up to another. -/
def windowSize (target : ImportTarget S P) (blocks : List P) (first last : ℕ) : ℕ :=
  (((blocks.drop first).take (last - first)).map fun p ↦ (target.blockData p).length).sum

/-- The preloader stays inside the files: nothing is requested, or its window ends before the last
block, or the blocks behind the last one requested are too big to be loaded all. -/
def InsideFiles (target : ImportTarget S P) (blocks : List P) (tip height : ℕ) : Prop :=
  height ≤ tip ∨ height + maxPreloadBlocks < blocks.length ∨
    height < blocks.length ∧
      maxPreloadTotalSize < windowSize target blocks (height + 1) blocks.length

theorem windowSize_self (first : ℕ) : windowSize target blocks first first = 0 := by
  simp [windowSize]

theorem windowSize_succ {first last : ℕ} (hle : first ≤ last) {p : P}
    (hget : blocks[last]? = some p) :
    windowSize target blocks first (last + 1) =
      windowSize target blocks first last + (target.blockData p).length := by
  have hdrop : (blocks.drop first)[last - first]? = some p := by
    rw [List.getElem?_drop, ← hget]
    congr 1
    omega
  obtain ⟨hlt, heq⟩ := List.getElem?_eq_some_iff.mp hdrop
  unfold windowSize
  rw [Nat.succ_sub hle, List.take_succ_eq_append_getElem hlt, List.map_append, List.sum_append, heq]
  simp

theorem windowSize_cons {first last : ℕ} (hlt : first < last) {p : P}
    (hget : blocks[first]? = some p) :
    windowSize target blocks first last =
      (target.blockData p).length + windowSize target blocks (first + 1) last := by
  obtain ⟨hlength, heq⟩ := List.getElem?_eq_some_iff.mp hget
  unfold windowSize
  have hsub : last - first = last - (first + 1) + 1 := by omega
  rw [List.drop_eq_getElem_cons hlength, hsub, List.take_succ_cons, List.map_cons, List.sum_cons,
    heq]

theorem windowSize_mono {first first' last : ℕ} (hle : first ≤ first')
    (hlast : last ≤ blocks.length) :
    windowSize target blocks first' last ≤ windowSize target blocks first last := by
  induction first', hle using Nat.le_induction with
  | base => exact le_rfl
  | succ k hk ih =>
    by_cases hlt : k < last
    · have hget : blocks[k]? = some blocks[k] := List.getElem?_eq_getElem (by omega)
      have hcons : windowSize target blocks k last =
          (target.blockData blocks[k]).length + windowSize target blocks (k + 1) last :=
        windowSize_cons hlt hget
      omega
    · have hzero : windowSize target blocks (k + 1) last = 0 := by
        rw [windowSize, Nat.sub_eq_zero_of_le (by omega)]
        simp
      omega

/-- The blocks handed over and not taken yet: `taken` and `stored` count from the tip. -/
structure Window (target : ImportTarget S P) (blocks : List P) (tip taken stored : ℕ)
    (prepared : Store ℕ P) (total : ℕ) : Prop where
  taken_le : taken ≤ stored
  prepared : ∀ j, prepared.get j =
    if tip + 1 + taken ≤ j ∧ j < tip + 1 + stored then blocks[j]? else none
  total : total = windowSize target blocks (tip + 1 + taken) (tip + 1 + stored)

section Window

variable {tip taken stored total i : ℕ} {prepared : Store ℕ P} {p : P}

theorem window_empty : Window target blocks tip 0 0 ∅ 0 where
  taken_le := le_rfl
  prepared j := by
    rw [if_neg (by omega)]
    rfl
  total := (windowSize_self _).symm

/-- What is found is the next block to be taken. -/
theorem Window.get_eq (h : Window target blocks tip taken stored prepared total)
    (hi : i = tip + 1 + taken) (hget : prepared.get i = some p) :
    taken < stored ∧ blocks[i]? = some p := by
  have hprepared := h.prepared i
  rw [hget] at hprepared
  split_ifs at hprepared with hwindow
  exact ⟨by omega, hprepared.symm⟩

theorem Window.take (h : Window target blocks tip taken stored prepared total)
    (hi : i = tip + 1 + taken) (hget : prepared.get i = some p) :
    Window target blocks tip (taken + 1) stored (prepared.remove i)
      (total - (target.blockData p).length) := by
  obtain ⟨hlt, hp⟩ := h.get_eq hi hget
  refine ⟨hlt, fun j ↦ ?_, ?_⟩
  · rw [Store.get_remove, h.prepared]
    by_cases hj : i = j
    · rw [if_pos hj, if_neg (by omega)]
    · rw [if_neg hj]
      have hiff : (tip + 1 + taken ≤ j ∧ j < tip + 1 + stored) ↔
          tip + 1 + (taken + 1) ≤ j ∧ j < tip + 1 + stored := by omega
      simp only [hiff]
  · have hcons : windowSize target blocks i (tip + 1 + stored) =
        (target.blockData p).length + windowSize target blocks (i + 1) (tip + 1 + stored) :=
      windowSize_cons (by omega) hp
    rw [h.total, ← hi, hcons, Nat.add_sub_cancel_left, hi, Nat.add_assoc (tip + 1)]

theorem Window.store (h : Window target blocks tip taken stored prepared total)
    (hi : i = tip + 1 + stored) (hget : blocks[i]? = some p) :
    Window target blocks tip taken (stored + 1) (prepared.put i p)
      (total + (target.blockData p).length) := by
  have hle := h.taken_le
  refine ⟨by omega, fun j ↦ ?_, ?_⟩
  · rw [Store.get_put, h.prepared]
    by_cases hj : i = j
    · subst hj
      rw [if_pos rfl, if_pos (by omega), hget]
    · rw [if_neg hj]
      have hiff : (tip + 1 + taken ≤ j ∧ j < tip + 1 + stored) ↔
          tip + 1 + taken ≤ j ∧ j < tip + 1 + (stored + 1) := by omega
      simp only [hiff]
  · have hsucc : windowSize target blocks (tip + 1 + taken) (i + 1) =
        windowSize target blocks (tip + 1 + taken) i + (target.blockData p).length :=
      windowSize_succ (by omega) hget
    rw [h.total, ← hi, ← hsucc, hi]
    rfl

end Window

/-- A block at hand that is not offered yet. -/
def Importer.pending : Importer P → ℕ
  | offering _ => 1
  | _ => 0

/-- A block loaded that is not handed over yet. -/
def Preloader.pending : Preloader P → ℕ
  | loaded _ _ => 1
  | _ => 0

theorem Preloader.pending_wake (preloader : Preloader P) :
    preloader.wake.pending = preloader.pending := by
  cases preloader <;> rfl

theorem Preloader.pending_start (preloader : Preloader P) :
    preloader.start.pending = preloader.pending := by
  cases preloader <;> rfl

/-- The blocks taken by the importer: those offered and the one it has at hand. -/
def Config.taken (x : Config S P) : ℕ := x.offered.length + x.importer.pending

/-- The blocks that the preloader has handed over. -/
def Config.stored (x : Config S P) : ℕ := x.requested.length - x.preloader.pending

/-- The importer's place: `tip` is where the run started, `height` where it is to end. -/
def ImporterAt (target : ImportTarget S P) (blocks : List P) (inv : S → Prop) (tip height : ℕ)
    (x : Config S P) : Prop :=
  match x.importer with
  | .loop => inv x.chain ∧ target.tipHeight x.chain = tip + x.offered.length
  | .waiting i =>
    (inv x.chain ∧ target.tipHeight x.chain = tip + x.offered.length) ∧
      i = tip + 1 + x.offered.length ∧ x.lastLoadHeight = i ∧ i ≤ height
  | .offering p =>
    (inv x.chain ∧ target.tipHeight x.chain = tip + x.offered.length) ∧
      blocks[tip + x.offered.length + 1]? = some p
  | .returned result => result = true →
    (inv x.chain ∧ target.tipHeight x.chain = tip + x.offered.length) ∧
      height ≤ tip + x.offered.length

/-- The preloader's place. -/
def PreloaderAt (blocks : List P) (tip height : ℕ) (x : Config S P) : Prop :=
  match x.preloader with
  | .unstarted => x.requested = [] ∧ x.nextLoadHeight = 0 ∧ ∀ i, x.importer ≠ .waiting i
  | .check => x.next = tip + 1 + x.requested.length ∧ (x.nextLoadHeight = 0 → x.requested = []) ∧
      tip < height
  | .asleep => x.nextLoadHeight = tip + 1 + x.requested.length ∧ x.quit = false ∧
      (∀ i, x.importer = .waiting i → x.Ahead) ∧ tip < height
  | .loading i => i = tip + 1 + x.requested.length ∧ x.nextLoadHeight = i + 1 ∧ i < blocks.length ∧
      tip < height
  | .loaded i p => i = tip + x.requested.length ∧ tip < i ∧ x.nextLoadHeight = i + 1 ∧
      blocks[i]? = some p ∧ tip < height
  | .exited => x.quit = true
  | .failed => False

/-- What holds of every state of a run whose preloader stays inside the files. -/
structure Good (target : ImportTarget S P) (blocks : List P) (inv : S → Prop) (tip height : ℕ)
    (x : Config S P) : Prop where
  offered : OfferedFrom blocks tip x.offered
  importer : ImporterAt target blocks inv tip height x
  preloader : PreloaderAt blocks tip height x
  requested : x.requested = List.range' (tip + 1) x.requested.length
  bound : x.requested.length ≤ blocks.length - (tip + 1)
  last_le : x.lastLoadHeight ≤ height
  reached : tip + x.taken ≤ max tip height
  window : Window target blocks tip x.taken x.stored x.preparedBlocks x.totalPreparedDataSize
  quit : x.quit = true → ∃ result, x.importer = .returned result

theorem good_start {chain : S} {height : ℕ} (hinv : inv chain) :
    Good target blocks inv (target.tipHeight chain) height (Config.start chain) where
  offered := by simp [OfferedFrom, Config.start]
  importer := ⟨hinv, rfl⟩
  preloader := ⟨rfl, rfl, fun _ h ↦ by cases h⟩
  requested := rfl
  bound := Nat.zero_le _
  last_le := Nat.zero_le _
  reached := Nat.le_max_left _ _
  window := window_empty
  quit h := by cases h

variable {tip height : ℕ} {x : Config S P}

/-- Only a request, the lock and the end of the process move the preloader. -/
theorem PreloaderAt.of_eq {x y : Config S P} (hpre : PreloaderAt blocks tip height x)
    (hwaiting : ∀ i, y.importer ≠ .waiting i) (hpreloader : y.preloader = x.preloader)
    (hrequested : y.requested = x.requested) (hnext : y.nextLoadHeight = x.nextLoadHeight)
    (hlast : y.lastLoadHeight = x.lastLoadHeight) (hquit : y.quit = x.quit) :
    PreloaderAt blocks tip height y := by
  unfold PreloaderAt at hpre ⊢
  rw [hpreloader]
  cases hx : x.preloader with
  | unstarted =>
    simp only [hx] at hpre
    exact ⟨hrequested.trans hpre.1, hnext.trans hpre.2.1, hwaiting⟩
  | check =>
    simp only [hx, Config.next] at hpre
    simpa only [Config.next, hrequested, hnext, hlast] using hpre
  | asleep =>
    simp only [hx] at hpre
    simp only [hrequested, hnext, hquit]
    exact ⟨hpre.1, hpre.2.1, fun i h ↦ absurd h (hwaiting i), hpre.2.2.2⟩
  | loading i =>
    simp only [hx] at hpre
    simpa only [hrequested, hnext] using hpre
  | loaded i p =>
    simp only [hx] at hpre
    simpa only [hrequested, hnext] using hpre
  | exited =>
    simp only [hx] at hpre
    exact hquit.trans hpre
  | failed => simp only [hx] at hpre

theorem Good.request (hgood : Good target blocks inv tip height x) (himporter : x.importer = .loop)
    (hlt : target.tipHeight x.chain < height) :
    Good target blocks inv tip height { x with
      importer := .waiting (target.tipHeight x.chain + 1), preloader := x.preloader.start,
      lastLoadHeight := target.tipHeight x.chain + 1 } := by
  have hat := hgood.importer
  simp only [ImporterAt, himporter] at hat
  have htaken : x.taken = x.offered.length := by simp [Config.taken, himporter, Importer.pending]
  have hstored : x.requested.length - x.preloader.start.pending = x.stored := by
    rw [Preloader.pending_start, Config.stored]
  have hle := hgood.window.taken_le
  refine ⟨hgood.offered, ⟨hat, ?_, rfl, hlt⟩, ?_, hgood.requested, hgood.bound, hlt, ?_, ?_, ?_⟩
  · change target.tipHeight x.chain + 1 = tip + 1 + x.offered.length
    omega
  · have hpre := hgood.preloader
    unfold PreloaderAt at hpre ⊢
    cases hp : x.preloader with
    | unstarted =>
      simp only [hp] at hpre
      have hoffered : x.offered.length = 0 := by
        rw [Config.stored, hpre.1] at hle
        simp at hle
        omega
      refine ⟨?_, fun _ ↦ hpre.1, by omega⟩
      simp only [Config.next, hpre.2.1, hpre.1, if_pos, hat.2, hoffered]
      simp
    | check =>
      simp only [hp] at hpre
      refine ⟨?_, hpre.2⟩
      by_cases hnext : x.nextLoadHeight = 0
      · have hrequested := hpre.2.1 hnext
        have hoffered : x.offered.length = 0 := by
          rw [Config.stored, hrequested] at hle
          simp at hle
          omega
        simp only [Config.next, hnext, hrequested, if_pos, hat.2, hoffered]
        simp
      · have heq := hpre.1
        simp only [Config.next, if_neg hnext] at heq ⊢
        exact heq
    | asleep =>
      simp only [hp] at hpre
      refine ⟨?_, fun h ↦ ?_, hpre.2.2.2⟩
      · simp only [Config.next]
        rw [if_neg (by omega)]
        exact hpre.1
      · simp only at h
        omega
    | loading i =>
      simp only [hp] at hpre
      exact hpre
    | loaded i p =>
      simp only [hp] at hpre
      exact hpre
    | exited =>
      simp only [hp] at hpre
      exact hpre
    | failed => simp only [hp] at hpre
  · have hreached := hgood.reached
    simp only [Config.taken, Importer.pending, himporter] at hreached ⊢
    exact hreached
  · change Window target blocks tip x.offered.length
      (x.requested.length - x.preloader.start.pending) x.preparedBlocks x.totalPreparedDataSize
    rw [hstored, ← htaken]
    exact hgood.window
  · intro hquit
    obtain ⟨result, h⟩ := hgood.quit hquit
    rw [himporter] at h
    cases h

theorem Good.take (hgood : Good target blocks inv tip height x) {i : ℕ} {p : P}
    (himporter : x.importer = .waiting i) (hget : x.preparedBlocks.get i = some p) :
    Good target blocks inv tip height { x with
      importer := .offering p, preparedBlocks := x.preparedBlocks.remove i,
      totalPreparedDataSize := x.totalPreparedDataSize - (target.blockData p).length } := by
  obtain ⟨hat, hi, hlast, hle⟩ : (inv x.chain ∧ target.tipHeight x.chain = tip + x.offered.length) ∧
      i = tip + 1 + x.offered.length ∧ x.lastLoadHeight = i ∧ i ≤ height := by
    have hat := hgood.importer
    simpa only [ImporterAt, himporter] using hat
  have htaken : x.taken = x.offered.length := by simp [Config.taken, himporter, Importer.pending]
  have hi' : i = tip + 1 + x.taken := by rw [hi, htaken]
  have hlt := (hgood.window.get_eq hi' hget).1
  have hp := (hgood.window.get_eq hi' hget).2
  refine ⟨hgood.offered, ⟨hat, ?_⟩, ?_, hgood.requested, hgood.bound, hgood.last_le, ?_, ?_, ?_⟩
  · change blocks[tip + x.offered.length + 1]? = some p
    rw [← hp, hi]
    congr 1
    omega
  · exact hgood.preloader.of_eq (fun _ h ↦ by cases h) rfl rfl rfl rfl rfl
  · change tip + (x.offered.length + 1) ≤ max tip height
    omega
  · rw [htaken] at hi'
    have hwindow := hgood.window
    rw [htaken] at hwindow
    exact hwindow.take hi' hget
  · intro hquit
    obtain ⟨result, h⟩ := hgood.quit hquit
    rw [himporter] at h
    cases h

/-- The importer is behind `add_block`. -/
theorem Good.offer (hgood : Good target blocks inv tip height x) {p : P} {chain : S}
    {importer : Importer P} (himporter : x.importer = .offering p)
    (hat : importer = .returned false ∨ importer = .loop ∧ inv chain ∧
      target.tipHeight chain = target.tipHeight x.chain + 1) :
    Good target blocks inv tip height { x with chain, importer, offered := x.offered ++ [p] } := by
  obtain ⟨⟨hinv, htip⟩, hget⟩ : (inv x.chain ∧ target.tipHeight x.chain = tip + x.offered.length) ∧
      blocks[tip + x.offered.length + 1]? = some p := by
    have hat := hgood.importer
    simpa only [ImporterAt, himporter] using hat
  have htaken : x.taken = x.offered.length + 1 := by
    simp [Config.taken, himporter, Importer.pending]
  have hlength : (x.offered ++ [p]).length = x.offered.length + 1 := List.length_append
  have hpending : importer.pending = 0 := by
    obtain rfl | ⟨rfl, -⟩ := hat <;> rfl
  have htaken' : (x.offered ++ [p]).length + importer.pending = x.taken := by omega
  refine ⟨hgood.offered.append hget, ?_, ?_, hgood.requested, hgood.bound, hgood.last_le, ?_, ?_,
    ?_⟩
  · unfold ImporterAt
    obtain rfl | ⟨rfl, hinv', htip'⟩ := hat
    · intro h
      cases h
    · refine ⟨hinv', ?_⟩
      change target.tipHeight chain = tip + (x.offered ++ [p]).length
      omega
  · have hwaiting : ∀ i, importer ≠ .waiting i := by
      intro i h
      obtain rfl | ⟨rfl, -⟩ := hat <;> cases h
    exact hgood.preloader.of_eq hwaiting rfl rfl rfl rfl rfl
  · change tip + ((x.offered ++ [p]).length + importer.pending) ≤ max tip height
    rw [htaken']
    exact hgood.reached
  · change Window target blocks tip ((x.offered ++ [p]).length + importer.pending) x.stored
      x.preparedBlocks x.totalPreparedDataSize
    rw [htaken']
    exact hgood.window
  · intro hquit
    obtain ⟨result, h⟩ := hgood.quit hquit
    rw [himporter] at h
    cases h

/-- A step of the preloader outside the lock or one that hands nothing over changes its place
only. -/
theorem Good.place (hgood : Good target blocks inv tip height x) {preloader : Preloader P}
    {next : ℕ}
    (hpending : preloader.pending = x.preloader.pending)
    (hpre : PreloaderAt blocks tip height { x with preloader, nextLoadHeight := next }) :
    Good target blocks inv tip height { x with preloader, nextLoadHeight := next } := by
  have hstored : x.requested.length - preloader.pending = x.stored := by
    rw [hpending, Config.stored]
  refine ⟨hgood.offered, hgood.importer, hpre, hgood.requested, hgood.bound, hgood.last_le,
    hgood.reached, ?_, hgood.quit⟩
  change Window target blocks tip x.taken (x.requested.length - preloader.pending)
    x.preparedBlocks x.totalPreparedDataSize
  rw [hstored]
  exact hgood.window

/-- The condition is what keeps the index chosen below the number of the blocks. -/
theorem Good.next_lt (hgood : Good target blocks inv tip height x)
    (hinside : InsideFiles target blocks tip height) (hpreloader : x.preloader = .check)
    (hahead : ¬x.Ahead) : x.next < blocks.length := by
  have hpre := hgood.preloader
  simp only [PreloaderAt, hpreloader] at hpre
  obtain ⟨hnext, -, hlt⟩ := hpre
  have hlast := hgood.last_le
  have hbound := hgood.bound
  have hreached := hgood.reached
  have htotal := hgood.window.total
  have hstored : x.stored = x.requested.length := by
    simp [Config.stored, hpreloader, Preloader.pending]
  rw [Config.Ahead, not_or] at hahead
  obtain hle | hfar | ⟨hbelow, hbig⟩ := hinside
  · omega
  · omega
  · by_contra hge
    -- everything up to the last block is loaded, and of this the importer still needs too much
    have hend : tip + 1 + x.stored = blocks.length := by omega
    rw [hend] at htotal
    have hmono : windowSize target blocks (height + 1) blocks.length ≤
        windowSize target blocks (tip + 1 + x.taken) blocks.length :=
      windowSize_mono (by omega) le_rfl
    omega

theorem Good.load (hgood : Good target blocks inv tip height x) {i : ℕ} {p : P}
    (hpreloader : x.preloader = .loading i) (hget : blocks[i]? = some p) :
    Good target blocks inv tip height { x with
      preloader := .loaded i p, requested := x.requested ++ [i] } := by
  have hpre := hgood.preloader
  simp only [PreloaderAt, hpreloader] at hpre
  obtain ⟨hi, hnext, hlt, htip⟩ := hpre
  have hlength : (x.requested ++ [i]).length = x.requested.length + 1 := List.length_append
  have hstored : (x.requested ++ [i]).length - (Preloader.loaded i p).pending = x.stored := by
    rw [hlength, Config.stored, hpreloader]
    rfl
  refine ⟨hgood.offered, hgood.importer, ⟨?_, by omega, hnext, hget, htip⟩, ?_, ?_, hgood.last_le,
    hgood.reached, ?_, hgood.quit⟩
  · change i = tip + (x.requested ++ [i]).length
    omega
  · change x.requested ++ [i] = List.range' (tip + 1) (x.requested ++ [i]).length
    rw [hlength, List.range'_concat, ← hgood.requested, hi, Nat.one_mul]
  · change (x.requested ++ [i]).length ≤ blocks.length - (tip + 1)
    omega
  · change Window target blocks tip x.taken
      ((x.requested ++ [i]).length - (Preloader.loaded i p).pending) x.preparedBlocks
      x.totalPreparedDataSize
    rw [hstored]
    exact hgood.window

theorem Good.store (hgood : Good target blocks inv tip height x) {i : ℕ} {p : P}
    (hpreloader : x.preloader = .loaded i p) :
    Good target blocks inv tip height { x with
      preloader := .check, preparedBlocks := x.preparedBlocks.put i p,
      totalPreparedDataSize := x.totalPreparedDataSize + (target.blockData p).length } := by
  have hpre := hgood.preloader
  simp only [PreloaderAt, hpreloader] at hpre
  obtain ⟨hi, hlt, hnext, hget, htip⟩ := hpre
  have hlength : x.requested.length = x.stored + 1 := by
    simp only [Config.stored, hpreloader, Preloader.pending]
    omega
  have hi' : i = tip + 1 + x.stored := by omega
  refine ⟨hgood.offered, ?_, ⟨?_, fun h ↦ ?_, htip⟩, hgood.requested, hgood.bound, hgood.last_le,
    hgood.reached, ?_, hgood.quit⟩
  · exact hgood.importer
  · change (if x.nextLoadHeight = 0 then x.lastLoadHeight else x.nextLoadHeight) =
      tip + 1 + x.requested.length
    rw [if_neg (by omega)]
    omega
  · change x.nextLoadHeight = 0 at h
    omega
  · change Window target blocks tip x.taken x.requested.length (x.preparedBlocks.put i p)
      (x.totalPreparedDataSize + (target.blockData p).length)
    rw [hlength]
    exact hgood.window.store hi' hget

/-- Leaving the loop and setting `quit` change the importer's place only. -/
theorem Good.leave (hgood : Good target blocks inv tip height x) {result quit : Bool}
    {preloader : Preloader P} (hpending : x.importer.pending = 0)
    (hresult : result = true →
      (inv x.chain ∧ target.tipHeight x.chain = tip + x.offered.length) ∧
        height ≤ tip + x.offered.length)
    (hpreloader : preloader.pending = x.preloader.pending)
    (hpre : PreloaderAt blocks tip height { x with
      importer := .returned result, preloader, quit }) :
    Good target blocks inv tip height { x with importer := .returned result, preloader, quit } := by
  have htaken : x.offered.length = x.taken := by rw [Config.taken, hpending, Nat.add_zero]
  have hstored : x.requested.length - preloader.pending = x.stored := by
    rw [hpreloader, Config.stored]
  refine ⟨hgood.offered, hresult, hpre, hgood.requested, hgood.bound, hgood.last_le, ?_, ?_,
    fun _ ↦ ⟨result, rfl⟩⟩
  · change tip + x.offered.length ≤ max tip height
    rw [htaken]
    exact hgood.reached
  · change Window target blocks tip x.offered.length (x.requested.length - preloader.pending)
      x.preparedBlocks x.totalPreparedDataSize
    rw [hstored, htaken]
    exact hgood.window

theorem good_step (h : Holds target files blocks inv)
    (hinside : InsideFiles target blocks tip height)
    {x y : Config S P} (hgood : Good target blocks inv tip height x)
    (hstep : Step target files blocks.length height x y) : Good target blocks inv tip height y := by
  have himporter := hgood.importer
  have hpre := hgood.preloader
  cases hstep with
  | request hfailed hloop hlt => exact hgood.request hloop hlt
  | take hfailed hwaiting hget => exact hgood.take hwaiting hget
  | offer hfailed hoffering hadds =>
    simp only [ImporterAt, hoffering] at himporter
    obtain ⟨⟨hinv, htip⟩, hget⟩ := himporter
    rw [← htip] at hget
    exact hgood.offer hoffering (.inr ⟨rfl, h.keeps _ _ _ hinv hget hadds,
      h.grows _ _ _ hinv hget hadds⟩)
  | refuse hfailed hoffering hadds => exact hgood.offer hoffering (.inl rfl)
  | finish hfailed hloop hge =>
    simp only [ImporterAt, hloop] at himporter
    exact hgood.leave (by rw [hloop]; rfl) (fun _ ↦ ⟨himporter, by omega⟩) rfl
      (hpre.of_eq (fun _ h ↦ by cases h) rfl rfl rfl rfl rfl)
  | quit hfailed hreturned hquit =>
    rename_i result
    simp only [ImporterAt, hreturned] at himporter
    have heq : { x with quit := true, preloader := x.preloader.wake } =
        { x with importer := .returned result, preloader := x.preloader.wake, quit := true } := by
      rw [← hreturned]
    rw [heq]
    refine hgood.leave (by rw [hreturned]; rfl) himporter x.preloader.pending_wake ?_
    unfold PreloaderAt at hpre ⊢
    cases hx : x.preloader with
    | unstarted =>
      simp only [hx] at hpre
      refine ⟨hpre.1, hpre.2.1, fun _ h ↦ ?_⟩
      cases h
    | asleep =>
      simp only [hx] at hpre
      refine ⟨?_, fun h ↦ ?_, hpre.2.2.2⟩
      · change (if x.nextLoadHeight = 0 then x.lastLoadHeight else x.nextLoadHeight) =
          tip + 1 + x.requested.length
        rw [if_neg (by omega)]
        exact hpre.1
      · change x.nextLoadHeight = 0 at h
        omega
    | check =>
      simp only [hx] at hpre
      exact hpre
    | loading i =>
      simp only [hx] at hpre
      exact hpre
    | loaded i p =>
      simp only [hx] at hpre
      exact hpre
    | exited => rfl
    | failed => simp only [hx] at hpre
  | exit hcheck hquit => exact hgood.place (by rw [hcheck]; rfl) hquit
  | sleep hcheck hquit hahead =>
    simp only [PreloaderAt, hcheck] at hpre
    have hnext : (if x.next = 0 then x.lastLoadHeight else x.next) = x.next := if_neg (by omega)
    refine hgood.place (by rw [hcheck]; rfl) ⟨hpre.1, hquit, fun _ _ ↦ ?_, hpre.2.2⟩
    change x.lastLoadHeight + maxPreloadBlocks < (if x.next = 0 then x.lastLoadHeight else x.next) ∨
      maxPreloadTotalSize < x.totalPreparedDataSize
    rw [hnext]
    exact hahead
  | choose hcheck hquit hahead =>
    have hlt := hgood.next_lt hinside hcheck hahead
    simp only [PreloaderAt, hcheck] at hpre
    exact hgood.place (by rw [hcheck]; rfl) ⟨hpre.1, rfl, hlt, hpre.2.2⟩
  | load hloading hload =>
    rw [h.load] at hload
    exact hgood.load hloading hload
  | throw hloading hload =>
    simp only [PreloaderAt, hloading] at hpre
    rw [h.load, List.getElem?_eq_getElem hpre.2.2.1] at hload
    cases hload
  | store hloaded => exact hgood.store hloaded

/-! ### Every run ends -/

/-- The importer is behind the loop and the preloader has ended or was never started. -/
def Config.Ended (x : Config S P) : Prop :=
  (∃ result, x.importer = .returned result) ∧ x.quit = true ∧
    (x.preloader = .unstarted ∨ x.preloader = .exited)

/-- A block waited for is there, or the preloader is not asleep. -/
theorem Good.prepared_or_awake (hgood : Good target blocks inv tip height x) {i : ℕ}
    (hwaiting : x.importer = .waiting i) (hpreloader : x.preloader = .asleep) :
    ∃ p, x.preparedBlocks.get i = some p := by
  have hat := hgood.importer
  have hpre := hgood.preloader
  simp only [ImporterAt, hwaiting] at hat
  simp only [PreloaderAt, hpreloader] at hpre
  obtain ⟨-, hi, hlast, -⟩ := hat
  obtain ⟨hnext, -, hahead, -⟩ := hpre
  have htaken : x.taken = x.offered.length := by simp [Config.taken, hwaiting, Importer.pending]
  have hstored : x.stored = x.requested.length := by
    simp [Config.stored, hpreloader, Preloader.pending]
  have hbound := hgood.bound
  have hle := hgood.window.taken_le
  have hprepared := hgood.window.prepared i
  by_cases hlt : x.taken < x.stored
  · rw [if_pos (by omega), List.getElem?_eq_getElem (by omega)] at hprepared
    exact ⟨_, hprepared⟩
  · -- all that was loaded is taken, so nothing keeps the preloader back
    have heq : tip + 1 + x.taken = tip + 1 + x.stored := by omega
    have htotal := hgood.window.total
    rw [heq, windowSize_self] at htotal
    have hx : x.next = x.nextLoadHeight := if_neg (by omega)
    obtain hfar | hbig := hahead i hwaiting
    · omega
    · omega

/-- The importing thread goes on unless it waits for a block that is not there. -/
theorem exists_step_importer (h : Holds target files blocks inv) (hfailed : x.preloader ≠ .failed)
    (hwaiting : ∀ i, x.importer = .waiting i → ∃ p, x.preparedBlocks.get i = some p)
    (hreturned : ∀ result, x.importer = .returned result → x.quit = false) :
    ∃ y, Step target files blocks.length height x y := by
  cases himporter : x.importer with
  | loop =>
    by_cases hlt : target.tipHeight x.chain < height
    · exact ⟨_, .request hfailed himporter hlt⟩
    · exact ⟨_, .finish hfailed himporter hlt⟩
  | waiting i =>
    obtain ⟨p, hget⟩ := hwaiting i himporter
    exact ⟨_, .take hfailed himporter hget⟩
  | offering p =>
    obtain ⟨chain, accepted, hadds⟩ := h.total x.chain p
    cases accepted with
    | true => exact ⟨_, .offer hfailed himporter hadds⟩
    | false => exact ⟨_, .refuse hfailed himporter hadds⟩
  | returned result => exact ⟨_, .quit hfailed himporter (hreturned result himporter)⟩

/-- A run that has not ended goes on. -/
theorem exists_step (h : Holds target files blocks inv)
    (hgood : Good target blocks inv tip height x)
    (hended : ¬x.Ended) : ∃ y, Step target files blocks.length height x y := by
  have hpre := hgood.preloader
  unfold PreloaderAt at hpre
  cases hp : x.preloader with
  | unstarted =>
    simp only [hp] at hpre
    refine exists_step_importer h (by simp [hp]) (fun i h ↦ absurd h (hpre.2.2 i)) fun result h ↦ ?_
    by_contra hquit
    exact hended ⟨⟨result, h⟩, by simpa using hquit, .inl hp⟩
  | check =>
    cases hquit : x.quit with
    | true => exact ⟨_, .exit hp hquit⟩
    | false =>
      by_cases hahead : x.Ahead
      · exact ⟨_, .sleep hp hquit hahead⟩
      · exact ⟨_, .choose hp hquit hahead⟩
  | asleep =>
    simp only [hp] at hpre
    exact exists_step_importer h (by simp [hp]) (fun i h ↦ hgood.prepared_or_awake h hp)
      fun _ _ ↦ hpre.2.1
  | loading i =>
    simp only [hp] at hpre
    have hload := h.load i
    rw [List.getElem?_eq_getElem hpre.2.2.1] at hload
    exact ⟨_, .load hp hload⟩
  | loaded i p => exact ⟨_, .store hp⟩
  | exited =>
    simp only [hp] at hpre
    obtain ⟨result, hreturned⟩ := hgood.quit hpre
    exact absurd ⟨⟨result, hreturned⟩, hpre, .inr hp⟩ hended
  | failed => simp only [hp] at hpre

def Importer.rank (left : ℕ) (quit : Bool) : Importer P → ℕ
  | loop => 4 * left + 4
  | waiting _ => 4 * left + 2
  | offering _ => 4 * left + 1
  | returned _ => if quit then 0 else 3

def Preloader.rank : Preloader P → ℕ
  | unstarted | check => 1
  | loaded _ _ => 3
  | asleep | loading _ | exited | failed => 0

theorem Preloader.rank_wake (preloader : Preloader P) :
    preloader.wake.rank ≤ preloader.rank + 1 := by
  cases preloader <;> simp [wake, rank]

theorem Preloader.rank_start (preloader : Preloader P) :
    preloader.start.rank ≤ preloader.rank + 1 := by
  cases preloader <;> simp [start, wake, rank]

/-- How much is left to do. -/
def measure (blocks : List P) (tip height : ℕ) (x : Config S P) : ℕ :=
  x.importer.rank (height - (tip + x.offered.length)) x.quit +
    (4 * (blocks.length - x.requested.length) + x.preloader.rank)

theorem measure_step (hgood : Good target blocks inv tip height x) {y : Config S P}
    (hstep : Step target files blocks.length height x y) :
    measure blocks tip height y < measure blocks tip height x := by
  have hleft : x.importer.pending = 1 → tip + x.offered.length < height := by
    intro hpending
    have hreached := hgood.reached
    rw [Config.taken] at hreached
    omega
  cases hstep with
  | request hfailed hloop hlt =>
    have hrank := x.preloader.rank_start
    simp only [measure, hloop, Importer.rank]
    omega
  | take hfailed hwaiting hget =>
    simp only [measure, hwaiting, Importer.rank]
    omega
  | offer hfailed hoffering hadds =>
    have hlt := hleft (by rw [hoffering]; rfl)
    simp only [measure, hoffering, Importer.rank, List.length_append, List.length_singleton]
    omega
  | refuse hfailed hoffering hadds =>
    have hlt := hleft (by rw [hoffering]; rfl)
    have hquit : (if x.quit = true then 0 else 3) ≤ 3 := by split_ifs <;> omega
    simp only [measure, hoffering, Importer.rank]
    omega
  | finish hfailed hloop hge =>
    have hquit : (if x.quit = true then 0 else 3) ≤ 3 := by split_ifs <;> omega
    simp only [measure, hloop, Importer.rank]
    omega
  | quit hfailed hreturned hquit =>
    have hrank := x.preloader.rank_wake
    simp only [measure, hreturned, hquit, Importer.rank, if_true]
    simp only [Bool.false_eq_true, if_false]
    omega
  | exit hcheck hquit =>
    simp only [measure, hcheck, Preloader.rank]
    omega
  | sleep hcheck hquit hahead =>
    simp only [measure, hcheck, Preloader.rank]
    omega
  | choose hcheck hquit hahead =>
    simp only [measure, hcheck, Preloader.rank]
    omega
  | load hloading hload =>
    have hpre := hgood.preloader
    simp only [PreloaderAt, hloading] at hpre
    simp only [measure, hloading, Preloader.rank, List.length_append, List.length_singleton]
    omega
  | throw hloading hload =>
    rename_i i
    have hpre := hgood.preloader
    simp only [PreloaderAt, hloading] at hpre
    simp only [measure, hloading, Preloader.rank, List.length_append, List.length_singleton]
    omega
  | store hloaded =>
    simp only [measure, hloaded, Preloader.rank]
    omega

/-- An import that succeeds leaves a chain whose tip is the last block offered. -/
theorem chain_of_succeeded (h : Holds target files blocks inv) {chain : S} (hinv : inv chain)
    (hinside : InsideFiles target blocks (target.tipHeight chain) height)
    (hrun : ReflTransGen (Step target files blocks.length height) (Config.start chain) x)
    (hreturned : x.importer = .returned true) :
    inv x.chain ∧ target.tipHeight x.chain = target.tipHeight chain + x.offered.length := by
  have hpreserves : Preserves (Step target files blocks.length height)
      (Good target blocks inv (target.tipHeight chain) height) := fun _ _ hstep hgood ↦
    good_step h hinside hgood hstep
  have himporter := (hpreserves.star hrun (good_start hinv)).importer
  simp only [ImporterAt, hreturned, true_implies] at himporter
  exact himporter.1

/-- Where the preloader stays inside the files, the import goes well. -/
theorem importsInOrder (h : Holds target files blocks inv) {chain : S} (hinv : inv chain)
    (hinside : InsideFiles target blocks (target.tipHeight chain) height) :
    ImportsInOrder (Step target files blocks.length height) (Config.start chain) Config.requested
      Config.offered Config.Ended (fun x ↦ x.importer = .returned true) blocks
      (target.tipHeight chain) height := by
  have hpreserves : Preserves (Step target files blocks.length height)
      (Good target blocks inv (target.tipHeight chain) height) := fun _ _ hstep hgood ↦
    good_step h hinside hgood hstep
  have hstart : Good target blocks inv (target.tipHeight chain) height (Config.start chain) :=
    good_start hinv
  constructor
  · intro x hrun i hi
    have hgood := hpreserves.star hrun hstart
    have hbound := hgood.bound
    rw [hgood.requested, List.mem_range'_1] at hi
    omega
  · intro x hrun
    exact (hpreserves.star hrun hstart).offered
  · intro x hrun hended
    exact exists_step h (hpreserves.star hrun hstart) hended
  · intro run hrun
    exact not_forall_step hpreserves (fun _ _ hgood hstep ↦ measure_step hgood hstep)
      (hrun ▸ hstart)
  · intro x hrun hreturned
    have hgood := hpreserves.star hrun hstart
    have himporter := hgood.importer
    simp only [ImporterAt, hreturned, true_implies] at himporter
    have hreached := hgood.reached
    have htaken : x.taken = x.offered.length := by
      simp [Config.taken, hreturned, Importer.pending]
    have hlength : x.offered.length = height - target.tipHeight chain := by omega
    rw [hgood.offered, hlength]

/-- Where the block above the tip is not in the files, asking for it ends the process. -/
theorem exists_failed {count : ℕ} {chain : S} (hlt : target.tipHeight chain < height)
    (hload : loadBlock target files count (target.tipHeight chain + 1) = none) :
    ∃ x, ReflTransGen (Step target files count height) (Config.start chain) x ∧
      x.requested = [target.tipHeight chain + 1] ∧ x.preloader = .failed := by
  have hrequest : Step target files count height (Config.start chain) _ :=
    .request (by simp [Config.start]) rfl hlt
  refine ⟨_, ((ReflTransGen.single hrequest).tail (.choose rfl rfl ?_)).tail (.throw rfl hload),
    rfl,
    rfl⟩
  rintro (hfar | hbig)
  · have hle : target.tipHeight chain + 1 + maxPreloadBlocks < target.tipHeight chain + 1 := hfar
    omega
  · exact absurd hbig (Nat.not_lt_zero _)

end ImportBlockchain2

end Naza
