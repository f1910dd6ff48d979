import Naza.Lib.Transition
import Naza.Lib.WorkerPool
import Naza.Wallet.Concrete
import Naza.Wallet.Sync

/-!
# The threads that prepare blocks for a wallet

`WalletPreparatorMulticore` with its worker threads and the calls of `sync_with_blockchain`, one
step for each region under the lock.  In any order of the steps `get_ready_work` gives back the
preparation of the block that stands at its height in the answer being processed, never one of an
earlier answer, and it always returns.
-/

open Lib Relation

namespace Naza

variable (wc : WalletCrypto)

namespace WalletPreparatorMulticore

/-- What a thread takes out of the work. -/
structure Job where
  height : Height
  block : SyncBlock
  viewSecretKey : SecretKey

def Job.result (job : Job) : PreparedWalletBlock := job.block.prepare wc job.viewSecretKey

/-- The blocks from a height on. -/
def jobsFrom (viewSecretKey : SecretKey) : Height → List SyncBlock → List Job
  | _, [] => []
  | height, block :: blocks =>
    ⟨height, block, viewSecretKey⟩ :: jobsFrom viewSecretKey (height + 1) blocks

/-- The call of `sync_with_blockchain` under way. -/
structure Call where
  resp : SyncBlocksResponse
  viewSecretKey : SecretKey

def Call.jobs (call : Call) : List Job :=
  jobsFrom call.viewSecretKey call.resp.startHeight call.resp.blocks

/-- The height of a position of the answer. -/
def Call.height (call : Call) (position : ℕ) : Height :=
  call.resp.startHeight + UInt32.ofNat position

/-- The thread that owns the preparator: outside, between `cancel_work` and `start_work`, in the
loop over the blocks from a position on, or in `get_ready_work` before the lock or asleep. -/
inductive Owner where
  | idle
  | cancelled (call : Call)
  | processing (call : Call) (next : ℕ)
  | looking (call : Call) (position : ℕ)
  | asleep (call : Call) (position : ℕ)

namespace Owner

/-- The call whose work is started, and the first position that may still be asked for. -/
def next : Owner → Option (Call × ℕ)
  | idle => none
  | cancelled _ => none
  | processing call next => some (call, next)
  | looking call position => some (call, position)
  | asleep call position => some (call, position)

/-- `result_ready.notify_all`. -/
def wake : Owner → Owner
  | asleep call position => looking call position
  | owner => owner

@[simp]
theorem next_wake (owner : Owner) : owner.wake.next = owner.next := by
  cases owner <;> rfl

theorem wake_eq_cancelled_iff {owner : Owner} {call : Call} :
    owner.wake = .cancelled call ↔ owner = .cancelled call := by
  cases owner <;> simp [wake]

end Owner

/-- A block that `get_ready_work` has given back. -/
structure Fetched where
  call : Call
  height : Height
  block : PreparedWalletBlock

structure Config where
  quit : Bool
  workStartHeight : Height
  workBlocks : List SyncBlock
  workSecretKey : SecretKey
  /-- of type `int` there; the model leaves out that it overflows -/
  workCounter : ℕ
  preparedBlocks : Store Height PreparedWalletBlock
  threads : List (Worker Job)
  owner : Owner
  fetched : List Fetched

/-- The constructor, with as many threads as it starts. -/
def Config.start (hardwareConcurrency : ℕ) : Config where
  quit := false
  workStartHeight := 0
  workBlocks := []
  workSecretKey := 0
  workCounter := 0
  preparedBlocks := ∅
  threads := List.replicate (max 2 (3 * hardwareConcurrency / 4)) .ready
  owner := .idle
  fetched := []

/-- The regions of `thread_run`. -/
inductive ThreadRun : Config → Config → Prop where
  | exit {x : Config} {before after : List (Worker Job)} :
      x.quit = true → x.threads = before ++ .ready :: after →
      ThreadRun x { x with threads := before ++ .exited :: after }
  | sleep {x : Config} {before after : List (Worker Job)} :
      x.quit = false → x.workBlocks = [] → x.threads = before ++ .ready :: after →
      ThreadRun x { x with threads := before ++ .asleep :: after }
  | take {x : Config} {block : SyncBlock} {blocks : List SyncBlock}
      {before after : List (Worker Job)} :
      x.quit = false → x.workBlocks = block :: blocks → x.threads = before ++ .ready :: after →
      ThreadRun x { x with
        workStartHeight := x.workStartHeight + 1, workBlocks := blocks
        threads := before ++
          .busy x.workCounter ⟨x.workStartHeight, block, x.workSecretKey⟩ :: after }
  | deliver {x : Config} {job : Job} {before after : List (Worker Job)} :
      x.threads = before ++ .busy x.workCounter job :: after →
      ThreadRun x { x with
        threads := before ++ .ready :: after
        preparedBlocks := x.preparedBlocks.put job.height (job.result wc)
        owner := x.owner.wake }
  | discard {x : Config} {localWorkCounter : ℕ} {job : Job} {before after : List (Worker Job)} :
      localWorkCounter ≠ x.workCounter → x.threads = before ++ .busy localWorkCounter job :: after →
      ThreadRun x { x with threads := before ++ .ready :: after }

/-- The regions of the public functions, in the order in which `sync_with_blockchain` calls them,
and of the destructor.  A block that is too old is passed without asking for it. -/
inductive OwnerRun : Config → Config → Prop where
  | cancelWork {x : Config} (call : Call) : x.owner = .idle → x.quit = false →
      OwnerRun x { x with
        workStartHeight := 0, workBlocks := [], preparedBlocks := ∅
        workCounter := x.workCounter + 1, owner := .cancelled call }
  | startWork {x : Config} {call : Call} : x.owner = .cancelled call →
      OwnerRun x { x with
        workStartHeight := call.resp.startHeight, workBlocks := call.resp.blocks
        workSecretKey := call.viewSecretKey, workCounter := x.workCounter + 1
        threads := x.threads.map .wake, owner := .processing call 0 }
  | getReadyWork {x : Config} {call : Call} {next position : ℕ} :
      x.owner = .processing call next → next ≤ position → position < call.resp.blocks.length →
      OwnerRun x { x with owner := .looking call position }
  | sleep {x : Config} {call : Call} {position : ℕ} : x.owner = .looking call position →
      x.preparedBlocks.get (call.height position) = none →
      OwnerRun x { x with owner := .asleep call position }
  | fetch {x : Config} {call : Call} {position : ℕ} {block : PreparedWalletBlock} :
      x.owner = .looking call position →
      x.preparedBlocks.get (call.height position) = some block →
      OwnerRun x { x with
        preparedBlocks := x.preparedBlocks.remove (call.height position)
        owner := .processing call (position + 1)
        fetched := x.fetched ++ [⟨call, call.height position, block⟩] }
  | finish {x : Config} {call : Call} {next : ℕ} : x.owner = .processing call next →
      OwnerRun x { x with owner := .idle }
  | destroy {x : Config} : x.owner = .idle →
      OwnerRun x { x with quit := true, threads := x.threads.map .wake }

/-- A thread or the owner wakes up without a notification. -/
inductive Spurious : Config → Config → Prop where
  | thread {x : Config} {before after : List (Worker Job)} :
      x.threads = before ++ .asleep :: after →
      Spurious x { x with threads := before ++ .ready :: after }
  | owner {x : Config} {call : Call} {position : ℕ} : x.owner = .asleep call position →
      Spurious x { x with owner := .looking call position }

def Step (x y : Config) : Prop := ThreadRun wc x y ∨ OwnerRun x y ∨ Spurious x y

def Reachable (x : Config) : Prop :=
  ∃ hardwareConcurrency, ReflTransGen (Step wc) (.start hardwareConcurrency) x

/-! ## Jobs and heights -/

theorem mem_jobsFrom_iff {viewSecretKey : SecretKey} {height : Height} {blocks : List SyncBlock}
    {job : Job} : job ∈ jobsFrom viewSecretKey height blocks ↔
      ∃ i block, blocks[i]? = some block ∧
        job = ⟨height + UInt32.ofNat i, block, viewSecretKey⟩ := by
  induction blocks generalizing height with
  | nil => simp [jobsFrom]
  | cons block blocks ih =>
    have hshift (i : ℕ) : height + UInt32.ofNat (i + 1) = height + 1 + UInt32.ofNat i := by
      rw [UInt32.ofNat_add, add_comm (UInt32.ofNat i), ← add_assoc]
      rfl
    rw [jobsFrom, List.mem_cons, ih]
    constructor
    · rintro (rfl | ⟨i, block', hblock, rfl⟩)
      · exact ⟨0, block, rfl, by simp⟩
      · exact ⟨i + 1, block', by simpa using hblock, by rw [hshift]⟩
    · rintro ⟨i, block', hblock, rfl⟩
      cases i with
      | zero =>
        obtain rfl : block = block' := by simpa using hblock
        exact .inl (by simp)
      | succ i => exact .inr ⟨i, block', by simpa using hblock, by rw [hshift]⟩

theorem Call.mem_jobs_iff {call : Call} {job : Job} : job ∈ call.jobs ↔
    ∃ i block, call.resp.blocks[i]? = some block ∧
      job = ⟨call.height i, block, call.viewSecretKey⟩ :=
  mem_jobsFrom_iff

theorem Call.sub_height (call : Call) {position : ℕ} (h : position < 2 ^ 32) :
    (call.height position - call.resp.startHeight).toNat = position := by
  have hsub : call.height position - call.resp.startHeight = UInt32.ofNat position := by
    rw [Call.height, UInt32.add_comm, UInt32.add_sub_cancel]
  rw [hsub]
  exact UInt32.toNat_ofNat_of_lt' h

/-- Positions of an answer have different heights. -/
theorem Call.height_inj {call : Call} (hsize : call.resp.blocks.length ≤ 2 ^ 32) {i j : ℕ}
    (hi : i < call.resp.blocks.length) (hj : j < call.resp.blocks.length)
    (h : call.height i = call.height j) : i = j := by
  have hi' := call.sub_height (hi.trans_le hsize)
  have hj' := call.sub_height (hj.trans_le hsize)
  rw [h] at hi'
  exact hi'.symm.trans hj'

/-! ## The pool behind the preparator -/

variable {wc} {x y : Config} {p : WorkerPool Job}

/-- The pool with the blocks posted and the preparations delivered for the call under way. -/
structure Tracks (wc : WalletCrypto) (x : Config) (p : WorkerPool Job) : Prop where
  quit : p.quit = x.quit
  generation : p.generation = x.workCounter
  queue : p.queue = jobsFrom x.workSecretKey x.workStartHeight x.workBlocks
  workers : p.workers = x.threads
  prepared : ∀ height block, x.preparedBlocks.get height = some block →
    ∃ job ∈ p.delivered, job.height = height ∧ block = job.result wc
  cancelled : ∀ call, x.owner = .cancelled call → x.quit = false ∧ p.posted = []
  call : ∀ call next, x.owner.next = some (call, next) → x.quit = false ∧ p.posted = call.jobs ∧
    (call.resp.blocks.length ≤ 2 ^ 32 → ∀ i block, next ≤ i → call.resp.blocks[i]? = some block →
      ⟨call.height i, block, call.viewSecretKey⟩ ∈ p.delivered →
      x.preparedBlocks.get (call.height i) ≠ none)

theorem jobsFrom_eq_nil_iff {viewSecretKey : SecretKey} {height : Height}
    {blocks : List SyncBlock} : jobsFrom viewSecretKey height blocks = [] ↔ blocks = [] := by
  cases blocks <;> simp [jobsFrom]

/-- A thread of the preparator does what a thread of the pool does. -/
theorem Tracks.threadRun (ht : Tracks wc x p) (h : ThreadRun wc x y) :
    ∃ q, p.Works q ∧ Tracks wc y q := by
  cases h with
  | exit hquit hthreads =>
    refine ⟨_, .exit (ht.quit.trans hquit) (ht.workers.trans hthreads), ?_⟩
    exact ⟨ht.quit, ht.generation, ht.queue, rfl, ht.prepared, ht.cancelled, ht.call⟩
  | sleep hquit hblocks hthreads =>
    refine ⟨_, .sleep (ht.quit.trans hquit) (ht.queue.trans (jobsFrom_eq_nil_iff.2 hblocks))
      (ht.workers.trans hthreads), ?_⟩
    exact ⟨ht.quit, ht.generation, ht.queue, rfl, ht.prepared, ht.cancelled, ht.call⟩
  | take hquit hblocks hthreads =>
    have hqueue := ht.queue
    rw [hblocks, jobsFrom] at hqueue
    refine ⟨_, .take (ht.quit.trans hquit) hqueue (ht.workers.trans hthreads), ?_⟩
    exact ⟨ht.quit, ht.generation, rfl, by rw [ht.generation], ht.prepared, ht.cancelled, ht.call⟩
  | @deliver job before after hthreads =>
    refine ⟨_, .deliver (ht.workers.trans (ht.generation ▸ hthreads)), ?_⟩
    refine ⟨ht.quit, ht.generation, ht.queue, rfl, ?_, ?_, ?_⟩
    · intro height block hget
      by_cases hheight : job.height = height
      · subst hheight
        rw [Store.get_put_self] at hget
        exact ⟨job, by simp, rfl, (Option.some.inj hget).symm⟩
      · rw [Store.get_put_of_ne _ _ hheight] at hget
        obtain ⟨job', hmem, hjob'⟩ := ht.prepared height block hget
        exact ⟨job', List.mem_append_left _ hmem, hjob'⟩
    · exact fun call hcall ↦ ht.cancelled call (Owner.wake_eq_cancelled_iff.1 hcall)
    · intro call next hcall
      obtain ⟨hquit, hposted, hpending⟩ := ht.call call next (by simpa using hcall)
      refine ⟨hquit, hposted, fun hsize i block hi hblock hmem ↦ ?_⟩
      by_cases hheight : job.height = call.height i
      · simp [hheight]
      · rw [Store.get_put_of_ne _ _ hheight]
        refine hpending hsize i block hi hblock ?_
        obtain hmem | hmem := List.mem_append.1 hmem
        · exact hmem
        · obtain rfl := List.mem_singleton.1 hmem
          exact absurd rfl hheight
  | discard hne hthreads =>
    refine ⟨_, .discard (ht.generation ▸ hne) (ht.workers.trans hthreads), ?_⟩
    exact ⟨ht.quit, ht.generation, ht.queue, rfl, ht.prepared, ht.cancelled, ht.call⟩

/-- Where the pool can go on, so can the preparator. -/
theorem Tracks.exists_threadRun (ht : Tracks wc x p) {q : WorkerPool Job} (h : p.Works q) :
    ∃ y, ThreadRun wc x y := by
  cases h with
  | take hquit hqueue hworkers =>
    cases hblocks : x.workBlocks with
    | nil =>
      rw [ht.queue, hblocks] at hqueue
      cases hqueue
    | cons block blocks => exact ⟨_, .take (ht.quit ▸ hquit) hblocks (ht.workers ▸ hworkers)⟩
  | sleep hquit hqueue hworkers =>
    exact ⟨_, .sleep (ht.quit ▸ hquit) (jobsFrom_eq_nil_iff.1 (ht.queue ▸ hqueue))
      (ht.workers ▸ hworkers)⟩
  | deliver hworkers => exact ⟨_, .deliver (ht.generation ▸ ht.workers ▸ hworkers)⟩
  | discard hne hworkers => exact ⟨_, .discard (ht.generation ▸ hne) (ht.workers ▸ hworkers)⟩
  | exit hquit hworkers => exact ⟨_, .exit (ht.quit ▸ hquit) (ht.workers ▸ hworkers)⟩

/-- The block of an answer that was prepared, at its height. -/
def Fetched.Exact (wc : WalletCrypto) (e : Fetched) : Prop :=
  ∃ i block, e.call.resp.blocks[i]? = some block ∧ e.height = e.call.height i ∧
    e.block = block.prepare wc e.call.viewSecretKey

/-- The state of the preparator as a whole: its pool loses no block, what it has given back is
right, and its owner sleeps only while the block it wants is missing. -/
structure Sound (wc : WalletCrypto) (x : Config) : Prop where
  pool : ∃ p, Tracks wc x p ∧ p.Accounted
  asleep : ∀ call position, x.owner = .asleep call position →
    x.preparedBlocks.get (call.height position) = none
  bounded : ∀ call position, x.owner = .looking call position ∨ x.owner = .asleep call position →
    position < call.resp.blocks.length
  threads : x.threads ≠ []
  fetched : ∀ e ∈ x.fetched, e.Exact wc

theorem Sound.start (hardwareConcurrency : ℕ) : Sound wc (.start hardwareConcurrency) where
  pool := by
    refine ⟨⟨false, 0, [], List.replicate (max 2 (3 * hardwareConcurrency / 4)) .ready, [], []⟩,
      ⟨rfl, rfl, rfl, rfl, fun height block h ↦ ?_, fun call h ↦ ?_, fun call next h ↦ ?_⟩, ?_⟩
    · simp [Config.start] at h
    · cases h
    · cases h
    · refine ⟨?_, fun g job hmem ↦ ?_, fun hmem ↦ ?_, fun hmem ↦ ?_⟩
      · simp [WorkerPool.inFlight, Worker.current]
      · simp at hmem
      · simp at hmem
      · simp at hmem
  asleep call position h := by cases h
  bounded call position h := by obtain h | h := h <;> cases h
  threads := by
    simp [Config.start]
  fetched e he := by simp [Config.start] at he

theorem Sound.threadRun (hx : Sound wc x) (h : ThreadRun wc x y) : Sound wc y where
  pool := by
    obtain ⟨p, ht, hp⟩ := hx.pool
    obtain ⟨q, hq, ht'⟩ := ht.threadRun h
    exact ⟨q, ht', hp.works hq⟩
  asleep := by
    intro call position hcall
    cases h with
    | deliver hthreads =>
      cases howner : x.owner <;> simp [howner, Owner.wake] at hcall
    | exit | sleep | take | discard => exact hx.asleep call position hcall
  bounded := by
    intro call position hcall
    cases h with
    | deliver hthreads =>
      refine hx.bounded call position ?_
      cases howner : x.owner <;> simp_all [Owner.wake]
    | exit | sleep | take | discard => exact hx.bounded call position hcall
  threads := by
    cases h <;> simp
  fetched := by
    cases h <;> exact hx.fetched

/-- What is found under a height is the preparation of the block there. -/
theorem Tracks.exact (ht : Tracks wc x p) (hp : p.Accounted) {call : Call} {next : ℕ}
    (hcall : x.owner.next = some (call, next)) {height : Height} {block : PreparedWalletBlock}
    (hget : x.preparedBlocks.get height = some block) : Fetched.Exact wc ⟨call, height, block⟩ := by
  obtain ⟨job, hmem, hheight, hblock⟩ := ht.prepared height block hget
  have hposted := hp.delivered_subset hmem
  rw [(ht.call call next hcall).2.1, Call.mem_jobs_iff] at hposted
  obtain ⟨i, b, hb, rfl⟩ := hposted
  exact ⟨i, b, hb, hheight.symm, hblock⟩

theorem Sound.ownerRun (hx : Sound wc x) (h : OwnerRun x y) : Sound wc y := by
  obtain ⟨p, ht, hp⟩ := hx.pool
  cases h with
  | cancelWork call howner hquit =>
    refine ⟨⟨p.restart, ?_, hp.restart⟩, ?_, ?_, hx.threads, hx.fetched⟩
    · refine ⟨ht.quit, congrArg (· + 1) ht.generation, rfl, ht.workers, ?_, ?_, ?_⟩
      · intro height block hget
        simp at hget
      · exact fun _ _ ↦ ⟨hquit, rfl⟩
      · intro call' next hcall
        cases hcall
    · intro call' position hcall
      cases hcall
    · intro call' position hcall
      obtain hcall | hcall := hcall <;> cases hcall
  | @startWork call howner =>
    obtain ⟨hquit, hposted⟩ := ht.cancelled call howner
    have hdelivered : p.delivered = [] :=
      List.eq_nil_of_subset_nil (hposted ▸ hp.delivered_subset)
    have hnone (height : Height) (block : PreparedWalletBlock)
        (hget : x.preparedBlocks.get height = some block) : False := by
      obtain ⟨job, hmem, -⟩ := ht.prepared height block hget
      rw [hdelivered] at hmem
      cases hmem
    refine ⟨⟨p.restart.post call.jobs, ?_, hp.restart.post _⟩, ?_, ?_, ?_, hx.fetched⟩
    · refine ⟨ht.quit, congrArg (· + 1) ht.generation, rfl,
        congrArg (List.map Worker.wake) ht.workers, ?_, ?_, ?_⟩
      · exact fun height block hget ↦ (hnone height block hget).elim
      · intro call' hcall
        cases hcall
      · intro call' next hcall
        cases hcall
        refine ⟨hquit, rfl, fun _ i block _ _ hmem ↦ ?_⟩
        cases hmem
    · intro call' position hcall
      cases hcall
    · intro call' position hcall
      obtain hcall | hcall := hcall <;> cases hcall
    · simpa using hx.threads
  | @getReadyWork call next position howner hnext hposition =>
    refine ⟨⟨p, ⟨ht.quit, ht.generation, ht.queue, ht.workers, ht.prepared, ?_, ?_⟩, hp⟩, ?_, ?_,
      hx.threads, hx.fetched⟩
    · intro call' hcall
      cases hcall
    · intro call' next' hcall
      cases hcall
      obtain ⟨hquit, hposted, hpending⟩ := ht.call call next (by rw [howner]; rfl)
      exact ⟨hquit, hposted, fun hsize i block hi ↦ hpending hsize i block (hnext.trans hi)⟩
    · intro call' position' hcall
      cases hcall
    · intro call' position' hcall
      obtain hcall | hcall := hcall <;> cases hcall
      exact hposition
  | @sleep call position howner hget =>
    refine ⟨⟨p, ⟨ht.quit, ht.generation, ht.queue, ht.workers, ht.prepared, ?_, ?_⟩, hp⟩, ?_, ?_,
      hx.threads, hx.fetched⟩
    · intro call' hcall
      cases hcall
    · exact fun call' next hcall ↦ ht.call call' next (by rw [howner]; exact hcall)
    · intro call' position' hcall
      cases hcall
      exact hget
    · intro call' position' hcall
      obtain hcall | hcall := hcall <;> cases hcall
      exact hx.bounded call position (.inl howner)
  | @fetch call position block howner hget =>
    have hcall := show x.owner.next = some (call, position) by rw [howner]; rfl
    refine ⟨⟨p, ⟨ht.quit, ht.generation, ht.queue, ht.workers, ?_, ?_, ?_⟩, hp⟩, ?_, ?_,
      hx.threads, ?_⟩
    · intro height block' hget'
      refine ht.prepared height block' ?_
      by_cases hheight : call.height position = height
      · subst hheight
        rw [Store.get_remove_self] at hget'
        cases hget'
      · rwa [Store.get_remove_of_ne _ hheight] at hget'
    · intro call' hcall'
      cases hcall'
    · intro call' next hcall'
      cases hcall'
      obtain ⟨hquit, hposted, hpending⟩ := ht.call call position hcall
      refine ⟨hquit, hposted, fun hsize i b hi hb hmem ↦ ?_⟩
      have hlt : i < call.resp.blocks.length := (List.getElem?_eq_some_iff.1 hb).1
      have hne : call.height position ≠ call.height i := by
        intro heq
        have := Call.height_inj hsize (by omega) hlt heq
        omega
      rw [Store.get_remove_of_ne _ hne]
      exact hpending hsize i b (by omega) hb hmem
    · intro call' position' hcall'
      cases hcall'
    · intro call' position' hcall'
      obtain hcall' | hcall' := hcall' <;> cases hcall'
    · intro e he
      obtain he | he := List.mem_append.1 he
      · exact hx.fetched e he
      · obtain rfl := List.mem_singleton.1 he
        exact ht.exact hp hcall hget
  | finish howner =>
    refine ⟨⟨p, ⟨ht.quit, ht.generation, ht.queue, ht.workers, ht.prepared, ?_, ?_⟩, hp⟩, ?_, ?_,
      hx.threads, hx.fetched⟩
    · intro call' hcall
      cases hcall
    · intro call' next' hcall
      cases hcall
    · intro call' position' hcall
      cases hcall
    · intro call' position' hcall
      obtain hcall | hcall := hcall <;> cases hcall
  | destroy howner =>
    have hidle (owner : Owner) (howner' : x.owner = owner) : owner = .idle :=
      howner'.symm.trans howner
    refine ⟨⟨p.stop, ⟨rfl, ht.generation, ht.queue, congrArg (List.map Worker.wake) ht.workers,
      ht.prepared, ?_, ?_⟩, hp.stop⟩, ?_, ?_, ?_, hx.fetched⟩
    · intro call' hcall
      cases hidle _ hcall
    · intro call' next' hcall
      change x.owner.next = _ at hcall
      rw [howner] at hcall
      cases hcall
    · intro call' position' hcall
      cases hidle _ hcall
    · intro call' position' hcall
      obtain hcall | hcall := hcall <;> cases hidle _ hcall
    · simpa using hx.threads

theorem Sound.spurious (hx : Sound wc x) (h : Spurious x y) : Sound wc y := by
  obtain ⟨p, ht, hp⟩ := hx.pool
  cases h with
  | thread hthreads =>
    refine ⟨⟨_, ?_, hp.wakes (ht.workers.trans hthreads)⟩, hx.asleep, hx.bounded, by simp,
      hx.fetched⟩
    exact ⟨ht.quit, ht.generation, ht.queue, rfl, ht.prepared, ht.cancelled, ht.call⟩
  | @owner call position howner =>
    refine ⟨⟨p, ⟨ht.quit, ht.generation, ht.queue, ht.workers, ht.prepared, ?_, ?_⟩, hp⟩, ?_, ?_,
      hx.threads, hx.fetched⟩
    · intro call' hcall
      cases hcall
    · exact fun call' next hcall ↦ ht.call call' next (by rw [howner]; exact hcall)
    · intro call' position' hcall
      cases hcall
    · intro call' position' hcall
      obtain hcall | hcall := hcall <;> cases hcall
      exact hx.bounded call position (.inr howner)

theorem Sound.preserved : Preserves (Step wc) (Sound wc) := by
  intro x y h hx
  obtain h | h | h := h
  · exact hx.threadRun h
  · exact hx.ownerRun h
  · exact hx.spurious h

theorem Reachable.sound (h : Reachable wc x) : Sound wc x := by
  obtain ⟨hardwareConcurrency, hrun⟩ := h
  exact Sound.preserved.star hrun (.start hardwareConcurrency)

/-- In whatever order the threads run, `get_ready_work` gives back the preparation, with the key of
the call under way, of the block that the answer of that call has at the height. -/
theorem Reachable.fetched_exact {x : Config} (h : Reachable wc x) :
    ∀ e ∈ x.fetched, e.call.resp.blocks.length ≤ 2 ^ 32 →
      ∃ block, e.call.resp.blockAt e.height = .ok block ∧
        e.block = block.prepare wc e.call.viewSecretKey := by
  intro e he hsize
  obtain ⟨i, block, hblock, hheight, hprepared⟩ := h.sound.fetched e he
  have hlt : i < e.call.resp.blocks.length := (List.getElem?_eq_some_iff.1 hblock).1
  refine ⟨block, ?_, hprepared⟩
  rw [SyncBlocksResponse.blockAt_eq_ok_iff, hheight, e.call.sub_height (hlt.trans_le hsize)]
  exact hblock

/-- An answer with one block at height 4, after an earlier answer with another block there. -/
def sampleCall : Call where
  resp := { blocks := [⟨{}, {}, [samplePayment 7 0 [] [(5, 5)]], 1, []⟩], startHeight := 4 }
  viewSecretKey := 1

def sampleEarlierCall : Call where
  resp := { blocks := [⟨{}, {}, [], 2, []⟩], startHeight := 4 }
  viewSecretKey := 1

def sampleJob (call : Call) : Job where
  height := 4
  block := call.resp.blocks.headD ⟨{}, {}, [], 0, []⟩
  viewSecretKey := call.viewSecretKey

/-- The owner sleeps; the first thread still has the block of the earlier answer in hand. -/
def sampleAsleep : Config where
  quit := false
  workStartHeight := 5
  workBlocks := []
  workSecretKey := 1
  workCounter := 4
  preparedBlocks := ∅
  threads := [.busy 2 (sampleJob sampleEarlierCall), .busy 4 (sampleJob sampleCall)]
  owner := .asleep sampleCall 0
  fetched := []

theorem reachable_sampleAsleep : Reachable sampleWalletCrypto sampleAsleep := by
  refine ⟨1, ?_⟩
  apply ReflTransGen.head (.inr (.inl (.cancelWork sampleEarlierCall rfl rfl)))
  apply ReflTransGen.head (.inr (.inl (@OwnerRun.startWork _ sampleEarlierCall rfl)))
  apply ReflTransGen.head (.inl (@ThreadRun.take _ _ (sampleJob sampleEarlierCall).block [] []
    [.ready] rfl rfl rfl))
  apply ReflTransGen.head (.inr (.inl (@OwnerRun.finish _ sampleEarlierCall 0 rfl)))
  apply ReflTransGen.head (.inr (.inl (.cancelWork sampleCall rfl rfl)))
  apply ReflTransGen.head (.inr (.inl (@OwnerRun.startWork _ sampleCall rfl)))
  apply ReflTransGen.head (.inl (@ThreadRun.take _ _ (sampleJob sampleCall).block []
    [.busy 2 (sampleJob sampleEarlierCall)] [] rfl rfl rfl))
  apply ReflTransGen.head (.inr (.inl (@OwnerRun.getReadyWork _ sampleCall 0 0 rfl le_rfl
    (by decide))))
  exact .single (.inr (.inl (@OwnerRun.sleep _ sampleCall 0 rfl (by simp))))

/-- Both threads have come back, and the owner has its block. -/
def sampleFetched : Config :=
  { sampleAsleep with
    preparedBlocks := ((∅ : Store Height PreparedWalletBlock).put 4
      ((sampleJob sampleCall).result sampleWalletCrypto)).remove 4
    threads := [.ready, .ready]
    owner := .processing sampleCall 1
    fetched := [⟨sampleCall, 4, (sampleJob sampleCall).result sampleWalletCrypto⟩] }

theorem reachable_sampleFetched : Reachable sampleWalletCrypto sampleFetched := by
  obtain ⟨hardwareConcurrency, hrun⟩ := reachable_sampleAsleep
  refine ⟨hardwareConcurrency, hrun.trans ?_⟩
  apply ReflTransGen.head (.inl (@ThreadRun.discard _ _ 2 (sampleJob sampleEarlierCall) []
    [.busy 4 (sampleJob sampleCall)] (by decide) rfl))
  apply ReflTransGen.head (.inl (@ThreadRun.deliver _ _ (sampleJob sampleCall) [.ready] [] rfl))
  exact .single (.inr (.inl (@OwnerRun.fetch _ sampleCall 0 _ rfl
    (Store.get_put_self _ (4 : Height) _))))

theorem fetched_exact_sampleCall : ∃ block, sampleCall.resp.blockAt 4 = .ok block ∧
    (sampleJob sampleCall).result sampleWalletCrypto =
      block.prepare sampleWalletCrypto sampleCall.viewSecretKey :=
  Reachable.fetched_exact reachable_sampleFetched
    ⟨sampleCall, 4, (sampleJob sampleCall).result sampleWalletCrypto⟩
    (List.mem_singleton.2 rfl) (by decide)

/-! ## Termination -/

/-- However the threads run on by themselves, they come to rest. -/
theorem Sound.acc (hx : Sound wc x) : Acc (fun b a ↦ ThreadRun wc a b) x := by
  obtain ⟨p, ht, -⟩ := hx.pool
  induction hload : p.load using Nat.strong_induction_on generalizing x p with
  | _ n ih =>
    refine Acc.intro x fun y hy ↦ ?_
    obtain ⟨q, hq, ht'⟩ := ht.threadRun hy
    exact ih q.load (hload ▸ hq.load_lt) (hx.threadRun hy) q ht' rfl

/-- At rest, the block that the owner wants is there. -/
theorem Sound.settled (hx : Sound wc x) (hrest : ∀ y, ¬ThreadRun wc x y) {call : Call}
    {position : ℕ} (hcall : x.owner = .looking call position ∨ x.owner = .asleep call position)
    (hsize : call.resp.blocks.length ≤ 2 ^ 32) :
    x.preparedBlocks.get (call.height position) ≠ none := by
  obtain ⟨p, ht, hp⟩ := hx.pool
  have hlt := hx.bounded call position hcall
  have hnext : x.owner.next = some (call, position) := by
    obtain hcall | hcall := hcall <;> rw [hcall] <;> rfl
  obtain ⟨hquit, hposted, hpending⟩ := ht.call call position hnext
  have hblock := List.getElem?_eq_getElem hlt
  refine hpending hsize position _ le_rfl hblock ?_
  by_contra hmem
  have hleft := hp.left_of_mem (hposted ▸ Call.mem_jobs_iff.2 ⟨position, _, hblock, rfl⟩) hmem
  obtain ⟨q, hq⟩ := hp.exists_works (ht.quit.trans hquit) (ht.workers ▸ hx.threads) hleft
  obtain ⟨y, hy⟩ := ht.exists_threadRun hq
  exact hrest y hy

/-- `get_ready_work` always returns: whatever the threads do while its caller waits, they come to
rest, and then it is awake and its block is there. -/
theorem Reachable.getReadyWork_returns {x : Config} {call : Call} {position : ℕ}
    (h : Reachable wc x)
    (hcall : x.owner = .looking call position ∨ x.owner = .asleep call position)
    (hsize : call.resp.blocks.length ≤ 2 ^ 32) :
    Acc (fun b a ↦ ThreadRun wc a b) x ∧
      ∀ y, ReflTransGen (ThreadRun wc) x y → (∀ z, ¬ThreadRun wc y z) →
        y.owner = .looking call position ∧
          y.preparedBlocks.get (call.height position) ≠ none := by
  refine ⟨h.sound.acc, fun y hxy hrest ↦ ?_⟩
  have hy : Reachable wc y := by
    obtain ⟨hardwareConcurrency, hrun⟩ := h
    exact ⟨hardwareConcurrency, hrun.trans (hxy.lift id fun _ _ ↦ .inl)⟩
  have hposition : y.owner = .looking call position ∨ y.owner = .asleep call position := by
    clear hrest hy
    induction hxy with
    | refl => exact hcall
    | tail _ hstep ih =>
      cases hstep with
      | deliver => obtain ih | ih := ih <;> exact .inl (by simp [ih, Owner.wake])
      | exit | sleep | take | discard => exact ih
  have hthere := hy.sound.settled hrest hposition hsize
  exact ⟨hposition.resolve_right fun hasleep ↦ hthere (hy.sound.asleep call position hasleep),
    hthere⟩

theorem getReadyWork_returns_sampleCall :
    Acc (fun b a ↦ ThreadRun sampleWalletCrypto a b) sampleAsleep ∧
      ∀ y, ReflTransGen (ThreadRun sampleWalletCrypto) sampleAsleep y →
        (∀ z, ¬ThreadRun sampleWalletCrypto y z) →
          y.owner = .looking sampleCall 0 ∧
            y.preparedBlocks.get (sampleCall.height 0) ≠ none :=
  Reachable.getReadyWork_returns reachable_sampleAsleep (.inr rfl) (by decide)

end WalletPreparatorMulticore

end Naza
