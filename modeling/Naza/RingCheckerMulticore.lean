import Naza.Concrete
import Naza.Lib.Transition
import Naza.Lib.WorkerPool

/-!
# The threads of the ring checker

`RingCheckerMulticore` with its worker threads: every region under the lock is a step, and the
steps of the threads come in any order.  What `start_work_get_error` and `signatures_valid` answer
is what the sequential check of the same block gives, and `signatures_valid` always returns.
-/

open Lib Relation

namespace Naza

variable (cr : Crypto) (c : Currency)

/-! ## The inputs of a block -/

/-- What each key input of a transaction gives, in the order of `start_work_get_error`. -/
def inputsWork (reads : StateReads) (unlockHeight : Height) (unlockTimestamp : Timestamp)
    (txPrefixHash : Hash) : List TransactionInput → List (List Signature) →
    List (Except String RingSignatureArg)
  | [], _ => []
  | .coinbaseInput _ :: inputs, signatures =>
    inputsWork reads unlockHeight unlockTimestamp txPrefixHash inputs signatures.tail
  | .keyInput input :: inputs, signatures =>
    startInput c reads unlockHeight unlockTimestamp txPrefixHash input (signatures.headD []) ::
      inputsWork reads unlockHeight unlockTimestamp txPrefixHash inputs signatures.tail

/-- What each key input of a block gives. -/
def transactionsWork (reads : StateReads) (unlockHeight : Height) (unlockTimestamp : Timestamp) :
    List Transaction → List (Except String RingSignatureArg)
  | [] => []
  | tx :: txs =>
    inputsWork c reads unlockHeight unlockTimestamp
      (getTransactionPrefixHash cr tx.toTransactionPrefix) tx.inputs tx.signatures ++
      transactionsWork reads unlockHeight unlockTimestamp txs

/-- The results up to the first error. -/
def collect {ε α : Type} : List (Except ε α) → Except ε (List α)
  | [] => .ok []
  | .error e :: _ => .error e
  | .ok a :: rest => do
    let as ← collect rest
    return a :: as

theorem collect_append {ε α : Type} (xs ys : List (Except ε α)) :
    collect (xs ++ ys) = do
      let as ← collect xs
      let bs ← collect ys
      return as ++ bs := by
  induction xs with
  | nil => cases h : collect ys <;> simp [collect, h, bind, Except.bind, pure, Except.pure]
  | cons x xs ih =>
    cases x with
    | error e => rfl
    | ok a =>
      rw [List.cons_append, collect, ih, collect]
      cases collect xs with
      | error e => rfl
      | ok as => cases collect ys <;> rfl

theorem collect_ok_append {ε α : Type} (as : List α) (rest : List (Except ε α)) :
    collect (as.map .ok ++ rest) = (collect rest).map (as ++ ·) := by
  induction as with
  | nil => cases h : collect rest <;> simp [h, Except.map]
  | cons a as ih =>
    rw [List.map_cons, List.cons_append, collect, ih]
    cases collect rest <;> rfl

theorem startInputs_eq_collect (reads : StateReads) (unlockHeight : Height)
    (unlockTimestamp : Timestamp) (txPrefixHash : Hash) (inputs : List TransactionInput)
    (signatures : List (List Signature)) :
    startInputs c reads unlockHeight unlockTimestamp txPrefixHash inputs signatures =
      collect (inputsWork c reads unlockHeight unlockTimestamp txPrefixHash inputs signatures) := by
  induction inputs generalizing signatures with
  | nil => rfl
  | cons input inputs ih =>
    cases input with
    | coinbaseInput input => exact ih signatures.tail
    | keyInput input =>
      rw [startInputs, inputsWork, ih]
      cases startInput c reads unlockHeight unlockTimestamp txPrefixHash input
        (signatures.headD []) <;> rfl

theorem startWorkGetError_eq_collect (reads : StateReads) (unlockHeight : Height)
    (unlockTimestamp : Timestamp) (txs : List Transaction) :
    startWorkGetError cr c reads unlockHeight unlockTimestamp txs =
      collect (transactionsWork cr c reads unlockHeight unlockTimestamp txs) := by
  induction txs with
  | nil => rfl
  | cons tx txs ih =>
    rw [startWorkGetError, transactionsWork, collect_append, startInputs_eq_collect, ih]

/-! ## The threads -/

namespace RingCheckerMulticore

/-- What `redo_block` calls the checker with. -/
structure Call where
  reads : StateReads
  unlockHeight : Height
  unlockTimestamp : Timestamp
  transactions : List Transaction

def Call.work (call : Call) : List (Except String RingSignatureArg) :=
  transactionsWork cr c call.reads call.unlockHeight call.unlockTimestamp call.transactions

/-- The answer of the two calls in a row where one thread does everything. -/
def Call.answer (call : Call) : Except String Bool :=
  (startWorkGetError cr c call.reads call.unlockHeight call.unlockTimestamp
    call.transactions).map (signaturesValid cr)

/-- The thread that owns the checker: outside, in `start_work_get_error` before an input, between
the two calls, or in `signatures_valid` before the lock or asleep. -/
inductive Owner where
  | idle
  | starting (call : Call) (rest : List (Except String RingSignatureArg))
  | started (call : Call)
  | looking (call : Call)
  | asleep (call : Call)

namespace Owner

/-- The call under way with its inputs to come. -/
def position : Owner → Option (Call × List (Except String RingSignatureArg))
  | idle => none
  | starting call rest => some (call, rest)
  | started call => some (call, [])
  | looking call => some (call, [])
  | asleep call => some (call, [])

/-- `result_ready.notify_all`. -/
def wake : Owner → Owner
  | asleep call => looking call
  | owner => owner

@[simp]
theorem position_wake (owner : Owner) : owner.wake.position = owner.position := by
  cases owner <;> rfl

end Owner

structure Config where
  quit : Bool
  totalCounter : ℕ
  readyCounter : ℕ
  errors : List String
  args : List RingSignatureArg
  /-- of type `int` there; the model leaves out that it overflows -/
  workCounter : ℕ
  threads : List (Worker RingSignatureArg)
  owner : Owner
  /-- the calls that have been answered -/
  answers : List (Call × Except String Bool)

/-- The number of threads that the constructor starts. -/
def threadCount (hardwareConcurrency : ℕ) : ℕ := max 2 (3 * hardwareConcurrency / 4)

def Config.start (hardwareConcurrency : ℕ) : Config where
  quit := false
  totalCounter := 0
  readyCounter := 0
  errors := []
  args := []
  workCounter := 0
  threads := List.replicate (threadCount hardwareConcurrency) .ready
  owner := .idle
  answers := []

/-- What a thread adds to the errors. -/
def report : RingCheck → List String
  | .valid => []
  | .corrupted => ["INPUT_CORRUPTED_SIGNATURES"]
  | .invalid => ["INPUT_INVALID_SIGNATURES"]

/-- The regions of `thread_run`. -/
inductive ThreadRun : Config → Config → Prop where
  | exit {x : Config} {before after : List (Worker RingSignatureArg)} :
      x.quit = true → x.threads = before ++ .ready :: after →
      ThreadRun x { x with threads := before ++ .exited :: after }
  | sleep {x : Config} {before after : List (Worker RingSignatureArg)} :
      x.quit = false → x.args = [] → x.threads = before ++ .ready :: after →
      ThreadRun x { x with threads := before ++ .asleep :: after }
  | take {x : Config} {arg : RingSignatureArg} {args : List RingSignatureArg}
      {before after : List (Worker RingSignatureArg)} :
      x.quit = false → x.args = arg :: args → x.threads = before ++ .ready :: after →
      ThreadRun x { x with
        args := args, threads := before ++ .busy x.workCounter arg :: after }
  | deliver {x : Config} {arg : RingSignatureArg} {before after : List (Worker RingSignatureArg)} :
      x.threads = before ++ .busy x.workCounter arg :: after →
      ThreadRun x { x with
        threads := before ++ .ready :: after
        readyCounter := x.readyCounter + 1
        errors := x.errors ++ report (arg.check cr)
        owner := x.owner.wake }
  | discard {x : Config} {localWorkCounter : ℕ} {arg : RingSignatureArg}
      {before after : List (Worker RingSignatureArg)} :
      localWorkCounter ≠ x.workCounter → x.threads = before ++ .busy localWorkCounter arg :: after →
      ThreadRun x { x with threads := before ++ .ready :: after }

/-- The regions of the public functions, called one after another, and of the destructor.  No other
thread reads `total_counter`, so it changes along with what is under the lock. -/
inductive OwnerRun : Config → Config → Prop where
  | call {x : Config} (call : Call) : x.owner = .idle → x.quit = false →
      OwnerRun x { x with
        args := [], errors := [], readyCounter := 0, workCounter := x.workCounter + 1
        totalCounter := 0, owner := .starting call (call.work cr c) }
  | push {x : Config} {call : Call} {arg : RingSignatureArg}
      {rest : List (Except String RingSignatureArg)} :
      x.owner = .starting call (.ok arg :: rest) →
      OwnerRun x { x with
        totalCounter := x.totalCounter + 1, args := x.args ++ [arg]
        threads := x.threads.map .wake, owner := .starting call rest }
  | fail {x : Config} {call : Call} {text : String} {rest : List (Except String RingSignatureArg)} :
      x.owner = .starting call (.error text :: rest) →
      OwnerRun x { x with owner := .idle, answers := x.answers ++ [(call, .error text)] }
  | startWorkGetError {x : Config} {call : Call} : x.owner = .starting call [] →
      OwnerRun x { x with owner := .started call }
  | abandon {x : Config} {call : Call} : x.owner = .started call →
      OwnerRun x { x with owner := .idle }
  | signaturesValid {x : Config} {call : Call} : x.owner = .started call →
      OwnerRun x { x with owner := .looking call }
  | sleep {x : Config} {call : Call} : x.owner = .looking call →
      x.readyCounter ≠ x.totalCounter → OwnerRun x { x with owner := .asleep call }
  | answer {x : Config} {call : Call} : x.owner = .looking call →
      x.readyCounter = x.totalCounter →
      OwnerRun x { x with
        owner := .idle, answers := x.answers ++ [(call, .ok x.errors.isEmpty)] }
  | cancelWork {x : Config} : x.owner = .idle →
      OwnerRun x { x with args := [], workCounter := x.workCounter + 1 }
  | destroy {x : Config} : x.owner = .idle →
      OwnerRun x { x with quit := true, threads := x.threads.map .wake }

/-- A thread or the owner wakes up without a notification. -/
inductive Spurious : Config → Config → Prop where
  | thread {x : Config} {before after : List (Worker RingSignatureArg)} :
      x.threads = before ++ .asleep :: after →
      Spurious x { x with threads := before ++ .ready :: after }
  | owner {x : Config} {call : Call} : x.owner = .asleep call →
      Spurious x { x with owner := .looking call }

def Step (x y : Config) : Prop := ThreadRun cr x y ∨ OwnerRun cr c x y ∨ Spurious x y

def Reachable (x : Config) : Prop :=
  ∃ hardwareConcurrency, ReflTransGen (Step cr c) (.start hardwareConcurrency) x

/-! ## The pool behind the checker -/

variable {cr c} {x y : Config} {p : WorkerPool RingSignatureArg}

/-- The pool with the inputs posted and the results delivered for the call under way. -/
structure Tracks (cr : Crypto) (c : Currency) (x : Config) (p : WorkerPool RingSignatureArg) :
    Prop where
  quit : p.quit = x.quit
  generation : p.generation = x.workCounter
  queue : p.queue = x.args
  workers : p.workers = x.threads
  call : ∀ call rest, x.owner.position = some (call, rest) →
    x.quit = false ∧ call.work cr c = p.posted.map .ok ++ rest ∧
      x.totalCounter = p.posted.length ∧ x.readyCounter = p.delivered.length ∧
      x.errors = p.delivered.flatMap fun arg ↦ report (arg.check cr)

/-- A thread of the checker does what a thread of the pool does. -/
theorem Tracks.threadRun (ht : Tracks cr c x p) (h : ThreadRun cr x y) :
    ∃ q, p.Works q ∧ Tracks cr c y q := by
  cases h with
  | exit hquit hthreads =>
    refine ⟨_, .exit (ht.quit.trans hquit) (ht.workers.trans hthreads), ?_⟩
    exact ⟨ht.quit, ht.generation, ht.queue, rfl, ht.call⟩
  | sleep hquit hargs hthreads =>
    refine ⟨_, .sleep (ht.quit.trans hquit) (ht.queue.trans hargs)
      (ht.workers.trans hthreads), ?_⟩
    exact ⟨ht.quit, ht.generation, ht.queue, rfl, ht.call⟩
  | take hquit hargs hthreads =>
    refine ⟨_, .take (ht.quit.trans hquit) (ht.queue.trans hargs)
      (ht.workers.trans hthreads), ?_⟩
    exact ⟨ht.quit, ht.generation, rfl, by rw [ht.generation], ht.call⟩
  | deliver hthreads =>
    refine ⟨_, .deliver (ht.workers.trans (ht.generation ▸ hthreads)), ?_⟩
    refine ⟨ht.quit, ht.generation, ht.queue, rfl, fun call rest hcall ↦ ?_⟩
    obtain ⟨hquit, hwork, htotal, hready, herrors⟩ := ht.call call rest (by simpa using hcall)
    refine ⟨hquit, hwork, htotal, ?_, ?_⟩
    · simp [hready]
    · simp [herrors]
  | discard hne hthreads =>
    refine ⟨_, .discard (ht.generation ▸ hne) (ht.workers.trans hthreads), ?_⟩
    exact ⟨ht.quit, ht.generation, ht.queue, rfl, ht.call⟩

/-- Where the pool can go on, so can the checker. -/
theorem Tracks.exists_threadRun (ht : Tracks cr c x p) {q : WorkerPool RingSignatureArg}
    (h : p.Works q) : ∃ y, ThreadRun cr x y := by
  cases h with
  | take hquit hqueue hworkers =>
    exact ⟨_, .take (ht.quit ▸ hquit) (ht.queue ▸ hqueue) (ht.workers ▸ hworkers)⟩
  | sleep hquit hqueue hworkers =>
    exact ⟨_, .sleep (ht.quit ▸ hquit) (ht.queue ▸ hqueue) (ht.workers ▸ hworkers)⟩
  | deliver hworkers => exact ⟨_, .deliver (ht.generation ▸ ht.workers ▸ hworkers)⟩
  | discard hne hworkers => exact ⟨_, .discard (ht.generation ▸ hne) (ht.workers ▸ hworkers)⟩
  | exit hquit hworkers => exact ⟨_, .exit (ht.quit ▸ hquit) (ht.workers ▸ hworkers)⟩

/-- Nobody has reported an error exactly where every check has succeeded. -/
theorem flatMap_report_eq_nil_iff (args : List RingSignatureArg) :
    (args.flatMap fun arg ↦ report (arg.check cr)) = [] ↔ signaturesValid cr args = true := by
  rw [List.flatMap_eq_nil_iff, signaturesValid, List.all_eq_true]
  refine forall₂_congr fun arg _ ↦ ?_
  cases h : arg.check cr <;> simp [report]

theorem signaturesValid_of_perm {args args' : List RingSignatureArg} (h : args.Perm args') :
    signaturesValid cr args = signaturesValid cr args' := by
  unfold signaturesValid
  rw [Bool.eq_iff_iff, List.all_eq_true, List.all_eq_true]
  exact forall_congr' fun arg ↦ by rw [h.mem_iff]

/-- The state of the checker as a whole: its pool loses no input, and what it has answered is
right. -/
structure Sound (cr : Crypto) (c : Currency) (x : Config) : Prop where
  pool : ∃ p, Tracks cr c x p ∧ p.Accounted
  asleep : ∀ call, x.owner = .asleep call → x.readyCounter ≠ x.totalCounter
  threads : x.threads ≠ []
  answers : ∀ e ∈ x.answers, e.2 = e.1.answer cr c

theorem Sound.start (hardwareConcurrency : ℕ) : Sound cr c (.start hardwareConcurrency) where
  pool := by
    refine ⟨⟨false, 0, [], List.replicate (threadCount hardwareConcurrency) .ready, [], []⟩,
      ⟨rfl, rfl, rfl, rfl, fun call rest h ↦ ?_⟩, ?_⟩
    · cases h
    · refine ⟨?_, fun g job hmem ↦ ?_, fun hmem ↦ ?_, fun hmem ↦ ?_⟩
      · simp [WorkerPool.inFlight, Worker.current]
      · simp at hmem
      · simp at hmem
      · simp at hmem
  asleep call h := by cases h
  threads := by
    have : threadCount hardwareConcurrency ≠ 0 := by
      unfold threadCount
      omega
    simpa [Config.start] using this
  answers e he := by simp [Config.start] at he

theorem Sound.threadRun (hx : Sound cr c x) (h : ThreadRun cr x y) : Sound cr c y where
  pool := by
    obtain ⟨p, ht, hp⟩ := hx.pool
    obtain ⟨q, hq, ht'⟩ := ht.threadRun h
    exact ⟨q, ht', hp.works hq⟩
  asleep := by
    intro call hcall
    cases h with
    | deliver hthreads =>
      cases howner : x.owner <;> simp [howner, Owner.wake] at hcall
    | exit | sleep | take | discard => exact hx.asleep call hcall
  threads := by
    cases h <;> simp
  answers := by
    cases h <;> exact hx.answers

/-- The answer of `signatures_valid` once every result is there. -/
theorem Tracks.answer_eq (ht : Tracks cr c x p) (hp : p.Accounted) {call : Call}
    (howner : x.owner = .looking call) (hready : x.readyCounter = x.totalCounter) :
    .ok x.errors.isEmpty = call.answer cr c := by
  obtain ⟨-, hwork, htotal, hdelivered, herrors⟩ := ht.call call [] (by rw [howner]; rfl)
  have hperm := hp.delivered_perm (hdelivered ▸ htotal ▸ hready)
  have hcollect : startWorkGetError cr c call.reads call.unlockHeight call.unlockTimestamp
      call.transactions = .ok p.posted := by
    have h := collect_ok_append (ε := String) p.posted []
    rw [← hwork] at h
    rw [startWorkGetError_eq_collect]
    simpa [Call.work, collect, Except.map] using h
  rw [Call.answer, hcollect, Except.map, ← signaturesValid_of_perm hperm]
  congr 1
  rw [Bool.eq_iff_iff, List.isEmpty_iff, herrors]
  exact flatMap_report_eq_nil_iff _

theorem Sound.ownerRun (hx : Sound cr c x) (h : OwnerRun cr c x y) : Sound cr c y := by
  obtain ⟨p, ht, hp⟩ := hx.pool
  cases h with
  | call call howner hquit =>
    refine ⟨⟨p.restart, ?_, hp.restart⟩, ?_, hx.threads, hx.answers⟩
    · refine ⟨ht.quit, congrArg (· + 1) ht.generation, rfl, ht.workers, ?_⟩
      intro call' rest hcall
      cases hcall
      exact ⟨hquit, rfl, rfl, rfl, rfl⟩
    · intro call' hcall
      cases hcall
  | @push call arg rest howner =>
    refine ⟨⟨p.post [arg], ?_, hp.post _⟩, ?_, ?_, hx.answers⟩
    · refine ⟨ht.quit, ht.generation, congrArg (· ++ [arg]) ht.queue,
        congrArg (List.map Worker.wake) ht.workers, ?_⟩
      intro call' rest' hcall
      cases hcall
      obtain ⟨hquit, hwork, htotal, hready, herrors⟩ := ht.call call _ (by rw [howner]; rfl)
      refine ⟨hquit, ?_, ?_, hready, herrors⟩
      · simp [hwork, WorkerPool.post, WorkerPool.wakeAll]
      · simp [htotal, WorkerPool.post, WorkerPool.wakeAll]
    · intro call' hcall
      cases hcall
    · simpa using hx.threads
  | @fail call text rest howner =>
    refine ⟨⟨p, ⟨ht.quit, ht.generation, ht.queue, ht.workers, ?_⟩, hp⟩, ?_, hx.threads, ?_⟩
    · intro call' rest' hcall
      cases hcall
    · intro call' hcall
      cases hcall
    · intro e he
      obtain he | he := List.mem_append.1 he
      · exact hx.answers e he
      · obtain rfl := List.mem_singleton.1 he
        obtain ⟨-, hwork, -⟩ := ht.call call _ (by rw [howner]; rfl)
        rw [Call.answer, startWorkGetError_eq_collect]
        change _ = (collect (call.work cr c)).map _
        rw [hwork, collect_ok_append]
        rfl
  | @startWorkGetError call howner =>
    refine ⟨⟨p, ⟨ht.quit, ht.generation, ht.queue, ht.workers, ?_⟩, hp⟩, ?_, hx.threads,
      hx.answers⟩
    · intro call' rest' hcall
      exact ht.call call' rest' (by rw [howner]; exact hcall)
    · intro call' hcall
      cases hcall
  | abandon howner =>
    refine ⟨⟨p, ⟨ht.quit, ht.generation, ht.queue, ht.workers, ?_⟩, hp⟩, ?_, hx.threads,
      hx.answers⟩
    · intro call' rest' hcall
      cases hcall
    · intro call' hcall
      cases hcall
  | @signaturesValid call howner =>
    refine ⟨⟨p, ⟨ht.quit, ht.generation, ht.queue, ht.workers, ?_⟩, hp⟩, ?_, hx.threads,
      hx.answers⟩
    · intro call' rest' hcall
      exact ht.call call' rest' (by rw [howner]; exact hcall)
    · intro call' hcall
      cases hcall
  | @sleep call howner hne =>
    refine ⟨⟨p, ⟨ht.quit, ht.generation, ht.queue, ht.workers, ?_⟩, hp⟩, ?_, hx.threads,
      hx.answers⟩
    · intro call' rest' hcall
      exact ht.call call' rest' (by rw [howner]; exact hcall)
    · exact fun _ _ ↦ hne
  | @answer call howner hready =>
    refine ⟨⟨p, ⟨ht.quit, ht.generation, ht.queue, ht.workers, ?_⟩, hp⟩, ?_, hx.threads, ?_⟩
    · intro call' rest' hcall
      cases hcall
    · intro call' hcall
      cases hcall
    · intro e he
      obtain he | he := List.mem_append.1 he
      · exact hx.answers e he
      · obtain rfl := List.mem_singleton.1 he
        exact ht.answer_eq hp howner hready
  | cancelWork howner =>
    refine ⟨⟨p.restart, ?_, hp.restart⟩, ?_, hx.threads, hx.answers⟩
    · refine ⟨ht.quit, congrArg (· + 1) ht.generation, rfl, ht.workers, ?_⟩
      intro call' rest hcall
      rw [show x.owner = .idle from howner] at hcall
      cases hcall
    · intro call' hcall
      rw [show x.owner = .idle from howner] at hcall
      cases hcall
  | destroy howner =>
    refine ⟨⟨p.stop, ?_, hp.stop⟩, ?_, ?_, hx.answers⟩
    · refine ⟨rfl, ht.generation, ht.queue, congrArg (List.map Worker.wake) ht.workers, ?_⟩
      intro call' rest hcall
      rw [show x.owner = .idle from howner] at hcall
      cases hcall
    · intro call' hcall
      rw [show x.owner = .idle from howner] at hcall
      cases hcall
    · simpa using hx.threads

theorem Sound.spurious (hx : Sound cr c x) (h : Spurious x y) : Sound cr c y := by
  obtain ⟨p, ht, hp⟩ := hx.pool
  cases h with
  | thread hthreads =>
    refine ⟨⟨_, ?_, hp.wakes (ht.workers.trans hthreads)⟩, hx.asleep, by simp, hx.answers⟩
    exact ⟨ht.quit, ht.generation, ht.queue, rfl, ht.call⟩
  | @owner call howner =>
    refine ⟨⟨p, ⟨ht.quit, ht.generation, ht.queue, ht.workers, ?_⟩, hp⟩, ?_, hx.threads,
      hx.answers⟩
    · intro call' rest' hcall
      exact ht.call call' rest' (by rw [howner]; exact hcall)
    · intro call' hcall
      cases hcall

theorem Sound.preserved : Preserves (Step cr c) (Sound cr c) := by
  intro x y h hx
  obtain h | h | h := h
  · exact hx.threadRun h
  · exact hx.ownerRun h
  · exact hx.spurious h

theorem Reachable.sound (h : Reachable cr c x) : Sound cr c x := by
  obtain ⟨hardwareConcurrency, hrun⟩ := h
  exact Sound.preserved.star hrun (.start hardwareConcurrency)

/-- In whatever order the threads run, every answer to `redo_block` is the one that checking the
rings of its block one after another gives. -/
theorem Reachable.answers_sequential {x : Config} (h : Reachable cr c x) :
    ∀ e ∈ x.answers, e.2 = e.1.answer cr c :=
  h.sound.answers

/-- A block with one ring of one, whose member is unlocked. -/
def sampleCall : Call where
  reads :=
    { readKeyimage := fun _ ↦ none, nextGlobalIndexForAmount := fun _ ↦ 6
      readAmountOutput := fun _ _ ↦ some {} }
  unlockHeight := 10
  unlockTimestamp := 0
  transactions :=
    [sampleTransaction [{ amount := 1, outputIndexes := [5], keyImage := 7 }] [1] [] 3]

def sampleArg : RingSignatureArg where
  txPrefixHash := (sampleCall.transactions.map fun tx ↦
    getTransactionPrefixHash sampleCrypto tx.toTransactionPrefix).headD 0
  keyImage := 7
  outputKeys := [0]
  signatures := [⟨0, 3⟩]

/-- The owner has fallen asleep while the first thread checks the ring. -/
def sampleAsleep : Config where
  quit := false
  totalCounter := 1
  readyCounter := 0
  errors := []
  args := []
  workCounter := 1
  threads := [.busy 1 sampleArg, .ready]
  owner := .asleep sampleCall
  answers := []

theorem reachable_sampleAsleep : Reachable sampleCrypto testnet sampleAsleep := by
  refine ⟨1, ?_⟩
  apply ReflTransGen.head (.inr (.inl (.call sampleCall rfl rfl)))
  apply ReflTransGen.head (.inr (.inl (@OwnerRun.push _ _ _ sampleCall sampleArg [] rfl)))
  apply ReflTransGen.head (.inl (@ThreadRun.take _ _ sampleArg [] [] [.ready] rfl rfl rfl))
  apply ReflTransGen.head (.inr (.inl (@OwnerRun.startWorkGetError _ _ _ sampleCall rfl)))
  apply ReflTransGen.head (.inr (.inl (@OwnerRun.signaturesValid _ _ _ sampleCall rfl)))
  exact .single (.inr (.inl (@OwnerRun.sleep _ _ _ sampleCall rfl (by decide))))

/-- The thread has delivered, and the owner has answered. -/
def sampleAnswered : Config :=
  { sampleAsleep with
    readyCounter := 1, threads := [.ready, .ready], owner := .idle
    answers := [(sampleCall, .ok true)] }

theorem reachable_sampleAnswered : Reachable sampleCrypto testnet sampleAnswered := by
  obtain ⟨hardwareConcurrency, hrun⟩ := reachable_sampleAsleep
  refine ⟨hardwareConcurrency, hrun.trans ?_⟩
  apply ReflTransGen.head (.inl (@ThreadRun.deliver _ _ sampleArg [] [.ready] rfl))
  exact .single (.inr (.inl (@OwnerRun.answer _ _ _ sampleCall rfl rfl)))

theorem answers_sequential_sampleCall :
    sampleAnswered.answers.length = 1 ∧
      ∀ e ∈ sampleAnswered.answers, e.2 = e.1.answer sampleCrypto testnet :=
  ⟨rfl, Reachable.answers_sequential reachable_sampleAnswered⟩

/-! ## Termination -/

/-- However the threads run on by themselves, they come to rest. -/
theorem Sound.acc (hx : Sound cr c x) : Acc (fun b a ↦ ThreadRun cr a b) x := by
  obtain ⟨p, ht, -⟩ := hx.pool
  induction hload : p.load using Nat.strong_induction_on generalizing x p with
  | _ n ih =>
    refine Acc.intro x fun y hy ↦ ?_
    obtain ⟨q, hq, ht'⟩ := ht.threadRun hy
    exact ih q.load (hload ▸ hq.load_lt) (hx.threadRun hy) q ht' rfl

/-- At rest during a call, every result is there and the owner is awake. -/
theorem Sound.settled (hx : Sound cr c x) (hrest : ∀ y, ¬ThreadRun cr x y) {call : Call}
    (hcall : x.owner.position = some (call, [])) :
    x.readyCounter = x.totalCounter ∧ x.owner ≠ .asleep call := by
  obtain ⟨p, ht, hp⟩ := hx.pool
  obtain ⟨hquit, -, htotal, hready, -⟩ := ht.call call [] hcall
  have hdone : x.readyCounter = x.totalCounter := by
    by_contra hne
    rw [hready, htotal] at hne
    obtain ⟨q, hq⟩ := hp.exists_works (ht.quit.trans hquit) (ht.workers ▸ hx.threads)
      (hp.left_of_length hne)
    obtain ⟨y, hy⟩ := ht.exists_threadRun hq
    exact hrest y hy
  exact ⟨hdone, fun hasleep ↦ hx.asleep call hasleep hdone⟩

/-- `signatures_valid` always returns: whatever the threads do while its caller waits, they come to
rest, and then it is awake and has the results of all its rings. -/
theorem Reachable.signaturesValid_returns {x : Config} {call : Call} (h : Reachable cr c x)
    (hcall : x.owner = .looking call ∨ x.owner = .asleep call) :
    Acc (fun b a ↦ ThreadRun cr a b) x ∧
      ∀ y, ReflTransGen (ThreadRun cr) x y → (∀ z, ¬ThreadRun cr y z) →
        y.owner = .looking call ∧ y.readyCounter = y.totalCounter := by
  refine ⟨h.sound.acc, fun y hxy hrest ↦ ?_⟩
  have hy : Reachable cr c y := by
    obtain ⟨hardwareConcurrency, hrun⟩ := h
    exact ⟨hardwareConcurrency, hrun.trans (hxy.lift id fun _ _ ↦ .inl)⟩
  have hposition : y.owner = .looking call ∨ y.owner = .asleep call := by
    clear hrest hy
    induction hxy with
    | refl => exact hcall
    | tail _ hstep ih =>
      cases hstep with
      | deliver => obtain ih | ih := ih <;> exact .inl (by simp [ih, Owner.wake])
      | exit | sleep | take | discard => exact ih
  have hcall' : y.owner.position = some (call, []) := by
    obtain h | h := hposition <;> rw [h] <;> rfl
  obtain ⟨hdone, hawake⟩ := hy.sound.settled hrest hcall'
  exact ⟨hposition.resolve_right hawake, hdone⟩

theorem signaturesValid_returns_sampleCall :
    Acc (fun b a ↦ ThreadRun sampleCrypto a b) sampleAsleep ∧
      ∀ y, ReflTransGen (ThreadRun sampleCrypto) sampleAsleep y →
        (∀ z, ¬ThreadRun sampleCrypto y z) →
          y.owner = .looking sampleCall ∧ y.readyCounter = y.totalCounter :=
  Reachable.signaturesValid_returns reachable_sampleAsleep (.inr rfl)

end RingCheckerMulticore

end Naza
