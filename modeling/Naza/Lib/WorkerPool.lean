import Mathlib

/-!
# Pools of worker threads

Threads that take jobs from a shared queue and deliver them back, where the owner may drop the
queue at any time and deliveries of an earlier generation are thrown away.  A step is what one
thread does inside the lock, so steps of different threads may come in any order.
-/

namespace Lib

variable {J : Type}

/-- A thread: before its look at the queue, asleep on the condition variable, outside the lock with
a job, or ended. -/
inductive Worker (J : Type) where
  | ready
  | asleep
  | busy (generation : ℕ) (job : J)
  | exited
  deriving DecidableEq

namespace Worker

def wake : Worker J → Worker J
  | asleep => ready
  | worker => worker

/-- The job at hand, if it belongs to a generation. -/
def current (generation : ℕ) : Worker J → List J
  | busy g job => if g = generation then [job] else []
  | _ => []

/-- How many steps a thread can take before it needs a new job. -/
def weight : Worker J → ℕ
  | ready => 1
  | asleep => 0
  | busy _ _ => 2
  | exited => 0

@[simp]
theorem current_wake (generation : ℕ) (w : Worker J) :
    w.wake.current generation = w.current generation := by
  cases w <;> rfl

end Worker

/-- The shared state of a pool, with what was posted and delivered in this generation. -/
structure WorkerPool (J : Type) where
  quit : Bool
  generation : ℕ
  queue : List J
  workers : List (Worker J)
  posted : List J
  delivered : List J

namespace WorkerPool

variable {p q : WorkerPool J}

/-- What one thread does. -/
inductive Works : WorkerPool J → WorkerPool J → Prop where
  | take {p : WorkerPool J} {job : J} {jobs : List J} {before after : List (Worker J)} :
      p.quit = false → p.queue = job :: jobs → p.workers = before ++ .ready :: after →
      Works p { p with
        queue := jobs, workers := before ++ .busy p.generation job :: after }
  | sleep {p : WorkerPool J} {before after : List (Worker J)} :
      p.quit = false → p.queue = [] → p.workers = before ++ .ready :: after →
      Works p { p with workers := before ++ .asleep :: after }
  | deliver {p : WorkerPool J} {job : J} {before after : List (Worker J)} :
      p.workers = before ++ .busy p.generation job :: after →
      Works p { p with
        workers := before ++ .ready :: after, delivered := p.delivered ++ [job] }
  | discard {p : WorkerPool J} {generation : ℕ} {job : J} {before after : List (Worker J)} :
      generation ≠ p.generation → p.workers = before ++ .busy generation job :: after →
      Works p { p with workers := before ++ .ready :: after }
  | exit {p : WorkerPool J} {before after : List (Worker J)} :
      p.quit = true → p.workers = before ++ .ready :: after →
      Works p { p with workers := before ++ .exited :: after }

def wakeAll (p : WorkerPool J) : WorkerPool J := { p with workers := p.workers.map .wake }

/-- The owner drops the queue and begins a new generation. -/
def restart (p : WorkerPool J) : WorkerPool J :=
  { p with generation := p.generation + 1, queue := [], posted := [], delivered := [] }

def post (p : WorkerPool J) (jobs : List J) : WorkerPool J :=
  { p with queue := p.queue ++ jobs, posted := p.posted ++ jobs }.wakeAll

def stop (p : WorkerPool J) : WorkerPool J := { p with quit := true }.wakeAll

/-- The jobs of this generation that a thread has in hand. -/
def inFlight (p : WorkerPool J) : List J := p.workers.flatMap (Worker.current p.generation)

/-- Every posted job is delivered, in hand or in the queue, and nobody sleeps over work. -/
structure Accounted (p : WorkerPool J) : Prop where
  jobs : p.posted.Perm (p.delivered ++ p.inFlight ++ p.queue)
  generations : ∀ g job, Worker.busy g job ∈ p.workers → g ≤ p.generation
  asleep : Worker.asleep ∈ p.workers → p.queue = [] ∧ p.quit = false
  exited : Worker.exited ∈ p.workers → p.quit = true

/-- How much the threads can do on their own. -/
def load (p : WorkerPool J) : ℕ := 3 * p.queue.length + (p.workers.map Worker.weight).sum

/-! ## Single steps -/

theorem inFlight_of_workers {before after : List (Worker J)} {w : Worker J}
    (h : p.workers = before ++ w :: after) :
    p.inFlight = before.flatMap (Worker.current p.generation) ++
      (w.current p.generation ++ after.flatMap (Worker.current p.generation)) := by
  unfold inFlight
  rw [h, List.flatMap_append, List.flatMap_cons]

/-- A thread that moves within one generation keeps the account of the other threads. -/
theorem Accounted.move (hp : p.Accounted) {before after : List (Worker J)} {w w' : Worker J}
    (h : p.workers = before ++ w :: after) (delivered jobs : List J)
    (hjobs : ∀ rest : List J, (delivered ++ (w'.current p.generation ++ rest) ++ jobs).Perm
      (p.delivered ++ (w.current p.generation ++ rest) ++ p.queue))
    (hbusy : ∀ g job, w' = .busy g job → g ≤ p.generation)
    (hqueue : p.queue = [] → jobs = []) (hasleep : w' = .asleep → jobs = [] ∧ p.quit = false)
    (hexited : w' = .exited → p.quit = true) :
    Accounted { p with
      queue := jobs, workers := before ++ w' :: after, delivered := delivered } where
  jobs := by
    refine hp.jobs.trans ?_
    rw [inFlight_of_workers h]
    have hshift (a b c : List J) : (a ++ (b ++ c)).Perm (b ++ (a ++ c)) := by
      simpa only [List.append_assoc] using List.perm_append_comm.append_right c
    have hmoved : (p.delivered ++ (before.flatMap (Worker.current p.generation) ++
        (w.current p.generation ++ after.flatMap (Worker.current p.generation))) ++ p.queue).Perm
        (delivered ++ (w'.current p.generation ++ (before.flatMap (Worker.current p.generation) ++
          after.flatMap (Worker.current p.generation))) ++ jobs) :=
      (((hshift _ _ _).append_left _).append_right _).trans (hjobs _).symm
    refine hmoved.trans ?_
    rw [inFlight_of_workers (w := w') rfl]
    exact ((hshift _ _ _).append_left _).append_right _
  generations := by
    intro g job hmem
    obtain hmem | hmem | hmem := by simpa using hmem
    · exact hp.generations g job (h ▸ by simp [hmem])
    · exact hbusy g job hmem.symm
    · exact hp.generations g job (h ▸ by simp [hmem])
  asleep := by
    intro hmem
    obtain hmem | hmem | hmem := by simpa using hmem
    · have hold := hp.asleep (h ▸ by simp [hmem])
      exact ⟨hqueue hold.1, hold.2⟩
    · exact hasleep hmem.symm
    · have hold := hp.asleep (h ▸ by simp [hmem])
      exact ⟨hqueue hold.1, hold.2⟩
  exited := by
    intro hmem
    obtain hmem | hmem | hmem := by simpa using hmem
    · exact hp.exited (h ▸ by simp [hmem])
    · exact hexited hmem.symm
    · exact hp.exited (h ▸ by simp [hmem])

theorem Accounted.works (hp : p.Accounted) (h : Works p q) : q.Accounted := by
  cases h with
  | take hquit hqueue hw =>
    refine hp.move hw p.delivered _ ?_ ?_ ?_ ?_ ?_
    · intro rest
      rw [hqueue]
      simp only [Worker.current, if_true, List.nil_append, List.append_assoc]
      exact (@List.perm_middle _ _ rest _).symm.append_left _
    · intro g job hw'
      cases hw'
      exact le_rfl
    · intro hnil
      rw [hqueue] at hnil
      cases hnil
    · intro hw'
      cases hw'
    · intro hw'
      cases hw'
  | sleep hquit hqueue hw =>
    refine hp.move hw p.delivered p.queue ?_ ?_ ?_ ?_ ?_
    · intro rest
      exact List.Perm.refl _
    · intro g job hw'
      cases hw'
    · exact id
    · exact fun _ ↦ ⟨hqueue, hquit⟩
    · intro hw'
      cases hw'
  | deliver hw =>
    refine hp.move hw _ p.queue ?_ ?_ ?_ ?_ ?_
    · intro rest
      simp [Worker.current]
    · intro g job hw'
      cases hw'
    · exact id
    · intro hw'
      cases hw'
    · intro hw'
      cases hw'
  | discard hne hw =>
    refine hp.move hw p.delivered p.queue ?_ ?_ ?_ ?_ ?_
    · intro rest
      simp [Worker.current, hne]
    · intro g job hw'
      cases hw'
    · exact id
    · intro hw'
      cases hw'
    · intro hw'
      cases hw'
  | exit hquit hw =>
    refine hp.move hw p.delivered p.queue ?_ ?_ ?_ ?_ ?_
    · intro rest
      exact List.Perm.refl _
    · intro g job hw'
      cases hw'
    · exact id
    · intro hw'
      cases hw'
    · exact fun _ ↦ hquit

/-- A spurious wake-up of one thread. -/
theorem Accounted.wakes (hp : p.Accounted) {before after : List (Worker J)}
    (hw : p.workers = before ++ .asleep :: after) :
    Accounted { p with workers := before ++ .ready :: after } := by
  refine hp.move hw p.delivered p.queue ?_ ?_ ?_ ?_ ?_
  · intro rest
    exact List.Perm.refl _
  · intro g job hw'
    cases hw'
  · exact id
  · intro hw'
    cases hw'
  · intro hw'
    cases hw'

theorem Works.load_lt (h : Works p q) : q.load < p.load := by
  cases h with
  | take _ hqueue hw =>
    simp only [load, hqueue, hw, List.map_append, List.map_cons, List.sum_append, List.sum_cons,
      Worker.weight, List.length_cons]
    omega
  | sleep _ _ hw =>
    simp only [load, hw, List.map_append, List.map_cons, List.sum_append, List.sum_cons,
      Worker.weight]
    omega
  | deliver hw =>
    simp only [load, hw, List.map_append, List.map_cons, List.sum_append, List.sum_cons,
      Worker.weight]
    omega
  | discard _ hw =>
    simp only [load, hw, List.map_append, List.map_cons, List.sum_append, List.sum_cons,
      Worker.weight]
    omega
  | exit _ hw =>
    simp only [load, hw, List.map_append, List.map_cons, List.sum_append, List.sum_cons,
      Worker.weight]
    omega

/-! ## What the owner does -/

theorem mem_map_wake {w : Worker J} {ws : List (Worker J)} (hw : w ≠ .ready) :
    w ∈ ws.map .wake ↔ w ∈ ws ∧ w ≠ .asleep := by
  rw [List.mem_map]
  constructor
  · rintro ⟨v, hv, rfl⟩
    cases v with
    | asleep => exact absurd rfl hw
    | ready => exact absurd rfl hw
    | busy g job => exact ⟨hv, by simp [Worker.wake]⟩
    | exited => exact ⟨hv, by simp [Worker.wake]⟩
  · rintro ⟨hmem, hne⟩
    refine ⟨w, hmem, ?_⟩
    cases w with
    | asleep => exact absurd rfl hne
    | ready => rfl
    | busy g job => rfl
    | exited => rfl

@[simp]
theorem inFlight_wakeAll (p : WorkerPool J) : p.wakeAll.inFlight = p.inFlight := by
  simp [inFlight, wakeAll, List.flatMap_map]

@[simp]
theorem asleep_notMem_wakeAll (p : WorkerPool J) : Worker.asleep ∉ p.wakeAll.workers := by
  intro hmem
  have h : (Worker.asleep : Worker J) ≠ .asleep := ((mem_map_wake (by simp)).1 hmem).2
  exact h rfl

/-- Nothing of an earlier generation counts in the next one. -/
theorem Accounted.restart (hp : p.Accounted) : p.restart.Accounted where
  jobs := by
    have hnone : p.restart.inFlight = [] := by
      refine List.flatMap_eq_nil_iff.2 fun w hw ↦ ?_
      cases w with
      | busy g job =>
        have hle := hp.generations g job hw
        have hne : g ≠ p.restart.generation := by
          simp only [WorkerPool.restart]
          omega
        simp only [Worker.current, if_neg hne]
      | ready => rfl
      | asleep => rfl
      | exited => rfl
    rw [hnone]
    exact List.Perm.refl _
  generations g job hmem := (hp.generations g job hmem).trans (Nat.le_succ _)
  asleep hmem := ⟨rfl, (hp.asleep hmem).2⟩
  exited hmem := hp.exited hmem

theorem Accounted.post (hp : p.Accounted) (jobs : List J) : (p.post jobs).Accounted where
  jobs := by
    have h := hp.jobs.append_right jobs
    simpa [WorkerPool.post, WorkerPool.wakeAll, inFlight, List.flatMap_map,
      List.append_assoc] using h
  generations g job hmem :=
    hp.generations g job ((mem_map_wake (by simp)).1 hmem).1
  asleep hmem := absurd hmem (asleep_notMem_wakeAll _)
  exited hmem := hp.exited ((mem_map_wake (by simp)).1 hmem).1

theorem Accounted.stop (hp : p.Accounted) : p.stop.Accounted where
  jobs := by
    have h := hp.jobs
    simpa [WorkerPool.stop, WorkerPool.wakeAll, inFlight, List.flatMap_map] using h
  generations g job hmem :=
    hp.generations g job ((mem_map_wake (by simp)).1 hmem).1
  asleep hmem := absurd hmem (asleep_notMem_wakeAll _)
  exited _ := rfl

/-! ## The end of a generation -/

/-- With as many deliveries as posted jobs, these are the posted jobs. -/
theorem Accounted.delivered_perm (hp : p.Accounted)
    (h : p.delivered.length = p.posted.length) : p.delivered.Perm p.posted := by
  have hlength := hp.jobs.length_eq
  simp only [List.length_append] at hlength
  have hflight : p.inFlight = [] := List.length_eq_zero_iff.1 (by omega)
  have hqueue : p.queue = [] := List.length_eq_zero_iff.1 (by omega)
  simpa [hflight, hqueue] using hp.jobs.symm

theorem Accounted.delivered_subset (hp : p.Accounted) : p.delivered ⊆ p.posted := by
  intro job hjob
  exact hp.jobs.mem_iff.2 (by simp [hjob])

/-- While a job is in hand or in the queue, some thread can do something. -/
theorem Accounted.exists_works (hp : p.Accounted) (hquit : p.quit = false)
    (hworkers : p.workers ≠ []) (hleft : p.inFlight ++ p.queue ≠ []) : ∃ q, Works p q := by
  obtain ⟨job, hjob⟩ := List.exists_mem_of_ne_nil _ hleft
  obtain hflight | hqueue := List.mem_append.1 hjob
  · obtain ⟨w, hw, hcurrent⟩ := List.mem_flatMap.1 hflight
    obtain ⟨before, after, hsplit⟩ := List.append_of_mem hw
    cases w with
    | busy g job' =>
      by_cases hg : g = p.generation
      · exact ⟨_, .deliver (hg ▸ hsplit)⟩
      · exact ⟨_, .discard hg hsplit⟩
    | ready => cases hcurrent
    | asleep => cases hcurrent
    | exited => cases hcurrent
  · obtain ⟨w, hw⟩ := List.exists_mem_of_ne_nil _ hworkers
    obtain ⟨before, after, hsplit⟩ := List.append_of_mem hw
    cases w with
    | ready =>
      cases hq : p.queue with
      | nil =>
        rw [hq] at hqueue
        cases hqueue
      | cons job' jobs => exact ⟨_, .take hquit hq hsplit⟩
    | asleep =>
      rw [(hp.asleep hw).1] at hqueue
      cases hqueue
    | busy g job' =>
      by_cases hg : g = p.generation
      · exact ⟨_, .deliver (hg ▸ hsplit)⟩
      · exact ⟨_, .discard hg hsplit⟩
    | exited =>
      rw [hp.exited hw] at hquit
      cases hquit

theorem Accounted.left_of_length (hp : p.Accounted)
    (h : p.delivered.length ≠ p.posted.length) : p.inFlight ++ p.queue ≠ [] := by
  intro hnil
  have hlength := hp.jobs.length_eq
  rw [List.append_assoc, hnil, List.append_nil] at hlength
  exact h hlength.symm

theorem Accounted.left_of_mem (hp : p.Accounted) {job : J} (hposted : job ∈ p.posted)
    (hdelivered : job ∉ p.delivered) : p.inFlight ++ p.queue ≠ [] := by
  intro hnil
  have hmem := hp.jobs.mem_iff.1 hposted
  rw [List.append_assoc, hnil, List.append_nil] at hmem
  exact hdelivered hmem

end WorkerPool

end Lib
