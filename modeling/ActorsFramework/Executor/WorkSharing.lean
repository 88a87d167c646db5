import ActorsFramework.Lib.Transition
import ActorsFramework.Lib.Tally
import Mathlib.Data.Fintype.Card

/-!
# The work-sharing executor

`executor_t<work_sharing>`: worker threads that take jobs from one central
queue, any number of threads that push jobs, and the thread that calls `stop`.
Each critical section of the queue's lock and of `shutdown_helper`'s mutex is
one step, and a wait on a condition variable is a step that is possible when
the awaited predicate holds, which is when the wait can return.

A push by `execute` begins an *activation* of a job; a resumed job is pushed
again, as another entry of the same activation. Entries are numbered in the
order they are pushed, so that an entry is one push and not only a job. What a
job does inside `run` is not modelled: it may push further jobs, and it returns
any result but `shutdown`. Nobody calls `execute` once `stop` has joined the workers,
although the code does not look.
-/

namespace ActorsFramework.Executor

open Lib

/-- `executable_result`. -/
inductive ExecutableResult where
  | resume
  | awaiting
  | done
  | shutdown
  deriving DecidableEq

/-- What `worker::run` does with a job whose `run` has returned. -/
inductive Disposition where
  /-- `resume_job_later`. -/
  | resumeJobLater
  /-- `intrusive_ptr_release`. -/
  | release
  /-- The worker returns. -/
  | exit
  deriving DecidableEq

/-- The `switch` of `worker::run`. (`after_completion` and `before_shutdown` do nothing
under `unprofiled`.) -/
def ExecutableResult.disposition : ExecutableResult → Disposition
  | .resume => .resumeJobLater
  | .done => .release
  | .awaiting => .release
  | .shutdown => .exit

/-- What an entry of the central queue points to. -/
inductive Task where
  /-- A job, by the number of its activation. -/
  | job (activation : ℕ)
  /-- `stop`'s `shutdown_helper`. -/
  | shutdown
  deriving DecidableEq

/-- An entry of the central queue: the number of the push, and what was pushed. -/
structure Entry where
  /-- How many pushes came before. -/
  seq : ℕ
  /-- What was pushed. -/
  task : Task
  deriving DecidableEq

/-- Where a worker is in `worker::run`. -/
inductive WorkerPc where
  /-- At `policy_.dequeue`. -/
  | dequeue
  /-- Inside the entry's `run`. -/
  | running (e : Entry)
  /-- `run` has returned; before the `switch`. -/
  | returned (e : Entry) (r : ExecutableResult)
  /-- The thread has ended. -/
  | exited
  deriving DecidableEq

/-- The entry a worker holds. -/
def WorkerPc.held : WorkerPc → Option Entry
  | .running e => some e
  | .returned e _ => some e
  | _ => none

/-- Where the stopping thread is. -/
inductive StopPc where
  /-- `stop` has not been called. -/
  | notCalled
  /-- At the head of the `while` loop. -/
  | head
  /-- The shutdown entry is pushed; at `sh.cv.wait`. -/
  | wait
  /-- The wait has returned; before `alive_workers.erase`. -/
  | erase
  /-- Before `sh.last_worker = nullptr`. -/
  | reset
  /-- The loop has ended; joining the workers. -/
  | join
  /-- All workers joined; before the final drain. -/
  | drain
  /-- `stop` has returned. -/
  | returned
  deriving DecidableEq

/-- The workers have been joined. -/
def StopPc.joined : StopPc → Bool
  | .drain | .returned => true
  | _ => false

/-- The executor with its threads, and the history of what they did. -/
structure State (ω : Type*) where
  /-- `coordinator_data::queue`. -/
  queue : List Entry := []
  /-- The workers. -/
  worker : ω → WorkerPc := fun _ => .dequeue
  /-- The stopping thread. -/
  stop : StopPc := .notCalled
  /-- `alive_workers`. -/
  alive : Finset ω := ∅
  /-- `sh.last_worker`. -/
  lastWorker : Option ω := none
  /-- The entries pushed, in order. -/
  pushed : List Entry := []
  /-- The entries taken, in order, each with the worker that took it; none for the drain. -/
  taken : List (Option ω × Entry) := []
  /-- The entries done with. -/
  finished : List Entry := []
  /-- The activations released, each with the worker that did it and the result of its
  `run`; none for the drain. -/
  released : List (Option (ω × ExecutableResult) × ℕ) := []
  /-- The workers that have run a shutdown entry, in order. -/
  acks : List ω := []
  /-- How many activations have begun. -/
  activations : ℕ := 0
  /-- How often the body of `stop`'s loop was entered. -/
  rounds : ℕ := 0

variable {ω : Type*}

/-- What `intrusive_ptr_release` of an entry's job adds to the releases. -/
def Entry.releases (e : Entry) (o : Option (ω × ExecutableResult)) :
    List (Option (ω × ExecutableResult) × ℕ) :=
  match e.task with
  | .job j => [(o, j)]
  | .shutdown => []

namespace State

/-- `work_sharing::enqueue`. -/
def enqueue (s : State ω) (t : Task) : State ω :=
  { s with queue := s.queue ++ [⟨s.pushed.length, t⟩], pushed := s.pushed ++ [⟨s.pushed.length, t⟩] }

/-- A job is handed to the executor: a new activation. -/
def execute (s : State ω) : State ω :=
  { s.enqueue (.job s.activations) with activations := s.activations + 1 }

/-- `intrusive_ptr_release` of an entry's job, by a worker or by the drain. -/
def release (s : State ω) (o : Option (ω × ExecutableResult)) (e : Entry) : State ω :=
  { s with released := s.released ++ e.releases o }

/-- `foreach_central_resumable` with `cleanup_and_release`: pop the entries one by one. -/
def drain (s : State ω) : List Entry → State ω
  | [] => s
  | e :: es =>
    drain ({ s with queue := es, taken := s.taken ++ [(none, e)],
                    finished := s.finished ++ [e] }.release none e) es

theorem drain_eq (s : State ω) {es : List Entry} (h : s.queue = es) :
    s.drain es = { s with
      queue := [], taken := s.taken ++ es.map fun e => (none, e), finished := s.finished ++ es,
      released := s.released ++ es.flatMap fun e => e.releases none } := by
  induction es generalizing s with
  | nil =>
    obtain ⟨queue⟩ := s
    obtain rfl : queue = [] := h
    simp [drain]
  | cons e es ih =>
    rw [drain, ih _ rfl]
    simp [release]

variable [DecidableEq ω]

/-- A worker moves on. -/
def setWorker (s : State ω) (w : ω) (pc : WorkerPc) : State ω :=
  { s with worker := Function.update s.worker w pc }

end State

/-- The actions of the threads. -/
inductive Act (ω : Type*) where
  /-- A thread outside calls `executor_t::execute`. -/
  | execute
  /-- A worker takes the first entry of the queue. -/
  | take (w : ω)
  /-- The job a worker runs hands a further job to the executor. -/
  | spawn (w : ω)
  /-- The job a worker runs returns. -/
  | finish (w : ω) (r : ExecutableResult)
  /-- `shutdown_helper::run`'s critical section. -/
  | ack (w : ω)
  /-- The `switch` of `worker::run`. -/
  | settle (w : ω)
  /-- The next step of the stopping thread. -/
  | stop

variable [DecidableEq ω] [Fintype ω]

/-- The next step of `executor_t::stop`. -/
def stopStep (s : State ω) : Option (State ω) :=
  match s.stop with
  | .notCalled => some { s with stop := .head, alive := Finset.univ }
  | .head =>
    if s.alive = ∅ then some { s with stop := .join }
    else some { s.enqueue .shutdown with stop := .wait, rounds := s.rounds + 1 }
  | .wait => if s.lastWorker.isSome then some { s with stop := .erase } else none
  | .erase => some { s with stop := .reset, alive := s.alive \ s.lastWorker.toFinset }
  | .reset => some { s with stop := .head, lastWorker := none }
  | .join => if ∀ w, s.worker w = .exited then some { s with stop := .drain } else none
  | .drain => some { s.drain s.queue with stop := .returned }
  | .returned => none

/-- The step function of the executor. -/
def step (s : State ω) : Act ω → Option (State ω)
  | .execute => if s.stop.joined then none else some s.execute
  | .take w =>
    match s.worker w, s.queue with
    | .dequeue, e :: q =>
      some { s.setWorker w (.running e) with queue := q, taken := s.taken ++ [(some w, e)] }
    | _, _ => none
  | .spawn w =>
    match s.worker w with
    | .running ⟨_, .job _⟩ => some s.execute
    | _ => none
  | .finish w r =>
    match s.worker w with
    | .running ⟨n, .job j⟩ =>
      if r = .shutdown then none else some (s.setWorker w (.returned ⟨n, .job j⟩ r))
    | _ => none
  | .ack w =>
    match s.worker w with
    | .running ⟨n, .shutdown⟩ =>
      some { s.setWorker w (.returned ⟨n, .shutdown⟩ .shutdown) with
             lastWorker := some w, acks := s.acks ++ [w] }
    | _ => none
  | .settle w =>
    match s.worker w with
    | .returned e r =>
      let s := { s with finished := s.finished ++ [e] }
      match r.disposition with
      | .resumeJobLater => some ((s.enqueue e.task).setWorker w .dequeue)
      | .release => some ((s.release (some (w, r)) e).setWorker w .dequeue)
      | .exit => some (s.setWorker w .exited)
    | _ => none
  | .stop => stopStep s

/-- What a step does: one case for each kind of step. -/
inductive Moves (s : State ω) : State ω → Prop where
  /-- A push from outside. -/
  | execute : s.stop.joined = false → Moves s s.execute
  /-- A worker takes the first entry. -/
  | take {w : ω} {e : Entry} {q : List Entry} : s.worker w = .dequeue → s.queue = e :: q →
      Moves s { s.setWorker w (.running e) with queue := q, taken := s.taken ++ [(some w, e)] }
  /-- A push from inside a job. -/
  | spawn {w : ω} {n j : ℕ} : s.worker w = .running ⟨n, .job j⟩ → Moves s s.execute
  /-- A job returns. -/
  | finish {w : ω} {n j : ℕ} {r : ExecutableResult} : s.worker w = .running ⟨n, .job j⟩ →
      r ≠ .shutdown → Moves s (s.setWorker w (.returned ⟨n, .job j⟩ r))
  /-- The shutdown entry runs. -/
  | ack {w : ω} {n : ℕ} : s.worker w = .running ⟨n, .shutdown⟩ →
      Moves s { s.setWorker w (.returned ⟨n, .shutdown⟩ .shutdown) with
                lastWorker := some w, acks := s.acks ++ [w] }
  /-- A job is put back. -/
  | resume {w : ω} {e : Entry} : s.worker w = .returned e .resume →
      Moves s (({ s with finished := s.finished ++ [e] }.enqueue e.task).setWorker w .dequeue)
  /-- A job is released. -/
  | release {w : ω} {e : Entry} {r : ExecutableResult} : s.worker w = .returned e r →
      r.disposition = .release →
      Moves s (({ s with finished := s.finished ++ [e] }.release (some (w, r)) e).setWorker w .dequeue)
  /-- A worker's thread ends. -/
  | exit {w : ω} {e : Entry} : s.worker w = .returned e .shutdown →
      Moves s ({ s with finished := s.finished ++ [e] }.setWorker w .exited)
  /-- `stop` begins. -/
  | call : s.stop = .notCalled → Moves s { s with stop := .head, alive := Finset.univ }
  /-- The loop's body pushes a shutdown entry. -/
  | push : s.stop = .head → s.alive ≠ ∅ →
      Moves s { s.enqueue .shutdown with stop := .wait, rounds := s.rounds + 1 }
  /-- The loop ends. -/
  | leave : s.stop = .head → s.alive = ∅ → Moves s { s with stop := .join }
  /-- The wait returns. -/
  | wake {w : ω} : s.stop = .wait → s.lastWorker = some w → Moves s { s with stop := .erase }
  /-- `alive_workers.erase`. -/
  | erase : s.stop = .erase →
      Moves s { s with stop := .reset, alive := s.alive \ s.lastWorker.toFinset }
  /-- `last_worker = nullptr`. -/
  | reset : s.stop = .reset → Moves s { s with stop := .head, lastWorker := none }
  /-- The workers are joined. -/
  | join : s.stop = .join → (∀ w, s.worker w = .exited) → Moves s { s with stop := .drain }
  /-- The queue is drained. -/
  | drain : s.stop = .drain → Moves s { s.drain s.queue with stop := .returned }

theorem moves_of_stopStep {s s' : State ω} (h : stopStep s = some s') : Moves s s' := by
  unfold stopStep at h
  split at h
  next hs => cases h; exact .call hs
  next hs =>
    split_ifs at h with ha
    · cases h; exact .leave hs ha
    · cases h; exact .push hs ha
  next hs =>
    split_ifs at h with hl
    cases h
    obtain ⟨w, hw⟩ := Option.isSome_iff_exists.mp hl
    exact .wake hs hw
  next hs => cases h; exact .erase hs
  next hs => cases h; exact .reset hs
  next hs =>
    split_ifs at h with hw
    cases h
    exact .join hs hw
  next hs => cases h; exact .drain hs
  next => cases h

/-- Every step is one of the moves. -/
theorem moves_of_step {s s' : State ω} {a : Act ω} (h : step s a = some s') : Moves s s' := by
  cases a with
  | execute =>
    simp only [step] at h
    split_ifs at h with hj
    cases h
    exact .execute (by simpa using hj)
  | take w =>
    simp only [step] at h
    split at h
    next hw hq => cases h; exact .take hw hq
    next => cases h
  | spawn w =>
    simp only [step] at h
    split at h
    next hw => cases h; exact .spawn hw
    next => cases h
  | finish w r =>
    simp only [step] at h
    split at h
    next hw =>
      split_ifs at h with hr
      cases h
      exact .finish hw hr
    next => cases h
  | ack w =>
    simp only [step] at h
    split at h
    next hw => cases h; exact .ack hw
    next => cases h
  | settle w =>
    simp only [step] at h
    split at h
    next e r hw =>
      cases r with
      | resume => cases h; exact .resume hw
      | awaiting => cases h; exact .release hw rfl
      | done => cases h; exact .release hw rfl
      | shutdown => cases h; exact .exit hw
    next => cases h
  | stop => exact moves_of_stopStep h

/-- The executor as a system: it starts with an empty queue and its workers waiting. -/
def system (ω : Type*) [DecidableEq ω] [Fintype ω] : System (State ω) (Act ω) where
  Init s := s = {}
  step := step

/-- What holds at the start and is kept by every move holds of every state reached. -/
theorem Reachable.of_moves {I : State ω → Prop} (init : I {})
    (moves : ∀ s s', I s → Moves s s' → I s') {s : State ω} (h : (system ω).Reachable s) : I s := by
  refine h.invariant ?_ ?_
  · rintro s rfl
    exact init
  · intro s a s' hI hs
    exact moves s s' hI (moves_of_step hs)

end ActorsFramework.Executor
