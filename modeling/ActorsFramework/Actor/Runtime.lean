import ActorsFramework.Actor.Ensemble
import ActorsFramework.Executor.Accounting
import Mathlib.Data.List.ReduceOption

/-!
# The whole of it

Actors, the threads that send to them, the workers of one `work_sharing` executor and the
thread that calls its `stop`. An entry of the job queue is an actor or `stop`'s
`shutdown_helper`; a worker takes the first entry, whichever it is. What a thread does to an
actor is a step of `ActorsFramework.Actor.Ensemble`; the drain at the end of `stop` releases
the actors that are left in the queue, one access at a time.

* `simulation` — with jobs for actors, this is the executor of
  `ActorsFramework.Executor.WorkSharing`, of which it is known how `stop` and the workers
  get along.
* `base_run` — without the helpers it is the ensemble, until the workers are joined.
* `runtime_refines` — both, and what becomes of each actor that is handed to the executor.

As there, nothing is handed to the executor once its workers have been joined, although
`executor_t::execute` does not look: runs in which some thread does it are not among these, and
what is pushed then may stay in the queue when `stop` has returned.
-/

namespace ActorsFramework.Scheduling

open Lib
open Actor (CooperativeActor)
open Executor (StopPc)

/-- Where a worker is with `shutdown_helper`. -/
inductive HelperPc where
  /-- It has not taken it. -/
  | outside
  /-- Before the critical section of its `run`. -/
  | running
  /-- `run` has returned `shutdown`. -/
  | returned
  /-- The thread has ended. -/
  | exited
  deriving DecidableEq

/-- The actors, the executor with its workers `ω`, the other threads `υ`, and the history of what
was in the job queue. -/
structure Runtime (ι ω υ α : Type*) where
  /-- The actors. -/
  actor : ι → CooperativeActor α := fun _ => {}
  /-- `queue` of the executor, its front first: actors, and `shutdown_helper`. -/
  queue : List (Option ι) := []
  /-- Where the threads are with the actors. -/
  thread : ω ⊕ υ → Task ι α := fun _ => {}
  /-- Where the workers are with `shutdown_helper`. -/
  helper : ω → HelperPc := fun _ => .outside
  /-- The stopping thread. -/
  stop : StopPc := .notCalled
  /-- `alive_workers`. -/
  alive : Finset ω := ∅
  /-- `sh.last_worker`. -/
  lastWorker : Option ω := none
  /-- The actor that the drain is releasing, and where it is with that. -/
  drained : Option (ι × WorkPc α) := none
  /-- The actors handed to the executor, in order. -/
  scheduled : List ι := []
  /-- The actors taken by a worker, in order. -/
  entered : List ι := []
  /-- The actors taken by the drain, in order. -/
  discarded : List ι := []

/-- The actions of the threads. -/
inductive RuntimeAct (ι ω υ α : Type*) where
  /-- A thread calls `enqueue_base` of an actor; a worker does so in a handler. -/
  | call (t : ω ⊕ υ) (i : ι) (m : α)
  /-- The next step of its call. -/
  | send (t : ω ⊕ υ)
  /-- A worker takes the first entry of the queue. -/
  | dequeue (w : ω)
  /-- The next step of a worker with an actor. -/
  | work (w : ω)
  /-- The critical section of `shutdown_helper::run`. -/
  | ack (w : ω)
  /-- `worker::run` returns. -/
  | exit (w : ω)
  /-- The next step of the stopping thread. -/
  | stop

namespace Runtime

variable {ι ω υ α : Type*}

/-- The actors and what the threads do with them, without the helpers. -/
def base (s : Runtime ι ω υ α) : Ensemble ι (ω ⊕ υ) α where
  actor := s.actor
  queue := s.queue.reduceOption
  thread := s.thread

/-- A step with the actors. -/
def withBase (s : Runtime ι ω υ α) (b : Ensemble ι (ω ⊕ υ) α) : Runtime ι ω υ α :=
  { s with actor := b.actor, thread := b.thread }

/-- A thread outside may call `enqueue_base` at any time, a worker where it runs an actor. -/
def mayCall (s : Runtime ι ω υ α) : ω ⊕ υ → Bool
  | .inl w => (s.thread (.inl w)).work.isSome
  | .inr _ => true

section Step

variable [DecidableEq ι] [DecidableEq ω] [DecidableEq υ] [DecidableEq α] [Fintype ω]

/-- The next step of the drain: `foreach_central_resumable` pops an entry, and
`cleanup_and_release` releases it. -/
def drainStep (maxThroughput : ℕ) (s : Runtime ι ω υ α) : Option (Runtime ι ω υ α) :=
  match s.drained, s.queue with
  | some (i, pc), _ =>
    (workStep maxThroughput (s.base.shared i) pc).map fun r =>
      { s with actor := Function.update s.actor i r.1.toCooperativeActor, drained := placed .idle i r.2 }
  | none, some i :: queue =>
    some { s with queue, drained := some (i, .store), discarded := s.discarded ++ [i] }
  | none, none :: queue => some { s with queue }
  | none, [] => some { s with stop := .returned }

/-- The next step of `executor_t::stop`. -/
def stopStep (maxThroughput : ℕ) (s : Runtime ι ω υ α) : Option (Runtime ι ω υ α) :=
  match s.stop with
  | .notCalled => some { s with stop := .head, alive := Finset.univ }
  | .head =>
    if s.alive = ∅ then some { s with stop := .join }
    else some { s with queue := s.queue ++ [none], stop := .wait }
  | .wait => if s.lastWorker.isSome then some { s with stop := .erase } else none
  | .erase => some { s with stop := .reset, alive := s.alive \ s.lastWorker.toFinset }
  | .reset => some { s with stop := .head, lastWorker := none }
  | .join => if ∀ w, s.helper w = .exited then some { s with stop := .drain } else none
  | .drain => s.drainStep maxThroughput
  | .returned => none

/-- The step function. A thread at `execute` has no step once the workers are joined: that nobody
comes so far then is what is assumed. -/
def step (maxThroughput : ℕ) (s : Runtime ι ω υ α) : RuntimeAct ι ω υ α → Option (Runtime ι ω υ α)
  | .call t i m =>
    if s.mayCall t then (s.base.step maxThroughput (.call t i m)).map s.withBase else none
  | .send t =>
    match (s.thread t).send with
    | some (i, .execute) =>
      if s.stop.joined then none
      else (s.base.step maxThroughput (.send t)).map fun b =>
        { s.withBase b with queue := s.queue ++ [some i], scheduled := s.scheduled ++ [i] }
    | _ => (s.base.step maxThroughput (.send t)).map s.withBase
  | .dequeue w =>
    match s.helper w, s.queue with
    | .outside, some i :: queue =>
      (s.base.step maxThroughput (.dequeue (.inl w))).map fun b =>
        { s.withBase b with queue, entered := s.entered ++ [i] }
    | .outside, none :: queue =>
      if (s.thread (.inl w)).send.isNone ∧ (s.thread (.inl w)).work.isNone then
        some { s with queue, helper := Function.update s.helper w .running }
      else none
    | _, _ => none
  | .work w => (s.base.step maxThroughput (.work (.inl w))).map s.withBase
  | .ack w =>
    match s.helper w with
    | .running =>
      some { s with helper := Function.update s.helper w .returned, lastWorker := some w }
    | _ => none
  | .exit w =>
    match s.helper w with
    | .returned => some { s with helper := Function.update s.helper w .exited }
    | _ => none
  | .stop => s.stopStep maxThroughput

/-- What a step does: one case for each kind of step. -/
inductive Moves (maxThroughput : ℕ) (s : Runtime ι ω υ α) :
    RuntimeAct ι ω υ α → Runtime ι ω υ α → Prop where
  /-- A call of `enqueue_base`. -/
  | call {t : ω ⊕ υ} {i : ι} {m : α} {b : Ensemble ι (ω ⊕ υ) α} : s.mayCall t = true →
      s.base.step maxThroughput (.call t i m) = some b → Moves maxThroughput s (.call t i m) (s.withBase b)
  /-- An actor is handed to the executor. -/
  | execute {t : ω ⊕ υ} {i : ι} {b : Ensemble ι (ω ⊕ υ) α} : (s.thread t).send = some (i, .execute) →
      s.stop.joined = false → s.base.step maxThroughput (.send t) = some b →
      Moves maxThroughput s (.send t)
        { s.withBase b with queue := s.queue ++ [some i], scheduled := s.scheduled ++ [i] }
  /-- Any other step of a call. -/
  | send {t : ω ⊕ υ} {b : Ensemble ι (ω ⊕ υ) α} : (∀ i, (s.thread t).send ≠ some (i, .execute)) →
      s.base.step maxThroughput (.send t) = some b → Moves maxThroughput s (.send t) (s.withBase b)
  /-- A worker takes an actor and enters its `run`. -/
  | enter {w : ω} {i : ι} {queue : List (Option ι)} {b : Ensemble ι (ω ⊕ υ) α} :
      s.helper w = .outside → s.queue = some i :: queue →
      s.base.step maxThroughput (.dequeue (.inl w)) = some b →
      Moves maxThroughput s (.dequeue w) { s.withBase b with queue, entered := s.entered ++ [i] }
  /-- A worker takes the helper. -/
  | takeHelper {w : ω} {queue : List (Option ι)} : s.helper w = .outside → s.queue = none :: queue →
      (s.thread (.inl w)).send = none → (s.thread (.inl w)).work = none →
      Moves maxThroughput s (.dequeue w)
        { s with queue, helper := Function.update s.helper w .running }
  /-- A worker goes on with its actor. -/
  | work {w : ω} {b : Ensemble ι (ω ⊕ υ) α} : s.base.step maxThroughput (.work (.inl w)) = some b →
      Moves maxThroughput s (.work w) (s.withBase b)
  /-- The helper runs. -/
  | ack {w : ω} : s.helper w = .running →
      Moves maxThroughput s (.ack w)
        { s with helper := Function.update s.helper w .returned, lastWorker := some w }
  /-- A worker's thread ends. -/
  | exit {w : ω} : s.helper w = .returned →
      Moves maxThroughput s (.exit w) { s with helper := Function.update s.helper w .exited }
  /-- A step of the stopping thread. -/
  | stop {s' : Runtime ι ω υ α} : s.stopStep maxThroughput = some s' → Moves maxThroughput s .stop s'

/-- Every step is one of the moves. -/
theorem moves_of_step {maxThroughput : ℕ} {s s' : Runtime ι ω υ α} {a : RuntimeAct ι ω υ α}
    (h : s.step maxThroughput a = some s') : Moves maxThroughput s a s' := by
  cases a with
  | call t i m =>
    simp only [step] at h
    split_ifs at h with hmay
    obtain ⟨b, hb, rfl⟩ := Option.map_eq_some_iff.mp h
    exact .call hmay hb
  | send t =>
    simp only [step] at h
    split at h
    next i hi =>
      split_ifs at h with hj
      obtain ⟨b, hb, rfl⟩ := Option.map_eq_some_iff.mp h
      exact .execute hi (by simpa using hj) hb
    next hne =>
      obtain ⟨b, hb, rfl⟩ := Option.map_eq_some_iff.mp h
      exact .send hne hb
  | dequeue w =>
    simp only [step] at h
    split at h
    next i queue hh hq =>
      obtain ⟨b, hb, rfl⟩ := Option.map_eq_some_iff.mp h
      exact .enter hh hq hb
    next queue hh hq =>
      split_ifs at h with hn
      cases h
      exact .takeHelper hh hq (by simpa using hn.1) (by simpa using hn.2)
    next => cases h
  | work w =>
    obtain ⟨b, hb, rfl⟩ := Option.map_eq_some_iff.mp h
    exact .work hb
  | ack w =>
    simp only [step] at h
    split at h
    next hh => cases h; exact .ack hh
    next => cases h
  | exit w =>
    simp only [step] at h
    split at h
    next hh => cases h; exact .exit hh
    next => cases h
  | stop => exact .stop h

omit [DecidableEq υ] in
/-- What a step of `stop` before the drain changes: variables of its own, and it may push the
helper. -/
theorem stopStep_cases {maxThroughput : ℕ} {s s' : Runtime ι ω υ α} (hd : s.stop ≠ .drain)
    (h : s.stopStep maxThroughput = some s') : s.stop.joined = false ∧
      ∃ queue stop alive lastWorker, (queue = s.queue ∨ queue = s.queue ++ [none]) ∧
        s' = { s with queue, stop, alive, lastWorker } := by
  unfold stopStep at h
  split at h
  next hs =>
    cases h
    exact ⟨by rw [hs]; rfl, _, _, _, _, .inl rfl, rfl⟩
  next hs =>
    split_ifs at h
    · cases h
      exact ⟨by rw [hs]; rfl, _, _, _, _, .inl rfl, rfl⟩
    · cases h
      exact ⟨by rw [hs]; rfl, _, _, _, _, .inr rfl, rfl⟩
  next hs =>
    split_ifs at h
    cases h
    exact ⟨by rw [hs]; rfl, _, _, _, _, .inl rfl, rfl⟩
  next hs =>
    cases h
    exact ⟨by rw [hs]; rfl, _, _, _, _, .inl rfl, rfl⟩
  next hs =>
    cases h
    exact ⟨by rw [hs]; rfl, _, _, _, _, .inl rfl, rfl⟩
  next hs =>
    split_ifs at h
    cases h
    exact ⟨by rw [hs]; rfl, _, _, _, _, .inl rfl, rfl⟩
  next hs => exact absurd hs hd
  next => cases h

omit [DecidableEq ω] [DecidableEq υ] [Fintype ω] in
/-- The drain stays where it is until it is over. -/
theorem joined_drainStep {maxThroughput : ℕ} {s s' : Runtime ι ω υ α} (hd : s.stop = .drain)
    (h : s.drainStep maxThroughput = some s') : s'.stop.joined = true := by
  have hj : s.stop.joined = true := by
    rw [hd]
    rfl
  unfold drainStep at h
  split at h
  next =>
    obtain ⟨r, -, rfl⟩ := Option.map_eq_some_iff.mp h
    exact hj
  next => cases h; exact hj
  next => cases h; exact hj
  next => cases h; rfl

/-- All of it as a system: it starts with the actors as they are made, the queue empty and the
workers waiting. -/
def system (ι ω υ α : Type*) [DecidableEq ι] [DecidableEq ω] [DecidableEq υ] [DecidableEq α] [Fintype ω]
    (maxThroughput : ℕ) : System (Runtime ι ω υ α) (RuntimeAct ι ω υ α) where
  Init s := s = {}
  step := step maxThroughput

end Step

/-! ### As an executor -/

section Executor

/-- The job that an entry of the queue is: each time an actor is handed to the executor begins an
activation. -/
inductive Points (scheduled : List ι) : Option ι → Executor.Task → Prop where
  /-- An actor. -/
  | actor {i : ι} {j : ℕ} : scheduled[j]? = some i → Points scheduled (some i) (.job j)
  /-- `shutdown_helper`. -/
  | helper : Points scheduled none .shutdown

/-- Where a worker of the executor is. -/
inductive Holds (scheduled : List ι) : Option (ι × WorkPc α) → HelperPc → Executor.WorkerPc → Prop where
  /-- It waits. -/
  | dequeue : Holds scheduled none .outside .dequeue
  /-- It runs an actor. -/
  | running {i : ι} {pc : WorkPc α} {n j : ℕ} : pc.inRun = true → scheduled[j]? = some i →
      Holds scheduled (some (i, pc)) .outside (.running ⟨n, .job j⟩)
  /-- It releases an actor. -/
  | released {i : ι} {pc : WorkPc α} {n j : ℕ} : pc.inRun = false → scheduled[j]? = some i →
      Holds scheduled (some (i, pc)) .outside (.returned ⟨n, .job j⟩ .awaiting)
  /-- It runs the helper. -/
  | helper {n : ℕ} : Holds scheduled none .running (.running ⟨n, .shutdown⟩)
  /-- It has run the helper. -/
  | shutdown {n : ℕ} : Holds scheduled none .returned (.returned ⟨n, .shutdown⟩ .shutdown)
  /-- It has ended. -/
  | exited : Holds scheduled none .exited .exited

/-- The executor that this is. Its drain is one step, which is taken when the last entry has been
released. -/
structure Matches (s : Runtime ι ω υ α) (e : Executor.State ω) : Prop where
  /-- The activations are numbered. -/
  activations : e.activations = s.scheduled.length
  /-- The queue, with what the drain has popped. -/
  queue : ∃ popped, List.Forall₂ (fun x y => Points s.scheduled x y.task) (popped ++ s.queue) e.queue ∧
    (s.stop ≠ .drain → popped = [])
  /-- The workers. -/
  worker : ∀ w, Holds s.scheduled (s.thread (.inl w)).work (s.helper w) (e.worker w)
  /-- The stopping thread. -/
  stop : e.stop = s.stop
  /-- `alive_workers`. -/
  alive : e.alive = s.alive
  /-- `sh.last_worker`. -/
  lastWorker : e.lastWorker = s.lastWorker
  /-- Nothing is drained before. -/
  drained : s.drained ≠ none → s.stop = .drain
  /-- The workers that were joined have ended. -/
  joined : s.stop.joined = true → ∀ w, s.helper w = .exited

theorem Points.concat {scheduled : List ι} {x : Option ι} {t : Executor.Task} (h : Points scheduled x t)
    (i : ι) : Points (scheduled ++ [i]) x t := by
  cases h with
  | actor h => exact .actor (List.getElem?_append_left (List.getElem?_eq_some_iff.mp h).1 ▸ h)
  | helper => exact .helper

theorem Holds.concat {scheduled : List ι} {work : Option (ι × WorkPc α)} {helper : HelperPc}
    {pc : Executor.WorkerPc} (h : Holds scheduled work helper pc) (i : ι) :
    Holds (scheduled ++ [i]) work helper pc := by
  have hget : ∀ {j : ℕ} {k : ι}, scheduled[j]? = some k → (scheduled ++ [i])[j]? = some k := by
    intro j k h
    rw [List.getElem?_append_left (List.getElem?_eq_some_iff.mp h).1]
    exact h
  cases h with
  | dequeue => exact .dequeue
  | running hin h => exact .running hin (hget h)
  | released hin h => exact .released hin (hget h)
  | helper => exact .helper
  | shutdown => exact .shutdown
  | exited => exact .exited

section Matches

variable {s : Runtime ι ω υ α} {e : Executor.State ω}

/-- A step with an actor, and the executor's workers after it. -/
theorem Matches.keepWorker (h : Matches s e) {e' : Executor.State ω} {b : Ensemble ι (ω ⊕ υ) α}
    (hb : ∀ w, Holds s.scheduled (b.thread (.inl w)).work (s.helper w) (e'.worker w))
    (ha : e'.activations = e.activations) (hq : e'.queue = e.queue)
    (hst : e'.stop = e.stop) (hal : e'.alive = e.alive)
    (hlw : e'.lastWorker = e.lastWorker) : Matches (s.withBase b) e' where
  activations := ha.trans h.activations
  queue := by rw [hq]; exact h.queue
  worker := hb
  stop := hst.trans h.stop
  alive := hal.trans h.alive
  lastWorker := hlw.trans h.lastWorker
  drained := h.drained
  joined := h.joined

/-- A step of a thread that leaves its job where it is. -/
theorem Matches.frame (h : Matches s e) {b : Ensemble ι (ω ⊕ υ) α}
    (hb : ∀ w, (b.thread (.inl w)).work = (s.thread (.inl w)).work) : Matches (s.withBase b) e := by
  refine h.keepWorker ?_ rfl rfl rfl rfl rfl
  intro w
  rw [hb]
  exact h.worker w

/-- A worker that waits. -/
theorem Matches.dequeue (h : Matches s e) {w : ω} (hw : (s.thread (.inl w)).work = none)
    (hh : s.helper w = .outside) : e.worker w = .dequeue := by
  have hholds := h.worker w
  rw [hw, hh] at hholds
  generalize e.worker w = pc at hholds
  cases hholds
  rfl

/-- A worker that has ended. -/
theorem Matches.exited (h : Matches s e) {w : ω} (hh : s.helper w = .exited) : e.worker w = .exited := by
  have hholds := h.worker w
  rw [hh] at hholds
  generalize (s.thread (.inl w)).work = work at hholds
  generalize e.worker w = pc at hholds
  cases hholds
  rfl

variable [DecidableEq ι] [DecidableEq ω] [DecidableEq υ] [DecidableEq α]

theorem work_sent (s : Runtime ι ω υ α) (t u : ω ⊕ υ) (i : ι) (c : CooperativeActor α) (pc : SendPc α) :
    ((s.base.sent t i c pc).thread u).work = (s.thread u).work := by
  by_cases hu : u = t
  · subst hu
    simp [Ensemble.sent, base]
  · simp [Ensemble.sent, base, hu]

theorem work_worked_self (s : Runtime ι ω υ α) (t : ω ⊕ υ) (i : ι) (c : CooperativeActor α)
    (pc : WorkPc α) : ((s.base.worked t i c pc).thread t).work = placed .idle i pc := by
  simp [Ensemble.worked]

theorem work_worked_of_ne (s : Runtime ι ω υ α) {t u : ω ⊕ υ} (hu : u ≠ t) (i : ι)
    (c : CooperativeActor α) (pc : WorkPc α) :
    ((s.base.worked t i c pc).thread u).work = (s.thread u).work := by
  simp [Ensemble.worked, base, hu]

omit [DecidableEq ι] in
theorem placed_of_inRun {i : ι} {pc : WorkPc α} (h : pc.inRun = true) :
    placed .idle i pc = some (i, pc) := by
  refine if_neg ?_
  rintro rfl
  cases h

/-- A worker's step: inside `run`, out of it, in the release, or to the end of that. -/
theorem place_workStep {maxThroughput : ℕ} {c : Shared α} {pc : WorkPc α} {r : Shared α × WorkPc α}
    (h : workStep maxThroughput c pc = some r) :
    pc.inRun = true ∧ (r.2.inRun = true ∨ r.2 = .store) ∨
      pc.inRun = false ∧ r.2.inRun = false := by
  unfold workStep at h
  split at h
  next => cases h; exact .inr ⟨rfl, rfl⟩
  next => cases h; exact .inr ⟨rfl, rfl⟩
  next => cases h; exact .inr ⟨rfl, rfl⟩
  next =>
    obtain ⟨r', hr, rfl⟩ := Option.map_eq_some_iff.mp h
    have hm := runMoves_of_runStep hr
    exact .inl ⟨hm.inRun, hm.stays⟩

/-- An actor is handed to the executor. -/
theorem Matches.execute (h : Matches s e) (t : ω ⊕ υ) (i : ι) (c : CooperativeActor α) (pc : SendPc α) :
    Matches { s.withBase (s.base.sent t i c pc) with
      queue := s.queue ++ [some i], scheduled := s.scheduled ++ [i] } e.execute where
  activations := by
    simp [Executor.State.execute, Executor.State.enqueue, h.activations]
  queue := by
    obtain ⟨popped, hq, hp⟩ := h.queue
    refine ⟨popped, ?_, hp⟩
    rw [← List.append_assoc]
    refine List.rel_append (hq.imp fun _ _ hx => hx.concat i) (.cons (.actor ?_) .nil)
    rw [h.activations, List.getElem?_concat_length]
  worker w := by
    change Holds _ ((s.base.sent t i c pc).thread (.inl w)).work _ _
    rw [work_sent]
    exact (h.worker w).concat i
  stop := h.stop
  alive := h.alive
  lastWorker := h.lastWorker
  drained := h.drained
  joined := h.joined

omit [DecidableEq ι] [DecidableEq υ] [DecidableEq α] in
/-- One worker's step. -/
theorem Matches.holds_update (h : Matches s e) {w : ω} {thread : ω ⊕ υ → Task ι α} {helper : ω → HelperPc}
    {pc : Executor.WorkerPc}
    (hothers : ∀ u, u ≠ w →
      (thread (.inl u)).work = (s.thread (.inl u)).work ∧ helper u = s.helper u)
    (hself : Holds s.scheduled (thread (.inl w)).work (helper w) pc) (u : ω) :
    Holds s.scheduled (thread (.inl u)).work (helper u) (Function.update e.worker w pc u) := by
  by_cases hu : u = w
  · subst hu
    rw [Function.update_self]
    exact hself
  · obtain ⟨hwork, hhelper⟩ := hothers u hu
    rw [Function.update_of_ne hu, hwork, hhelper]
    exact h.worker u

omit [DecidableEq ι] [DecidableEq υ] [DecidableEq α] in
/-- A worker that has yet to end moves on. -/
theorem Matches.joined_update (h : Matches s e) {w : ω} (hw : s.helper w ≠ .exited) {hpc : HelperPc}
    (hj : s.stop.joined = true) (u : ω) : Function.update s.helper w hpc u = .exited :=
  absurd (h.joined hj w) hw

omit [DecidableEq ι] [DecidableEq ω] [DecidableEq υ] [DecidableEq α] in
/-- The first entry, where a worker has yet to end. -/
theorem Matches.head (h : Matches s e) {w : ω} (hw : s.helper w ≠ .exited) {x : Option ι}
    {queue : List (Option ι)} (hq : s.queue = x :: queue) :
    ∃ y q, e.queue = y :: q ∧ Points s.scheduled x y.task ∧
      List.Forall₂ (fun x y => Points s.scheduled x y.task) queue q := by
  obtain ⟨popped, hf, hp⟩ := h.queue
  have hne : s.stop ≠ .drain := by
    intro hd
    exact hw (h.joined (by rw [hd]; rfl) w)
  rw [hp hne, hq, List.nil_append] at hf
  obtain ⟨y, q, hx, hrest, he⟩ := List.forall₂_cons_left_iff.mp hf
  exact ⟨y, q, he, hx, hrest⟩

section Worker

variable [Fintype ω] {maxThroughput : ℕ}

/-- A worker takes an actor. -/
theorem Matches.enter (h : Matches s e) {w : ω} {i : ι} {queue : List (Option ι)} {pc : WorkPc α}
    (hpc : pc.inRun = true) (hw : (s.thread (.inl w)).work = none) (hh : s.helper w = .outside)
    (hq : s.queue = some i :: queue) (c : CooperativeActor α) (entered : List ι) :
    ∃ b e', Executor.step e b = some e' ∧
      Matches { s.withBase (s.base.worked (.inl w) i c pc) with queue, entered } e' := by
  obtain ⟨⟨n, t⟩, q, he, hx, hrest⟩ := h.head (by rw [hh]; simp) hq
  have hd := h.dequeue hw hh
  cases hx with
  | @actor _ j hj =>
    refine ⟨.take w, _, by rw [Executor.step, hd, he], ?_⟩
    constructor
    · exact h.activations
    · exact ⟨[], hrest, fun _ => rfl⟩
    · refine h.holds_update ?_ ?_
      · intro u hu
        exact ⟨work_worked_of_ne s (by simpa using hu) i c pc, rfl⟩
      change Holds s.scheduled ((s.base.worked (.inl w) i c pc).thread (.inl w)).work (s.helper w) _
      rw [work_worked_self, hh, placed_of_inRun hpc]
      exact .running hpc hj
    · exact h.stop
    · exact h.alive
    · exact h.lastWorker
    · exact h.drained
    · exact h.joined

omit [DecidableEq ι] [DecidableEq υ] [DecidableEq α] in
/-- A worker takes the helper. -/
theorem Matches.takeHelper (h : Matches s e) {w : ω} {queue : List (Option ι)}
    (hw : (s.thread (.inl w)).work = none) (hh : s.helper w = .outside) (hq : s.queue = none :: queue) :
    ∃ b e', Executor.step e b = some e' ∧
      Matches { s with queue, helper := Function.update s.helper w .running } e' := by
  obtain ⟨⟨n, t⟩, q, he, hx, hrest⟩ := h.head (by rw [hh]; simp) hq
  have hd := h.dequeue hw hh
  cases hx with
  | helper =>
    refine ⟨.take w, _, by rw [Executor.step, hd, he], ?_⟩
    constructor
    · exact h.activations
    · exact ⟨[], hrest, fun _ => rfl⟩
    · refine h.holds_update ?_ ?_
      · intro u hu
        exact ⟨rfl, Function.update_of_ne hu _ _⟩
      change Holds s.scheduled _ (Function.update s.helper w _ w) _
      rw [hw, Function.update_self]
      exact .helper
    · exact h.stop
    · exact h.alive
    · exact h.lastWorker
    · exact h.drained
    · exact h.joined_update (by rw [hh]; simp)

/-- A worker's step with its actor: the end of `run` and that of the release are steps of the
executor. -/
theorem Matches.work (h : Matches s e) {w : ω} {i : ι} {pc : WorkPc α}
    (hw : (s.thread (.inl w)).work = some (i, pc)) {c : Shared α} {r : Shared α × WorkPc α}
    (hr : workStep maxThroughput c pc = some r) :
    Matches (s.withBase (s.base.worked (.inl w) i r.1.toCooperativeActor r.2)) e ∨
      ∃ b e', Executor.step e b = some e' ∧
        Matches (s.withBase (s.base.worked (.inl w) i r.1.toCooperativeActor r.2)) e' := by
  have hothers : ∀ u, u ≠ w →
      ((s.base.worked (.inl w) i r.1.toCooperativeActor r.2).thread (.inl u)).work =
        (s.thread (.inl u)).work ∧ s.helper u = s.helper u := by
    intro u hu
    exact ⟨work_worked_of_ne s (by simpa using hu) i _ _, rfl⟩
  have hself := work_worked_self s (.inl w) i r.1.toCooperativeActor r.2
  have hholds := h.worker w
  rw [hw] at hholds
  generalize he : e.worker w = wpc at hholds
  generalize hh : s.helper w = hpc at hholds
  cases hholds with
  | @running _ _ n j hin hj =>
    rcases place_workStep hr with ⟨-, hin' | hst⟩ | ⟨hout, -⟩
    · -- inside `run`
      refine .inl (h.keepWorker ?_ rfl rfl rfl rfl rfl)
      intro u
      rw [← Function.update_eq_self w e.worker]
      refine h.holds_update hothers ?_ u
      rw [hself, placed_of_inRun hin', hh, he]
      exact .running hin' hj
    · -- `run` returns
      refine .inr ⟨.finish w .awaiting, e.setWorker w (.returned ⟨n, .job j⟩ .awaiting),
        by rw [Executor.step, he]; rfl, h.keepWorker (h.holds_update hothers ?_) rfl rfl rfl rfl rfl⟩
      rw [hself, hst, hh]
      exact .released rfl hj
    · rw [hin] at hout
      cases hout
  | @released _ _ n j hout hj =>
    rcases place_workStep hr with ⟨hin, -⟩ | ⟨-, hout'⟩
    · rw [hin] at hout
      cases hout
    by_cases hidle : r.2 = .idle
    · -- the reference is dropped
      refine .inr ⟨.settle w, _, by rw [Executor.step, he]; rfl, ?_⟩
      refine h.keepWorker (h.holds_update hothers ?_) rfl rfl rfl rfl rfl
      rw [hself, hidle, hh]
      exact .dequeue
    · refine .inl (h.keepWorker ?_ rfl rfl rfl rfl rfl)
      intro u
      rw [← Function.update_eq_self w e.worker]
      refine h.holds_update hothers ?_ u
      rw [hself, placed, if_neg hidle, hh, he]
      exact .released hout' hj

omit [DecidableEq ι] [DecidableEq υ] [DecidableEq α] in
/-- `shutdown_helper::run`. -/
theorem Matches.ack (h : Matches s e) {w : ω} (hh : s.helper w = .running) :
    ∃ b e', Executor.step e b = some e' ∧
      Matches { s with helper := Function.update s.helper w .returned, lastWorker := some w } e' := by
  obtain ⟨n, hw, he⟩ : ∃ n, (s.thread (.inl w)).work = none ∧ e.worker w = .running ⟨n, .shutdown⟩ := by
    have hholds := h.worker w
    rw [hh] at hholds
    generalize (s.thread (.inl w)).work = work at hholds
    generalize e.worker w = pc at hholds
    cases hholds
    exact ⟨_, rfl, rfl⟩
  refine ⟨.ack w, _, by rw [Executor.step, he], ?_⟩
  constructor
  · exact h.activations
  · exact h.queue
  · refine h.holds_update ?_ ?_
    · intro u hu
      exact ⟨rfl, Function.update_of_ne hu _ _⟩
    change Holds s.scheduled _ (Function.update s.helper w _ w) _
    rw [hw, Function.update_self]
    exact .shutdown
  · exact h.stop
  · exact h.alive
  · rfl
  · exact h.drained
  · exact h.joined_update (by rw [hh]; simp)

omit [DecidableEq ι] [DecidableEq υ] [DecidableEq α] in
/-- A worker ends. -/
theorem Matches.exit (h : Matches s e) {w : ω} (hh : s.helper w = .returned) :
    ∃ b e', Executor.step e b = some e' ∧
      Matches { s with helper := Function.update s.helper w .exited } e' := by
  obtain ⟨n, hw, he⟩ : ∃ n, (s.thread (.inl w)).work = none ∧
      e.worker w = .returned ⟨n, .shutdown⟩ .shutdown := by
    have hholds := h.worker w
    rw [hh] at hholds
    generalize (s.thread (.inl w)).work = work at hholds
    generalize e.worker w = pc at hholds
    cases hholds
    exact ⟨_, rfl, rfl⟩
  refine ⟨.settle w, _, by rw [Executor.step, he]; rfl, ?_⟩
  constructor
  · exact h.activations
  · exact h.queue
  · refine h.holds_update ?_ ?_
    · intro u hu
      exact ⟨rfl, Function.update_of_ne hu _ _⟩
    change Holds s.scheduled _ (Function.update s.helper w _ w) _
    rw [hw, Function.update_self]
    exact .exited
  · exact h.stop
  · exact h.alive
  · exact h.lastWorker
  · exact h.drained
  · exact h.joined_update (by rw [hh]; simp)

/-! #### `stop` -/

omit [DecidableEq ι] [DecidableEq ω] [DecidableEq υ] [DecidableEq α] [Fintype ω] in
theorem Matches.not_draining (h : Matches s e) (hs : s.stop ≠ .drain) : s.drained = none := by
  by_contra hd
  exact hs (h.drained hd)

omit [DecidableEq ι] [DecidableEq ω] [DecidableEq υ] [DecidableEq α] [Fintype ω] in
/-- The stopping thread moves on, before the drain. -/
theorem Matches.setStop (h : Matches s e) (hs : s.stop ≠ .drain) {stop : StopPc} {alive : Finset ω}
    {lastWorker : Option ω} {e' : Executor.State ω}
    (ha : e'.activations = e.activations) (hq : e'.queue = e.queue) (hw : e'.worker = e.worker)
    (hst : e'.stop = stop) (hal : e'.alive = alive) (hlw : e'.lastWorker = lastWorker)
    (hj : stop.joined = true → ∀ w, s.helper w = .exited) :
    Matches { s with stop, alive, lastWorker } e' where
  activations := ha.trans h.activations
  queue := by
    obtain ⟨popped, hf, hp⟩ := h.queue
    rw [hq]
    exact ⟨popped, hf, fun _ => hp hs⟩
  worker := by
    rw [hw]
    exact h.worker
  stop := hst
  alive := hal
  lastWorker := hlw
  drained hd := absurd (h.not_draining hs) hd
  joined := hj

omit [DecidableEq υ] in
/-- **A step of the stopping thread** before the drain is the same step there, and pushes what
that pushes. -/
theorem Matches.stopStep (h : Matches s e) (hd : s.stop ≠ .drain) {s' : Runtime ι ω υ α}
    (hs : s.stopStep maxThroughput = some s') :
    ∃ e', Executor.step e .stop = some e' ∧ Matches s' e' ∧
      e'.queue.length + s.queue.length = e.queue.length + s'.queue.length := by
  change ∃ e', Executor.stopStep e = some e' ∧ _
  have hst := h.stop
  unfold Runtime.stopStep at hs
  unfold Executor.stopStep
  split at hs
  next hpc =>
    cases hs
    rw [hpc] at hst
    rw [hst]
    exact ⟨_, rfl, h.setStop hd rfl rfl rfl rfl rfl h.lastWorker (by simp [StopPc.joined]), rfl⟩
  next hpc =>
    rw [hpc] at hst
    rw [hst]
    split_ifs at hs with ha
    · cases hs
      exact ⟨_, if_pos (by rw [h.alive, ha]),
        h.setStop hd rfl rfl rfl rfl h.alive h.lastWorker (by simp [StopPc.joined]), rfl⟩
    · cases hs
      refine ⟨_, if_neg (by rw [h.alive]; exact ha), ?_, ?_⟩
      swap
      · simp only [Executor.State.enqueue, List.length_append, List.length_singleton]
        omega
      obtain ⟨popped, hf, hp⟩ := h.queue
      constructor
      · exact h.activations
      · refine ⟨popped, ?_, fun _ => hp hd⟩
        rw [← List.append_assoc]
        exact List.rel_append hf (.cons .helper .nil)
      · exact h.worker
      · rfl
      · exact h.alive
      · exact h.lastWorker
      · intro hne
        exact absurd (h.not_draining hd) hne
      · simp [StopPc.joined]
  next hpc =>
    rw [hpc] at hst
    rw [hst]
    split_ifs at hs with hl
    cases hs
    exact ⟨_, if_pos (by rw [h.lastWorker]; exact hl),
      h.setStop hd rfl rfl rfl rfl h.alive h.lastWorker (by simp [StopPc.joined]), rfl⟩
  next hpc =>
    cases hs
    rw [hpc] at hst
    rw [hst]
    exact ⟨_, rfl, h.setStop hd rfl rfl rfl rfl (by rw [h.alive, h.lastWorker]) h.lastWorker
      (by simp [StopPc.joined]), rfl⟩
  next hpc =>
    cases hs
    rw [hpc] at hst
    rw [hst]
    exact ⟨_, rfl, h.setStop hd rfl rfl rfl rfl h.alive rfl (by simp [StopPc.joined]), rfl⟩
  next hpc =>
    rw [hpc] at hst
    rw [hst]
    split_ifs at hs with hx
    cases hs
    refine ⟨_, if_pos fun w => ?_, h.setStop hd rfl rfl rfl rfl h.alive h.lastWorker fun _ => hx, rfl⟩
    exact h.exited (hx w)
  next hpc => exact absurd hpc hd
  next => cases hs

omit [DecidableEq υ] in
/-- **A step of the drain** is nothing there, until it is over. -/
theorem Matches.drainStep (h : Matches s e) (hd : s.stop = .drain) {s' : Runtime ι ω υ α}
    (hs : s.drainStep maxThroughput = some s') :
    Matches s' e ∨ ∃ e', Executor.step e .stop = some e' ∧ Matches s' e' := by
  obtain ⟨popped, hf, -⟩ := h.queue
  unfold Runtime.drainStep at hs
  split at hs
  next i pc hdr =>
    obtain ⟨r, -, rfl⟩ := Option.map_eq_some_iff.mp hs
    exact .inl ⟨h.activations, h.queue, h.worker, h.stop, h.alive, h.lastWorker, fun _ => hd, h.joined⟩
  next i queue hdr hq =>
    cases hs
    rw [hq, List.append_cons] at hf
    exact .inl ⟨h.activations, ⟨_, hf, fun hne => absurd hd hne⟩, h.worker, h.stop, h.alive, h.lastWorker,
      fun _ => hd, h.joined⟩
  next queue hdr hq =>
    cases hs
    rw [hq, List.append_cons] at hf
    exact .inl ⟨h.activations, ⟨_, hf, fun hne => absurd hd hne⟩, h.worker, h.stop, h.alive, h.lastWorker,
      fun _ => hd, h.joined⟩
  next hdr hq =>
    cases hs
    refine .inr ⟨{ e.drain e.queue with stop := .returned }, ?_, ?_⟩
    · change Executor.stopStep e = _
      rw [Executor.stopStep, h.stop, hd]
    · rw [e.drain_eq rfl]
      refine ⟨h.activations, ⟨[], ?_, fun _ => rfl⟩, h.worker, rfl, h.alive, h.lastWorker, ?_, ?_⟩
      · rw [hq]
        exact .nil
      · intro hne
        exact absurd hdr hne
      · intro _
        exact h.joined (by rw [hd]; rfl)

/-- **What a step is to the executor**: a step, or nothing. -/
theorem Matches.step (h : Matches s e) {a : RuntimeAct ι ω υ α} {s' : Runtime ι ω υ α}
    (hs : s.step maxThroughput a = some s') :
    Matches s' e ∨ ∃ b e', Executor.step e b = some e' ∧ Matches s' e' := by
  cases moves_of_step hs with
  | @call t i m b _ hb =>
    obtain ⟨-, rfl, -⟩ := Ensemble.call_view hb
    exact .inl (h.frame fun w => work_sent s t _ i _ _)
  | @execute t i b hi hj hb =>
    obtain ⟨i', pc, hi', ⟨rfl, rfl⟩ | ⟨hpc, -⟩⟩ := Ensemble.send_view hb
    · obtain ⟨rfl, -⟩ := Prod.mk.inj (Option.some.inj (hi.symm.trans hi'))
      refine .inr ⟨.execute, e.execute, ?_, h.execute t i _ _⟩
      rw [Executor.step, h.stop, if_neg (by rw [hj]; simp)]
    · exact absurd (Prod.mk.inj (Option.some.inj (hi'.symm.trans hi))).2 hpc
  | @send t b hne hb =>
    obtain ⟨i, pc, hi, ⟨rfl, -⟩ | ⟨-, r, -, rfl⟩⟩ := Ensemble.send_view hb
    · exact absurd hi (hne i)
    · exact .inl (h.frame fun w => work_sent s t _ i _ _)
  | @enter w i queue b hh hq hb =>
    obtain ⟨i', queue', ht, hq', rfl⟩ := Ensemble.dequeue_view hb
    have hcons : i :: queue.reduceOption = i' :: queue' := by
      rw [← hq', base, hq, List.reduceOption_cons_of_some]
    obtain ⟨rfl, -⟩ := List.cons.inj hcons
    refine .inr (h.enter (inRun_of_reading (reading_cacheHead _ _ _).1) ?_ hh hq _ _)
    change (s.base.thread (.inl w)).work = none
    rw [ht]
  | @takeHelper w queue hh hq _ hw => exact .inr (h.takeHelper hw hh hq)
  | @work w b hb =>
    obtain ⟨i, pc, r, ht, hr, rfl⟩ := Ensemble.work_view hb
    refine h.work ?_ hr
    change (s.base.thread (.inl w)).work = some (i, pc)
    rw [ht]
  | ack hh => exact .inr (h.ack hh)
  | exit hh => exact .inr (h.exit hh)
  | stop hs =>
    by_cases hd : s.stop = .drain
    · have hs' : s.drainStep maxThroughput = some s' := by
        rw [← hs, Runtime.stopStep, hd]
      rcases h.drainStep hd hs' with hm | ⟨e', he, hm⟩
      · exact .inl hm
      · exact .inr ⟨_, e', he, hm⟩
    · obtain ⟨e', he, hm, -⟩ := h.stopStep hd hs
      exact .inr ⟨_, e', he, hm⟩

/-- **The executor in it**: with the actors' jobs numbered as they are handed to it, each run is a
run of the executor. -/
theorem simulation (maxThroughput : ℕ) :
    Simulation (system ι ω υ α maxThroughput) (Executor.system ω) Matches where
  init := by
    rintro s rfl
    refine ⟨{}, rfl, rfl, ⟨[], .nil, fun _ => rfl⟩, fun _ => .dequeue, rfl, rfl, rfl, ?_, ?_⟩
    · intro h
      exact absurd rfl h
    · simp [StopPc.joined]
  step hm hs := hm.step hs

end Worker

end Matches

end Executor

/-! ### As an ensemble -/

section Base

variable [DecidableEq ι] [DecidableEq ω] [DecidableEq υ] [DecidableEq α] [Fintype ω]
  {maxThroughput : ℕ} {s s' : Runtime ι ω υ α} {a : RuntimeAct ι ω υ α}

/-- The action, where it is about actors. -/
def part (s : Runtime ι ω υ α) : RuntimeAct ι ω υ α → Option (EnsembleAct ι (ω ⊕ υ) α)
  | .call t i m => some (.call t i m)
  | .send t => some (.send t)
  | .dequeue w => if s.queue.head? = some none then none else some (.dequeue (.inl w))
  | .work w => some (.work (.inl w))
  | .ack _ | .exit _ | .stop => none

/-- The workers are still there. -/
def running (s : Runtime ι ω υ α) : Bool := !s.stop.joined

omit [DecidableEq υ] in
/-- Before the drain, `stop` touches no actor. -/
theorem base_stopStep (hd : s.stop ≠ .drain) (h : s.stopStep maxThroughput = some s') :
    s'.base = s.base := by
  obtain ⟨-, queue, stop, alive, lastWorker, hq, rfl⟩ := stopStep_cases hd h
  rcases hq with rfl | rfl
  · rfl
  · simp [base, List.reduceOption_append]

omit [DecidableEq υ] in
/-- As long as the workers are there, the drain has not begun. -/
theorem running_stopStep (h : s.stopStep maxThroughput = some s') (hr : s'.running = true) :
    s.stop ≠ .drain ∧ s.running = true := by
  have hd : s.stop ≠ .drain := by
    intro hd
    have hdrain : s.drainStep maxThroughput = some s' := by
      rw [← h, stopStep, hd]
    rw [running, joined_drainStep hd hdrain] at hr
    cases hr
  obtain ⟨hj, -⟩ := stopStep_cases hd h
  exact ⟨hd, by rw [running, hj]; rfl⟩

omit [DecidableEq ι] [DecidableEq ω] [DecidableEq υ] [DecidableEq α] [Fintype ω] in
theorem base_withBase (s : Runtime ι ω υ α) {b : Ensemble ι (ω ⊕ υ) α} (queue : List (Option ι))
    (hq : queue.reduceOption = b.queue) (scheduled entered : List ι) :
    base { s.withBase b with queue, scheduled, entered } = b := by
  obtain ⟨actor, q, thread⟩ := b
  obtain rfl : queue.reduceOption = q := hq
  rfl

/-- Only `stop` joins the workers. -/
theorem running_of_step (h : s.step maxThroughput a = some s') (hr : s'.running = true) :
    s.running = true := by
  cases moves_of_step h with
  | stop hs => exact (running_stopStep hs hr).2
  | _ => exact hr

/-- An action about actors is a step of the ensemble, -/
theorem base_step (h : s.step maxThroughput a = some s') {b : EnsembleAct ι (ω ⊕ υ) α}
    (hb : s.part a = some b) : s.base.step maxThroughput b = some s'.base := by
  cases moves_of_step h with
  | @call t i m b' _ hstep =>
    obtain rfl : EnsembleAct.call t i m = b := Option.some.inj hb
    have hq : b'.queue = s.base.queue := by
      obtain ⟨-, rfl, -⟩ := Ensemble.call_view hstep
      rfl
    exact hstep.trans (congrArg some (base_withBase s s.queue hq.symm _ _).symm)
  | @execute t i b' hi _ hstep =>
    obtain rfl : EnsembleAct.send t = b := Option.some.inj hb
    have hq : b'.queue = s.base.queue ++ [i] := by
      obtain ⟨i', pc, hi', ⟨-, rfl⟩ | ⟨hpc, -⟩⟩ := Ensemble.send_view hstep
      · obtain ⟨rfl, -⟩ := Prod.mk.inj (Option.some.inj (hi.symm.trans hi'))
        rfl
      · exact absurd (Prod.mk.inj (Option.some.inj (hi'.symm.trans hi))).2 hpc
    refine hstep.trans (congrArg some (base_withBase s _ ?_ _ _).symm)
    rw [hq, List.reduceOption_append]
    rfl
  | @send t b' hne hstep =>
    obtain rfl : EnsembleAct.send t = b := Option.some.inj hb
    have hq : b'.queue = s.base.queue := by
      obtain ⟨i, pc, hi, ⟨rfl, -⟩ | ⟨-, r, -, rfl⟩⟩ := Ensemble.send_view hstep
      · exact absurd hi (hne i)
      · rfl
    exact hstep.trans (congrArg some (base_withBase s s.queue hq.symm _ _).symm)
  | @enter w i queue b' _ hqueue hstep =>
    obtain rfl : EnsembleAct.dequeue (.inl w) = b := by
      simpa [part, hqueue] using hb
    have hq : queue.reduceOption = b'.queue := by
      obtain ⟨i', queue', -, hq', rfl⟩ := Ensemble.dequeue_view hstep
      have hcons : i :: queue.reduceOption = i' :: queue' := by
        rw [← hq', base, hqueue, List.reduceOption_cons_of_some]
      exact (List.cons.inj hcons).2
    exact hstep.trans (congrArg some (base_withBase s queue hq _ _).symm)
  | takeHelper _ hqueue => simp [part, hqueue] at hb
  | @work w b' hstep =>
    obtain rfl : EnsembleAct.work (.inl w) = b := Option.some.inj hb
    have hq : b'.queue = s.base.queue := by
      obtain ⟨i, pc, r, -, -, rfl⟩ := Ensemble.work_view hstep
      rfl
    exact hstep.trans (congrArg some (base_withBase s s.queue hq.symm _ _).symm)
  | ack => cases hb
  | exit => cases hb
  | stop => cases hb

/-- and any other, but those of `stop`, leaves it as it is. -/
theorem base_frame (h : s.step maxThroughput a = some s') (hn : s.part a = none) (ha : a ≠ .stop) :
    s'.base = s.base := by
  cases moves_of_step h with
  | call => cases hn
  | execute => cases hn
  | send => cases hn
  | enter _ hqueue => simp [part, hqueue] at hn
  | @takeHelper w queue _ hqueue =>
    simp [base, hqueue, List.reduceOption_cons_of_none]
  | work => cases hn
  | ack => rfl
  | exit => rfl
  | stop => exact absurd rfl ha

/-- Until the workers are joined, what is seen of a run is the ensemble. -/
theorem projection (maxThroughput : ℕ) :
    Projection ((system ι ω υ α maxThroughput).within running)
      (Ensemble.system ι (ω ⊕ υ) α maxThroughput) base part where
  init := by
    rintro s rfl
    rfl
  step hs hb := base_step (System.within_step.mp hs).1 hb
  frame := by
    intro s a s' hs hn
    obtain ⟨hs, hr⟩ := System.within_step.mp hs
    by_cases ha : a = .stop
    · subst ha
      exact base_stopStep (running_stopStep hs hr).1 hs
    · exact base_frame hs hn ha

/-- **The actors in it**: as long as the workers are there, each run is, without the helpers, a
run of the ensemble. -/
theorem base_run {tr : List (Runtime ι ω υ α × RuntimeAct ι ω υ α)}
    (h : (system ι ω υ α maxThroughput).Run tr s) (hr : s.running = true) :
    (Ensemble.system ι (ω ⊕ υ) α maxThroughput).Run (project base part tr) s.base :=
  (projection maxThroughput).run (h.within (fun _ _ _ hs hr => running_of_step hs hr) hr)

end Base

/-! ### What becomes of an actor that is handed over -/

/-- Where the actors are that were handed to the executor. -/
structure Handed (s : Runtime ι ω υ α) : Prop where
  /-- First those that a worker took, then those that the drain took, then those that wait. -/
  order : s.scheduled = s.entered ++ s.discarded ++ s.queue.reduceOption
  /-- Nothing is drained before the workers are joined. -/
  drained : s.discarded ≠ [] → s.stop.joined = true
  /-- The drain does nothing with an actor but to release it. -/
  released : ∀ i pc, s.drained = some (i, pc) → pc = .store ∨ pc = .unblock ∨ pc = .deref

section Handed

variable [DecidableEq ι] [DecidableEq ω] [DecidableEq υ] [DecidableEq α] [Fintype ω]
  {maxThroughput : ℕ} {s s' : Runtime ι ω υ α} {a : RuntimeAct ι ω υ α} {e : Executor.State ω}

omit [DecidableEq ω] [DecidableEq υ] [Fintype ω] in
theorem Handed.drainStep (h : Handed s) (hj : s.stop.joined = true)
    (hs : s.drainStep maxThroughput = some s') : Handed s' := by
  unfold Runtime.drainStep at hs
  split at hs
  next =>
    obtain ⟨r, hr, rfl⟩ := Option.map_eq_some_iff.mp hs
    refine ⟨h.order, h.drained, ?_⟩
    intro j pc' hd
    rcases h.released _ _ ‹_› with rfl | rfl | rfl
    · cases hr
      cases hd
      exact .inr (.inl rfl)
    · cases hr
      cases hd
      exact .inr (.inr rfl)
    · cases hr
      cases hd
  next i queue _ hq =>
    cases hs
    refine ⟨?_, fun _ => hj, ?_⟩
    swap
    · intro j pc hd
      cases hd
      exact .inl rfl
    have ho := h.order
    rw [hq, List.reduceOption_cons_of_some] at ho
    rw [ho]
    simp
  next queue _ hq =>
    cases hs
    refine ⟨?_, h.drained, h.released⟩
    have ho := h.order
    rwa [hq, List.reduceOption_cons_of_none] at ho
  next =>
    cases hs
    exact ⟨h.order, fun _ => rfl, h.released⟩

omit [DecidableEq υ] in
theorem Handed.stopStep (h : Handed s) (hs : s.stopStep maxThroughput = some s') : Handed s' := by
  by_cases hd : s.stop = .drain
  · rw [Runtime.stopStep, hd] at hs
    exact h.drainStep (by rw [hd]; rfl) hs
  · obtain ⟨hj, queue, stop, alive, lastWorker, hq, rfl⟩ := stopStep_cases hd hs
    refine ⟨?_, ?_, h.released⟩
    · rcases hq with rfl | rfl
      · exact h.order
      · rw [List.reduceOption_append]
        exact h.order.trans (by simp)
    · intro hne
      rw [h.drained hne] at hj
      cases hj

/-- An actor that is taken was the first to wait. -/
theorem Handed.step (h : Handed s) (hm : Matches s e) (hs : s.step maxThroughput a = some s') :
    Handed s' := by
  cases moves_of_step hs with
  | call => exact ⟨h.order, h.drained, h.released⟩
  | send => exact ⟨h.order, h.drained, h.released⟩
  | work => exact ⟨h.order, h.drained, h.released⟩
  | ack => exact ⟨h.order, h.drained, h.released⟩
  | exit => exact ⟨h.order, h.drained, h.released⟩
  | @execute t i b _ _ _ =>
    refine ⟨?_, h.drained, h.released⟩
    change s.scheduled ++ [i] = s.entered ++ s.discarded ++ (s.queue ++ [some i]).reduceOption
    rw [List.reduceOption_append, ← List.append_assoc, ← h.order]
    rfl
  | @enter w i queue b hh hq _ =>
    have hj : s.stop.joined = false := by
      by_contra hj
      rw [hm.joined (by simpa using hj) w] at hh
      cases hh
    have hd : s.discarded = [] := by
      by_contra hne
      rw [h.drained hne] at hj
      cases hj
    have ho := h.order
    rw [hq, hd, List.reduceOption_cons_of_some] at ho
    refine ⟨?_, fun hne => absurd hd hne, h.released⟩
    change s.scheduled = _ ++ s.discarded ++ _
    rw [ho, hd]
    simp
  | @takeHelper w queue _ hq =>
    refine ⟨?_, h.drained, h.released⟩
    have ho := h.order
    rwa [hq, List.reduceOption_cons_of_none] at ho
  | stop hs => exact h.stopStep hs

variable {tr : List (Runtime ι ω υ α × RuntimeAct ι ω υ α)}

theorem matches_of_run (h : (system ι ω υ α maxThroughput).Run tr s) :
    (∃ e, (Executor.system ω).Reachable e ∧ Matches s e) ∧ Handed s := by
  induction h with
  | init h₀ =>
    obtain ⟨e, he, hm⟩ := (simulation maxThroughput).init h₀
    cases h₀
    exact ⟨⟨e, ⟨[], .init he⟩, hm⟩, rfl, fun hne => absurd rfl hne, fun _ _ hd => by cases hd⟩
  | @step tr s s' a hr hs ih =>
    obtain ⟨⟨e, -, hm⟩, hh⟩ := ih
    exact ⟨(simulation maxThroughput).reachable ⟨_, hr.step hs⟩, hh.step hm hs⟩

/-- **The whole of it, and its parts**. A run is one of the executor, with activations for
actors, each of its steps one of the executor or none, and until the workers are joined it is
also one of the actors and the threads around them. The actors handed to the executor are taken
in that order, first by the workers and then by the drain; when `stop` has returned they have all
been taken, and no worker has one. Nothing is handed to it after the workers are joined. -/
theorem runtime_refines (h : (system ι ω υ α maxThroughput).Run tr s) :
    (∃ etr e, Tracks (system ι ω υ α maxThroughput) (Executor.system ω) Matches tr s etr e ∧
      (Executor.system ω).Run etr e ∧ Matches s e) ∧
    (s.stop.joined = false →
      (Ensemble.system ι (ω ⊕ υ) α maxThroughput).Run (project base part tr) s.base) ∧
    s.scheduled = s.entered ++ s.discarded ++ s.queue.reduceOption ∧
    (s.stop = .returned → s.scheduled = s.entered ++ s.discarded ∧ s.queue = [] ∧ s.drained = none ∧
      ∀ w, s.helper w = .exited ∧ (s.thread (.inl w)).work = none) := by
  obtain ⟨-, hh⟩ := matches_of_run h
  obtain ⟨etr, e, htr⟩ := (simulation maxThroughput).tracks h
  have hm := htr.related
  refine ⟨⟨etr, e, htr, htr.run, hm⟩, ?_, hh.order, ?_⟩
  · intro hj
    exact base_run h (by simp [running, hj])
  intro hs
  have hqueue : s.queue = [] := by
    have hempty := (Executor.accounting_of_reachable ⟨etr, htr.run⟩).drained (hm.stop.trans hs)
    obtain ⟨popped, hf, -⟩ := hm.queue
    rw [hempty] at hf
    exact (List.append_eq_nil_iff.mp (List.forall₂_nil_right_iff.mp hf)).2
  refine ⟨?_, hqueue, hm.not_draining (by rw [hs]; simp), fun w => ?_⟩
  · have ho := hh.order
    rwa [hqueue, List.reduceOption_nil, List.append_nil] at ho
  · have hw := hm.joined (by rw [hs]; rfl) w
    refine ⟨hw, ?_⟩
    have hholds := hm.worker w
    rw [hw] at hholds
    generalize (s.thread (.inl w)).work = work at hholds
    generalize e.worker w = pc at hholds
    cases hholds
    rfl

/-- The worker runs an actor whose handler sends to another; that one comes behind the helper. -/
theorem runtime_refines_behind : ∃ s : Runtime (Fin 2) (Fin 1) (Fin 1) ℕ,
    s.stop = .returned ∧ s.entered = [0] ∧ s.discarded = [1] ∧ s.scheduled = [0, 1] ∧ s.queue = [] := by
  have hreplay : ((system (Fin 2) (Fin 1) (Fin 1) ℕ 10).replay (fun _ _ => true) {}
      [[.call (.inr 0) 0 7], List.replicate 7 (.send (.inr 0)), [.dequeue 0], List.replicate 3 (.work 0),
        [.call (.inl 0) 1 8], List.replicate 6 (.send (.inl 0)), [.stop, .stop, .send (.inl 0)],
        List.replicate 6 (.work 0), [.dequeue 0, .ack 0, .exit 0], List.replicate 10 .stop].flatten).any
      (fun s => decide (s.stop = .returned ∧ s.entered = [0] ∧ s.discarded = [1])) = true := by
    decide +kernel
  obtain ⟨s, hs, hend⟩ := (Option.any_eq_true _ _).mp hreplay
  obtain ⟨hstop, hentered, hdiscarded⟩ := of_decide_eq_true hend
  obtain ⟨tr, h⟩ := System.Reachable.of_replay rfl hs
  obtain ⟨-, -, -, hret⟩ := runtime_refines h
  obtain ⟨hscheduled, hqueue, -, -⟩ := hret hstop
  refine ⟨s, hstop, hentered, hdiscarded, ?_, hqueue⟩
  rw [hscheduled, hentered, hdiscarded]
  rfl

end Handed

end Runtime

end ActorsFramework.Scheduling
