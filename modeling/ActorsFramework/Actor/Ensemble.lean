import ActorsFramework.Lib.Projection
import ActorsFramework.Actor.Delivery

/-!
# Many actors on one executor

Any number of cooperative actors and one `work_sharing` executor: the job queue holds
pointers to actors in the order they were pushed, a worker takes the first, and a
handler of one actor sends to another. A step is a step of a thread inside the
`enqueue_base` or the `run` of some actor, as in `ActorsFramework.Actor.Scheduling`.

* `step_view` — an action is about one actor: there it is a step of the threads around
  that actor alone, and nothing any other actor sees of the state is changed.
* `history_run` — so a run is, to each of its actors, a run of those.
* `workers_apart` — what this makes of the guarantee for one actor: the actors waiting in
  the job queue and those in the hands of the workers are all different.

Each thread is in one call of `enqueue_base` at most, and in one `run` at most.
-/

namespace ActorsFramework.Scheduling

open Detail Lib
open Actor (CooperativeActor)

/-! ### A thread among several actors -/

section Seen

variable {ι P : Type*} [DecidableEq ι]

/-- A call for the actor `i` that is now at `pc`: no call any more once it has returned. -/
def placed [DecidableEq P] (idle : P) (i : ι) (pc : P) : Option (ι × P) :=
  if pc = idle then none else some (i, pc)

/-- What the actor `i` sees of a call: nothing, if it is for another actor. -/
def seen (idle : P) (i : ι) : Option (ι × P) → P
  | none => idle
  | some (j, pc) => if j = i then pc else idle

@[simp] theorem seen_none (idle : P) (i : ι) : seen idle i none = idle := rfl

@[simp] theorem seen_self (idle : P) (i : ι) (pc : P) : seen idle i (some (i, pc)) = pc := if_pos rfl

theorem seen_of_ne (idle : P) {i j : ι} (h : j ≠ i) (pc : P) : seen idle i (some (j, pc)) = idle :=
  if_neg h

@[simp] theorem seen_placed_self [DecidableEq P] (idle : P) (i : ι) (pc : P) :
    seen idle i (placed idle i pc) = pc := by
  unfold placed
  split_ifs with h
  · exact h.symm
  · exact seen_self idle i pc

theorem seen_placed_of_ne [DecidableEq P] (idle : P) {i j : ι} (h : j ≠ i) (pc : P) :
    seen idle i (placed idle j pc) = idle := by
  unfold placed
  split_ifs
  · rfl
  · exact seen_of_ne idle h pc

end Seen

/-- A thread. -/
structure Task (ι α : Type*) where
  /-- The actor it is sending to, and where it is in its `enqueue_base`. -/
  send : Option (ι × SendPc α) := none
  /-- The job it has taken, and where it is in `worker::run` with it. -/
  work : Option (ι × WorkPc α) := none
  deriving DecidableEq

/-- The actors, the job queue and the threads. -/
structure Ensemble (ι τ α : Type*) where
  /-- The actors. -/
  actor : ι → CooperativeActor α := fun _ => {}
  /-- `queue` of the executor, its front first. -/
  queue : List ι := []
  /-- The threads. -/
  thread : τ → Task ι α := fun _ => {}

/-- The actions of the threads. -/
inductive EnsembleAct (ι τ α : Type*) where
  /-- A thread calls `enqueue_base` of an actor. -/
  | call (t : τ) (i : ι) (m : α)
  /-- The next step of its call. -/
  | send (t : τ)
  /-- A worker takes the first job and enters the actor's `run`. -/
  | dequeue (t : τ)
  /-- The next step of the worker. -/
  | work (t : τ)

/-- The same action, to the actor it is about. -/
def EnsembleAct.own {ι τ α : Type*} : EnsembleAct ι τ α → Act τ α
  | .call t _ m => .call t m
  | .send t => .send t
  | .dequeue t => .dequeue t
  | .work t => .work t

namespace Ensemble

variable {ι τ α : Type*} [DecidableEq ι] [DecidableEq τ] [DecidableEq α]

/-- The actor `i` and its entries in the job queue. -/
def shared (s : Ensemble ι τ α) (i : ι) : Shared α :=
  { toCooperativeActor := s.actor i, jobs := s.queue.count i }

/-- A step of a thread's `enqueue_base` of the actor `i`. -/
def sent (s : Ensemble ι τ α) (t : τ) (i : ι) (c : CooperativeActor α) (pc : SendPc α) : Ensemble ι τ α :=
  { s with
    actor := Function.update s.actor i c
    thread := Function.update s.thread t { s.thread t with send := placed .idle i pc } }

/-- A step of a worker with the actor `i`. -/
def worked (s : Ensemble ι τ α) (t : τ) (i : ι) (c : CooperativeActor α) (pc : WorkPc α) :
    Ensemble ι τ α :=
  { s with
    actor := Function.update s.actor i c
    thread := Function.update s.thread t { s.thread t with work := placed .idle i pc } }

/-- The job queue after `enqueue` or `dequeue`. -/
def setQueue (s : Ensemble ι τ α) (queue : List ι) : Ensemble ι τ α := { s with queue }

/-- The step function. A thread that is in `enqueue_base` does nothing else. -/
def step (maxThroughput : ℕ) (s : Ensemble ι τ α) : EnsembleAct ι τ α → Option (Ensemble ι τ α)
  | .call t i m =>
    match s.thread t with
    | ⟨none, none⟩ | ⟨none, some (_, .handler _ _)⟩ => some (s.sent t i (s.actor i) (.load m))
    | _ => none
  | .send t =>
    match (s.thread t).send with
    | none => none
    | some (i, .execute) => some ((s.sent t i (s.actor i) .idle).setQueue (s.queue ++ [i]))
    | some (i, pc) => (sendStep (s.shared i) pc).map fun r => s.sent t i r.1.toCooperativeActor r.2
  | .dequeue t =>
    match s.thread t, s.queue with
    | ⟨none, none⟩, i :: queue =>
      some ((s.worked t i (s.actor i)
        (cacheHead maxThroughput (s.actor i).mailbox 0 none)).setQueue queue)
    | _, _ => none
  | .work t =>
    match s.thread t with
    | ⟨none, some (i, pc)⟩ =>
      (workStep maxThroughput (s.shared i) pc).map fun r => s.worked t i r.1.toCooperativeActor r.2
    | _ => none

/-- The actors and threads as a system: they start with the actors as they are made, and no job. -/
def system (ι τ α : Type*) [DecidableEq ι] [DecidableEq τ] [DecidableEq α] (maxThroughput : ℕ) :
    System (Ensemble ι τ α) (EnsembleAct ι τ α) where
  Init s := s = {}
  step := step maxThroughput

/-! ### What one actor sees -/

/-- The threads around the actor `i`. -/
def view (i : ι) (s : Ensemble ι τ α) : State τ α where
  toShared := s.shared i
  thread t := { send := seen .idle i (s.thread t).send, work := seen .idle i (s.thread t).work }

/-- The actor an action is about. -/
def subject (s : Ensemble ι τ α) : EnsembleAct ι τ α → Option ι
  | .call _ i _ => some i
  | .send t => (s.thread t).send.map Prod.fst
  | .dequeue _ => s.queue.head?
  | .work t => (s.thread t).work.map Prod.fst

/-- The action, where it is about the actor `i`. -/
def part (i : ι) (s : Ensemble ι τ α) (a : EnsembleAct ι τ α) : Option (Act τ α) :=
  if s.subject a = some i then some a.own else none

/-- A run, to the actor `i`. -/
def history (i : ι) (tr : List (Ensemble ι τ α × EnsembleAct ι τ α)) : List (State τ α × Act τ α) :=
  project (view i) (part i) tr

section View

variable {s : Ensemble ι τ α} {t : τ} {i j : ι} {c : CooperativeActor α}

omit [DecidableEq α] [DecidableEq ι] [DecidableEq τ] in
theorem state_eq {b b' : State τ α} (hc : b.toShared = b'.toShared)
    (ht : ∀ t, b.thread t = b'.thread t) : b = b' := by
  obtain ⟨c, thread⟩ := b
  obtain ⟨c', thread'⟩ := b'
  obtain rfl : c = c' := hc
  obtain rfl : thread = thread' := funext ht
  rfl

theorem view_sent_self (s : Ensemble ι τ α) (t : τ) (i : ι) (c : CooperativeActor α) (pc : SendPc α) :
    (s.sent t i c pc).view i =
      (s.view i).sent t { toCooperativeActor := c, jobs := s.queue.count i } pc := by
  apply state_eq
  · simp [view, shared, sent, State.sent]
  · intro u
    by_cases hu : u = t
    · subst hu
      simp [view, sent, State.sent]
    · simp [view, sent, State.sent, hu]

theorem view_sent_of_ne (h : i ≠ j) {pc : SendPc α} (hs : seen .idle j (s.thread t).send = .idle) :
    (s.sent t i c pc).view j = s.view j := by
  apply state_eq
  · simp [view, shared, sent, Function.update_of_ne h.symm]
  · intro u
    by_cases hu : u = t
    · subst hu
      simp [view, sent, seen_placed_of_ne _ h, hs]
    · simp [view, sent, hu]

theorem view_worked_self (s : Ensemble ι τ α) (t : τ) (i : ι) (c : CooperativeActor α) (pc : WorkPc α) :
    (s.worked t i c pc).view i =
      (s.view i).worked t { toCooperativeActor := c, jobs := s.queue.count i } pc := by
  apply state_eq
  · simp [view, shared, worked, State.worked]
  · intro u
    by_cases hu : u = t
    · subst hu
      simp [view, worked, State.worked]
    · simp [view, worked, State.worked, hu]

theorem view_worked_of_ne (h : i ≠ j) {pc : WorkPc α} (hs : seen .idle j (s.thread t).work = .idle) :
    (s.worked t i c pc).view j = s.view j := by
  apply state_eq
  · simp [view, shared, worked, Function.update_of_ne h.symm]
  · intro u
    by_cases hu : u = t
    · subst hu
      simp [view, worked, seen_placed_of_ne _ h, hs]
    · simp [view, worked, hu]

end View

section Step

variable {maxThroughput : ℕ} {s s' : Ensemble ι τ α} {a : EnsembleAct ι τ α}

omit [DecidableEq ι] [DecidableEq τ] in
/-- Only `execute` pushes a job. -/
theorem jobs_sendStep {c : Shared α} {pc : SendPc α} (hpc : pc ≠ .execute) {r : Shared α × SendPc α}
    (h : sendStep c pc = some r) : r.1.jobs = c.jobs := by
  cases pc with
  | exchange m e =>
    simp only [sendStep] at h
    split_ifs at h <;> cases h <;> rfl
  | flags =>
    simp only [sendStep] at h
    split_ifs at h <;> cases h <;> rfl
  | idle => cases h
  | execute => exact absurd rfl hpc
  | _ => cases h; rfl

omit [DecidableEq ι] [DecidableEq τ] in
/-- A worker takes its job before it enters `run`, and pushes none. -/
theorem jobs_workStep {c : Shared α} {pc : WorkPc α} {r : Shared α × WorkPc α}
    (h : workStep maxThroughput c pc = some r) : r.1.jobs = c.jobs := by
  unfold workStep at h
  split at h
  next => cases h; rfl
  next => cases h; rfl
  next => cases h; rfl
  next =>
    obtain ⟨r', -, rfl⟩ := Option.map_eq_some_iff.mp h
    rfl

omit [DecidableEq α] [DecidableEq τ] in
theorem view_setQueue (s : Ensemble ι τ α) (queue : List ι) (i : ι) :
    (s.setQueue queue).view i = { s.view i with jobs := queue.count i } := rfl

/-- A call begins: the thread is outside every `run`, or in a handler. -/
theorem call_view {t : τ} {i : ι} {m : α} (h : step maxThroughput s (.call t i m) = some s') :
    (s.thread t).send = none ∧ s' = s.sent t i (s.actor i) (.load m) ∧
      ((s.thread t).work = none ∨ ∃ k pt m', (s.thread t).work = some (k, .handler pt m')) := by
  simp only [step] at h
  split at h
  next ht =>
    cases h
    exact ⟨by rw [ht], rfl, .inl (by rw [ht])⟩
  next k pt m' ht =>
    cases h
    exact ⟨by rw [ht], rfl, .inr ⟨k, pt, m', by rw [ht]⟩⟩
  next => cases h

/-- A step of a call: a job is pushed, or it is a step with the actor alone. -/
theorem send_view {t : τ} (h : step maxThroughput s (.send t) = some s') :
    ∃ i pc, (s.thread t).send = some (i, pc) ∧
      (pc = .execute ∧ s' = (s.sent t i (s.actor i) .idle).setQueue (s.queue ++ [i]) ∨
        pc ≠ .execute ∧ ∃ r, sendStep (s.shared i) pc = some r ∧
          s' = s.sent t i r.1.toCooperativeActor r.2) := by
  simp only [step] at h
  split at h
  next => cases h
  next i hi =>
    cases h
    exact ⟨i, _, hi, .inl ⟨rfl, rfl⟩⟩
  next i pc hpc hi =>
    obtain ⟨r, hr, rfl⟩ := Option.map_eq_some_iff.mp h
    exact ⟨i, pc, hi, .inr ⟨fun hex => hpc (by rw [hex]), r, hr, rfl⟩⟩

/-- A worker that waits takes the first job. -/
theorem dequeue_view {t : τ} (h : step maxThroughput s (.dequeue t) = some s') :
    ∃ i queue, s.thread t = ⟨none, none⟩ ∧ s.queue = i :: queue ∧
      s' = (s.worked t i (s.actor i) (cacheHead maxThroughput (s.actor i).mailbox 0 none)).setQueue
        queue := by
  simp only [step] at h
  split at h
  next i queue ht hq =>
    cases h
    exact ⟨i, queue, ht, hq, rfl⟩
  next => cases h

/-- A step of a worker with the actor of its job. -/
theorem work_view {t : τ} (h : step maxThroughput s (.work t) = some s') :
    ∃ i pc r, s.thread t = ⟨none, some (i, pc)⟩ ∧ workStep maxThroughput (s.shared i) pc = some r ∧
      s' = s.worked t i r.1.toCooperativeActor r.2 := by
  simp only [step] at h
  split at h
  next i pc ht =>
    obtain ⟨r, hr, rfl⟩ := Option.map_eq_some_iff.mp h
    exact ⟨i, pc, r, ht, hr, rfl⟩
  next => cases h

/-- **An action is about one actor**: to that actor it is a step of the threads around it, and
to any other actor nothing happens. -/
theorem step_view (h : step maxThroughput s a = some s') :
    ∃ i, s.subject a = some i ∧
      Scheduling.step maxThroughput (s.view i) a.own = some (s'.view i) ∧
      ∀ j, j ≠ i → s'.view j = s.view j := by
  cases a with
  | call t i m =>
    obtain ⟨hsend, rfl, hwork⟩ := call_view h
    refine ⟨i, rfl, ?_, fun j hj => view_sent_of_ne hj.symm (by rw [hsend]; rfl)⟩
    rw [view_sent_self]
    rcases hwork with hw | ⟨k, pt, m', hw⟩
    · simp [EnsembleAct.own, Scheduling.step, view, hsend, hw, shared]
    · by_cases hk : k = i
      · subst hk
        simp [EnsembleAct.own, Scheduling.step, view, hsend, hw, shared]
      · simp [EnsembleAct.own, Scheduling.step, view, hsend, hw, shared, seen_of_ne _ hk]
  | send t =>
    obtain ⟨i, pc, hi, ⟨rfl, rfl⟩ | ⟨hpc, r, hr, rfl⟩⟩ := send_view h
    · -- the job goes to the end of the queue
      refine ⟨i, by simp [subject, hi], ?_, fun j hj => ?_⟩
      · rw [view_setQueue, view_sent_self, List.count_append]
        simp [EnsembleAct.own, Scheduling.step, sendStep, view, hi, shared, State.sent]
      · rw [view_setQueue, view_sent_of_ne hj.symm (by rw [hi]; exact seen_of_ne _ hj.symm _),
          List.count_append]
        simp [view, shared, hj.symm]
    · refine ⟨i, by simp [subject, hi], ?_, fun j hj => view_sent_of_ne hj.symm ?_⟩
      · have hjobs : s.queue.count i = r.1.jobs := (jobs_sendStep hpc hr).symm
        rw [view_sent_self, hjobs]
        simp [EnsembleAct.own, Scheduling.step, view, hi, hr]
      · rw [hi, seen_of_ne _ hj.symm]
  | dequeue t =>
    obtain ⟨i, queue, ht, hq, rfl⟩ := dequeue_view h
    refine ⟨i, by simp [subject, hq], ?_, fun j hj => ?_⟩
    · rw [view_setQueue, view_worked_self]
      simp [EnsembleAct.own, Scheduling.step, view, ht, hq, shared, State.worked]
    · rw [view_setQueue, view_worked_of_ne hj.symm (by rw [ht]; rfl)]
      simp [view, shared, hq, hj.symm]
  | work t =>
    obtain ⟨i, pc, r, ht, hr, rfl⟩ := work_view h
    refine ⟨i, by simp [subject, ht], ?_, fun j hj => view_worked_of_ne hj.symm ?_⟩
    · have hjobs : s.queue.count i = r.1.jobs := (jobs_workStep hr).symm
      rw [view_worked_self, hjobs]
      simp [EnsembleAct.own, Scheduling.step, view, ht, hr]
    · rw [ht]
      exact seen_of_ne _ hj.symm pc

end Step

/-! ### Runs -/

section Runs

variable {maxThroughput : ℕ} {s s' : Ensemble ι τ α} {a : EnsembleAct ι τ α}
  {tr : List (Ensemble ι τ α × EnsembleAct ι τ α)}

omit [DecidableEq τ] [DecidableEq α] in
theorem part_eq_some {i : ι} {b : Act τ α} :
    s.part i a = some b ↔ s.subject a = some i ∧ a.own = b := by
  unfold part
  split_ifs with h
  · simp [h]
  · simp [h]

theorem projection (maxThroughput : ℕ) (i : ι) : Projection (system ι τ α maxThroughput)
    (Scheduling.system τ α maxThroughput) (view i) (part i) where
  init := by
    rintro s rfl
    exact state_eq rfl fun _ => rfl
  step := by
    intro s a s' b hs hb
    obtain ⟨hi, rfl⟩ := part_eq_some.mp hb
    obtain ⟨j, hj, hstep, -⟩ := step_view hs
    obtain rfl : i = j := Option.some.inj (hi.symm.trans hj)
    exact hstep
  frame := by
    intro s a s' hs hn
    obtain ⟨j, hj, -, hframe⟩ := step_view hs
    apply hframe
    rintro rfl
    rw [part_eq_some.mpr ⟨hj, rfl⟩] at hn
    cases hn

/-- **A run, to each actor, is a run of the threads around it**. -/
theorem history_run (h : (system ι τ α maxThroughput).Run tr s) (i : ι) :
    (Scheduling.system τ α maxThroughput).Run (history i tr) (s.view i) :=
  (projection maxThroughput i).run h

end Runs

end Ensemble

/-! ### Workers -/

/-- The actor whose `run` a worker is in, or has left and not marked empty yet. -/
def Task.running {ι α : Type*} (b : Task ι α) : Option ι :=
  b.work.bind fun w => if w.2.active then some w.1 else none

namespace Ensemble

section Workers

variable {ι τ α : Type*} [DecidableEq ι] [DecidableEq τ] [DecidableEq α] [Fintype τ]
  {maxThroughput : ℕ} {s : Ensemble ι τ α} {tr : List (Ensemble ι τ α × EnsembleAct ι τ α)}

omit [DecidableEq τ] [DecidableEq α] [Fintype τ] in
/-- A worker in `run` is an activation of the actor. -/
theorem activations_of_running {t : τ} {i : ι} (h : (s.thread t).running = some i) :
    1 ≤ ((s.view i).thread t).activations := by
  obtain ⟨⟨j, pc⟩, hw, hj⟩ := Option.bind_eq_some_iff.mp h
  split_ifs at hj with hact
  obtain rfl : j = i := Option.some.inj hj
  have hseen : ((s.view j).thread t).work = pc := by
    simp [view, hw]
  rw [Thread.activations, hseen, hact]
  exact Nat.le_add_left _ _

omit [DecidableEq α] in
/-- Where an actor has at most one activation, one worker at most is running it. -/
theorem running_unique {i : ι} (h : Single (s.view i)) {t u : τ}
    (ht : (s.thread t).running = some i) (hu : (s.thread u).running = some i) : u = t := by
  by_contra hne
  have hone := h.one
  have hact := activations_of_running ht
  have hact' := activations_of_running hu
  have hle := add_le_tally Thread.activations (s.view i).thread hne
  omega

/-- **Actors apart**. A run is a run of the threads around each of its actors. Where no two
senders find the same actor unmarked at once, an actor is in the job queue once at most, no
worker is running an actor that is there, and no two workers are running the same. -/
theorem workers_apart (h : (system ι τ α maxThroughput).Run tr s) (i : ι) :
    (Scheduling.system τ α maxThroughput).Run (history i tr) (s.view i) ∧
    (System.Meets Undisputed (history i tr) →
      s.queue.count i ≤ 1 ∧
      ∀ t, (s.thread t).running = some i →
        i ∉ s.queue ∧ ∀ u, (s.thread u).running = some i → u = t) := by
  have hrun := history_run h i
  refine ⟨hrun, fun hC => ?_⟩
  have h1 := single_of_reachableBy ⟨_, hrun, hC⟩
  have hone := h1.one
  change _ + s.queue.count i ≤ 1 at hone
  refine ⟨by omega, fun t ht => ?_⟩
  have hact := activations_of_running ht
  have hle := le_tally Thread.activations (s.view i).thread t
  constructor
  · rw [← List.count_eq_zero]
    omega
  · intro u hu
    exact running_unique h1 ht hu

/-- A handler of one actor has sent to the other, and two workers run them. -/
theorem workers_apart_two : ∃ s : Ensemble (Fin 2) (Fin 3) ℕ,
    (s.thread 1).running = some 1 ∧ (s.thread 2).running = some 0 ∧
    ∀ u, (s.thread u).running = some 1 → u = 1 := by
  have hreplay : ((system (Fin 2) (Fin 3) ℕ 10).replay
      (fun s a => decide (∀ i, ∀ b ∈ s.part i a, Undisputed (s.view i) b)) {}
      [[.call 0 0 7], List.replicate 7 (.send 0), [.dequeue 2], List.replicate 3 (.work 2),
        [.call 2 1 8], List.replicate 7 (.send 2), [.dequeue 1]].flatten).any
      (fun s => decide ((s.thread 1).running = some 1 ∧ (s.thread 2).running = some 0)) = true := by
    decide +kernel
  obtain ⟨s, hs, hrunning⟩ := (Option.any_eq_true _ _).mp hreplay
  obtain ⟨h1, h2⟩ := of_decide_eq_true hrunning
  obtain ⟨tr, h, hC⟩ := System.ReachableBy.of_replay
    (C := fun (s : Ensemble (Fin 2) (Fin 3) ℕ) a => ∀ i, ∀ b ∈ s.part i a, Undisputed (s.view i) b)
    (fun _ _ hc => of_decide_eq_true hc) ⟨[], .init rfl, System.meets_nil _⟩ hs
  have hundisputed : System.Meets Undisputed (history 1 tr) := meets_project fun p hp => hC p hp 1
  exact ⟨s, h1, h2, (((workers_apart h 1).2 hundisputed).2 1 h1).2⟩

end Workers

end Ensemble

end ActorsFramework.Scheduling
