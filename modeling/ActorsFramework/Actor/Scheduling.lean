import ActorsFramework.Actor.CooperativeActor

/-!
# One cooperative actor, many threads

One actor of `work_sharing`, any number of threads: each may call `enqueue_base`,
from outside or from a handler it runs, and each may be a worker that takes the
actor off the job queue, calls its `run` and releases it. One step is one access
to an atomic variable (`stack_`, `flags_`, `rc_`) or one critical section of the
job queue, together with what the thread does on its own up to the next one.

* `sendStep`, `runStep`, `workStep` — what a thread does next, as functions of
  what the threads share and of where it stands.
* `Moves` — what a step of the system does, one case for each kind of step;
  `moves_of_step` says there is no other.
* `RunMoves` — the same for a step inside `run`.

The reader's side of the mailbox, `head_` and the cache, is shared here too:
nothing but the scheduling keeps two workers from using it at once. Of the job
queue only the entries of this actor are kept. A `compare_exchange_weak` that
fails for no reason leaves the state as it was.
-/

namespace ActorsFramework.Scheduling

open Detail Lib
open Actor (Flag CooperativeActor isHighPriority)

/-- Where a thread is in `enqueue_base`. -/
inductive SendPc (α : Type*) where
  /-- Not in it. -/
  | idle
  /-- At `stack_.load()`. -/
  | load (m : α)
  /-- At the `compare_exchange_strong`, with `e` read. -/
  | exchange (m : α) (e : Ptr α)
  /-- Before the load of `flags_`. -/
  | flags
  /-- Before the store of `busy` in `intrusive_ptr_add_ref_impl`. -/
  | busy
  /-- At its `try_block`. -/
  | block
  /-- At its `ref()`. -/
  | ref
  /-- At `execute(this)`. -/
  | execute
  deriving DecidableEq

/-- The loops of `run`. -/
inductive Loop where
  /-- `while (handled_msgs < max_throughput && !mailbox().cache().empty())`. -/
  | cache
  /-- `while (handled_msgs < max_throughput)`. -/
  | main
  /-- `while (!ptr)`. -/
  | tail
  deriving DecidableEq

/-- A call of `next_message` in `run`. -/
structure Point where
  /-- The loop it is in. -/
  loop : Loop
  /-- `handled_msgs`. -/
  handled : ℕ
  deriving DecidableEq

/-- Where a thread is in `worker::run`. -/
inductive WorkPc (α : Type*) where
  /-- At `policy_.dequeue`. -/
  | idle
  /-- In `next_message`, at `try_pop`. -/
  | tryPop (pt : Point)
  /-- In `fetch_new_data`, at the `compare_exchange_weak`, with `e` read. -/
  | exchange (pt : Point) (e : Ptr α)
  /-- `next_message` returned null: at `try_block`. -/
  | tryBlock (pt : Point)
  /-- In the handler, with `ptr` holding this message. -/
  | handler (pt : Point) (m : α)
  /-- At the last `has_next_message`. -/
  | hasNext
  /-- At the last `try_block`. -/
  | lastBlock
  /-- Stopped inside `run`. -/
  | failed (f : Fault)
  /-- `run` has returned: before the store of `empty` in `intrusive_ptr_release_impl`. -/
  | store
  /-- At its `try_unblock`. -/
  | unblock
  /-- At its `deref()`. -/
  | deref
  deriving DecidableEq

/-- A thread. -/
structure Thread (α : Type*) where
  /-- Where it is in `enqueue_base`. -/
  send : SendPc α := .idle
  /-- Where it is in `worker::run`. -/
  work : WorkPc α := .idle
  deriving DecidableEq

/-- What the threads share: the actor, and its entries in the job queue. -/
structure Shared (α : Type*) extends CooperativeActor α where
  /-- How many entries of the job queue are this actor. -/
  jobs : ℕ := 0

/-- The state of all threads. -/
structure State (τ α : Type*) extends Shared α where
  /-- The threads. -/
  thread : τ → Thread α := fun _ => {}

namespace WorkPc

variable {α : Type*}

/-- Inside `run`. -/
def inRun : WorkPc α → Bool
  | .idle | .store | .unblock | .deref => false
  | _ => true

/-- An assertion of `fetch_new_data` has failed. -/
def misread : WorkPc α → Bool
  | .failed .fetchBlocked | .failed .fetchClosed => true
  | _ => false

/-- Inside `run`, and not about to block the mailbox because `next_message` returned null. -/
def reading : WorkPc α → Bool
  | .tryBlock _ => false
  | pc => pc.inRun

/-- The first two loops of `run` are over. -/
def spent : WorkPc α → Bool
  | .tryPop pt | .exchange pt _ | .tryBlock pt | .handler pt _ => pt.loop = .tail
  | .hasNext | .lastBlock => true
  | _ => false

end WorkPc

variable {τ α : Type*}

section Run

variable (maxThroughput : ℕ)

/-- The head of the third loop, with `ptr`. -/
def tailHead (handled : ℕ) : Option α → WorkPc α
  | none => .tryPop ⟨.tail, handled⟩
  | some _ => .hasNext

/-- The head of the second loop. -/
def mainHead (handled : ℕ) (ptr : Option α) : WorkPc α :=
  if handled < maxThroughput then .tryPop ⟨.main, handled⟩ else tailHead handled ptr

/-- The head of the first loop. -/
def cacheHead (q : Mailbox α) (handled : ℕ) (ptr : Option α) : WorkPc α :=
  if handled < maxThroughput ∧ q.cache.empty = false then .tryPop ⟨.cache, handled⟩
  else mainHead maxThroughput handled ptr

/-- The end of `next_message`, when `try_pop` has returned null, and what `run` does with
its result: `try_block` where it is null, else `consume_from_cache`, `reactivate` or
`push_to_cache`. -/
def taken (q : Mailbox α) (pt : Point) : Mailbox α × WorkPc α :=
  match q.cache.first with
  | [] => (q, if pt.loop = .tail then .failed .pushNull else .tryBlock pt)
  | m :: ms =>
    let q := { q with cache := { q.cache with first := ms } }
    match pt.loop with
    | .cache =>
      if q.cache.second.isEmpty then (q, cacheHead maxThroughput q (pt.handled + 1) (some m))
      else (q, .handler pt m)
    | .main => (q, .handler pt m)
    | .tail => (q.pushToCache isHighPriority m, .tryPop pt)

/-- What `run` does when a handler has returned: `consume_from_cache` erases the message. -/
def handled (q : Mailbox α) (pt : Point) (m : α) : Mailbox α × WorkPc α :=
  match pt.loop with
  | .cache =>
    let q := { q with cache := { q.cache with second := q.cache.second.tail } }
    (q, cacheHead maxThroughput q (pt.handled + 1) (some m))
  | .main => (q, mainHead maxThroughput (pt.handled + 1) (some m))
  | .tail => (q, tailHead (pt.handled + 1) (some m))

/-- An element that `try_pop` returned goes to the end of the first part of the cache: none
is of high priority. -/
def cached (q : Mailbox α) (head : List α) (x : α) : Mailbox α :=
  { q with head, cache := { q.cache with first := q.cache.first ++ [x] } }

variable [DecidableEq α]

/-- The next step of `run`, on the mailbox. -/
def runStep (q : Mailbox α) : WorkPc α → Option (Mailbox α × WorkPc α)
  | .tryPop pt =>
    match q.head with
    | x :: head => some (cached q head x, .tryPop pt)
    | [] =>
      match q.stack.top with
      | .null => some (q, .failed .fetchClosed)
      | .blockedDummy => some (q, .failed .fetchBlocked)
      | .emptyDummy => some (taken maxThroughput q pt)
      | .elem x => some (q, .exchange pt (.elem x))
  | .exchange pt e =>
    if q.stack.top = e then
      if e = .blockedDummy then some ({ q with stack := .list [] }, .failed .fetchBlocked)
      else
        match Mailbox.relink q.stack.elems q.head with
        | [] => some ({ q with stack := .list [] }, .failed .headNull)
        | x :: head => some (cached { q with stack := .list [] } head x, .tryPop pt)
    else if q.stack.top = .emptyDummy then some (taken maxThroughput q pt)
    else some (q, .exchange pt q.stack.top)
  | .tryBlock pt =>
    match q.tryBlock with
    | (q, true) => some (q, .store)
    | (q, false) => some (q, .tryPop pt)
  | .handler pt m => some (handled maxThroughput q pt m)
  | .hasNext =>
    match q.hasNextMessage with
    | .error f => some (q, .failed f)
    | .ok true => some (q, .store)
    | .ok false => some (q, .lastBlock)
  | .lastBlock => some (q.tryBlock.1, .store)
  | _ => none

/-- The next step of `run`, or of the `intrusive_ptr_release` that follows. -/
def workStep (c : Shared α) : WorkPc α → Option (Shared α × WorkPc α)
  | .store => some ({ c with flags := .empty }, .unblock)
  | .unblock => some ({ c with mailbox := c.mailbox.tryUnblock.1 }, .deref)
  | .deref => some ({ c with refCount := c.refCount - 1 }, .idle)
  | pc => (runStep maxThroughput c.mailbox pc).map fun r => ({ c with mailbox := r.1 }, r.2)

end Run

variable [DecidableEq α]

/-- The next step of `enqueue_base`. -/
def sendStep (c : Shared α) : SendPc α → Option (Shared α × SendPc α)
  | .idle => none
  | .load m => some (c, .exchange m c.mailbox.stack.top)
  | .exchange m e =>
    if e.isNull then some (c, .flags)
    else if c.mailbox.stack.top = e then
      some ({ c with mailbox := (c.mailbox.enqueue m).1 }, .flags)
    else some (c, .exchange m c.mailbox.stack.top)
  | .flags => if c.flags = .empty then some (c, .busy) else some (c, .idle)
  | .busy => some ({ c with flags := .busy }, .block)
  | .block => some ({ c with mailbox := c.mailbox.tryBlock.1 }, .ref)
  | .ref => some ({ c with refCount := c.refCount + 1 }, .execute)
  | .execute => some ({ c with jobs := c.jobs + 1 }, .idle)

/-- The actions of the threads. -/
inductive Act (τ α : Type*) where
  /-- A thread calls `enqueue_base`. -/
  | call (t : τ) (m : α)
  /-- The next step of its call. -/
  | send (t : τ)
  /-- A worker takes the actor off the job queue and enters its `run`. -/
  | dequeue (t : τ)
  /-- The next step of the worker. -/
  | work (t : τ)

variable [DecidableEq τ]

namespace State

/-- A step of a thread's `enqueue_base`. -/
def sent (s : State τ α) (t : τ) (c : Shared α) (pc : SendPc α) : State τ α :=
  { toShared := c, thread := Function.update s.thread t { s.thread t with send := pc } }

/-- A step of a worker. -/
def worked (s : State τ α) (t : τ) (c : Shared α) (pc : WorkPc α) : State τ α :=
  { toShared := c, thread := Function.update s.thread t { s.thread t with work := pc } }

end State

/-- The step function of the threads. A thread that is in `enqueue_base` does nothing else. -/
def step (maxThroughput : ℕ) (s : State τ α) : Act τ α → Option (State τ α)
  | .call t m =>
    match s.thread t with
    | ⟨.idle, .idle⟩ | ⟨.idle, .handler _ _⟩ => some (s.sent t s.toShared (.load m))
    | _ => none
  | .send t => (sendStep s.toShared (s.thread t).send).map fun r => s.sent t r.1 r.2
  | .dequeue t =>
    match s.thread t, s.jobs with
    | ⟨.idle, .idle⟩, n + 1 =>
      some (s.worked t { s.toShared with jobs := n } (cacheHead maxThroughput s.mailbox 0 none))
    | _, _ => none
  | .work t =>
    match (s.thread t).send with
    | .idle =>
      (workStep maxThroughput s.toShared (s.thread t).work).map fun r => s.worked t r.1 r.2
    | _ => none

/-- The threads as a system: they start with the actor as it is made, and no job. -/
def system (τ α : Type*) [DecidableEq τ] [DecidableEq α] (maxThroughput : ℕ) :
    System (State τ α) (Act τ α) where
  Init s := s = {}
  step := step maxThroughput

/-- What a step does: one case for each kind of step. -/
inductive Moves (maxThroughput : ℕ) (s : State τ α) : Act τ α → State τ α → Prop where
  /-- A call of `enqueue_base`, by a thread outside `run` or in a handler. -/
  | call {t : τ} {m : α} : (s.thread t).send = .idle →
      Moves maxThroughput s (.call t m) (s.sent t s.toShared (.load m))
  /-- `stack_` is read. -/
  | load {t : τ} {m : α} : (s.thread t).send = .load m →
      Moves maxThroughput s (.send t) (s.sent t s.toShared (.exchange m s.mailbox.stack.top))
  /-- The queue is closed: the message is deleted. -/
  | closed {t : τ} {m : α} : (s.thread t).send = .exchange m .null →
      Moves maxThroughput s (.send t) (s.sent t s.toShared .flags)
  /-- The exchange puts the message on the stack. -/
  | push {t : τ} {m : α} : (s.thread t).send = .exchange m s.mailbox.stack.top →
      s.mailbox.stack ≠ .closed →
      Moves maxThroughput s (.send t)
        (s.sent t { s.toShared with mailbox := (s.mailbox.enqueue m).1 } .flags)
  /-- The exchange fails. -/
  | retry {t : τ} {m : α} {e : Ptr α} : (s.thread t).send = .exchange m e →
      Moves maxThroughput s (.send t) (s.sent t s.toShared (.exchange m s.mailbox.stack.top))
  /-- `flags_` is empty: the actor is going to be scheduled. -/
  | schedule {t : τ} : (s.thread t).send = .flags → s.flags = .empty →
      Moves maxThroughput s (.send t) (s.sent t s.toShared .busy)
  /-- `flags_` is busy: the call returns. -/
  | skip {t : τ} : (s.thread t).send = .flags → s.flags = .busy →
      Moves maxThroughput s (.send t) (s.sent t s.toShared .idle)
  /-- `flags_` becomes busy. -/
  | busy {t : τ} : (s.thread t).send = .busy →
      Moves maxThroughput s (.send t) (s.sent t { s.toShared with flags := .busy } .block)
  /-- The `try_block` of `intrusive_ptr_add_ref_impl`. -/
  | block {t : τ} : (s.thread t).send = .block →
      Moves maxThroughput s (.send t)
        (s.sent t { s.toShared with mailbox := s.mailbox.tryBlock.1 } .ref)
  /-- A reference for the job. -/
  | ref {t : τ} : (s.thread t).send = .ref →
      Moves maxThroughput s (.send t)
        (s.sent t { s.toShared with refCount := s.refCount + 1 } .execute)
  /-- The job is pushed. -/
  | execute {t : τ} : (s.thread t).send = .execute →
      Moves maxThroughput s (.send t) (s.sent t { s.toShared with jobs := s.jobs + 1 } .idle)
  /-- The job is taken. -/
  | dequeue {t : τ} {n : ℕ} : s.thread t = ⟨.idle, .idle⟩ → s.jobs = n + 1 →
      Moves maxThroughput s (.dequeue t)
        (s.worked t { s.toShared with jobs := n } (cacheHead maxThroughput s.mailbox 0 none))
  /-- A step inside `run`. -/
  | run {t : τ} {q : Mailbox α} {pc : WorkPc α} : (s.thread t).send = .idle →
      runStep maxThroughput s.mailbox (s.thread t).work = some (q, pc) →
      Moves maxThroughput s (.work t) (s.worked t { s.toShared with mailbox := q } pc)
  /-- `flags_` becomes empty. -/
  | store {t : τ} : s.thread t = ⟨.idle, .store⟩ →
      Moves maxThroughput s (.work t) (s.worked t { s.toShared with flags := .empty } .unblock)
  /-- The `try_unblock` of `intrusive_ptr_release_impl`. -/
  | unblock {t : τ} : s.thread t = ⟨.idle, .unblock⟩ →
      Moves maxThroughput s (.work t)
        (s.worked t { s.toShared with mailbox := s.mailbox.tryUnblock.1 } .deref)
  /-- The job's reference is dropped. -/
  | deref {t : τ} : s.thread t = ⟨.idle, .deref⟩ →
      Moves maxThroughput s (.work t)
        (s.worked t { s.toShared with refCount := s.refCount - 1 } .idle)

section Moves

variable {maxThroughput : ℕ} {s s' : State τ α} {a : Act τ α}

theorem moves_of_send {t : τ} {c : Shared α} {pc : SendPc α}
    (h : sendStep s.toShared (s.thread t).send = some (c, pc)) :
    Moves maxThroughput s (.send t) (s.sent t c pc) := by
  cases hp : (s.thread t).send with
  | idle => rw [hp] at h; cases h
  | load m => rw [hp] at h; cases h; exact .load hp
  | exchange m e =>
    rw [hp] at h
    simp only [sendStep] at h
    split_ifs at h with hn he
    · cases h
      cases e with
      | null => exact .closed hp
      | _ => cases hn
    · cases h
      subst he
      refine .push hp fun hc => hn ?_
      rw [hc]
      rfl
    · cases h
      exact .retry hp
  | flags =>
    rw [hp] at h
    simp only [sendStep] at h
    split_ifs at h with hf
    · cases h; exact .schedule hp hf
    · cases h
      refine .skip hp ?_
      cases hf' : s.flags with
      | empty => exact absurd hf' hf
      | busy => rfl
  | busy => rw [hp] at h; cases h; exact .busy hp
  | block => rw [hp] at h; cases h; exact .block hp
  | ref => rw [hp] at h; cases h; exact .ref hp
  | execute => rw [hp] at h; cases h; exact .execute hp

theorem moves_of_work {t : τ} {c : Shared α} {pc : WorkPc α} (hi : (s.thread t).send = .idle)
    (h : workStep maxThroughput s.toShared (s.thread t).work = some (c, pc)) :
    Moves maxThroughput s (.work t) (s.worked t c pc) := by
  have heq : ∀ pc, (s.thread t).work = pc → s.thread t = ⟨.idle, pc⟩ := by
    rintro pc rfl
    rw [← hi]
  unfold workStep at h
  split at h
  next hw => cases h; exact .store (heq _ hw)
  next hw => cases h; exact .unblock (heq _ hw)
  next hw => cases h; exact .deref (heq _ hw)
  next =>
    obtain ⟨⟨q, pc⟩, hr, h⟩ := Option.map_eq_some_iff.mp h
    cases h
    exact .run hi hr

/-- Every step is one of the moves. -/
theorem moves_of_step (h : step maxThroughput s a = some s') : Moves maxThroughput s a s' := by
  cases a with
  | call t m =>
    simp only [step] at h
    split at h
    next ht => cases h; exact .call (by rw [ht])
    next ht => cases h; exact .call (by rw [ht])
    next => cases h
  | send t =>
    obtain ⟨⟨c, pc⟩, hr, h⟩ := Option.map_eq_some_iff.mp h
    cases h
    exact moves_of_send hr
  | dequeue t =>
    simp only [step] at h
    split at h
    next ht hj => cases h; exact .dequeue ht hj
    next => cases h
  | work t =>
    simp only [step] at h
    split at h
    next hi =>
      obtain ⟨⟨c, pc⟩, hr, h⟩ := Option.map_eq_some_iff.mp h
      cases h
      exact moves_of_work hi hr
    next => cases h

/-- What holds at the start and is kept by every move that meets `C` holds of every state a
run of such moves reaches. -/
theorem ReachableBy.of_moves {C : State τ α → Act τ α → Prop} {I : State τ α → Prop} (init : I {})
    (moves : ∀ s a s', I s → C s a → Moves maxThroughput s a s' → I s')
    (h : (system τ α maxThroughput).ReachableBy C s) : I s := by
  refine h.invariant ?_ ?_
  · rintro s rfl
    exact init
  · intro s a s' hI hC hs
    exact moves s a s' hI hC (moves_of_step hs)

end Moves

/-! ### What a worker does on its own -/

section Private

omit [DecidableEq α]

variable {maxThroughput : ℕ}

theorem inRun_of_reading {pc : WorkPc α} (h : pc.reading = true) : pc.inRun = true := by
  cases pc with
  | tryBlock => rfl
  | _ => exact h

/-- What a worker does to the mailbox between two steps: it takes a message from the cache
or puts one there, and goes on reading unless the first part of the cache is empty. -/
structure Private (q q' : Mailbox α) (pc : WorkPc α) : Prop where
  /-- `stack_` is not touched. -/
  stack : q'.stack = q.stack
  /-- Nor is `head_`. -/
  head : q'.head = q.head
  /-- `run` does not return. -/
  inRun : pc.inRun = true
  /-- No assertion of `fetch_new_data` fails. -/
  sound : pc.misread = false
  /-- `try_block` is next only when nothing is left in the cache. -/
  reading : q'.cache.first ≠ [] → pc.reading = true

theorem reading_tailHead (n : ℕ) (ptr : Option α) :
    (tailHead n ptr).reading = true ∧ (tailHead n ptr).misread = false := by
  cases ptr <;> exact ⟨rfl, rfl⟩

theorem reading_mainHead (n : ℕ) (ptr : Option α) :
    (mainHead maxThroughput n ptr).reading = true ∧ (mainHead maxThroughput n ptr).misread = false := by
  unfold mainHead
  split_ifs
  · exact ⟨rfl, rfl⟩
  · exact reading_tailHead n ptr

/-- Wherever `run` goes from the head of its first loop, it reads the mailbox. -/
theorem reading_cacheHead (q : Mailbox α) (n : ℕ) (ptr : Option α) :
    (cacheHead maxThroughput q n ptr).reading = true ∧
      (cacheHead maxThroughput q n ptr).misread = false := by
  unfold cacheHead
  split_ifs
  · exact ⟨rfl, rfl⟩
  · exact reading_mainHead n ptr

theorem Private.of_reading {q q' : Mailbox α} {pc : WorkPc α} (hs : q'.stack = q.stack)
    (hh : q'.head = q.head) (hpc : pc.reading = true ∧ pc.misread = false) : Private q q' pc :=
  ⟨hs, hh, inRun_of_reading hpc.1, hpc.2, fun _ => hpc.1⟩

theorem private_taken (q : Mailbox α) (pt : Point) :
    Private q (taken maxThroughput q pt).1 (taken maxThroughput q pt).2 := by
  unfold taken
  split
  next hf =>
    refine ⟨rfl, rfl, ?_, ?_, fun h => absurd hf h⟩
    · split_ifs <;> rfl
    · split_ifs <;> rfl
  next m ms hf =>
    obtain ⟨loop, n⟩ := pt
    cases loop with
    | cache =>
      dsimp only
      split_ifs
      · exact .of_reading rfl rfl (reading_cacheHead _ _ _)
      · exact ⟨rfl, rfl, rfl, rfl, fun _ => rfl⟩
    | main => exact ⟨rfl, rfl, rfl, rfl, fun _ => rfl⟩
    | tail => exact ⟨rfl, rfl, rfl, rfl, fun _ => rfl⟩

theorem private_handled (q : Mailbox α) (pt : Point) (m : α) :
    Private q (handled maxThroughput q pt m).1 (handled maxThroughput q pt m).2 := by
  obtain ⟨loop, n⟩ := pt
  cases loop with
  | cache => exact .of_reading rfl rfl (reading_cacheHead _ _ _)
  | main => exact .of_reading rfl rfl (reading_mainHead _ _)
  | tail => exact ⟨rfl, rfl, rfl, rfl, fun _ => rfl⟩

end Private

/-! ### A step inside `run` -/

section RunMoves

variable {maxThroughput : ℕ}

/-- What a step inside `run` does: one case for each kind of step. -/
inductive RunMoves (maxThroughput : ℕ) (q : Mailbox α) : WorkPc α → Mailbox α → WorkPc α → Prop where
  /-- An element goes from `head_` to the cache. -/
  | pop {pt : Point} {x : α} {head : List α} : q.head = x :: head →
      RunMoves maxThroughput q (.tryPop pt) (cached q head x) (.tryPop pt)
  /-- `try_pop` returns null, at its first look. -/
  | drained {pt : Point} : q.head = [] → q.stack = .list [] →
      RunMoves maxThroughput q (.tryPop pt) (taken maxThroughput q pt).1 (taken maxThroughput q pt).2
  /-- There is something on the stack. -/
  | read {pt : Point} {x : α} {l : List α} : q.head = [] → q.stack = .list (x :: l) →
      RunMoves maxThroughput q (.tryPop pt) q (.exchange pt (.elem x))
  /-- The stack is taken and its first element cached. -/
  | fetch {pt : Point} {x : α} {head : List α} : q.stack ≠ .blocked →
      Mailbox.relink q.stack.elems q.head = x :: head →
      RunMoves maxThroughput q (.exchange pt q.stack.top) (cached { q with stack := .list [] } head x)
        (.tryPop pt)
  /-- Somebody else has emptied the stack. -/
  | emptied {pt : Point} {e : Ptr α} : q.stack = .list [] →
      RunMoves maxThroughput q (.exchange pt e) (taken maxThroughput q pt).1
        (taken maxThroughput q pt).2
  /-- The exchange fails. -/
  | retry {pt : Point} {e : Ptr α} :
      RunMoves maxThroughput q (.exchange pt e) q (.exchange pt q.stack.top)
  /-- The mailbox is blocked, and `run` returns. -/
  | block {pt : Point} : q.stack = .list [] →
      RunMoves maxThroughput q (.tryBlock pt) { q with stack := .blocked } .store
  /-- The mailbox is not blocked. -/
  | again {pt : Point} : RunMoves maxThroughput q (.tryBlock pt) q (.tryPop pt)
  /-- A handler returns. -/
  | handled {pt : Point} {m : α} :
      RunMoves maxThroughput q (.handler pt m) (handled maxThroughput q pt m).1
        (handled maxThroughput q pt m).2
  /-- There are messages left, and `run` returns. -/
  | hasNext : RunMoves maxThroughput q .hasNext q .store
  /-- There are none. -/
  | hasNone : RunMoves maxThroughput q .hasNext q .lastBlock
  /-- The last `try_block`, behind which `run` returns. -/
  | lastBlock : RunMoves maxThroughput q .lastBlock q.tryBlock.1 .store
  /-- `run` stops. -/
  | fail {pc : WorkPc α} {q' : Mailbox α} {f : Fault} : pc.inRun = true →
      (q' = q ∨ q' = { q with stack := .list [] }) → (f = .fetchBlocked → q.stack = .blocked) →
      (f = .fetchClosed → q.stack = .closed) → RunMoves maxThroughput q pc q' (.failed f)

variable {q : Mailbox α} {pc : WorkPc α} {r : Mailbox α × WorkPc α}

/-- Every step inside `run` is one of these. -/
theorem runMoves_of_runStep (h : runStep maxThroughput q pc = some r) :
    RunMoves maxThroughput q pc r.1 r.2 := by
  cases pc with
  | tryPop pt =>
    simp only [runStep] at h
    split at h
    next hh => cases h; exact .pop hh
    next hh =>
      split at h
      next hs => cases h; exact .fail rfl (.inl rfl) nofun fun _ => Stack.top_eq_null.mp hs
      next hs => cases h; exact .fail rfl (.inl rfl) (fun _ => Stack.top_eq_blockedDummy.mp hs) nofun
      next hs => cases h; exact .drained hh (Stack.top_eq_emptyDummy.mp hs)
      next hs =>
        cases h
        obtain ⟨l, hl⟩ := Stack.top_eq_elem.mp hs
        exact .read hh hl
  | exchange pt e =>
    simp only [runStep] at h
    split_ifs at h with he hb he'
    · cases h
      exact .fail rfl (.inr rfl) (fun _ => Stack.top_eq_blockedDummy.mp (he.trans hb)) nofun
    · subst he
      split at h
      next => cases h; exact .fail rfl (.inr rfl) nofun nofun
      next hr => cases h; exact .fetch (fun hs => hb (Stack.top_eq_blockedDummy.mpr hs)) hr
    · cases h
      exact .emptied (Stack.top_eq_emptyDummy.mp he')
    · cases h
      exact .retry
  | tryBlock pt =>
    simp only [runStep] at h
    split at h
    next hb =>
      cases h
      obtain ⟨hs, rfl⟩ := Mailbox.of_tryBlock_true hb
      exact .block hs
    next hb =>
      cases h
      obtain rfl := Mailbox.of_tryBlock_false hb
      exact .again
  | handler pt m => cases h; exact .handled
  | hasNext =>
    simp only [runStep] at h
    split at h
    next hf =>
      cases h
      obtain ⟨rfl, hs⟩ := Mailbox.of_hasNextMessage_error hf
      exact .fail rfl (.inl rfl) nofun fun _ => hs
    next => cases h; exact .hasNext
    next => cases h; exact .hasNone
  | lastBlock => cases h; exact .lastBlock
  | idle => cases h
  | failed f => cases h
  | store => cases h
  | unblock => cases h
  | deref => cases h

omit [DecidableEq α] in
theorem RunMoves.inRun {q' : Mailbox α} {pc' : WorkPc α}
    (h : RunMoves maxThroughput q pc q' pc') : pc.inRun = true := by
  cases h with
  | fail hpc => exact hpc
  | _ => rfl

omit [DecidableEq α] in
/-- A step inside `run` stays there, or `run` returns. -/
theorem RunMoves.stays {q' : Mailbox α} {pc' : WorkPc α}
    (h : RunMoves maxThroughput q pc q' pc') : pc'.inRun = true ∨ pc' = .store := by
  cases h with
  | drained => exact .inl (private_taken q _).inRun
  | emptied => exact .inl (private_taken q _).inRun
  | handled => exact .inl (private_handled q _ _).inRun
  | block | hasNext | lastBlock => exact .inr rfl
  | _ => exact .inl rfl

end RunMoves

end ActorsFramework.Scheduling
