import Mathlib.Data.List.Basic
import ActorsFramework.Lib.Transition
import ActorsFramework.Supervisor.Contacts

/-!
# Nested dispatch

Supervisors whose `enqueue_base` is `set_current_message` and then `execute`: a
message is processed on the spot, by the thread that sends it. A handler may send
messages that come back to its supervisor, directly or through the actors and
supervisors that they reach; the calls that are under way are a stack.

`set_current_message` overwrites `current_message_` and nothing restores it, so that
after a nested message a handler finds that one in place of its own.
`current_message_iff` says when: a handler finds its own message as long as no other
message has been dispatched to its supervisor. In a run where none ever is while a
handler of the supervisor is under way, `spawn_actor` links the new actor with the
sender of the message that the handler is for.

How many messages were dispatched to each supervisor is kept beside the state, and
each handler's message is numbered.
-/

namespace ActorsFramework.Supervisor.Dispatch

open Lib

variable {A κ : Type*} [DecidableEq A]

/-- A `message`. -/
structure Message (A κ : Type*) where
  /-- Which of the messages it is. -/
  id : ℕ
  /-- `sender_`. -/
  sender : Address A
  /-- `command_`. -/
  command : κ
  deriving DecidableEq

/-- Where `spawn_actor` is. -/
inductive SpawnPc where
  /-- In the constructor of the actor. -/
  | construct
  /-- In `add_actor_impl`. -/
  | addActor
  /-- In `sync`, where "add_link" is sent to the actor. -/
  | sync
  /-- In `link`, if it is called. -/
  | link
  deriving DecidableEq

/-- A call under way. -/
inductive Frame (A κ : Type*) where
  /-- A handler of the supervisor `p`, for the message dispatched to it as number `n`. -/
  | handler (p : A) (m : Message A κ) (n : ℕ)
  /-- `run` of an actor, that an executor runs in place. -/
  | run (a : A)
  /-- `spawn_actor` of the actor `a`, called by such a handler. -/
  | spawnActor (p : A) (m : Message A κ) (n : ℕ) (a : A) (pc : SpawnPc)
  deriving DecidableEq

/-- The supervisor whose handler the call belongs to, with the handler's message. -/
def Frame.serves : Frame A κ → Option (A × Message A κ × ℕ)
  | .handler p m n | .spawnActor p m n _ _ => some (p, m, n)
  | .run _ => none

/-- The last part of `sync`: the messages of `link`. -/
def syncLinks (this : A) (sender address : Address A) : Except Fault (List (AddLink A)) :=
  if sender.isSome ∧ sender ≠ some this then linkImp sender address else .ok []

/-- After the contact and its "add_link", `sync` does just that. -/
theorem sync_eq [DecidableEq κ] {type : A → κ} {this : A} {c c' : SupervisorAbstract.Contacts A κ}
    {address : Address A} {m : AddLink A}
    (hc : SupervisorAbstract.addLinkImpl type this c address = .ok c')
    (hm : sendAddLink address (some this) = .ok m) (sender : Address A) :
    SupervisorAbstract.sync type this c sender address =
      (syncLinks this sender address).map fun ms => (c', m :: ms) := by
  by_cases hs : sender.isSome ∧ sender ≠ some this
  · simp only [SupervisorAbstract.sync, syncLinks, hc, hm, if_pos hs]
    cases linkImp sender address with
    | error e => rfl
    | ok ms => rfl
  · simp only [SupervisorAbstract.sync, syncLinks, hc, hm, if_neg hs]
    rfl

/-- A `spawn_actor` that has read the current message. -/
structure Spawned (A κ : Type*) where
  /-- The supervisor that spawned the actor. -/
  supervisor : A
  /-- The message that its handler is for. -/
  message : Message A κ
  /-- The actor. -/
  actor : A
  /-- The messages that `sync` links it by. -/
  links : Except Fault (List (AddLink A))

/-- The supervisors, and the calls under way. -/
structure State (A κ : Type*) where
  /-- `current_message_`. -/
  current : A → Option (Message A κ) := fun _ => none
  /-- The calls, the innermost first. -/
  stack : List (Frame A κ) := []
  /-- The number of messages made so far. -/
  next : ℕ := 0
  /-- The number of messages dispatched to each supervisor. -/
  dispatched : A → ℕ := fun _ => 0
  /-- What was spawned. -/
  spawned : List (Spawned A κ) := []

/-- What the innermost call does. -/
inductive Action (A κ : Type*) where
  /-- It sends a message to a supervisor. -/
  | send (p : A) (sender : Address A) (command : κ)
  /-- It sends a message to an actor, that the executor runs in place. -/
  | run (a : A)
  /-- It is a handler and calls `spawn_actor`. -/
  | spawnActor (a : A)
  /-- It is `spawn_actor` and goes on. -/
  | next
  /-- It returns. -/
  | ret
  deriving DecidableEq

namespace State

/-- `set_current_message`. -/
def setCurrentMessage (s : State A κ) (p : A) (m : Message A κ) : State A κ :=
  { s with
    current := Function.update s.current p (some m)
    next := s.next + 1
    dispatched := Function.update s.dispatched p (s.dispatched p + 1) }

/-- `communication_module::execute`: the handler for the current message is called, if there is
one. (Else the warning asks the sender for its type, which is not defined where the sender is the
empty address; here nothing happens.) -/
def execute (handles : A → κ → Bool) (s : State A κ) (p : A) : State A κ :=
  match s.current p with
  | none => s
  | some m =>
    if handles p m.command then { s with stack := .handler p m (s.dispatched p) :: s.stack } else s

/-- `enqueue_base` of a supervisor. -/
def enqueueBase (handles : A → κ → Bool) (s : State A κ) (p : A) (m : Message A κ) : State A κ :=
  (s.setCurrentMessage p m).execute handles p

/-- The step function. -/
def step (handles : A → κ → Bool) (s : State A κ) : Action A κ → Option (State A κ)
  | .send p sender command => some (s.enqueueBase handles p ⟨s.next, sender, command⟩)
  | .run a => some { s with stack := .run a :: s.stack }
  | .spawnActor a =>
    match s.stack with
    | .handler p m n :: _ => some { s with stack := .spawnActor p m n a .construct :: s.stack }
    | _ => none
  | .next =>
    match s.stack with
    | .spawnActor p m n a .construct :: st => some { s with stack := .spawnActor p m n a .addActor :: st }
    | .spawnActor p m n a .addActor :: st => some { s with stack := .spawnActor p m n a .sync :: st }
    | .spawnActor p m n a .sync :: st =>
      -- `current_message()->sender()`
      match s.current p with
      | none => none
      | some cur => some { s with
          stack := .spawnActor p m n a .link :: st
          spawned := s.spawned ++ [⟨p, m, a, syncLinks p cur.sender (some a)⟩] }
    | _ => none
  | .ret =>
    match s.stack with
    | .handler _ _ _ :: st | .run _ :: st | .spawnActor _ _ _ _ .link :: st => some { s with stack := st }
    | _ => none

end State

/-- Any supervisors, with any handlers: nothing is under way at first. -/
def dispatching (handles : A → κ → Bool) : System (State A κ) (Action A κ) where
  Init s := s = {}
  step := State.step handles

/-- No message is dispatched to a supervisor while one of its handlers is under way. -/
def Flat (s : State A κ) : Action A κ → Prop
  | .send p _ _ => ∀ f ∈ s.stack, f.serves.map Prod.fst ≠ some p
  | _ => True

instance (s : State A κ) (x : Action A κ) : Decidable (Flat s x) :=
  match x with
  | .send p _ _ => inferInstanceAs (Decidable (∀ f ∈ s.stack, f.serves.map Prod.fst ≠ some p))
  | .run _ | .spawnActor _ | .next | .ret => isTrue trivial

/-! ### The invariant -/

/-- A call under way finds the message it is for just as long as this was the last one that was
dispatched to its supervisor. -/
structure Finds (s : State A κ) (p : A) (m : Message A κ) (n : ℕ) : Prop where
  /-- The message was made before. -/
  old : m.id < s.next
  /-- It was dispatched before. -/
  le : n ≤ s.dispatched p
  /-- It is the current one if it was the last. -/
  iff : s.current p = some m ↔ s.dispatched p = n

/-- All calls under way. -/
def Inv (s : State A κ) : Prop := ∀ f ∈ s.stack, ∀ p m n, f.serves = some (p, m, n) → Finds s p m n

/-- Each call under way is for the last message, and every actor so far was linked with the
sender of the message that its supervisor's handler was for. -/
structure InOrder (s : State A κ) : Prop where
  /-- The calls. -/
  last : ∀ f ∈ s.stack, ∀ p m n, f.serves = some (p, m, n) → s.dispatched p = n
  /-- The actors. -/
  spawned : ∀ r ∈ s.spawned, r.links = syncLinks r.supervisor r.message.sender (some r.actor)

variable {handles : A → κ → Bool} {s s' : State A κ}

variable (handles s) in
/-- `enqueue_base` changes the current message of one supervisor, and may call a handler. -/
theorem enqueueBase_eq (p : A) (m : Message A κ) :
    (s.enqueueBase handles p m).current = Function.update s.current p (some m) ∧
      (s.enqueueBase handles p m).dispatched = Function.update s.dispatched p (s.dispatched p + 1) ∧
      (s.enqueueBase handles p m).next = s.next + 1 ∧
      (s.enqueueBase handles p m).spawned = s.spawned ∧
      ∀ f ∈ (s.enqueueBase handles p m).stack,
        f = .handler p m (s.dispatched p + 1) ∨ f ∈ s.stack := by
  have hcur : (s.setCurrentMessage p m).current p = some m := Function.update_self ..
  have hdis : (s.setCurrentMessage p m).dispatched p = s.dispatched p + 1 := Function.update_self ..
  unfold State.enqueueBase State.execute
  rw [hcur]
  dsimp only
  split_ifs
  · refine ⟨rfl, rfl, rfl, rfl, fun f hf => ?_⟩
    rcases List.mem_cons.mp hf with rfl | hf
    · exact .inl (by rw [hdis])
    · exact .inr hf
  · exact ⟨rfl, rfl, rfl, rfl, fun f hf => .inr hf⟩

/-- **A dispatch**: the handlers of the supervisor that are under way lose their message. -/
theorem Inv.send (h : Inv s) (p : A) (sender : Address A) (command : κ) :
    Inv (s.enqueueBase handles p ⟨s.next, sender, command⟩) := by
  obtain ⟨hcur, hdis, hnext, -, hst⟩ := enqueueBase_eq handles s p ⟨s.next, sender, command⟩
  intro f hf q m n hq
  rcases hst f hf with rfl | hf
  · cases hq
    refine ⟨?_, ?_, ?_⟩
    · rw [hnext]
      exact Nat.lt_succ_self _
    · rw [hdis, Function.update_self]
    · rw [hcur, hdis, Function.update_self, Function.update_self]
      exact ⟨fun _ => rfl, fun _ => rfl⟩
  · obtain ⟨hold, hle, hiff⟩ := h f hf q m n hq
    refine ⟨?_, ?_, ?_⟩
    · rw [hnext]
      exact Nat.lt_succ_of_lt hold
    · rw [hdis]
      by_cases hqp : q = p
      · subst hqp
        rw [Function.update_self]
        exact Nat.le_succ_of_le hle
      · rwa [Function.update_of_ne hqp]
    · rw [hcur, hdis]
      by_cases hqp : q = p
      · subst hqp
        rw [Function.update_self, Function.update_self]
        constructor
        · -- the message dispatched is a new one
          intro he
          rw [← Option.some.inj he] at hold
          exact absurd hold (Nat.lt_irrefl _)
        · intro he
          omega
      · rwa [Function.update_of_ne hqp, Function.update_of_ne hqp]

omit [DecidableEq A] in
/-- A call begins, goes on or returns; no message is dispatched. -/
theorem Inv.of_stack (h : Inv s) (hcur : s'.current = s.current) (hdis : s'.dispatched = s.dispatched)
    (hnext : s'.next = s.next)
    (hst : ∀ f ∈ s'.stack, f.serves = none ∨ ∃ g ∈ s.stack, f.serves = g.serves) : Inv s' := by
  intro f hf p m n hp
  rcases hst f hf with hn | ⟨g, hg, he⟩
  · rw [hp] at hn
    cases hn
  · obtain ⟨hold, hle, hiff⟩ := h g hg p m n (he.symm.trans hp)
    exact ⟨by rwa [hnext], by rwa [hdis], by rwa [hcur, hdis]⟩

/-- What a step that dispatches no message leaves alone, and what it may spawn. -/
structure Local (s s' : State A κ) : Prop where
  current : s'.current = s.current
  dispatched : s'.dispatched = s.dispatched
  next : s'.next = s.next
  /-- The calls are for messages that calls were for before. -/
  stack : ∀ f ∈ s'.stack, f.serves = none ∨ ∃ g ∈ s.stack, f.serves = g.serves
  /-- An actor is linked with the sender of the current message. -/
  spawned : ∀ r ∈ s'.spawned, r ∈ s.spawned ∨ ∃ g ∈ s.stack, ∃ m n cur,
    g.serves = some (r.supervisor, m, n) ∧ s.current r.supervisor = some cur ∧ r.message = m ∧
      r.links = syncLinks r.supervisor cur.sender (some r.actor)

omit [DecidableEq A] in
/-- The innermost call goes on. -/
theorem serves_cons {f g : Frame A κ} {st : List (Frame A κ)} (he : f.serves = g.serves) :
    ∀ f' ∈ f :: st, f'.serves = none ∨ ∃ g' ∈ g :: st, f'.serves = g'.serves := by
  intro f' hf
  rcases List.mem_cons.mp hf with rfl | hf
  · exact .inr ⟨g, List.mem_cons_self .., he⟩
  · exact .inr ⟨f', List.mem_cons_of_mem _ hf, rfl⟩

/-- `spawn_actor` goes on. -/
theorem local_next (hs : s.step handles .next = some s') : Local s s' := by
  simp only [State.step] at hs
  split at hs
  next p m n a st hst =>
    cases hs
    exact ⟨rfl, rfl, rfl, by rw [hst]; exact serves_cons rfl, fun r hr => .inl hr⟩
  next p m n a st hst =>
    cases hs
    exact ⟨rfl, rfl, rfl, by rw [hst]; exact serves_cons rfl, fun r hr => .inl hr⟩
  next p m n a st hst =>
    split at hs <;> cases hs
    next cur hcur =>
    refine ⟨rfl, rfl, rfl, by rw [hst]; exact serves_cons rfl, fun r hr => ?_⟩
    rcases List.mem_append.mp hr with hr | hr
    · exact .inl hr
    · rw [List.mem_singleton.mp hr, hst]
      exact .inr ⟨_, List.mem_cons_self .., m, n, cur, rfl, hcur, rfl, rfl⟩
  next => cases hs

/-- A step is a dispatch or leaves the current messages alone. -/
theorem local_of_step {x : Action A κ} (hs : s.step handles x = some s') :
    (∃ p sender command, x = .send p sender command ∧
      s' = s.enqueueBase handles p ⟨s.next, sender, command⟩) ∨ Local s s' := by
  cases x with
  | send p sender command =>
    cases hs
    exact .inl ⟨p, sender, command, rfl, rfl⟩
  | run a =>
    cases hs
    refine .inr ⟨rfl, rfl, rfl, fun f hf => ?_, fun r hr => .inl hr⟩
    rcases List.mem_cons.mp hf with rfl | hf
    · exact .inl rfl
    · exact .inr ⟨f, hf, rfl⟩
  | spawnActor a =>
    simp only [State.step] at hs
    split at hs <;> cases hs
    next p m n st hst =>
    refine .inr ⟨rfl, rfl, rfl, fun f hf => ?_, fun r hr => .inl hr⟩
    rcases List.mem_cons.mp hf with rfl | hf
    · exact .inr ⟨.handler p m n, by rw [hst]; exact List.mem_cons_self .., rfl⟩
    · exact .inr ⟨f, hf, rfl⟩
  | next => exact .inr (local_next hs)
  | ret =>
    have hpop : ∀ g st, s.stack = g :: st → s' = { s with stack := st } → Local s s' := by
      rintro g st hst rfl
      refine ⟨rfl, rfl, rfl, fun f hf => ?_, fun r hr => .inl hr⟩
      exact .inr ⟨f, by rw [hst]; exact List.mem_cons_of_mem _ hf, rfl⟩
    simp only [State.step] at hs
    split at hs <;> cases hs
    next hst => exact .inr (hpop _ _ hst rfl)
    next hst => exact .inr (hpop _ _ hst rfl)
    next hst => exact .inr (hpop _ _ hst rfl)

/-- **One step** keeps the invariant. -/
theorem Inv.step (h : Inv s) {x : Action A κ} (hs : s.step handles x = some s') : Inv s' := by
  rcases local_of_step hs with ⟨p, sender, command, -, rfl⟩ | hl
  · exact h.send p sender command
  · exact h.of_stack hl.current hl.dispatched hl.next hl.stack

/-- **One step** that dispatches no message to a supervisor with a handler under way keeps all in
order. -/
theorem InOrder.step (h : InOrder s) (hi : Inv s) {x : Action A κ} (hx : Flat s x)
    (hs : s.step handles x = some s') : InOrder s' := by
  rcases local_of_step hs with ⟨p, sender, command, rfl, rfl⟩ | hl
  · obtain ⟨-, hdis, -, hsp, hst⟩ := enqueueBase_eq handles s p ⟨s.next, sender, command⟩
    refine ⟨fun f hf q m n hq => ?_, by rw [hsp]; exact h.spawned⟩
    rw [hdis]
    rcases hst f hf with rfl | hf
    · cases hq
      exact Function.update_self ..
    · have hqp : q ≠ p := fun he => hx f hf (by rw [hq, ← he]; rfl)
      rw [Function.update_of_ne hqp]
      exact h.last f hf q m n hq
  · constructor
    · intro f hf p m n hp
      rw [hl.dispatched]
      rcases hl.stack f hf with hn | ⟨g, hg, he⟩
      · rw [hp] at hn
        cases hn
      · exact h.last g hg p m n (he.symm.trans hp)
    · intro r hr
      rcases hl.spawned r hr with hr | ⟨g, hg, m, n, cur, hserves, hcur, hm, hlinks⟩
      · exact h.spawned r hr
      · -- the handler is for the last message, so the current message is its own
        have hown := (hi g hg _ m n hserves).iff.mpr (h.last g hg _ m n hserves)
        rw [hcur] at hown
        rw [hlinks, hm, Option.some.inj hown]

theorem inv_of_reachable (h : (dispatching handles).Reachable s) : Inv s := by
  refine System.Reachable.invariant (I := Inv) ?_ (fun s x s' hI hs => hI.step hs) h
  rintro s rfl f hf
  cases hf

theorem inOrder_of_reachableBy (h : (dispatching handles).ReachableBy Flat s) : InOrder s := by
  refine (System.ReachableBy.invariant (I := fun s => Inv s ∧ InOrder s) ?_ ?_ h).2
  · rintro s rfl
    exact ⟨fun f hf => absurd hf List.not_mem_nil, ⟨fun f hf => absurd hf List.not_mem_nil,
      fun r hr => absurd hr List.not_mem_nil⟩⟩
  · exact fun s x s' hI hx hs => ⟨hI.1.step hs, hI.2.step hI.1 hx hs⟩

/-- **What `current_message` is in a handler**: in every state of every run, a handler under way
finds the message it is for exactly when no other message has been dispatched to its
supervisor since. In a run in which no message is dispatched to a supervisor while one of its
handlers is under way, every handler finds its message throughout, and every actor spawned
is linked with the sender of the message that the handler was for. -/
theorem current_message_iff {tr : List (State A κ × Action A κ)} (h : (dispatching handles).Run tr s) :
    (∀ p m n, Frame.handler p m n ∈ s.stack → (s.current p = some m ↔ s.dispatched p = n)) ∧
      (System.Meets Flat tr →
        (∀ p m n, Frame.handler p m n ∈ s.stack → s.current p = some m) ∧
          ∀ r ∈ s.spawned, r.links = syncLinks r.supervisor r.message.sender (some r.actor)) := by
  have hi := inv_of_reachable ⟨tr, h⟩
  have hiff : ∀ p m n, Frame.handler p m n ∈ s.stack → (s.current p = some m ↔ s.dispatched p = n) :=
    fun p m n hf => (hi _ hf p m n rfl).iff
  refine ⟨hiff, fun hC => ?_⟩
  have ho := inOrder_of_reachableBy ⟨tr, h, hC⟩
  exact ⟨fun p m n hf => (hiff p m n hf).mpr (ho.last _ hf p m n rfl), ho.spawned⟩

/-- The supervisor `0` spawns the actor `2` in a handler for a message from `1`, and is done. -/
theorem current_message_iff_one : ∃ s, (dispatching fun (_ : Fin 3) (_ : ℕ) => true).Reachable s ∧
    s.spawned.length = 1 ∧
      ∀ r ∈ s.spawned, r.links = syncLinks r.supervisor r.message.sender (some r.actor) := by
  obtain ⟨s, hs, hn⟩ : ∃ s, (dispatching fun (_ : Fin 3) (_ : ℕ) => true).replay
      (fun s x => decide (Flat s x)) {} [.send 0 (some 1) 7, .spawnActor 2, .next, .next, .run 2, .ret,
        .next, .ret, .ret] = some s ∧ s.spawned.length = 1 := ⟨_, rfl, rfl⟩
  obtain ⟨tr, hr, hC⟩ := System.ReachableBy.of_replay (C := Flat) (fun _ _ hx => of_decide_eq_true hx)
    ⟨[], .init rfl, System.meets_nil _⟩ hs
  exact ⟨s, ⟨tr, hr⟩, hn, ((current_message_iff hr).2 hC).2⟩

/-- In a handler for a message from `1` the supervisor `0` sends itself a message. Afterwards
`current_message` is the second message, and an actor is not linked with `1`. -/
theorem current_message_replaced : ∃ s, (dispatching fun (_ : Fin 3) (_ : ℕ) => true).Reachable s ∧
    (∃ m n, s.stack = [.handler 0 m n] ∧ m.sender = some 1 ∧ s.current 0 ≠ some m) ∧
    ∃ r ∈ s.spawned, r.message.sender = some 1 ∧
      r.links ≠ syncLinks r.supervisor r.message.sender (some r.actor) := by
  refine ⟨_, System.Reachable.of_actions rfl [.send 0 (some 1) 7, .send 0 (some 0) 8, .ret,
    .spawnActor 2, .next, .next, .next, .ret] rfl, ⟨_, _, rfl, rfl, ?_⟩,
    ⟨_, List.mem_singleton.mpr rfl, rfl, ?_⟩⟩
  · decide
  · exact nofun

end ActorsFramework.Supervisor.Dispatch
