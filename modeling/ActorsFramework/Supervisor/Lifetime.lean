import ActorsFramework.Actor.Scheduling
import ActorsFramework.Detail.RefCounted

/-!
# How long an actor lives

The actors of a supervisor, the handles to them (`base::actor`), and their
activations. `rc_` of an actor is touched by its constructor, which counts a
reference of its own; by the conversion of the raw pointer into the parameter of
`add_actor_impl`, which adds one; by the handles as they are moved and dropped; and
by the activations.

Nothing takes over the reference that the constructor counted: `lifetime_iff` says
that an actor's count is one more than its handles and activations in every state
of every run, and that no actor is ever destroyed.

An actor with its activations is a `Scheduling.State`, and the handles are a
`Detail.IntrusivePtr.Thread`. `deref` is one step here, which
`Detail.RefCounted.deleted_once` permits.
-/

namespace ActorsFramework.Supervisor.Lifetime

open Lib Detail Detail.IntrusivePtr

variable {τ H A α : Type*}

/-! ### The model -/

/-- What is done with handles. -/
inductive HandleOp (H : Type*) where
  /-- `actor()`. -/
  | default (h : H)
  /-- `actor(actor&&)`. -/
  | move (h g : H)
  /-- `operator=(actor&&)`. -/
  | moveAssign (h g : H)
  /-- `operator=(std::nullptr_t)`. -/
  | assignNull (h : H)
  /-- `~actor`. -/
  | destroy (h : H)
  deriving DecidableEq

/-- What is done with `ptr_` of the handles. -/
def HandleOp.call : HandleOp H → Call H A
  | .default h => .default h
  | .move h g => .move h g
  | .moveAssign h g => .assignMove h g
  | .assignNull h => .reset h none true
  | .destroy h => .destroy h

/-- The actors, and the pointers to them. -/
structure State (τ H A α : Type*) where
  /-- The actors that have been made, with their activations. -/
  actor : A → Option (Scheduling.State τ α) := fun _ => none
  /-- The handles, and the raw pointers that own a reference. -/
  pointers : Thread H A := {}
  /-- `spawn_actor` is before its call of `add_actor_impl`. -/
  spawning : A → Bool := fun _ => false
  /-- How often each actor was destroyed. -/
  destroyed : A → ℕ := fun _ => 0

/-- What happens. -/
inductive Action (τ H A α : Type*) where
  /-- `new (buffer) Actor(this, …)` in `spawn_actor`. -/
  | construct (a : A)
  /-- `add_actor_impl(actor)` in `spawn_actor`: the parameter `h` is made. -/
  | addActorImpl (h : H) (a : A)
  /-- Something is done with handles. -/
  | handle (op : HandleOp H)
  /-- A step of `enqueue_base` or of an activation. -/
  | schedule (a : A) (x : Scheduling.Act τ α)

namespace State

variable [DecidableEq A]

/-- An actor changes. -/
def put (s : State τ H A α) (a : A) (c : Scheduling.State τ α) : State τ H A α :=
  { s with actor := Function.update s.actor a (some c) }

/-- `delete this` in `deref`. -/
def destroy (s : State τ H A α) (a : A) : State τ H A α :=
  { s with destroyed := Function.update s.destroyed a (s.destroyed a + 1) }

/-- `ref`, or `deref`. -/
def effect (s : State τ H A α) : Effect A → Option (State τ H A α)
  | .addRef a => (s.actor a).map fun c => s.put a { c with refCount := c.refCount + 1 }
  | .release a => (s.actor a).map fun c =>
    let s' := s.put a { c with refCount := c.refCount - 1 }
    if c.refCount = 1 then s'.destroy a else s'

/-- The effects of a member function, in order. -/
def effects : State τ H A α → List (Effect A) → Option (State τ H A α)
  | s, [] => some s
  | s, e :: es =>
    (effect { s with pointers := { s.pointers with todo := es } } e).bind fun s' => effects s' es

variable [DecidableEq H] [Fintype H]

/-- A member function of `ptr_` is called. -/
def call (s : State τ H A α) (c : Call H A) : Option (State τ H A α) :=
  (s.pointers.start c).bind fun th => effects { s with pointers := th } th.todo

variable [DecidableEq τ] [DecidableEq α]

/-- The step function. -/
def step (maxThroughput : ℕ) (s : State τ H A α) : Action τ H A α → Option (State τ H A α)
  | .construct a =>
    match s.actor a with
    | none => some { s.put a {} with
        pointers := s.pointers.own (some a)
        spawning := Function.update s.spawning a true }
    | some _ => none
  | .addActorImpl h a =>
    if s.spawning a = true then
      -- `actor(T*)`
      call { s with spawning := Function.update s.spawning a false } (.fromRaw h (some a) true)
    else none
  | .handle op => s.call op.call
  | .schedule a x =>
    match s.actor a with
    | none => none
    | some c => (Scheduling.step maxThroughput c x).map fun c' =>
      let s' := s.put a c'
      if c.refCount = 1 ∧ c'.refCount = 0 then s'.destroy a else s'

/-- The handles to an actor. -/
def handlesTo (s : State τ H A α) (a : A) : ℕ := tally (Thread.points a) s.pointers.handle

end State

/-- There is nothing at first. -/
def lifetimes (τ H A α : Type*) [DecidableEq τ] [DecidableEq H] [Fintype H] [DecidableEq A]
    [DecidableEq α] (maxThroughput : ℕ) : System (State τ H A α) (Action τ H A α) where
  Init s := s = {}
  step := State.step maxThroughput

/-! ### The references of the activations -/

/-- A sender has added the reference for the job that it is about to push. -/
def sendRefers : Scheduling.SendPc α → Bool
  | .execute => true
  | _ => false

/-- A worker runs the actor, or has yet to release it. -/
def workRefers : Scheduling.WorkPc α → Bool
  | .idle => false
  | _ => true

/-- The activations that a thread has a reference for, other than jobs. -/
def references (b : Scheduling.Thread α) : ℕ := (sendRefers b.send).toNat + (workRefers b.work).toNat

/-- The pending and the running activations of an actor. -/
def activations [Fintype τ] (c : Scheduling.State τ α) : ℕ := tally references c.thread + c.jobs

/-- Every actor's count is that of its handles and activations, and an actor has been destroyed
exactly when they are gone. -/
def State.Exact [DecidableEq A] [Fintype H] [Fintype τ] (s : State τ H A α) : Prop :=
  ∀ a c, s.actor a = some c → c.refCount = s.handlesTo a + activations c ∧
    s.destroyed a = if s.handlesTo a + activations c = 0 then 1 else 0

theorem workRefers_of_inRun {pc : Scheduling.WorkPc α} (h : pc.inRun = true) : workRefers pc = true := by
  cases pc with
  | idle => cases h
  | _ => rfl

variable [Fintype τ]

section Moves

variable [DecidableEq τ]

/-- A step of a sender that changes the count as it changes the activations. -/
theorem activations_sent {c : Scheduling.State τ α} {t : τ} {c' : Scheduling.Shared α}
    {pc : Scheduling.SendPc α}
    (h : c'.refCount + (sendRefers (c.thread t).send).toNat + c.jobs =
      c.refCount + (sendRefers pc).toNat + c'.jobs) :
    c'.refCount + activations c = c.refCount + activations (c.sent t c' pc) := by
  have hu := tally_update references c.thread t { c.thread t with send := pc }
  show c'.refCount + (tally references c.thread + c.jobs) =
    c.refCount + (tally references (Function.update c.thread t { c.thread t with send := pc }) + c'.jobs)
  simp only [references] at hu ⊢
  omega

/-- A step of a worker that changes the count as it changes the activations. -/
theorem activations_worked {c : Scheduling.State τ α} {t : τ} {c' : Scheduling.Shared α}
    {pc : Scheduling.WorkPc α}
    (h : c'.refCount + (workRefers (c.thread t).work).toNat + c.jobs =
      c.refCount + (workRefers pc).toNat + c'.jobs) :
    c'.refCount + activations c = c.refCount + activations (c.worked t c' pc) := by
  have hu := tally_update references c.thread t { c.thread t with work := pc }
  show c'.refCount + (tally references c.thread + c.jobs) =
    c.refCount + (tally references (Function.update c.thread t { c.thread t with work := pc }) + c'.jobs)
  simp only [references] at hu ⊢
  omega

variable [DecidableEq α] {maxThroughput : ℕ}

/-- **One step of an actor's senders and workers** changes its count just as it changes the
number of its activations. -/
theorem activations_move {c c' : Scheduling.State τ α} {x : Scheduling.Act τ α}
    (hc : activations c ≤ c.refCount) (hm : Scheduling.Moves maxThroughput c x c') :
    c'.refCount + activations c = c.refCount + activations c' := by
  cases hm with
  | call hp | load hp | closed hp | push hp | retry hp | schedule hp | skip hp | busy hp | block hp =>
    exact activations_sent (by rw [hp]; rfl)
  | ref hp =>
    refine activations_sent ?_
    rw [hp]
    show c.refCount + 1 + 0 + c.jobs = c.refCount + 1 + c.jobs
    rfl
  | execute hp =>
    refine activations_sent ?_
    rw [hp]
    show c.refCount + 1 + c.jobs = c.refCount + 0 + (c.jobs + 1)
    omega
  | @dequeue t n ht hj =>
    have hrun : (Scheduling.cacheHead maxThroughput c.mailbox 0 none).inRun = true :=
      Scheduling.inRun_of_reading (Scheduling.reading_cacheHead c.mailbox 0 none).1
    refine activations_worked ?_
    rw [ht, hj, workRefers_of_inRun hrun]
    show c.refCount + 0 + (n + 1) = c.refCount + 1 + n
    omega
  | @run t q pc hi hr =>
    have hm := Scheduling.runMoves_of_runStep hr
    have hpc : workRefers pc = true := by
      rcases hm.stays with hin | rfl
      · exact workRefers_of_inRun hin
      · rfl
    refine activations_worked ?_
    rw [workRefers_of_inRun hm.inRun, hpc]
    rfl
  | store ht | unblock ht => exact activations_worked (by rw [ht]; rfl)
  | @deref t ht =>
    have hle := le_tally references c.thread t
    have h₁ : references (c.thread t) = 1 := by rw [ht]; rfl
    unfold activations at hc
    refine activations_worked ?_
    rw [ht]
    show c.refCount - 1 + 1 + c.jobs = c.refCount + 0 + c.jobs
    omega

end Moves

/-! ### Every run -/

variable [Fintype H] [DecidableEq A]

/-- What holds between any two accesses to a count. -/
structure Inv (s : State τ H A α) : Prop where
  /-- The pointers. -/
  sound : RefCounted.Sound s.pointers
  /-- A count is what the pointers have to spare and the activations. -/
  count : ∀ a c, s.actor a = some c → c.refCount = RefCounted.spare a s.pointers + activations c
  /-- The reference that the constructor counted. -/
  raw : ∀ a c, s.actor a = some c → s.pointers.raw a = 1
  /-- There are no pointers to an actor that has not been made. -/
  unmade : ∀ a, s.actor a = none → s.pointers.held a = 0
  /-- No actor is destroyed. -/
  destroyed : ∀ a, s.destroyed a = 0

namespace Inv

variable {s s' : State τ H A α}

/-- The constructor's reference is always to spare. -/
theorem spare_pos (h : Inv s) {a : A} {c : Scheduling.State τ α} (ha : s.actor a = some c) :
    0 < RefCounted.spare a s.pointers := by
  refine h.sound.spare_pos (Thread.Refers.held_pos (.inr ?_))
  rw [h.raw a c ha]
  exact Nat.one_pos

/-- An actor and the pointers change. -/
theorem put (h : Inv s) {a : A} {c c' : Scheduling.State τ α} (th : Thread H A) (sp : A → Bool)
    (ha : s.actor a = some c) (hth : RefCounted.Sound th) (hraw : th.raw = s.pointers.raw)
    (hc : c'.refCount = RefCounted.spare a th + activations c')
    (hb : ∀ b, b ≠ a → RefCounted.spare b th = RefCounted.spare b s.pointers ∧
      th.held b = s.pointers.held b) :
    Inv { s.put a c' with pointers := th, spawning := sp } where
  sound := hth
  count b d hd := by
    have hd : Function.update s.actor a (some c') b = some d := hd
    show d.refCount = RefCounted.spare b th + activations d
    by_cases hba : b = a
    · subst hba
      rw [Function.update_self] at hd
      cases hd
      exact hc
    · rw [Function.update_of_ne hba] at hd
      rw [(hb b hba).1]
      exact h.count b d hd
  raw b d hd := by
    have hd : Function.update s.actor a (some c') b = some d := hd
    show th.raw b = 1
    rw [hraw]
    by_cases hba : b = a
    · rw [hba]
      exact h.raw a c ha
    · rw [Function.update_of_ne hba] at hd
      exact h.raw b d hd
  unmade b hb' := by
    have hb' : Function.update s.actor a (some c') b = none := hb'
    by_cases hba : b = a
    · subst hba
      rw [Function.update_self] at hb'
      cases hb'
    · rw [Function.update_of_ne hba] at hb'
      exact (hb b hba).2.trans (h.unmade b hb')
  destroyed := h.destroyed

/-- One effect of a member function. No release takes the count to zero. -/
theorem effect (h : Inv s) {e : Effect A} {es : List (Effect A)} (ht : s.pointers.todo = e :: es)
    (he : State.effect { s with pointers := { s.pointers with todo := es } } e = some s') :
    Inv s' ∧ s'.pointers.todo = es := by
  cases e with
  | addRef a =>
    obtain ⟨hsound, -, hq⟩ := h.sound.addRef ht
    obtain ⟨c, ha, rfl⟩ := Option.map_eq_some_iff.mp he
    refine ⟨h.put _ s.spawning ha hsound rfl ?_ fun b hb => ?_, rfl⟩
    · have := h.count a c ha
      rw [(hq a).2, if_pos rfl]
      show c.refCount + 1 = RefCounted.spare a s.pointers + 1 + activations c
      omega
    · rw [(hq b).2, if_neg hb]
      exact ⟨rfl, (hq b).1⟩
  | release a =>
    obtain ⟨hsound, -, hq⟩ := h.sound.release ht s.pointers.shared
    obtain ⟨c, ha, hs'⟩ := Option.map_eq_some_iff.mp he
    have ha : s.actor a = some c := ha
    have hcount := h.count a c ha
    have hspare := (hq a).2
    rw [if_pos rfl] at hspare
    have hpos : 0 < RefCounted.spare a { s.pointers with todo := es } := by
      refine hsound.spare_pos (Thread.Refers.held_pos (.inr ?_))
      show 0 < s.pointers.raw a
      rw [h.raw a c ha]
      exact Nat.one_pos
    dsimp only at hspare hpos
    rw [if_neg (by omega)] at hs'
    subst hs'
    refine ⟨h.put _ s.spawning ha hsound rfl ?_ fun b hb => ?_, rfl⟩
    · have hc' : c.refCount - 1 =
          RefCounted.spare a { s.pointers with todo := es } + activations c := by
        dsimp only
        omega
      exact hc'
    · have := hq b
      rw [if_neg hb] at this
      exact ⟨this.2, this.1⟩

theorem effects {es : List (Effect A)} (h : Inv s) (ht : s.pointers.todo = es)
    (he : s.effects es = some s') : Inv s' ∧ s'.pointers.todo = [] := by
  induction es generalizing s with
  | nil => cases he; exact ⟨h, ht⟩
  | cons e es ih =>
    obtain ⟨s₁, h₁, he⟩ := Option.bind_eq_some_iff.mp he
    obtain ⟨hi, hes⟩ := h.effect ht h₁
    exact ih hi hes he

variable [DecidableEq H]

/-- A member function that begins, in a state where none is under way. -/
theorem start (h : Inv s) (ht : s.pointers.todo = []) {c : Call H A} {th : Thread H A}
    (sp : A → Bool) (hth : s.pointers.start c = some th) (hraw : th.raw = s.pointers.raw) :
    Inv { s with pointers := th, spawning := sp } := by
  obtain ⟨new, old, hs⟩ := Thread.starts_of_start ht hth
  have hspare : ∀ a, RefCounted.spare a th = RefCounted.spare a s.pointers := by
    intro a
    rw [RefCounted.spare, RefCounted.spare, hs.held, hs.owed, RefCounted.owed_of_idle ht]
    omega
  refine ⟨.of_starts hs, fun a c ha => ?_, fun a c ha => ?_, fun a ha => ?_, h.destroyed⟩
  · show c.refCount = RefCounted.spare a th + activations c
    rw [hspare]
    exact h.count a c ha
  · show th.raw a = 1
    rw [hraw]
    exact h.raw a c ha
  · have hz : s.pointers.held a = 0 := h.unmade a ha
    show th.held a = 0
    rw [hs.held, hz, Thread.points, if_neg]
    intro hn
    have := hs.source a (Option.some.inj hn)
    omega

/-- A member function that leaves the raw pointers alone. -/
theorem call (h : Inv s) (ht : s.pointers.todo = []) {c : Call H A} (sp : A → Bool)
    (hraw : ∀ th, s.pointers.start c = some th → th.raw = s.pointers.raw)
    (hc : State.call { s with spawning := sp } c = some s') : Inv s' ∧ s'.pointers.todo = [] := by
  obtain ⟨th, hth, he⟩ := Option.bind_eq_some_iff.mp hc
  exact (h.start ht sp hth (hraw th hth)).effects rfl he

end Inv

/-! ### The raw pointers -/

theorem raw_of_pass [DecidableEq H] {th th' : Thread H A} {p : Option A} (h : th.pass p true = some th') :
    th'.raw = th.raw := by
  rw [(Thread.pass_true h).1]

/-- Nothing done with handles takes over a raw pointer. -/
theorem raw_of_op [DecidableEq H] {th th' : Thread H A} {op : HandleOp H}
    (h : th.start op.call = some th') : th'.raw = th.raw := by
  cases op with
  | default h | move h g | destroy h =>
    simp only [HandleOp.call, Thread.start] at h
    split at h <;> cases h
    rfl
  | moveAssign h g =>
    simp only [HandleOp.call, Thread.start] at h
    split at h
    next =>
      split at h <;> cases h
      rfl
    next => cases h
  | assignNull h =>
    simp only [HandleOp.call, Thread.start] at h
    split at h <;> cases h
    next old th₁ hh hp =>
    show th₁.raw = th.raw
    exact raw_of_pass hp

/-- The conversion of a raw pointer into a handle does not take its reference over. -/
theorem raw_of_convert [DecidableEq H] {th th' : Thread H A} {h : H} {a : A}
    (hs : th.start (.fromRaw h (some a) true) = some th') : th'.raw = th.raw := by
  simp only [Thread.start] at hs
  split at hs <;> cases hs
  next th₁ hh hp =>
  show th₁.raw = th.raw
  exact raw_of_pass hp

/-! ### Every run -/

variable [DecidableEq H] [DecidableEq τ] [DecidableEq α] {s s' : State τ H A α}

namespace Inv

omit [DecidableEq τ] [DecidableEq α] [DecidableEq H] in
/-- The constructor counts a reference, and the pointer it is for is a raw one. -/
theorem construct (h : Inv s) {a : A} (ha : s.actor a = none) {sp : A → Bool} :
    Inv { s.put a {} with pointers := s.pointers.own (some a), spawning := sp } := by
  obtain ⟨hsound, hown⟩ := RefCounted.own_spec h.sound a
  have hz := h.unmade a ha
  have hs : RefCounted.spare a s.pointers = 0 := by rw [RefCounted.spare, hz, Nat.zero_sub]
  refine ⟨hsound, fun b c hb => ?_, fun b c hb => ?_, fun b hb => ?_, h.destroyed⟩
  · have hb : Function.update s.actor a (some {}) b = some c := hb
    show c.refCount = RefCounted.spare b (s.pointers.own (some a)) + activations c
    rw [(hown b).2]
    by_cases hba : b = a
    · subst hba
      rw [Function.update_self] at hb
      cases hb
      have h₀ : tally references ({} : Scheduling.State τ α).thread = 0 := tally_const_zero fun _ => rfl
      rw [if_pos rfl, hs, activations, h₀]
      rfl
    · rw [Function.update_of_ne hba] at hb
      rw [if_neg hba]
      exact h.count b c hb
  · have hb : Function.update s.actor a (some {}) b = some c := hb
    show (s.pointers.own (some a)).raw b = 1
    rw [Thread.raw_own]
    by_cases hba : b = a
    · subst hba
      have hraw : s.pointers.raw b = 0 := by
        unfold Thread.held at hz
        omega
      rw [hraw, Thread.points, if_pos rfl]
    · rw [Function.update_of_ne hba] at hb
      rw [h.raw b c hb, Thread.points, if_neg fun he => hba (Option.some.inj (Option.some.inj he)).symm]
  · have hb : Function.update s.actor a (some {}) b = none := hb
    show (s.pointers.own (some a)).held b = 0
    by_cases hba : b = a
    · subst hba
      rw [Function.update_self] at hb
      cases hb
    · rw [Function.update_of_ne hba] at hb
      rw [(hown b).1, if_neg hba, h.unmade b hb]

/-- **One step** keeps the invariant. -/
theorem step {maxThroughput : ℕ} (h : Inv s) (ht : s.pointers.todo = []) {x : Action τ H A α}
    (hs : s.step maxThroughput x = some s') : Inv s' ∧ s'.pointers.todo = [] := by
  cases x with
  | construct a =>
    simp only [State.step] at hs
    split at hs <;> cases hs
    next ha => exact ⟨h.construct ha, ht⟩
  | addActorImpl g a =>
    simp only [State.step] at hs
    split_ifs at hs
    exact h.call ht _ (fun th hth => raw_of_convert hth) hs
  | handle op => exact h.call ht s.spawning (fun th hth => raw_of_op hth) hs
  | schedule a x =>
    simp only [State.step] at hs
    split at hs
    next => cases hs
    next c ha =>
      obtain ⟨c', hc', rfl⟩ := Option.map_eq_some_iff.mp hs
      have hcount := h.count a c ha
      have hpos := h.spare_pos ha
      have hmove := activations_move (by omega) (Scheduling.moves_of_step hc')
      rw [if_neg (by omega)]
      refine ⟨h.put s.pointers s.spawning ha h.sound rfl (by omega) ?_, ht⟩
      exact fun b _ => ⟨rfl, rfl⟩

end Inv

theorem inv_of_reachable {maxThroughput : ℕ} (hs : (lifetimes τ H A α maxThroughput).Reachable s) :
    Inv s ∧ s.pointers.todo = [] := by
  refine System.Reachable.invariant (I := fun s => Inv s ∧ s.pointers.todo = []) ?_
    (fun s x s' h hs => h.1.step h.2 hs) hs
  rintro s rfl
  have hheld : ∀ a, Thread.held a ({} : Thread H A) = 0 := fun a =>
    (Nat.add_zero _).trans ((Nat.add_zero _).trans (tally_const_zero fun h => Thread.points_none a))
  exact ⟨⟨.of_idle rfl, nofun, nofun, fun a _ => hheld a, fun a => rfl⟩, rfl⟩

/-- **The count of an actor is one more than its handles and activations.** -/
theorem refCount_eq {maxThroughput : ℕ} (hs : (lifetimes τ H A α maxThroughput).Reachable s) {a : A}
    {c : Scheduling.State τ α} (ha : s.actor a = some c) :
    c.refCount = s.handlesTo a + activations c + 1 ∧ s.destroyed a = 0 := by
  obtain ⟨h, ht⟩ := inv_of_reachable hs
  refine ⟨?_, h.destroyed a⟩
  have hcount := h.count a c ha
  rw [RefCounted.spare, RefCounted.owed_of_idle ht, Thread.held, ht, List.count_nil, h.raw a c ha] at hcount
  unfold State.handlesTo
  omega

/-! ### Which actors there are -/

omit [DecidableEq H] [DecidableEq τ] [DecidableEq α] [Fintype H] [Fintype τ] in
theorem made_put {a : A} {c c' : Scheduling.State τ α} (ha : s.actor a = some c) (b : A) :
    ((s.put a c').actor b).isSome = (s.actor b).isSome := by
  by_cases hba : b = a
  · subst hba
    show (Function.update s.actor b (some c') b).isSome = _
    rw [Function.update_self, ha]
    rfl
  · exact congrArg Option.isSome (Function.update_of_ne hba _ _)

omit [DecidableEq H] [DecidableEq τ] [DecidableEq α] [Fintype H] [Fintype τ] in
theorem made_effect {e : Effect A} (h : s.effect e = some s') (b : A) :
    (s'.actor b).isSome = (s.actor b).isSome := by
  cases e with
  | addRef a =>
    obtain ⟨c, ha, rfl⟩ := Option.map_eq_some_iff.mp h
    exact made_put ha b
  | release a =>
    obtain ⟨c, ha, rfl⟩ := Option.map_eq_some_iff.mp h
    dsimp only
    split_ifs <;> exact made_put ha b

omit [DecidableEq H] [DecidableEq τ] [DecidableEq α] [Fintype H] [Fintype τ] in
theorem made_effects {es : List (Effect A)} (h : s.effects es = some s') (b : A) :
    (s'.actor b).isSome = (s.actor b).isSome := by
  induction es generalizing s with
  | nil => cases h; rfl
  | cons e es ih =>
    obtain ⟨s₁, h₁, h⟩ := Option.bind_eq_some_iff.mp h
    exact (ih h).trans (made_effect h₁ b)

omit [DecidableEq τ] [DecidableEq α] [Fintype τ] in
theorem made_call {c : Call H A} (h : s.call c = some s') (b : A) :
    (s'.actor b).isSome = (s.actor b).isSome := by
  obtain ⟨th, -, h⟩ := Option.bind_eq_some_iff.mp h
  exact made_effects h b

omit [Fintype τ] in
/-- A step makes the actor it constructs and no other. -/
theorem made_step {maxThroughput : ℕ} {x : Action τ H A α} (h : s.step maxThroughput x = some s')
    (b : A) : (s'.actor b).isSome = true ↔ (s.actor b).isSome = true ∨ x = .construct b := by
  cases x with
  | construct a =>
    simp only [State.step] at h
    split at h <;> cases h
    next ha =>
    by_cases hba : b = a
    · subst hba
      refine ⟨fun _ => .inr rfl, fun _ => ?_⟩
      show (Function.update s.actor b (some ({} : Scheduling.State τ α)) b).isSome = true
      rw [Function.update_self]
      rfl
    · have hu : (Function.update s.actor a (some ({} : Scheduling.State τ α)) b).isSome =
          (s.actor b).isSome := congrArg Option.isSome (Function.update_of_ne hba _ _)
      show (Function.update s.actor a (some ({} : Scheduling.State τ α)) b).isSome = true ↔ _
      rw [hu]
      exact ⟨.inl, fun hm => hm.resolve_right fun he => hba (by cases he; rfl)⟩
  | addActorImpl g a =>
    simp only [State.step] at h
    split_ifs at h
    rw [made_call h b]
    exact ⟨.inl, fun hm => hm.resolve_right nofun⟩
  | handle op =>
    rw [made_call h b]
    exact ⟨.inl, fun hm => hm.resolve_right nofun⟩
  | schedule a x =>
    simp only [State.step] at h
    split at h
    next => cases h
    next c ha =>
      obtain ⟨c', -, rfl⟩ := Option.map_eq_some_iff.mp h
      have hact : ∀ s₁ : State τ H A α, s₁.actor = (s.put a c').actor →
          (s₁.actor b).isSome = (s.actor b).isSome := fun s₁ h₁ => by rw [h₁, made_put ha b]
      rw [hact _ (by split_ifs <;> rfl)]
      exact ⟨.inl, fun hm => hm.resolve_right nofun⟩

omit [Fintype τ] in
/-- The actors there are, are those that the run has constructed. -/
theorem made_run {maxThroughput : ℕ} {tr : List (State τ H A α × Action τ H A α)}
    (h : (lifetimes τ H A α maxThroughput).Run tr s) (b : A) :
    (s.actor b).isSome = true ↔ ∃ p ∈ tr, p.2 = .construct b := by
  induction h with
  | init h₀ =>
    cases h₀
    exact ⟨nofun, nofun⟩
  | @step tr s s' x _ hs ih =>
    rw [made_step hs b, ih]
    simp only [List.mem_append, List.mem_singleton, or_and_right, exists_or, exists_eq_left]

/-- **Actors live for ever**: in every state of every run the count of an actor is one more than
its handles and activations, and it has not been destroyed. So the counts are exact, and
actors destroyed when they should be, just as long as no actor is spawned. -/
theorem lifetime_iff {maxThroughput : ℕ} {tr : List (State τ H A α × Action τ H A α)}
    (h : (lifetimes τ H A α maxThroughput).Run tr s) :
    (s.Exact ↔ ∀ p ∈ tr, ∀ a, p.2 ≠ .construct a) ∧
      ∀ a c, s.actor a = some c →
        c.refCount = s.handlesTo a + activations c + 1 ∧ s.destroyed a = 0 := by
  have hcount : ∀ a c, s.actor a = some c →
      c.refCount = s.handlesTo a + activations c + 1 ∧ s.destroyed a = 0 :=
    fun a c ha => refCount_eq ⟨tr, h⟩ ha
  refine ⟨⟨fun hex p hp a ha => ?_, fun hno a c ha => ?_⟩, hcount⟩
  · obtain ⟨c, hc⟩ := Option.isSome_iff_exists.mp ((made_run h a).mpr ⟨p, hp, ha⟩)
    have h₁ := (hex a c hc).1
    have h₂ := (hcount a c hc).1
    omega
  · obtain ⟨p, hp, hpa⟩ := (made_run h a).mp (Option.isSome_iff_exists.mpr ⟨c, ha⟩)
    exact absurd hpa (hno p hp a)

/-- `spawn_actor` of one actor, whose handle is moved to a list; its `add_link` message is
processed, and then the list is cleared. -/
def spawnAndDrop : List (Action (Fin 1) (Fin 2) (Fin 1) ℕ) :=
  [.construct 0, .addActorImpl 0 0, .handle (.move 1 0), .handle (.destroy 0), .schedule 0 (.call 0 7),
    .schedule 0 (.send 0), .schedule 0 (.send 0), .schedule 0 (.send 0), .schedule 0 (.send 0),
    .schedule 0 (.send 0), .schedule 0 (.send 0), .schedule 0 (.send 0), .schedule 0 (.dequeue 0),
    .schedule 0 (.work 0), .schedule 0 (.work 0), .schedule 0 (.work 0), .schedule 0 (.work 0),
    .schedule 0 (.work 0), .schedule 0 (.work 0), .schedule 0 (.work 0), .schedule 0 (.work 0),
    .schedule 0 (.work 0), .handle (.destroy 1)]

/-- One actor is spawned, and then the last handle to it dropped. -/
theorem lifetime_iff_one : ∃ s c, (lifetimes (Fin 1) (Fin 2) (Fin 1) ℕ 1).Reachable s ∧
    s.actor 0 = some c ∧ c.refCount = s.handlesTo 0 + activations c + 1 := by
  obtain ⟨s, c, hs, hc⟩ : ∃ s c, (lifetimes (Fin 1) (Fin 2) (Fin 1) ℕ 1).replay (fun _ _ => true) {}
      spawnAndDrop = some s ∧ s.actor 0 = some c := ⟨_, _, rfl, rfl⟩
  obtain ⟨tr, hr⟩ := System.Reachable.of_replay (T := lifetimes (Fin 1) (Fin 2) (Fin 1) ℕ 1) rfl hs
  exact ⟨s, c, ⟨tr, hr⟩, hc, ((lifetime_iff hr).2 0 c hc).1⟩

/-- There are no handles and no activations left, and the actor is still there. -/
theorem actor_outlives_handles : ∃ s, (lifetimes (Fin 1) (Fin 2) (Fin 1) ℕ 1).Reachable s ∧
    (∃ c, s.actor 0 = some c ∧ s.handlesTo 0 = 0 ∧ activations c = 0 ∧ c.refCount = 1 ∧
      s.destroyed 0 = 0) ∧ ¬ s.Exact := by
  obtain ⟨s, c, hs, hc, hh, ha, hr, hd⟩ : ∃ s c,
      (lifetimes (Fin 1) (Fin 2) (Fin 1) ℕ 1).replay (fun _ _ => true) {} spawnAndDrop = some s ∧
        s.actor 0 = some c ∧ s.handlesTo 0 = 0 ∧ activations c = 0 ∧ c.refCount = 1 ∧
        s.destroyed 0 = 0 := ⟨_, _, rfl, rfl, rfl, rfl, rfl, rfl⟩
  refine ⟨s, .of_replay rfl hs, ⟨c, hc, hh, ha, hr, hd⟩, fun hex => ?_⟩
  have := (hex 0 c hc).1
  omega

end ActorsFramework.Supervisor.Lifetime
