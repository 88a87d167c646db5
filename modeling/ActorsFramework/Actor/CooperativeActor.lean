import ActorsFramework.Actor.NextMessage
import ActorsFramework.Executor.WorkSharing

/-!
# Cooperative actors, one thread at a time

`cooperative_actor` as a family of actors that send to each other, with no
other thread involved: `enqueue_base`, the two reference-counting hooks that set
`flags_` and block or unblock the mailbox, and `run` with its three loops. What
an actor does with a message is a parameter (`Handler`), as is the executor its
sends hand actors to (`Execute`): an executor that runs the job in place and one
that defers it are both instances.

A fault is an assertion that fails or a loop that never ends; `mainLoop_rule`,
`cacheLoop_rule` and `run_rule` are the rules by which the claims about `run`
are proved: an invariant of each loop, indexed by the throughput that is left.
-/

namespace ActorsFramework.Actor

open Detail Executor

/-- `cooperative_actor::state`. -/
inductive Flag where
  | empty
  | busy
  deriving DecidableEq

/-- `cooperative_actor`. (Nobody drops the last reference, so the actor is never deleted.) -/
structure CooperativeActor (α : Type*) where
  /-- `mailbox_`. -/
  mailbox : Mailbox α := {}
  /-- `flags_`. -/
  flags : Flag := .empty
  /-- `rc_`. -/
  refCount : ℕ := 1
  deriving DecidableEq

/-- What happens to the actors. -/
inductive Event (ι α : Type*) where
  /-- A message is put in a mailbox. -/
  | enqueue (a : ι) (m : α)
  /-- An actor is handed to an executor that defers it. -/
  | execute (a : ι)
  /-- `run` is called. -/
  | enter (a : ι)
  /-- A message is handed to `consume`. -/
  | consume (a : ι) (m : α)
  /-- `run` returns, after so many rounds of its loops and with so many messages left. -/
  | leave (a : ι) (handled left : ℕ)
  deriving DecidableEq

/-- The actors, the data of their handlers, and the history. -/
structure World (ι σ α : Type*) where
  /-- The actors. -/
  actor : ι → CooperativeActor α := fun _ => {}
  /-- What the handlers keep. -/
  user : σ
  /-- What has happened, in order. -/
  log : List (Event ι α) := []

/-- What an actor does with a message: whom it sends what, in order. -/
abbrev Handler (ι σ α : Type*) := ι → α → σ → List (ι × α) × σ

/-- `abstract_executor::execute`, or `execution_device::execute`, of an actor. -/
abbrev Execute (ι σ α : Type*) := ι → World ι σ α → Except Fault (World ι σ α)

/-- How a loop of `run` ends. -/
inductive LoopExit (α : Type*) where
  /-- `run` returns `awaiting` from inside the loop, with so much throughput left. -/
  | awaiting (budget : ℕ)
  /-- The loop is left, with so much throughput and with `ptr`. -/
  | left (budget : ℕ) (ptr : Option α)

/-- `message::is_high_priority`. -/
def isHighPriority {α : Type*} (_ : α) : Bool := false

variable {ι σ α : Type*}

namespace World

/-- The actor's mailbox. -/
def mailbox (w : World ι σ α) (a : ι) : Mailbox α := (w.actor a).mailbox

/-- Something is recorded. -/
def emit (w : World ι σ α) (e : Event ι α) : World ι σ α := { w with log := w.log ++ [e] }

/-- The messages an actor has not handled: in both parts of the cache, `head_` and `stack_`. -/
def left (w : World ι σ α) (a : ι) : List α := (w.mailbox a).cache.second ++ (w.mailbox a).contents

/-- `run` returns. -/
def leave (w : World ι σ α) (a : ι) (handled : ℕ) : World ι σ α :=
  w.emit (.leave a handled (w.left a).length)

@[simp] theorem actor_emit (w : World ι σ α) (e : Event ι α) : (w.emit e).actor = w.actor := rfl
@[simp] theorem mailbox_emit (w : World ι σ α) (e : Event ι α) : (w.emit e).mailbox = w.mailbox := rfl
@[simp] theorem user_emit (w : World ι σ α) (e : Event ι α) : (w.emit e).user = w.user := rfl
@[simp] theorem log_emit (w : World ι σ α) (e : Event ι α) : (w.emit e).log = w.log ++ [e] := rfl
@[simp] theorem mailbox_leave (w : World ι σ α) (a : ι) (n : ℕ) : (w.leave a n).mailbox = w.mailbox := rfl
@[simp] theorem actor_leave (w : World ι σ α) (a : ι) (n : ℕ) : (w.leave a n).actor = w.actor := rfl
@[simp] theorem left_leave (w : World ι σ α) (a : ι) (n : ℕ) : (w.leave a n).left = w.left := rfl

variable [DecidableEq ι]

/-- One actor changes. -/
def modify (w : World ι σ α) (a : ι) (f : CooperativeActor α → CooperativeActor α) : World ι σ α :=
  { w with actor := Function.update w.actor a (f (w.actor a)) }

/-- One mailbox changes. -/
def setMailbox (w : World ι σ α) (a : ι) (q : Mailbox α) : World ι σ α :=
  w.modify a fun c => { c with mailbox := q }

/-- `mailbox().enqueue`. -/
def enqueue (w : World ι σ α) (a : ι) (m : α) : World ι σ α :=
  (w.setMailbox a ((w.mailbox a).enqueue m).1).emit (.enqueue a m)

/-- `intrusive_ptr_add_ref_impl`. -/
def addRef (w : World ι σ α) (a : ι) : World ι σ α :=
  w.modify a fun c =>
    { mailbox := c.mailbox.tryBlock.1, flags := .busy, refCount := c.refCount + 1 }

/-- `intrusive_ptr_release_impl`. -/
def release (w : World ι σ α) (a : ι) : World ι σ α :=
  w.modify a fun c =>
    { mailbox := c.mailbox.tryUnblock.1, flags := .empty, refCount := c.refCount - 1 }

/-- A mailbox in which nothing waits is blocked. -/
def block (w : World ι σ α) (a : ι) : World ι σ α :=
  w.setMailbox a { (w.mailbox a).fetched [] with stack := .blocked }

end World

variable [DecidableEq ι]

section Run

variable (execute : Execute ι σ α) (handler : Handler ι σ α)

/-- `enqueue_base`. -/
def enqueueBase (a : ι) (m : α) (w : World ι σ α) : Except Fault (World ι σ α) :=
  let w := w.enqueue a m
  if (w.actor a).flags = .empty then execute a (w.addRef a) else .ok w

/-- The sends of a handler, one by one. -/
def sendAll : List (ι × α) → World ι σ α → Except Fault (World ι σ α)
  | [], w => .ok w
  | (b, m) :: ms, w => (enqueueBase execute b m w).bind (sendAll ms)

/-- `consume`. -/
def consume (a : ι) (m : α) (w : World ι σ α) : Except Fault (World ι σ α) :=
  let w := w.emit (.consume a m)
  let (ms, user) := handler a m w.user
  sendAll execute ms { w with user }

/-- `consume_from_cache`: the first message of the second part of the cache is consumed and
then erased. -/
def consumeFromCache (a : ι) (w : World ι σ α) : Except Fault (World ι σ α) :=
  match (w.mailbox a).cache.second with
  | [] => .ok w
  | m :: _ =>
    (consume execute handler a m w).bind fun w =>
      let q := w.mailbox a
      .ok (w.setMailbox a { q with cache := { q.cache with second := q.cache.second.tail } })

/-- The first loop of `run`, with the throughput that is left and with `ptr`. -/
def cacheLoop (a : ι) : ℕ → Option α → World ι σ α → Except Fault (World ι σ α × LoopExit α)
  | 0, ptr, w => .ok (w, .left 0 ptr)
  | n + 1, ptr, w =>
    if (w.mailbox a).cache.empty then .ok (w, .left (n + 1) ptr)
    else match (w.mailbox a).awaitMessage isHighPriority with
      | .error e => .error e
      | .ok (q, none) => .ok (w.setMailbox a q, .awaiting (n + 1))
      | .ok (q, some m) =>
        (consumeFromCache execute handler a (w.setMailbox a q)).bind (cacheLoop a n (some m))

/-- The second loop of `run`. (`reactivate` is `consume`.) -/
def mainLoop (a : ι) : ℕ → Option α → World ι σ α → Except Fault (World ι σ α × LoopExit α)
  | 0, ptr, w => .ok (w, .left 0 ptr)
  | n + 1, _, w =>
    match (w.mailbox a).awaitMessage isHighPriority with
    | .error e => .error e
    | .ok (q, none) => .ok (w.setMailbox a q, .awaiting (n + 1))
    | .ok (q, some m) =>
      (consume execute handler a m (w.setMailbox a q)).bind (mainLoop a n (some m))

/-- The third loop of `run`, which ends only by the assertion of `push_to_cache`: moving
from `ptr` leaves it null. -/
def tailLoop (a : ι) : ℕ → World ι σ α → Except Fault (World ι σ α)
  | 0, _ => .error .diverges
  | n + 1, w =>
    match (w.mailbox a).nextMessage isHighPriority with
    | .error e => .error e
    | .ok (_, none) => .error .pushNull
    | .ok (q, some m) => tailLoop a n (w.setMailbox a (q.pushToCache isHighPriority m))

/-- The last `if` of `run`, and the `return` behind it: both return `awaiting`. -/
def lastBlock (a : ι) (w : World ι σ α) : Except Fault (World ι σ α × ExecutableResult) :=
  match (w.mailbox a).hasNextMessage with
  | .error e => .error e
  | .ok true => .ok (w, .awaiting)
  | .ok false =>
    match (w.mailbox a).tryBlock with
    | (q, true) => .ok (w.setMailbox a q, .awaiting)
    | (q, false) => .ok (w.setMailbox a q, .awaiting)

/-- `run` behind its first two loops. -/
def finish (a : ι) (ptr : Option α) (w : World ι σ α) :
    Except Fault (World ι σ α × ExecutableResult) :=
  match ptr with
  | some _ => lastBlock a w
  | none => (tailLoop a ((w.mailbox a).contents.length + 1) w).bind (lastBlock a)

/-- `run`. -/
def run (maxThroughput : ℕ) (a : ι) (w : World ι σ α) :
    Except Fault (World ι σ α × ExecutableResult) :=
  (cacheLoop execute handler a maxThroughput none (w.emit (.enter a))).bind fun
    | (w, .awaiting n) => .ok (w.leave a (maxThroughput - n), .awaiting)
    | (w, .left n ptr) =>
      (mainLoop execute handler a n ptr w).bind fun
        | (w, .awaiting n) => .ok (w.leave a (maxThroughput - n), .awaiting)
        | (w, .left n ptr) =>
          (finish a ptr w).bind fun (w, r) => .ok (w.leave a (maxThroughput - n), r)

end Run

/-! ### Projections -/

namespace World

@[simp] theorem actor_modify_self (w : World ι σ α) (a : ι)
    (f : CooperativeActor α → CooperativeActor α) : (w.modify a f).actor a = f (w.actor a) := by
  simp [modify]

@[simp] theorem actor_modify_ne (w : World ι σ α) {a b : ι} (h : b ≠ a)
    (f : CooperativeActor α → CooperativeActor α) : (w.modify a f).actor b = w.actor b := by
  simp [modify, h]

@[simp] theorem mailbox_setMailbox_self (w : World ι σ α) (a : ι) (q : Mailbox α) :
    (w.setMailbox a q).mailbox a = q := by
  simp [setMailbox, mailbox]

@[simp] theorem mailbox_setMailbox_ne (w : World ι σ α) {a b : ι} (h : b ≠ a) (q : Mailbox α) :
    (w.setMailbox a q).mailbox b = w.mailbox b := by
  simp [setMailbox, mailbox, h]

/-- With the messages of one mailbox fetched, all are as open as before. -/
theorem open_setMailbox_fetched {w : World ι σ α} (h : ∀ b, (w.mailbox b).Open) (a b : ι)
    (l : List α) : ((w.setMailbox a ((w.mailbox a).fetched l)).mailbox b).Open := by
  by_cases hba : b = a
  · subst hba
    rw [mailbox_setMailbox_self]
    exact Mailbox.open_fetched _ _
  · rw [mailbox_setMailbox_ne w hba]
    exact h b

/-- And the second part of every cache is as empty. -/
theorem second_setMailbox_fetched {w : World ι σ α} (h : ∀ b, (w.mailbox b).cache.second = [])
    (a b : ι) (l : List α) :
    ((w.setMailbox a ((w.mailbox a).fetched l)).mailbox b).cache.second = [] := by
  by_cases hba : b = a
  · subst hba
    rw [mailbox_setMailbox_self]
    exact h b
  · rw [mailbox_setMailbox_ne w hba]
    exact h b

@[simp] theorem flags_setMailbox (w : World ι σ α) (a b : ι) (q : Mailbox α) :
    ((w.setMailbox a q).actor b).flags = (w.actor b).flags := by
  by_cases h : b = a
  · subst h; simp [setMailbox]
  · simp [setMailbox, h]

@[simp] theorem log_setMailbox (w : World ι σ α) (a : ι) (q : Mailbox α) :
    (w.setMailbox a q).log = w.log := rfl

@[simp] theorem user_setMailbox (w : World ι σ α) (a : ι) (q : Mailbox α) :
    (w.setMailbox a q).user = w.user := rfl

@[simp] theorem flags_enqueue (w : World ι σ α) (a b : ι) (m : α) :
    ((w.enqueue a m).actor b).flags = (w.actor b).flags :=
  flags_setMailbox w a b _

@[simp] theorem flags_addRef_self (w : World ι σ α) (a : ι) : ((w.addRef a).actor a).flags = .busy := by
  simp [addRef]

@[simp] theorem flags_addRef_ne (w : World ι σ α) {a b : ι} (h : b ≠ a) :
    ((w.addRef a).actor b).flags = (w.actor b).flags := by
  simp [addRef, h]

@[simp] theorem flags_release_self (w : World ι σ α) (a : ι) :
    ((w.release a).actor a).flags = .empty := by
  simp [release]

@[simp] theorem flags_release_ne (w : World ι σ α) {a b : ι} (h : b ≠ a) :
    ((w.release a).actor b).flags = (w.actor b).flags := by
  simp [release, h]

@[simp] theorem mailbox_release_self (w : World ι σ α) (a : ι) :
    (w.release a).mailbox a = (w.mailbox a).tryUnblock.1 := by
  simp [release, mailbox]

@[simp] theorem mailbox_release_ne (w : World ι σ α) {a b : ι} (h : b ≠ a) :
    (w.release a).mailbox b = w.mailbox b := by
  simp [release, mailbox, h]

@[simp] theorem log_release (w : World ι σ α) (a : ι) : (w.release a).log = w.log := rfl
@[simp] theorem log_addRef (w : World ι σ α) (a : ι) : (w.addRef a).log = w.log := rfl

@[simp] theorem mailbox_block_self (w : World ι σ α) (a : ι) :
    (w.block a).mailbox a = { (w.mailbox a).fetched [] with stack := .blocked } := by
  simp [block]

@[simp] theorem mailbox_block_ne (w : World ι σ α) {a b : ι} (h : b ≠ a) :
    (w.block a).mailbox b = w.mailbox b := by
  simp [block, h]

@[simp] theorem flags_block (w : World ι σ α) (a b : ι) :
    ((w.block a).actor b).flags = (w.actor b).flags :=
  flags_setMailbox w a b _

@[simp] theorem log_block (w : World ι σ α) (a : ι) : (w.block a).log = w.log := rfl

/-- A mailbox blocked at the end of a run is open again after the release. -/
theorem mailbox_release_block (w : World ι σ α) (a : ι) :
    ((w.block a).release a).mailbox a = (w.mailbox a).fetched [] := by
  rw [mailbox_release_self, mailbox_block_self]
  rfl

@[simp] theorem left_block (w : World ι σ α) (a : ι) :
    (w.block a).left a = (w.mailbox a).cache.second := by
  simp [left, Mailbox.contents, Mailbox.waiting, Mailbox.fetched]

end World

/-! ### Rules for the loops -/

section Rules

variable {execute : Execute ι σ α} {handler : Handler ι σ α} {a : ι}

theorem isHighPriority_eq (m : α) : isHighPriority m = false := rfl

/-- **The rule of the second loop**: an invariant `J`, indexed by the throughput left, that
each round keeps holds where the loop ends, either with nothing to read and the queue
blocked, or with the throughput used up. -/
theorem mainLoop_rule {J : ℕ → World ι σ α → Prop} (hopen : ∀ n w, J n w → (w.mailbox a).Open)
    (hstep : ∀ n w m l, J (n + 1) w → (w.mailbox a).contents = m :: l →
      ∃ w', consume execute handler a m (w.setMailbox a ((w.mailbox a).fetched l)) = .ok w' ∧ J n w')
    (n : ℕ) (ptr : Option α) (w : World ι σ α) (h : J n w) :
    (∃ k w', k < n ∧ J (k + 1) w' ∧ (w'.mailbox a).contents = [] ∧
      mainLoop execute handler a n ptr w = .ok (w'.block a, .awaiting (k + 1))) ∨
    ∃ w' ptr', J 0 w' ∧ (ptr' = ptr ∧ n = 0 ∨ ptr'.isSome) ∧
      mainLoop execute handler a n ptr w = .ok (w', .left 0 ptr') := by
  induction n generalizing ptr w with
  | zero => exact .inr ⟨w, ptr, h, .inl ⟨rfl, rfl⟩, rfl⟩
  | succ n ih =>
    cases hc : (w.mailbox a).contents with
    | nil =>
      refine .inl ⟨n, w, Nat.lt_succ_self n, h, hc, ?_⟩
      rw [mainLoop, Mailbox.awaitMessage_nil isHighPriority_eq (hopen _ _ h) hc]
      rfl
    | cons m l =>
      obtain ⟨w₁, hw₁, h₁⟩ := hstep n w m l h hc
      have heq : mainLoop execute handler a (n + 1) ptr w =
          mainLoop execute handler a n (some m) w₁ := by
        rw [mainLoop, Mailbox.awaitMessage_cons isHighPriority_eq (hopen _ _ h) hc]
        simp only [hw₁]
        rfl
      rcases ih (some m) w₁ h₁ with ⟨k, w', hk, hJ, hn, hr⟩ | ⟨w', ptr', hJ, hp, hr⟩
      · exact .inl ⟨k, w', by omega, hJ, hn, heq.trans hr⟩
      · refine .inr ⟨w', ptr', hJ, .inr ?_, heq.trans hr⟩
        rcases hp with ⟨rfl, -⟩ | hp
        · rfl
        · exact hp

/-- **The rule of the first loop.** It is also left when the cache is empty. -/
theorem cacheLoop_rule {J : ℕ → World ι σ α → Prop} (hopen : ∀ n w, J n w → (w.mailbox a).Open)
    (hstep : ∀ n w m l, J (n + 1) w → (w.mailbox a).cache.empty = false →
      (w.mailbox a).contents = m :: l →
      ∃ w', consumeFromCache execute handler a (w.setMailbox a ((w.mailbox a).fetched l)) = .ok w' ∧
        J n w')
    (n : ℕ) (ptr : Option α) (w : World ι σ α) (h : J n w) :
    (∃ k w', k < n ∧ J (k + 1) w' ∧ (w'.mailbox a).cache.empty = false ∧
      (w'.mailbox a).contents = [] ∧
      cacheLoop execute handler a n ptr w = .ok (w'.block a, .awaiting (k + 1))) ∨
    ∃ k w' ptr', k ≤ n ∧ J k w' ∧ (k = 0 ∨ (w'.mailbox a).cache.empty = true) ∧
      (ptr' = ptr ∧ k = n ∨ ptr'.isSome) ∧
      cacheLoop execute handler a n ptr w = .ok (w', .left k ptr') := by
  induction n generalizing ptr w with
  | zero => exact .inr ⟨0, w, ptr, le_rfl, h, .inl rfl, .inl ⟨rfl, rfl⟩, rfl⟩
  | succ n ih =>
    cases he : (w.mailbox a).cache.empty with
    | true => exact .inr ⟨n + 1, w, ptr, le_rfl, h, .inr he, .inl ⟨rfl, rfl⟩, by simp [cacheLoop, he]⟩
    | false =>
      cases hc : (w.mailbox a).contents with
      | nil =>
        refine .inl ⟨n, w, Nat.lt_succ_self n, h, he, hc, ?_⟩
        rw [cacheLoop, if_neg (by simp [he]),
          Mailbox.awaitMessage_nil isHighPriority_eq (hopen _ _ h) hc]
        rfl
      | cons m l =>
        obtain ⟨w₁, hw₁, h₁⟩ := hstep n w m l h he hc
        have heq : cacheLoop execute handler a (n + 1) ptr w =
            cacheLoop execute handler a n (some m) w₁ := by
          rw [cacheLoop, if_neg (by simp [he]),
            Mailbox.awaitMessage_cons isHighPriority_eq (hopen _ _ h) hc]
          simp only [hw₁]
          rfl
        rcases ih (some m) w₁ h₁ with ⟨k, w', hk, hJ, hne, hn, hr⟩ | ⟨k, w', ptr', hk, hJ, hne, hp, hr⟩
        · exact .inl ⟨k, w', by omega, hJ, hne, hn, heq.trans hr⟩
        · refine .inr ⟨k, w', ptr', by omega, hJ, hne, .inr ?_, heq.trans hr⟩
          rcases hp with ⟨rfl, -⟩ | hp
          · rfl
          · exact hp

/-- The last `if` blocks the queue if nothing is left in it. -/
theorem lastBlock_eq {w : World ι σ α} (ho : (w.mailbox a).Open) :
    lastBlock a w = .ok (if (w.mailbox a).contents = [] then w.block a else w, .awaiting) := by
  rw [lastBlock, Mailbox.hasNextMessage_open ho]
  cases hc : (w.mailbox a).contents with
  | cons m l => simp
  | nil =>
    obtain ⟨l, hl⟩ := ho
    have hw : (w.mailbox a).cache.first = [] ∧ (w.mailbox a).head = [] ∧ l = [] := by
      simpa [Mailbox.contents, Mailbox.waiting, hl] using hc
    obtain ⟨hf, hh, rfl⟩ := hw
    have hq : (w.mailbox a).tryBlock = ({ (w.mailbox a).fetched [] with stack := .blocked }, true) := by
      generalize w.mailbox a = q at *
      obtain ⟨stack, head, ⟨first, second⟩⟩ := q
      obtain rfl : stack = .list [] := hl
      obtain rfl : head = [] := hh
      obtain rfl : first = [] := hf
      rfl
    simp [hq, World.block]

/-- **The rule of `run`**: invariants of the two loops, the second taking over where the
first is left, and a property of the states in which `run` can return. -/
theorem run_rule {maxThroughput : ℕ} (hmax : 0 < maxThroughput) {w : World ι σ α}
    {I J : ℕ → World ι σ α → Prop} {Q : World ι σ α → Prop}
    (hopen₁ : ∀ n w, I n w → (w.mailbox a).Open) (hopen₂ : ∀ n w, J n w → (w.mailbox a).Open)
    (hstep₁ : ∀ n w m l, I (n + 1) w → (w.mailbox a).cache.empty = false →
      (w.mailbox a).contents = m :: l →
      ∃ w', consumeFromCache execute handler a (w.setMailbox a ((w.mailbox a).fetched l)) = .ok w' ∧
        I n w')
    (hstep₂ : ∀ n w m l, J (n + 1) w → (w.mailbox a).contents = m :: l →
      ∃ w', consume execute handler a m (w.setMailbox a ((w.mailbox a).fetched l)) = .ok w' ∧ J n w')
    (h₁ : I maxThroughput (w.emit (.enter a)))
    (h₁₂ : ∀ n w, I n w → n = 0 ∨ (w.mailbox a).cache.empty = true → J n w)
    (hskipped : ∀ n w, n + 1 ≤ maxThroughput → I (n + 1) w → (w.mailbox a).cache.empty = false →
      (w.mailbox a).contents = [] → Q ((w.block a).leave a (maxThroughput - (n + 1))))
    (hdone : ∀ n w, n ≤ maxThroughput → J n w → (w.mailbox a).contents = [] →
      Q ((w.block a).leave a (maxThroughput - n)))
    (hexhausted : ∀ w, J 0 w → (w.mailbox a).contents ≠ [] → Q (w.leave a maxThroughput)) :
    ∃ w', run execute handler maxThroughput a w = .ok (w', .awaiting) ∧ Q w' := by
  unfold run
  rcases cacheLoop_rule hopen₁ hstep₁ maxThroughput none _ h₁ with
    ⟨k, w₁, hk, hJ, hne, hc, hr⟩ | ⟨k, w₁, ptr₁, hk, hJ, hne, hp₁, hr⟩
  · exact ⟨_, by rw [hr]; rfl, hskipped k w₁ hk hJ hne hc⟩
  · rcases mainLoop_rule hopen₂ hstep₂ k ptr₁ w₁ (h₁₂ _ _ hJ hne) with
      ⟨j, w₂, hj, hJ', hc, hr₂⟩ | ⟨w₂, ptr₂, hJ', hp₂, hr₂⟩
    · refine ⟨_, ?_, hdone (j + 1) w₂ (by omega) hJ' hc⟩
      rw [hr]
      simp only [Except.bind, hr₂]
    · obtain ⟨m, rfl⟩ : ∃ m, ptr₂ = some m := by
        refine Option.isSome_iff_exists.mp ?_
        rcases hp₂ with ⟨rfl, rfl⟩ | hp₂
        · rcases hp₁ with ⟨-, hp₁⟩ | hp₁
          · omega
          · exact hp₁
        · exact hp₂
      by_cases hc : (w₂.mailbox a).contents = []
      · refine ⟨_, ?_, hdone 0 w₂ (Nat.zero_le _) hJ' hc⟩
        rw [hr]
        simp only [Except.bind, hr₂, finish, lastBlock_eq (hopen₂ _ _ hJ'), if_pos hc]
      · refine ⟨_, ?_, hexhausted w₂ hJ' hc⟩
        rw [hr]
        simp only [Except.bind, hr₂, finish, lastBlock_eq (hopen₂ _ _ hJ'), if_neg hc]
        rfl

end Rules

end ActorsFramework.Actor
