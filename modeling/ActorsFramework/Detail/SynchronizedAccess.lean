import ActorsFramework.Detail.SingleReaderQueue
import ActorsFramework.Lib.Transition

/-!
# Synchronized access

`synchronized_enqueue` and `synchronized_await` over one mutex and one condition
variable. The reader blocks the queue and waits until it is no longer blocked;
what it waits for changes outside the mutex, by the exchange with which a
producer pushes. That producer then takes the mutex to notify. Each atomic
access to `stack_`, each lock and unlock, the release-and-wait, the notification
and the wake-up is a step; the reader may wake for no reason, and a timed wait
may report a timeout whenever it wakes.

No wake-up is lost (`no_lost_wakeup`): a reader that has seen the blocked mark
holds the mutex until it is parked, so a producer that removes the mark in
between cannot notify too early.
-/

namespace ActorsFramework.Detail

open Lib

/-- Where a producer is in `synchronized_enqueue`. -/
inductive SenderPc (α : Type*) where
  /-- Outside. -/
  | idle
  /-- In `enqueue`, before `stack_.load()`. -/
  | load (x : α)
  /-- In `enqueue`, at `compare_exchange_strong`, with the value of `stack_` read last. -/
  | exchange (x : α) (e : Ptr α)
  /-- `enqueue` has returned `unblocked_reader`; at the lock. -/
  | lock
  /-- Before `cv.notify_one()`. -/
  | notify
  /-- Before the unlock. -/
  | unlock

/-- The producer has received `unblocked_reader` and not yet notified. -/
def SenderPc.owes {α : Type*} : SenderPc α → Bool
  | .lock | .notify => true
  | _ => false

/-- Where the `switch` of `synchronized_enqueue` leads after an exchange of `e`: only the one that
removes the blocked mark is `unblocked_reader`. -/
def SenderPc.pushed {α : Type*} : Ptr α → SenderPc α
  | .blockedDummy => .lock
  | _ => .idle

/-- The producer holds the mutex. -/
def SenderPc.holds {α : Type*} : SenderPc α → Bool
  | .notify | .unlock => true
  | _ => false

/-- Why `synchronized_await` returns. -/
inductive Outcome (α : Type*) where
  /-- `can_fetch_more` is true. -/
  | fetchable
  /-- `try_block` has failed. -/
  | notBlocked
  /-- The loop has ended: the queue is not blocked any more. -/
  | unblocked
  /-- A timeout, with the result of `try_unblock` and what the queue held then. -/
  | timeout (result : Bool) (held : List α)

/-- What the timed form returns. -/
def Outcome.value {α : Type*} : Outcome α → Bool
  | .timeout result _ => !result
  | _ => true

/-- Where the reader is in `synchronized_await`. -/
inductive AwaitPc (α : Type*) where
  /-- Outside. -/
  | idle
  /-- Before `assert(!closed())`. -/
  | enter (timed : Bool)
  /-- Before `can_fetch_more()`. -/
  | check (timed : Bool)
  /-- Before `try_block()`. -/
  | block (timed : Bool)
  /-- At the lock. -/
  | lock (timed : Bool)
  /-- At the head of the loop, before `blocked()`. -/
  | test (timed : Bool)
  /-- At `cv.wait` or `cv.wait_until`. -/
  | wait (timed : Bool)
  /-- In the condition variable. -/
  | parked (timed : Bool)
  /-- Woken; before the mutex is locked again. -/
  | woken (timed : Bool)
  /-- After a timeout, before `try_unblock()`. -/
  | timedOut
  /-- Before the unlock. -/
  | unlock (timed : Bool) (o : Outcome α)
  /-- The call has returned. -/
  | returned (timed : Bool) (o : Outcome α)
  /-- An assertion has failed. -/
  | failed (f : Fault)

namespace AwaitPc

variable {α : Type*}

/-- The reader holds the mutex. -/
def holds : AwaitPc α → Bool
  | .test _ | .wait _ | .timedOut | .unlock _ _ => true
  | _ => false

/-- The reader has blocked the queue and not yet found out what became of it. -/
def waiting : AwaitPc α → Bool
  | .lock _ | .test _ | .wait _ | .parked _ | .woken _ | .timedOut => true
  | _ => false

end AwaitPc

/-- A thread. -/
inductive Party (π : Type*) where
  | reader
  | producer (p : π)
  deriving DecidableEq

/-- The queue, the mutex and the threads. -/
structure Synchronized (π α : Type*) where
  /-- The queue. -/
  mailbox : Mailbox α := {}
  /-- Who holds the mutex. -/
  owner : Option (Party π) := none
  /-- The reader. -/
  reader : AwaitPc α := .idle
  /-- The producers. -/
  producer : π → SenderPc α := fun _ => .idle

/-- The actions. -/
inductive SyncAct (π α : Type*) where
  /-- A producer calls `synchronized_enqueue`. -/
  | call (p : π) (x : α)
  /-- The next step of `synchronized_enqueue`. -/
  | send (p : π)
  /-- The reader calls `synchronized_await`. -/
  | await (timed : Bool)
  /-- The next step of `synchronized_await`; where a timed wait ends, whether it reports a
  timeout. -/
  | step (timeout : Bool)
  /-- A wake-up that nobody sent: spurious, or by the time-out. -/
  | wake
  /-- The reader pops. -/
  | pop

namespace Synchronized

variable {π α : Type*} [DecidableEq π] [DecidableEq α]

/-- A producer moves on. -/
def setProducer (s : Synchronized π α) (p : π) (pc : SenderPc α) : Synchronized π α :=
  { s with producer := Function.update s.producer p pc }

/-- `cv.notify_one()`. -/
def AwaitPc.notified : AwaitPc α → AwaitPc α
  | .parked timed => .woken timed
  | pc => pc

/-- The next step of `synchronized_enqueue`. -/
def send (s : Synchronized π α) (p : π) : Option (Synchronized π α) :=
  match s.producer p with
  | .idle => none
  | .load x =>
    if s.mailbox.stack.top.isNull then some (s.setProducer p .idle)
    else some (s.setProducer p (.exchange x s.mailbox.stack.top))
  | .exchange x e =>
    if s.mailbox.stack.top = e then
      some { s with
        mailbox := { s.mailbox with stack := s.mailbox.stack.push x }
        producer := Function.update s.producer p (.pushed e) }
    else if s.mailbox.stack.top.isNull then some (s.setProducer p .idle)
    else some (s.setProducer p (.exchange x s.mailbox.stack.top))
  | .lock =>
    match s.owner with
    | none => some { s.setProducer p .notify with owner := some (.producer p) }
    | some _ => none
  | .notify =>
    some { s with reader := AwaitPc.notified s.reader, producer := Function.update s.producer p .unlock }
  | .unlock => some { s.setProducer p .idle with owner := none }

/-- The next step of `synchronized_await`. -/
def awaitStep (s : Synchronized π α) (timeout : Bool) : Option (Synchronized π α) :=
  match s.reader with
  | .idle | .parked _ | .failed _ => none
  | .enter timed =>
    if s.mailbox.stack.top.isNull then some { s with reader := .failed .fetchClosed }
    else some { s with reader := .check timed }
  | .check timed =>
    match s.mailbox.canFetchMore with
    | .error f => some { s with reader := .failed f }
    | .ok true => some { s with reader := .returned timed .fetchable }
    | .ok false => some { s with reader := .block timed }
  | .block timed =>
    match s.mailbox.tryBlock with
    | (q, true) => some { s with mailbox := q, reader := .lock timed }
    | (_, false) => some { s with reader := .returned timed .notBlocked }
  | .lock timed =>
    match s.owner with
    | none => some { s with owner := some .reader, reader := .test timed }
    | some _ => none
  | .test timed =>
    if s.mailbox.isBlocked then some { s with reader := .wait timed }
    else some { s with reader := .unlock timed .unblocked }
  | .wait timed => some { s with owner := none, reader := .parked timed }
  | .woken timed =>
    match s.owner with
    | none =>
      some { s with owner := some .reader, reader := if timed && timeout then .timedOut else .test timed }
    | some _ => none
  | .timedOut =>
    match s.mailbox.tryUnblock with
    | (q, r) => some { s with mailbox := q, reader := .unlock true (.timeout r s.mailbox.waiting) }
  | .unlock timed o => some { s with owner := none, reader := .returned timed o }
  | .returned _ _ => some { s with reader := .idle }

/-- The step function. -/
def step (s : Synchronized π α) : SyncAct π α → Option (Synchronized π α)
  | .call p x =>
    match s.producer p with
    | .idle => some (s.setProducer p (.load x))
    | _ => none
  | .send p => s.send p
  | .await timed =>
    match s.reader with
    | .idle => some { s with reader := .enter timed }
    | _ => none
  | .step timeout => s.awaitStep timeout
  | .wake =>
    match s.reader with
    | .parked timed => some { s with reader := .woken timed }
    | _ => none
  | .pop =>
    match s.reader with
    | .idle =>
      match s.mailbox.tryPop with
      | .ok (q, _) => some { s with mailbox := q }
      | .error f => some { s with reader := .failed f }
    | _ => none

/-- Synchronized access as a system: it begins with any open queue and no thread inside. -/
def system (π α : Type*) [DecidableEq π] [DecidableEq α] : System (Synchronized π α) (SyncAct π α) where
  Init s := s.mailbox.Open ∧ s.owner = none ∧ s.reader = .idle ∧ ∀ p, s.producer p = .idle
  step := step

/-- What the threads keep true. -/
structure Inv (s : Synchronized π α) : Prop where
  /-- The queue is not closed. -/
  notClosed : s.mailbox.stack ≠ .closed
  /-- The reader holds the mutex where it should. -/
  readerOwns : s.reader.holds = true → s.owner = some .reader
  /-- So does a producer. -/
  producerOwns : ∀ p, (s.producer p).holds = true → s.owner = some (.producer p)
  /-- The reader blocks an empty queue; from then on it is blocked or holds an element. -/
  waiting : s.reader.waiting = true →
    s.mailbox.head = [] ∧ (s.mailbox.stack = .blocked ∨ s.mailbox.stack.elems ≠ [])
  /-- Elsewhere the queue is not blocked. -/
  unblocked : s.reader.waiting = false → s.mailbox.stack ≠ .blocked
  /-- Before it blocks, the reader has nothing in `head_`. -/
  blocking : ∀ timed, s.reader = .block timed → s.mailbox.head = []
  /-- A reader about to park has seen the mark, or a producer still has to lock. -/
  parking : ∀ timed, s.reader = .wait timed →
    s.mailbox.stack = .blocked ∨ ∃ p, (s.producer p).owes = true
  /-- A parked reader sees the mark, or a producer still has to notify. -/
  parked : ∀ timed, s.reader = .parked timed →
    s.mailbox.stack = .blocked ∨ ∃ p, (s.producer p).owes = true
  /-- The result is right. -/
  outcome : ∀ timed o, s.reader = .unlock timed o ∨ s.reader = .returned timed o →
    (o.value = true → s.mailbox.waiting ≠ []) ∧
      (o.value = false → timed = true ∧ o = .timeout true [])
  /-- No assertion has failed. -/
  sound : ∀ f, s.reader ≠ .failed f

section Invariant

variable {s s' : Synchronized π α}

theorem inv_init (h : (system π α).Init s) : Inv s := by
  obtain ⟨ho, hown, hr, hp⟩ := h
  refine ⟨ho.ne_closed, ?_, fun p hp' => ?_, ?_, fun _ => ?_, ?_, ?_, ?_, ?_, ?_⟩ <;>
    try rw [hr]; nofun
  · rw [hp] at hp'
    cases hp'
  · obtain ⟨l, hl⟩ := ho
    rw [hl]
    nofun

omit [DecidableEq π] [DecidableEq α] in
/-- Both cannot hold the mutex. -/
theorem Inv.exclusive (h : Inv s) {p : π} (hp : (s.producer p).holds = true) :
    s.reader.holds = false := by
  by_contra hr
  have h₁ := h.readerOwns (by simpa using hr)
  rw [h.producerOwns p hp] at h₁
  cases h₁

omit [DecidableEq α] in
theorem owes_update {g : π → SenderPc α} {p : π} {pc : SenderPc α}
    (hpc : (g p).owes = true → pc.owes = true) (h : ∃ q, (g q).owes = true) :
    ∃ q, (Function.update g p pc q).owes = true := by
  obtain ⟨q, hq⟩ := h
  by_cases hqp : q = p
  · subst hqp
    exact ⟨q, by rw [Function.update_self]; exact hpc hq⟩
  · exact ⟨q, by rwa [Function.update_of_ne hqp]⟩

omit [DecidableEq α] in
/-- A producer moves on outside the mutex, and owes no less than before. -/
theorem Inv.setProducer (h : Inv s) {p : π} {pc : SenderPc α} (hpc : pc.holds = false)
    (howes : (s.producer p).owes = true → pc.owes = true) : Inv (s.setProducer p pc) := by
  refine { h with producerOwns := fun q hq => ?_, parking := ?_, parked := ?_ }
  · by_cases hqp : q = p
    · subst hqp
      simp [Synchronized.setProducer, hpc] at hq
    · exact h.producerOwns q (by simpa [Synchronized.setProducer, hqp] using hq)
  · exact fun timed ht => (h.parking timed ht).imp_right (owes_update howes)
  · exact fun timed ht => (h.parked timed ht).imp_right (owes_update howes)

omit [DecidableEq α] in
/-- A push: whoever removes the blocked mark owes a notification. -/
theorem Inv.push (h : Inv s) {p : π} {x : α} {e : Ptr α} (hp : s.producer p = .exchange x e)
    (he : s.mailbox.stack.top = e) :
    Inv { s with
      mailbox := { s.mailbox with stack := s.mailbox.stack.push x }
      producer := Function.update s.producer p (.pushed e) } := by
  have howes : s.mailbox.stack = .blocked ∨ (∃ q, (s.producer q).owes = true) →
      ∃ q, (Function.update s.producer p (.pushed e) q).owes = true := by
    rintro (hb | hq)
    · refine ⟨p, ?_⟩
      rw [Function.update_self, ← he, hb]
      rfl
    · refine owes_update (fun ho => ?_) hq
      rw [hp] at ho
      cases ho
  refine { h with notClosed := nofun, producerOwns := fun q hq => ?_, waiting := fun hr => ?_,
                  unblocked := fun _ => nofun, parking := ?_, parked := ?_, outcome := ?_ }
  · by_cases hqp : q = p
    · subst hqp
      change (Function.update s.producer q (.pushed e) q).holds = true at hq
      rw [Function.update_self] at hq
      cases e <;> cases hq
    · exact h.producerOwns q (by simpa [hqp] using hq)
  · exact ⟨(h.waiting hr).1, .inr (by simp)⟩
  · exact fun timed ht => .inr (howes (h.parking timed ht))
  · exact fun timed ht => .inr (howes (h.parked timed ht))
  · intro timed o ho
    obtain ⟨-, h₂⟩ := h.outcome timed o ho
    exact ⟨fun _ => by simp [Mailbox.waiting], h₂⟩

omit [DecidableEq α] in
/-- A notification wakes a parked reader. -/
theorem Inv.notify (h : Inv s) {p : π} (hp : s.producer p = .notify) :
    Inv { s with reader := AwaitPc.notified s.reader,
                 producer := Function.update s.producer p .unlock } := by
  have hr := h.exclusive (p := p) (by rw [hp]; rfl)
  have hown := h.producerOwns p (by rw [hp]; rfl)
  have hprod : ∀ q, (Function.update s.producer p .unlock q).holds = true →
      s.owner = some (.producer q) := by
    intro q hq
    by_cases hqp : q = p
    · rw [hqp, hown]
    · exact h.producerOwns q (by rwa [Function.update_of_ne hqp] at hq)
  cases hrd : s.reader with
  | parked timed =>
    exact { h with readerOwns := nofun, producerOwns := hprod,
                   waiting := fun _ => h.waiting (by rw [hrd]; rfl), unblocked := nofun,
                   blocking := nofun, parking := nofun, parked := nofun, outcome := nofun,
                   sound := nofun }
  | wait timed =>
    rw [hrd] at hr
    cases hr
  | _ =>
    have := h
    simp only [AwaitPc.notified, ← hrd]
    refine { h with producerOwns := hprod, parking := ?_, parked := ?_ } <;> rw [hrd] <;> nofun

omit [DecidableEq α] in
/-- A producer locks the mutex. -/
theorem Inv.lock (h : Inv s) (hown : s.owner = none) (p : π) :
    Inv { s.setProducer p .notify with owner := some (.producer p) } := by
  have hr : s.reader.holds = false := by
    by_contra hr
    have := h.readerOwns (by simpa using hr)
    rw [hown] at this
    cases this
  refine { h with readerOwns := fun hr' => ?_, producerOwns := fun q hq => ?_, parking := ?_,
                  parked := ?_ }
  · exact absurd (hr.symm.trans hr') nofun
  · by_cases hqp : q = p
    · rw [hqp]
    · have := h.producerOwns q (by simpa [Synchronized.setProducer, hqp] using hq)
      rw [hown] at this
      cases this
  · exact fun timed ht => (h.parking timed ht).imp_right (owes_update fun _ => rfl)
  · exact fun timed ht => (h.parked timed ht).imp_right (owes_update fun _ => rfl)

omit [DecidableEq α] in
/-- A producer unlocks the mutex, having notified. -/
theorem Inv.unlock (h : Inv s) {p : π} (hp : s.producer p = .unlock) :
    Inv { s.setProducer p .idle with owner := none } := by
  have hr := h.exclusive (p := p) (by rw [hp]; rfl)
  have hown := h.producerOwns p (by rw [hp]; rfl)
  have howes : (s.producer p).owes = true → (SenderPc.idle : SenderPc α).owes = true := by
    rw [hp]
    nofun
  refine { h with readerOwns := fun hr' => ?_, producerOwns := fun q hq => ?_, parking := ?_,
                  parked := ?_ }
  · exact absurd (hr.symm.trans hr') nofun
  · have hqp : q ≠ p := by
      rintro rfl
      simp [Synchronized.setProducer, SenderPc.holds] at hq
    have := h.producerOwns q (by simpa [Synchronized.setProducer, hqp] using hq)
    rw [hown] at this
    cases this
    exact absurd rfl hqp
  · exact fun timed ht => (h.parking timed ht).imp_right (owes_update howes)
  · exact fun timed ht => (h.parked timed ht).imp_right (owes_update howes)

theorem Inv.send (h : Inv s) {p : π} (hs : s.send p = some s') : Inv s' := by
  unfold Synchronized.send at hs
  split at hs
  next => cases hs
  next x hp =>
    have howes : (s.producer p).owes = true → False := by rw [hp]; nofun
    split_ifs at hs <;> cases hs
    · exact h.setProducer rfl fun ho => (howes ho).elim
    · exact h.setProducer rfl fun ho => (howes ho).elim
  next x e hp =>
    have howes : (s.producer p).owes = true → False := by rw [hp]; nofun
    split_ifs at hs with he hn
    · cases hs
      exact h.push hp he
    · cases hs
      exact h.setProducer rfl fun ho => (howes ho).elim
    · cases hs
      exact h.setProducer rfl fun ho => (howes ho).elim
  next hp =>
    split at hs
    next hown =>
      cases hs
      exact h.lock hown p
    next => cases hs
  next hp =>
    cases hs
    exact h.notify hp
  next hp =>
    cases hs
    exact h.unlock hp

omit [DecidableEq π] [DecidableEq α] in
/-- The reader moves on, and leaves the queue and the mutex alone. -/
theorem Inv.setReader (h : Inv s) {pc : AwaitPc α} (hw : pc.waiting = s.reader.waiting)
    (hh : pc.holds = true → s.owner = some .reader)
    (hb : ∀ timed, pc = .block timed → s.mailbox.head = [])
    (hp : ∀ timed, pc = .wait timed ∨ pc = .parked timed →
      s.mailbox.stack = .blocked ∨ ∃ p, (s.producer p).owes = true)
    (ho : ∀ timed o, pc = .unlock timed o ∨ pc = .returned timed o →
      (o.value = true → s.mailbox.waiting ≠ []) ∧
        (o.value = false → timed = true ∧ o = .timeout true []))
    (hs : ∀ f, pc ≠ .failed f) : Inv { s with reader := pc } :=
  { h with readerOwns := hh, waiting := fun hr => h.waiting (hw.symm.trans hr),
           unblocked := fun hr => h.unblocked (hw.symm.trans hr), blocking := hb,
           parking := fun timed ht => hp timed (.inl ht), parked := fun timed ht => hp timed (.inr ht),
           outcome := ho, sound := hs }

omit [DecidableEq π] [DecidableEq α] in
/-- The reader locks the mutex. -/
theorem Inv.acquire (h : Inv s) (hown : s.owner = none) {pc : AwaitPc α}
    (hw : pc.waiting = s.reader.waiting) (hpc : (∃ timed, pc = .test timed) ∨ pc = .timedOut) :
    Inv { s with owner := some .reader, reader := pc } := by
  have hnone : ∀ p, (s.producer p).holds = false := by
    intro p
    by_contra hp
    have := h.producerOwns p (by simpa using hp)
    rw [hown] at this
    cases this
  refine { h with readerOwns := fun _ => rfl, producerOwns := fun p hp => ?_,
                  waiting := fun hr => h.waiting (hw.symm.trans hr),
                  unblocked := fun hr => h.unblocked (hw.symm.trans hr), blocking := ?_,
                  parking := ?_, parked := ?_, outcome := ?_, sound := ?_ }
  · rw [hnone p] at hp
    cases hp
  all_goals
    rcases hpc with ⟨timed, rfl⟩ | rfl <;> nofun

omit [DecidableEq π] [DecidableEq α] in
/-- The queue is open unless the reader has blocked it. -/
theorem Inv.open (h : Inv s) (hw : s.reader.waiting = false) : s.mailbox.Open := by
  cases hst : s.mailbox.stack with
  | closed => exact absurd hst h.notClosed
  | blocked => exact absurd hst (h.unblocked hw)
  | list l => exact ⟨l, hst⟩

/-! ### The reader's steps -/

section Await

omit [DecidableEq π] [DecidableEq α]

variable {timed timeout : Bool}

/-- While the reader holds the mutex no producer does. -/
theorem Inv.free (h : Inv s) (hr : s.reader.holds = true) (p : π) : (s.producer p).holds = false := by
  by_contra hp
  have := h.exclusive (p := p) (eq_true_of_ne_false hp)
  rw [hr] at this
  cases this

/-- `can_fetch_more` is asked. -/
theorem Inv.check (h : Inv s) (hr : s.reader = .check timed) (hs : s.awaitStep timeout = some s') :
    Inv s' := by
  have ho : s.mailbox.Open := h.open (by rw [hr]; rfl)
  unfold Synchronized.awaitStep at hs
  rw [hr, Mailbox.canFetchMore_open ho] at hs
  cases hw : s.mailbox.waiting with
  | nil =>
    rw [hw] at hs
    cases hs
    refine h.setReader (by rw [hr]; rfl) nofun (fun _ _ => ?_) nofun nofun nofun
    exact (List.append_eq_nil_iff.mp hw).1
  | cons x l =>
    rw [hw] at hs
    cases hs
    refine h.setReader (by rw [hr]; rfl) nofun nofun nofun (fun _ o ho' => ?_) nofun
    rcases ho' with ho' | ho' <;> cases ho'
    exact ⟨fun _ => by rw [hw]; exact List.cons_ne_nil x l, nofun⟩

/-- The queue is blocked, or holds an element. -/
theorem Inv.block (h : Inv s) (hr : s.reader = .block timed) (hs : s.awaitStep timeout = some s') :
    Inv s' := by
  obtain ⟨l, hl⟩ : s.mailbox.Open := h.open (by rw [hr]; rfl)
  unfold Synchronized.awaitStep at hs
  rw [hr] at hs
  cases l with
  | nil =>
    simp only [Mailbox.tryBlock, hl] at hs
    cases hs
    exact { h with notClosed := nofun, readerOwns := nofun,
                   waiting := fun _ => ⟨h.blocking timed hr, .inl rfl⟩, unblocked := nofun,
                   blocking := nofun, parking := nofun, parked := nofun, outcome := nofun,
                   sound := nofun }
  | cons x l =>
    simp only [Mailbox.tryBlock, hl] at hs
    cases hs
    refine h.setReader (by rw [hr]; rfl) nofun nofun nofun (fun _ o ho' => ?_) nofun
    rcases ho' with ho' | ho' <;> cases ho'
    exact ⟨fun _ => Mailbox.waiting_ne_nil (by rw [hl]; exact List.cons_ne_nil x l), nofun⟩

/-- The head of the loop: a queue that is not blocked any more holds an element. -/
theorem Inv.test (h : Inv s) (hr : s.reader = .test timed) (hs : s.awaitStep timeout = some s') :
    Inv s' := by
  have hown := h.readerOwns (by rw [hr]; rfl)
  obtain ⟨hhead, hst⟩ := h.waiting (by rw [hr]; rfl)
  unfold Synchronized.awaitStep at hs
  rw [hr] at hs
  cases hb : s.mailbox.isBlocked with
  | true =>
    simp only [hb, if_true] at hs
    cases hs
    refine h.setReader (by rw [hr]; rfl) (fun _ => hown) nofun (fun _ _ => .inl ?_) nofun nofun
    exact Mailbox.isBlocked_iff.mp hb
  | false =>
    simp only [hb] at hs
    cases hs
    have hne : s.mailbox.stack ≠ .blocked := by
      intro hst'
      rw [Mailbox.isBlocked_iff.mpr hst'] at hb
      cases hb
    refine { h with readerOwns := fun _ => hown, waiting := nofun, unblocked := fun _ => hne,
                    blocking := nofun, parking := nofun, parked := nofun,
                    outcome := fun _ o ho' => ?_, sound := nofun }
    rcases ho' with ho' | ho' <;> cases ho'
    exact ⟨fun _ => Mailbox.waiting_ne_nil (hst.resolve_left hne), nofun⟩

/-- The mutex is released and the reader parked: nobody could notify before. -/
theorem Inv.park (h : Inv s) (hr : s.reader = .wait timed) (hs : s.awaitStep timeout = some s') :
    Inv s' := by
  unfold Synchronized.awaitStep at hs
  rw [hr] at hs
  cases hs
  refine { h with readerOwns := nofun, producerOwns := fun p hp => ?_,
                  waiting := fun _ => h.waiting (by rw [hr]; rfl), unblocked := nofun,
                  blocking := nofun, parking := nofun, parked := fun _ _ => h.parking timed hr,
                  outcome := nofun, sound := nofun }
  rw [h.free (by rw [hr]; rfl) p] at hp
  cases hp

/-- After a timeout the mark is taken back, unless an element has replaced it. -/
theorem Inv.timedOut (h : Inv s) (hr : s.reader = .timedOut) (hs : s.awaitStep timeout = some s') :
    Inv s' := by
  have hown := h.readerOwns (by rw [hr]; rfl)
  obtain ⟨hhead, hst⟩ := h.waiting (by rw [hr]; rfl)
  unfold Synchronized.awaitStep at hs
  rw [hr] at hs
  rcases hst with hb | hne
  · have hw := Mailbox.waiting_of_blocked hhead hb
    simp only [Mailbox.tryUnblock_of_blocked hb] at hs
    cases hs
    refine { h with notClosed := nofun, readerOwns := fun _ => hown, waiting := nofun,
                    unblocked := nofun, blocking := nofun, parking := nofun, parked := nofun,
                    outcome := fun _ o ho' => ?_, sound := nofun }
    rcases ho' with ho' | ho' <;> cases ho'
    exact ⟨nofun, fun _ => ⟨rfl, by rw [hw]⟩⟩
  · have hnb : s.mailbox.stack ≠ .blocked := by
      intro hb
      rw [hb] at hne
      exact hne rfl
    simp only [Mailbox.tryUnblock_of_ne hnb] at hs
    cases hs
    refine { h with readerOwns := fun _ => hown, waiting := nofun, unblocked := fun _ => hnb,
                    blocking := nofun, parking := nofun, parked := nofun,
                    outcome := fun _ o ho' => ?_, sound := nofun }
    rcases ho' with ho' | ho' <;> cases ho'
    exact ⟨fun _ => Mailbox.waiting_ne_nil hne, nofun⟩

/-- The reader releases the mutex, with its result. -/
theorem Inv.release (h : Inv s) {o : Outcome α} (hr : s.reader = .unlock timed o)
    (hs : s.awaitStep timeout = some s') : Inv s' := by
  unfold Synchronized.awaitStep at hs
  rw [hr] at hs
  cases hs
  refine { h with readerOwns := nofun, producerOwns := fun p hp => ?_, waiting := nofun,
                  unblocked := fun _ => h.unblocked (by rw [hr]; rfl), blocking := nofun,
                  parking := nofun, parked := nofun, outcome := fun _ o' ho' => ?_, sound := nofun }
  · rw [h.free (by rw [hr]; rfl) p] at hp
    cases hp
  · rcases ho' with ho' | ho' <;> cases ho'
    exact h.outcome timed o (.inl hr)

/-- What the reader's next step keeps. -/
theorem Inv.await (h : Inv s) (hs : s.awaitStep timeout = some s') : Inv s' := by
  cases hr : s.reader with
  | check timed => exact h.check hr hs
  | block timed => exact h.block hr hs
  | test timed => exact h.test hr hs
  | wait timed => exact h.park hr hs
  | timedOut => exact h.timedOut hr hs
  | unlock timed o => exact h.release hr hs
  | enter timed =>
    obtain ⟨l, hl⟩ : s.mailbox.Open := h.open (by rw [hr]; rfl)
    unfold Synchronized.awaitStep at hs
    rw [hr, hl, Stack.isNull_top_list] at hs
    cases hs
    exact h.setReader (by rw [hr]; rfl) nofun nofun nofun nofun nofun
  | lock timed =>
    unfold Synchronized.awaitStep at hs
    rw [hr] at hs
    cases hown : s.owner with
    | none =>
      rw [hown] at hs
      cases hs
      exact h.acquire hown (by rw [hr]; rfl) (.inl ⟨timed, rfl⟩)
    | some _ =>
      rw [hown] at hs
      cases hs
  | woken timed =>
    unfold Synchronized.awaitStep at hs
    rw [hr] at hs
    cases hown : s.owner with
    | none =>
      rw [hown] at hs
      cases hs
      refine h.acquire hown ?_ ?_
      · rw [hr]; split_ifs <;> rfl
      · split_ifs
        · exact .inr rfl
        · exact .inl ⟨timed, rfl⟩
    | some _ =>
      rw [hown] at hs
      cases hs
  | returned timed o =>
    unfold Synchronized.awaitStep at hs
    rw [hr] at hs
    cases hs
    exact h.setReader (by rw [hr]; rfl) nofun nofun nofun nofun nofun
  | idle | parked | failed =>
    unfold Synchronized.awaitStep at hs
    rw [hr] at hs
    cases hs

end Await

theorem Inv.step (h : Inv s) {a : SyncAct π α} (hs : s.step a = some s') : Inv s' := by
  cases a with
  | call p x =>
    simp only [Synchronized.step] at hs
    split at hs
    next hp =>
      cases hs
      exact h.setProducer rfl fun ho => by rw [hp] at ho; cases ho
    next => cases hs
  | send p => exact h.send hs
  | await timed =>
    simp only [Synchronized.step] at hs
    split at hs
    next hr =>
      cases hs
      exact h.setReader (by rw [hr]; rfl) nofun nofun nofun nofun nofun
    next => cases hs
  | step timeout => exact h.await hs
  | wake =>
    simp only [Synchronized.step] at hs
    split at hs
    next timed hr =>
      cases hs
      exact h.setReader (by rw [hr]; rfl) nofun nofun nofun nofun nofun
    next => cases hs
  | pop =>
    simp only [Synchronized.step] at hs
    split at hs
    next hr =>
      obtain ⟨q, r, hpop, ho⟩ : ∃ q r, s.mailbox.tryPop = .ok (q, r) ∧ q.Open := by
        have ho := h.open (by rw [hr]; rfl)
        cases hw : s.mailbox.waiting with
        | nil => exact ⟨_, _, (Mailbox.tryPop_nil ho hw).1, ho⟩
        | cons x l =>
          obtain ⟨q, hq, ho', -⟩ := Mailbox.tryPop_cons ho hw
          exact ⟨_, _, hq, ho'⟩
      rw [hpop] at hs
      cases hs
      refine { h with notClosed := ho.ne_closed, waiting := ?waiting, unblocked := ?unblocked,
                      blocking := ?blocking, parking := ?parking, parked := ?parked,
                      outcome := ?outcome }
      case unblocked =>
        obtain ⟨l, hl⟩ := ho
        rw [hl]
        exact fun _ => nofun
      all_goals
        rw [hr]
        nofun
    next => cases hs

theorem inv_of_reachable (h : (system π α).Reachable s) : Inv s :=
  h.invariant (fun _ => inv_init) fun _ _ _ hI hs => hI.step hs

/-- **No wake-up is lost**, over every interleaving: no assertion fails; a reader that is parked
while the queue is not blocked is owed a notification; where the untimed form returns, or
the timed form returns true, an element can be popped; and the timed form returns false
only after a timeout whose `try_unblock` succeeded on a queue that held nothing. -/
theorem no_lost_wakeup (h : (system π α).Reachable s) :
    (∀ f, s.reader ≠ .failed f) ∧
    (∀ timed, s.reader = .parked timed → s.mailbox.stack ≠ .blocked →
      ∃ p, (s.producer p).owes = true) ∧
    (∀ timed o, s.reader = .returned timed o → timed = false ∨ o.value = true →
      ∃ q x, s.mailbox.tryPop = .ok (q, some x)) ∧
    ∀ o, s.reader = .returned true o → o.value = false → o = .timeout true [] := by
  have hI := inv_of_reachable h
  refine ⟨hI.sound, fun timed hr hne => (hI.parked timed hr).resolve_left hne, ?_, ?_⟩
  · intro timed o hr hv
    obtain ⟨hpos, hneg⟩ := hI.outcome timed o (.inr hr)
    have hval : o.value = true := by
      rcases hv with rfl | hv
      · by_contra hv
        have := (hneg (by simpa using hv)).1
        cases this
      · exact hv
    obtain ⟨x, l, hw⟩ := List.exists_cons_of_ne_nil (hpos hval)
    obtain ⟨q, hq, -⟩ := Mailbox.tryPop_cons (hI.open (by rw [hr]; rfl)) hw
    exact ⟨q, x, hq⟩
  · intro o hr hv
    exact ((hI.outcome true o (.inr hr)).2 hv).2

/-- A producer removes the mark before the reader has parked, and has to wait for the mutex. -/
theorem no_lost_wakeup_one : ∃ s : Synchronized (Fin 1) ℕ,
    s.reader = .returned false .unblocked ∧ ∃ q x, s.mailbox.tryPop = .ok (q, some x) := by
  obtain ⟨s, hs, hr⟩ : ∃ s, (system (Fin 1) ℕ).replay (fun _ _ => true) {}
      [.await false, .step false, .step false, .step false, .step false, .step false, .call 0 7,
        .send 0, .send 0, .step false, .send 0, .send 0, .send 0, .step false, .step false,
        .step false] = some s ∧ s.reader = .returned false .unblocked := ⟨_, rfl, rfl⟩
  exact ⟨s, hr, (no_lost_wakeup (.of_replay ⟨⟨[], rfl⟩, rfl, rfl, fun _ => rfl⟩ hs)).2.2.1 false _ hr
    (.inl rfl)⟩

end Invariant

end Synchronized

end ActorsFramework.Detail
