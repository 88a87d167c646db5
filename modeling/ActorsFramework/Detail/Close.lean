import ActorsFramework.Detail.Reader

/-!
# Closing the queue

`close` empties the four places where elements are kept, and the fetch that
collects what is on `stack_` is also what writes the mark of a closed queue.
On a queue marked as blocked that fetch is skipped: there is nothing on
`stack_` to collect then, but the mark is not written either, and the queue is
still blocked afterwards.

`Closes` says what is asked of `close`, and `close_iff` that it is done exactly
on the queues that are not marked as blocked. What happens to the elements is
right on every queue, `close_disposes`.
-/

namespace ActorsFramework.Detail

open Lib

variable {α : Type*}

/-- Each element of `l` is visited once and then deleted once, and nothing else is done. -/
structure DisposesOnce [DecidableEq α] (log : List (Event α)) (l : List α) : Prop where
  /-- Each is visited exactly once. -/
  visits : ∀ x, log.count (.visit x) = if x ∈ l then 1 else 0
  /-- Each is deleted exactly once. -/
  deletes : ∀ x, log.count (.delete x) = if x ∈ l then 1 else 0
  /-- The visit comes first. -/
  order : ∀ x ∈ l, [.visit x, .delete x].Sublist log

theorem count_visit_clearElements [DecidableEq α] (l : List α) (x : α) :
    (clearElements l).count (.visit x) = l.count x := by
  induction l with
  | nil => rfl
  | cons y l ih => simp [clearElements, List.count_cons, ih]

theorem count_delete_clearElements [DecidableEq α] (l : List α) (x : α) :
    (clearElements l).count (.delete x) = l.count x := by
  induction l with
  | nil => rfl
  | cons y l ih => simp [clearElements, List.count_cons, ih]

theorem sublist_clearElements {l : List α} {x : α} (h : x ∈ l) :
    [.visit x, .delete x].Sublist (clearElements l) := by
  induction l with
  | nil => cases h
  | cons y l ih =>
    rcases List.mem_cons.mp h with rfl | h
    · exact ((List.nil_sublist _).cons_cons _).cons_cons _
    · exact ((ih h).cons _).cons _

/-- The clearing loop disposes of each of several distinct objects once. -/
theorem clearElements_disposesOnce [DecidableEq α] {l : List α} (h : l.Nodup) :
    DisposesOnce (clearElements l) l where
  visits x := by rw [count_visit_clearElements, h.count]
  deletes x := by rw [count_delete_clearElements, h.count]
  order _ hx := sublist_clearElements hx

namespace Mailbox

variable [DecidableEq α]

omit [DecidableEq α] in
theorem closed_iff {q : Mailbox α} : q.closed = true ↔ q.stack = .closed := by
  rw [← Stack.top_eq_null, closed]
  cases q.stack.top <;> simp [Ptr.isNull]

/-- `close` returns, and has done what it should. -/
structure Closes (q q' : Mailbox α) (log : List (Event α)) : Prop where
  /-- It returns. -/
  returns : q.close = .ok (q', log)
  /-- Every stored element was visited once and then deleted once. -/
  disposes : DisposesOnce log q.stored
  /-- No element is left. -/
  empty : q'.stored = []
  /-- The queue is closed. -/
  closed : q'.closed = true
  /-- Whatever is called afterwards, an enqueue fails and deletes its element. -/
  later : ∀ ops q'', (system α).replay (fun _ _ => true) q' ops = some q'' → ∀ x,
    q''.enqueue x = (q'', .queueClosed) ∧ q''.enqueueDeletes x = [.delete x]

theorem replay_closed {ops : List (Op α)} {q q' : Mailbox α} (hq : q.stack = .closed)
    (h : (system α).replay (fun _ _ => true) q ops = some q') : q'.stack = .closed := by
  induction ops generalizing q with
  | nil => cases h; exact hq
  | cons op ops ih =>
    rw [System.replay, if_pos rfl] at h
    obtain ⟨q₁, h₁, h⟩ := Option.bind_eq_some_iff.mp h
    exact ih (call_closed hq (system_step h₁).2) h

omit [DecidableEq α] in
theorem enqueue_closed {q : Mailbox α} (hq : q.stack = .closed) (x : α) :
    q.enqueue x = (q, .queueClosed) ∧ q.enqueueDeletes x = [.delete x] := by
  unfold enqueue enqueueDeletes
  rw [hq]
  exact ⟨rfl, rfl⟩

/-- On every reachable queue that is not closed, blocked or not, `close` disposes of each
stored element once and leaves none. -/
theorem close_disposes {q : Mailbox α} (hr : (system α).Reachable q) (ho : q.stack ≠ .closed) :
    ∃ q' log, q.close = .ok (q', log) ∧ DisposesOnce log q.stored ∧ q'.stored = [] := by
  have hd := clearElements_disposesOnce (reachable_nodup hr)
  cases hs : q.stack with
  | closed => exact absurd hs ho
  | blocked => exact ⟨_, _, close_blocked hs, hd, rfl⟩
  | list l => exact ⟨_, _, close_list hs, hd, rfl⟩

/-- On a queue marked as blocked `close` does not do what it should: the mark stays. -/
theorem not_closes_of_blocked {q : Mailbox α} (hs : q.stack = .blocked) :
    ¬ ∃ q' log, Closes q q' log := by
  rintro ⟨q', log, h⟩
  have hc := h.returns
  rw [close_blocked hs] at hc
  cases hc
  cases h.closed

/-- **`close` closes exactly the queues that are not marked as blocked.** -/
theorem close_iff {q : Mailbox α} (hr : (system α).Reachable q) (ho : q.closed = false) :
    (∃ q' log, Closes q q' log) ↔ q.isBlocked = false := by
  constructor
  · intro h
    by_contra hb
    exact not_closes_of_blocked (isBlocked_iff.mp (Bool.not_eq_false _ ▸ hb)) h
  · intro hb
    have hne : q.stack ≠ .closed := by
      intro hs
      rw [closed_iff.mpr hs] at ho
      cases ho
    obtain ⟨q', log, hc, hd, he⟩ := close_disposes hr hne
    have hs' : q'.stack = .closed := by
      cases hs : q.stack with
      | closed => exact absurd hs hne
      | blocked => rw [isBlocked_iff.mpr hs] at hb; cases hb
      | list l => rw [close_list hs] at hc; cases hc; rfl
    exact ⟨q', log, hc, hd, he, closed_iff.mpr hs', fun ops q'' h x =>
      enqueue_closed (replay_closed hs' h) x⟩

/-- A queue with an element in each of the four places is closed properly. -/
theorem close_iff_full :
    (∃ q' log, Closes (⟨.list [4], [3], ⟨[1], [2]⟩⟩ : Mailbox ℕ) q' log) ↔
      isBlocked (⟨.list [4], [3], ⟨[1], [2]⟩⟩ : Mailbox ℕ) = false :=
  close_iff (System.Reachable.of_actions rfl [.enqueue 3, .enqueue 5, .tryPop, .insertFirst 0 1,
    .insertSecond 0 2, .tryPop, .enqueue 3, .peek, .enqueue 4] (by decide)) rfl

/-- A queue marked as blocked is not closed by `close`: `closed()` stays false, and the next
enqueue succeeds. -/
theorem close_blocked_stays_open :
    ∃ q : Mailbox ℕ, (system ℕ).Reachable q ∧ q.closed = false ∧ (¬ ∃ q' log, Closes q q' log) ∧
      ∃ q' log, q.close = .ok (q', log) ∧ q'.closed = false ∧
        (q'.enqueue 1).2 = .unblockedReader ∧ q'.enqueueDeletes 1 = [] :=
  ⟨⟨.blocked, [], {}⟩, System.Reachable.of_actions rfl [.tryBlock] rfl, rfl,
    not_closes_of_blocked rfl, _, _, rfl, rfl, rfl, rfl⟩

end Mailbox

end ActorsFramework.Detail
