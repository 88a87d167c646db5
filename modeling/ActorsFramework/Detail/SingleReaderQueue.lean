import Mathlib.Data.List.Basic
import Mathlib.Logic.Function.Basic

/-!
# The single-reader queue

`detail::single_reader_queue` and the cache in it, on lists. Elements live in
three places: `stack_`, a stack the producers push onto; `head_`, a list only
the reader touches, in the order of arrival; and the cache, an
`intrusive_partitioned_list` whose first part holds messages not yet processed
and whose second part holds skipped ones. The value of `stack_` doubles as the
state of the queue: null when closed, one of two dummies when empty or when the
reader has blocked it, else the newest element.

An element is its address, so two elements are equal when they are the same
object. `detail::single_reader_queue` itself keeps the elements on the two lists
linked through their `next` field; `ActorsFramework.Detail.LinkedQueue` models
that, with producers interleaved step by step, and shows that the lists of this
module are what the links hold.
-/

namespace ActorsFramework.Detail

variable {α : Type*}

/-- `enqueue_result`: in which state queue and reader are after an enqueue. -/
inductive EnqueueResult where
  /-- The reader is ready to receive the data. -/
  | success
  /-- The reader is blocked and needs to be scheduled again. -/
  | unblockedReader
  /-- The queue has been closed by the reader. -/
  | queueClosed
  deriving DecidableEq

/-- The values a `pointer` can have. -/
inductive Ptr (α : Type*) where
  /-- `nullptr`. -/
  | null
  /-- `stack_empty_dummy()`, the address of the queue. -/
  | emptyDummy
  /-- `reader_blocked_dummy()`, one word further. -/
  | blockedDummy
  /-- An element. -/
  | elem (x : α)
  deriving DecidableEq

/-- The pointer is null. -/
def Ptr.isNull : Ptr α → Bool
  | .null => true
  | _ => false

theorem Ptr.elem_ne_null (x : α) : Ptr.elem x ≠ .null := nofun

/-- What `enqueue` writes to `new_element->next` before it exchanges the pointer for the new
element: "a dummy is never part of a non-empty list". -/
def Ptr.link : Ptr α → Ptr α
  | .elem x => .elem x
  | _ => .null

/-- `is_dummy`. -/
def Ptr.isDummy : Ptr α → Bool
  | .emptyDummy | .blockedDummy => true
  | _ => false

/-- What `stack_` holds: its value and, where that is an element, the elements below. -/
inductive Stack (α : Type*) where
  /-- `nullptr`: the queue is closed. -/
  | closed
  /-- `reader_blocked_dummy()`. -/
  | blocked
  /-- The elements, newest first; `stack_empty_dummy()` where there is none. -/
  | list (l : List α)
  deriving DecidableEq

namespace Stack

/-- The value of the atomic variable. -/
def top : Stack α → Ptr α
  | .closed => .null
  | .blocked => .blockedDummy
  | .list [] => .emptyDummy
  | .list (x :: _) => .elem x

/-- The elements, newest first. -/
def elems : Stack α → List α
  | .list l => l
  | _ => []

/-- `stack_` after a successful `compare_exchange` to a new element whose `next` is what
was there (null in place of a dummy). -/
def push (x : α) (s : Stack α) : Stack α := .list (x :: s.elems)

@[simp] theorem elems_closed : (closed : Stack α).elems = [] := rfl
@[simp] theorem elems_blocked : (blocked : Stack α).elems = [] := rfl
@[simp] theorem elems_list (l : List α) : (list l).elems = l := rfl
@[simp] theorem elems_push (x : α) (s : Stack α) : (s.push x).elems = x :: s.elems := rfl
@[simp] theorem push_ne_blocked (x : α) (s : Stack α) : s.push x ≠ .blocked := nofun
@[simp] theorem push_ne_closed (x : α) (s : Stack α) : s.push x ≠ .closed := nofun
@[simp] theorem top_closed : (closed : Stack α).top = .null := rfl
@[simp] theorem top_blocked : (blocked : Stack α).top = .blockedDummy := rfl
@[simp] theorem top_nil : (list ([] : List α)).top = .emptyDummy := rfl
@[simp] theorem top_cons (x : α) (l : List α) : (list (x :: l)).top = .elem x := rfl

theorem isNull_top_list (l : List α) : (list l).top.isNull = false := by
  cases l <;> rfl

theorem top_eq_emptyDummy {s : Stack α} : s.top = .emptyDummy ↔ s = .list [] := by
  cases s with
  | list l => cases l <;> simp
  | _ => simp

theorem top_eq_blockedDummy {s : Stack α} : s.top = .blockedDummy ↔ s = .blocked := by
  cases s with
  | list l => cases l <;> simp
  | _ => simp

theorem top_eq_null {s : Stack α} : s.top = .null ↔ s = .closed := by
  cases s with
  | list l => cases l <;> simp
  | _ => simp

theorem top_eq_elem {s : Stack α} {x : α} : s.top = .elem x ↔ ∃ l, s = .list (x :: l) := by
  cases s with
  | list l => cases l <;> simp
  | _ => simp

end Stack

/-- `intrusive_partitioned_list`: its two parts. -/
structure Cache (α : Type*) where
  /-- `[begin, separator)`: messages that were not processed yet. -/
  first : List α := []
  /-- `[continuation, end)`: skipped messages. -/
  second : List α := []
  deriving DecidableEq

/-- `intrusive_partitioned_list::empty`. -/
def Cache.empty (c : Cache α) : Bool := c.first.isEmpty && c.second.isEmpty

/-- An insertion at a place that is given by what stands in front of it. -/
theorem insertIdx_length (before after : List α) (x : α) :
    (before ++ after).insertIdx before.length x = before ++ x :: after := by
  induction before with
  | nil => rfl
  | cons y before ih => rw [List.cons_append, List.length_cons, List.insertIdx_succ_cons, ih]; rfl

/-- `single_reader_queue`. -/
structure Mailbox (α : Type*) where
  /-- `stack_`. -/
  stack : Stack α := .list []
  /-- `head_`. -/
  head : List α := []
  /-- `cache_`. -/
  cache : Cache α := {}
  deriving DecidableEq

/-- What stops a thread: an assertion that fails, a null pointer followed, a loop that
never ends. -/
inductive Fault where
  /-- "must not be called on a closed queue", in `fetch_new_data`, `can_fetch_more`, `empty` and
  `synchronized_await`. -/
  | fetchClosed
  /-- "fetching data while blocked is an error". -/
  | fetchBlocked
  /-- `fetch_new_data`'s `assert(!is_dummy(e))`. -/
  | linkDummy
  /-- `head_->next` with `head_` null. -/
  | headNull
  /-- `push_to_cache`'s `assert(ptr != nullptr)`. -/
  | pushNull
  /-- A loop went on for longer than the queue has elements. -/
  | diverges
  deriving DecidableEq

namespace Mailbox

/-- `enqueue`, taken as a whole. -/
def enqueue (q : Mailbox α) (x : α) : Mailbox α × EnqueueResult :=
  match q.stack with
  | .closed => (q, .queueClosed)
  | .blocked => ({ q with stack := q.stack.push x }, .unblockedReader)
  | .list _ => ({ q with stack := q.stack.push x }, .success)

/-- `can_fetch_more`. -/
def canFetchMore (q : Mailbox α) : Except Fault Bool :=
  if !q.head.isEmpty then .ok true
  else if q.stack.top.isNull then .error .fetchClosed
  else .ok !q.stack.top.isDummy

/-- `blocked`. -/
def isBlocked (q : Mailbox α) : Bool :=
  match q.stack with
  | .blocked => true
  | _ => false

/-- `try_block`: from `empty` to `blocked`. -/
def tryBlock (q : Mailbox α) : Mailbox α × Bool :=
  match q.stack with
  | .list [] => ({ q with stack := .blocked }, true)
  | _ => (q, false)

/-- `try_unblock`: from `blocked` to `empty`. -/
def tryUnblock (q : Mailbox α) : Mailbox α × Bool :=
  match q.stack with
  | .blocked => ({ q with stack := .list [] }, true)
  | _ => (q, false)

/-- `fetch_new_data`'s inner loop: each element in turn is put in front of `head_`. -/
def relink : List α → List α → List α
  | [], head => head
  | e :: es, head => relink es (e :: head)

/-- `fetch_new_data()`: set `stack_` back to empty and move its elements to `head_`. -/
def fetchNewData (q : Mailbox α) : Except Fault (Mailbox α × Bool) :=
  match q.stack with
  | .closed => .error .fetchClosed
  | .blocked => .error .fetchBlocked
  | .list [] => .ok (q, false)
  | .list (e :: es) => .ok ({ q with stack := .list [], head := relink (e :: es) q.head }, true)

/-- The first element of `head_`, taken off it. -/
def popHead (q : Mailbox α) : Except Fault (Mailbox α × Option α) :=
  match q.head with
  | [] => .error .headNull
  | x :: head => .ok ({ q with head := head }, some x)

/-- `try_pop`, which is `take_head`. -/
def tryPop (q : Mailbox α) : Except Fault (Mailbox α × Option α) :=
  if q.head.isEmpty then
    match q.fetchNewData with
    | .error e => .error e
    | .ok (q, false) => .ok (q, none)
    | .ok (q, true) => q.popHead
  else q.popHead

/-- The elements that `try_pop` will return, in order. -/
def waiting (q : Mailbox α) : List α := q.head ++ q.stack.elems.reverse

/-- The elements of the first part of the cache, of `head_` and of `stack_`, oldest first. -/
def contents (q : Mailbox α) : List α := q.cache.first ++ q.waiting

/-- Neither closed nor blocked. -/
def Open (q : Mailbox α) : Prop := ∃ l, q.stack = .list l

theorem relink_eq (es head : List α) : relink es head = es.reverse ++ head := by
  induction es generalizing head with
  | nil => rfl
  | cons e es ih => simp [relink, ih]

/-- `try_pop` on an open queue returns the element that has waited longest. -/
theorem tryPop_cons {q : Mailbox α} (ho : q.Open) {x : α} {w : List α} (hw : q.waiting = x :: w) :
    ∃ q', q.tryPop = .ok (q', some x) ∧ q'.Open ∧ q'.waiting = w ∧ q'.cache = q.cache := by
  obtain ⟨stack, head, cache⟩ := q
  obtain ⟨l, rfl⟩ : ∃ l, stack = .list l := ho
  cases head with
  | cons y head =>
    obtain ⟨rfl, rfl⟩ : y = x ∧ head ++ l.reverse = w := by simpa [waiting] using hw
    exact ⟨⟨.list l, head, cache⟩, rfl, ⟨l, rfl⟩, rfl, rfl⟩
  | nil =>
    cases l with
    | nil => simp [waiting] at hw
    | cons e es =>
      have hr : relink (e :: es) [] = x :: w := by
        rw [relink_eq, List.append_nil]
        simpa [waiting] using hw
      exact ⟨⟨.list [], w, cache⟩, by simp [tryPop, fetchNewData, hr, popHead], ⟨[], rfl⟩,
        by simp [waiting], rfl⟩

/-- `try_pop` on an open queue without waiting elements returns null. -/
theorem tryPop_nil {q : Mailbox α} (ho : q.Open) (hw : q.waiting = []) :
    q.tryPop = .ok (q, none) ∧ q.stack = .list [] ∧ q.head = [] := by
  obtain ⟨stack, head, cache⟩ := q
  obtain ⟨l, rfl⟩ : ∃ l, stack = .list l := ho
  obtain ⟨rfl, rfl⟩ : head = [] ∧ l = [] := by simpa [waiting] using hw
  exact ⟨rfl, rfl, rfl⟩

/-- `can_fetch_more` on an open queue says whether `try_pop` would succeed. -/
theorem canFetchMore_open {q : Mailbox α} (ho : q.Open) :
    q.canFetchMore = .ok !q.waiting.isEmpty := by
  obtain ⟨stack, head, cache⟩ := q
  obtain ⟨l, rfl⟩ : ∃ l, stack = .list l := ho
  cases head <;> cases l <;> simp [canFetchMore, waiting, Ptr.isNull, Ptr.isDummy]

theorem isBlocked_iff {q : Mailbox α} : q.isBlocked = true ↔ q.stack = .blocked := by
  unfold isBlocked
  split
  next h => exact iff_of_true rfl h
  next h => exact iff_of_false (by simp) h

theorem waiting_ne_nil {q : Mailbox α} (hs : q.stack.elems ≠ []) : q.waiting ≠ [] := fun h =>
  hs (List.reverse_eq_nil_iff.mp (List.append_eq_nil_iff.mp h).2)

theorem waiting_of_blocked {q : Mailbox α} (hh : q.head = []) (hb : q.stack = .blocked) :
    q.waiting = [] := by
  rw [waiting, hh, hb]
  rfl

theorem tryUnblock_of_blocked {q : Mailbox α} (hb : q.stack = .blocked) :
    q.tryUnblock = ({ q with stack := .list [] }, true) := by
  unfold tryUnblock
  rw [hb]

theorem tryUnblock_of_ne {q : Mailbox α} (hb : q.stack ≠ .blocked) : q.tryUnblock = (q, false) := by
  unfold tryUnblock
  split
  next h => exact absurd h hb
  next => rfl

/-- Enqueueing on a queue that is not closed puts the element behind all others. -/
theorem waiting_enqueue {q : Mailbox α} (h : q.stack ≠ .closed) (x : α) :
    (q.enqueue x).1.waiting = q.waiting ++ [x] := by
  obtain ⟨stack, head, cache⟩ := q
  cases stack with
  | closed => exact absurd rfl h
  | blocked => simp [enqueue, waiting]
  | list l => simp [enqueue, waiting]

theorem cache_enqueue (q : Mailbox α) (x : α) : (q.enqueue x).1.cache = q.cache := by
  obtain ⟨stack, head, cache⟩ := q
  cases stack <;> rfl

theorem head_enqueue (q : Mailbox α) (x : α) : (q.enqueue x).1.head = q.head := by
  obtain ⟨stack, head, cache⟩ := q
  cases stack <;> rfl

theorem open_enqueue {q : Mailbox α} (h : q.stack ≠ .closed) (x : α) : (q.enqueue x).1.Open := by
  obtain ⟨stack, head, cache⟩ := q
  cases stack with
  | closed => exact absurd rfl h
  | blocked => exact ⟨[x], rfl⟩
  | list l => exact ⟨x :: l, rfl⟩

theorem Open.ne_closed {q : Mailbox α} (h : q.Open) : q.stack ≠ .closed := by
  obtain ⟨l, hl⟩ := h
  rw [hl]
  nofun

end Mailbox

end ActorsFramework.Detail
