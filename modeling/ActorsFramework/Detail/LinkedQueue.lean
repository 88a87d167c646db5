import ActorsFramework.Detail.SingleReaderQueue
import ActorsFramework.Lib.Chain
import ActorsFramework.Lib.Transition

/-!
# The queue in memory

`single_reader_queue` with its elements linked through their `next` fields, any
number of producers inside `enqueue` and one reader, each atomic access to
`stack_` and each write to a `next` field a step of its own. A producer keeps
the pointer it last read from `stack_` and has written to its element's `next`
field while others push and pop; the reader takes the whole stack and reverses
it into `head_` one element at a time.

Addresses are reused: an element that was popped may be deleted, and a new
element made at its address, between a producer's read and its exchange. What
saves the queue is that a successful exchange compares the very pointer that
stands in the new element's `next` field, whatever has happened since it was
read. `Holds` is the invariant; `refines` shows that the lists it speaks of go
through the operations of `ActorsFramework.Detail.SingleReaderQueue`.
-/

namespace ActorsFramework.Detail

open Lib

/-- What is at an address. -/
inductive Cell where
  /-- Nothing, or a deleted element. -/
  | free
  /-- An element some producer is about to push. -/
  | pushing
  /-- An element of the queue. -/
  | queued
  /-- An element the reader has popped. -/
  | popped
  deriving DecidableEq

/-- Where a producer is in `enqueue`. -/
inductive ProducerPc (A : Type*) where
  /-- Outside. -/
  | idle
  /-- Before `stack_.load()`, with the new element. -/
  | load (x : A)
  /-- At the head of the loop, with the new element and the value of `stack_` read last. -/
  | link (x : A) (e : Ptr A)
  /-- The element's `next` is written; at `compare_exchange_strong`. -/
  | exchange (x : A) (e : Ptr A)

/-- The element a producer is pushing. -/
def ProducerPc.object {A : Type*} : ProducerPc A → Option A
  | .idle => none
  | .load x => some x
  | .link x _ => some x
  | .exchange x _ => some x

/-- The operation of the reader that needs `head_`. -/
inductive ReaderOp where
  /-- `try_pop`. -/
  | pop
  /-- `peek`. -/
  | peek
  deriving DecidableEq

/-- Where the reader is in `fetch_new_data` and `take_head`. -/
inductive ReaderPc (A : Type*) where
  /-- Outside. -/
  | idle
  /-- Before `stack_.load()`. -/
  | load (op : ReaderOp)
  /-- In the loop, at `compare_exchange_weak`. -/
  | exchange (op : ReaderOp) (e : Ptr A)
  /-- In the inner loop; the elements from `e` on are not in `head_` yet. -/
  | relink (op : ReaderOp) (e : Ptr A)
  /-- `head_` is not null. -/
  | take (op : ReaderOp)
  /-- An assertion has failed. -/
  | failed (f : Fault)

/-- The elements that are neither on the stack nor in `head_`. -/
def ReaderPc.limbo {A : Type*} : ReaderPc A → Ptr A
  | .relink _ e => e
  | _ => .null

/-- The queue, the memory, the threads, and what they have done. -/
structure LinkedQueue (π A V : Type*) where
  /-- `stack_`. -/
  stack : Ptr A := .emptyDummy
  /-- `head_`. -/
  head : Ptr A := .null
  /-- The `next` fields. -/
  next : A → Ptr A
  /-- The element at an address. -/
  val : A → V
  /-- What the memory is used for. -/
  cell : A → Cell := fun _ => .free
  /-- The producers. -/
  producer : π → ProducerPc A := fun _ => .idle
  /-- The reader. -/
  reader : ReaderPc A := .idle
  /-- The elements, in the order of their successful exchange. -/
  order : List V := []
  /-- What `try_pop` has returned, in order. -/
  returned : List V := []

/-- The actions. -/
inductive QueueAct (π A V : Type*) where
  /-- A producer makes a new element at a free address and calls `enqueue`. -/
  | call (p : π) (x : A) (v : V)
  /-- The next step of `enqueue`. -/
  | produce (p : π)
  /-- The reader calls `try_pop` or `peek`; not if it would fetch from a queue it has blocked. -/
  | read (op : ReaderOp)
  /-- The next step of the reader; a weak exchange may fail for no reason. -/
  | step (spurious : Bool)
  /-- The reader calls `try_block`. -/
  | block
  /-- The reader calls `try_unblock`. -/
  | unblock
  /-- A popped element is deleted. -/
  | delete (x : A)
  /-- Somebody writes to the `next` field of memory the queue does not use. -/
  | scribble (x : A) (e : Ptr A)

namespace LinkedQueue

variable {π A V : Type*} [DecidableEq π] [DecidableEq A]

/-- A producer moves on. -/
def setProducer (s : LinkedQueue π A V) (p : π) (pc : ProducerPc A) : LinkedQueue π A V :=
  { s with producer := Function.update s.producer p pc }

/-- An address is put to another use. -/
def setCell (s : LinkedQueue π A V) (x : A) (c : Cell) : LinkedQueue π A V :=
  { s with cell := Function.update s.cell x c }

/-- The next step of `enqueue`. -/
def produce (s : LinkedQueue π A V) (p : π) : Option (LinkedQueue π A V) :=
  match s.producer p with
  | .idle => none
  | .load x => some (s.setProducer p (.link x s.stack))
  | .link x e =>
    -- a closed queue: the element is deleted
    if e = .null then
      some { s with producer := Function.update s.producer p .idle,
                    cell := Function.update s.cell x .free }
    else
      some { s with producer := Function.update s.producer p (.exchange x e),
                    next := Function.update s.next x e.link }
  | .exchange x e =>
    if s.stack = e then
      some { s with producer := Function.update s.producer p .idle,
                    cell := Function.update s.cell x .queued,
                    stack := .elem x, order := s.order ++ [s.val x] }
    else some (s.setProducer p (.link x s.stack))

/-- The next step of the reader. -/
def readerStep (s : LinkedQueue π A V) (spurious : Bool) : Option (LinkedQueue π A V) :=
  match s.reader with
  | .idle | .failed _ => none
  | .load op =>
    match s.stack with
    | .null => some { s with reader := .failed .fetchClosed }
    | .blockedDummy => some { s with reader := .failed .fetchBlocked }
    | .emptyDummy => some { s with reader := .idle }
    | e => some { s with reader := .exchange op e }
  | .exchange op e =>
    if s.stack = e ∧ spurious = false then
      match e with
      | .blockedDummy => some { s with stack := .emptyDummy, reader := .failed .fetchBlocked }
      | e => some { s with stack := .emptyDummy, reader := .relink op e }
    else
      -- the loop goes on unless the queue is empty
      match s.stack with
      | .emptyDummy => some { s with reader := .idle }
      | e => some { s with reader := .exchange op e }
  | .relink op e =>
    match e with
    | .null => some { s with reader := .take op }
    | .elem x =>
      some { s with
        next := Function.update s.next x s.head, head := .elem x, reader := .relink op (s.next x) }
    | _ => some { s with reader := .failed .linkDummy }
  | .take op =>
    match op, s.head with
    | .peek, _ => some { s with reader := .idle }
    | .pop, .elem x =>
      some { s with cell := Function.update s.cell x .popped,
                    head := s.next x, reader := .idle, returned := s.returned ++ [s.val x] }
    | .pop, _ => some { s with reader := .failed .headNull }

/-- The step function. -/
def step (s : LinkedQueue π A V) : QueueAct π A V → Option (LinkedQueue π A V)
  | .call p x v =>
    match s.producer p, s.cell x with
    | .idle, .free =>
      some { s with producer := Function.update s.producer p (.load x),
                    cell := Function.update s.cell x .pushing, val := Function.update s.val x v }
    | _, _ => none
  | .produce p => s.produce p
  | .read op =>
    match s.reader with
    | .idle =>
      if s.head = .null then
        if s.stack = .blockedDummy then none else some { s with reader := .load op }
      else some { s with reader := .take op }
    | _ => none
  | .step spurious => s.readerStep spurious
  | .block =>
    match s.reader with
    | .idle => some (if s.stack = .emptyDummy then { s with stack := .blockedDummy } else s)
    | _ => none
  | .unblock =>
    match s.reader with
    | .idle => some (if s.stack = .blockedDummy then { s with stack := .emptyDummy } else s)
    | _ => none
  | .delete x =>
    match s.cell x with
    | .popped => some (s.setCell x .free)
    | _ => none
  | .scribble x e =>
    match s.cell x with
    | .free | .popped => some { s with next := Function.update s.next x e }
    | _ => none

/-- The queue as a system: it begins empty and open, with any contents of the memory. -/
def system (π A V : Type*) [DecidableEq π] [DecidableEq A] :
    System (LinkedQueue π A V) (QueueAct π A V) where
  Init s := s.stack = .emptyDummy ∧ s.head = .null ∧ (∀ x, s.cell x = .free) ∧
    (∀ p, s.producer p = .idle) ∧ s.reader = .idle ∧ s.order = [] ∧ s.returned = []
  step := step

end LinkedQueue

/-- Pointers to elements, linked lists of which end in null; the dummies lead nowhere. -/
def elementLinks (A : Type*) : Links A (Ptr A) where
  node := .elem
  stop := .null
  node_inj _ _ := Ptr.elem.inj
  node_ne_stop := Ptr.elem_ne_null

namespace LinkedQueue

variable {π A V : Type*}

/-- The elements `S` are on the stack, newest first; `L` are still to be put in front of `head_`,
where `H` are. -/
structure Holds (s : LinkedQueue π A V) (S L H : List A) : Prop where
  /-- The queue is not closed. -/
  isOpen : s.stack ≠ .null
  /-- The stack is a chain that ends in null. -/
  stack : Chain (elementLinks A) s.next s.stack.link S
  /-- So is what the reader has fetched and not relinked. -/
  limbo : Chain (elementLinks A) s.next s.reader.limbo L
  /-- So is `head_`. -/
  head : Chain (elementLinks A) s.next s.head H
  /-- No element is twice in the queue. -/
  nodup : (S ++ L ++ H).Nodup
  /-- The queue is what it uses the memory for. -/
  queued : ∀ x, s.cell x = .queued ↔ x ∈ S ++ L ++ H
  /-- A producer owns its element. -/
  pushing : ∀ p x, (s.producer p).object = some x → s.cell x = .pushing
  /-- No two producers own the same. -/
  exclusive : ∀ p q x, (s.producer p).object = some x → (s.producer q).object = some x → p = q
  /-- What a producer expects to find in `stack_` is what it has written to `next`. -/
  linked : ∀ p x e, s.producer p = .exchange x e → s.next x = e.link ∧ e ≠ .null
  /-- No assertion has failed. -/
  sound : ∀ f, s.reader ≠ .failed f
  /-- The reader fetches only when `head_` is null and the queue not blocked. -/
  fetching : ∀ op, s.reader = .load op → s.head = .null ∧ s.stack ≠ .blockedDummy
  /-- And exchanges only a pointer to an element. -/
  exchanging : ∀ op e, s.reader = .exchange op e →
    s.head = .null ∧ s.stack ≠ .blockedDummy ∧ ∃ x, e = .elem x
  /-- It has fetched something. -/
  relinking : ∀ op e, s.reader = .relink op e → e ≠ .null ∨ s.head ≠ .null
  /-- It takes from `head_` only when there is something. -/
  taking : ∀ op, s.reader = .take op → s.head ≠ .null
  /-- The elements returned and those still held are those pushed, in order. -/
  fifo : s.returned ++ (L.reverse ++ H ++ S.reverse).map s.val = s.order

section Frame

variable {s : LinkedQueue π A V} {S L H : List A}

/-- An address that is not used for the queue is not in it. -/
theorem Holds.not_mem (h : s.Holds S L H) {x : A} (hx : s.cell x ≠ .queued) :
    x ∉ S ∧ x ∉ L ∧ x ∉ H := by
  have := (h.queued x).not.mp hx
  simpa [not_or, and_assoc] using this

/-- The object of a producer is not in the queue. -/
theorem Holds.not_queued (h : s.Holds S L H) {p : π} {x : A}
    (hp : (s.producer p).object = some x) : s.cell x ≠ .queued := by
  rw [h.pushing p x hp]
  nofun

/-- Outside the inner loop nothing is in limbo. -/
theorem Holds.limbo_nil (h : s.Holds S L H) (hl : s.reader.limbo = .null) : L = [] := by
  have := h.limbo
  rw [hl] at this
  exact Chain.stop_iff.mp this

/-- Nothing is on a stack that has no element on top. -/
theorem Holds.stack_nil (h : s.Holds S L H) (hl : s.stack.link = .null) : S = [] := by
  have := h.stack
  rw [hl] at this
  exact Chain.stop_iff.mp this

/-- `head_` and what is in limbo lead only to elements. -/
theorem Holds.head_cases (h : s.Holds S L H) : s.head = .null ∨ ∃ x, s.head = .elem x := by
  have := h.head
  cases H with
  | nil => exact .inl (Chain.nil_iff.mp this)
  | cons x H => exact .inr ⟨x, (Chain.cons_iff.mp this).1⟩

theorem Holds.limbo_cases (h : s.Holds S L H) :
    s.reader.limbo = .null ∨ ∃ x, s.reader.limbo = .elem x := by
  have := h.limbo
  cases L with
  | nil => exact .inl (Chain.nil_iff.mp this)
  | cons x L => exact .inr ⟨x, (Chain.cons_iff.mp this).1⟩

/-- A producer that gives up its element. -/
theorem Holds.other [DecidableEq π] (h : s.Holds S L H) {p : π} {x : A} (hp : (s.producer p).object = some x) {q : π}
    {y : A} (hq : (Function.update s.producer p .idle q).object = some y) :
    (s.producer q).object = some y ∧ y ≠ x := by
  by_cases hqp : q = p
  · subst hqp
    rw [Function.update_self] at hq
    cases hq
  · rw [Function.update_of_ne hqp] at hq
    refine ⟨hq, ?_⟩
    rintro rfl
    exact hqp (h.exclusive q p y hq hp)

/-- A producer moves on with its element, or is done with it. -/
theorem Holds.setProducer [DecidableEq π] (h : s.Holds S L H) {p : π} (pc : ProducerPc A)
    (ho : ∀ x, pc.object = some x → (s.producer p).object = some x)
    (hl : ∀ x e, pc = .exchange x e → s.next x = e.link ∧ e ≠ .null) :
    (s.setProducer p pc).Holds S L H := by
  have hobj : ∀ q x, (Function.update s.producer p pc q).object = some x →
      (s.producer q).object = some x := by
    intro q x hq
    by_cases hqp : q = p
    · subst hqp
      rw [Function.update_self] at hq
      exact ho x hq
    · rwa [Function.update_of_ne hqp] at hq
  refine { h with pushing := ?_, exclusive := ?_, linked := ?_ }
  · exact fun q x hq => h.pushing q x (hobj q x hq)
  · exact fun q r x hq hr => h.exclusive q r x (hobj q x hq) (hobj r x hr)
  · intro q x e hq
    by_cases hqp : q = p
    · subst hqp
      exact hl x e (by simpa [LinkedQueue.setProducer] using hq)
    · exact h.linked q x e (by simpa [LinkedQueue.setProducer, hqp] using hq)

/-- An address outside the queue that no producer owns is put to another use outside it. -/
theorem Holds.setCell [DecidableEq A] (h : s.Holds S L H) {x : A} {c : Cell} (hx : s.cell x ≠ .queued)
    (hc : c ≠ .queued) (ho : ∀ p, (s.producer p).object ≠ some x) : (s.setCell x c).Holds S L H := by
  refine { h with queued := ?_, pushing := ?_ }
  · intro y
    by_cases hy : y = x
    · subst hy
      have := (h.queued y).not.mp hx
      simp only [LinkedQueue.setCell, Function.update_self]
      exact iff_of_false hc this
    · simpa [LinkedQueue.setCell, hy] using h.queued y
  · intro p y hp
    have hy : y ≠ x := by
      rintro rfl
      exact ho p hp
    simpa [LinkedQueue.setCell, hy] using h.pushing p y hp

/-- A write to the `next` field of an address outside the queue on which no producer relies. -/
theorem Holds.setNext [DecidableEq A] (h : s.Holds S L H) {x : A} (hx : s.cell x ≠ .queued) (e : Ptr A)
    (hp : ∀ p e', s.producer p ≠ .exchange x e') :
    ({ s with next := Function.update s.next x e } : LinkedQueue π A V).Holds S L H := by
  obtain ⟨hS, hL, hH⟩ := h.not_mem hx
  refine { h with stack := h.stack.update hS e, limbo := h.limbo.update hL e,
                  head := h.head.update hH e, linked := ?_ }
  intro p y e' hq
  have hy : y ≠ x := by
    rintro rfl
    exact hp p e' hq
  simpa [hy] using h.linked p y e' hq

end Frame

/-! ### The producers -/

section Producers

variable [DecidableEq π] [DecidableEq A] {s : LinkedQueue π A V} {S L H : List A}

/-- The list queue that a linked queue stands for. -/
def lists (s : LinkedQueue π A V) (S L H : List A) : Mailbox V where
  stack :=
    match s.stack with
    | .null => .closed
    | .blockedDummy => .blocked
    | _ => .list (S.map s.val)
  head := (L.reverse ++ H).map s.val

/-- A new element at a free address. -/
theorem Holds.call (h : s.Holds S L H) {p : π} {x : A} (v : V) (hx : s.cell x = .free) :
    ({ s with producer := Function.update s.producer p (.load x),
              cell := Function.update s.cell x .pushing,
              val := Function.update s.val x v } : LinkedQueue π A V).Holds S L H := by
  obtain ⟨hS, hL, hH⟩ := h.not_mem (x := x) (by rw [hx]; nofun)
  have hown : ∀ q y, (s.producer q).object = some y → y ≠ x := by
    rintro q y hq rfl
    have := h.pushing q y hq
    rw [hx] at this
    cases this
  have hobj : ∀ q y, (Function.update s.producer p (.load x) q).object = some y →
      q = p ∧ y = x ∨ q ≠ p ∧ (s.producer q).object = some y := by
    intro q y hq
    by_cases hqp : q = p
    · subst hqp
      rw [Function.update_self] at hq
      exact .inl ⟨rfl, (Option.some.inj hq).symm⟩
    · rw [Function.update_of_ne hqp] at hq
      exact .inr ⟨hqp, hq⟩
  refine { h with queued := ?_, pushing := ?_, exclusive := ?_, linked := ?_, fifo := ?_ }
  · intro y
    by_cases hy : y = x
    · subst hy
      simp [hS, hL, hH]
    · simpa [hy] using h.queued y
  · intro q y hq
    rcases hobj q y hq with ⟨-, rfl⟩ | ⟨-, hq'⟩
    · exact Function.update_self ..
    · simpa [hown q y hq'] using h.pushing q y hq'
  · intro q r y hq hr
    rcases hobj q y hq with ⟨rfl, rfl⟩ | ⟨-, hq'⟩ <;> rcases hobj r y hr with ⟨rfl, hy⟩ | ⟨-, hr'⟩
    · rfl
    · exact absurd rfl (hown r y hr')
    · exact absurd hy (hown q y hq')
    · exact h.exclusive q r y hq' hr'
  · intro q y e hq
    have hqp : q ≠ p := by
      rintro rfl
      simp at hq
    exact h.linked q y e (by simpa [hqp] using hq)
  · rw [← h.fifo]
    refine congrArg (s.returned ++ ·) (List.map_congr_left fun y hy => ?_)
    refine Function.update_of_ne ?_ _ _
    rintro rfl
    simp [hS, hL, hH] at hy

theorem lists_call {p : π} {x : A} (v : V) (hS : x ∉ S) (hL : x ∉ L) (hH : x ∉ H) :
    lists ({ s with producer := Function.update s.producer p (.load x),
                    cell := Function.update s.cell x .pushing,
                    val := Function.update s.val x v } : LinkedQueue π A V) S L H = lists s S L H := by
  have hmap : ∀ l : List A, x ∉ l → l.map (Function.update s.val x v) = l.map s.val := by
    intro l hl
    refine List.map_congr_left fun y hy => Function.update_of_ne ?_ _ _
    rintro rfl
    exact hl hy
  simp only [lists, hmap S hS, hmap (L.reverse ++ H) (by simp [hL, hH])]

/-- A closed queue deletes the element. -/
theorem Holds.reject (h : s.Holds S L H) {p : π} {x : A} (hp : (s.producer p).object = some x) :
    ({ s with producer := Function.update s.producer p .idle,
              cell := Function.update s.cell x .free } : LinkedQueue π A V).Holds S L H := by
  have h₁ := h.setProducer (p := p) .idle nofun nofun
  exact h₁.setCell (h.not_queued hp) nofun fun q hq => (h.other hp hq).2 rfl

/-- A producer writes the `next` field of its element. -/
theorem Holds.link (h : s.Holds S L H) {p : π} {x : A} {e : Ptr A} (hp : s.producer p = .link x e)
    (he : e ≠ .null) :
    ({ s with producer := Function.update s.producer p (.exchange x e),
              next := Function.update s.next x e.link } : LinkedQueue π A V).Holds S L H := by
  have hobj : (s.producer p).object = some x := by rw [hp]; rfl
  have h₁ := h.setNext (h.not_queued hobj) e.link fun q e' hq => by
    obtain rfl := h.exclusive q p x (by rw [hq]; rfl) hobj
    rw [hp] at hq
    cases hq
  refine h₁.setProducer (p := p) (.exchange x e) (fun y hy => ?_) (fun y e' hy => ?_)
  · obtain rfl : x = y := Option.some.inj hy
    exact hobj
  · cases hy
    exact ⟨Function.update_self .., he⟩

/-- A successful exchange: the stack is still what the element's `next` says. -/
theorem Holds.push (h : s.Holds S L H) {p : π} {x : A} {e : Ptr A}
    (hp : s.producer p = .exchange x e) (he : s.stack = e) :
    ({ s with producer := Function.update s.producer p .idle,
              cell := Function.update s.cell x .queued,
              stack := .elem x, order := s.order ++ [s.val x] } : LinkedQueue π A V).Holds
      (x :: S) L H := by
  have hobj : (s.producer p).object = some x := by rw [hp]; rfl
  obtain ⟨hS, hL, hH⟩ := h.not_mem (h.not_queued hobj)
  obtain ⟨hnext, -⟩ := h.linked p x e hp
  refine { h with isOpen := nofun, stack := ?_, nodup := ?_, queued := ?_, pushing := ?_,
                  exclusive := ?_, linked := ?_, fetching := ?_, exchanging := ?_, fifo := ?_ }
  · refine .cons (K := elementLinks A) ?_
    have := h.stack
    rwa [he, ← hnext] at this
  · rw [List.cons_append, List.cons_append, List.nodup_cons]
    exact ⟨by simp [hS, hL, hH], h.nodup⟩
  · intro y
    by_cases hy : y = x
    · subst hy
      simp
    · simpa [hy] using h.queued y
  · intro q y hq
    obtain ⟨hq', hy⟩ := h.other hobj hq
    simpa [hy] using h.pushing q y hq'
  · exact fun q r y hq hr => h.exclusive q r y (h.other hobj hq).1 (h.other hobj hr).1
  · intro q y e' hq
    have hqp : q ≠ p := by
      rintro rfl
      simp at hq
    exact h.linked q y e' (by simpa [hqp] using hq)
  · exact fun op hop => ⟨(h.fetching op hop).1, nofun⟩
  · intro op e' hop
    obtain ⟨h₁, -, h₃⟩ := h.exchanging op e' hop
    exact ⟨h₁, nofun, h₃⟩
  · simp [← h.fifo]

theorem lists_push (h : s.Holds S L H) {p : π} {x : A} :
    lists ({ s with producer := Function.update s.producer p .idle,
                    cell := Function.update s.cell x .queued,
                    stack := .elem x, order := s.order ++ [s.val x] } : LinkedQueue π A V) (x :: S) L H =
      ((lists s S L H).enqueue (s.val x)).1 := by
  cases hs : s.stack with
  | null => exact absurd hs h.isOpen
  | emptyDummy => simp [lists, hs, Mailbox.enqueue, Stack.push]
  | elem y => simp [lists, hs, Mailbox.enqueue, Stack.push]
  | blockedDummy =>
    obtain rfl : S = [] := h.stack_nil (by rw [hs]; rfl)
    simp [lists, hs, Mailbox.enqueue, Stack.push]

end Producers

/-! ### The reader -/

section Reader

variable [DecidableEq A] {s : LinkedQueue π A V} {S L H : List A}

omit [DecidableEq A] in
/-- A step of the reader that only moves it, with nothing in limbo before and after. -/
theorem Holds.setReader (h : s.Holds S L H) {pc : ReaderPc A} (hl : pc.limbo = s.reader.limbo)
    (hs : ∀ f, pc ≠ .failed f)
    (hf : ∀ op, pc = .load op → s.head = .null ∧ s.stack ≠ .blockedDummy)
    (he : ∀ op e, pc = .exchange op e → s.head = .null ∧ s.stack ≠ .blockedDummy ∧ ∃ x, e = .elem x)
    (hr : ∀ op e, pc = .relink op e → e ≠ .null ∨ s.head ≠ .null)
    (ht : ∀ op, pc = .take op → s.head ≠ .null) :
    ({ s with reader := pc } : LinkedQueue π A V).Holds S L H :=
  { h with limbo := by
             change Chain (elementLinks A) s.next pc.limbo L
             rw [hl]
             exact h.limbo,
           sound := hs, fetching := hf, exchanging := he, relinking := hr, taking := ht }

omit [DecidableEq A] in
/-- Between its operations the reader puts one dummy in place of the other. -/
theorem Holds.setDummy (h : s.Holds S L H) (hr : s.reader = .idle) (hst : s.stack.link = .null)
    {e : Ptr A} (he : e.link = .null) (hne : e ≠ .null) :
    ({ s with stack := e } : LinkedQueue π A V).Holds [] L H := by
  obtain rfl : S = [] := h.stack_nil hst
  refine { h with isOpen := hne, stack := ?_, fetching := ?_, exchanging := ?_ }
  · change Chain (elementLinks A) s.next e.link []
    rw [he]
    exact .nil
  · rw [hr]
    nofun
  · rw [hr]
    nofun

omit [DecidableEq A] in
/-- The whole stack is taken off. -/
theorem Holds.fetch (h : s.Holds S L H) {op : ReaderOp} {x : A}
    (hr : s.reader = .exchange op (.elem x)) (hs : s.stack = .elem x) :
    L = [] ∧ H = [] ∧
      ({ s with stack := .emptyDummy, reader := .relink op (.elem x) } : LinkedQueue π A V).Holds
        [] S [] := by
  obtain rfl : L = [] := h.limbo_nil (by rw [hr]; rfl)
  obtain rfl : H = [] := by
    have := h.head
    rw [(h.exchanging op _ hr).1] at this
    exact Chain.stop_iff.mp this
  refine ⟨rfl, rfl, { h with isOpen := nofun, stack := .nil, limbo := ?_, nodup := ?_, queued := ?_,
                             sound := nofun, fetching := nofun, exchanging := nofun,
                             relinking := ?_, taking := nofun, fifo := ?_ }⟩
  · have := h.stack
    rw [hs] at this
    exact this
  · simpa using h.nodup
  · simpa using h.queued
  · intro op' e' hop
    cases hop
    exact .inl nofun
  · simpa using h.fifo

/-- One element of those fetched is put in front of `head_`. -/
theorem Holds.relink (h : s.Holds S L H) {op : ReaderOp} {x : A}
    (hr : s.reader = .relink op (.elem x)) :
    ∃ L', L = x :: L' ∧
      ({ s with next := Function.update s.next x s.head, head := .elem x,
                reader := .relink op (s.next x) } : LinkedQueue π A V).Holds S L' (x :: H) := by
  have hlim := h.limbo
  rw [hr] at hlim
  obtain ⟨L', rfl, hL'⟩ := Chain.node_iff (K := elementLinks A).mp hlim
  have hx : x ∉ S ++ (L' ++ H) :=
    (List.nodup_cons.mp (List.nodup_middle.mp (by simpa using h.nodup))).1
  simp only [List.mem_append, not_or] at hx
  obtain ⟨hxS, hxL, hxH⟩ := hx
  obtain ⟨hlimbo, hhead⟩ := Chain.relink (K := elementLinks A) hlim h.head hxL hxH
  refine ⟨L', rfl, { h with stack := h.stack.update hxS _, limbo := hlimbo, head := hhead,
                            nodup := ?_, queued := ?_, linked := ?_, sound := nofun,
                            fetching := nofun, exchanging := nofun, relinking := ?_,
                            taking := nofun, fifo := ?_ }⟩
  · have : (S ++ L' ++ x :: H).Perm (S ++ x :: L' ++ H) := by
      simp only [List.append_assoc]
      exact List.Perm.append_left S List.perm_middle
    exact this.nodup_iff.mpr h.nodup
  · intro y
    rw [h.queued y]
    simp only [List.mem_append, List.mem_cons]
    tauto
  · intro p y e hp
    have hy : y ≠ x := by
      rintro rfl
      exact h.not_queued (x := y) (by rw [hp]; rfl) ((h.queued y).mpr (by simp))
    simpa [hy] using h.linked p y e hp
  · intro op' e' hop
    exact .inr nofun
  · rw [← h.fifo]
    simp

/-- The first element of `head_` is popped. -/
theorem Holds.take (h : s.Holds S L H) {op : ReaderOp} {x : A} (hr : s.reader = .take op)
    (hh : s.head = .elem x) :
    L = [] ∧ ∃ H', H = x :: H' ∧
      ({ s with cell := Function.update s.cell x .popped, head := s.next x, reader := .idle,
                returned := s.returned ++ [s.val x] } : LinkedQueue π A V).Holds S [] H' := by
  obtain rfl : L = [] := h.limbo_nil (by rw [hr]; rfl)
  have hhd := h.head
  rw [hh] at hhd
  obtain ⟨H', rfl, hH'⟩ := Chain.node_iff (K := elementLinks A).mp hhd
  have hx : x ∉ S ++ H' := (List.nodup_cons.mp (List.nodup_middle.mp (by simpa using h.nodup))).1
  simp only [List.mem_append, not_or] at hx
  obtain ⟨hxS, hxH⟩ := hx
  have hxq : s.cell x = .queued := (h.queued x).mpr (by simp)
  refine ⟨rfl, H', rfl, { h with limbo := .nil, head := hH', nodup := ?_, queued := ?_,
                                 pushing := ?_, sound := nofun, fetching := nofun,
                                 exchanging := nofun, relinking := nofun, taking := nofun,
                                 fifo := ?_ }⟩
  · exact h.nodup.sublist (by simp)
  · intro y
    by_cases hy : y = x
    · subst hy
      simp [hxS, hxH]
    · simpa [hy] using h.queued y
  · intro p y hp
    have hy : y ≠ x := by
      rintro rfl
      exact h.not_queued hp hxq
    simpa [hy] using h.pushing p y hp
  · rw [← h.fifo]
    simp

end Reader

/-! ### The lists go through the operations of the list queue -/

/-- What is done to a list queue, in steps no larger than an operation. -/
inductive MailboxAct (V : Type*) where
  /-- `enqueue`. -/
  | enqueue (v : V)
  /-- `fetch_new_data`. -/
  | fetch
  /-- The first element of `head_` is taken off. -/
  | take
  /-- `try_block`. -/
  | block
  /-- `try_unblock`. -/
  | unblock

/-- The list queue as a system. -/
def mailboxSystem (V : Type*) : System (Mailbox V) (MailboxAct V) where
  Init q := q = {}
  step q
    | .enqueue v => some (q.enqueue v).1
    | .fetch => q.fetchNewData.toOption.map Prod.fst
    | .take => q.popHead.toOption.map Prod.fst
    | .block => some q.tryBlock.1
    | .unblock => some q.tryUnblock.1

/-- The linked queue stands for the list queue. -/
def Represents (s : LinkedQueue π A V) (q : Mailbox V) : Prop :=
  ∃ S L H, s.Holds S L H ∧ q = s.lists S L H

/-- A step is answered by an operation on the lists, or leaves them. -/
def Answered (s' : LinkedQueue π A V) (q : Mailbox V) : Prop :=
  Represents s' q ∨ ∃ b q', (mailboxSystem V).step q b = some q' ∧ Represents s' q'

section Step

variable [DecidableEq π] [DecidableEq A] {s s' : LinkedQueue π A V} {S L H : List A}

theorem answered_produce (h : s.Holds S L H) {p : π} (hs : s.produce p = some s') :
    Answered s' (s.lists S L H) := by
  unfold produce at hs
  split at hs
  next => cases hs
  next x hp =>
    cases hs
    have hobj : (s.producer p).object = some x := by rw [hp]; rfl
    refine .inl ⟨S, L, H, h.setProducer _ (fun y hy => ?_) nofun, rfl⟩
    obtain rfl : x = y := Option.some.inj hy
    exact hobj
  next x e hp =>
    split_ifs at hs with he
    · cases hs
      exact .inl ⟨S, L, H, h.reject (by rw [hp]; rfl), rfl⟩
    · cases hs
      exact .inl ⟨S, L, H, h.link hp he, rfl⟩
  next x e hp =>
    split_ifs at hs with he
    · cases hs
      exact .inr ⟨.enqueue (s.val x), _, rfl, x :: S, L, H, h.push hp he, (lists_push h).symm⟩
    · cases hs
      have hobj : (s.producer p).object = some x := by rw [hp]; rfl
      refine .inl ⟨S, L, H, h.setProducer _ (fun y hy => ?_) nofun, rfl⟩
      obtain rfl : x = y := Option.some.inj hy
      exact hobj

omit [DecidableEq π] [DecidableEq A] in
/-- The exchange that takes the stack is `fetch_new_data`. -/
theorem answered_fetch (h : s.Holds S L H) {op : ReaderOp} {x : A}
    (hr : s.reader = .exchange op (.elem x)) (hst : s.stack = .elem x) :
    Answered { s with stack := .emptyDummy, reader := .relink op (.elem x) } (s.lists S L H) := by
  obtain ⟨rfl, rfl, h'⟩ := h.fetch hr hst
  refine .inr ⟨.fetch, _, ?_, [], S, [], h', rfl⟩
  have hS : S ≠ [] := by
    rintro rfl
    have := h.stack
    rw [hst] at this
    exact (elementLinks A).node_ne_stop x (Chain.nil_iff.mp this)
  obtain ⟨y, S', rfl⟩ := List.exists_cons_of_ne_nil hS
  simp [mailboxSystem, lists, hst, Mailbox.fetchNewData, Mailbox.relink_eq, Except.toOption]

omit [DecidableEq π] in
/-- Relinking an element changes none of the lists. -/
theorem answered_relink (h : s.Holds S L H) {op : ReaderOp} {x : A}
    (hr : s.reader = .relink op (.elem x)) :
    Answered { s with next := Function.update s.next x s.head, head := .elem x,
                      reader := .relink op (s.next x) } (s.lists S L H) := by
  obtain ⟨L', rfl, h'⟩ := h.relink hr
  refine .inl ⟨S, L', x :: H, h', ?_⟩
  simp [lists]

omit [DecidableEq π] in
/-- Taking the first element off `head_` is `take_head`. -/
theorem answered_take (h : s.Holds S L H) (hr : s.reader = .take .pop) {x : A}
    (hx : s.head = .elem x) :
    Answered { s with cell := Function.update s.cell x .popped, head := s.next x, reader := .idle,
                      returned := s.returned ++ [s.val x] } (s.lists S L H) := by
  obtain ⟨rfl, H', rfl, h'⟩ := h.take hr hx
  refine .inr ⟨.take, _, ?_, S, [], H', h', rfl⟩
  simp [mailboxSystem, lists, Mailbox.popHead, Except.toOption]

omit [DecidableEq π] in
theorem answered_readerStep (h : s.Holds S L H) {spurious : Bool}
    (hs : s.readerStep spurious = some s') : Answered s' (s.lists S L H) := by
  unfold readerStep at hs
  split at hs
  next => cases hs
  next => cases hs
  next op hr =>
    obtain ⟨hnull, hblock⟩ := h.fetching op hr
    split at hs
    next hst => exact absurd hst h.isOpen
    next hst => exact absurd hst hblock
    next hst =>
      cases hs
      exact .inl ⟨S, L, H, h.setReader (by rw [hr]; rfl) nofun nofun nofun nofun nofun, rfl⟩
    next hn hb he =>
      cases hs
      refine .inl ⟨S, L, H, h.setReader (by rw [hr]; rfl) nofun nofun (fun op' e' hop => ?_) nofun nofun, rfl⟩
      cases hop
      refine ⟨hnull, hblock, ?_⟩
      cases hst : s.stack with
      | null => exact absurd hst hn
      | emptyDummy => exact absurd hst he
      | blockedDummy => exact absurd hst hb
      | elem x => exact ⟨x, rfl⟩
  next op e hr =>
    obtain ⟨hnull, hblock, x, rfl⟩ := h.exchanging op e hr
    split_ifs at hs with hst
    · cases hs
      exact answered_fetch h hr hst.1
    · split at hs
      next hse =>
        cases hs
        exact .inl ⟨S, L, H, h.setReader (by rw [hr]; rfl) nofun nofun nofun nofun nofun, rfl⟩
      next hse =>
        cases hs
        refine .inl ⟨S, L, H, h.setReader (by rw [hr]; rfl) nofun nofun (fun op' e' hop => ?_) nofun nofun, rfl⟩
        cases hop
        refine ⟨hnull, hblock, ?_⟩
        cases hst : s.stack with
        | null => exact absurd hst h.isOpen
        | emptyDummy => exact absurd hst hse
        | blockedDummy => exact absurd hst hblock
        | elem y => exact ⟨y, rfl⟩
  next op e hr =>
    have hlim := h.limbo_cases
    rw [hr] at hlim
    rcases hlim with he | ⟨x, he⟩
    · obtain rfl : e = .null := he
      cases hs
      refine .inl ⟨S, L, H, h.setReader (by rw [hr]; rfl) nofun nofun nofun nofun fun op' hop => ?_, rfl⟩
      exact (h.relinking op .null hr).resolve_left (fun hne => hne rfl)
    · obtain rfl : e = .elem x := he
      cases hs
      exact answered_relink h hr
  next op hr =>
    have hhead := h.taking op hr
    obtain ⟨x, hx⟩ := h.head_cases.resolve_left hhead
    cases op with
    | peek =>
      cases hs
      exact .inl ⟨S, L, H, h.setReader (by rw [hr]; rfl) nofun nofun nofun nofun nofun, rfl⟩
    | pop =>
      rw [hx] at hs
      cases hs
      exact answered_take h hr hx

omit [DecidableEq π] [DecidableEq A] in
/-- The exchange of one dummy for the other is `try_block`. -/
theorem answered_block (h : s.Holds S L H) (hr : s.reader = .idle) (he : s.stack = .emptyDummy) :
    ∃ b q', (mailboxSystem V).step (s.lists S L H) b = some q' ∧
      Represents { s with stack := .blockedDummy } q' := by
  have hl : s.stack.link = .null := by rw [he]; rfl
  obtain rfl : S = [] := h.stack_nil hl
  refine ⟨.block, _, rfl, [], L, H, h.setDummy hr hl rfl nofun, ?_⟩
  simp [lists, he, Mailbox.tryBlock]

omit [DecidableEq π] [DecidableEq A] in
/-- And back it is `try_unblock`. -/
theorem answered_unblock (h : s.Holds S L H) (hr : s.reader = .idle) (he : s.stack = .blockedDummy) :
    ∃ b q', (mailboxSystem V).step (s.lists S L H) b = some q' ∧
      Represents { s with stack := .emptyDummy } q' := by
  have hl : s.stack.link = .null := by rw [he]; rfl
  obtain rfl : S = [] := h.stack_nil hl
  refine ⟨.unblock, _, rfl, [], L, H, h.setDummy hr hl rfl nofun, ?_⟩
  simp [lists, he, Mailbox.tryUnblock]

omit [DecidableEq π] in
/-- Nobody reads the `next` field of an element that is neither queued nor a producer's. -/
theorem answered_scribble (h : s.Holds S L H) {x : A} (hq : s.cell x ≠ .queued)
    (hp : s.cell x ≠ .pushing) (e : Ptr A) :
    Answered { s with next := Function.update s.next x e } (s.lists S L H) := by
  refine .inl ⟨S, L, H, h.setNext hq e fun p e' hpe => ?_, rfl⟩
  exact hp (h.pushing p x (by rw [hpe]; rfl))

/-- Every step of every thread is answered. -/
theorem answered_step (h : s.Holds S L H) {a : QueueAct π A V} (hs : s.step a = some s') :
    Answered s' (s.lists S L H) := by
  cases a with
  | call p x v =>
    simp only [step] at hs
    split at hs
    next hp hx =>
      cases hs
      obtain ⟨hS, hL, hH⟩ := h.not_mem (x := x) (by rw [hx]; nofun)
      exact .inl ⟨S, L, H, h.call v hx, (lists_call v hS hL hH).symm⟩
    next => cases hs
  | produce p => exact answered_produce h hs
  | read op =>
    simp only [step] at hs
    split at hs
    next hr =>
      split_ifs at hs with hn hb
      · cases hs
        refine .inl ⟨S, L, H, h.setReader (by rw [hr]; rfl) nofun (fun _ _ => ⟨hn, hb⟩) nofun nofun
          nofun, rfl⟩
      · cases hs
        exact .inl ⟨S, L, H, h.setReader (by rw [hr]; rfl) nofun nofun nofun nofun fun _ _ => hn, rfl⟩
    next => cases hs
  | step spurious => exact answered_readerStep h hs
  | block =>
    simp only [step] at hs
    split at hs
    next hr =>
      cases hs
      split_ifs with he
      · exact .inr (answered_block h hr he)
      · exact .inl ⟨S, L, H, h, rfl⟩
    next => cases hs
  | unblock =>
    simp only [step] at hs
    split at hs
    next hr =>
      cases hs
      split_ifs with he
      · exact .inr (answered_unblock h hr he)
      · exact .inl ⟨S, L, H, h, rfl⟩
    next => cases hs
  | delete x =>
    simp only [step] at hs
    split at hs
    next hx =>
      cases hs
      refine .inl ⟨S, L, H, h.setCell (by rw [hx]; nofun) nofun fun p hp => ?_, rfl⟩
      have := h.pushing p x hp
      rw [hx] at this
      cases this
    next => cases hs
  | scribble x e =>
    simp only [step] at hs
    split at hs
    next hx =>
      cases hs
      exact answered_scribble h (by rw [hx]; nofun) (by rw [hx]; nofun) e
    next hx =>
      cases hs
      exact answered_scribble h (by rw [hx]; nofun) (by rw [hx]; nofun) e
    next => cases hs

end Step

section System

variable [DecidableEq π] [DecidableEq A] {s : LinkedQueue π A V}

omit [DecidableEq π] in
/-- `fetch_new_data` returns false only where everything pushed has been returned. -/
theorem Holds.empty {S L H : List A} (h : s.Holds S L H) {spurious : Bool} {s' : LinkedQueue π A V}
    (hs : s.readerStep spurious = some s') (hidle : s'.reader = .idle)
    (ht : ∀ op, s.reader ≠ .take op) : s.returned = s.order := by
  have key : s.head = .null → s.stack = .emptyDummy → s.reader.limbo = .null →
      s.returned = s.order := by
    intro hh hst hl
    obtain rfl : S = [] := h.stack_nil (by rw [hst]; rfl)
    obtain rfl : L = [] := h.limbo_nil hl
    obtain rfl : H = [] := by
      have := h.head
      rw [hh] at this
      exact Chain.stop_iff.mp this
    simpa using h.fifo
  unfold readerStep at hs
  split at hs
  next => cases hs
  next => cases hs
  next op hr =>
    refine key (h.fetching op hr).1 ?_ (by rw [hr]; rfl)
    cases hst : s.stack with
    | emptyDummy => rfl
    | _ => rw [hst] at hs; cases hs; cases hidle
  next op e hr =>
    refine key (h.exchanging op e hr).1 ?_ (by rw [hr]; rfl)
    split_ifs at hs with hc
    · obtain ⟨-, -, x, rfl⟩ := h.exchanging op e hr
      cases hs
      cases hidle
    · cases hst : s.stack with
      | emptyDummy => rfl
      | _ => rw [hst] at hs; cases hs; cases hidle
  next op e hr =>
    cases e <;> cases hs <;> cases hidle
  next op hr => exact absurd hr (ht op)

theorem holds_init (h : (system π A V).Init s) : s.Holds [] [] [] := by
  obtain ⟨hst, hh, hc, hp, hr, ho, hre⟩ := h
  refine ⟨by rw [hst]; nofun, by rw [hst]; exact .nil, by rw [hr]; exact .nil, by rw [hh]; exact .nil,
    List.nodup_nil, fun x => by simp [hc], fun p x hx => ?_, fun p q x hx => ?_, fun p x e hx => ?_,
    by rw [hr]; nofun, by rw [hr]; nofun, by rw [hr]; nofun, by rw [hr]; nofun, by rw [hr]; nofun,
    by simp [ho, hre]⟩
  · rw [hp] at hx; cases hx
  · rw [hp] at hx; cases hx
  · rw [hp] at hx; cases hx

/-- **Refinement**: the linked queue, all threads interleaved, goes through the operations of
the list queue. -/
theorem refines : Simulation (system π A V) (mailboxSystem V) Represents where
  init h := ⟨{}, rfl, [], [], [], holds_init h, by simp [lists, h.1]⟩
  step := by
    rintro s s' a q ⟨S, L, H, h, rfl⟩ hs
    exact answered_step h hs

/-- **The queue is a linearizable FIFO**: whatever producers and the reader do, and whatever
addresses are reused, no assertion fails; the chains from `stack_`, from the elements the
reader is relinking and from `head_` end in null and visit no dummy and no element twice;
what `try_pop` has returned, followed by what is held, is what was pushed, in the order of
the successful exchanges; and `try_pop` finds nothing only when nothing is held. -/
theorem linearizable (h : (system π A V).Reachable s) :
    (∀ f, s.reader ≠ .failed f) ∧ s.stack ≠ .null ∧
    (∃ S L H, Chain (elementLinks A) s.next s.stack.link S ∧
      Chain (elementLinks A) s.next s.reader.limbo L ∧ Chain (elementLinks A) s.next s.head H ∧
      (S ++ L ++ H).Nodup ∧
      s.returned ++ (L.reverse ++ H ++ S.reverse).map s.val = s.order) ∧
    ∀ spurious s', s.readerStep spurious = some s' → s'.reader = .idle →
      (∀ op, s.reader ≠ .take op) → s.returned = s.order := by
  obtain ⟨q, -, S, L, H, h', -⟩ := refines.reachable h
  exact ⟨h'.sound, h'.isOpen, ⟨S, L, H, h'.stack, h'.limbo, h'.head, h'.nodup, h'.fifo⟩,
    fun _ _ => h'.empty⟩

/-- The element `10` at address `0` is popped and deleted, and `12` pushed at the same address,
between the read and the exchange of the producer that pushes `11`. -/
theorem linearizable_reused : ∃ s : LinkedQueue Bool (Fin 2) ℕ, s.order = [10, 12, 11] ∧
    s.returned = [10] ∧ ∃ S L H : List (Fin 2), s.stack.link = .elem 1 ∧
      Chain (elementLinks (Fin 2)) s.next s.stack.link S ∧
      s.returned ++ (L.reverse ++ H ++ S.reverse).map s.val = s.order := by
  obtain ⟨s, hs, ho, hr, hst⟩ : ∃ s, (system Bool (Fin 2) ℕ).replay (fun _ _ => true)
      { next := fun _ => .null, val := fun _ => 0 }
      [.call false 0 10, .produce false, .produce false, .produce false,
        .call true 1 11, .produce true, .produce true,
        .read .pop, .step false, .step false, .step false, .step false, .step false, .delete 0,
        .call false 0 12, .produce false, .produce false, .produce false, .produce true] = some s ∧
      s.order = [10, 12, 11] ∧ s.returned = [10] ∧ s.stack.link = .elem 1 :=
    ⟨_, rfl, rfl, rfl, rfl⟩
  obtain ⟨-, -, ⟨S, L, H, hS, -, -, -, hf⟩, -⟩ := linearizable (System.Reachable.of_replay
    ⟨rfl, rfl, fun _ => rfl, fun _ => rfl, rfl, rfl, rfl⟩ hs)
  exact ⟨s, ho, hr, S, L, H, hst, hS, hf⟩

end System

end LinkedQueue

end ActorsFramework.Detail
