import ActorsFramework.Lib.Chain
import ActorsFramework.Detail.PartitionedList

/-!
# The queue and its cache in one memory

`detail::single_reader_queue` with all its elements in one memory: `stack_` and
`head_` are chains through the `next` fields, the cache is a row through the
`next` and `prev` fields of the same elements. Each member function is taken as
a whole; `ActorsFramework.Detail.LinkedQueue` interleaves their steps. A function
stops where an assertion fails, where a null pointer is followed, and where a loop
is given up after `n` tests.

The functions of `ActorsFramework.Detail.Mailbox` say what becomes of the lists;
`Holds.call` says that the links hold these lists, whatever is called. An element
may go from the stack to `head_`, be popped, go into the cache and out again, and
be enqueued once more: what a field held for one list is overwritten for another.

`observers_agree`: on an open queue that is not blocked, `peek`, `can_fetch_more`
and `peek_all` tell what repeated `try_pop` would return, and change neither that
nor the cache.
-/

namespace ActorsFramework.Detail

open Lib

variable {A : Type*}

/-- The queue, and the fields of the cache's sentinels and of all elements there are. -/
structure QueueMemory (A : Type*) where
  /-- `stack_`. -/
  stack : Ptr A := .emptyDummy
  /-- `head_`. -/
  head : Option (Node A) := none
  /-- The `next` and `prev` fields, those in `cache_` among them. -/
  fields : PartitionedList A

/-- What stops a member function. -/
inductive Stop where
  /-- An assertion fails. -/
  | assertion (e : Fault)
  /-- A null pointer is followed, or what was not allocated is deleted. -/
  | pointer
  /-- A loop is given up. -/
  | bound
  /-- One of the last two, in the iterators or the functions of the cache. -/
  | cache
  deriving DecidableEq

/-- What `enqueue` writes to `new_element->next`: null in place of a dummy, so that no field
ever holds a dummy. -/
def Ptr.field : Ptr A → Option (Node A)
  | .elem x => some (.elem x)
  | _ => none

namespace PartitionedList

variable [DecidableEq A]

/-- The loop of `count` over one range: the result so far, and whether the function has
returned. -/
def countRange (f : PartitionedList A) (maxCount : ℕ) (e : Node A) :
    ℕ → Option (Node A) → ℕ → Except Stop (ℕ × Bool)
  | 0, _, _ => .error .bound
  | _ + 1, none, _ => .error .pointer
  | n + 1, some i, result =>
    if i = e then .ok (result, false)
    else if result + 1 = maxCount then .ok (maxCount, true)
    else f.countRange maxCount e n (f.next i) (result + 1)

/-- `count`. -/
def count (n : ℕ) (f : PartitionedList A) (maxCount : ℕ) : Except Stop ℕ :=
  match f.countRange maxCount .separator n f.begin 0 with
  | .error e => .error e
  | .ok (result, true) => .ok result
  | .ok (result, false) => (f.countRange maxCount .tail n f.continuation result).map Prod.fst

end PartitionedList

namespace QueueMemory

variable [DecidableEq A]

/-- The constructor, with any contents of the memory. -/
def construct (f : PartitionedList A) : QueueMemory A := { fields := f.construct }

/-- `closed`. -/
def closed (m : QueueMemory A) : Bool := m.stack.isNull

/-- `blocked`. -/
def blocked (m : QueueMemory A) : Bool := m.stack = .blockedDummy

/-- `enqueue`. On a closed queue the new element is deleted. -/
def enqueue (m : QueueMemory A) (x : A) : QueueMemory A × EnqueueResult :=
  match m.stack with
  | .null => ({ m with fields := m.fields.free x }, .queueClosed)
  | e =>
    ({ m with stack := .elem x, fields := m.fields.setNext (.elem x) e.field },
      if e = .blockedDummy then .unblockedReader else .success)

/-- `try_block`. -/
def tryBlock (m : QueueMemory A) : QueueMemory A × Bool :=
  if m.stack = .emptyDummy then ({ m with stack := .blockedDummy }, true) else (m, false)

/-- `try_unblock`. -/
def tryUnblock (m : QueueMemory A) : QueueMemory A × Bool :=
  if m.stack = .blockedDummy then ({ m with stack := .emptyDummy }, true) else (m, false)

/-- `can_fetch_more`. -/
def canFetchMore (m : QueueMemory A) : Except Stop Bool :=
  if m.head.isSome then .ok true
  else if m.stack.isNull then .error (.assertion .fetchClosed)
  else .ok !m.stack.isDummy

/-- `empty`. -/
def empty (m : QueueMemory A) : Except Stop Bool :=
  if m.closed then .error (.assertion .fetchClosed)
  else .ok (m.fields.empty && m.head.isNone && m.stack.isDummy)

/-- The inner loop of `fetch_new_data`: each element in turn is put in front of `head_`. -/
def relink : ℕ → Option (Node A) → QueueMemory A → Except Stop (QueueMemory A)
  | 0, _, _ => .error .bound
  | _ + 1, none, m => .ok m
  | n + 1, some e, m =>
    relink n (m.fields.next e) { m with fields := m.fields.setNext e m.head, head := some e }

/-- `fetch_new_data(end_ptr)`. -/
def fetchNewData (n : ℕ) (endPtr : Ptr A) (m : QueueMemory A) : Except Stop (QueueMemory A × Bool) :=
  match m.stack with
  | .null => .error (.assertion .fetchClosed)
  | .blockedDummy => .error (.assertion .fetchBlocked)
  | e =>
    if e = endPtr then .ok (m, false)
    else if e.isDummy then .ok ({ m with stack := endPtr }, false)
    else (relink n e.field { m with stack := endPtr }).map (·, true)

/-- The first element of `head_`, taken off it. -/
def popHead (m : QueueMemory A) : Except Stop (QueueMemory A × Option (Node A)) :=
  match m.head with
  | none => .error .pointer
  | some result => .ok ({ m with head := m.fields.next result }, some result)

/-- `try_pop`, which is `take_head`. -/
def tryPop (n : ℕ) (m : QueueMemory A) : Except Stop (QueueMemory A × Option (Node A)) :=
  if m.head.isSome then m.popHead
  else
    match m.fetchNewData n .emptyDummy with
    | .error e => .error e
    | .ok (m, false) => .ok (m, none)
    | .ok (m, true) => m.popHead

/-- `peek`. -/
def peek (n : ℕ) (m : QueueMemory A) : Except Stop (QueueMemory A × Option (Node A)) :=
  if m.head.isSome then .ok (m, m.head)
  else
    match m.fetchNewData n .emptyDummy with
    | .error e => .error e
    | .ok (m, false) => .ok (m, none)
    | .ok (m, true) => .ok (m, m.head)

/-- The loop of `peek_all` to the last element of `head_`. -/
def findTail (m : QueueMemory A) : ℕ → Node A → Except Stop (Node A)
  | 0, _ => .error .bound
  | n + 1, tailPtr =>
    match m.fields.next tailPtr with
    | none => .ok tailPtr
    | some next => m.findTail n next

/-- The last loop of `peek_all`: the elements `fun` is called on. -/
def visit (m : QueueMemory A) : ℕ → Option (Node A) → Except Stop (List (Node A))
  | 0, _ => .error .bound
  | _ + 1, none => .ok []
  | n + 1, some ptr => (m.visit n (m.fields.next ptr)).map (ptr :: ·)

/-- What `peek_all` does between its loops: new data go behind what `head_` holds. -/
def fetchBehind (n : ℕ) (m : QueueMemory A) : Except Stop (QueueMemory A) :=
  match m.head with
  | none => (m.fetchNewData n .emptyDummy).map Prod.fst
  | some oldHead =>
    if m.stack.isDummy then .ok m
    else
      match findTail { m with head := none } n oldHead with
      | .error e => .error e
      | .ok tailPtr =>
        (fetchNewData n .emptyDummy { m with head := none }).map fun r =>
          { r.1 with fields := r.1.fields.setNext tailPtr r.1.head, head := some oldHead }

/-- `peek_all`, with the elements that `fun` is called on, in order. -/
def peekAll (n : ℕ) (m : QueueMemory A) : Except Stop (QueueMemory A × List (Node A)) :=
  match walk m.fields.next .separator n m.fields.begin, walk m.fields.next .tail n m.fields.continuation with
  | some first, some second =>
    match m.fetchBehind n with
    | .error e => .error e
    | .ok m => (m.visit n m.head).map fun l => (m, first ++ second ++ l)
  | _, _ => .error .cache

/-- The loop of `count` over `head_`. -/
def countHead (m : QueueMemory A) (maxCount : ℕ) : ℕ → Option (Node A) → ℕ → Except Stop ℕ
  | 0, _, _ => .error .bound
  | _ + 1, none, res => .ok res
  | n + 1, some ptr, res =>
    if res < maxCount then m.countHead maxCount n (m.fields.next ptr) (res + 1) else .ok res

/-- `count`. -/
def count (n : ℕ) (m : QueueMemory A) (maxCount : ℕ) : Except Stop (QueueMemory A × ℕ) :=
  match m.fields.count n maxCount with
  | .error e => .error e
  | .ok res =>
    if maxCount ≤ res then .ok (m, res)
    else
      match m.fetchNewData n .emptyDummy with
      | .error e => .error e
      | .ok (m, _) => (m.countHead maxCount n m.head res).map (m, ·)

/-- `clear_cached_elements`: `head_` moves on when its element has been visited and deleted. -/
def clearCachedElements : ℕ → QueueMemory A → Except Stop (QueueMemory A × List (Event A))
  | 0, _ => .error .bound
  | n + 1, m =>
    match m.head with
    | none => .ok (m, [])
    | some (.elem a) =>
      (clearCachedElements n { m with fields := m.fields.free a, head := m.fields.next (.elem a) }).map
        fun r => (r.1, .visit a :: .delete a :: r.2)
    | some _ => .error .pointer

/-- What is done through `cache()`, with its answer. -/
def cacheCall (n : ℕ) (m : QueueMemory A) (op : PartitionedList.Op A) :
    Except Stop (QueueMemory A × PartitionedList.Answer A) :=
  match m.fields.call n op with
  | none => .error .cache
  | some (f, r) => .ok ({ m with fields := f }, r)

/-- `close(f)`: what it does to the elements is recorded. -/
def close (n : ℕ) (m : QueueMemory A) : Except Stop (QueueMemory A × List (Event A)) :=
  match m.clearCachedElements n with
  | .error e => .error e
  | .ok (m, log) =>
    match if m.blocked then .ok (m, false) else m.fetchNewData n .null with
    | .error e => .error e
    | .ok (m, more) =>
      match if more then m.clearCachedElements n else .ok (m, []) with
      | .error e => .error e
      | .ok (m, log') =>
        match m.fields.clear n with
        | none => .error .cache
        | some (f, log'') => .ok ({ m with fields := f }, log ++ log' ++ log'')

/-- Repeated `try_pop`, until it returns null: the elements. -/
def drain (n : ℕ) : ℕ → QueueMemory A → Option (List (Node A))
  | 0, _ => none
  | k + 1, m =>
    match m.tryPop n with
    | .error _ => none
    | .ok (_, none) => some []
    | .ok (m, some x) => (drain n k m).map (x :: ·)

/-! ### Any sequence of calls -/

/-- A call of one of the queue's member functions, or an operation on its cache; other code
may write to the fields of elements outside the queue. -/
inductive Op (A : Type*) where
  /-- `enqueue`. -/
  | enqueue (x : A)
  /-- `try_pop`. -/
  | tryPop
  /-- `try_block`. -/
  | tryBlock
  /-- `try_unblock`. -/
  | tryUnblock
  /-- `count`. -/
  | count (maxCount : ℕ)
  /-- `peek`. -/
  | peek
  /-- `peek_all`. -/
  | peekAll
  /-- `can_fetch_more`. -/
  | canFetchMore
  /-- `empty`. -/
  | empty
  /-- `closed`. -/
  | closed
  /-- `blocked`. -/
  | blocked
  /-- What is done through `cache()`. -/
  | cache (op : PartitionedList.Op A)
  /-- `begin` of the cache. -/
  | cacheBegin
  /-- `continuation` of the cache. -/
  | cacheContinuation
  /-- `empty` of the cache. -/
  | cacheEmpty
  /-- `count` of the cache. -/
  | cacheCount (maxCount : ℕ)
  /-- `close`. -/
  | close
  deriving DecidableEq

/-- The queue after a call that returns; the loops make at most `n` tests. -/
def call (n : ℕ) (m : QueueMemory A) : Op A → Option (QueueMemory A)
  | .enqueue x => some (m.enqueue x).1
  | .tryPop => (m.tryPop n).toOption.map Prod.fst
  | .tryBlock => some m.tryBlock.1
  | .tryUnblock => some m.tryUnblock.1
  | .count maxCount => (m.count n maxCount).toOption.map Prod.fst
  | .peek => (m.peek n).toOption.map Prod.fst
  | .peekAll => (m.peekAll n).toOption.map Prod.fst
  | .canFetchMore => m.canFetchMore.toOption.map fun _ => m
  | .empty => m.empty.toOption.map fun _ => m
  | .closed | .blocked | .cacheBegin | .cacheContinuation | .cacheEmpty => some m
  | .cache op => (m.cacheCall n op).toOption.map Prod.fst
  | .cacheCount maxCount => (m.fields.count n maxCount).toOption.map fun _ => m
  | .close => (m.close n).toOption.map Prod.fst

end QueueMemory

/-- `begin`. -/
def Cache.begin (c : Cache A) : Node A := (c.first.head?.map .elem).getD .separator

/-- `continuation`. -/
def Cache.continuation (c : Cache A) : Node A := (c.second.head?.map .elem).getD .tail

namespace Mailbox

/-- `empty`. -/
def empty (q : Mailbox A) : Except Fault Bool :=
  if q.stack.top.isNull then .error .fetchClosed
  else .ok (q.cache.empty && q.head.isEmpty && q.stack.top.isDummy)

variable [DecidableEq A]

/-- The same call on the lists. -/
def callLists (q : Mailbox A) : QueueMemory.Op A → Except Fault (Mailbox A)
  | .enqueue x => .ok (q.enqueue x).1
  | .tryPop => q.tryPop.map Prod.fst
  | .tryBlock => .ok q.tryBlock.1
  | .tryUnblock => .ok q.tryUnblock.1
  | .count maxCount => (q.count maxCount).map Prod.fst
  | .peek => q.peek.map Prod.fst
  | .peekAll => q.peekAll.map Prod.fst
  | .canFetchMore => q.canFetchMore.map fun _ => q
  | .empty => q.empty.map fun _ => q
  | .closed | .blocked | .cacheBegin | .cacheContinuation | .cacheEmpty | .cacheCount _ => .ok q
  | .cache op => .ok { q with cache := (q.cache.apply op).1 }
  | .close => q.close.map Prod.fst

/-- An element that is enqueued, inserted into the cache or written to by other code is not
in the queue. -/
def Accepts (q : Mailbox A) : QueueMemory.Op A → Prop
  | .enqueue x => x ∉ q.stored
  | .cache op => q.cache.Accepts op ∧ ∀ x ∈ op.subject, x ∉ q.waiting
  | _ => True

instance (q : Mailbox A) (op : QueueMemory.Op A) : Decidable (q.Accepts op) :=
  match op with
  | .enqueue x => inferInstanceAs (Decidable (x ∉ q.stored))
  | .cache op => inferInstanceAs (Decidable (q.cache.Accepts op ∧ ∀ x ∈ op.subject, x ∉ q.waiting))
  | .tryPop | .tryBlock | .tryUnblock | .count _ | .peek | .peekAll | .canFetchMore | .empty | .closed
  | .blocked | .cacheBegin | .cacheContinuation | .cacheEmpty | .cacheCount _ | .close => isTrue trivial

end Mailbox

namespace QueueMemory

variable [DecidableEq A]

/-- The queue and the lists it should hold, after any calls that return; it is constructed in
memory with any contents. -/
def system (A : Type*) [DecidableEq A] : System (QueueMemory A × Mailbox A) (Op A) where
  Init s := ∃ f, s = (construct f, {})
  step s op :=
    if s.2.Accepts op then
      (s.1.call (s.2.stored.length + 1) op).map fun m => (m, (s.2.callLists op).toOption.getD s.2)
    else none

/-- Pointers to elements, lists of which end in null. -/
def nodeLinks (A : Type*) : Links A (Option (Node A)) where
  node a := some (.elem a)
  stop := none
  node_inj _ _ h := Node.elem.inj (Option.some.inj h)
  node_ne_stop _ := nofun

/-- The `next` fields of the elements. -/
def links (f : PartitionedList A) (a : A) : Option (Node A) := f.next (.elem a)

/-- The invariant: `stack_` and `head_` are chains, the cache is a row, and no element is at
two places. -/
structure Holds (m : QueueMemory A) (q : Mailbox A) : Prop where
  top : m.stack = q.stack.top
  stack : Chain (nodeLinks A) (links m.fields) m.stack.field q.stack.elems
  head : Chain (nodeLinks A) (links m.fields) m.head q.head
  cache : m.fields.Holds q.cache
  nodup : q.stored.Nodup

/-- A call on the links stops where it fails on the lists, at the same assertion; else it has the
same outcome, up to `g`, and leaves the links of the new lists behind. -/
def Agree {β γ : Type*} (g : β → γ) (r : Except Stop (QueueMemory A × γ))
    (r' : Except Fault (Mailbox A × β)) : Prop :=
  (∃ e, r = .error (.assertion e) ∧ r' = .error e) ∨ ∃ m q b, r = .ok (m, g b) ∧ r' = .ok (q, b) ∧ Holds m q

/-! ### What a write leaves alone -/

section Frame

variable {m : QueueMemory A} {q : Mailbox A} {f f' : PartitionedList A} {c : Cache A} {a : A}

theorem links_setNext (f : PartitionedList A) (a : A) (p : Option (Node A)) :
    links (f.setNext (.elem a) p) = Function.update (links f) a p :=
  Function.update_comp_eq_of_injective f.next (fun _ _ h => Node.elem.inj h) a p

theorem cache_setNext (h : f.Holds c) (ha : a ∉ c.elems) (p : Option (Node A)) :
    PartitionedList.Holds (f.setNext (.elem a) p) c := by
  have hw := h.write ha p (f.prev (.elem a))
  rwa [DoubleLinks.setPrev, DoubleLinks.prev_setNext, Function.update_eq_self] at hw

omit [DecidableEq A] in
theorem chain_frame {p : Option (Node A)} {l w : List A} (h : Chain (nodeLinks A) (links f) p l)
    (hf : PartitionedList.Frame f f' w) (hl : ∀ x ∈ l, x ∉ w) : Chain (nodeLinks A) (links f') p l :=
  h.congr fun x hx => hf x (hl x hx)

omit [DecidableEq A] in
/-- The elements of the queue are at one place each. -/
theorem Holds.disjoint (h : Holds m q) : q.waiting.Nodup ∧ ∀ x ∈ q.waiting, x ∉ q.cache.elems := by
  obtain ⟨hw, -, hd⟩ := List.nodup_append.mp h.nodup
  exact ⟨hw, fun x hx hc => hd x hx x hc rfl⟩

omit [DecidableEq A] in
/-- The fields are written, but not the `next` fields of the waiting elements. -/
theorem Holds.write (h : Holds m q) {w : List A} (hf : PartitionedList.Frame m.fields f' w)
    (hw : ∀ x ∈ q.waiting, x ∉ w) (hc : f'.Holds c) (hn : (q.waiting ++ c.elems).Nodup) :
    Holds { m with fields := f' } { q with cache := c } where
  top := h.top
  stack := chain_frame h.stack hf fun x hx =>
    hw x (List.mem_append_right _ (List.mem_reverse.mpr hx))
  head := chain_frame h.head hf fun x hx => hw x (List.mem_append_left _ hx)
  cache := hc
  nodup := hn

omit [DecidableEq A] in
/-- `head_` is null where no element is left on it, and else leads to the first. -/
theorem Holds.head_cases (h : Holds m q) :
    q.head = [] ∧ m.head = none ∨ ∃ x l, q.head = x :: l ∧ m.head = some (.elem x) ∧
      Chain (nodeLinks A) (links m.fields) (m.fields.next (.elem x)) l := by
  have hh := h.head
  cases hq : q.head with
  | nil =>
    rw [hq] at hh
    exact .inl ⟨rfl, Chain.nil_iff.mp hh⟩
  | cons x l =>
    rw [hq] at hh
    obtain ⟨hx, hl⟩ := Chain.cons_iff.mp hh
    exact .inr ⟨x, l, rfl, hx, hl⟩

end Frame

/-! ### Fetching -/

section Fetch

variable {m : QueueMemory A} {q : Mailbox A}

/-- The inner loop of `fetch_new_data` reverses one chain in front of another, and writes only
to its elements. -/
theorem relink_eq {c : Cache A} {es hd : List A} {p : Option (Node A)}
    (hp : Chain (nodeLinks A) (links m.fields) p es) (hh : Chain (nodeLinks A) (links m.fields) m.head hd)
    (hc : m.fields.Holds c) (hn : (es ++ hd).Nodup) (he : ∀ x ∈ es, x ∉ c.elems) {n : ℕ}
    (hlen : es.length < n) :
    ∃ f' h', relink n p m = .ok { m with fields := f', head := h' } ∧
      Chain (nodeLinks A) (links f') h' (Mailbox.relink es hd) ∧ f'.Holds c ∧
      PartitionedList.Frame m.fields f' es := by
  induction es generalizing m p hd n with
  | nil =>
    cases n with
    | zero => cases hlen
    | succ n =>
      obtain rfl := Chain.nil_iff.mp hp
      exact ⟨m.fields, m.head, rfl, hh, hc, fun _ _ => rfl⟩
  | cons e es ih =>
    cases n with
    | zero => cases hlen
    | succ n =>
      obtain ⟨rfl, -⟩ := Chain.cons_iff.mp hp
      have hn' : (es ++ e :: hd).Nodup := List.nodup_middle.mpr hn
      have hmem := (List.nodup_cons.mp hn).1
      -- the element goes from the front of one chain to the front of the other
      obtain ⟨hrest, hfront⟩ := hp.relink hh (fun hm => hmem (List.mem_append_left _ hm))
        fun hm => hmem (List.mem_append_right _ hm)
      rw [← links_setNext] at hrest hfront
      have hc' := cache_setNext hc (he e List.mem_cons_self) m.head
      obtain ⟨f', h', hr, hch, hcache, hfr⟩ :=
        ih (m := { m with fields := m.fields.setNext (.elem e) m.head, head := some (.elem e) })
          hrest hfront hc' hn' (fun x hx => he x (List.mem_cons_of_mem e hx)) (Nat.lt_of_succ_lt_succ hlen)
      refine ⟨f', h', hr, hch, hcache, fun a ha => ?_⟩
      obtain ⟨hae, haes⟩ := List.ne_and_not_mem_of_not_mem_cons ha
      rw [hfr a haes]
      exact DoubleLinks.next_setNext_of_ne (fun heq => hae (Node.elem.inj heq)) _

omit [DecidableEq A] in
theorem field_top {s : Stack A} (hs : s.elems = []) : s.top.field = none := by
  cases s with
  | list l =>
    cases l with
    | nil => rfl
    | cons x l => cases hs
  | _ => rfl

/-- `fetch_new_data` of elements: the chain of `stack_` is put in front of `head_`. -/
theorem Holds.fetch_cons (h : Holds m q) {e : A} {es : List A} (hs : q.stack = .list (e :: es))
    {s : Stack A} (hse : s.elems = []) {n : ℕ} (hn : q.stored.length < n) :
    ∃ m', m.fetchNewData n s.top = .ok (m', true) ∧
      Holds m' ⟨s, Mailbox.relink (e :: es) q.head, q.cache⟩ ∧
      PartitionedList.Frame m.fields m'.fields (e :: es) := by
  obtain ⟨hw, hcache⟩ := h.disjoint
  have htop : m.stack = .elem e := by rw [h.top, hs]; rfl
  have hstack := h.stack
  rw [hs, htop] at hstack
  have hwaiting : q.waiting = q.head ++ (e :: es).reverse := by rw [Mailbox.waiting, hs]; rfl
  have hperm : (e :: es ++ q.head).Perm q.waiting := by
    rw [hwaiting]
    exact List.perm_append_comm.trans ((List.reverse_perm (e :: es)).symm.append_left q.head)
  have hmem : ∀ x ∈ e :: es, x ∉ q.cache.elems := fun x hx =>
    hcache x (hperm.subset (List.mem_append_left _ hx))
  have hlen : (e :: es).length < n := by
    have hlen := hperm.length_eq
    have hstored := q.length_stored
    rw [List.length_append] at hlen
    omega
  have hne : Ptr.elem e ≠ s.top := by
    intro heq
    obtain ⟨l, rfl⟩ := Stack.top_eq_elem.mp heq.symm
    cases hse
  obtain ⟨f', h', hr, hch, hc, hfr⟩ := relink_eq (m := { m with stack := s.top }) hstack h.head h.cache
    (hperm.nodup_iff.mpr hw) hmem hlen
  refine ⟨{ m with stack := s.top, fields := f', head := h' }, ?_, ⟨rfl, ?_, hch, hc, ?_⟩, hfr⟩
  · rw [fetchNewData, htop]
    dsimp only
    rw [if_neg hne, if_neg (by simp [Ptr.isDummy]), hr]
    rfl
  · rw [hse, field_top hse]
    exact .nil
  · have hnd := h.nodup
    rw [Mailbox.stored, hwaiting] at hnd
    rw [Mailbox.stored, Mailbox.waiting, Mailbox.relink_eq, hse, List.reverse_nil, List.append_nil]
    exact (List.perm_append_comm.append_right _).nodup_iff.mp hnd

omit [DecidableEq A] in
/-- The value of `stack_` changes from one without elements to another. -/
theorem Holds.setStack (h : Holds m q) (hq : q.stack.elems = []) {s : Stack A} (hs : s.elems = []) :
    Holds { m with stack := s.top } { q with stack := s } where
  top := rfl
  stack := by
    rw [hs, field_top hs]
    exact .nil
  head := h.head
  cache := h.cache
  nodup := by
    have hnd := h.nodup
    rw [Mailbox.stored, Mailbox.waiting, hq] at hnd
    rwa [Mailbox.stored, Mailbox.waiting, hs]

theorem Holds.fetch_closed (h : Holds m q) (hs : q.stack = .closed) (n : ℕ) (p : Ptr A) :
    m.fetchNewData n p = .error (.assertion .fetchClosed) := by
  rw [QueueMemory.fetchNewData, h.top, hs]
  rfl

theorem Holds.fetch_blocked (h : Holds m q) (hs : q.stack = .blocked) (n : ℕ) (p : Ptr A) :
    m.fetchNewData n p = .error (.assertion .fetchBlocked) := by
  rw [QueueMemory.fetchNewData, h.top, hs]
  rfl

/-- `fetch_new_data()`. -/
theorem Holds.fetchNewData (h : Holds m q) {n : ℕ} (hn : q.stored.length < n) :
    Agree id (m.fetchNewData n .emptyDummy) q.fetchNewData := by
  cases hs : q.stack with
  | closed => exact .inl ⟨_, h.fetch_closed hs n _, by rw [Mailbox.fetchNewData, hs]⟩
  | blocked => exact .inl ⟨_, h.fetch_blocked hs n _, by rw [Mailbox.fetchNewData, hs]⟩
  | list l =>
    right
    cases l with
    | nil =>
      refine ⟨m, q, false, ?_, ?_, h⟩
      · rw [QueueMemory.fetchNewData, h.top, hs]
        rfl
      · rw [Mailbox.fetchNewData, hs]
    | cons e es =>
      obtain ⟨m', hm, h', -⟩ := h.fetch_cons hs (s := .list []) rfl hn
      refine ⟨m', _, true, hm, ?_, h'⟩
      rw [Mailbox.fetchNewData, hs]

/-- `fetch_new_data(nullptr)`. -/
theorem Holds.fetchNewDataNull (h : Holds m q) {n : ℕ} (hn : q.stored.length < n) :
    Agree id (m.fetchNewData n .null) q.fetchNewDataNull := by
  cases hs : q.stack with
  | closed => exact .inl ⟨_, h.fetch_closed hs n _, by rw [Mailbox.fetchNewDataNull, hs]⟩
  | blocked => exact .inl ⟨_, h.fetch_blocked hs n _, by rw [Mailbox.fetchNewDataNull, hs]⟩
  | list l =>
    right
    cases l with
    | nil =>
      refine ⟨_, _, false, ?_, ?_, h.setStack (s := .closed) (by rw [hs]; rfl) rfl⟩
      · rw [QueueMemory.fetchNewData, h.top, hs]
        rfl
      · rw [Mailbox.fetchNewDataNull, hs]
    | cons e es =>
      obtain ⟨m', hm, h', -⟩ := h.fetch_cons hs (s := .closed) rfl hn
      refine ⟨m', _, true, hm, ?_, h'⟩
      rw [Mailbox.fetchNewDataNull, hs]

end Fetch

/-! ### The calls one by one -/

section Calls

variable {m : QueueMemory A} {q : Mailbox A} {n : ℕ}

omit [DecidableEq A] in
/-- The first element of `head_`, where there is one. -/
theorem Holds.popHead (h : Holds m q) (hne : q.head ≠ []) : Agree (Option.map .elem) m.popHead q.popHead := by
  rcases h.head_cases with ⟨hq, hm⟩ | ⟨x, l, hq, hm, hl⟩
  · exact absurd hq hne
  · right
    refine ⟨{ m with head := m.fields.next (.elem x) }, { q with head := l }, some x, ?_, ?_,
      { h with head := hl, nodup := ?_ }⟩
    · rw [QueueMemory.popHead, hm]
      rfl
    · rw [Mailbox.popHead, hq]
    · have hnd := h.nodup
      rw [Mailbox.stored, Mailbox.waiting, hq] at hnd
      exact (List.nodup_cons.mp hnd).2

omit [DecidableEq A] in
/-- Where `fetch_new_data` fetches something, `head_` is not null afterwards. -/
theorem head_of_fetchNewData {q' : Mailbox A} (h : q.fetchNewData = .ok (q', true)) : q'.head ≠ [] := by
  cases hs : q.stack with
  | closed =>
    rw [Mailbox.fetchNewData, hs] at h
    cases h
  | blocked =>
    rw [Mailbox.fetchNewData, hs] at h
    cases h
  | list l =>
    rw [Mailbox.fetchNewData, hs] at h
    cases l with
    | nil => cases h
    | cons e es =>
      cases h
      show Mailbox.relink (e :: es) q.head ≠ []
      rw [Mailbox.relink_eq, List.reverse_cons, List.append_assoc]
      exact List.append_ne_nil_of_right_ne_nil _ (List.cons_ne_nil _ _)

/-- `try_pop`. -/
theorem Holds.tryPop (h : Holds m q) (hn : q.stored.length < n) :
    Agree (Option.map .elem) (m.tryPop n) q.tryPop := by
  rw [QueueMemory.tryPop, Mailbox.tryPop]
  rcases h.head_cases with ⟨hq, hm⟩ | ⟨x, l, hq, hm, -⟩
  · rw [hq, hm]
    rcases h.fetchNewData hn with ⟨e, hf, hf'⟩ | ⟨m', q', b, hf, hf', h'⟩
    · exact .inl ⟨e, by rw [hf]; rfl, by rw [hf']; rfl⟩
    · rw [hf, hf']
      cases b with
      | false => exact .inr ⟨m', q', none, rfl, rfl, h'⟩
      | true => exact h'.popHead (head_of_fetchNewData hf')
  · have hpop := h.popHead (by rw [hq]; exact List.cons_ne_nil x l)
    rw [hq, hm]
    exact hpop

/-- `peek`. -/
theorem Holds.peek (h : Holds m q) (hn : q.stored.length < n) :
    Agree (Option.map .elem) (m.peek n) q.peek := by
  have hhead : ∀ {m : QueueMemory A} {q : Mailbox A}, Holds m q → m.head = q.head.head?.map .elem := by
    intro m q h
    rcases h.head_cases with ⟨hq, hm⟩ | ⟨x, l, hq, hm, -⟩ <;> rw [hq, hm] <;> rfl
  rw [QueueMemory.peek, Mailbox.peek]
  rcases h.head_cases with ⟨hq, hm⟩ | ⟨x, l, hq, hm, -⟩
  · rw [hq, hm]
    rcases h.fetchNewData hn with ⟨e, hf, hf'⟩ | ⟨m', q', b, hf, hf', h'⟩
    · exact .inl ⟨e, by rw [hf]; rfl, by rw [hf']; rfl⟩
    · rw [hf, hf']
      cases b with
      | false => exact .inr ⟨m', q', none, rfl, rfl, h'⟩
      | true => exact .inr ⟨m', q', q'.head.head?, by rw [← hhead h']; rfl, rfl, h'⟩
  · rw [hq, hm]
    exact .inr ⟨m, q, some x, rfl, rfl, h⟩

omit [DecidableEq A] in
theorem Holds.isNone_head (h : Holds m q) : m.head.isNone = q.head.isEmpty := by
  rcases h.head_cases with ⟨hq, hm⟩ | ⟨x, l, hq, hm, -⟩
  · rw [hq, hm]
    rfl
  · rw [hq, hm]
    rfl

omit [DecidableEq A] in
/-- `can_fetch_more`. -/
theorem Holds.canFetchMore (h : Holds m q) :
    (∃ b, m.canFetchMore = .ok b ∧ q.canFetchMore = .ok b) ∨
      ∃ e, m.canFetchMore = .error (.assertion e) ∧ q.canFetchMore = .error e := by
  rw [QueueMemory.canFetchMore, Mailbox.canFetchMore, ← Option.not_isNone, h.isNone_head, h.top]
  by_cases hh : q.head.isEmpty = true
  · rw [hh]
    by_cases hs : q.stack.top.isNull = true
    · exact .inr ⟨.fetchClosed, by rw [hs]; rfl, by rw [hs]; rfl⟩
    · rw [Bool.eq_false_iff.mpr hs]
      exact .inl ⟨_, rfl, rfl⟩
  · rw [Bool.eq_false_iff.mpr hh]
    exact .inl ⟨true, rfl, rfl⟩

omit [DecidableEq A] in
/-- `closed`. -/
theorem Holds.closed (h : Holds m q) : m.closed = q.stack.top.isNull := by
  rw [QueueMemory.closed, h.top]

/-- `blocked`. -/
theorem Holds.blocked (h : Holds m q) : m.blocked = q.isBlocked := by
  rw [Bool.eq_iff_iff, Mailbox.isBlocked_iff, ← Stack.top_eq_blockedDummy, ← h.top]
  exact decide_eq_true_iff

/-- `empty` of the cache. -/
theorem Holds.cacheEmpty (h : Holds m q) : m.fields.empty = q.cache.empty := by
  rw [Bool.eq_iff_iff, h.cache.represents.empty, Cache.empty, Bool.and_eq_true, List.isEmpty_iff,
    List.isEmpty_iff]

omit [DecidableEq A] in
/-- `begin` of the cache. -/
theorem Holds.cacheBegin (h : Holds m q) : m.fields.begin = some q.cache.begin := by
  obtain ⟨v, hv⟩ := Cache.next_of_part q.cache.first .separator (q.cache.second.map .elem ++ [.tail])
  have hrow := h.cache.row
  rw [Cache.nodes, hv] at hrow
  exact hrow.next_eq

omit [DecidableEq A] in
/-- `continuation` of the cache. -/
theorem Holds.cacheContinuation (h : Holds m q) : m.fields.continuation = some q.cache.continuation := by
  obtain ⟨v, hv⟩ := Cache.next_of_part q.cache.second .tail []
  have hrow := h.cache.row
  rw [Cache.nodes, hv] at hrow
  have hrow : m.fields.Row (.head :: q.cache.first.map .elem ++
      .separator :: (q.cache.second.head?.map .elem).getD .tail :: v) := hrow
  exact hrow.joined.next

/-- `empty`. -/
theorem Holds.empty (h : Holds m q) :
    (∃ b, m.empty = .ok b ∧ q.empty = .ok b) ∨ ∃ e, m.empty = .error (.assertion e) ∧ q.empty = .error e := by
  rw [QueueMemory.empty, Mailbox.empty, h.closed, h.cacheEmpty, h.isNone_head, h.top]
  cases q.stack.top.isNull with
  | true => exact .inr ⟨.fetchClosed, rfl, rfl⟩
  | false => exact .inl ⟨_, rfl, rfl⟩

omit [DecidableEq A] in
theorem Holds.canFetchMore_open (h : Holds m q) (ho : q.Open) :
    m.canFetchMore = .ok !q.waiting.isEmpty := by
  have hlist := Mailbox.canFetchMore_open ho
  rcases h.canFetchMore with ⟨b, hm, hq⟩ | ⟨e, -, hq⟩
  · rw [hm]
    rw [hq] at hlist
    cases hlist
    rfl
  · rw [hq] at hlist
    cases hlist

omit [DecidableEq A] in
/-- The loop to the last element of a chain. -/
theorem findTail_eq {x : A} {l : List A}
    (h : Chain (nodeLinks A) (links m.fields) (m.fields.next (.elem x)) l) (hn : l.length < n) :
    ∃ s t, x :: l = s ++ [t] ∧ m.findTail n (.elem x) = .ok (.elem t) := by
  induction l generalizing x n with
  | nil =>
    cases n with
    | zero => cases hn
    | succ n =>
      have hx : m.fields.next (.elem x) = none := Chain.nil_iff.mp h
      exact ⟨[], x, rfl, by rw [findTail, hx]⟩
  | cons y l ih =>
    cases n with
    | zero => cases hn
    | succ n =>
      obtain ⟨hy, hl⟩ := Chain.cons_iff.mp h
      have hx : m.fields.next (.elem x) = some (.elem y) := hy
      obtain ⟨s, t, hst, ht⟩ := ih hl (Nat.lt_of_succ_lt_succ hn)
      refine ⟨x :: s, t, by rw [hst]; rfl, ?_⟩
      rw [findTail, hx]
      exact ht

omit [DecidableEq A] in
/-- The loop that calls `fun` on the elements of a chain. -/
theorem visit_eq {p : Option (Node A)} {l : List A} (h : Chain (nodeLinks A) (links m.fields) p l)
    (hn : l.length < n) : m.visit n p = .ok (l.map .elem) := by
  induction l generalizing p n with
  | nil =>
    cases n with
    | zero => cases hn
    | succ n =>
      obtain rfl := Chain.nil_iff.mp h
      rfl
  | cons x l ih =>
    cases n with
    | zero => cases hn
    | succ n =>
      obtain ⟨rfl, hl⟩ := Chain.cons_iff.mp h
      show (m.visit n (m.fields.next (.elem x))).map _ = _
      rw [show m.visit n (m.fields.next (.elem x)) = _ from ih hl (Nat.lt_of_succ_lt_succ hn)]
      rfl

/-- The old chain of `head_`, put in front of the elements that were fetched while it was
detached. -/
theorem Holds.attach (h : Holds m q) {x t : A} {l s w : List A} {m' : QueueMemory A}
    {q' : Mailbox A} (hq : q.head = x :: l) (hm : m.head = some (.elem x)) (hst : x :: l = s ++ [t])
    (h' : Holds m' q') (hfr : PartitionedList.Frame m.fields m'.fields w)
    (hw : ∀ y ∈ x :: l, y ∉ w) (hn : ((x :: l) ++ q'.stored).Nodup) :
    Holds { m' with fields := m'.fields.setNext (.elem t) m'.head, head := some (.elem x) }
      { q' with head := x :: l ++ q'.head } := by
  have hold : Chain (nodeLinks A) (links m'.fields) (some (.elem x)) (s ++ [t]) := by
    rw [← hst, ← hm, ← hq]
    exact chain_frame h.head hfr (by rwa [hq])
  have ht : t ∈ x :: l := by rw [hst]; simp
  obtain ⟨hxl, -, hdisj⟩ := List.nodup_append.mp hn
  have hstored : t ∉ q'.stored := fun hm => hdisj t ht t hm rfl
  obtain ⟨hwait, hcache⟩ := not_or.mp (mt List.mem_append.mpr hstored)
  obtain ⟨hhead, hstack⟩ := not_or.mp (mt List.mem_append.mpr hwait)
  have hts : t ∉ s := by
    rw [hst] at hxl
    exact fun hs => (List.nodup_append.mp hxl).2.2 t hs t (List.mem_singleton.mpr rfl) rfl
  refine ⟨h'.top, ?_, ?_, cache_setNext h'.cache hcache _, ?_⟩
  · rw [links_setNext]
    exact h'.stack.update (mt List.mem_reverse.mpr hstack) _
  · rw [links_setNext, hst, List.append_assoc]
    exact hold.splice h'.head hts hhead
  · rw [Mailbox.stored, Mailbox.waiting, List.append_assoc, List.append_assoc]
    rwa [Mailbox.stored, Mailbox.waiting, List.append_assoc] at hn

omit [DecidableEq A] in
/-- `head_` is reset. -/
theorem Holds.detach (h : Holds m q) : Holds { m with head := none } { q with head := [] } :=
  { h with
    head := .nil
    nodup := h.nodup.sublist ((List.sublist_append_right q.head _).append_right _) }

/-- New data go behind what `head_` holds; `peek_all` then visits all of `head_`. -/
theorem Holds.fetchBehind (h : Holds m q) (hn : q.stored.length < n) :
    (∃ e, m.fetchBehind n = .error (.assertion e) ∧ q.peekAll = .error e) ∨
      ∃ m' q', m.fetchBehind n = .ok m' ∧
      q.peekAll = .ok (q', q.cache.first ++ q.cache.second ++ q'.head) ∧ Holds m' q' := by
  rcases h.head_cases with ⟨hq, hm⟩ | ⟨x, l, hq, hm, hl⟩
  · rw [QueueMemory.fetchBehind, Mailbox.peekAll, hq, hm]
    rcases h.fetchNewData hn with ⟨e, hf, hf'⟩ | ⟨m', q', b, hf, hf', h'⟩
    · exact .inl ⟨e, by rw [hf]; rfl, by rw [hf']; rfl⟩
    · exact .inr ⟨m', q', by rw [hf]; rfl, by rw [hf']; rfl, h'⟩
  · have hlen : l.length < q.stored.length := by
      rw [Mailbox.length_stored, Mailbox.length_waiting, hq, List.length_cons]
      omega
    have htop : m.stack.isDummy = q.stack.top.isDummy := by rw [h.top]
    cases hd : q.stack.top.isDummy with
    | true =>
      refine .inr ⟨m, q, ?_, ?_, h⟩
      · rw [QueueMemory.fetchBehind, hm]
        exact if_pos (htop.trans hd)
      · rw [Mailbox.peekAll, hq, hd]
        rfl
    | false =>
      obtain ⟨s, t, hst, ht⟩ := findTail_eq (m := { m with head := none }) (n := n) hl (by omega)
      have hmem : m.fetchBehind n =
          (QueueMemory.fetchNewData n .emptyDummy { m with head := none }).map fun r =>
            { r.1 with fields := r.1.fields.setNext (.elem t) r.1.head, head := some (.elem x) } := by
        rw [QueueMemory.fetchBehind, hm]
        dsimp only
        rw [htop, hd, if_neg Bool.false_ne_true, ht]
      have hdet := h.detach
      cases hs : q.stack with
      | blocked =>
        rw [hs] at hd
        cases hd
      | closed =>
        refine .inl ⟨.fetchClosed, ?_, ?_⟩
        · rw [hmem, hdet.fetch_closed hs]
          rfl
        · rw [Mailbox.peekAll, hq, hs]
          rfl
      | list L =>
        cases L with
        | nil =>
          rw [hs] at hd
          cases hd
        | cons e es =>
          have hwait : q.waiting = x :: l ++ (e :: es).reverse := by
            rw [Mailbox.waiting, hq, hs]
            rfl
          have hdet_len : (Mailbox.stored { q with head := [] }).length < n := by
            refine lt_of_le_of_lt ?_ hn
            exact ((List.sublist_append_right q.head _).append_right _).length_le
          obtain ⟨m', hf, h', hfr⟩ := hdet.fetch_cons hs (s := .list []) rfl hdet_len
          have hnd := h.nodup
          rw [Mailbox.stored, hwait] at hnd
          have hw : ∀ y ∈ x :: l, y ∉ e :: es := fun y hy he =>
            (List.nodup_append.mp (List.nodup_append.mp hnd).1).2.2 y hy y (List.mem_reverse.mpr he) rfl
          refine .inr ⟨_, _, ?_, ?_, h.attach hq hm hst h' hfr hw ?_⟩
          · rw [hmem, show QueueMemory.fetchNewData n .emptyDummy { m with head := none } = _ from hf]
            rfl
          · rw [Mailbox.peekAll, hq, hs]
            rfl
          · rw [List.append_assoc] at hnd
            rw [Mailbox.stored, Mailbox.waiting, Mailbox.relink_eq]
            simpa only [Stack.elems_list, List.reverse_nil, List.append_nil] using hnd

/-- `peek_all`. -/
theorem Holds.peekAll (h : Holds m q) (hn : q.stored.length < n) :
    Agree (List.map .elem) (m.peekAll n) q.peekAll := by
  have hrep := h.cache.represents
  have hlen := q.length_stored
  rw [QueueMemory.peekAll, hrep.first n (by omega), hrep.second n (by omega)]
  dsimp only
  rcases h.fetchBehind hn with ⟨e, hf, he⟩ | ⟨m', q', hf, hq, h'⟩
  · exact .inl ⟨e, by rw [hf], he⟩
  · have hlen' : q'.head.length < n := by
      refine lt_of_le_of_lt q'.length_head_le ?_
      rwa [Mailbox.stored_peekAll hq]
    refine .inr ⟨m', q', _, ?_, hq, h'⟩
    rw [hf]
    dsimp only
    rw [visit_eq h'.head hlen', List.map_append, List.map_append]
    rfl

/-- A new element is put on top of `stack_`. -/
theorem Holds.push (h : Holds m q) {x : A} (hx : x ∉ q.stored) :
    Holds { m with stack := .elem x, fields := m.fields.setNext (.elem x) m.stack.field }
      { q with stack := q.stack.push x } := by
  obtain ⟨hwait, hcache⟩ := not_or.mp (mt List.mem_append.mpr hx)
  obtain ⟨hhead, hstack⟩ := not_or.mp (mt List.mem_append.mpr hwait)
  refine ⟨rfl, ?_, ?_, cache_setNext h.cache hcache _, ?_⟩
  · rw [links_setNext]
    exact h.stack.push (mt List.mem_reverse.mpr hstack)
  · rw [links_setNext]
    exact h.head.update hhead _
  · have hperm : (Mailbox.stored { q with stack := q.stack.push x }).Perm (x :: q.stored) := by
      simp only [Mailbox.stored, Mailbox.waiting, Stack.elems_push, List.reverse_cons]
      rw [← List.append_assoc q.head, List.append_assoc _ [x]]
      exact List.perm_middle
    exact hperm.nodup_iff.mpr (List.nodup_cons.mpr ⟨hx, h.nodup⟩)

/-- The memory of an element outside the queue is given back. -/
theorem Holds.free (h : Holds m q) {x : A} (hx : x ∉ q.stored) :
    Holds { m with fields := m.fields.free x } q := by
  obtain ⟨hwait, hcache⟩ := not_or.mp (mt List.mem_append.mpr hx)
  refine h.write (w := [x]) (fun a ha => ?_) (fun y hy hyx => ?_) (h.cache.write hcache none none) h.nodup
  · rw [PartitionedList.free, DoubleLinks.next_setPrev, DoubleLinks.next_setNext_of_ne]
    exact fun he => ha (List.mem_singleton.mpr (Node.elem.inj he))
  · rw [List.mem_singleton.mp hyx] at hy
    exact hwait hy

/-- `enqueue`. -/
theorem Holds.enqueue (h : Holds m q) {x : A} (hx : x ∉ q.stored) :
    (m.enqueue x).2 = (q.enqueue x).2 ∧ Holds (m.enqueue x).1 (q.enqueue x).1 := by
  have hpush := h.push hx
  have hfree := h.free hx
  have htop := h.top
  rw [QueueMemory.enqueue, Mailbox.enqueue]
  cases hs : q.stack with
  | closed =>
    rw [htop, hs] at hfree ⊢
    exact ⟨rfl, hfree⟩
  | blocked =>
    rw [htop, hs] at hpush ⊢
    exact ⟨rfl, hpush⟩
  | list l =>
    rw [htop, hs] at hpush ⊢
    cases l with
    | nil => exact ⟨rfl, hpush⟩
    | cons y l => exact ⟨rfl, hpush⟩

/-- `try_block`. -/
theorem Holds.tryBlock (h : Holds m q) :
    m.tryBlock.2 = q.tryBlock.2 ∧ Holds m.tryBlock.1 q.tryBlock.1 := by
  rw [QueueMemory.tryBlock, Mailbox.tryBlock, h.top]
  cases hs : q.stack with
  | list l =>
    cases l with
    | nil => exact ⟨rfl, h.setStack (s := .blocked) (by rw [hs]; rfl) rfl⟩
    | cons y l => exact ⟨rfl, h⟩
  | _ => exact ⟨rfl, h⟩

/-- `try_unblock`. -/
theorem Holds.tryUnblock (h : Holds m q) :
    m.tryUnblock.2 = q.tryUnblock.2 ∧ Holds m.tryUnblock.1 q.tryUnblock.1 := by
  rw [QueueMemory.tryUnblock, Mailbox.tryUnblock, h.top]
  cases hs : q.stack with
  | blocked => exact ⟨rfl, h.setStack (s := .list []) (by rw [hs]; rfl) rfl⟩
  | closed => exact ⟨rfl, h⟩
  | list l => cases l <;> exact ⟨rfl, h⟩

/-- The loop of `count` over a range of the cache, by what a loop along it visits. -/
theorem countRange_walk {f : PartitionedList A} {maxCount : ℕ} {e : Node A} {i : Option (Node A)}
    {l : List (Node A)} (h : walk f.next e n i = some l) (result : ℕ) :
    f.countRange maxCount e n i result = .ok (Cache.countRange maxCount l result) := by
  induction n generalizing i l result with
  | zero => cases h
  | succ n ih =>
    cases i with
    | none => cases h
    | some x =>
      rw [walk] at h
      rw [PartitionedList.countRange]
      split_ifs at h with hx
      · cases h
        rw [if_pos hx]
        rfl
      · obtain ⟨l', hl', rfl⟩ := Option.map_eq_some_iff.mp h
        rw [if_neg hx, Cache.countRange, ih hl']
        split_ifs <;> rfl

/-- The cache's `count`. -/
theorem count_cache {f : PartitionedList A} {c : Cache A} (h : f.Represents c)
    (hn : c.first.length + c.second.length < n) (maxCount : ℕ) :
    f.count n maxCount = .ok (c.count maxCount) := by
  have hmap : ∀ (l : List A) (result : ℕ), Cache.countRange maxCount (l.map Node.elem) result =
      Cache.countRange maxCount l result := fun l result => by
    rw [Cache.countRange_eq, Cache.countRange_eq, List.length_map]
  rw [PartitionedList.count, Cache.count, countRange_walk (h.first n (by omega)), hmap]
  cases Cache.countRange maxCount c.first 0 with
  | mk result returned =>
    cases returned with
    | true => rfl
    | false =>
      dsimp only
      rw [countRange_walk (h.second n (by omega)), hmap]
      rfl

omit [DecidableEq A] in
/-- The loop of `count` over `head_`. -/
theorem countHead_eq {p : Option (Node A)} {l : List A} (h : Chain (nodeLinks A) (links m.fields) p l)
    (hn : l.length < n) (maxCount res : ℕ) :
    m.countHead maxCount n p res = .ok (Mailbox.countHead maxCount l res) := by
  induction l generalizing p n res with
  | nil =>
    cases n with
    | zero => cases hn
    | succ n =>
      obtain rfl := Chain.nil_iff.mp h
      rfl
  | cons x l ih =>
    cases n with
    | zero => cases hn
    | succ n =>
      obtain ⟨rfl, hl⟩ := Chain.cons_iff.mp h
      show (if res < maxCount then m.countHead maxCount n (m.fields.next (.elem x)) (res + 1)
        else .ok res) = _
      rw [Mailbox.countHead]
      split_ifs
      · exact ih hl (Nat.lt_of_succ_lt_succ hn) (res + 1)
      · rfl

/-- `count`. -/
theorem Holds.count (h : Holds m q) (hn : q.stored.length < n) (maxCount : ℕ) :
    Agree id (m.count n maxCount) (q.count maxCount) := by
  have hlen := q.length_stored
  rw [QueueMemory.count, Mailbox.count, count_cache h.cache.represents (by omega)]
  dsimp only
  split_ifs with hle
  · exact .inr ⟨m, q, _, rfl, rfl, h⟩
  · rcases h.fetchNewData hn with ⟨e, hf, hf'⟩ | ⟨m', q', b, hf, hf', h'⟩
    · exact .inl ⟨e, by rw [hf], by rw [hf']⟩
    · have hlen' : q'.head.length < n := by
        refine lt_of_le_of_lt q'.length_head_le ?_
        rwa [(Mailbox.stored_fetchNewData hf').length_eq]
      refine .inr ⟨m', q', _, ?_, by rw [hf'], h'⟩
      rw [hf]
      dsimp only
      rw [countHead_eq h'.head hlen']
      rfl

/-- What an operation leaves in the cache was there before or is brought along. -/
theorem elems_apply {c : Cache A} {op : PartitionedList.Op A} (ha : c.Accepts op) (hn : c.elems.Nodup) :
    (c.apply op).1.elems ⊆ op.subject ++ c.elems := by
  cases op with
  | insert next val => exact (Cache.elems_insert ha.1 val).subset
  | take pos => exact (Cache.elems_take hn).1.subset
  | erase pos => exact (Cache.elems_take hn).1.subset
  | clear => exact List.nil_subset _
  | write a next prev => exact List.subset_append_right _ _

/-- What is done through `cache()`. -/
theorem Holds.cacheCall (h : Holds m q) {op : PartitionedList.Op A} (ha : q.cache.Accepts op)
    (hs : ∀ x ∈ op.subject, x ∉ q.waiting) (hn : q.stored.length < n) :
    ∃ m', m.cacheCall n op = .ok (m', (q.cache.apply op).2) ∧
      Holds m' { q with cache := (q.cache.apply op).1 } := by
  obtain ⟨hwait, hcache⟩ := h.disjoint
  have hlen : q.cache.elems.length < n := by
    rw [Mailbox.length_stored] at hn
    rw [Cache.elems, List.length_append]
    omega
  have hw : ∀ x ∈ q.waiting, x ∉ op.subject ++ q.cache.elems := by
    intro x hx hm
    rcases List.mem_append.mp hm with hm | hm
    · exact hs x hm hx
    · exact hcache x hx hm
  obtain ⟨f', hf, h', hfr⟩ := h.cache.call ha hlen
  refine ⟨{ m with fields := f' }, by rw [QueueMemory.cacheCall, hf],
    h.write hfr hw h' (List.nodup_append.mpr ⟨hwait, h'.nodup, fun x hx y hy => ?_⟩)⟩
  rintro rfl
  exact hw x hx (elems_apply ha h.cache.nodup hy)

/-- `clear_cached_elements`. -/
theorem Holds.clearCachedElements (h : Holds m q) (hn : q.head.length < n) :
    ∃ m', m.clearCachedElements n = .ok (m', clearElements q.head) ∧ Holds m' { q with head := [] } := by
  obtain ⟨l, hl⟩ : ∃ l, q.head = l := ⟨_, rfl⟩
  rw [hl] at hn ⊢
  induction l generalizing m q n with
  | nil =>
    cases n with
    | zero => cases hn
    | succ n =>
      have hm : m.head = none := by
        rcases h.head_cases with ⟨-, hm⟩ | ⟨x, l, hq, -⟩
        · exact hm
        · rw [hl] at hq
          cases hq
      exact ⟨m, by rw [QueueMemory.clearCachedElements, hm]; rfl, by rw [← hl]; exact h⟩
  | cons x l ih =>
    cases n with
    | zero => cases hn
    | succ n =>
      have hhead := h.head
      have hnd := h.nodup
      rw [hl] at hhead
      rw [Mailbox.stored, Mailbox.waiting, hl] at hnd
      obtain ⟨hm, hrest⟩ := Chain.cons_iff.mp hhead
      obtain ⟨hx, hnd⟩ := List.nodup_cons.mp hnd
      have hpop : Holds { m with head := m.fields.next (.elem x) } { q with head := l } :=
        { h with head := hrest, nodup := hnd }
      obtain ⟨m', hr, h'⟩ := ih (hpop.free hx) (Nat.lt_of_succ_lt_succ hn) rfl
      refine ⟨m', ?_, h'⟩
      rw [QueueMemory.clearCachedElements, show m.head = some (.elem x) from hm]
      dsimp only
      rw [hr]
      rfl

/-- `intrusive_partitioned_list::clear`. -/
theorem Holds.clearCache (h : Holds m q) (hn : q.stored.length < n) :
    ∃ f', m.fields.clear n = some (f', q.cache.clear.2) ∧
      Holds { m with fields := f' } { q with cache := {} } := by
  obtain ⟨hwait, hcache⟩ := h.disjoint
  have hlen : q.cache.elems.length < n := by
    rw [Mailbox.length_stored] at hn
    rw [Cache.elems, List.length_append]
    omega
  obtain ⟨f', hf, h', hfr⟩ := h.cache.clear hlen
  refine ⟨f', hf, h.write hfr hcache h' ?_⟩
  rwa [show ({} : Cache A).elems = [] from rfl, List.append_nil]

omit [DecidableEq A] in
/-- Closing moves elements and neither adds nor loses one. -/
theorem stored_fetchNewDataNull {q' : Mailbox A} {b : Bool} (h : q.fetchNewDataNull = .ok (q', b)) :
    q'.stored.Perm q.stored := by
  cases hs : q.stack with
  | closed =>
    rw [Mailbox.fetchNewDataNull, hs] at h
    cases h
  | blocked =>
    rw [Mailbox.fetchNewDataNull, hs] at h
    cases h
  | list l =>
    rw [Mailbox.fetchNewDataNull_list hs] at h
    cases h
    simp only [Mailbox.stored, Mailbox.waiting, hs, Stack.elems_list, Stack.elems_closed,
      List.reverse_nil, List.append_nil]
    exact List.perm_append_comm.append_right _

/-- `close`. -/
theorem Holds.close (h : Holds m q) (hn : q.stored.length < n) : Agree id (m.close n) q.close := by
  have hcleared : ∀ {q : Mailbox A}, (Mailbox.stored { q with head := [] }).length ≤ q.stored.length :=
    fun {q} => ((List.sublist_append_right q.head _).append_right _).length_le
  obtain ⟨m₁, hm₁, h₁⟩ := h.clearCachedElements (lt_of_le_of_lt q.length_head_le hn)
  have hn₁ := lt_of_le_of_lt hcleared hn
  have hblocked : m₁.blocked = Mailbox.isBlocked { q with head := [] } := h₁.blocked
  have hfetch : Agree id (if m₁.blocked then .ok (m₁, false) else m₁.fetchNewData n .null)
      (if Mailbox.isBlocked { q with head := [] } then .ok ({ q with head := [] }, false)
        else Mailbox.fetchNewDataNull { q with head := [] }) := by
    rw [hblocked]
    split_ifs
    · exact .inr ⟨m₁, _, false, rfl, rfl, h₁⟩
    · exact h₁.fetchNewDataNull hn₁
  rw [QueueMemory.close, Mailbox.close, hm₁]
  dsimp only [Mailbox.clearCachedElements]
  rcases hfetch with ⟨e, hf, hf'⟩ | ⟨m₂, q₂, more, hf, hf', h₂⟩
  · exact .inl ⟨e, by rw [hf], by rw [hf']⟩
  · have hn₂ : q₂.stored.length < n := by
      split_ifs at hf'
      · cases hf'
        exact hn₁
      · rwa [(stored_fetchNewDataNull hf').length_eq]
    -- what was fetched is disposed of, and then the cache
    have hrest : ∃ m₃ q₃ log, (if more then m₂.clearCachedElements n else .ok (m₂, [])) = .ok (m₃, log) ∧
        (if more then ({ q₂ with head := [] }, clearElements q₂.head) else (q₂, [])) = (q₃, log) ∧
          Holds m₃ q₃ ∧ q₃.stored.length < n := by
      cases more with
      | false => exact ⟨m₂, q₂, [], rfl, rfl, h₂, hn₂⟩
      | true =>
        obtain ⟨m₃, hm₃, h₃⟩ := h₂.clearCachedElements (lt_of_le_of_lt q₂.length_head_le hn₂)
        exact ⟨m₃, _, _, hm₃, rfl, h₃, lt_of_le_of_lt hcleared hn₂⟩
    obtain ⟨m₃, q₃, log, hm₃, hq₃, h₃, hn₃⟩ := hrest
    obtain ⟨f', hf₃, h'⟩ := h₃.clearCache hn₃
    refine .inr ⟨{ m₃ with fields := f' }, { q₃ with cache := {} },
      clearElements q.head ++ log ++ q₃.cache.clear.2, ?_, ?_, h'⟩
    · rw [hf]
      dsimp only [id]
      rw [hm₃]
      dsimp only
      rw [hf₃]
    · rw [hf']
      dsimp only
      rw [hq₃]
      rfl

end Calls

/-! ### Whatever is called -/

section Runs

variable {m : QueueMemory A} {q : Mailbox A} {n : ℕ} {β γ : Type*} {g : β → γ}
  {r : Except Stop (QueueMemory A × γ)} {r' : Except Fault (Mailbox A × β)}

omit [DecidableEq A] in
theorem Agree.of_ok (h : Agree g r r') {b : β} (hr : r' = .ok (q, b)) :
    ∃ m, r = .ok (m, g b) ∧ Holds m q := by
  rcases h with ⟨e, -, he⟩ | ⟨m, q', b', hm, hq, h⟩
  · rw [hr] at he
    cases he
  · rw [hr] at hq
    cases hq
    exact ⟨m, hm, h⟩

omit [DecidableEq A] in
theorem Agree.fst (h : Agree g r r') :
    (r.toOption.map Prod.fst = none ∧ ∃ e, r'.map Prod.fst = .error e) ∨
      ∃ m q, r.toOption.map Prod.fst = some m ∧ r'.map Prod.fst = .ok q ∧ Holds m q := by
  rcases h with ⟨e, rfl, rfl⟩ | ⟨m, q, b, rfl, rfl, h⟩
  · exact .inl ⟨rfl, e, rfl⟩
  · exact .inr ⟨m, q, rfl, rfl, h⟩

omit [DecidableEq A] in
/-- An observer leaves both as they are. -/
theorem Holds.observe (h : Holds m q) {δ : Type*} {x : Except Stop δ} {y : Except Fault δ}
    (hxy : (∃ b, x = .ok b ∧ y = .ok b) ∨ ∃ e, x = .error (.assertion e) ∧ y = .error e) :
    ((x.toOption.map fun _ => m) = none ∧ ∃ e, (y.map fun _ => q) = .error e) ∨
      ∃ m' q', (x.toOption.map fun _ => m) = some m' ∧ (y.map fun _ => q) = .ok q' ∧ Holds m' q' := by
  rcases hxy with ⟨b, rfl, rfl⟩ | ⟨e, rfl, rfl⟩
  · exact .inr ⟨m, q, rfl, rfl, h⟩
  · exact .inl ⟨rfl, e, rfl⟩

/-- `count` of the cache. -/
theorem Holds.cacheCount (h : Holds m q) (hn : q.stored.length < n) (maxCount : ℕ) :
    m.fields.count n maxCount = .ok (q.cache.count maxCount) := by
  have hlen := q.length_stored
  exact count_cache h.cache.represents (by omega) maxCount

/-- **One call** fails on the links where it fails on the lists, and else leaves the links of
the new lists behind. -/
theorem Holds.call (h : Holds m q) {op : Op A} (ha : q.Accepts op) (hn : q.stored.length < n) :
    (m.call n op = none ∧ ∃ e, q.callLists op = .error e) ∨
      ∃ m' q', m.call n op = some m' ∧ q.callLists op = .ok q' ∧ Holds m' q' := by
  cases op with
  | enqueue x => exact .inr ⟨_, _, rfl, rfl, (h.enqueue ha).2⟩
  | tryPop => exact (h.tryPop hn).fst
  | tryBlock => exact .inr ⟨_, _, rfl, rfl, h.tryBlock.2⟩
  | tryUnblock => exact .inr ⟨_, _, rfl, rfl, h.tryUnblock.2⟩
  | count maxCount => exact (h.count hn maxCount).fst
  | peek => exact (h.peek hn).fst
  | peekAll => exact (h.peekAll hn).fst
  | canFetchMore => exact h.observe h.canFetchMore
  | empty => exact h.observe h.empty
  | closed => exact .inr ⟨m, q, rfl, rfl, h⟩
  | blocked => exact .inr ⟨m, q, rfl, rfl, h⟩
  | cacheBegin => exact .inr ⟨m, q, rfl, rfl, h⟩
  | cacheContinuation => exact .inr ⟨m, q, rfl, rfl, h⟩
  | cacheEmpty => exact .inr ⟨m, q, rfl, rfl, h⟩
  | cacheCount maxCount =>
    refine .inr ⟨m, q, ?_, rfl, h⟩
    rw [QueueMemory.call, h.cacheCount hn]
    rfl
  | cache op =>
    obtain ⟨m', hm, h'⟩ := h.cacheCall ha.1 ha.2 hn
    exact .inr ⟨m', _, by rw [QueueMemory.call, hm]; rfl, rfl, h'⟩
  | close => exact (h.close hn).fst

theorem holds_construct (f : PartitionedList A) : Holds (construct f) {} where
  top := rfl
  stack := .nil
  head := .nil
  cache := PartitionedList.holds_construct f
  nodup := List.nodup_nil

theorem holds_of_reachable (h : (system A).Reachable (m, q)) : Holds m q := by
  refine System.Reachable.invariant (I := fun s => Holds s.1 s.2) ?_ ?_ h
  · rintro _ ⟨f, rfl⟩
    exact holds_construct f
  · rintro ⟨m, q⟩ op s' hI hs
    simp only [system] at hs
    split_ifs at hs with ha
    rcases hI.call ha (Nat.lt_succ_self _) with ⟨hm, -⟩ | ⟨m', q', hm, hq, h'⟩
    · rw [hm] at hs
      cases hs
    · rw [hm, hq] at hs
      cases hs
      exact h'

/-- What `closed` and `blocked` say of the lists. -/
theorem Holds.isOpen (h : Holds m q) (hc : m.closed = false) (hb : m.blocked = false) : q.Open := by
  cases hs : q.stack with
  | list l => exact ⟨l, hs⟩
  | closed =>
    rw [h.closed, hs] at hc
    cases hc
  | blocked =>
    rw [h.blocked, Mailbox.isBlocked, hs] at hb
    cases hb

/-- Repeated `try_pop` on an open queue returns the waiting elements. -/
theorem Holds.drain (h : Holds m q) (ho : q.Open) (hn : q.stored.length < n) {k : ℕ}
    (hk : q.waiting.length < k) : m.drain n k = some (q.waiting.map .elem) := by
  obtain ⟨w, hw⟩ : ∃ w, q.waiting = w := ⟨_, rfl⟩
  rw [hw] at hk ⊢
  induction w generalizing m q k with
  | nil =>
    cases k with
    | zero => cases hk
    | succ k =>
      obtain ⟨m', hm, -⟩ := (h.tryPop hn).of_ok (Mailbox.tryPop_nil ho hw).1
      rw [QueueMemory.drain, hm]
      rfl
  | cons x w ih =>
    cases k with
    | zero => cases hk
    | succ k =>
      obtain ⟨q', hq, ho', hw', -⟩ := Mailbox.tryPop_cons ho hw
      obtain ⟨m', hm, h'⟩ := (h.tryPop hn).of_ok hq
      have hn' := lt_of_le_of_lt (Mailbox.stored_tryPop hq).length_le hn
      rw [QueueMemory.drain, hm]
      dsimp only [Option.map_some]
      rw [ih h' ho' hn' (Nat.lt_of_succ_lt_succ hk) hw']
      rfl

omit [DecidableEq A] in
/-- `peek` on an open queue returns the first waiting element, and no element is moved past
another. -/
theorem peek_open (ho : q.Open) : ∃ q', q.peek = .ok (q', q.waiting.head?) ∧ q'.Open ∧
    q'.waiting = q.waiting ∧ q'.cache = q.cache := by
  obtain ⟨stack, head, cache⟩ := q
  obtain ⟨l, rfl⟩ : ∃ l, stack = .list l := ho
  cases head with
  | cons x head => exact ⟨_, rfl, ⟨l, rfl⟩, rfl, rfl⟩
  | nil =>
    refine ⟨⟨.list [], l.reverse, cache⟩, ?_, ⟨[], rfl⟩, ?_, rfl⟩
    · have hf := Mailbox.fetchNewData_list (q := ⟨.list l, [], cache⟩) rfl
      rw [List.append_nil] at hf
      rw [Mailbox.peek, hf]
      cases l <;> rfl
    · simp [Mailbox.waiting]

/-- What can be seen of a queue: the elements that repeated `try_pop` returns, and those that
the loops along the cache visit. -/
structure Shows (n : ℕ) (m : QueueMemory A) (q : Mailbox A) : Prop where
  /-- Repeated `try_pop`. -/
  pops : m.drain n n = some (q.waiting.map .elem)
  /-- Both partitions of the cache. -/
  cache : m.fields.Represents q.cache

/-- Two queues with the same waiting elements and the same cache show the same. -/
theorem Holds.shows (h : Holds m q) (ho : q.Open) {q₀ : Mailbox A} (hw : q.waiting = q₀.waiting)
    (hc : q.cache = q₀.cache) (hn : q₀.stored.length < n) : Shows n m q₀ := by
  have hstored : q.stored = q₀.stored := by rw [Mailbox.stored, Mailbox.stored, hw, hc]
  refine ⟨?_, hc ▸ h.cache.represents⟩
  rw [← hstored] at hn
  rw [← hw]
  refine h.drain ho hn ?_
  rw [Mailbox.length_stored] at hn
  omega

/-- **The observers agree with popping.** After any calls, on a queue that is neither closed
nor blocked: `peek` returns what `try_pop` would, `can_fetch_more` says whether that is an
element, and `peek_all` visits both partitions of the cache and then what repeated `try_pop`
would return, each stored element once. What the queue shows is afterwards as it was. -/
theorem observers_agree (h : (system A).Reachable (m, q)) (hc : m.closed = false)
    (hb : m.blocked = false) (hn : q.stored.length < n) :
    Shows n m q ∧
      (∃ m', m.tryPop n = .ok (m', q.waiting.head?.map .elem)) ∧
      (∃ m', m.peek n = .ok (m', q.waiting.head?.map .elem) ∧ Shows n m' q) ∧
      m.canFetchMore = .ok q.waiting.head?.isSome ∧
      (∃ m', m.peekAll n = .ok (m', (q.cache.first ++ q.cache.second ++ q.waiting).map .elem) ∧
        Shows n m' q) ∧
      (q.cache.first ++ q.cache.second ++ q.waiting).Nodup ∧
      (q.cache.first ++ q.cache.second ++ q.waiting).Perm q.stored := by
  have hI := holds_of_reachable h
  have ho := hI.isOpen hc hb
  have hperm : (q.cache.first ++ q.cache.second ++ q.waiting).Perm q.stored := List.perm_append_comm
  refine ⟨hI.shows ho rfl rfl hn, ?_, ?_, ?_, ?_, hperm.nodup_iff.mpr hI.nodup, hperm⟩
  · cases hw : q.waiting with
    | nil =>
      obtain ⟨m', hm, -⟩ := (hI.tryPop hn).of_ok (Mailbox.tryPop_nil ho hw).1
      exact ⟨m', hm⟩
    | cons x w =>
      obtain ⟨q', hq, -⟩ := Mailbox.tryPop_cons ho hw
      obtain ⟨m', hm, -⟩ := (hI.tryPop hn).of_ok hq
      exact ⟨m', hm⟩
  · obtain ⟨q', hq, ho', hw', hc'⟩ := peek_open ho
    obtain ⟨m', hm, h'⟩ := (hI.peek hn).of_ok hq
    exact ⟨m', hm, h'.shows ho' hw' hc' hn⟩
  · rw [hI.canFetchMore_open ho]
    cases q.waiting <;> rfl
  · obtain ⟨l, hs⟩ := ho
    obtain ⟨m', hm, h'⟩ := (hI.peekAll hn).of_ok (Mailbox.peekAll_list hs)
    exact ⟨m', hm, h'.shows ⟨[], rfl⟩ (by simp [Mailbox.waiting]) rfl hn⟩

/-- Two elements in the cache, one on `head_` and two on `stack_`: each of them has been on
`stack_` before. -/
theorem observers_agree_five : ∃ m : QueueMemory ℕ,
    (system ℕ).Reachable (m, ⟨.list [5, 4], [3], ⟨[2], [1]⟩⟩) ∧
      (∃ m', m.peek 6 = .ok (m', some (.elem 3))) ∧ m.canFetchMore = .ok true ∧
      ∃ m', m.peekAll 6 = .ok (m', [.elem 2, .elem 1, .elem 3, .elem 4, .elem 5]) ∧
        m'.drain 6 6 = some [.elem 3, .elem 4, .elem 5] := by
  have hr : ∃ m : QueueMemory ℕ, (system ℕ).Reachable (m, ⟨.list [5, 4], [3], ⟨[2], [1]⟩⟩) ∧
      m.stack = .elem 5 :=
    ⟨_, System.Reachable.of_actions (T := system ℕ) (s := (construct PartitionedList.blank, {}))
      ⟨PartitionedList.blank, rfl⟩
      [.enqueue 1, .enqueue 2, .enqueue 3, .tryPop, .tryPop, .cache (.insert .tail 1),
        .cache (.insert .separator 2), .enqueue 4, .enqueue 5] rfl, rfl⟩
  obtain ⟨m, hm, hs⟩ := hr
  obtain ⟨-, -, ⟨m₁, h₁, -⟩, h₂, ⟨m₃, h₃, hs₃⟩, -⟩ :=
    observers_agree hm (by rw [closed, hs]; rfl) (by rw [blocked, hs]; rfl) (show 5 < 6 by decide)
  exact ⟨m, hm, ⟨m₁, h₁⟩, h₂, m₃, h₃, hs₃.pops⟩

end Runs

end QueueMemory

end ActorsFramework.Detail
