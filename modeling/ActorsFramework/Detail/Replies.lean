import ActorsFramework.Detail.QueueMemory

/-!
# Whatever is asked of the queue

Everything that can be learnt from `single_reader_queue` and its cache: what each
call returns, which elements it visits and deletes, and at which assertion it stops.
`links_refine_lists`: over any sequence of calls the links answer as the lists do,
and where they stop it is at the assertion at which the lists do. So no null pointer
is followed, and no loop makes more tests than there have been calls.
-/

namespace ActorsFramework.Detail

variable {A : Type*}

/-- What a call returns, pointers being of the type `β`, and what it does to elements. -/
inductive Reply (A β : Type*) where
  /-- Of `enqueue`, with what it deletes. -/
  | enqueued (r : EnqueueResult) (log : List (Event A))
  /-- Of `try_pop` and `peek`. -/
  | element (x : Option β)
  /-- Of what returns a truth value. -/
  | flag (b : Bool)
  /-- Of `count`, and that of the cache. -/
  | number (k : ℕ)
  /-- Of `begin` and `continuation` of the cache. -/
  | iterator (p : Option (Node A))
  /-- Of `peek_all`: what it visits. -/
  | visited (l : List β)
  /-- Of an operation on the cache. -/
  | answer (r : PartitionedList.Answer A)
  /-- Of `close`. -/
  | disposed (log : List (Event A))
  deriving DecidableEq

/-- A reply, with other pointers. -/
def Reply.map {β γ : Type*} (g : β → γ) : Reply A β → Reply A γ
  | .enqueued r log => .enqueued r log
  | .element x => .element (x.map g)
  | .flag b => .flag b
  | .number k => .number k
  | .iterator p => .iterator p
  | .visited l => .visited (l.map g)
  | .answer r => .answer r
  | .disposed log => .disposed log

namespace QueueMemory

variable [DecidableEq A]

/-- What `enqueue` deletes: the new element, where `stack_` is null. -/
def enqueueDeletes (m : QueueMemory A) (x : A) : List (Event A) :=
  if m.stack.isNull then [.delete x] else []

/-- A call, and its reply; there is none where it stops. -/
def reply (n : ℕ) (m : QueueMemory A) : Op A → Except Stop (QueueMemory A × Reply A (Node A))
  | .enqueue x => .ok ((m.enqueue x).1, .enqueued (m.enqueue x).2 (m.enqueueDeletes x))
  | .tryPop => (m.tryPop n).map fun r => (r.1, .element r.2)
  | .tryBlock => .ok (m.tryBlock.1, .flag m.tryBlock.2)
  | .tryUnblock => .ok (m.tryUnblock.1, .flag m.tryUnblock.2)
  | .count maxCount => (m.count n maxCount).map fun r => (r.1, .number r.2)
  | .peek => (m.peek n).map fun r => (r.1, .element r.2)
  | .peekAll => (m.peekAll n).map fun r => (r.1, .visited r.2)
  | .canFetchMore => m.canFetchMore.map fun b => (m, .flag b)
  | .empty => m.empty.map fun b => (m, .flag b)
  | .closed => .ok (m, .flag m.closed)
  | .blocked => .ok (m, .flag m.blocked)
  | .cache op => (m.cacheCall n op).map fun r => (r.1, .answer r.2)
  | .cacheBegin => .ok (m, .iterator m.fields.begin)
  | .cacheContinuation => .ok (m, .iterator m.fields.continuation)
  | .cacheEmpty => .ok (m, .flag m.fields.empty)
  | .cacheCount maxCount => (m.fields.count n maxCount).map fun k => (m, .number k)
  | .close => (m.close n).map fun r => (r.1, .disposed r.2)

/-- The replies to calls made one after another, up to the first that stops, and the queue after
the last or what stopped that one. -/
def replies (n : ℕ) (m : QueueMemory A) :
    List (Op A) → List (Reply A (Node A)) × Except Stop (QueueMemory A)
  | [] => ([], .ok m)
  | op :: ops =>
    match m.reply n op with
    | .error e => ([], .error e)
    | .ok (m, r) => (r :: (replies n m ops).1, (replies n m ops).2)

end QueueMemory

namespace Mailbox

variable [DecidableEq A]

/-- The same call on the lists. -/
def reply (q : Mailbox A) : QueueMemory.Op A → Except Fault (Mailbox A × Reply A A)
  | .enqueue x => .ok ((q.enqueue x).1, .enqueued (q.enqueue x).2 (q.enqueueDeletes x))
  | .tryPop => q.tryPop.map fun r => (r.1, .element r.2)
  | .tryBlock => .ok (q.tryBlock.1, .flag q.tryBlock.2)
  | .tryUnblock => .ok (q.tryUnblock.1, .flag q.tryUnblock.2)
  | .count maxCount => (q.count maxCount).map fun r => (r.1, .number r.2)
  | .peek => q.peek.map fun r => (r.1, .element r.2)
  | .peekAll => q.peekAll.map fun r => (r.1, .visited r.2)
  | .canFetchMore => q.canFetchMore.map fun b => (q, .flag b)
  | .empty => q.empty.map fun b => (q, .flag b)
  | .closed => .ok (q, .flag q.stack.top.isNull)
  | .blocked => .ok (q, .flag q.isBlocked)
  | .cache op => .ok ({ q with cache := (q.cache.apply op).1 }, .answer (q.cache.apply op).2)
  | .cacheBegin => .ok (q, .iterator (some q.cache.begin))
  | .cacheContinuation => .ok (q, .iterator (some q.cache.continuation))
  | .cacheEmpty => .ok (q, .flag q.cache.empty)
  | .cacheCount maxCount => .ok (q, .number (q.cache.count maxCount))
  | .close => q.close.map fun r => (r.1, .disposed r.2)

/-- The replies of the lists. -/
def replies (q : Mailbox A) : List (QueueMemory.Op A) → List (Reply A A) × Except Fault (Mailbox A)
  | [] => ([], .ok q)
  | op :: ops =>
    match q.reply op with
    | .error e => ([], .error e)
    | .ok (q, r) => (r :: (replies q ops).1, (replies q ops).2)

/-- Each call is made where it may be made. -/
def AcceptsAll (q : Mailbox A) : List (QueueMemory.Op A) → Prop
  | [] => True
  | op :: ops =>
    q.Accepts op ∧
      match q.reply op with
      | .error _ => True
      | .ok (q, _) => AcceptsAll q ops

end Mailbox

namespace QueueMemory

variable [DecidableEq A]

/-! ### One call -/

section Call

variable {m : QueueMemory A} {q : Mailbox A} {n : ℕ}

omit [DecidableEq A] in
/-- A reply made from a result. -/
theorem Agree.reply {β γ : Type*} {g : β → γ} {r : Except Stop (QueueMemory A × γ)}
    {r' : Except Fault (Mailbox A × β)} (h : Agree g r r') {k : γ → Reply A (Node A)}
    {k' : β → Reply A A} (hk : ∀ b, k (g b) = (k' b).map .elem) :
    Agree (Reply.map .elem) (r.map fun p => (p.1, k p.2)) (r'.map fun p => (p.1, k' p.2)) := by
  rcases h with ⟨e, rfl, rfl⟩ | ⟨m, q, b, rfl, rfl, h⟩
  · exact .inl ⟨e, rfl, rfl⟩
  · refine .inr ⟨m, q, k' b, ?_, rfl, h⟩
    rw [← hk b]
    rfl

omit [DecidableEq A] in
/-- An observer of the queue. -/
theorem Holds.observed (h : Holds m q) {δ : Type*} {x : Except Stop δ} {y : Except Fault δ}
    (hxy : (∃ b, x = .ok b ∧ y = .ok b) ∨ ∃ e, x = .error (.assertion e) ∧ y = .error e)
    {k : δ → Reply A (Node A)} {k' : δ → Reply A A} (hk : ∀ b, k b = (k' b).map .elem) :
    Agree (Reply.map .elem) (x.map fun b => (m, k b)) (y.map fun b => (q, k' b)) := by
  rcases hxy with ⟨b, rfl, rfl⟩ | ⟨e, rfl, rfl⟩
  · refine .inr ⟨m, q, k' b, ?_, rfl, h⟩
    rw [← hk b]
    rfl
  · exact .inl ⟨e, rfl, rfl⟩

/-- **One call** has the same reply. -/
theorem Holds.reply (h : Holds m q) {op : Op A} (ha : q.Accepts op) (hn : q.stored.length < n) :
    Agree (Reply.map .elem) (m.reply n op) (q.reply op) := by
  cases op with
  | enqueue x =>
    obtain ⟨hr, h'⟩ := h.enqueue ha
    have hd : m.enqueueDeletes x = q.enqueueDeletes x := by
      rw [enqueueDeletes, Mailbox.enqueueDeletes, h.top]
      cases q.stack with
      | list l => rw [Stack.isNull_top_list]; rfl
      | _ => rfl
    refine .inr ⟨_, _, .enqueued (q.enqueue x).2 (q.enqueueDeletes x), ?_, rfl, h'⟩
    rw [QueueMemory.reply, hr, hd]
    rfl
  | tryPop => exact (h.tryPop hn).reply fun _ => rfl
  | tryBlock =>
    obtain ⟨hr, h'⟩ := h.tryBlock
    exact .inr ⟨_, _, .flag q.tryBlock.2, by rw [QueueMemory.reply, hr]; rfl, rfl, h'⟩
  | tryUnblock =>
    obtain ⟨hr, h'⟩ := h.tryUnblock
    exact .inr ⟨_, _, .flag q.tryUnblock.2, by rw [QueueMemory.reply, hr]; rfl, rfl, h'⟩
  | count maxCount => exact (h.count hn maxCount).reply fun _ => rfl
  | peek => exact (h.peek hn).reply fun _ => rfl
  | peekAll => exact (h.peekAll hn).reply fun _ => rfl
  | canFetchMore => exact h.observed h.canFetchMore fun _ => rfl
  | empty => exact h.observed h.empty fun _ => rfl
  | closed =>
    refine .inr ⟨m, q, .flag q.stack.top.isNull, ?_, rfl, h⟩
    rw [QueueMemory.reply, h.closed]
    rfl
  | blocked =>
    refine .inr ⟨m, q, .flag q.isBlocked, ?_, rfl, h⟩
    rw [QueueMemory.reply, h.blocked]
    rfl
  | cacheBegin =>
    refine .inr ⟨m, q, .iterator (some q.cache.begin), ?_, rfl, h⟩
    rw [QueueMemory.reply, h.cacheBegin]
    rfl
  | cacheContinuation =>
    refine .inr ⟨m, q, .iterator (some q.cache.continuation), ?_, rfl, h⟩
    rw [QueueMemory.reply, h.cacheContinuation]
    rfl
  | cacheEmpty =>
    refine .inr ⟨m, q, .flag q.cache.empty, ?_, rfl, h⟩
    rw [QueueMemory.reply, h.cacheEmpty]
    rfl
  | cacheCount maxCount =>
    refine .inr ⟨m, q, .number (q.cache.count maxCount), ?_, rfl, h⟩
    rw [QueueMemory.reply, h.cacheCount hn]
    rfl
  | cache op =>
    obtain ⟨m', hm, h'⟩ := h.cacheCall ha.1 ha.2 hn
    exact .inr ⟨m', _, .answer (q.cache.apply op).2, by rw [QueueMemory.reply, hm]; rfl, rfl, h'⟩
  | close => exact (h.close hn).reply fun _ => rfl

/-- An operation on the cache brings at most one element along. -/
theorem length_apply {c : Cache A} {op : PartitionedList.Op A} (ha : c.Accepts op) (hn : c.elems.Nodup) :
    (c.apply op).1.elems.length ≤ c.elems.length + 1 := by
  cases op with
  | insert next val => exact (Cache.elems_insert ha.1 val).length_eq.le
  | take pos => exact Nat.le_succ_of_le (Cache.elems_take hn).1.length_le
  | erase pos => exact Nat.le_succ_of_le (Cache.elems_take hn).1.length_le
  | clear => exact Nat.zero_le _
  | write a next prev => exact Nat.le_succ _

omit [DecidableEq A] in
theorem of_map_ok {β : Type*} {q' : Mailbox A} {x : Except Fault (Mailbox A × β)} {k : β → Reply A A}
    {r : Reply A A} (h : x.map (fun p => (p.1, k p.2)) = .ok (q', r)) : ∃ b, x = .ok (q', b) := by
  cases x with
  | error e => cases h
  | ok p =>
    cases h
    exact ⟨p.2, rfl⟩

omit [DecidableEq A] in
theorem of_map_same {δ : Type*} {q' : Mailbox A} {x : Except Fault δ} {k : δ → Reply A A} {r : Reply A A}
    (h : x.map (fun b => (q, k b)) = .ok (q', r)) : q'.stored.length ≤ q.stored.length + 1 := by
  cases x with
  | error e => cases h
  | ok b =>
    cases h
    exact Nat.le_succ _

/-- A call puts at most one element into the queue. -/
theorem length_reply {q' : Mailbox A} {op : Op A} {r : Reply A A} (ha : q.Accepts op)
    (hnd : q.stored.Nodup) (h : q.reply op = .ok (q', r)) : q'.stored.length ≤ q.stored.length + 1 := by
  cases op with
  | enqueue x =>
    cases h
    exact (Mailbox.stored_enqueue q x).length_le
  | tryPop =>
    obtain ⟨b, hb⟩ := of_map_ok h
    exact Nat.le_succ_of_le (Mailbox.stored_tryPop hb).length_le
  | tryBlock =>
    cases h
    rw [Mailbox.stored_tryBlock]
    exact Nat.le_succ _
  | tryUnblock =>
    cases h
    rw [Mailbox.stored_tryUnblock]
    exact Nat.le_succ _
  | count maxCount =>
    obtain ⟨b, hb⟩ := of_map_ok h
    exact Nat.le_succ_of_le (Mailbox.stored_count hb).length_eq.le
  | peek =>
    obtain ⟨b, hb⟩ := of_map_ok h
    exact Nat.le_succ_of_le (Mailbox.stored_peek hb).length_eq.le
  | peekAll =>
    obtain ⟨b, hb⟩ := of_map_ok h
    rw [Mailbox.stored_peekAll hb]
    exact Nat.le_succ _
  | canFetchMore => exact of_map_same h
  | empty => exact of_map_same h
  | closed =>
    cases h
    exact Nat.le_succ _
  | blocked =>
    cases h
    exact Nat.le_succ _
  | cacheBegin =>
    cases h
    exact Nat.le_succ _
  | cacheContinuation =>
    cases h
    exact Nat.le_succ _
  | cacheEmpty =>
    cases h
    exact Nat.le_succ _
  | cacheCount maxCount =>
    cases h
    exact Nat.le_succ _
  | cache op =>
    cases h
    have hle := length_apply ha.1 (List.nodup_append.mp hnd).2.1
    change (q.waiting ++ (q.cache.apply op).1.elems).length ≤ (q.waiting ++ q.cache.elems).length + 1
    rw [List.length_append, List.length_append]
    omega
  | close =>
    obtain ⟨b, hb⟩ := of_map_ok h
    rw [Mailbox.stored_close hb]
    exact Nat.zero_le _

end Call

/-! ### Any calls -/

section Calls

variable {m : QueueMemory A} {q : Mailbox A} {n : ℕ}

/-- Both have stopped at the same assertion, or the links of the lists are left. -/
def Ends (r : Except Stop (QueueMemory A)) (r' : Except Fault (Mailbox A)) : Prop :=
  (∃ e, r = .error (.assertion e) ∧ r' = .error e) ∨ ∃ m q, r = .ok m ∧ r' = .ok q ∧ Holds m q

theorem Holds.replies (h : Holds m q) {ops : List (Op A)} (ha : q.AcceptsAll ops)
    (hn : q.stored.length + ops.length < n) :
    (m.replies n ops).1 = (q.replies ops).1.map (Reply.map .elem) ∧
      Ends (m.replies n ops).2 (q.replies ops).2 := by
  induction ops generalizing m q with
  | nil => exact ⟨rfl, .inr ⟨m, q, rfl, rfl, h⟩⟩
  | cons op ops ih =>
    rw [List.length_cons] at hn
    rw [QueueMemory.replies, Mailbox.replies]
    rw [Mailbox.AcceptsAll] at ha
    obtain ⟨hop, hrest⟩ := ha
    rcases h.reply hop (n := n) (by omega) with ⟨e, hm, hq⟩ | ⟨m', q', r, hm, hq, h'⟩
    · rw [hm, hq]
      exact ⟨rfl, .inl ⟨e, rfl, rfl⟩⟩
    · have hlen := length_reply hop h.nodup hq
      rw [hq] at hrest
      obtain ⟨hreplies, hends⟩ := ih h' hrest (by omega)
      rw [hm, hq]
      exact ⟨congrArg _ hreplies, hends⟩

/-- **The links refine the lists.** A queue is constructed in memory with any contents, and any calls are
made one after another: of its member functions, and on its cache; elements are enqueued or
inserted while they are not in the queue, and other code writes only to the fields of such. The links
give the replies that the lists give: the same pointers and numbers are returned, the same
elements are visited and deleted in the same order, and the same call is the first that stops. It
stops at the same assertion, and not because a null pointer is followed or a loop makes more tests
than there are calls. In the end the links are those of the lists. -/
theorem links_refine_lists (f : PartitionedList A) (ops : List (Op A))
    (ha : ({} : Mailbox A).AcceptsAll ops) (hn : ops.length < n) :
    ((construct f).replies n ops).1 = (({} : Mailbox A).replies ops).1.map (Reply.map .elem) ∧
      Ends ((construct f).replies n ops).2 (({} : Mailbox A).replies ops).2 :=
  (holds_construct f).replies ha (lt_of_eq_of_lt (Nat.zero_add _) hn)

/-- An element goes through the queue twice, and once through the cache; the queue is closed and
deletes another, and then it is to be popped from. -/
theorem links_refine_lists_twice :
    ((construct PartitionedList.blank).replies 11 [.enqueue 1, .tryPop, .cache (.insert .tail 1),
      .cacheContinuation, .count 4, .cache (.take 1), .enqueue 1, .close, .enqueue 2, .tryPop]) =
    ([.enqueued .success [], .element (some (.elem 1)), .answer ⟨some (.elem 1), []⟩,
      .iterator (some (.elem 1)), .number 1, .answer ⟨some (.elem 1), []⟩, .enqueued .success [],
      .disposed [.visit 1, .delete 1], .enqueued .queueClosed [.delete 2]],
      .error (.assertion .fetchClosed)) := by
  have h := links_refine_lists PartitionedList.blank [.enqueue 1, .tryPop, .cache (.insert .tail 1),
    .cacheContinuation, .count 4, .cache (.take 1), .enqueue 1, .close, .enqueue 2, .tryPop]
    ⟨by decide, trivial, by decide, trivial, trivial, by decide, by decide, trivial, by decide, trivial, trivial⟩
    (show 10 < 11 by decide)
  refine Prod.ext (h.1.trans rfl) ?_
  rcases h.2 with ⟨e, hm, hq⟩ | ⟨m, q, -, hq, -⟩
  · cases hq
    exact hm
  · cases hq

end Calls

end QueueMemory

end ActorsFramework.Detail
