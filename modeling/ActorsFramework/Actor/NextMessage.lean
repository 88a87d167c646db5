import ActorsFramework.Detail.SingleReaderQueue

/-!
# Taking messages off a mailbox

The functions by which `cooperative_actor` reads its mailbox: `next_message`,
`has_next_message`, `push_to_cache`. They take the priority test as a parameter;
`message::is_high_priority` is constantly false, and for such a test
`next_message` returns the oldest message and leaves all others in the first
part of the cache (`nextMessage_cons`).
-/

namespace ActorsFramework.Detail.Mailbox

variable {α : Type*}

/-- The `while` loop of `next_message`. The first part of the cache is cut in two at
`hp_pos`; a message of high priority goes before `hp_pos`, any other to the end. (Where
`hp_pos` is the end and the message is no such, `hp_pos` is moved back onto it.) -/
def fetchLoop (hp : α → Bool) : ℕ → List α → List α → Mailbox α → Except Fault (Mailbox α × List α)
  | 0, _, _, _ => .error .diverges
  | n + 1, before, after, q =>
    match q.tryPop with
    | .error e => .error e
    | .ok (q, none) => .ok (q, before ++ after)
    | .ok (q, some m) =>
      if hp m then fetchLoop hp n (before ++ [m]) after q
      else fetchLoop hp n before (after ++ [m]) q

/-- `next_message`'s `if`: unless a message of high priority is first, everything is
fetched to the first part of the cache. -/
def fetchAll (hp : α → Bool) (q : Mailbox α) : Except Fault (Mailbox α) :=
  if q.cache.first.head?.any hp then .ok q
  else match fetchLoop hp (q.waiting.length + 1) [] q.cache.first q with
    | .error e => .error e
    | .ok (q, l) => .ok { q with cache := { q.cache with first := l } }

/-- `next_message`. -/
def nextMessage (hp : α → Bool) (q : Mailbox α) : Except Fault (Mailbox α × Option α) :=
  match q.fetchAll hp with
  | .error e => .error e
  | .ok q =>
    match q.cache.first with
    | [] => .ok (q, none)
    | m :: ms => .ok ({ q with cache := { q.cache with first := ms } }, some m)

/-- `has_next_message`. -/
def hasNextMessage (q : Mailbox α) : Except Fault Bool :=
  if !q.cache.first.isEmpty then .ok true else q.canFetchMore

/-- `push_to_cache` of a message: to the end of the second part of the cache, one of high
priority to the end of those at its front. -/
def pushToCache (hp : α → Bool) (m : α) (q : Mailbox α) : Mailbox α :=
  let l := q.cache.second
  { q with cache := { q.cache with
      second := if hp m then l.takeWhile hp ++ m :: l.dropWhile hp else l ++ [m] } }

/-- A run's `do`-`while` loop: the next message, or else the queue is blocked. When
`try_block` fails too the loop begins again, with no other thread in the same state. -/
def awaitMessage (hp : α → Bool) (q : Mailbox α) : Except Fault (Mailbox α × Option α) :=
  match q.nextMessage hp with
  | .error e => .error e
  | .ok (q, some m) => .ok (q, some m)
  | .ok (q, none) =>
    match q.tryBlock with
    | (q, true) => .ok (q, none)
    | (_, false) => .error .diverges

/-- Everything in the first part of the cache. -/
def fetched (q : Mailbox α) (l : List α) : Mailbox α :=
  { stack := .list [], head := [], cache := { q.cache with first := l } }

@[simp] theorem waiting_fetched (q : Mailbox α) (l : List α) : (q.fetched l).waiting = [] := rfl
@[simp] theorem contents_fetched (q : Mailbox α) (l : List α) : (q.fetched l).contents = l := by
  simp [contents, fetched, waiting]
@[simp] theorem cache_fetched (q : Mailbox α) (l : List α) :
    (q.fetched l).cache = { q.cache with first := l } := rfl
theorem open_fetched (q : Mailbox α) (l : List α) : (q.fetched l).Open := ⟨[], rfl⟩

/-- Without priorities the loop appends what is waiting. -/
theorem fetchLoop_eq {hp : α → Bool} (hhp : ∀ m, hp m = false) {n : ℕ} {l : List α} {q : Mailbox α}
    (ho : q.Open) (hn : q.waiting.length < n) :
    fetchLoop hp n [] l q =
      .ok ({ stack := .list [], head := [], cache := q.cache }, l ++ q.waiting) := by
  induction n generalizing l q with
  | zero => cases hn
  | succ n ih =>
    cases hw : q.waiting with
    | nil =>
      obtain ⟨hp, hs, hh⟩ := tryPop_nil ho hw
      obtain ⟨stack, head, cache⟩ := q
      obtain ⟨rfl, rfl⟩ : stack = .list [] ∧ head = [] := ⟨hs, hh⟩
      simp [fetchLoop, hp]
    | cons m w =>
      obtain ⟨q', hpop, ho', hw', hc'⟩ := tryPop_cons ho hw
      have hlt : q'.waiting.length < n := by
        rw [hw] at hn
        rw [hw']
        simpa using hn
      simp only [fetchLoop, hpop, hhp]
      rw [if_neg (by simp), ih ho' hlt, hw', hc', List.append_assoc]
      rfl

/-- Without priorities `next_message` fetches everything there is. -/
theorem fetchAll_eq {hp : α → Bool} (hhp : ∀ m, hp m = false) {q : Mailbox α} (ho : q.Open) :
    q.fetchAll hp = .ok (q.fetched q.contents) := by
  have hf : q.cache.first.head?.any hp = false := by
    cases q.cache.first <;> simp [hhp]
  rw [fetchAll, if_neg (by simp [hf]), fetchLoop_eq hhp ho (Nat.lt_succ_self _)]
  rfl

/-- `next_message` returns the oldest message. -/
theorem nextMessage_cons {hp : α → Bool} (hhp : ∀ m, hp m = false) {q : Mailbox α} (ho : q.Open)
    {m : α} {l : List α} (hc : q.contents = m :: l) :
    q.nextMessage hp = .ok (q.fetched l, some m) := by
  rw [nextMessage, fetchAll_eq hhp ho, hc]
  rfl

/-- `next_message` returns null where there is none. -/
theorem nextMessage_nil {hp : α → Bool} (hhp : ∀ m, hp m = false) {q : Mailbox α} (ho : q.Open)
    (hc : q.contents = []) : q.nextMessage hp = .ok (q.fetched [], none) := by
  rw [nextMessage, fetchAll_eq hhp ho, hc]
  rfl

theorem awaitMessage_cons {hp : α → Bool} (hhp : ∀ m, hp m = false) {q : Mailbox α} (ho : q.Open)
    {m : α} {l : List α} (hc : q.contents = m :: l) :
    q.awaitMessage hp = .ok (q.fetched l, some m) := by
  rw [awaitMessage, nextMessage_cons hhp ho hc]

/-- With nothing to read the queue is blocked at once. -/
theorem awaitMessage_nil {hp : α → Bool} (hhp : ∀ m, hp m = false) {q : Mailbox α} (ho : q.Open)
    (hc : q.contents = []) :
    q.awaitMessage hp = .ok ({ q.fetched [] with stack := .blocked }, none) := by
  rw [awaitMessage, nextMessage_nil hhp ho hc]
  rfl

theorem hasNextMessage_open {q : Mailbox α} (ho : q.Open) :
    q.hasNextMessage = .ok !q.contents.isEmpty := by
  unfold hasNextMessage
  rw [canFetchMore_open ho]
  unfold contents
  cases q.cache.first <;> rfl

/-- An open queue becomes blocked or stays as it is. -/
theorem tryBlock_fst (q : Mailbox α) :
    q.tryBlock.1 = q ∨ q.stack = .list [] ∧ q.tryBlock.1 = { q with stack := .blocked } := by
  obtain ⟨stack, head, cache⟩ := q
  cases stack with
  | closed => exact .inl rfl
  | blocked => exact .inl rfl
  | list l =>
    cases l with
    | nil => exact .inr ⟨rfl, rfl⟩
    | cons x l => exact .inl rfl

/-- `try_block` succeeds on an empty stack. -/
theorem of_tryBlock_true {q q' : Mailbox α} (h : q.tryBlock = (q', true)) :
    q.stack = .list [] ∧ q' = { q with stack := .blocked } := by
  unfold tryBlock at h
  split at h
  next hs => cases h; exact ⟨hs, rfl⟩
  next => cases h

/-- Where `try_block` fails it changes nothing. -/
theorem of_tryBlock_false {q q' : Mailbox α} (h : q.tryBlock = (q', false)) : q' = q := by
  unfold tryBlock at h
  split at h
  · cases h
  · cases h; rfl

/-- `has_next_message` fails on a closed queue only. -/
theorem of_hasNextMessage_error {q : Mailbox α} {f : Fault} (h : q.hasNextMessage = .error f) :
    f = .fetchClosed ∧ q.stack = .closed := by
  unfold hasNextMessage canFetchMore at h
  split_ifs at h with _ _ hn
  cases h
  refine ⟨rfl, ?_⟩
  cases hs : q.stack with
  | closed => rfl
  | blocked => rw [hs] at hn; cases hn
  | list l => rw [hs] at hn; cases l <;> cases hn

/-- After a push `try_block` fails. -/
theorem tryBlock_enqueue {q : Mailbox α} (h : q.stack ≠ .closed) (x : α) :
    (q.enqueue x).1.tryBlock = ((q.enqueue x).1, false) := by
  obtain ⟨stack, head, cache⟩ := q
  cases stack with
  | closed => exact absurd rfl h
  | blocked => rfl
  | list l => rfl

/-- `try_unblock` opens the queue and keeps what is in it. -/
theorem open_tryUnblock {q : Mailbox α} (h : q.stack ≠ .closed) : q.tryUnblock.1.Open := by
  obtain ⟨stack, head, cache⟩ := q
  cases stack with
  | closed => exact absurd rfl h
  | blocked => exact ⟨[], rfl⟩
  | list l => exact ⟨l, rfl⟩

theorem waiting_tryUnblock (q : Mailbox α) : q.tryUnblock.1.waiting = q.waiting := by
  obtain ⟨stack, head, cache⟩ := q
  cases stack <;> rfl

theorem head_tryUnblock (q : Mailbox α) : q.tryUnblock.1.head = q.head := by
  obtain ⟨stack, head, cache⟩ := q
  cases stack <;> rfl

theorem elems_tryUnblock (q : Mailbox α) : q.tryUnblock.1.stack.elems = q.stack.elems := by
  obtain ⟨stack, head, cache⟩ := q
  cases stack <;> rfl

theorem cache_tryUnblock (q : Mailbox α) : q.tryUnblock.1.cache = q.cache := by
  obtain ⟨stack, head, cache⟩ := q
  cases stack <;> rfl

/-- An open mailbox with nothing in it is as it was made. -/
theorem eq_empty {q : Mailbox α} (ho : q.Open) (hc : q.contents = []) (hs : q.cache.second = []) :
    q = {} := by
  obtain ⟨stack, head, first, second⟩ := q
  obtain ⟨l, rfl⟩ : ∃ l, stack = .list l := ho
  obtain ⟨rfl, rfl, rfl⟩ : first = [] ∧ head = [] ∧ l = [] := by
    simpa [contents, waiting] using hc
  obtain rfl : second = [] := hs
  rfl

end ActorsFramework.Detail.Mailbox
