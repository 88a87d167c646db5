import Mathlib.Data.List.Nodup
import Mathlib.Data.List.Perm.Subperm
import ActorsFramework.Lib.Transition
import ActorsFramework.Detail.SingleReaderQueue

/-!
# What the reader does besides popping

The remaining operations of `detail::single_reader_queue` and of the cache in it:
`count`, `peek`, `peek_all` and `close`, the insertions into the cache and the
removals from it. All of them are the reader's, and each is taken as a whole;
only `enqueue` belongs to other threads.

`system` lets reader and producers call the operations in any order. An element
is its address, so an object that is handed to the queue is not one the queue
already stores; `reachable_nodup` says that the queue then never holds an object
at two places.
-/

namespace ActorsFramework.Detail

variable {α : Type*}

/-- What happens to an element that is disposed of. -/
inductive Event (α : Type*) where
  /-- `f` is applied to it. -/
  | visit (x : α)
  /-- It is deleted. -/
  | delete (x : α)
  deriving DecidableEq

/-- The loop of `clear_cached_elements`, and of `intrusive_partitioned_list::clear` for each
of its ranges: visit an element, then delete it. -/
def clearElements : List α → List (Event α)
  | [] => []
  | x :: l => .visit x :: .delete x :: clearElements l

theorem clearElements_append (l l' : List α) :
    clearElements (l ++ l') = clearElements l ++ clearElements l' := by
  induction l with
  | nil => rfl
  | cons x l ih => rw [List.cons_append, clearElements, ih, clearElements]; rfl

namespace Cache

/-- `intrusive_partitioned_list::count`'s loop over one range: the result so far, and whether
the function has returned. -/
def countRange (maxCount : ℕ) : List α → ℕ → ℕ × Bool
  | [], result => (result, false)
  | _ :: l, result =>
    if result + 1 = maxCount then (maxCount, true) else countRange maxCount l (result + 1)

/-- `intrusive_partitioned_list::count`. -/
def count (c : Cache α) (maxCount : ℕ) : ℕ :=
  match countRange maxCount c.first 0 with
  | (result, true) => result
  | (result, false) => (countRange maxCount c.second result).1

/-- `intrusive_partitioned_list::clear`: what it does to the elements of both ranges. -/
def clear (c : Cache α) : Cache α × List (Event α) :=
  ({}, clearElements c.first ++ clearElements c.second)

/-- `insert`, in front of the `i`-th element of the first part or of the separator. -/
def insertFirst (c : Cache α) (i : ℕ) (x : α) : Cache α := { c with first := c.first.insertIdx i x }

/-- `insert`, in front of the `i`-th element of the second part or of its end. -/
def insertSecond (c : Cache α) (i : ℕ) (x : α) : Cache α :=
  { c with second := c.second.insertIdx i x }

/-- `take`. -/
def take [DecidableEq α] (c : Cache α) (x : α) : Cache α := ⟨c.first.erase x, c.second.erase x⟩

theorem countRange_eq (maxCount : ℕ) (l : List α) (result : ℕ) :
    countRange maxCount l result =
      if result < maxCount ∧ maxCount ≤ result + l.length then (maxCount, true)
      else (result + l.length, false) := by
  induction l generalizing result with
  | nil => rw [countRange, if_neg (by simp only [List.length_nil]; omega)]; rfl
  | cons x l ih =>
    rw [countRange, ih, List.length_cons]
    split_ifs <;> first | rfl | omega | (congr 1; omega)

/-- `count` stops early only where the bound is positive and reached. -/
theorem count_eq (c : Cache α) (maxCount : ℕ) :
    c.count maxCount =
      if 0 < maxCount ∧ maxCount ≤ c.first.length + c.second.length then maxCount
      else c.first.length + c.second.length := by
  unfold count
  rw [countRange_eq]
  by_cases h : 0 < maxCount ∧ maxCount ≤ 0 + c.first.length
  · rw [if_pos h, if_pos (by omega)]
  · rw [if_neg h]
    simp only [countRange_eq]
    split_ifs <;> first | rfl | omega

/-- `count` answers at once where the cache alone has as many elements as asked for. -/
theorem le_count_iff (c : Cache α) (maxCount : ℕ) :
    maxCount ≤ c.count maxCount ↔ maxCount ≤ c.first.length + c.second.length := by
  rw [count_eq]
  split_ifs <;> omega

end Cache

namespace Mailbox

/-- `closed`. -/
def closed (q : Mailbox α) : Bool := q.stack.top.isNull

/-- What `enqueue` deletes: the new element, if the queue has been closed. -/
def enqueueDeletes (q : Mailbox α) (x : α) : List (Event α) :=
  match q.stack with
  | .closed => [.delete x]
  | _ => []

/-- `fetch_new_data(nullptr)`: close the queue and move the elements of `stack_` to `head_`. -/
def fetchNewDataNull (q : Mailbox α) : Except Fault (Mailbox α × Bool) :=
  match q.stack with
  | .closed => .error .fetchClosed
  | .blocked => .error .fetchBlocked
  | .list [] => .ok ({ q with stack := .closed }, false)
  | .list (e :: es) => .ok ({ q with stack := .closed, head := relink (e :: es) q.head }, true)

/-- `clear_cached_elements`, which despite its name clears `head_`. -/
def clearCachedElements (q : Mailbox α) : Mailbox α × List (Event α) :=
  ({ q with head := [] }, clearElements q.head)

/-- `close(f)`: what it does to the elements is recorded. -/
def close (q : Mailbox α) : Except Fault (Mailbox α × List (Event α)) :=
  let (q, log) := q.clearCachedElements
  let fetched := if q.isBlocked then .ok (q, false) else q.fetchNewDataNull
  match fetched with
  | .error e => .error e
  | .ok (q, more) =>
    let (q, log') := if more then q.clearCachedElements else (q, [])
    let (cache, log'') := q.cache.clear
    .ok ({ q with cache := cache }, log ++ log' ++ log'')

/-- `count`'s loop over `head_`. -/
def countHead (maxCount : ℕ) : List α → ℕ → ℕ
  | [], res => res
  | _ :: ptr, res => if res < maxCount then countHead maxCount ptr (res + 1) else res

/-- `count`. -/
def count (q : Mailbox α) (maxCount : ℕ) : Except Fault (Mailbox α × ℕ) :=
  let res := q.cache.count maxCount
  if maxCount ≤ res then .ok (q, res)
  else
    match q.fetchNewData with
    | .error e => .error e
    | .ok (q, _) => .ok (q, countHead maxCount q.head res)

/-- `peek`. -/
def peek (q : Mailbox α) : Except Fault (Mailbox α × Option α) :=
  if !q.head.isEmpty then .ok (q, q.head.head?)
  else
    match q.fetchNewData with
    | .error e => .error e
    | .ok (q, false) => .ok (q, none)
    | .ok (q, true) => .ok (q, q.head.head?)

/-- `peek_all`, with the elements that `fun` is called on, in order. -/
def peekAll (q : Mailbox α) : Except Fault (Mailbox α × List α) :=
  let cached := q.cache.first ++ q.cache.second
  if q.head.isEmpty then
    match q.fetchNewData with
    | .error e => .error e
    | .ok (q, _) => .ok (q, cached ++ q.head)
  else if !q.stack.top.isDummy then
    -- `head_` is reset before the fetch and put in front of the new elements afterwards
    match fetchNewData { q with head := [] } with
    | .error e => .error e
    | .ok (q', _) => .ok ({ q' with head := q.head ++ q'.head }, cached ++ (q.head ++ q'.head))
  else .ok (q, cached ++ q.head)

/-- The elements the queue stores, in the order in which `close` comes by them. -/
def stored (q : Mailbox α) : List α := q.waiting ++ (q.cache.first ++ q.cache.second)

theorem length_stored (q : Mailbox α) :
    q.stored.length = q.waiting.length + (q.cache.first.length + q.cache.second.length) := by
  rw [stored, List.length_append, List.length_append]

theorem length_waiting (q : Mailbox α) : q.waiting.length = q.head.length + q.stack.elems.length := by
  rw [waiting, List.length_append, List.length_reverse]

theorem length_head_le (q : Mailbox α) : q.head.length ≤ q.stored.length := by
  rw [length_stored, length_waiting]
  omega

/-! ### The operations in any order -/

/-- A call of one of the queue's member functions, or of its cache's. -/
inductive Op (α : Type*) where
  /-- `enqueue`. -/
  | enqueue (x : α)
  /-- `try_pop`. -/
  | tryPop
  /-- `try_block`. -/
  | tryBlock
  /-- `try_unblock`. -/
  | tryUnblock
  /-- `count`. -/
  | count (maxCount : ℕ)
  /-- `peek`. -/
  | peek
  /-- `peek_all`. -/
  | peekAll
  /-- `cache().insert` into the first part. -/
  | insertFirst (i : ℕ) (x : α)
  /-- `cache().insert` into the second part. -/
  | insertSecond (i : ℕ) (x : α)
  /-- `cache().take`. -/
  | take (x : α)
  /-- `close`. -/
  | close
  deriving DecidableEq

/-- The queue after a call that returns. -/
def call [DecidableEq α] (q : Mailbox α) : Op α → Except Fault (Mailbox α)
  | .enqueue x => .ok (q.enqueue x).1
  | .tryPop => q.tryPop.map Prod.fst
  | .tryBlock => .ok q.tryBlock.1
  | .tryUnblock => .ok q.tryUnblock.1
  | .count m => (q.count m).map Prod.fst
  | .peek => q.peek.map Prod.fst
  | .peekAll => q.peekAll.map Prod.fst
  | .insertFirst i x => .ok { q with cache := q.cache.insertFirst i x }
  | .insertSecond i x => .ok { q with cache := q.cache.insertSecond i x }
  | .take x => .ok { q with cache := q.cache.take x }
  | .close => q.close.map Prod.fst

/-- The object a call hands to the queue. -/
def Op.handed : Op α → List α
  | .enqueue x | .insertFirst _ x | .insertSecond _ x => [x]
  | _ => []

/-- Calls by the reader and by producers, in any order, until one of them faults. An object
handed to the queue is not already in it. -/
def system (α : Type*) [DecidableEq α] : Lib.System (Mailbox α) (Op α) where
  Init q := q = {}
  step q op :=
    if ∀ x ∈ op.handed, x ∉ q.stored then
      match q.call op with
      | .error _ => none
      | .ok q' => some q'
    else none

theorem map_ok {β γ : Type*} {f : β → γ} {r : Except Fault β} {c : γ} (h : r.map f = .ok c) :
    ∃ b, r = .ok b ∧ f b = c := by
  cases r with
  | error e => cases h
  | ok b => exact ⟨b, rfl, Except.ok.inj h⟩

theorem system_step [DecidableEq α] {q q' : Mailbox α} {op : Op α}
    (h : (system α).step q op = some q') :
    (∀ x ∈ op.handed, x ∉ q.stored) ∧ q.call op = .ok q' := by
  simp only [system] at h
  split at h
  next hf =>
    cases hc : q.call op with
    | error e => rw [hc] at h; cases h
    | ok q₁ =>
      rw [hc] at h
      cases h
      exact ⟨hf, rfl⟩
  next => cases h

/-! ### What a call does to the stored elements -/

/-- `fetch_new_data` on an open queue moves everything on `stack_` in front of `head_`. -/
theorem fetchNewData_list {q : Mailbox α} {l : List α} (h : q.stack = .list l) :
    q.fetchNewData = .ok (⟨.list [], l.reverse ++ q.head, q.cache⟩, !l.isEmpty) := by
  obtain ⟨stack, head, cache⟩ := q
  subst h
  cases l with
  | nil => rfl
  | cons e es => simp only [fetchNewData, relink_eq]; rfl

theorem fetchNewData_ok {q q' : Mailbox α} {b : Bool} (h : q.fetchNewData = .ok (q', b)) :
    ∃ l, q.stack = .list l ∧ q' = ⟨.list [], l.reverse ++ q.head, q.cache⟩ := by
  cases hs : q.stack with
  | closed => rw [fetchNewData, hs] at h; cases h
  | blocked => rw [fetchNewData, hs] at h; cases h
  | list l =>
    rw [fetchNewData_list hs] at h
    cases h
    exact ⟨l, rfl, rfl⟩

theorem fetchNewDataNull_list {q : Mailbox α} {l : List α} (h : q.stack = .list l) :
    q.fetchNewDataNull = .ok (⟨.closed, l.reverse ++ q.head, q.cache⟩, !l.isEmpty) := by
  obtain ⟨stack, head, cache⟩ := q
  subst h
  cases l with
  | nil => rfl
  | cons e es => simp only [fetchNewDataNull, relink_eq]; rfl

/-- A fetch moves elements and neither adds nor loses one. -/
theorem stored_fetchNewData {q q' : Mailbox α} {b : Bool} (h : q.fetchNewData = .ok (q', b)) :
    q'.stored.Perm q.stored := by
  obtain ⟨l, hs, rfl⟩ := fetchNewData_ok h
  simp only [stored, waiting, hs, Stack.elems_list, List.reverse_nil, List.append_nil]
  exact List.perm_append_comm.append_right _

theorem stored_enqueue (q : Mailbox α) (x : α) : (q.enqueue x).1.stored.Subperm (x :: q.stored) := by
  by_cases h : q.stack = .closed
  · have he : (q.enqueue x).1 = q := by unfold enqueue; rw [h]
    rw [he]
    exact (List.sublist_cons_self _ _).subperm
  · rw [stored, waiting_enqueue h, cache_enqueue, List.append_assoc]
    exact List.perm_middle.subperm

theorem stored_popHead {q q' : Mailbox α} {r : Option α} (h : q.popHead = .ok (q', r)) :
    q'.stored.Sublist q.stored := by
  obtain ⟨stack, head, cache⟩ := q
  cases head with
  | nil => cases h
  | cons y head =>
    cases h
    exact List.sublist_cons_self _ _

theorem stored_tryPop {q q' : Mailbox α} {r : Option α} (h : q.tryPop = .ok (q', r)) :
    q'.stored.Subperm q.stored := by
  unfold tryPop at h
  split at h
  next =>
    cases hf : q.fetchNewData with
    | error e => rw [hf] at h; cases h
    | ok p =>
      obtain ⟨q₁, b⟩ := p
      rw [hf] at h
      cases b with
      | false => cases h; exact (stored_fetchNewData hf).subperm
      | true => exact (stored_popHead h).subperm.trans (stored_fetchNewData hf).subperm
  next => exact (stored_popHead h).subperm

theorem stored_tryBlock (q : Mailbox α) : q.tryBlock.1.stored = q.stored := by
  unfold tryBlock
  split
  next h => simp [stored, waiting, h]
  next => rfl

theorem stored_tryUnblock (q : Mailbox α) : q.tryUnblock.1.stored = q.stored := by
  unfold tryUnblock
  split
  next h => simp [stored, waiting, h]
  next => rfl

theorem stored_count {q q' : Mailbox α} {m n : ℕ} (h : q.count m = .ok (q', n)) :
    q'.stored.Perm q.stored := by
  simp only [count] at h
  split_ifs at h
  next => cases h; exact .refl _
  next =>
    cases hf : q.fetchNewData with
    | error e => rw [hf] at h; cases h
    | ok p => rw [hf] at h; cases h; exact stored_fetchNewData hf

theorem stored_peek {q q' : Mailbox α} {r : Option α} (h : q.peek = .ok (q', r)) :
    q'.stored.Perm q.stored := by
  unfold peek at h
  split at h
  next => cases h; exact .refl _
  next =>
    cases hf : q.fetchNewData with
    | error e => rw [hf] at h; cases h
    | ok p =>
      obtain ⟨q₁, b⟩ := p
      rw [hf] at h
      cases b <;> cases h <;> exact stored_fetchNewData hf

/-- `peek_all` on an open queue moves the new elements behind those of `head_`. -/
theorem peekAll_list {q : Mailbox α} {l : List α} (h : q.stack = .list l) :
    q.peekAll = .ok (⟨.list [], q.waiting, q.cache⟩, q.cache.first ++ q.cache.second ++ q.waiting) := by
  obtain ⟨stack, head, cache⟩ := q
  subst h
  cases head with
  | nil =>
    simp only [peekAll, List.isEmpty_nil, if_pos, fetchNewData_list (q := ⟨.list l, [], cache⟩) rfl]
    simp [waiting]
  | cons y head =>
    cases l with
    | nil => simp [peekAll, waiting, Ptr.isDummy]
    | cons e es =>
      have hf := fetchNewData_list (q := ⟨.list (e :: es), [], cache⟩) rfl
      simp only [List.append_nil] at hf
      simp only [peekAll, List.isEmpty_cons, Stack.top_cons, Ptr.isDummy, hf]
      simp [waiting]

theorem stored_peekAll {q q' : Mailbox α} {l : List α} (h : q.peekAll = .ok (q', l)) :
    q'.stored = q.stored := by
  cases hs : q.stack with
  | list l =>
    rw [peekAll_list hs] at h
    cases h
    simp [stored, waiting]
  | closed =>
    obtain ⟨stack, head, cache⟩ := q
    subst hs
    cases head <;> cases h
  | blocked =>
    obtain ⟨stack, head, cache⟩ := q
    subst hs
    cases head <;> cases h
    rfl

theorem stored_insertFirst (q : Mailbox α) (i : ℕ) (x : α) :
    stored { q with cache := q.cache.insertFirst i x } |>.Subperm (x :: q.stored) := by
  by_cases hi : i ≤ q.cache.first.length
  · have h := (List.perm_insertIdx x q.cache.first hi).append_right q.cache.second
    exact ((h.append_left q.waiting).trans List.perm_middle).subperm
  · have h : q.cache.first.insertIdx i x = q.cache.first :=
      List.insertIdx_of_length_lt (by omega)
    simp only [stored, Cache.insertFirst, h]
    exact (List.sublist_cons_self _ _).subperm

theorem stored_insertSecond (q : Mailbox α) (i : ℕ) (x : α) :
    stored { q with cache := q.cache.insertSecond i x } |>.Subperm (x :: q.stored) := by
  have hmid : (q.waiting ++ (q.cache.first ++ x :: q.cache.second)).Perm (x :: q.stored) := by
    rw [stored, ← List.append_assoc, ← List.append_assoc]
    exact List.perm_middle
  by_cases hi : i ≤ q.cache.second.length
  · have h := (List.perm_insertIdx x q.cache.second hi).append_left q.cache.first
    exact ((h.append_left q.waiting).trans hmid).subperm
  · have h : q.cache.second.insertIdx i x = q.cache.second :=
      List.insertIdx_of_length_lt (by omega)
    simp only [stored, Cache.insertSecond, h]
    exact (List.sublist_cons_self _ _).subperm

theorem stored_take [DecidableEq α] (q : Mailbox α) (x : α) :
    stored { q with cache := q.cache.take x } |>.Sublist q.stored :=
  (List.Sublist.refl _).append (List.erase_sublist.append List.erase_sublist)

/-- **`close` on an open queue**: every stored element is disposed of, in order, nothing
is left, and the queue is closed. -/
theorem close_list {q : Mailbox α} {l : List α} (h : q.stack = .list l) :
    q.close = .ok (⟨.closed, [], {}⟩, clearElements q.stored) := by
  obtain ⟨stack, head, cache⟩ := q
  subst h
  have hf := fetchNewDataNull_list (q := ⟨.list l, [], cache⟩) rfl
  simp only [List.append_nil] at hf
  simp only [close, clearCachedElements, isBlocked, hf, stored, waiting, clearElements_append]
  cases l with
  | nil => simp [Cache.clear, clearElements]
  | cons e es => simp [Cache.clear, clearElements_append]

/-- `close` on a blocked queue disposes of the elements just so, but leaves the queue
blocked. -/
theorem close_blocked {q : Mailbox α} (h : q.stack = .blocked) :
    q.close = .ok (⟨.blocked, [], {}⟩, clearElements q.stored) := by
  obtain ⟨stack, head, cache⟩ := q
  subst h
  simp [close, clearCachedElements, isBlocked, stored, waiting, Cache.clear, clearElements_append]

/-- On a closed queue `close` stops at an assertion. -/
theorem close_closed {q : Mailbox α} (h : q.stack = .closed) : q.close = .error .fetchClosed := by
  obtain ⟨stack, head, cache⟩ := q
  subst h
  rfl

theorem stored_close {q q' : Mailbox α} {log : List (Event α)} (h : q.close = .ok (q', log)) :
    q'.stored = [] := by
  cases hs : q.stack with
  | closed => rw [close_closed hs] at h; cases h
  | blocked => rw [close_blocked hs] at h; cases h; rfl
  | list l => rw [close_list hs] at h; cases h; rfl

/-! ### No object at two places -/

/-- What a call leaves in the queue was there before or handed to it. -/
theorem stored_call [DecidableEq α] {q q' : Mailbox α} {op : Op α} (h : q.call op = .ok q') :
    q'.stored.Subperm (op.handed ++ q.stored) := by
  cases op with
  | enqueue x => cases h; exact stored_enqueue q x
  | tryBlock => cases h; exact (stored_tryBlock q).symm ▸ List.Subperm.refl _
  | tryUnblock => cases h; exact (stored_tryUnblock q).symm ▸ List.Subperm.refl _
  | insertFirst i x => cases h; exact stored_insertFirst q i x
  | insertSecond i x => cases h; exact stored_insertSecond q i x
  | take x => cases h; exact (stored_take q x).subperm
  | tryPop =>
    obtain ⟨⟨q₁, r⟩, hr, rfl⟩ := map_ok h
    exact stored_tryPop hr
  | count m =>
    obtain ⟨⟨q₁, n⟩, hr, rfl⟩ := map_ok h
    exact (stored_count hr).subperm
  | peek =>
    obtain ⟨⟨q₁, r⟩, hr, rfl⟩ := map_ok h
    exact (stored_peek hr).subperm
  | peekAll =>
    obtain ⟨⟨q₁, l⟩, hr, rfl⟩ := map_ok h
    exact (stored_peekAll hr).symm ▸ List.Subperm.refl _
  | close =>
    obtain ⟨⟨q₁, log⟩, hr, rfl⟩ := map_ok h
    exact (stored_close hr).symm ▸ List.nil_subperm

theorem nodup_handed_append {q : Mailbox α} {op : Op α} (hn : q.stored.Nodup)
    (hf : ∀ x ∈ op.handed, x ∉ q.stored) : (op.handed ++ q.stored).Nodup := by
  cases op with
  | enqueue x => exact List.nodup_cons.mpr ⟨hf x (List.mem_singleton.mpr rfl), hn⟩
  | insertFirst i x => exact List.nodup_cons.mpr ⟨hf x (List.mem_singleton.mpr rfl), hn⟩
  | insertSecond i x => exact List.nodup_cons.mpr ⟨hf x (List.mem_singleton.mpr rfl), hn⟩
  | _ => exact hn

/-- In every reachable state no object is stored at two places. -/
theorem reachable_nodup [DecidableEq α] {q : Mailbox α} (h : (system α).Reachable q) :
    q.stored.Nodup := by
  refine Lib.System.Reachable.invariant (I := fun q => q.stored.Nodup) ?_ ?_ h
  · rintro q rfl
    exact List.nodup_nil
  · intro q op q' hn hs
    obtain ⟨hf, hc⟩ := system_step hs
    obtain ⟨l, hl, hsub⟩ := stored_call hc
    exact hl.nodup_iff.mp ((nodup_handed_append hn hf).sublist hsub)

/-- A closed queue stays closed, whatever is called. -/
theorem call_closed [DecidableEq α] {q q' : Mailbox α} {op : Op α} (hq : q.stack = .closed)
    (h : q.call op = .ok q') : q'.stack = .closed := by
  obtain ⟨stack, head, cache⟩ := q
  subst hq
  cases op with
  | tryPop => cases head <;> cases h; rfl
  | count m =>
    simp only [call, count, fetchNewData] at h
    split_ifs at h <;> cases h; rfl
  | peek => cases head <;> cases h; rfl
  | peekAll => cases head <;> cases h
  | close => cases h
  | _ => cases h; rfl

end Mailbox

end ActorsFramework.Detail
