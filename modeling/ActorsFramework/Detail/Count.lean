import ActorsFramework.Detail.QueueMemory

/-!
# Counting the elements of the queue

`count` fetches what is on `stack_` so as to count it. `fetch_new_data` puts the
new elements in front of what `head_` still holds, so a `count` between two
`try_pop`s can let younger elements overtake older ones. `peek_all` takes care
of just that (`waiting_peekAll`) and `count` does not.

`count_iff` says on which queues `count` leaves the order alone: where the cache
alone has as many elements as asked for, where `head_` is null, and where
`stack_` has nothing to fetch.

What it returns is the number of stored elements up to `max_count`. Only when
nothing at all is asked for does it matter where they are: the loops over the cache
test whether `max_count` has been reached after counting an element, so that zero is
never met, and the loop over `head_` tests before (`count_value_iff`).
-/

namespace ActorsFramework.Detail.Mailbox

open Lib

variable {α : Type*}

/-- A call that bears on what `try_pop` returns. -/
inductive Later (α : Type*) where
  /-- `try_pop`. -/
  | tryPop
  /-- `enqueue`. -/
  | enqueue (x : α)
  deriving DecidableEq

/-- What the `try_pop`s among the later calls return. -/
def pops (q : Mailbox α) : List (Later α) → Except Fault (List (Option α))
  | [] => .ok []
  | .enqueue x :: ops => pops (q.enqueue x).1 ops
  | .tryPop :: ops =>
    match q.tryPop with
    | .error e => .error e
    | .ok (q', r) => (pops q' ops).map (r :: ·)

/-- **`try_pop` depends only on the waiting elements**, so two open queues with the same
elements in the same order return the same whatever is called. -/
theorem pops_congr {q₁ q₂ : Mailbox α} (h₁ : q₁.Open) (h₂ : q₂.Open)
    (h : q₁.waiting = q₂.waiting) (ops : List (Later α)) : q₁.pops ops = q₂.pops ops := by
  induction ops generalizing q₁ q₂ with
  | nil => rfl
  | cons op ops ih =>
    cases op with
    | enqueue x =>
      apply ih (open_enqueue h₁.ne_closed x) (open_enqueue h₂.ne_closed x)
      rw [waiting_enqueue h₁.ne_closed, waiting_enqueue h₂.ne_closed, h]
    | tryPop =>
      unfold pops
      cases hw : q₁.waiting with
      | nil =>
        rw [(tryPop_nil h₁ hw).1, (tryPop_nil h₂ (h ▸ hw)).1]
        show (pops q₁ ops).map _ = (pops q₂ ops).map _
        rw [ih h₁ h₂ h]
      | cons x w =>
        obtain ⟨q₁', e₁, o₁, w₁, -⟩ := tryPop_cons h₁ hw
        obtain ⟨q₂', e₂, o₂, w₂, -⟩ := tryPop_cons h₂ (h ▸ hw)
        rw [e₁, e₂]
        show (pops q₁' ops).map _ = (pops q₂' ops).map _
        rw [ih o₁ o₂ (w₁.trans w₂.symm)]

/-- The first `try_pop` tells two queues apart whose first waiting elements differ. -/
theorem pops_ne {q₁ q₂ : Mailbox α} (h₁ : q₁.Open) (h₂ : q₂.Open) {x y : α} {v w : List α}
    (hv : q₁.waiting = x :: v) (hw : q₂.waiting = y :: w) (hxy : x ≠ y) :
    q₁.pops [.tryPop] ≠ q₂.pops [.tryPop] := by
  obtain ⟨q₁', e₁, -⟩ := tryPop_cons h₁ hv
  obtain ⟨q₂', e₂, -⟩ := tryPop_cons h₂ hw
  intro h
  simp only [pops, e₁, e₂] at h
  injection h with h
  injection h with h
  exact hxy (Option.some.inj h)

/-- `count` that goes on past the cache. -/
theorem count_of_lt {q : Mailbox α} {m : ℕ} {l : List α} (hs : q.stack = .list l)
    (hm : q.cache.first.length + q.cache.second.length < m) :
    q.count m = .ok (⟨.list [], l.reverse ++ q.head, q.cache⟩,
      countHead m (l.reverse ++ q.head) (q.cache.count m)) := by
  have hc : ¬ m ≤ q.cache.count m := by
    rw [Cache.le_count_iff]
    omega
  simp only [count, if_neg hc, fetchNewData_list hs]

/-- `count` that the cache alone answers. -/
theorem count_of_le {q : Mailbox α} {m : ℕ} (hm : m ≤ q.cache.first.length + q.cache.second.length) :
    q.count m = .ok (q, q.cache.count m) := by
  simp only [count, if_pos ((Cache.le_count_iff _ _).mpr hm)]

/-- `count` returns on every open queue and leaves it open. -/
theorem count_open {q : Mailbox α} (ho : q.Open) (m : ℕ) :
    ∃ q' n, q.count m = .ok (q', n) ∧ q'.Open := by
  obtain ⟨l, hs⟩ := ho
  by_cases hm : m ≤ q.cache.first.length + q.cache.second.length
  · exact ⟨q, _, count_of_le hm, l, hs⟩
  · exact ⟨_, _, count_of_lt hs (Nat.lt_of_not_le hm), [], rfl⟩

theorem countHead_eq (m : ℕ) (l : List α) (res : ℕ) (h : res ≤ m) :
    countHead m l res = min m (res + l.length) := by
  induction l generalizing res with
  | nil => simp [countHead, h]
  | cons x l ih =>
    rw [countHead, List.length_cons]
    split_ifs with hlt
    · rw [ih _ hlt]
      omega
    · omega

/-- For a positive bound `count` returns the number of stored elements, or the bound where
that is less. -/
theorem count_value {q q' : Mailbox α} {m n : ℕ} (hm : 0 < m) (h : q.count m = .ok (q', n)) :
    n = min m q.stored.length := by
  have hlen := q.length_stored
  rw [length_waiting] at hlen
  have hc := q.cache.count_eq m
  by_cases hle : m ≤ q.cache.first.length + q.cache.second.length
  · rw [count_of_le hle] at h
    cases h
    rw [hc, if_pos ⟨hm, hle⟩]
    omega
  · have hlt := Nat.lt_of_not_le hle
    have hnc : ¬ m ≤ q.cache.count m := by
      rw [Cache.le_count_iff]
      exact hle
    rw [if_neg fun h => hle h.2] at hc
    cases hs : q.stack with
    | list l =>
      rw [count_of_lt hs hlt] at h
      cases h
      rw [countHead_eq _ _ _ (by omega), hc, hlen, hs]
      simp only [List.length_append, List.length_reverse, Stack.elems_list]
      omega
    | closed =>
      simp only [count, if_neg hnc, fetchNewData, hs] at h
      cases h
    | blocked =>
      simp only [count, if_neg hnc, fetchNewData, hs] at h
      cases h

/-- `peek_all` visits the elements in the order in which `try_pop` will return them, and
keeps that order. -/
theorem waiting_peekAll {q q' : Mailbox α} (ho : q.Open) {l : List α}
    (h : q.peekAll = .ok (q', l)) :
    l = q.cache.first ++ q.cache.second ++ q.waiting ∧ ∀ ops, q'.pops ops = q.pops ops := by
  obtain ⟨k, hs⟩ := ho
  rw [peekAll_list hs] at h
  cases h
  exact ⟨rfl, pops_congr ⟨[], rfl⟩ ⟨k, hs⟩ (by simp [waiting])⟩

/-- **`count` leaves what later `try_pop`s return alone exactly where it fetches nothing, or
nothing is left in `head_`.** -/
theorem count_iff [DecidableEq α] {q : Mailbox α} (hr : (system α).Reachable q) (ho : q.Open)
    (m : ℕ) :
    (∃ q' n, q.count m = .ok (q', n) ∧ ∀ ops, q'.pops ops = q.pops ops) ↔
      m ≤ q.cache.first.length + q.cache.second.length ∨ q.head = [] ∨ q.stack.elems = [] := by
  obtain ⟨l, hs⟩ := ho
  by_cases hm : m ≤ q.cache.first.length + q.cache.second.length
  · exact iff_of_true ⟨q, _, count_of_le hm, fun _ => rfl⟩ (.inl hm)
  have hc := count_of_lt hs (Nat.lt_of_not_le hm)
  constructor
  · rintro ⟨q', n, h, hp⟩
    rw [hc] at h
    cases h
    right
    by_contra hne
    obtain ⟨hh, he⟩ := not_or.mp hne
    rw [hs, Stack.elems_list] at he
    -- the first element popped is the oldest on `stack_` in place of the oldest in `head_`
    obtain ⟨x, v, hx⟩ := List.exists_cons_of_ne_nil hh
    obtain ⟨y, w, hy⟩ := List.exists_cons_of_ne_nil (mt List.reverse_eq_nil_iff.mp he)
    have hxy : y ≠ x := by
      have hn := reachable_nodup hr
      rw [stored, waiting, hs, hx, Stack.elems_list, hy] at hn
      rintro rfl
      simp at hn
    exact pops_ne ⟨[], rfl⟩ ⟨l, hs⟩ (by simp [waiting, hy]; rfl) (by simp [waiting, hx]; rfl) hxy
      (hp _)
  · intro h
    refine ⟨_, _, hc, pops_congr ⟨[], rfl⟩ ⟨l, hs⟩ ?_⟩
    rcases h with h | h | h
    · exact absurd h hm
    · simp [waiting, hs, h]
    · rw [hs, Stack.elems_list] at h
      simp [waiting, hs, h]

/-- With both elements still on `stack_`, counting them leaves their order alone. -/
theorem count_iff_fresh :
    (∃ q' n, (⟨.list [2, 1], [], {}⟩ : Mailbox ℕ).count 5 = .ok (q', n) ∧
        ∀ ops, q'.pops ops = (⟨.list [2, 1], [], {}⟩ : Mailbox ℕ).pops ops) ↔
      5 ≤ 0 ∨ ([] : List ℕ) = [] ∨ [2, 1] = ([] : List ℕ) :=
  count_iff (q := ⟨.list [2, 1], [], {}⟩)
    (System.Reachable.of_actions rfl [.enqueue 1, .enqueue 2] rfl) ⟨_, rfl⟩ 5

/-- One element popped, one left in `head_` and one on `stack_`: after `count` the younger
one is returned first. -/
theorem count_reorders :
    ∃ q : Mailbox ℕ, (system ℕ).Reachable q ∧ q.Open ∧
      q.pops [.tryPop, .tryPop] = .ok [some 2, some 3] ∧
      ¬ (∃ q' n, q.count 10 = .ok (q', n) ∧ ∀ ops, q'.pops ops = q.pops ops) ∧
      ∃ q', q.count 10 = .ok (q', 2) ∧ q'.pops [.tryPop, .tryPop] = .ok [some 3, some 2] := by
  refine ⟨⟨.list [3], [2], {}⟩, System.Reachable.of_actions rfl
    [.enqueue 1, .enqueue 2, .tryPop, .enqueue 3] rfl, ⟨_, rfl⟩, rfl, ?_, _, rfl, rfl⟩
  rintro ⟨q', n, h, hp⟩
  cases h
  exact absurd (hp [.tryPop]) (by decide)

end ActorsFramework.Detail.Mailbox

namespace ActorsFramework.Detail.QueueMemory

open Lib

variable {A : Type*} [DecidableEq A] {m : QueueMemory A} {q : Mailbox A} {n : ℕ}

/-- `count` of zero goes through the cache and no further. -/
theorem count_zero (h : Holds m q) (hn : q.stored.length < n) :
    ∃ m', m.count n 0 = .ok (m', q.cache.elems.length) := by
  have hc := Mailbox.count_of_le (q := q) (Nat.zero_le _)
  rw [q.cache.count_eq, if_neg (fun h => Nat.lt_irrefl _ h.1), ← List.length_append] at hc
  obtain ⟨m', hm, -⟩ := (h.count hn 0).of_ok hc
  exact ⟨m', hm⟩

/-- `count` of anything else returns what is stored, or the bound. -/
theorem count_pos (h : Holds m q) (ho : q.Open) (hn : q.stored.length < n) {maxCount : ℕ}
    (hmax : 0 < maxCount) :
    ∃ m', m.count n maxCount = .ok (m', min maxCount q.stored.length) := by
  obtain ⟨q', r, hc, -⟩ := Mailbox.count_open ho maxCount
  obtain ⟨m', hm, -⟩ := (h.count hn maxCount).of_ok hc
  rw [Mailbox.count_value hmax hc] at hm
  exact ⟨m', hm⟩

/-- **`count` returns the lesser of the bound and the number of stored elements exactly where
the bound is not zero or the cache is empty.** -/
theorem count_value_iff (h : (system A).Reachable (m, q)) (hc : m.closed = false)
    (hb : m.blocked = false) (hn : q.stored.length < n) (maxCount : ℕ) :
    (∃ m', m.count n maxCount = .ok (m', min maxCount q.stored.length)) ↔
      maxCount ≠ 0 ∨ q.cache.elems = [] := by
  have hI := holds_of_reachable h
  rcases Nat.eq_zero_or_pos maxCount with rfl | hmax
  · rw [or_iff_right (fun h => h rfl), Nat.zero_min]
    obtain ⟨m', hm⟩ := count_zero hI hn
    rw [hm]
    constructor
    · rintro ⟨_, hr⟩
      exact List.length_eq_zero_iff.mp (Prod.mk.inj (Except.ok.inj hr)).2
    · intro hcache
      rw [hcache]
      exact ⟨m', rfl⟩
  · exact iff_of_true (count_pos hI (hI.isOpen hc hb) hn hmax) (.inl hmax.ne')

/-- Two elements, one of them in the cache, and room for three. -/
theorem count_value_iff_two : ∃ m : QueueMemory ℕ,
    (system ℕ).Reachable (m, ⟨.list [2], [], ⟨[1], []⟩⟩) ∧
      ((∃ m', m.count 3 3 = .ok (m', 2)) ↔ 3 ≠ 0 ∨ ([1] : List ℕ) = []) := by
  have hr : ∃ m : QueueMemory ℕ, (system ℕ).Reachable (m, ⟨.list [2], [], ⟨[1], []⟩⟩) ∧
      m.stack = .elem 2 :=
    ⟨_, System.Reachable.of_actions (T := system ℕ) (s := (construct PartitionedList.blank, {}))
      ⟨PartitionedList.blank, rfl⟩
      [.enqueue 1, .tryPop, .cache (.insert .separator 1), .enqueue 2] rfl, rfl⟩
  obtain ⟨m, hm, hs⟩ := hr
  exact ⟨m, hm,
    count_value_iff hm (by rw [closed, hs]; rfl) (by rw [blocked, hs]; rfl) (show 2 < 3 by decide) 3⟩

/-- One element in the cache and none asked for: `count` returns one. -/
theorem count_zero_one : ∃ m : QueueMemory ℕ,
    (system ℕ).Reachable (m, ⟨.list [], [], ⟨[1], []⟩⟩) ∧ m.closed = false ∧ m.blocked = false ∧
      (∃ m', m.count 2 0 = .ok (m', 1)) ∧ ¬ ∃ m', m.count 2 0 = .ok (m', min 0 1) := by
  have hr := System.Reachable.of_actions (T := system ℕ) (s := (construct PartitionedList.blank, {}))
    ⟨PartitionedList.blank, rfl⟩ [.enqueue 1, .tryPop, .cache (.insert .separator 1)] rfl
  refine ⟨_, hr, rfl, rfl, ⟨_, rfl⟩, ?_⟩
  rintro ⟨m', hm⟩
  cases hm

end ActorsFramework.Detail.QueueMemory
