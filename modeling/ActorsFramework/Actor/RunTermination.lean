import ActorsFramework.Lib.Amortised
import ActorsFramework.Actor.SingleRun

/-!
# `run` returns

Nothing in `run` has a bound of its own but the two loops over `handled_msgs`: the loops
around `next_message` and `try_block` begin again as long as `try_block` fails, the one in
`next_message` goes on as long as there is something to take, and that in `fetch_new_data`
as long as its exchange fails. Other threads make each of these go on. The exchange is a
`compare_exchange_weak` besides: it may fail for no reason, any number of times, and each
time it is a step more.

* `left_runStep` — a step of the run takes it nearer to its end.
* `left_le`, `weight_enqueue` — what another thread does takes it back by so many steps.
* `weakRun` — the run with the exchanges that fail for no reason.
* `run_returns` — so it returns, or stops at a failed assertion, after a number of steps
  given by its throughput, the elements it found, what the others did meanwhile, and how
  often its exchange failed for no reason.

The potential counts three steps for an element on the stack, two for one in `head_`, one
for one in the first part of the cache, two for each message that may still be handled, and
those to the end of the loop the run is in. With other weights it also pays, out of what is
on the stack, for those whom a step of the run disturbs.
-/

namespace ActorsFramework.Scheduling

open Detail Lib Lib.System

variable {α : Type*} [DecidableEq α]

/-- The `compare_exchange_weak` of `fetch_new_data` finds what it expects, and may fail all the
same. -/
def WorkPc.mayFail (q : Mailbox α) : WorkPc α → Bool
  | .exchange _ e => q.stack.top = e
  | _ => false

/-- A bound on the steps to the end of the run, when nothing is in the mailbox and nobody else does
anything. -/
def WorkPc.left (maxThroughput : ℕ) (q : Mailbox α) : WorkPc α → ℕ
  | .tryPop pt => 2 * (maxThroughput - pt.handled) + 3
  | .exchange pt e => 2 * (maxThroughput - pt.handled) + if q.stack.top = e then 2 else 3
  | .tryBlock pt => 2 * (maxThroughput - pt.handled) + if q.stack = .list [] then 2 else 4
  | .handler pt _ => 2 * (maxThroughput - pt.handled) + 3
  | .hasNext => 2
  | .lastBlock => 1
  | _ => 0

/-- What the elements of the mailbox weigh, with `x` for one on the stack and `y` for one in
`head_`. -/
def weightBy (x y : ℕ) (q : Mailbox α) : ℕ :=
  x * q.stack.elems.length + y * q.head.length + q.cache.first.length

/-- The steps for the elements of the mailbox. -/
def weight (q : Mailbox α) : ℕ := 3 * q.stack.elems.length + 2 * q.head.length + q.cache.first.length

/-- The run has returned, or stopped at an assertion. -/
def WorkPc.over : WorkPc α → Bool
  | .store | .failed _ => true
  | _ => false

/-- What a step costs others at the stack: `d`, where it changes the stack and the run goes on. -/
def disturbs (d : ℕ) (q : Mailbox α) (r : Mailbox α × WorkPc α) : ℕ :=
  if r.1.stack = q.stack ∨ r.2.over = true then 0 else d

/-- The potential. -/
def RunState.potential (maxThroughput : ℕ) (s : RunState α) : ℕ :=
  s.pc.left maxThroughput s.mailbox + weight s.mailbox

section Steps

variable {maxThroughput n x y d : ℕ} {q q' : Mailbox α}

omit [DecidableEq α] in
theorem weight_eq (q : Mailbox α) : weight q = weightBy 3 2 q := rfl

theorem disturbs_of_eq {r : Mailbox α × WorkPc α} (h : r.1.stack = q.stack) : disturbs d q r = 0 :=
  if_pos (.inl h)

theorem disturbs_of_over {r : Mailbox α × WorkPc α} (h : r.2.over = true) : disturbs d q r = 0 :=
  if_pos (.inr h)

theorem disturbs_le (d : ℕ) (q : Mailbox α) (r : Mailbox α × WorkPc α) : disturbs d q r ≤ d := by
  unfold disturbs
  split_ifs
  · exact Nat.zero_le d
  · exact le_rfl

theorem left_mainHead (maxThroughput n : ℕ) (q : Mailbox α) (m : α) :
    (mainHead maxThroughput (n + 1) (some m)).left maxThroughput q ≤ 2 * (maxThroughput - n) + 2 := by
  unfold mainHead
  split_ifs with hlt
  · simp only [WorkPc.left]
    omega
  · simp only [tailHead, WorkPc.left]
    omega

theorem left_cacheHead (maxThroughput n : ℕ) (q q' : Mailbox α) (m : α) :
    (cacheHead maxThroughput q' (n + 1) (some m)).left maxThroughput q ≤
      2 * (maxThroughput - n) + 2 := by
  unfold cacheHead
  split_ifs with hlt
  · simp only [WorkPc.left]
    omega
  · exact left_mainHead maxThroughput n q m

/-- Where a run begins. -/
theorem left_start (maxThroughput : ℕ) (q q' : Mailbox α) :
    (cacheHead maxThroughput q' 0 none).left maxThroughput q ≤ 2 * maxThroughput + 3 := by
  unfold cacheHead mainHead
  split_ifs <;> simp only [tailHead, WorkPc.left] <;> omega

omit [DecidableEq α] in
/-- An element goes from `head_` to the cache. -/
theorem weight_cached (q : Mailbox α) (head : List α) (m : α) :
    weightBy x y (cached q head m) =
      x * q.stack.elems.length + y * head.length + q.cache.first.length + 1 := by
  simp only [weightBy, cached, List.length_append, List.length_singleton]
  omega

omit [DecidableEq α] in
/-- `try_block` touches no element. -/
theorem keeps_tryBlock (q : Mailbox α) : q.tryBlock.1.stack.elems = q.stack.elems ∧
    q.tryBlock.1.head = q.head ∧ q.tryBlock.1.cache = q.cache := by
  rcases q.tryBlock_fst with hq | ⟨hs, hq⟩
  · rw [hq]
    exact ⟨rfl, rfl, rfl⟩
  · rw [hq, hs]
    exact ⟨rfl, rfl, rfl⟩

/-- The end of `next_message`: a message less in the cache, or the run goes on to `try_block`. -/
theorem left_taken (maxThroughput : ℕ) (pt : Point) (hs : q.stack = .list []) :
    (taken maxThroughput q pt).2.left maxThroughput (taken maxThroughput q pt).1 +
      weightBy x y (taken maxThroughput q pt).1 + 1 ≤
        2 * (maxThroughput - pt.handled) + 3 + weightBy x y q := by
  obtain ⟨loop, n⟩ := pt
  obtain ⟨stack, head, ⟨first, second⟩⟩ := q
  obtain rfl : stack = .list [] := hs
  cases first with
  | nil =>
    simp only [taken]
    split_ifs
    · simp only [WorkPc.left]
      omega
    · simp only [WorkPc.left, if_true]
      omega
  | cons m ms =>
    have hw : weightBy x y ⟨.list [], head, ⟨m :: ms, second⟩⟩ =
        weightBy x y ⟨.list [], head, ⟨ms, second⟩⟩ + 1 := by
      simp only [weightBy, List.length_cons]
      omega
    cases loop with
    | cache =>
      simp only [taken, hw]
      split_ifs
      · have := left_cacheHead maxThroughput n ⟨.list [], head, ⟨ms, second⟩⟩
          ⟨.list [], head, ⟨ms, second⟩⟩ m
        dsimp only
        omega
      · simp only [WorkPc.left]
        omega
    | main =>
      simp only [taken, hw, WorkPc.left]
      omega
    | tail =>
      have hw' : weightBy x y
          (Mailbox.pushToCache Actor.isHighPriority m ⟨.list [], head, ⟨ms, second⟩⟩) =
          weightBy x y ⟨.list [], head, ⟨ms, second⟩⟩ := rfl
      simp only [taken, hw, hw', WorkPc.left]
      omega

omit [DecidableEq α] in
/-- All elements of the stack go to `head_`, and the first in it to the cache. -/
theorem weight_fetched (hx : d + 3 ≤ x) (hy : y ≤ x) {m : α} {head : List α} (hne : q.stack.elems ≠ [])
    (h : Mailbox.relink q.stack.elems q.head = m :: head) :
    weightBy x y (cached { q with stack := .list [] } head m) + d + 2 ≤ weightBy x y q := by
  rw [Mailbox.relink_eq] at h
  have hlen : q.stack.elems.length + q.head.length = head.length + 1 := by
    have := congrArg List.length h
    simpa using this
  obtain ⟨k, hk⟩ := Nat.exists_eq_succ_of_ne_zero (mt List.length_eq_zero_iff.mp hne)
  have hhead : head.length = k + q.head.length := by omega
  have hmul : y * k ≤ x * k := Nat.mul_le_mul_right k hy
  rw [weight_cached, weightBy, hk, hhead, Nat.mul_add, Nat.mul_succ]
  simp only [Stack.elems_list, List.length_nil]
  omega

omit [DecidableEq α] in
/-- The first element in `head_` goes to the cache; there was none on the stack. -/
theorem weight_headed {m : α} {head : List α} (he : q.stack.elems = [])
    (h : Mailbox.relink q.stack.elems q.head = m :: head) :
    weightBy x y (cached { q with stack := .list [] } head m) + y = weightBy x y q + 1 ∧
      q.head ≠ [] := by
  rw [Mailbox.relink_eq, he, List.reverse_nil, List.nil_append] at h
  refine ⟨?_, by rw [h]; simp⟩
  rw [weight_cached, weightBy, h, he, List.length_cons, Nat.mul_succ]
  simp only [Stack.elems_list, List.length_nil]
  omega

/-- The exchange of `fetch_new_data`: it takes at least one element, or is tried again with what
is on the stack now. -/
theorem left_exchange (hx : d + 3 ≤ x) (hy : y ≤ x) {pt : Point} {e : Ptr α} {r : Mailbox α × WorkPc α}
    (hlive : q.stack ≠ .closed ∨ d = 0) (hhead : q.head = [] ∨ 3 ≤ y)
    (h : runStep maxThroughput q (.exchange pt e) = some r) :
    r.2.left maxThroughput r.1 + weightBy x y r.1 + disturbs d q r + 1 ≤
      WorkPc.left maxThroughput q (.exchange pt e) + weightBy x y q := by
  simp only [runStep] at h
  split_ifs at h with he hb he'
  · -- the queue is blocked
    cases h
    rw [disturbs_of_over (by rfl)]
    simp only [WorkPc.left, if_pos he, weightBy, Stack.elems_list, List.length_nil]
    omega
  · -- the stack is taken
    split at h
    next =>
      cases h
      rw [disturbs_of_over (by rfl)]
      simp only [WorkPc.left, if_pos he, weightBy, Stack.elems_list, List.length_nil]
      omega
    next m head hm =>
      cases h
      simp only [WorkPc.left, if_pos he]
      have hle := disturbs_le d q (cached { q with stack := .list [] } head m, .tryPop pt)
      by_cases hne : q.stack.elems = []
      · -- there was an element in `head_` already
        obtain ⟨hw, hcons⟩ := weight_headed (x := x) (y := y) hne hm
        have h3 := hhead.resolve_left hcons
        have hd : disturbs d q (cached { q with stack := .list [] } head m, .tryPop pt) = 0 := by
          rcases hlive with hlive | rfl
          · refine disturbs_of_eq ?_
            cases hs : q.stack with
            | closed => exact absurd hs hlive
            | blocked => exact absurd (he.symm.trans (by rw [hs]; rfl)) hb
            | list l =>
              rw [hs] at hne
              exact congrArg Stack.list hne.symm
          · exact Nat.le_zero.mp hle
        omega
      · have hfetched := weight_fetched hx hy hne hm
        omega
  · -- somebody else has emptied it
    cases h
    have hs := Stack.top_eq_emptyDummy.mp he'
    have htaken := left_taken (x := x) (y := y) maxThroughput pt hs
    rw [disturbs_of_eq (private_taken q pt).stack]
    simp only [WorkPc.left, if_neg he]
    exact htaken
  · -- the exchange fails
    cases h
    rw [disturbs_of_eq (by rfl)]
    simp only [WorkPc.left, if_neg he, if_true]
    omega

/-- A handler has returned: one message less. -/
theorem left_handled (pt : Point) (m : α) :
    (handled maxThroughput q pt m).2.left maxThroughput (handled maxThroughput q pt m).1 +
        weightBy x y (handled maxThroughput q pt m).1 + 1 ≤
      WorkPc.left maxThroughput q (.handler pt m) + weightBy x y q := by
  obtain ⟨loop, n⟩ := pt
  cases loop with
  | cache =>
    obtain ⟨stack, head, ⟨first, second⟩⟩ := q
    have := left_cacheHead maxThroughput n ⟨stack, head, ⟨first, second.tail⟩⟩
      ⟨stack, head, ⟨first, second.tail⟩⟩ m
    change _ + weightBy x y ⟨stack, head, ⟨first, second⟩⟩ + 1 ≤
      2 * (maxThroughput - n) + 3 + weightBy x y ⟨stack, head, ⟨first, second⟩⟩
    simp only [handled]
    omega
  | main =>
    have := left_mainHead maxThroughput n q m
    change _ + weightBy x y q + 1 ≤ 2 * (maxThroughput - n) + 3 + weightBy x y q
    simp only [handled]
    omega
  | tail =>
    change 2 + weightBy x y q + 1 ≤ 2 * (maxThroughput - n) + 3 + weightBy x y q
    omega

/-- **A step of the run** takes it nearer to its end. -/
theorem left_runStep (hx : d + 3 ≤ x) (hy : y ≤ x) (hpop : 2 ≤ y) {pc : WorkPc α}
    {r : Mailbox α × WorkPc α} (hlive : q.stack ≠ .closed ∨ d = 0)
    (hhead : ∀ pt e, pc = .exchange pt e → q.head = [] ∨ 3 ≤ y)
    (h : runStep maxThroughput q pc = some r) :
    r.2.left maxThroughput r.1 + weightBy x y r.1 + disturbs d q r + 1 ≤
      pc.left maxThroughput q + weightBy x y q := by
  cases pc with
  | tryPop pt =>
    simp only [runStep] at h
    split at h
    next m head hh =>
      cases h
      rw [disturbs_of_eq (by rfl), weight_cached, weightBy, hh, List.length_cons, Nat.mul_succ]
      simp only [WorkPc.left]
      omega
    next hh =>
      split at h
      next =>
        cases h
        rw [disturbs_of_eq (by rfl)]
        simp only [WorkPc.left]
        omega
      next =>
        cases h
        rw [disturbs_of_eq (by rfl)]
        simp only [WorkPc.left]
        omega
      next ht =>
        cases h
        rw [disturbs_of_eq (private_taken q pt).stack]
        exact left_taken maxThroughput pt (Stack.top_eq_emptyDummy.mp ht)
      next m ht =>
        cases h
        rw [disturbs_of_eq (by rfl)]
        simp only [WorkPc.left, ht, if_true]
        omega
  | exchange pt e =>
    exact left_exchange hx hy hlive (hhead pt e rfl) h
  | tryBlock pt =>
    simp only [runStep] at h
    split at h
    next hb =>
      cases h
      obtain ⟨hs, rfl⟩ := Mailbox.of_tryBlock_true hb
      rw [disturbs_of_over (by rfl)]
      simp only [WorkPc.left, weightBy, hs, if_true, Stack.elems_blocked, Stack.elems_list,
        List.length_nil]
      omega
    next hb =>
      cases h
      have hs : q.stack ≠ .list [] := by
        intro hs
        simp [Mailbox.tryBlock, hs] at hb
      obtain rfl := Mailbox.of_tryBlock_false hb
      rw [disturbs_of_eq (by rfl)]
      simp only [WorkPc.left, if_neg hs]
      omega
  | handler pt m =>
    cases h
    rw [disturbs_of_eq (private_handled q pt m).stack]
    exact left_handled pt m
  | hasNext =>
    simp only [runStep] at h
    split at h
    next =>
      cases h
      rw [disturbs_of_eq (by rfl)]
      simp only [WorkPc.left]
      omega
    next =>
      cases h
      rw [disturbs_of_eq (by rfl)]
      simp only [WorkPc.left]
      omega
    next =>
      cases h
      rw [disturbs_of_eq (by rfl)]
      simp only [WorkPc.left]
      omega
  | lastBlock =>
    cases h
    obtain ⟨he, hh, hc⟩ := keeps_tryBlock q
    rw [disturbs_of_over (by rfl)]
    simp only [WorkPc.left, weightBy, he, hh, hc]
    omega
  | idle => cases h
  | failed f => cases h
  | store => cases h
  | unblock => cases h
  | deref => cases h

/-- Only the stack matters to where a run is, -/
theorem left_congr {q q' : Mailbox α} (h : q'.stack = q.stack) (pc : WorkPc α) :
    pc.left maxThroughput q' = pc.left maxThroughput q := by
  cases pc <;> simp only [WorkPc.left, h]

/-- and another stack takes it back by two steps at most. -/
theorem left_le (maxThroughput : ℕ) (q q' : Mailbox α) (pc : WorkPc α) :
    pc.left maxThroughput q' ≤ pc.left maxThroughput q + 2 := by
  cases pc with
  | exchange pt e =>
    simp only [WorkPc.left]
    split_ifs <;> omega
  | tryBlock pt =>
    simp only [WorkPc.left]
    split_ifs <;> omega
  | _ => exact Nat.le_add_right _ _

omit [DecidableEq α] in
/-- An element that arrives. -/
theorem weight_enqueue (q : Mailbox α) (m : α) : weightBy x y (q.enqueue m).1 ≤ weightBy x y q + x := by
  obtain ⟨stack, head, cache⟩ := q
  cases stack with
  | closed => exact Nat.le_add_right _ _
  | blocked =>
    change x * 1 + y * head.length + cache.first.length ≤
      x * 0 + y * head.length + cache.first.length + x
    omega
  | list l =>
    change x * (l.length + 1) + y * head.length + cache.first.length ≤
      x * l.length + y * head.length + cache.first.length + x
    rw [Nat.mul_succ]
    omega

omit [DecidableEq α] in
/-- Another dummy on the stack. -/
theorem weight_congr {q q' : Mailbox α} (he : q'.stack.elems = q.stack.elems) (hh : q'.head = q.head)
    (hc : q'.cache = q.cache) : weightBy x y q' = weightBy x y q := by
  rw [weightBy, he, hh, hc, weightBy]

/-! ### A run that nobody disturbs -/

/-- No assertion has failed, and the exchange is not going to find an empty stack. -/
def WorkPc.Fine : WorkPc α → Prop
  | .failed _ => False
  | .exchange _ e => e ≠ .emptyDummy
  | _ => True

omit [DecidableEq α] in
theorem fine_mainHead (k : ℕ) (m : α) : (mainHead maxThroughput k (some m)).Fine := by
  unfold mainHead
  split_ifs <;> trivial

omit [DecidableEq α] in
theorem fine_cacheHead (q : Mailbox α) (k : ℕ) (m : α) : (cacheHead maxThroughput q k (some m)).Fine := by
  unfold cacheHead
  split_ifs
  · trivial
  · exact fine_mainHead k m

omit [DecidableEq α] in
theorem fine_taken (hmax : maxThroughput ≠ 0) {pt : Point} (hr : RunState.Reads maxThroughput n pt)
    (ho : q.Open) :
    (taken maxThroughput q pt).1.Open ∧ (taken maxThroughput q pt).2.Fine := by
  obtain ⟨l, hl⟩ := ho
  refine ⟨⟨l, (private_taken q pt).stack.trans hl⟩, ?_⟩
  have hloop : pt.loop ≠ .tail := by
    intro hloop
    have h₂ := hr.2
    rw [if_pos hloop] at h₂
    exact hmax h₂
  obtain ⟨loop, k⟩ := pt
  unfold taken
  split
  next =>
    rw [if_neg hloop]
    trivial
  next m ms hf =>
    cases loop with
    | cache =>
      dsimp only
      split_ifs
      · exact fine_cacheHead _ _ _
      · trivial
    | main => trivial
    | tail => exact absurd rfl hloop

/-- The exchange of `fetch_new_data` finds an element, or finds the stack empty and is over. -/
theorem fine_exchange (hmax : maxThroughput ≠ 0) {pt : Point} {e : Ptr α} {r : Mailbox α × WorkPc α}
    (hr : RunState.Reads maxThroughput n pt) (hhead : q.head = []) (ho : q.Open) (hf : e ≠ .emptyDummy)
    (h : runStep maxThroughput q (.exchange pt e) = some r) : r.1.Open ∧ r.2.Fine := by
  obtain ⟨l, hl⟩ := ho
  simp only [runStep] at h
  split_ifs at h with he hb he'
  · rw [hl] at he
    cases l <;> simp [← he] at hb
  · -- the stack is not empty
    rw [hhead, Mailbox.relink_eq, List.append_nil, hl, Stack.elems_list] at h
    have hne : l ≠ [] := by
      rintro rfl
      rw [hl] at he
      exact hf he.symm
    split at h
    next hnil => exact absurd (List.reverse_eq_nil_iff.mp hnil) hne
    next =>
      cases h
      exact ⟨⟨[], rfl⟩, trivial⟩
  · cases h
    exact fine_taken hmax hr ⟨l, hl⟩
  · cases h
    exact ⟨⟨l, hl⟩, he'⟩

/-- A step of a run on an open mailbox leaves it open, or returns. -/
theorem fine_runStep (hmax : maxThroughput ≠ 0) {pc : WorkPc α} {r : Mailbox α × WorkPc α}
    (hp : RunState.Place maxThroughput q n pc) (ho : q.Open) (hf : pc.Fine)
    (h : runStep maxThroughput q pc = some r) : r.2 = .store ∨ r.1.Open ∧ r.2.Fine := by
  obtain ⟨l, hl⟩ := ho
  cases pc with
  | tryPop pt =>
    simp only [runStep, hl] at h
    split at h
    next =>
      cases h
      exact .inr ⟨⟨l, hl⟩, trivial⟩
    next =>
      cases l with
      | nil =>
        cases h
        exact .inr (fine_taken hmax hp ⟨_, hl⟩)
      | cons x l =>
        cases h
        exact .inr ⟨⟨_, hl⟩, by simp [WorkPc.Fine]⟩
  | exchange pt e =>
    exact .inr (fine_exchange hmax hp.1 hp.2 ⟨l, hl⟩ hf h)
  | tryBlock pt =>
    simp only [runStep] at h
    split at h
    next =>
      cases h
      exact .inl rfl
    next hb =>
      cases h
      obtain rfl := Mailbox.of_tryBlock_false hb
      exact .inr ⟨⟨l, hl⟩, trivial⟩
  | handler pt m =>
    cases h
    obtain ⟨loop, k⟩ := pt
    refine .inr ⟨⟨l, (private_handled q _ m).stack.trans hl⟩, ?_⟩
    cases loop with
    | cache => exact fine_cacheHead _ _ m
    | main => exact fine_mainHead _ m
    | tail => trivial
  | hasNext =>
    simp only [runStep, Mailbox.hasNextMessage_open ⟨l, hl⟩] at h
    split at h
    next he => cases he
    next =>
      cases h
      exact .inl rfl
    next =>
      cases h
      exact .inr ⟨⟨l, hl⟩, trivial⟩
  | lastBlock =>
    cases h
    exact .inl rfl
  | idle => cases h
  | failed f => cases h
  | store => cases h
  | unblock => cases h
  | deref => cases h

end Steps

/-! ### Runs -/

/-- A run whose exchange may fail for no reason: it has read again what it had read before, and
nothing else has changed. -/
def weakRun (maxThroughput : ℕ) (q₀ : Mailbox α) : System (RunState α) (RunAct α ⊕ Unit) :=
  (singleRun maxThroughput q₀).stutter fun s _ => s.pc.mayFail s.mailbox

/-- The steps of the run itself. -/
def ownSteps (_ : RunState α) : RunAct α → ℕ
  | .run => 1
  | _ => 0

/-- The messages that arrive. -/
def arrivals (_ : RunState α) : RunAct α → ℕ
  | .enqueue _ => 1
  | _ => 0

/-- The calls of `try_block` and `try_unblock` by others. -/
def dummyCalls (_ : RunState α) : RunAct α → ℕ
  | .tryBlock | .tryUnblock => 1
  | _ => 0

section Runs

variable {maxThroughput : ℕ} {q₀ : Mailbox α} {s s' : RunState α}

theorem potential_step {a : RunAct α} (h : RunState.Within maxThroughput s)
    (hs : (singleRun maxThroughput q₀).step s a = some s') :
    s'.potential maxThroughput + ownSteps s a ≤
      s.potential maxThroughput + (5 * arrivals s a + 2 * dummyCalls s a) := by
  cases a with
  | run =>
    obtain ⟨r, hr, rfl⟩ := Option.map_eq_some_iff.mp hs
    have hhead : ∀ pt e, s.pc = .exchange pt e → s.mailbox.head = [] ∨ 3 ≤ 2 := by
      intro pt e hpc
      have hp := h.place
      rw [hpc] at hp
      exact .inl hp.2
    have hle := left_runStep (d := 0) (x := 3) (by decide) (by decide) le_rfl (.inr rfl) hhead hr
    rw [← weight_eq, ← weight_eq] at hle
    simp only [RunState.potential, ownSteps, arrivals, dummyCalls]
    omega
  | enqueue m =>
    cases hs
    have hw := weight_enqueue (x := 3) (y := 2) s.mailbox m
    have hl := left_le maxThroughput s.mailbox (s.mailbox.enqueue m).1 s.pc
    rw [← weight_eq, ← weight_eq] at hw
    simp only [RunState.potential, ownSteps, arrivals, dummyCalls]
    omega
  | tryBlock =>
    cases hs
    obtain ⟨he, hh, hc⟩ := keeps_tryBlock s.mailbox
    have hw := weight_congr (x := 3) (y := 2) he hh hc
    have hl := left_le maxThroughput s.mailbox s.mailbox.tryBlock.1 s.pc
    rw [← weight_eq, ← weight_eq] at hw
    simp only [RunState.potential, ownSteps, arrivals, dummyCalls]
    omega
  | tryUnblock =>
    cases hs
    have hw := weight_congr (x := 3) (y := 2) s.mailbox.elems_tryUnblock s.mailbox.head_tryUnblock
      s.mailbox.cache_tryUnblock
    have hl := left_le maxThroughput s.mailbox s.mailbox.tryUnblock.1 s.pc
    rw [← weight_eq, ← weight_eq] at hw
    simp only [RunState.potential, ownSteps, arrivals, dummyCalls]
    omega

/-- **What the steps of a run cost**. -/
theorem run_amortised (hr : (singleRun maxThroughput q₀).Reachable s)
    {tr : List (RunState α × RunAct α)} (h : (singleRun maxThroughput q₀).Path s tr s') :
    total ownSteps tr ≤
      s.potential maxThroughput + (5 * total arrivals tr + 2 * total dummyCalls tr) := by
  have hle := Path.amortised_reachable (p := RunState.potential maxThroughput) ownSteps
    (fun s a => 5 * arrivals s a + 2 * dummyCalls s a)
    (fun _ _ _ hr hs => potential_step (RunState.within_of_reachable hr) hs) hr h
  rw [total_add, total_mul, total_mul] at hle
  omega

/-- A run is inside `run`, or has returned. -/
theorem inRun_of_reachable (h : (singleRun maxThroughput q₀).Reachable s) :
    s.pc.inRun = true ∨ s.pc = .store := by
  refine System.Reachable.invariant (I := fun s => s.pc.inRun = true ∨ s.pc = .store) ?_ ?_ h
  · rintro _ rfl
    exact .inl (inRun_of_reading (reading_cacheHead _ _ _).1)
  · intro s a s' hI hs
    cases a with
    | run =>
      obtain ⟨r, hr, rfl⟩ := Option.map_eq_some_iff.mp hs
      exact (runMoves_of_runStep hr).stays
    | enqueue m => cases hs; exact hI
    | tryBlock => cases hs; exact hI
    | tryUnblock => cases hs; exact hI

/-- Inside `run` there is a next step, unless an assertion has failed. -/
theorem runStep_ne_none {q : Mailbox α} {pc : WorkPc α} (hin : pc.inRun = true)
    (hf : ∀ f, pc ≠ .failed f) : runStep maxThroughput q pc ≠ none := by
  cases pc with
  | tryPop pt =>
    simp only [runStep]
    split
    next => simp
    next => split <;> simp
  | exchange pt e =>
    simp only [runStep]
    split_ifs
    · simp
    · split <;> simp
    · simp
    · simp
  | tryBlock pt =>
    simp only [runStep]
    split <;> simp
  | handler pt m => simp [runStep]
  | hasNext =>
    simp only [runStep]
    split <;> simp
  | lastBlock => simp [runStep]
  | failed f => exact absurd rfl (hf f)
  | idle => cases hin
  | store => cases hin
  | unblock => cases hin
  | deref => cases hin

/-- Nobody else touches the dummies: no assertion fails. -/
theorem fine_of_path (hmax : maxThroughput ≠ 0) (hr : (singleRun maxThroughput q₀).Reachable s)
    (hI : s.pc = .store ∨ s.mailbox.Open ∧ s.pc.Fine) {tr : List (RunState α × RunAct α)}
    (h : (singleRun maxThroughput q₀).Path s tr s') (hq : total dummyCalls tr = 0) :
    s'.pc = .store ∨ s'.mailbox.Open ∧ s'.pc.Fine := by
  induction h with
  | nil => exact hI
  | @cons tr s s₁ s' a hs _ ih =>
    rw [total_cons] at hq
    obtain ⟨hquiet, hrest⟩ := Nat.add_eq_zero_iff.mp hq
    have hr₁ : (singleRun maxThroughput q₀).Reachable s₁ := by
      obtain ⟨tr', hr'⟩ := hr
      exact ⟨_, hr'.step hs⟩
    refine ih hr₁ ?_ hrest
    cases a with
    | run =>
      obtain ⟨r, hstep, rfl⟩ := Option.map_eq_some_iff.mp hs
      rcases hI with hst | ⟨ho, hf⟩
      · rw [hst] at hstep
        cases hstep
      · exact fine_runStep hmax (RunState.within_of_reachable hr).place ho hf hstep
    | enqueue m =>
      cases hs
      rcases hI with hst | ⟨ho, hf⟩
      · exact .inl hst
      · exact .inr ⟨Mailbox.open_enqueue ho.ne_closed m, hf⟩
    | tryBlock => cases hquiet
    | tryUnblock => cases hquiet

/-- Where a run can go no further. -/
theorem end_of_stuck (hr : (singleRun maxThroughput q₀).Reachable s)
    (h : (singleRun maxThroughput q₀).step s .run = none) :
    s.pc = .store ∨ ∃ f, s.pc = .failed f := by
  have hnone : runStep maxThroughput s.mailbox s.pc = none := Option.map_eq_none_iff.mp h
  by_contra hne
  push Not at hne
  exact runStep_ne_none ((inRun_of_reachable hr).resolve_right hne.1) hne.2 hnone

omit [DecidableEq α] in
/-- No assertion has failed where a run begins. -/
theorem fine_start (maxThroughput : ℕ) (q₀ : Mailbox α) : (cacheHead maxThroughput q₀ 0 none).Fine := by
  unfold cacheHead mainHead
  split_ifs <;> trivial

/-- **`run` returns**. However the steps of other threads fall, a call of `run` takes at most
two steps for each message it may handle, three for each element it finds on the stack, two for
each in `head_`, one for each in the cache, five for each message that arrives meanwhile, two for
each call of `try_block` or `try_unblock` by others, one for each `compare_exchange_weak` that
fails for no reason, and three. A run that can go no further has returned or stopped at an
assertion; and it has returned, if its throughput is not `0`, it began with the mailbox open, and
nobody else blocks or unblocks it. -/
theorem run_returns {tr : List (RunState α × (RunAct α ⊕ Unit))}
    (h : (weakRun maxThroughput q₀).Path ⟨q₀, cacheHead maxThroughput q₀ 0 none, 0, 0⟩ tr s) :
    total (withStutters ownSteps) tr ≤
      2 * maxThroughput + 3 + weight q₀ + (5 * total (proper arrivals) tr +
        2 * total (proper dummyCalls) tr + total stutters tr) ∧
    ((weakRun maxThroughput q₀).step s (.inl .run) = none →
      (s.pc = .store ∨ ∃ f, s.pc = .failed f) ∧
      (maxThroughput ≠ 0 → q₀.Open → total (proper dummyCalls) tr = 0 → s.pc = .store)) := by
  obtain ⟨tr', hp, htotal⟩ := Path.of_stutter h
  have hr : (singleRun maxThroughput q₀).Reachable ⟨q₀, cacheHead maxThroughput q₀ 0 none, 0, 0⟩ :=
    ⟨[], .init rfl⟩
  rw [total_withStutters, ← htotal ownSteps, ← htotal arrivals, ← htotal dummyCalls]
  constructor
  · have hle := run_amortised hr hp
    have hleft := left_start maxThroughput q₀ q₀
    simp only [RunState.potential] at hle
    omega
  · intro hstuck
    have hend := end_of_stuck (hp.reachable hr) hstuck
    refine ⟨hend, fun hmax ho hq => ?_⟩
    rcases fine_of_path hmax hr (.inr ⟨ho, fine_start maxThroughput q₀⟩) hp hq with hst | ⟨-, hf⟩
    · exact hst
    · obtain hst | ⟨f, hf'⟩ := hend
      · exact hst
      · rw [hf'] at hf
        exact hf.elim

end Runs

/-- A message arrives while the run is about to block the mailbox; its first exchange has failed
once before. -/
theorem run_returns_one : ∃ (tr : List (RunState ℕ × (RunAct ℕ ⊕ Unit))) (s : RunState ℕ),
    (weakRun 3 (⟨.list [1], [], {}⟩ : Mailbox ℕ)).Path
      ⟨⟨.list [1], [], {}⟩, cacheHead 3 ⟨.list [1], [], {}⟩ 0 none, 0, 0⟩ tr s ∧
    s.executed = 2 ∧ total (withStutters ownSteps) tr = 13 ∧ total (withStutters ownSteps) tr ≤ 18 ∧
    s.pc = .store := by
  obtain ⟨s, hs, hex, hstuck⟩ : ∃ s, (weakRun 3 (⟨.list [1], [], {}⟩ : Mailbox ℕ)).replay
      (fun _ _ => true) ⟨⟨.list [1], [], {}⟩, cacheHead 3 ⟨.list [1], [], {}⟩ 0 none, 0, 0⟩
      [.inl .run, .inr (), .inl .run, .inl .run, .inl .run, .inl .run, .inl (.enqueue 2), .inl .run,
        .inl .run, .inl .run, .inl .run, .inl .run, .inl .run, .inl .run] = some s ∧
      s.executed = 2 ∧ (weakRun 3 (⟨.list [1], [], {}⟩ : Mailbox ℕ)).step s (.inl .run) = none :=
    ⟨_, rfl, rfl, rfl⟩
  have h := path_of_replay hs
  obtain ⟨hle, hend⟩ := run_returns h
  exact ⟨_, s, h, hex, rfl, hle, (hend hstuck).2 (by decide) ⟨_, rfl⟩ rfl⟩

end ActorsFramework.Scheduling
