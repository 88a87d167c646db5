import ActorsFramework.Lib.Transition
import ActorsFramework.Actor.NextMessage

/-!
# The order of messages with priorities

`next_message` where `is_high_priority` is any predicate. Its loop keeps a position in
the first part of the cache, `hp_pos`, in front of which messages of high priority
are inserted, while all others go to the end; when the position is the end and
a message of the second kind has been inserted, it is moved back onto that.

`priority_order`: after any calls of `enqueue` and `next_message` the first part of the
cache is ordered, the messages of each priority leave in the order in which they
came, and a message is returned only when none of a higher priority is left.
-/

namespace ActorsFramework.Detail.Mailbox

open Lib

variable {α : Type*}

/-- The `while` loop of `next_message`, with the first part of the cache and the index of
`hp_pos` in it; the end `e` has the index of the length. -/
def insertLoop (hp : α → Bool) : ℕ → List α → ℕ → Mailbox α → Except Fault (Mailbox α × List α)
  | 0, _, _, _ => .error .diverges
  | n + 1, first, hpPos, q =>
    match q.tryPop with
    | .error e => .error e
    | .ok (q, none) => .ok (q, first)
    | .ok (q, some tmp) =>
      let e := first.length
      let first := first.insertIdx (if hp tmp then hpPos else e) tmp
      -- the iterator stays where it is, behind or in front of the new element
      let hpPos := if hp tmp ∨ hpPos = e then hpPos + 1 else hpPos
      let hpPos := if hpPos = e + 1 ∧ hp tmp = false then hpPos - 1 else hpPos
      insertLoop hp n first hpPos q

/-- `next_message`'s `if`, with the position. -/
def fetchAllAt (hp : α → Bool) (q : Mailbox α) : Except Fault (Mailbox α) :=
  if q.cache.first.head?.any hp then .ok q
  else match insertLoop hp (q.waiting.length + 1) q.cache.first 0 q with
    | .error e => .error e
    | .ok (q, l) => .ok { q with cache := { q.cache with first := l } }

/-- `next_message`, with the position. -/
def nextMessageAt (hp : α → Bool) (q : Mailbox α) : Except Fault (Mailbox α × Option α) :=
  match q.fetchAllAt hp with
  | .error e => .error e
  | .ok q =>
    match q.cache.first with
    | [] => .ok (q, none)
    | m :: ms => .ok ({ q with cache := { q.cache with first := ms } }, some m)

/-- The position cuts the first part of the cache in two. -/
theorem insertLoop_eq (hp : α → Bool) (n : ℕ) (before after : List α) (q : Mailbox α) :
    insertLoop hp n (before ++ after) before.length q = fetchLoop hp n before after q := by
  induction n generalizing before after q with
  | zero => rfl
  | succ n ih =>
    rw [insertLoop, fetchLoop]
    rcases q.tryPop with e | ⟨q', _ | m⟩
    · rfl
    · rfl
    · dsimp only
      cases hm : hp m with
      | true =>
        -- in front of the position, which moves on
        have hr := ih (before ++ [m]) after q'
        rw [List.append_assoc, List.singleton_append, List.length_append, List.length_singleton] at hr
        simp only [if_true, true_or, Bool.true_eq_false, and_false, if_false]
        rw [insertIdx_length, hr]
      | false =>
        -- at the end, which the position leaves if it was there
        have hi := List.insertIdx_length_self (l := before ++ after) (x := m)
        rw [List.append_assoc] at hi
        have hpos : (if (if before.length = (before ++ after).length then before.length + 1
            else before.length) = (before ++ after).length + 1
            then (if before.length = (before ++ after).length then before.length + 1
              else before.length) - 1
            else (if before.length = (before ++ after).length then before.length + 1
              else before.length)) = before.length := by
          rw [List.length_append]
          split_ifs <;> omega
        simp only [Bool.false_eq_true, if_false, false_or, and_true]
        rw [hi, hpos, ih]

/-- **The position is only a way to cut the list.** -/
theorem nextMessageAt_eq (hp : α → Bool) (q : Mailbox α) : q.nextMessageAt hp = q.nextMessage hp := by
  have hl := insertLoop_eq hp (q.waiting.length + 1) [] q.cache.first q
  rw [List.nil_append, List.length_nil] at hl
  rw [nextMessageAt, nextMessage, fetchAllAt, fetchAll]
  exact hl ▸ rfl

/-! ### One call -/

/-- The messages of high priority are in front of all others. -/
def HighFirst (hp : α → Bool) (l : List α) : Prop :=
  ∃ high normal, l = high ++ normal ∧ (∀ m ∈ high, hp m = true) ∧ ∀ m ∈ normal, hp m = false

/-- The loop appends what is waiting to the two parts of the list. -/
theorem fetchLoop_open (hp : α → Bool) {n : ℕ} {before after : List α} {q : Mailbox α} (ho : q.Open)
    (hn : q.waiting.length < n) :
    fetchLoop hp n before after q = .ok ({ stack := .list [], head := [], cache := q.cache },
      before ++ q.waiting.filter hp ++ (after ++ q.waiting.filter (!hp ·))) := by
  induction n generalizing before after q with
  | zero => cases hn
  | succ n ih =>
    cases hw : q.waiting with
    | nil =>
      obtain ⟨hpop, hs, hh⟩ := tryPop_nil ho hw
      obtain ⟨stack, head, cache⟩ := q
      obtain ⟨rfl, rfl⟩ : stack = .list [] ∧ head = [] := ⟨hs, hh⟩
      simp [fetchLoop, hpop]
    | cons m w =>
      obtain ⟨q', hpop, ho', hw', hc'⟩ := tryPop_cons ho hw
      have hlt : q'.waiting.length < n := by
        rw [hw] at hn
        rw [hw']
        exact Nat.lt_of_succ_lt_succ hn
      rw [fetchLoop, hpop]
      dsimp only
      cases hm : hp m with
      | true => rw [if_pos rfl, ih ho' hlt, hw', hc']; simp [hm]
      | false => rw [if_neg Bool.false_ne_true, ih ho' hlt, hw', hc']; simp [hm]

/-- In a list of normal messages with others sorted into it, those of each priority are in the
order in which they came. -/
theorem filter_class {hp : α → Bool} {l w : List α} (b : Bool) (hl : ∀ m ∈ l, hp m = false) :
    (w.filter hp ++ (l ++ w.filter (!hp ·))).filter (hp · = b) = (l ++ w).filter (hp · = b) := by
  simp only [List.filter_append, List.filter_filter]
  cases b with
  | true =>
    have hnil : l.filter (hp · = true) = [] := List.filter_eq_nil_iff.mpr fun m hm => by simp [hl m hm]
    rw [hnil]
    simp
  | false => simp

/-- What the fetch of `next_message` leaves behind: the first part is ordered and holds
everything, or begins with a message of high priority; no message has overtaken another of
its priority. -/
theorem fetchAll_spec {hp : α → Bool} {q : Mailbox α} (ho : q.Open) (hf : HighFirst hp q.cache.first) :
    ∃ q', q.fetchAll hp = .ok q' ∧ q'.Open ∧ q'.cache.second = q.cache.second ∧
      HighFirst hp q'.cache.first ∧
      (∀ b, q'.contents.filter (hp · = b) = q.contents.filter (hp · = b)) ∧
      (q'.waiting = [] ∨ ∃ m l, q'.cache.first = m :: l ∧ hp m = true) := by
  obtain ⟨high, normal, hfirst, hh, hn⟩ := hf
  cases high with
  | cons m high =>
    -- a message of high priority is first: nothing is fetched
    have hm := hh m List.mem_cons_self
    refine ⟨q, ?_, ho, rfl, ⟨m :: high, normal, hfirst, hh, hn⟩, fun b => rfl, .inr ⟨m, _, hfirst, hm⟩⟩
    rw [fetchAll, if_pos]
    rw [hfirst]
    exact hm
  | nil =>
    have hany : q.cache.first.head?.any hp = false := by
      rw [hfirst]
      cases normal with
      | nil => rfl
      | cons m normal => exact hn m List.mem_cons_self
    refine ⟨q.fetched (q.waiting.filter hp ++ (q.cache.first ++ q.waiting.filter (!hp ·))), ?_,
      open_fetched q _, rfl, ?_, fun b => ?_, .inl rfl⟩
    · rw [fetchAll, hany, if_neg Bool.false_ne_true, fetchLoop_open hp ho (Nat.lt_succ_self _)]
      rfl
    · refine ⟨_, _, rfl, fun m hm => (List.mem_filter.mp hm).2, fun m hm => ?_⟩
      rw [hfirst] at hm
      rcases List.mem_append.mp hm with hm | hm
      · exact hn m hm
      · exact Bool.not_eq_true' _ ▸ (List.mem_filter.mp hm).2
    · rw [contents_fetched, filter_class b fun m hm => ?_, contents]
      rw [hfirst] at hm
      exact hn m hm

/-- **One call** of `next_message`. -/
theorem nextMessage_spec {hp : α → Bool} {q : Mailbox α} (ho : q.Open) (hf : HighFirst hp q.cache.first) :
    ∃ q' r, q.nextMessage hp = .ok (q', r) ∧ q'.Open ∧ q'.cache.second = q.cache.second ∧
      HighFirst hp q'.cache.first ∧
      (∀ b, (r.toList ++ q'.contents).filter (hp · = b) = q.contents.filter (hp · = b)) ∧
      (∀ m, r = some m → hp m = false → ∀ x ∈ q'.contents, hp x = false) ∧
      (r = none → q'.contents = []) := by
  obtain ⟨q₁, hq, ho₁, hs₁, ⟨high, normal, hfirst, hh, hn⟩, hc₁, hw₁⟩ := fetchAll_spec ho hf
  rw [nextMessage, hq]
  cases hl : q₁.cache.first with
  | nil =>
    have hw : q₁.waiting = [] := by
      refine hw₁.resolve_right ?_
      rintro ⟨m, l, hm, -⟩
      rw [hl] at hm
      cases hm
    have hnil : q₁.contents = [] := by rw [contents, hl, hw]; rfl
    refine ⟨q₁, none, by simp only [hl], ho₁, hs₁, ⟨[], [], hl, ?_, ?_⟩, hc₁, ?_, fun _ => hnil⟩
    · exact List.forall_mem_nil _
    · exact List.forall_mem_nil _
    · intro m hm
      cases hm
  | cons m ms =>
    have hcons : m :: ms = high ++ normal := hl.symm.trans hfirst
    have hrest : HighFirst hp ms := by
      cases high with
      | nil =>
        obtain rfl : m :: ms = normal := hcons
        exact ⟨[], ms, rfl, List.forall_mem_nil _, fun x hx => hn x (List.mem_cons_of_mem _ hx)⟩
      | cons y high =>
        obtain ⟨rfl, rfl⟩ := List.cons.inj hcons
        exact ⟨high, normal, rfl, fun x hx => hh x (List.mem_cons_of_mem _ hx), hn⟩
    refine ⟨{ q₁ with cache := { q₁.cache with first := ms } }, some m, by simp only [hl], ho₁, hs₁,
      hrest, fun b => ?_, ?_, fun hm => absurd hm (Option.some_ne_none m)⟩
    · rw [← hc₁ b, contents, contents, hl]
      rfl
    · rintro _ ⟨⟩ hm x hx
      -- a normal message is first, so nothing waits and no other kind is in the first part
      have hw : q₁.waiting = [] := by
        refine hw₁.resolve_right ?_
        rintro ⟨y, l, hy, hhp⟩
        rw [hl] at hy
        cases hy
        rw [hm] at hhp
        cases hhp
      have hx' : x ∈ ms ++ q₁.waiting := hx
      rw [hw, List.append_nil] at hx'
      cases high with
      | nil =>
        obtain rfl : m :: ms = normal := hcons
        exact hn x (List.mem_cons_of_mem _ hx')
      | cons y high =>
        obtain ⟨rfl, -⟩ := List.cons.inj hcons
        rw [hh m List.mem_cons_self] at hm
        cases hm

/-! ### Any calls -/

/-- A mailbox, with the messages that were enqueued and those that were returned. -/
structure Traffic (α : Type*) where
  /-- The mailbox. -/
  mailbox : Mailbox α := {}
  /-- The messages that `enqueue` was called with, in order. -/
  sent : List α := []
  /-- The messages that `next_message` returned, in order. -/
  returned : List α := []

/-- A call, taken as a whole. -/
inductive TrafficCall (α : Type*) where
  /-- `enqueue`. -/
  | enqueue (m : α)
  /-- `next_message`. -/
  | nextMessage
  deriving DecidableEq

/-- Any calls, on a mailbox that is open and empty. -/
def traffic (hp : α → Bool) : System (Traffic α) (TrafficCall α) where
  Init s := s = {}
  step s
    | .enqueue m => some { s with mailbox := (s.mailbox.enqueue m).1, sent := s.sent ++ [m] }
    | .nextMessage =>
      match s.mailbox.nextMessageAt hp with
      | .error _ => none
      | .ok (q, r) => some { s with mailbox := q, returned := s.returned ++ r.toList }

/-- The invariant. -/
structure Traffic.Orderly (hp : α → Bool) (s : Traffic α) : Prop where
  isOpen : s.mailbox.Open
  second : s.mailbox.cache.second = []
  first : HighFirst hp s.mailbox.cache.first
  fifo : ∀ b, (s.returned ++ s.mailbox.contents).filter (hp · = b) = s.sent.filter (hp · = b)

theorem orderly_of_reachable {hp : α → Bool} {s : Traffic α} (h : (traffic hp).Reachable s) :
    s.Orderly hp := by
  refine System.Reachable.invariant (I := Traffic.Orderly hp) ?_ ?_ h
  · rintro _ rfl
    exact ⟨⟨[], rfl⟩, rfl, ⟨[], [], rfl, nofun, nofun⟩, fun _ => rfl⟩
  · intro s c s' hI hs
    cases c with
    | enqueue m =>
      cases hs
      have hc := hI.isOpen.ne_closed
      have hcontents : (s.mailbox.enqueue m).1.contents = s.mailbox.contents ++ [m] := by
        rw [contents, contents, waiting_enqueue hc, cache_enqueue, List.append_assoc]
      refine ⟨open_enqueue hc m, ?_, ?_, fun b => ?_⟩
      · exact (congrArg Cache.second (cache_enqueue _ m)).trans hI.second
      · exact (congrArg Cache.first (cache_enqueue s.mailbox m)).symm ▸ hI.first
      · dsimp only
        rw [hcontents, ← List.append_assoc, List.filter_append, hI.fifo b, List.filter_append]
    | nextMessage =>
      obtain ⟨q', r, hq, ho, h₂, h₁, hc, -⟩ := nextMessage_spec hI.isOpen hI.first
      simp only [traffic, nextMessageAt_eq, hq] at hs
      cases hs
      refine ⟨ho, h₂.trans hI.second, h₁, fun b => ?_⟩
      dsimp only
      rw [List.append_assoc, List.filter_append, hc b, ← List.filter_append]
      exact hI.fifo b

/-- Lists with the same elements of each priority, in the same order, have the same elements. -/
theorem perm_of_filter {hp : α → Bool} {l₁ l₂ : List α}
    (h : ∀ b, l₁.filter (hp · = b) = l₂.filter (hp · = b)) : l₁.Perm l₂ := by
  have hs : ∀ l : List α, (l.filter (hp · = true) ++ l.filter (hp · = false)).Perm l := by
    intro l
    have hl := List.filter_append_perm hp l
    simpa using hl
  exact (hs l₁).symm.trans (by rw [h true, h false]; exact hs l₂)

/-- **The order of messages with priorities.** After any calls no message is lost or returned
twice; those of one priority are returned in the order in which they were enqueued; the first
part of the cache is ordered; and the next call returns a normal message only where no message of
high priority is left, and none only where there is none. -/
theorem priority_order {hp : α → Bool} {s : Traffic α} (h : (traffic hp).Reachable s) :
    (s.returned ++ s.mailbox.contents).Perm s.sent ∧
      (∀ b, s.returned.filter (hp · = b) ++ s.mailbox.contents.filter (hp · = b) =
        s.sent.filter (hp · = b)) ∧
      HighFirst hp s.mailbox.cache.first ∧ s.mailbox.cache.second = [] ∧
      ∃ q' r, s.mailbox.nextMessageAt hp = .ok (q', r) ∧
        (∀ m, r = some m → hp m = false → ∀ x ∈ q'.contents ++ q'.cache.second, hp x = false) ∧
        (r = none → q'.contents = []) := by
  have hI := orderly_of_reachable h
  obtain ⟨q', r, hq, -, h₂, -, -, hnormal, hnone⟩ := nextMessage_spec hI.isOpen hI.first
  refine ⟨perm_of_filter hI.fifo, fun b => ?_, hI.first, hI.second, q', r, ?_, ?_, hnone⟩
  · rw [← List.filter_append]
    exact hI.fifo b
  · rw [nextMessageAt_eq, hq]
  · rw [h₂.trans hI.second, List.append_nil]
    exact hnormal

/-- Messages from `10` on are of high priority. Two of them overtake `1` and `3`, one of which
is returned before another arrives. -/
theorem priority_order_five :
    ∃ s : Traffic ℕ, (traffic (10 ≤ ·)).Reachable s ∧ s.returned = [12, 11, 1] ∧
      s.mailbox.contents = [3, 13] ∧ (s.returned ++ s.mailbox.contents).Perm s.sent := by
  have hr : (traffic (10 ≤ ·)).Reachable
      ⟨⟨.list [13], [], ⟨[3], []⟩⟩, [1, 12, 3, 11, 13], [12, 11, 1]⟩ :=
    System.Reachable.of_actions rfl [.enqueue 1, .enqueue 12, .enqueue 3, .nextMessage, .enqueue 11,
      .nextMessage, .nextMessage, .enqueue 13] rfl
  exact ⟨_, hr, rfl, rfl, (priority_order hr).1⟩

end ActorsFramework.Detail.Mailbox
