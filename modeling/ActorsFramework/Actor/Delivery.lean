import ActorsFramework.Actor.Activation
import ActorsFramework.Actor.Wakeup

/-!
# What becomes of the messages

The way of every message sent to one cooperative actor by any number of threads,
through the steps of `ActorsFramework.Actor.Scheduling`: from the call of
`enqueue_base` to the exchange that puts it on the stack, from there to the cache,
from there to a handler.

* `called`, `pushed`, `delivered` — the messages of a run's calls, exchanges and
  handlers, each in the order of the steps.
* `delivered_in_order` — as long as at most one worker is active and no run begins
  with messages in the cache, handlers receive the messages in the order of the
  exchanges, each once; and the exchanges of a thread are in the order of its calls.
-/

namespace ActorsFramework.Scheduling

open Detail Lib
open Actor (isHighPriority)

variable {τ α : Type*}

/-! ### The record of a run -/

section Record

variable [DecidableEq α]

/-- The message that the next step of `enqueue_base` puts on the stack. -/
def pushes (q : Mailbox α) : SendPc α → Option α
  | .exchange m e => if e.isNull then none else if q.stack.top = e then some m else none
  | _ => none

/-- The message a sender has not put on the stack yet. -/
def SendPc.carried : SendPc α → List α
  | .load m | .exchange m _ => [m]
  | _ => []

/-- The message whose handler a step of `run` has entered. -/
def WorkPc.entered : WorkPc α → Option α
  | .handler _ m => some m
  | _ => none

namespace State

/-- The message that `enqueue_base` is called with. -/
def calls (_ : State τ α) : Act τ α → Option (τ × α)
  | .call t m => some (t, m)
  | _ => none

/-- The message put on the stack, with the thread that does. -/
def sends (s : State τ α) : Act τ α → Option (τ × α)
  | .send t => (pushes s.mailbox (s.thread t).send).map fun m => (t, m)
  | _ => none

/-- The message handed to a handler. -/
def hands (maxThroughput : ℕ) (s : State τ α) : Act τ α → Option α
  | .work t => (runStep maxThroughput s.mailbox (s.thread t).work).bind fun r => r.2.entered
  | _ => none

end State

/-- The messages `enqueue_base` was called with, each with the thread that called it. -/
def called (tr : List (State τ α × Act τ α)) : List (τ × α) :=
  tr.filterMap fun p => p.1.calls p.2

/-- The messages put on the stack, each with the thread that did. -/
def pushed (tr : List (State τ α × Act τ α)) : List (τ × α) :=
  tr.filterMap fun p => p.1.sends p.2

/-- The messages handed to a handler. -/
def delivered (maxThroughput : ℕ) (tr : List (State τ α × Act τ α)) : List α :=
  tr.filterMap fun p => p.1.hands maxThroughput p.2

omit [DecidableEq α] in
theorem filterMap_concat {β γ : Type*} (f : β → Option γ) (l : List β) (b : β) :
    (l ++ [b]).filterMap f = l.filterMap f ++ (f b).toList := by
  rw [List.filterMap_append]
  cases h : f b <;> simp [h]

end Record

/-! ### The steps -/

/-- Where a worker is whose run began with nothing in the cache: in the second loop, and
nobody else has filled `head_` since it read the stack. -/
def WorkPc.Direct (q : Mailbox α) : WorkPc α → Prop
  | .tryPop pt | .tryBlock pt | .handler pt _ => pt.loop = .main
  | .exchange pt _ => pt.loop = .main ∧ q.head = []
  | _ => True

/-- A worker that does not look at `head_` does not mind what is in it. -/
theorem WorkPc.Direct.congr {q q' : Mailbox α} {pc : WorkPc α} (h : pc.Direct q)
    (hh : q'.head = q.head) : pc.Direct q' := by
  cases pc with
  | exchange => exact ⟨h.1, hh.trans h.2⟩
  | _ => exact h

theorem WorkPc.Direct.outside {q q' : Mailbox α} {pc : WorkPc α} (h : pc.Direct q)
    (hin : pc.inRun = false) : pc.Direct q' := by
  cases pc with
  | exchange => cases hin
  | _ => exact h

section Run

variable {maxThroughput : ℕ}

variable (maxThroughput) in
theorem direct_mainHead (q : Mailbox α) (n : ℕ) (m : α) :
    (mainHead maxThroughput n (some m)).Direct q ∧
      (mainHead maxThroughput n (some m)).entered = none := by
  unfold mainHead
  split_ifs
  · exact ⟨rfl, rfl⟩
  · exact ⟨trivial, rfl⟩

/-- A run that finds the cache empty goes to its second loop. -/
theorem direct_cacheHead (hmax : 0 < maxThroughput) {q : Mailbox α} (hf : q.cache.first = [])
    (hs : q.cache.second = []) : (cacheHead maxThroughput q 0 none).Direct q := by
  have he : ¬ (0 < maxThroughput ∧ q.cache.empty = false) := by
    simp [Cache.empty, hf, hs]
  unfold cacheHead mainHead
  rw [if_neg he, if_pos hmax]
  rfl

/-- `try_block` touches no message. -/
theorem tryBlock_frame {q : Mailbox α} (ho : q.stack ≠ .closed) :
    q.tryBlock.1.contents = q.contents ∧ q.tryBlock.1.cache = q.cache ∧
    q.tryBlock.1.head = q.head ∧ q.tryBlock.1.stack ≠ .closed := by
  rcases q.tryBlock_fst with hq | ⟨hs, hq⟩
  · rw [hq]
    exact ⟨rfl, rfl, rfl, ho⟩
  · rw [hq]
    refine ⟨?_, rfl, rfl, nofun⟩
    simp [Mailbox.contents, Mailbox.waiting, hs]

variable (maxThroughput) in
/-- `next_message` in the second loop: what it takes from the cache is handed over. -/
theorem taken_main (q : Mailbox α) {pt : Point} (hpt : pt.loop = .main) :
    (taken maxThroughput q pt).2.Direct (taken maxThroughput q pt).1 ∧
    (taken maxThroughput q pt).1.cache.second = q.cache.second ∧
    (taken maxThroughput q pt).1.head = q.head ∧
    q.contents = (taken maxThroughput q pt).2.entered.toList ++ (taken maxThroughput q pt).1.contents := by
  obtain ⟨loop, n⟩ := pt
  obtain rfl : loop = .main := hpt
  unfold taken
  split
  next hf => exact ⟨rfl, rfl, rfl, rfl⟩
  next m ms hf =>
    refine ⟨rfl, rfl, rfl, ?_⟩
    rw [Mailbox.contents, hf]
    rfl

/-- An element that goes from the head of what waits to the end of the cache. -/
theorem contents_cached (q q' : Mailbox α) {x : α} {head : List α} (hc : q'.cache = q.cache)
    (hw : q.waiting = x :: head ++ q'.stack.elems.reverse) :
    (cached q' head x).contents = q.contents := by
  simp [cached, Mailbox.contents, Mailbox.waiting, hc] at hw ⊢
  exact hw.symm

variable [DecidableEq α]

/-- **A step of a run**: the message it hands over, if any, was the first of the mailbox, and
nothing else leaves it. -/
theorem contents_runStep {q : Mailbox α} {pc : WorkPc α} {r : Mailbox α × WorkPc α} (hd : pc.Direct q)
    (ho : q.stack ≠ .closed) (hsec : q.cache.second = []) (h : runStep maxThroughput q pc = some r) :
    r.2.Direct r.1 ∧ r.1.cache.second = [] ∧ q.contents = r.2.entered.toList ++ r.1.contents := by
  cases pc with
  | tryPop pt =>
    simp only [runStep] at h
    split at h
    next x head hh =>
      cases h
      refine ⟨hd, hsec, (contents_cached q q rfl ?_).symm⟩
      rw [Mailbox.waiting, hh]
    next hh =>
      split at h
      next => cases h; exact ⟨trivial, hsec, rfl⟩
      next => cases h; exact ⟨trivial, hsec, rfl⟩
      next =>
        cases h
        obtain ⟨h₁, h₂, -, h₄⟩ := taken_main maxThroughput q hd
        exact ⟨h₁, h₂.trans hsec, h₄⟩
      next => cases h; exact ⟨⟨hd, hh⟩, hsec, rfl⟩
  | exchange pt e =>
    obtain ⟨hpt, hhead⟩ := hd
    simp only [runStep] at h
    split_ifs at h with he hb he'
    · cases h
      have hs := Stack.top_eq_blockedDummy.mp (he.trans hb)
      refine ⟨trivial, hsec, ?_⟩
      simp [Mailbox.contents, Mailbox.waiting, hs, WorkPc.entered]
    · rw [hhead, Mailbox.relink_eq, List.append_nil] at h
      split at h
      next hr =>
        cases h
        refine ⟨trivial, hsec, ?_⟩
        simp [Mailbox.contents, Mailbox.waiting, hr, hhead, WorkPc.entered]
      next x head hr =>
        cases h
        refine ⟨hpt, hsec, (contents_cached q { q with stack := .list [] } rfl ?_).symm⟩
        rw [Mailbox.waiting, hhead, hr]
        simp
    · cases h
      obtain ⟨h₁, h₂, -, h₄⟩ := taken_main maxThroughput q hpt
      exact ⟨h₁, h₂.trans hsec, h₄⟩
    · cases h
      exact ⟨⟨hpt, hhead⟩, hsec, rfl⟩
  | tryBlock pt =>
    simp only [runStep] at h
    split at h
    next hb =>
      cases h
      obtain ⟨hs, rfl⟩ := Mailbox.of_tryBlock_true hb
      refine ⟨trivial, hsec, ?_⟩
      simp [Mailbox.contents, Mailbox.waiting, hs, WorkPc.entered]
    next hb =>
      cases h
      obtain rfl := Mailbox.of_tryBlock_false hb
      exact ⟨hd, hsec, rfl⟩
  | handler pt m =>
    cases h
    obtain ⟨loop, n⟩ := pt
    obtain rfl : loop = .main := hd
    obtain ⟨hm, he⟩ := direct_mainHead maxThroughput q (n + 1) m
    refine ⟨hm, hsec, ?_⟩
    change q.contents = (mainHead maxThroughput (n + 1) (some m)).entered.toList ++ q.contents
    rw [he]
    rfl
  | hasNext =>
    simp only [runStep] at h
    split at h <;> cases h <;> exact ⟨trivial, hsec, rfl⟩
  | lastBlock =>
    cases h
    obtain ⟨h₁, h₂, -⟩ := tryBlock_frame ho
    exact ⟨trivial, by rwa [h₂], h₁.symm⟩
  | idle => cases h
  | failed f => cases h
  | store => cases h
  | unblock => cases h
  | deref => cases h

omit [DecidableEq α] in
/-- `run` does not close the mailbox. -/
theorem RunMoves.ne_closed {q q' : Mailbox α} {pc pc' : WorkPc α}
    (h : RunMoves maxThroughput q pc q' pc') (ho : q.stack ≠ .closed) : q'.stack ≠ .closed := by
  cases h with
  | drained => rwa [(private_taken q _).stack]
  | emptied => rwa [(private_taken q _).stack]
  | handled => rwa [(private_handled q _ _).stack]
  | fetch | block => nofun
  | lastBlock => exact (tryBlock_frame ho).2.2.2
  | fail _ hq _ _ =>
    rcases hq with rfl | rfl
    · exact ho
    · nofun
  | _ => exact ho

end Run

section Send

variable [DecidableEq α]

/-- **A step of a sender**: the message it carries goes to the end of the mailbox, or it goes
on carrying it. -/
theorem contents_sendStep {c : Shared α} {pc : SendPc α} {r : Shared α × SendPc α}
    (ho : c.mailbox.stack ≠ .closed) (hl : ∀ m, pc ≠ .exchange m .null)
    (h : sendStep c pc = some r) :
    r.1.mailbox.contents = c.mailbox.contents ++ (pushes c.mailbox pc).toList ∧
    r.1.mailbox.cache = c.mailbox.cache ∧ r.1.mailbox.head = c.mailbox.head ∧
    r.1.mailbox.stack ≠ .closed ∧ (∀ m, r.2 ≠ .exchange m .null) ∧
    pc.carried = (pushes c.mailbox pc).toList ++ r.2.carried := by
  have htop : ∀ m m', (SendPc.exchange m c.mailbox.stack.top) ≠ .exchange m' .null := by
    intro m m' heq
    exact ho (Stack.top_eq_null.mp (SendPc.exchange.inj heq).2)
  cases pc with
  | idle => cases h
  | load m => cases h; exact ⟨by simp [pushes], rfl, rfl, ho, htop m, rfl⟩
  | exchange m e =>
    simp only [sendStep] at h
    split_ifs at h with hn he
    · cases e with
      | null => exact absurd rfl (hl m)
      | _ => cases hn
    · cases h
      have hp : pushes c.mailbox (.exchange m e) = some m := by
        rw [pushes, if_neg hn, if_pos he]
      rw [hp]
      refine ⟨?_, Mailbox.cache_enqueue _ m, Mailbox.head_enqueue _ m, (Mailbox.open_enqueue ho m).ne_closed,
        by simp, rfl⟩
      rw [Mailbox.contents, Mailbox.waiting_enqueue ho, Mailbox.cache_enqueue, ← List.append_assoc]
      rfl
    · cases h
      have hp : pushes c.mailbox (.exchange m e) = none := by
        rw [pushes, if_neg hn, if_neg he]
      rw [hp]
      exact ⟨by simp, rfl, rfl, ho, htop m, rfl⟩
  | flags =>
    simp only [sendStep] at h
    split_ifs at h <;> cases h <;> exact ⟨by simp [pushes], rfl, rfl, ho, by simp, rfl⟩
  | busy => cases h; exact ⟨by simp [pushes], rfl, rfl, ho, by simp, rfl⟩
  | block =>
    cases h
    obtain ⟨h₁, h₂, h₃, h₄⟩ := tryBlock_frame ho
    exact ⟨by simpa [pushes] using h₁, h₂, h₃, h₄, by simp, rfl⟩
  | ref => cases h; exact ⟨by simp [pushes], rfl, rfl, ho, by simp, rfl⟩
  | execute => cases h; exact ⟨by simp [pushes], rfl, rfl, ho, by simp, rfl⟩

end Send

/-! ### The senders -/

section Senders

variable [DecidableEq τ] {maxThroughput : ℕ} {tr : List (State τ α × Act τ α)} {s s' : State τ α}
  {a : Act τ α}

theorem send_worked (s : State τ α) (t u : τ) (c : Shared α) (pc : WorkPc α) :
    ((s.worked t c pc).thread u).send = (s.thread u).send := by
  by_cases hut : u = t
  · subst hut
    simp [State.worked]
  · simp [State.worked, hut]

/-- What a thread carries after a step of its own in which it is called with `l` and puts `o`
on the stack. -/
theorem carried_sent {t : τ} {c : Shared α} {pc : SendPc α} {l o : Option α}
    (h : (s.thread t).send.carried ++ l.toList = o.toList ++ pc.carried) (u : τ) :
    (s.thread u).send.carried.map (fun m => (u, m)) ++
        (l.map fun m => (t, m)).toList.filter (fun p => p.1 = u) =
      (o.map fun m => (t, m)).toList.filter (fun p => p.1 = u) ++
        ((s.sent t c pc).thread u).send.carried.map fun m => (u, m) := by
  by_cases hu : u = t
  · subst hu
    have h' := congrArg (List.map fun m => (u, m)) h
    cases l <;> cases o <;> simpa [State.sent] using h'
  · cases l <;> cases o <;> simp [State.sent, hu, Ne.symm hu]

variable [DecidableEq α]

/-- What is true of the senders in every run. -/
structure Sending (tr : List (State τ α × Act τ α)) (s : State τ α) : Prop where
  /-- What a thread has put on the stack and what it carries is what it was called with, in order. -/
  sent : ∀ t, (called tr).filter (fun p => p.1 = t) =
    (pushed tr).filter (fun p => p.1 = t) ++ (s.thread t).send.carried.map fun m => (t, m)
  /-- The mailbox is not closed. -/
  live : s.mailbox.stack ≠ .closed
  /-- Nor has a sender read that it is. -/
  read : ∀ t m, (s.thread t).send ≠ .exchange m .null

theorem sending_init : Sending [] ({} : State τ α) where
  sent _ := rfl
  live := nofun
  read _ _ := nofun

/-- A step of a sender. -/
theorem Sending.send (h : Sending tr s) {t : τ} {c : Shared α} {pc : SendPc α} {l o : Option α}
    (hl : s.calls a = l.map fun m => (t, m)) (ho : s.sends a = o.map fun m => (t, m))
    (hcar : (s.thread t).send.carried ++ l.toList = o.toList ++ pc.carried)
    (hlive : c.mailbox.stack ≠ .closed) (hread : ∀ m, pc ≠ .exchange m .null) :
    Sending (tr ++ [(s, a)]) (s.sent t c pc) where
  sent u := by
    rw [called, pushed, filterMap_concat, filterMap_concat, hl, ho, List.filter_append,
      List.filter_append]
    have hu := h.sent u
    rw [called, pushed] at hu
    rw [hu, List.append_assoc, List.append_assoc, carried_sent hcar u]
  live := hlive
  read u := by
    by_cases hu : u = t
    · subst hu
      simpa [State.sent] using hread
    · simpa [State.sent, hu] using h.read u

/-- A step of a worker. -/
theorem Sending.work (h : Sending tr s) {t : τ} {c : Shared α} {pc : WorkPc α}
    (hc : s.calls a = none) (hs : s.sends a = none) (hl : c.mailbox.stack ≠ .closed) :
    Sending (tr ++ [(s, a)]) (s.worked t c pc) where
  sent u := by
    rw [called, pushed, filterMap_concat, filterMap_concat, hc, hs, send_worked]
    simpa [called, pushed] using h.sent u
  live := hl
  read u := by
    rw [send_worked]
    exact h.read u

theorem Sending.step (h : Sending tr s) (hs : step maxThroughput s a = some s') :
    Sending (tr ++ [(s, a)]) s' := by
  cases a with
  | call t m =>
    cases moves_of_step hs with
    | call hp => exact h.send (l := some m) (o := none) rfl rfl (by rw [hp]; rfl) h.live nofun
  | send t =>
    obtain ⟨r, hr, rfl⟩ := Option.map_eq_some_iff.mp hs
    obtain ⟨-, -, -, hlive, hread, hcar⟩ := contents_sendStep h.live (h.read t) hr
    exact h.send (l := none) rfl rfl (by simpa using hcar) hlive hread
  | dequeue t =>
    cases moves_of_step hs with
    | dequeue _ _ => exact h.work rfl rfl h.live
  | work t =>
    cases moves_of_step hs with
    | run _ hr => exact h.work rfl rfl ((runMoves_of_runStep hr).ne_closed h.live)
    | store _ => exact h.work rfl rfl h.live
    | unblock _ => exact h.work rfl rfl (Mailbox.open_tryUnblock h.live).ne_closed
    | deref _ => exact h.work rfl rfl h.live

theorem sending_of_run (h : (system τ α maxThroughput).Run tr s) : Sending tr s := by
  induction h with
  | init h₀ => cases h₀; exact sending_init
  | step _ hs ih => exact ih.step hs

end Senders

/-! ### The mailbox -/

section Order

variable [DecidableEq α]

variable {maxThroughput : ℕ} {tr : List (State τ α × Act τ α)} {s s' : State τ α} {a : Act τ α}

variable (maxThroughput) in
/-- What is true of the mailbox in every orderly run. -/
structure Ordered (tr : List (State τ α × Act τ α)) (s : State τ α) : Prop where
  /-- What was handed over and what is in the mailbox is what was put on the stack, in order. -/
  order : (pushed tr).map Prod.snd = delivered maxThroughput tr ++ s.mailbox.contents
  /-- Nothing is ever skipped. -/
  second : s.mailbox.cache.second = []
  /-- The runs began with nothing in the cache. -/
  direct : ∀ t, (s.thread t).work.Direct s.mailbox

theorem ordered_init : Ordered maxThroughput [] ({} : State τ α) where
  order := rfl
  second := rfl
  direct _ := trivial

/-- A step that hands nothing over and changes `head_` and the cache in nothing. -/
theorem Ordered.frame (h : Ordered maxThroughput tr s) (hh : s'.mailbox.head = s.mailbox.head)
    (hc : s'.mailbox.cache = s.mailbox.cache) (hd : s.hands maxThroughput a = none)
    (ho : s'.mailbox.contents = s.mailbox.contents ++ ((s.sends a).map Prod.snd).toList)
    (hw : ∀ t, (s'.thread t).work = (s.thread t).work ∨ (s'.thread t).work.Direct s.mailbox) :
    Ordered maxThroughput (tr ++ [(s, a)]) s' where
  order := by
    have := h.order
    rw [pushed, delivered] at this ⊢
    rw [filterMap_concat, filterMap_concat, hd, List.map_append, this, ho]
    cases s.sends a <;> simp
  second := by rw [hc]; exact h.second
  direct t := by
    rcases hw t with hw | hw
    · rw [hw]
      exact (h.direct t).congr hh
    · exact hw.congr hh

variable [Fintype τ] [DecidableEq τ]

/-- A worker enters `run` only while nothing is in the cache. -/
def Fresh (s : State τ α) : Act τ α → Prop
  | .dequeue _ => s.mailbox.cache.first = []
  | _ => True

/-- No second activation, and no run that begins with messages in the cache. -/
def Orderly (s : State τ α) (a : Act τ α) : Prop := Undisputed s a ∧ Fresh s a

instance (s : State τ α) (a : Act τ α) : Decidable (Fresh s a) :=
  match a with
  | .dequeue _ => inferInstanceAs (Decidable (s.mailbox.cache.first = []))
  | .call _ _ => isTrue trivial
  | .send _ => isTrue trivial
  | .work _ => isTrue trivial

instance (s : State τ α) (a : Act τ α) : Decidable (Orderly s a) :=
  inferInstanceAs (Decidable (Undisputed s a ∧ Fresh s a))

omit [Fintype τ] [DecidableEq α] in
/-- A worker that goes to a place outside `run`, or to its beginning. -/
theorem work_worked {t : τ} {c : Shared α} {pc : WorkPc α} {q : Mailbox α} (hpc : pc.Direct q) (u : τ) :
    ((s.worked t c pc).thread u).work = (s.thread u).work ∨
      ((s.worked t c pc).thread u).work.Direct q := by
  by_cases hu : u = t
  · subst hu
    exact .inr (by simpa [State.worked] using hpc)
  · exact .inl (by simp [State.worked, hu])

/-- A step of `run`: nobody else is in `run`. -/
theorem Ordered.run (h : Ordered maxThroughput tr s) (hlive : s.mailbox.stack ≠ .closed)
    (h1 : Single s) {t : τ} {r : Mailbox α × WorkPc α}
    (hr : runStep maxThroughput s.mailbox (s.thread t).work = some r) :
    Ordered maxThroughput (tr ++ [(s, .work t)]) (s.worked t { s.toShared with mailbox := r.1 } r.2) := by
  obtain ⟨hd, hsec, hcon⟩ := contents_runStep (h.direct t) hlive h.second hr
  refine ⟨?_, hsec, fun u => ?_⟩
  · have ho := h.order
    rw [pushed, delivered] at ho ⊢
    rw [filterMap_concat, filterMap_concat, List.map_append, ho, hcon, State.hands, hr]
    simp [State.sends, State.worked]
  · by_cases hu : u = t
    · subst hu
      simpa [State.worked] using hd
    · have hw : ((s.worked t { s.toShared with mailbox := r.1 } r.2).thread u).work =
          (s.thread u).work := by simp [State.worked, hu]
      rw [hw]
      refine (h.direct u).outside ?_
      by_contra hin
      have hle := add_le_tally Thread.activations s.thread hu
      have hut : 1 ≤ (s.thread u).activations := by
        rw [Thread.activations, active_of_inRun (by simpa using hin)]
        exact Nat.le_add_left _ _
      have htt : 1 ≤ (s.thread t).activations := by
        rw [Thread.activations, active_of_inRun (runMoves_of_runStep hr).inRun]
        exact Nat.le_add_left _ _
      have := h1.one
      omega

theorem Ordered.step (hmax : 0 < maxThroughput) (h : Ordered maxThroughput tr s) (hsend : Sending tr s)
    (h1 : Single s) (hC : Fresh s a) (hs : step maxThroughput s a = some s') :
    Ordered maxThroughput (tr ++ [(s, a)]) s' := by
  cases a with
  | call t m =>
    cases moves_of_step hs with
    | call hp => exact h.frame rfl rfl rfl (by simp [State.sends, State.sent]) fun u => .inl (work_sent ..)
  | send t =>
    obtain ⟨r, hr, rfl⟩ := Option.map_eq_some_iff.mp hs
    obtain ⟨hcon, hc, hh, -⟩ := contents_sendStep hsend.live (hsend.read t) hr
    refine h.frame hh hc rfl ?_ fun u => .inl (work_sent ..)
    rw [State.sends, Option.map_map]
    simpa [State.sent] using hcon
  | dequeue t =>
    cases moves_of_step hs with
    | dequeue ht _ =>
      exact h.frame rfl rfl rfl (by simp [State.sends, State.worked])
        (work_worked (direct_cacheHead hmax hC h.second))
  | work t =>
    cases moves_of_step hs with
    | run _ hr => exact h.run hsend.live h1 hr
    | store ht =>
      exact h.frame rfl rfl (by rw [State.hands, ht]; rfl) (by simp [State.sends, State.worked])
        (work_worked trivial)
    | unblock ht =>
      refine h.frame (Mailbox.head_tryUnblock _) (Mailbox.cache_tryUnblock _)
        (by rw [State.hands, ht]; rfl) ?_ (work_worked trivial)
      simp [State.sends, State.worked, Mailbox.contents, Mailbox.waiting_tryUnblock,
        Mailbox.cache_tryUnblock]
    | deref ht =>
      exact h.frame rfl rfl (by rw [State.hands, ht]; rfl) (by simp [State.sends, State.worked])
        (work_worked trivial)

/-- The order is kept in every orderly run. -/
theorem ordered_of_run (hmax : 0 < maxThroughput) (h : (system τ α maxThroughput).Run tr s)
    (hC : System.Meets Orderly tr) : Ordered maxThroughput tr s := by
  induction h with
  | init h₀ => cases h₀; exact ordered_init
  | step hr hs ih =>
    obtain ⟨hm, ha⟩ := System.meets_concat.mp hC
    have h1 : Single _ := single_of_reachableBy ⟨_, hr, fun p hp => (hm p hp).1⟩
    exact (ih hm).step hmax (sending_of_run hr) h1 ha.2 hs

/-- **Every message once, and in order**. In every run of the threads the exchanges of a
thread are in the order of its calls. In a run without a second activation, and in which no
`run` begins with messages in the cache, handlers receive the messages in the order of the
exchanges, none lost and none twice. Where besides no sender leaves a message to nobody and
no run exhausts the throughput, every message that `enqueue_base` was called with has been
handled in every quiescent state. -/
theorem delivered_in_order (hmax : 0 < maxThroughput) (h : (system τ α maxThroughput).Run tr s) :
    (∀ t, (called tr).filter (fun p => p.1 = t) =
      (pushed tr).filter (fun p => p.1 = t) ++ (s.thread t).send.carried.map fun m => (t, m)) ∧
    (System.Meets Orderly tr →
      (pushed tr).map Prod.snd = delivered maxThroughput tr ++ s.mailbox.contents) ∧
    (System.Meets Orderly tr → System.Meets Served tr → s.Quiescent →
      delivered maxThroughput tr = (pushed tr).map Prod.snd ∧
      ∀ t, (called tr).filter (fun p => p.1 = t) = (pushed tr).filter (fun p => p.1 = t)) := by
  have hsend := sending_of_run h
  refine ⟨hsend.sent, fun hC => (ordered_of_run hmax h hC).order, fun hC hS hq => ⟨?_, fun t => ?_⟩⟩
  · have hheld := (watched_of_reachableBy ⟨tr, h, hS⟩).held_eq_nil hq
    rw [(ordered_of_run hmax h hC).order, (List.append_eq_nil_iff.mp hheld).2, List.append_nil]
  · rw [hsend.sent t, (hq.2 t).1]
    simp [SendPc.carried]

/-- The second sender's message comes while the worker is reading: both are handled. -/
theorem delivered_in_order_two : ∃ (tr : List (State (Fin 3) ℕ × Act (Fin 3) ℕ)) (s : State (Fin 3) ℕ),
    (system (Fin 3) ℕ 10).Run tr s ∧ s.Quiescent ∧ s.refCount = 1 ∧
    delivered 10 tr = (pushed tr).map Prod.snd := by
  obtain ⟨s, hs, hq, hr⟩ : ∃ s, (system (Fin 3) ℕ 10).replay
      (fun s a => decide (Orderly s a ∧ Served s a)) {}
      [.call 0 7, .send 0, .send 0, .send 0, .send 0, .send 0, .send 0, .send 0, .dequeue 2, .work 2,
        .work 2, .work 2, .work 2, .call 1 8, .send 1, .send 1, .send 1, .work 2, .work 2, .work 2,
        .work 2, .work 2, .work 2, .work 2, .work 2, .work 2] = some s ∧ s.Quiescent ∧ s.refCount = 1 :=
    ⟨_, rfl, ⟨rfl, by decide⟩, rfl⟩
  obtain ⟨tr, h, hC⟩ := System.ReachableBy.of_replay (C := fun s a => Orderly s a ∧ Served s a)
    (fun _ _ hc => of_decide_eq_true hc) ⟨[], .init rfl, System.meets_nil _⟩ hs
  exact ⟨tr, s, h, hq, hr, ((delivered_in_order (by decide) h).2.2 (fun p hp => (hC p hp).1)
    (fun p hp => (hC p hp).2) hq).1⟩

end Order

end ActorsFramework.Scheduling
