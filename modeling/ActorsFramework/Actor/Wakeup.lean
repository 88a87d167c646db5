import ActorsFramework.Actor.Scheduling

/-!
# Lost wake-ups

A sender schedules the actor only where it finds `flags_` empty, but a worker that
has blocked the mailbox and is about to return from `run` has not stored empty
yet. A message that arrives in between is left to a worker that will not look
again (`message_stranded`), although `enqueue` has told the sender that the
reader was blocked. Where a sender that reads busy leaves its message to somebody
who is still going to read the mailbox, the mailbox is empty whenever nobody is
left (`no_message_stranded`).
-/

namespace ActorsFramework.Scheduling

open Detail Lib

variable {τ α : Type*}

/-- A sender has put its message on the stack and not yet returned. -/
def SendPc.pushed : SendPc α → Bool
  | .flags | .busy | .block | .ref | .execute => true
  | _ => false

/-- The thread is going to read the mailbox, or to decide who does. -/
def Thread.attends (b : Thread α) : Bool := b.send.pushed || b.work.inRun

/-- Inside `try_pop` at its beginning, or stopped. -/
def WorkPc.popping : WorkPc α → Bool
  | .tryPop _ | .failed _ => true
  | _ => false

/-- Somebody attends to the mailbox: a job is waiting, or some thread will. -/
def State.Attended (s : State τ α) : Prop := s.jobs ≠ 0 ∨ ∃ t, (s.thread t).attends = true

/-- The messages of the mailbox. -/
def State.held (s : State τ α) : List α := s.mailbox.cache.second ++ s.mailbox.contents

/-- No thread is inside `enqueue_base`, no worker inside `run` or the release that follows,
and no job is waiting. -/
def State.Quiescent (s : State τ α) : Prop :=
  s.jobs = 0 ∧ ∀ t, (s.thread t).send = .idle ∧ (s.thread t).work = .idle

/-- No run exhausts the throughput. -/
def Unexhausted (s : State τ α) (_ : Act τ α) : Prop := ∀ t, (s.thread t).work.spent = false

/-- A sender that reads `flags_` as busy, with an element on the stack, does so while a job
is waiting, or a worker is inside `run`, or another sender is behind its push. -/
def Relieved (s : State τ α) : Act τ α → Prop
  | .send t => (s.thread t).send = .flags → s.flags = .busy → s.mailbox.stack.elems ≠ [] →
      s.jobs ≠ 0 ∨ (s.thread t).work.inRun = true ∨ ∃ u, u ≠ t ∧ (s.thread u).attends = true
  | _ => True

/-- Both conditions. -/
def Served (s : State τ α) (a : Act τ α) : Prop := Unexhausted s a ∧ Relieved s a

/-- Whatever is in the mailbox, somebody is going to see it. -/
structure Watched (s : State τ α) : Prop where
  /-- What is on the stack is attended to. -/
  stack : s.mailbox.stack.elems ≠ [] → s.Attended
  /-- Somebody is taking the elements of `head_`. -/
  head : s.mailbox.head ≠ [] → ∃ t, (s.thread t).work.popping = true
  /-- Somebody is taking the elements of the cache. -/
  cache : s.mailbox.cache.first ≠ [] → ∃ t, (s.thread t).work.reading = true
  /-- Nothing is ever skipped. -/
  second : s.mailbox.cache.second = []

theorem watched_init : Watched ({} : State τ α) where
  stack := fun h => absurd rfl h
  head := fun h => absurd rfl h
  cache := fun h => absurd rfl h
  second := rfl

/-- In a quiescent state that is watched the mailbox is empty. -/
theorem Watched.held_eq_nil {s : State τ α} (h : Watched s) (hq : s.Quiescent) : s.held = [] := by
  have hstack : s.mailbox.stack.elems = [] := by
    by_contra hne
    rcases h.stack hne with hj | ⟨t, ht⟩
    · exact hj hq.1
    · rw [Thread.attends, (hq.2 t).1, (hq.2 t).2] at ht
      cases ht
  have hhead : s.mailbox.head = [] := by
    by_contra hne
    obtain ⟨t, ht⟩ := h.head hne
    rw [(hq.2 t).2] at ht
    cases ht
  have hcache : s.mailbox.cache.first = [] := by
    by_contra hne
    obtain ⟨t, ht⟩ := h.cache hne
    rw [(hq.2 t).2] at ht
    cases ht
  simp [State.held, Mailbox.contents, Mailbox.waiting, h.second, hstack, hhead, hcache]

/-! ### A step inside `run` -/

section RunMoves

variable {maxThroughput : ℕ} {q q' : Mailbox α} {pc pc' : WorkPc α}

/-- Nothing is put on the stack, and where something is left on it `run` goes on. -/
theorem RunMoves.stack (h : RunMoves maxThroughput q pc q' pc') (hsp : pc.spent = false)
    (hne : q'.stack.elems ≠ []) : q.stack.elems ≠ [] ∧ pc'.inRun = true := by
  cases h with
  | drained => exact ⟨by rwa [(private_taken q _).stack] at hne, (private_taken q _).inRun⟩
  | emptied => exact ⟨by rwa [(private_taken q _).stack] at hne, (private_taken q _).inRun⟩
  | handled => exact ⟨by rwa [(private_handled q _ _).stack] at hne, (private_handled q _ _).inRun⟩
  | fetch => exact absurd rfl hne
  | block => exact absurd rfl hne
  | hasNext | hasNone | lastBlock => cases hsp
  | fail _ hq =>
    rcases hq with rfl | rfl
    · exact ⟨hne, rfl⟩
    · exact absurd rfl hne
  | pop | read | retry | again => exact ⟨hne, rfl⟩

/-- A worker that leaves elements in `head_` is taking them, or has nothing to do with them. -/
theorem RunMoves.head (h : RunMoves maxThroughput q pc q' pc') (hne : q'.head ≠ []) :
    pc'.popping = true ∨ pc.popping = false ∧ q'.head = q.head := by
  cases h with
  | drained hh => exact absurd ((private_taken q _).head.trans hh) hne
  | emptied => exact .inr ⟨rfl, (private_taken q _).head⟩
  | handled => exact .inr ⟨rfl, (private_handled q _ _).head⟩
  | read hh => exact absurd hh hne
  | lastBlock =>
    refine .inr ⟨rfl, ?_⟩
    rcases q.tryBlock_fst with hq | ⟨-, hq⟩ <;> rw [hq]
  | pop | fetch | again | fail => exact .inl rfl
  | retry | block | hasNext | hasNone => exact .inr ⟨rfl, rfl⟩

/-- A worker that leaves messages in the cache goes on reading, or left them alone. -/
theorem RunMoves.cache (h : RunMoves maxThroughput q pc q' pc') (hsp : pc.spent = false)
    (hne : q'.cache.first ≠ []) :
    pc'.reading = true ∨ pc.reading = false ∧ q'.cache.first = q.cache.first := by
  cases h with
  | drained => exact .inl ((private_taken q _).reading hne)
  | emptied => exact .inl ((private_taken q _).reading hne)
  | handled => exact .inl ((private_handled q _ _).reading hne)
  | block => exact .inr ⟨rfl, rfl⟩
  | hasNext | hasNone | lastBlock => cases hsp
  | pop | read | fetch | retry | again | fail => exact .inl rfl

theorem second_taken {pt : Point} (hpt : pt.loop ≠ .tail) :
    (taken maxThroughput q pt).1.cache.second = q.cache.second := by
  obtain ⟨loop, n⟩ := pt
  unfold taken
  split
  · rfl
  · cases loop with
    | cache =>
      dsimp only
      split_ifs <;> rfl
    | main => rfl
    | tail => exact absurd rfl hpt

/-- The first two loops put nothing in the second part of the cache. -/
theorem RunMoves.second (h : RunMoves maxThroughput q pc q' pc') (hsp : pc.spent = false)
    (hs : q.cache.second = []) : q'.cache.second = [] := by
  cases h with
  | drained => exact (second_taken (by simpa [WorkPc.spent] using hsp)).trans hs
  | emptied => exact (second_taken (by simpa [WorkPc.spent] using hsp)).trans hs
  | @handled pt m =>
    obtain ⟨loop, n⟩ := pt
    cases loop with
    | cache =>
      change q.cache.second.tail = []
      rw [hs]
      rfl
    | main => exact hs
    | tail => exact hs
  | hasNext | hasNone | lastBlock => cases hsp
  | fail _ hq => rcases hq with rfl | rfl <;> exact hs
  | pop | read | fetch | retry | block | again => exact hs

end RunMoves

/-! ### A step of the system -/

variable [DecidableEq τ] {s s' : State τ α} {t : τ} {c : Shared α}

theorem work_sent (s : State τ α) (t u : τ) (c : Shared α) (pc : SendPc α) :
    ((s.sent t c pc).thread u).work = (s.thread u).work := by
  by_cases hut : u = t
  · subst hut
    simp [State.sent]
  · simp [State.sent, hut]

/-- Somebody who is somewhere in `run` stays there in another worker's step. -/
theorem exists_worked {P : WorkPc α → Bool} {pc : WorkPc α}
    (h : P pc = true ∨ P (s.thread t).work = false ∧ ∃ u, P (s.thread u).work = true) :
    ∃ u, P ((s.worked t c pc).thread u).work = true := by
  refine (Function.exists_update_iff s.thread fun _ b => P b.work = true).mpr ?_
  rcases h with h | ⟨hf, u, hu⟩
  · exact .inl h
  · refine .inr ⟨u, fun hut => ?_, hu⟩
    rw [hut, hf] at hu
    cases hu

/-- A step of a call that does not return still attends to the mailbox. -/
theorem State.Attended.sent (h : s.Attended) {pc : SendPc α}
    (hp : (s.thread t).send.pushed = true → pc.pushed = true) (hj : c.jobs = s.jobs) :
    (s.sent t c pc).Attended := by
  rcases h with hne | ⟨u, hu⟩
  · exact .inl fun hc => hne (hj.symm.trans hc)
  · refine .inr ((Function.exists_update_iff s.thread fun _ b => b.attends = true).mpr ?_)
    by_cases hut : u = t
    · subst hut
      refine .inl ?_
      rw [Thread.attends, Bool.or_eq_true] at hu ⊢
      exact hu.imp_left hp
    · exact .inr ⟨u, hut, hu⟩

/-- A step of a worker that attended to nothing. -/
theorem State.Attended.worked (h : s.Attended) (ht : (s.thread t).attends = false) {pc : WorkPc α}
    (hj : c.jobs = s.jobs) : (s.worked t c pc).Attended := by
  rcases h with hne | ⟨u, hu⟩
  · exact .inl fun hc => hne (hj.symm.trans hc)
  · refine .inr ((Function.exists_update_iff s.thread fun _ b => b.attends = true).mpr (.inr ⟨u, ?_, hu⟩))
    rintro rfl
    rw [ht] at hu
    cases hu

/-- A step of `enqueue_base` does not touch `head_` and the cache. -/
theorem Watched.sent (h : Watched s) {pc : SendPc α} (hh : c.mailbox.head = s.mailbox.head)
    (hc : c.mailbox.cache = s.mailbox.cache)
    (ha : c.mailbox.stack.elems ≠ [] → (s.sent t c pc).Attended) : Watched (s.sent t c pc) where
  stack := ha
  head := fun hne => by
    obtain ⟨u, hu⟩ := h.head fun h0 => hne (hh.trans h0)
    exact ⟨u, by rwa [work_sent]⟩
  cache := fun hne => by
    obtain ⟨u, hu⟩ := h.cache fun h0 => hne (by rw [← h0, ← hc]; rfl)
    exact ⟨u, by rwa [work_sent]⟩
  second := by
    rw [← h.second, ← hc]
    rfl

/-- A step of a worker. -/
theorem Watched.worked (h : Watched s) {pc : WorkPc α}
    (ha : c.mailbox.stack.elems ≠ [] → (s.worked t c pc).Attended)
    (hh : c.mailbox.head ≠ [] → pc.popping = true ∨
      (s.thread t).work.popping = false ∧ c.mailbox.head = s.mailbox.head)
    (hc : c.mailbox.cache.first ≠ [] → pc.reading = true ∨
      (s.thread t).work.reading = false ∧ c.mailbox.cache.first = s.mailbox.cache.first)
    (h2 : c.mailbox.cache.second = []) : Watched (s.worked t c pc) where
  stack := ha
  head := fun hne => by
    refine exists_worked ?_
    rcases hh hne with hp | ⟨hp, heq⟩
    · exact .inl hp
    · exact .inr ⟨hp, h.head fun h0 => hne (heq.trans h0)⟩
  cache := fun hne => by
    refine exists_worked ?_
    rcases hc hne with hp | ⟨hp, heq⟩
    · exact .inl hp
    · exact .inr ⟨hp, h.cache fun h0 => hne (heq.trans h0)⟩
  second := h2

/-- A step of a worker outside `run`. -/
theorem Watched.outside (h : Watched s) {w pc : WorkPc α} (ht : s.thread t = ⟨.idle, w⟩)
    (hw : w.inRun = false) (hh : c.mailbox.head = s.mailbox.head)
    (hc : c.mailbox.cache = s.mailbox.cache)
    (hs : c.mailbox.stack.elems = s.mailbox.stack.elems) (hj : c.jobs = s.jobs) :
    Watched (s.worked t c pc) := by
  have hwork : (s.thread t).work = w := by rw [ht]
  have hpop : w.popping = false := by
    cases w with
    | tryPop | failed => cases hw
    | _ => rfl
  have hread : w.reading = false := by
    cases hr : w.reading with
    | false => rfl
    | true =>
      rw [inRun_of_reading hr] at hw
      cases hw
  refine h.worked (fun hne => ?_) (fun _ => ?_) (fun _ => ?_) ?_
  · refine (h.stack (by rwa [← hs])).worked ?_ hj
    rw [ht, Thread.attends, hw]
    rfl
  · rw [hwork]
    exact .inr ⟨hpop, hh⟩
  · rw [hwork]
    exact .inr ⟨hread, by rw [hc]⟩
  · rw [hc]
    exact h.second

variable [DecidableEq α] {a : Act τ α} {maxThroughput : ℕ}

theorem Watched.move (h : Watched s) (hC : Served s a) (hm : Moves maxThroughput s a s') :
    Watched s' := by
  cases hm with
  | call hp => exact h.sent rfl rfl fun hne => (h.stack hne).sent (by rw [hp]; nofun) rfl
  | load hp => exact h.sent rfl rfl fun hne => (h.stack hne).sent (by rw [hp]; nofun) rfl
  | closed hp => exact h.sent rfl rfl fun hne => (h.stack hne).sent (fun _ => rfl) rfl
  | retry hp => exact h.sent rfl rfl fun hne => (h.stack hne).sent (by rw [hp]; nofun) rfl
  | schedule hp => exact h.sent rfl rfl fun hne => (h.stack hne).sent (fun _ => rfl) rfl
  | busy hp => exact h.sent rfl rfl fun hne => (h.stack hne).sent (fun _ => rfl) rfl
  | ref hp => exact h.sent rfl rfl fun hne => (h.stack hne).sent (fun _ => rfl) rfl
  | @push t m hp hc =>
    refine h.sent (Mailbox.head_enqueue _ m) (Mailbox.cache_enqueue _ m) fun _ => .inr ⟨t, ?_⟩
    simp [State.sent, Thread.attends, SendPc.pushed]
  | @skip t hp hf =>
    refine h.sent rfl rfl fun hne => ?_
    rcases hC.2 hp hf hne with hj | hw | ⟨u, hut, hu⟩
    · exact .inl hj
    · refine .inr ⟨t, ?_⟩
      rw [Thread.attends, work_sent, hw, Bool.or_true]
    · exact .inr ((Function.exists_update_iff s.thread fun _ b => b.attends = true).mpr
        (.inr ⟨u, hut, hu⟩))
  | block hp =>
    rcases s.mailbox.tryBlock_fst with hq | ⟨-, hq⟩
    · exact h.sent (by rw [hq]) (by rw [hq]) fun hne =>
        (h.stack (by rwa [hq] at hne)).sent (fun _ => rfl) rfl
    · exact h.sent (by rw [hq]) (by rw [hq]) fun hne => absurd (by rw [hq]; rfl) hne
  | execute hp => exact h.sent rfl rfl fun _ => .inl (Nat.succ_ne_zero _)
  | @dequeue t n ht hj =>
    refine h.worked (fun _ => .inr ⟨t, ?_⟩) (fun _ => .inr ⟨by rw [ht]; rfl, rfl⟩)
      (fun _ => .inl (reading_cacheHead _ _ _).1) h.second
    simp [State.worked, Thread.attends, inRun_of_reading (reading_cacheHead _ _ _).1]
  | @run t q pc hi hr =>
    have hm := runMoves_of_runStep hr
    have hsp := hC.1 t
    refine h.worked (fun hne => .inr ⟨t, ?_⟩) hm.head (hm.cache hsp) (hm.second hsp h.second)
    simp [State.worked, Thread.attends, (hm.stack hsp hne).2]
  | store ht => exact h.outside ht rfl rfl rfl rfl rfl
  | unblock ht =>
    exact h.outside ht rfl (Mailbox.head_tryUnblock _) (Mailbox.cache_tryUnblock _)
      (Mailbox.elems_tryUnblock _) rfl
  | deref ht => exact h.outside ht rfl rfl rfl rfl rfl

theorem watched_of_reachableBy (h : (system τ α maxThroughput).ReachableBy Served s) : Watched s :=
  ReachableBy.of_moves watched_init (fun _ _ _ hI hC hm => hI.move hC hm) h

/-- **No message is stranded**: in every run that exhausts no throughput and in which each
sender that reads `flags_` as busy leaves what is on the stack to a job, to a worker inside
`run` or to another sender behind its push, the mailbox is empty in every quiescent state. -/
theorem no_message_stranded (h : (system τ α maxThroughput).ReachableBy Served s)
    (hq : s.Quiescent) : s.held = [] :=
  (watched_of_reachableBy h).held_eq_nil hq

section Test

variable [Fintype τ]

instance (s : State τ α) (a : Act τ α) : Decidable (Unexhausted s a) :=
  inferInstanceAs (Decidable (∀ t, (s.thread t).work.spent = false))

instance (s : State τ α) (a : Act τ α) : Decidable (Relieved s a) :=
  match a with
  | .send t => inferInstanceAs (Decidable ((s.thread t).send = .flags → s.flags = .busy →
      s.mailbox.stack.elems ≠ [] →
      s.jobs ≠ 0 ∨ (s.thread t).work.inRun = true ∨ ∃ u, u ≠ t ∧ (s.thread u).attends = true))
  | .call _ _ => isTrue trivial
  | .dequeue _ => isTrue trivial
  | .work _ => isTrue trivial

instance (s : State τ α) (a : Act τ α) : Decidable (Served s a) :=
  inferInstanceAs (Decidable (Unexhausted s a ∧ Relieved s a))

end Test

/-- The second sender reads busy while the worker is still reading. -/
theorem no_message_stranded_two : ∃ s : State (Fin 3) ℕ, s.Quiescent ∧ s.refCount = 1 ∧ s.held = [] := by
  obtain ⟨s, hs, hq, hr⟩ : ∃ s, (system (Fin 3) ℕ 10).replay (fun s a => decide (Served s a)) {}
      [.call 0 7, .send 0, .send 0, .send 0, .send 0, .send 0, .send 0, .send 0, .dequeue 2, .work 2,
        .work 2, .work 2, .work 2, .call 1 8, .send 1, .send 1, .send 1, .work 2, .work 2, .work 2,
        .work 2, .work 2, .work 2, .work 2, .work 2, .work 2] = some s ∧ s.Quiescent ∧ s.refCount = 1 :=
    ⟨_, rfl, ⟨rfl, by decide⟩, rfl⟩
  exact ⟨s, hq, hr, no_message_stranded
    (.of_replay (fun _ _ hc => of_decide_eq_true hc) ⟨[], .init rfl, System.meets_nil _⟩ hs) hq⟩

/-- The worker has blocked the mailbox when the second sender comes, and has not stored empty
when it reads `flags_`. -/
theorem message_stranded : ∃ s, (system (Fin 3) ℕ 10).ReachableBy Unexhausted s ∧
    s.Quiescent ∧ s.held ≠ [] := by
  obtain ⟨s, hs, hq, hh⟩ : ∃ s, (system (Fin 3) ℕ 10).replay (fun s a => decide (Unexhausted s a)) {}
      [.call 0 7, .send 0, .send 0, .send 0, .send 0, .send 0, .send 0, .send 0, .dequeue 2, .work 2,
        .work 2, .work 2, .work 2, .work 2, .work 2, .call 1 8, .send 1, .send 1, .send 1, .work 2,
        .work 2, .work 2] = some s ∧ s.Quiescent ∧ s.held = [8] := ⟨_, rfl, ⟨rfl, by decide⟩, rfl⟩
  exact ⟨s, .of_replay (fun _ _ hc => of_decide_eq_true hc) ⟨[], .init rfl, System.meets_nil _⟩ hs, hq,
    by rw [hh]; nofun⟩

end ActorsFramework.Scheduling
