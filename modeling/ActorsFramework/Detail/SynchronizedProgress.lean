import ActorsFramework.Lib.Amortised
import ActorsFramework.Lib.Progress
import ActorsFramework.Lib.Tally
import ActorsFramework.Actor.NextMessage
import ActorsFramework.Detail.SynchronizedAccess

/-!
# Synchronized access comes to an end

`no_lost_wakeup` says what is true whenever a call returns. Here is that it does:
the threads can neither go on for ever inside their calls nor block each other in
them.

* `steps_amortised` — over any stretch of a run, the steps of all threads are paid
  for by the calls that are made and by the wake-ups that nobody sent.
* `resting_of_stuck` — where no thread can go on, all are outside, or the reader sleeps on a
  queue that is blocked and holds nothing.
* `access_returns` — both together.
-/

namespace ActorsFramework.Detail

open Lib Lib.System

/-- The steps a producer has left, with what its push costs the others: `n` of them may have to
read `stack_` again, and the reader may be woken in vain. -/
def SenderPc.left {α : Type*} [DecidableEq α] (n : ℕ) (top : Ptr α) : SenderPc α → ℕ
  | .idle => 0
  | .load _ => 2 * n + 9
  | .exchange _ e => if top = e then 2 * n + 8 else 2 * n + 9
  | .lock => n + 7
  | .notify => n + 6
  | .unlock => 1

/-- The steps the reader has left until it returns or parks; `n` more where it still
changes `stack_`. -/
def AwaitPc.left {α : Type*} (n : ℕ) : AwaitPc α → ℕ
  | .idle | .parked _ | .failed _ => 0
  | .enter _ => n + 7
  | .check _ => n + 6
  | .block _ => n + 5
  | .lock _ => 4
  | .test _ => 3
  | .wait _ => 1
  | .woken _ => n + 4
  | .timedOut => n + 3
  | .unlock _ _ => 2
  | .returned _ _ => 1

namespace Synchronized

variable {π α : Type*} [DecidableEq π] [DecidableEq α]

/-! ### What is counted -/

section Counts

/-- A step of a call. -/
def steps (_ : Synchronized π α) : SyncAct π α → ℕ
  | .send _ | .step _ => 1
  | _ => 0

/-- A call of `synchronized_enqueue`. -/
def calls (_ : Synchronized π α) : SyncAct π α → ℕ
  | .call _ _ => 1
  | _ => 0

/-- A call of `synchronized_await`. -/
def awaits (_ : Synchronized π α) : SyncAct π α → ℕ
  | .await _ => 1
  | _ => 0

/-- A wake-up that nobody sent. -/
def wakes (_ : Synchronized π α) : SyncAct π α → ℕ
  | .wake => 1
  | _ => 0

/-- A call of `try_pop`. -/
def pops (_ : Synchronized π α) : SyncAct π α → ℕ
  | .pop => 1
  | _ => 0

end Counts

/-! ### No livelock -/

section Potential

variable [Fintype π] {s s' : Synchronized π α}

theorem sender_left_le (n : ℕ) (top : Ptr α) (pc : SenderPc α) : pc.left n top ≤ 2 * n + 9 := by
  cases pc with
  | exchange =>
    simp only [SenderPc.left]
    split_ifs <;> omega
  | idle => exact Nat.zero_le _
  | load => exact le_rfl
  | lock | notify | unlock =>
    simp only [SenderPc.left]
    omega

theorem sender_left_top (n : ℕ) (top top' : Ptr α) (pc : SenderPc α) :
    pc.left n top' ≤ pc.left n top + 1 := by
  cases pc with
  | exchange =>
    simp only [SenderPc.left]
    split_ifs <;> omega
  | _ => exact Nat.le_succ _

omit [DecidableEq α] in
theorem await_left_le (n : ℕ) (pc : AwaitPc α) : pc.left n ≤ n + 7 := by
  cases pc <;> simp only [AwaitPc.left] <;> omega

/-- The potential. -/
def potential (s : Synchronized π α) : ℕ :=
  tally (SenderPc.left (Fintype.card π) s.mailbox.stack.top) s.producer +
    s.reader.left (Fintype.card π)

omit [DecidableEq π] in
theorem potential_le (s : Synchronized π α) :
    s.potential ≤ Fintype.card π * (2 * Fintype.card π + 9) + (Fintype.card π + 7) :=
  Nat.add_le_add (tally_le_mul (sender_left_le _ _) _) (await_left_le _ _)

omit [DecidableEq π] in
/-- A change of `stack_` costs each producer one step. -/
theorem tally_left_top (n : ℕ) (top top' : Ptr α) (g : π → SenderPc α) :
    tally (SenderPc.left n top') g ≤ tally (SenderPc.left n top) g + Fintype.card π :=
  tally_le_add_card (sender_left_top n top top') g

/-- A producer that moves on, and leaves `stack_` and the reader alone. -/
theorem potential_setProducer (p : π) (pc : SenderPc α) (o : Option (Party π)) :
    potential { s.setProducer p pc with owner := o } +
        (s.producer p).left (Fintype.card π) s.mailbox.stack.top =
      s.potential + pc.left (Fintype.card π) s.mailbox.stack.top := by
  have h := tally_update (SenderPc.left (Fintype.card π) s.mailbox.stack.top) s.producer p pc
  simp only [potential, setProducer]
  omega

/-- A push pays for the producers that have to read again. -/
theorem potential_push {p : π} {x : α} {e : Ptr α} (hp : s.producer p = .exchange x e)
    (he : s.mailbox.stack.top = e) :
    potential { s with
      mailbox := { s.mailbox with stack := s.mailbox.stack.push x }
      producer := Function.update s.producer p (.pushed e) } + 1 ≤ s.potential := by
  have h := tally_update (SenderPc.left (Fintype.card π) s.mailbox.stack.top) s.producer p (.pushed e)
  have hfresh : (s.producer p).left (Fintype.card π) s.mailbox.stack.top = 2 * Fintype.card π + 8 := by
    rw [hp, SenderPc.left, if_pos he]
  have hpushed : (SenderPc.pushed e : SenderPc α).left (Fintype.card π) s.mailbox.stack.top ≤
      Fintype.card π + 7 := by
    cases e <;> simp [SenderPc.pushed, SenderPc.left]
  have htop := tally_left_top (Fintype.card π) s.mailbox.stack.top (s.mailbox.stack.push x).top
    (Function.update s.producer p (.pushed e))
  simp only [potential]
  omega

/-- **A step of a producer** is one less. -/
theorem potential_send {p : π} (hs : s.send p = some s') : s'.potential + 1 ≤ s.potential := by
  have key : ∀ {pc : SenderPc α} {o : Option (Party π)},
      pc.left (Fintype.card π) s.mailbox.stack.top + 1 ≤
        (s.producer p).left (Fintype.card π) s.mailbox.stack.top →
      potential { s.setProducer p pc with owner := o } + 1 ≤ s.potential := by
    intro pc o hle
    have := potential_setProducer (s := s) p pc o
    omega
  unfold send at hs
  split at hs
  next => cases hs
  next x hp =>
    split_ifs at hs <;> cases hs
    · exact key (by rw [hp]; simp [SenderPc.left])
    · exact key (by rw [hp]; simp [SenderPc.left])
  next x e hp =>
    split_ifs at hs with he hn <;> cases hs
    · exact potential_push hp he
    · exact key (by rw [hp]; simp [SenderPc.left, he])
    · exact key (by rw [hp]; simp [SenderPc.left, he])
  next hp =>
    split at hs
    next =>
      cases hs
      exact key (by rw [hp]; simp [SenderPc.left])
    next => cases hs
  next hp =>
    -- the reader may be woken for a push it knows of already
    cases hs
    have h := potential_setProducer (s := s) p .unlock s.owner
    have hreader : (AwaitPc.notified s.reader).left (Fintype.card π) ≤
        s.reader.left (Fintype.card π) + (Fintype.card π + 4) := by
      cases s.reader <;> simp [AwaitPc.notified, AwaitPc.left]
    simp only [potential, setProducer, hp, SenderPc.left] at h ⊢
    omega
  next hp =>
    cases hs
    exact key (by rw [hp]; simp [SenderPc.left])

omit [DecidableEq π] in
/-- The reader moves on, and leaves the queue alone. -/
theorem potential_setReader {pc : AwaitPc α} {o : Option (Party π)}
    (h : pc.left (Fintype.card π) + 1 ≤ s.reader.left (Fintype.card π)) :
    potential { s with owner := o, reader := pc } + 1 ≤ s.potential := by
  simp only [potential]
  omega

omit [DecidableEq π] in
/-- The reader changes the queue. -/
theorem potential_mailbox (q : Mailbox α) {pc : AwaitPc α}
    (h : pc.left (Fintype.card π) + Fintype.card π + 1 ≤ s.reader.left (Fintype.card π)) :
    potential { s with mailbox := q, reader := pc } + 1 ≤ s.potential := by
  have htop := tally_left_top (Fintype.card π) s.mailbox.stack.top q.stack.top s.producer
  simp only [potential]
  omega

omit [DecidableEq π] in
/-- **A step of the reader** is one less. -/
theorem potential_await {b : Bool} (hs : s.awaitStep b = some s') : s'.potential + 1 ≤ s.potential := by
  unfold awaitStep at hs
  split at hs
  next => cases hs
  next => cases hs
  next => cases hs
  next timed hr =>
    split_ifs at hs <;> cases hs
    · exact potential_setReader (by rw [hr]; simp [AwaitPc.left])
    · exact potential_setReader (by rw [hr]; simp [AwaitPc.left])
  next timed hr =>
    split at hs <;> cases hs
    · exact potential_setReader (by rw [hr]; simp [AwaitPc.left])
    · exact potential_setReader (by rw [hr]; simp [AwaitPc.left])
    · exact potential_setReader (by rw [hr]; simp [AwaitPc.left])
  next timed hr =>
    split at hs <;> cases hs
    · exact potential_mailbox _ (by rw [hr]; simp only [AwaitPc.left]; omega)
    · exact potential_setReader (by rw [hr]; simp [AwaitPc.left])
  next timed hr =>
    split at hs <;> cases hs
    exact potential_setReader (by rw [hr]; simp [AwaitPc.left])
  next timed hr =>
    split_ifs at hs <;> cases hs
    · exact potential_setReader (by rw [hr]; simp [AwaitPc.left])
    · exact potential_setReader (by rw [hr]; simp [AwaitPc.left])
  next timed hr =>
    cases hs
    exact potential_setReader (by rw [hr]; simp [AwaitPc.left])
  next timed hr =>
    split at hs <;> cases hs
    refine potential_setReader ?_
    rw [hr]
    split_ifs <;> simp only [AwaitPc.left] <;> omega
  next hr =>
    split at hs
    cases hs
    exact potential_mailbox _ (by rw [hr]; simp only [AwaitPc.left]; omega)
  next timed o hr =>
    cases hs
    exact potential_setReader (by rw [hr]; simp [AwaitPc.left])
  next timed o hr =>
    cases hs
    exact potential_setReader (by rw [hr]; simp [AwaitPc.left])

/-- **Any step**: a step of a call is paid for by the potential, and what is not is paid for
where it comes from. -/
theorem potential_step {a : SyncAct π α} (hs : s.step a = some s') :
    s'.potential + steps s a ≤ s.potential +
      ((2 * Fintype.card π + 9) * calls s a + ((Fintype.card π + 7) * awaits s a +
        ((Fintype.card π + 4) * wakes s a + Fintype.card π * pops s a))) := by
  cases a with
  | call p x =>
    simp only [step] at hs
    split at hs
    next hp =>
      cases hs
      have h := potential_setProducer (s := s) p (.load x) s.owner
      rw [hp] at h
      simp only [setProducer, SenderPc.left] at h ⊢
      simp only [steps, calls, awaits, wakes, pops]
      omega
    next => cases hs
  | send p => exact le_trans (potential_send hs) (Nat.le_add_right _ _)
  | await timed =>
    simp only [step] at hs
    split at hs
    next hr =>
      cases hs
      simp only [potential, hr, AwaitPc.left, steps, calls, awaits, wakes, pops]
      omega
    next => cases hs
  | step b => exact le_trans (potential_await hs) (Nat.le_add_right _ _)
  | wake =>
    simp only [step] at hs
    split at hs
    next timed hr =>
      cases hs
      simp only [potential, hr, AwaitPc.left, steps, calls, awaits, wakes, pops]
      omega
    next => cases hs
  | pop =>
    simp only [step] at hs
    split at hs
    next hr =>
      split at hs
      next q r _ =>
        cases hs
        have htop := tally_left_top (Fintype.card π) s.mailbox.stack.top q.stack.top s.producer
        simp only [potential, hr, AwaitPc.left, steps, calls, awaits, wakes, pops]
        omega
      next =>
        cases hs
        simp only [potential, hr, AwaitPc.left, steps, calls, awaits, wakes, pops]
        omega
    next => cases hs

/-- **No livelock**: what all threads do in a stretch of a run is bounded by what is asked of
them. -/
theorem steps_amortised {tr : List (Synchronized π α × SyncAct π α)} (h : (system π α).Path s tr s') :
    total steps tr ≤ s.potential +
      ((2 * Fintype.card π + 9) * total calls tr + ((Fintype.card π + 7) * total awaits tr +
        ((Fintype.card π + 4) * total wakes tr + Fintype.card π * total pops tr))) := by
  obtain ⟨n, -, hle⟩ := Path.amortised (P := fun s n => s.potential = n) steps
    (fun s a => (2 * Fintype.card π + 9) * calls s a + ((Fintype.card π + 7) * awaits s a +
      ((Fintype.card π + 4) * wakes s a + Fintype.card π * pops s a)))
    (fun s n a s' hn hs => ⟨_, rfl, hn ▸ potential_step hs⟩) rfl h
  simp only [total_add, total_mul] at hle
  exact le_trans (Nat.le_add_left _ _) hle

end Potential

/-! ### No deadlock -/

section Deadlock

variable {s s' : Synchronized π α}

/-- Whoever has the mutex is where it is held. -/
structure Held (s : Synchronized π α) : Prop where
  reader : s.owner = some .reader → s.reader.holds = true
  producer : ∀ p, s.owner = some (.producer p) → (s.producer p).holds = true

omit [DecidableEq α] in
/-- A producer moves on, and neither it nor anybody else holds the mutex afterwards; or it
had it and keeps it; or it takes it. -/
theorem Held.setProducer (h : Held s) {p : π} (pc : SenderPc α) {o : Option (Party π)}
    (ho : o = none ∨ o = s.owner ∧ ((s.producer p).holds = true → pc.holds = true) ∨
      o = some (.producer p) ∧ pc.holds = true) :
    Held { s.setProducer p pc with owner := o } where
  reader hr := by
    rcases ho with rfl | ⟨rfl, -⟩ | ⟨rfl, -⟩
    · cases hr
    · exact h.reader hr
    · cases hr
  producer q hq := by
    by_cases hqp : q = p
    · subst hqp
      rcases ho with rfl | ⟨rfl, hpc⟩ | ⟨-, hpc⟩
      · cases hq
      · simpa [Synchronized.setProducer] using hpc (h.producer q hq)
      · simpa [Synchronized.setProducer] using hpc
    · rcases ho with rfl | ⟨rfl, -⟩ | ⟨rfl, -⟩
      · cases hq
      · simpa [Synchronized.setProducer, hqp] using h.producer q hq
      · cases hq
        exact absurd rfl hqp

omit [DecidableEq π] [DecidableEq α] in
/-- The same of the reader. -/
theorem Held.setReader (h : Held s) {q : Mailbox α} {pc : AwaitPc α} {o : Option (Party π)}
    (ho : o = none ∨ o = s.owner ∧ (s.reader.holds = true → pc.holds = true) ∨
      o = some .reader ∧ pc.holds = true) :
    Held { s with mailbox := q, owner := o, reader := pc } where
  reader hr := by
    rcases ho with rfl | ⟨rfl, hpc⟩ | ⟨-, hpc⟩
    · cases hr
    · exact hpc (h.reader hr)
    · exact hpc
  producer p hp := by
    rcases ho with rfl | ⟨rfl, -⟩ | ⟨rfl, -⟩
    · cases hp
    · exact h.producer p hp
    · cases hp

omit [DecidableEq π] [DecidableEq α] in
theorem holds_notified (pc : AwaitPc α) : (AwaitPc.notified pc).holds = pc.holds := by
  cases pc <;> rfl

theorem Held.send (h : Held s) {p : π} (hs : s.send p = some s') : Held s' := by
  unfold Synchronized.send at hs
  split at hs
  next => cases hs
  next x hp =>
    have hno : (s.producer p).holds = true → False := by rw [hp]; nofun
    split_ifs at hs <;> cases hs
    · exact h.setProducer _ (.inr (.inl ⟨rfl, fun ho => (hno ho).elim⟩))
    · exact h.setProducer _ (.inr (.inl ⟨rfl, fun ho => (hno ho).elim⟩))
  next x e hp =>
    have hno : (s.producer p).holds = true → False := by rw [hp]; nofun
    split_ifs at hs <;> cases hs
    · have h' := h.setProducer (p := p) (.pushed e) (.inr (.inl ⟨rfl, fun ho => (hno ho).elim⟩))
      exact ⟨h'.reader, h'.producer⟩
    · exact h.setProducer _ (.inr (.inl ⟨rfl, fun ho => (hno ho).elim⟩))
    · exact h.setProducer _ (.inr (.inl ⟨rfl, fun ho => (hno ho).elim⟩))
  next hp =>
    split at hs <;> cases hs
    exact h.setProducer _ (.inr (.inr ⟨rfl, rfl⟩))
  next hp =>
    cases hs
    have h' := h.setProducer (p := p) .unlock (.inr (.inl ⟨rfl, fun _ => rfl⟩))
    exact ⟨fun hr => (holds_notified s.reader).trans (h.reader hr), h'.producer⟩
  next hp =>
    cases hs
    exact h.setProducer _ (.inl rfl)

omit [DecidableEq π] [DecidableEq α] in
theorem Held.await (h : Held s) {b : Bool} (hs : s.awaitStep b = some s') : Held s' := by
  have hno : ∀ {pc : AwaitPc α}, s.reader = pc → pc.holds = false → s.reader.holds = true → False := by
    rintro pc rfl hf ht
    rw [hf] at ht
    cases ht
  unfold awaitStep at hs
  split at hs
  next => cases hs
  next => cases hs
  next => cases hs
  next timed hr =>
    split_ifs at hs <;> cases hs <;>
      exact h.setReader (.inr (.inl ⟨rfl, fun ho => (hno hr rfl ho).elim⟩))
  next timed hr =>
    split at hs <;> cases hs <;>
      exact h.setReader (.inr (.inl ⟨rfl, fun ho => (hno hr rfl ho).elim⟩))
  next timed hr =>
    split at hs <;> cases hs <;>
      exact h.setReader (.inr (.inl ⟨rfl, fun ho => (hno hr rfl ho).elim⟩))
  next timed hr =>
    split at hs <;> cases hs
    exact h.setReader (.inr (.inr ⟨rfl, rfl⟩))
  next timed hr =>
    split_ifs at hs <;> cases hs <;> exact h.setReader (.inr (.inl ⟨rfl, fun _ => rfl⟩))
  next timed hr =>
    cases hs
    exact h.setReader (.inl rfl)
  next timed hr =>
    split at hs <;> cases hs
    refine h.setReader (.inr (.inr ⟨rfl, ?_⟩))
    split_ifs <;> rfl
  next hr =>
    split at hs
    cases hs
    exact h.setReader (.inr (.inl ⟨rfl, fun _ => rfl⟩))
  next timed o hr =>
    cases hs
    exact h.setReader (.inl rfl)
  next timed o hr =>
    cases hs
    exact h.setReader (.inr (.inl ⟨rfl, fun ho => (hno hr rfl ho).elim⟩))

theorem held_of_reachable (h : (system π α).Reachable s) : Held s := by
  refine h.invariant (fun s h₀ => ?_) fun s a s' hI hs => ?_
  · obtain ⟨-, hown, -, -⟩ := h₀
    constructor
    · intro hr
      rw [hown] at hr
      cases hr
    · intro p hp
      rw [hown] at hp
      cases hp
  · cases a with
    | call p x =>
      simp only [system, step] at hs
      split at hs <;> cases hs
      next hp =>
        exact hI.setProducer _ (.inr (.inl ⟨rfl, fun ho => by rw [hp] at ho; cases ho⟩))
    | send p => exact hI.send hs
    | await timed =>
      simp only [system, step] at hs
      split at hs <;> cases hs
      next hr => exact hI.setReader (.inr (.inl ⟨rfl, fun ho => by rw [hr] at ho; cases ho⟩))
    | step b => exact hI.await hs
    | wake =>
      simp only [system, step] at hs
      split at hs <;> cases hs
      next hr => exact hI.setReader (.inr (.inl ⟨rfl, fun ho => by rw [hr] at ho; cases ho⟩))
    | pop =>
      simp only [system, step] at hs
      split at hs
      next hr =>
        split at hs <;> cases hs <;>
          exact hI.setReader (.inr (.inl ⟨rfl, fun ho => by rw [hr] at ho; cases ho⟩))
      next => cases hs

/-- No step of a call is possible. -/
def Stuck (s : Synchronized π α) : Prop := (∀ p, s.send p = none) ∧ ∀ b, s.awaitStep b = none

/-- Every call has returned, but for one of `synchronized_await` that sleeps on a queue
with nothing in it. -/
def Resting (s : Synchronized π α) : Prop :=
  (∀ p, s.producer p = .idle) ∧ s.owner = none ∧
    (s.reader = .idle ∨
      ∃ timed, s.reader = .parked timed ∧ s.mailbox.stack = .blocked ∧ s.mailbox.waiting = [])

/-- A producer that cannot go on is outside, or waits for a mutex that somebody has. -/
theorem producer_of_stuck {p : π} (h : s.send p = none) :
    s.producer p = .idle ∨ s.producer p = .lock ∧ s.owner ≠ none := by
  unfold Synchronized.send at h
  split at h
  next hp => exact .inl hp
  next => split_ifs at h
  next => split_ifs at h
  next hp =>
    refine .inr ⟨hp, fun hown => ?_⟩
    rw [hown] at h
    cases h
  next => cases h
  next => cases h

omit [DecidableEq π] [DecidableEq α] in
/-- So is the reader; or it is parked. -/
theorem reader_of_stuck (h : ∀ b, s.awaitStep b = none) :
    s.reader.holds = false ∧
      (s.reader = .idle ∨ (∃ timed, s.reader = .parked timed) ∨ (∃ f, s.reader = .failed f) ∨
        s.owner ≠ none) := by
  have h := h true
  unfold awaitStep at h
  split at h
  next hr => exact ⟨by rw [hr]; rfl, .inl hr⟩
  next timed hr => exact ⟨by rw [hr]; rfl, .inr (.inl ⟨timed, hr⟩)⟩
  next f hr => exact ⟨by rw [hr]; rfl, .inr (.inr (.inl ⟨f, hr⟩))⟩
  next => split_ifs at h
  next => split at h <;> cases h
  next => split at h <;> cases h
  next timed hr =>
    refine ⟨by rw [hr]; rfl, .inr (.inr (.inr fun hown => ?_))⟩
    rw [hown] at h
    cases h
  next => split_ifs at h
  next => cases h
  next timed hr =>
    refine ⟨by rw [hr]; rfl, .inr (.inr (.inr fun hown => ?_))⟩
    rw [hown] at h
    cases h
  next => split at h; cases h
  next => cases h
  next => cases h

/-- **No deadlock**: no thread waits for another that cannot go on. -/
theorem resting_of_stuck (hr : (system π α).Reachable s) (h : Stuck s) : Resting s := by
  have hI := inv_of_reachable hr
  have hheld := held_of_reachable hr
  obtain ⟨hholds, hreader⟩ := reader_of_stuck h.2
  -- nobody has the mutex: where it is held, a thread can go on
  have hown : s.owner = none := by
    cases ho : s.owner with
    | none => rfl
    | some t =>
      cases t with
      | reader =>
        have := hheld.reader ho
        rw [hholds] at this
        cases this
      | producer p =>
        have hp := hheld.producer p ho
        rcases producer_of_stuck (h.1 p) with hi | ⟨hl, -⟩
        · rw [hi] at hp
          cases hp
        · rw [hl] at hp
          cases hp
  have hidle : ∀ p, s.producer p = .idle := by
    intro p
    rcases producer_of_stuck (h.1 p) with hi | ⟨-, hne⟩
    · exact hi
    · exact absurd hown hne
  refine ⟨hidle, hown, ?_⟩
  rcases hreader with hi | ⟨timed, hp⟩ | ⟨f, hf⟩ | hne
  · exact .inl hi
  · refine .inr ⟨timed, hp, ?_⟩
    have hblocked : s.mailbox.stack = .blocked := by
      rcases hI.parked timed hp with hb | ⟨p, hp'⟩
      · exact hb
      · rw [hidle p] at hp'
        cases hp'
    obtain ⟨hhead, -⟩ := hI.waiting (by rw [hp]; rfl)
    exact ⟨hblocked, by rw [Mailbox.waiting, hhead, hblocked]; rfl⟩
  · exact absurd hf (hI.sound f)
  · exact absurd hown hne

end Deadlock

/-! ### Every call returns -/

section Returns

variable [Fintype π] {s s' : Synchronized π α}

/-- The steps of calls. -/
def inside (_ : Synchronized π α) : SyncAct π α → Bool
  | .send _ | .step _ => true
  | _ => false

omit [Fintype π] in
/-- What is in the queue stays there until it is popped. -/
theorem waiting_inside {a : SyncAct π α} (hc : inside s a = true) (hs : s.step a = some s')
    (hw : s.mailbox.waiting ≠ []) : s'.mailbox.waiting ≠ [] := by
  cases a with
  | send p =>
    simp only [step] at hs
    unfold send at hs
    split at hs
    next => cases hs
    next => split_ifs at hs <;> cases hs <;> exact hw
    next x e hp =>
      split_ifs at hs <;> cases hs
      · simp [Mailbox.waiting]
      · exact hw
      · exact hw
    next => split at hs <;> cases hs; exact hw
    next => cases hs; exact hw
    next => cases hs; exact hw
  | step b =>
    simp only [step] at hs
    unfold awaitStep at hs
    split at hs
    next => cases hs
    next => cases hs
    next => cases hs
    next => split_ifs at hs <;> cases hs <;> exact hw
    next => split at hs <;> cases hs <;> exact hw
    next =>
      split at hs
      next q hq =>
        cases hs
        obtain ⟨hst, rfl⟩ := Mailbox.of_tryBlock_true hq
        simpa [Mailbox.waiting, hst] using hw
      next => cases hs; exact hw
    next => split at hs <;> cases hs; exact hw
    next => split_ifs at hs <;> cases hs <;> exact hw
    next => cases hs; exact hw
    next => split at hs <;> cases hs; exact hw
    next =>
      cases hs
      exact (Mailbox.waiting_tryUnblock s.mailbox).symm ▸ hw
    next => cases hs; exact hw
    next => cases hs; exact hw
  | _ => cases hc

/-- The steps of calls lead to a state where everything rests, and keep whatever they keep. -/
theorem progress {J : Synchronized π α → Prop}
    (hJ : ∀ {s a s'}, J s → inside s a = true → s.step a = some s' → J s') :
    Progress (system π α) inside (fun s => (system π α).Reachable s ∧ J s) potential
      (fun s => Resting s ∧ J s) where
  keep := by
    rintro s a s' ⟨⟨tr, hr⟩, hj⟩ hc hs
    exact ⟨⟨_, hr.step hs⟩, hJ hj hc hs⟩
  lower := by
    intro s a s' _ hc hs
    cases a with
    | send p => exact potential_send hs
    | step b => exact potential_await hs
    | _ => cases hc
  enabled := by
    rintro s ⟨hr, hj⟩ hG
    by_contra hno
    refine hG ⟨resting_of_stuck hr ⟨fun p => ?_, fun b => ?_⟩, hj⟩
    · cases hs : s.send p with
      | none => rfl
      | some s' => exact absurd ⟨.send p, s', rfl, hs⟩ hno
    · cases hs : s.awaitStep b with
      | none => rfl
      | some s' => exact absurd ⟨.step b, s', rfl, hs⟩ hno

/-- **Synchronized access comes to an end**, from any reachable state and for any number of
producers. Over any stretch of a run the steps of all threads are bounded by the calls that are made,
the wake-ups that nobody sent and what was under way. Threads that are left alone come to rest,
however they are scheduled: all calls have returned, or `synchronized_await` sleeps on a
blocked queue that holds nothing; and where the queue holds something, all calls have
returned. -/
theorem access_returns (hr : (system π α).Reachable s) :
    (∀ tr s', (system π α).Path s tr s' → total steps tr ≤
      (2 * Fintype.card π + 9) * total calls tr + (Fintype.card π + 7) * total awaits tr +
        (Fintype.card π + 4) * total wakes tr + Fintype.card π * total pops tr +
        (Fintype.card π * (2 * Fintype.card π + 9) + (Fintype.card π + 7))) ∧
    (∀ as s', (system π α).replay inside s as = some s' →
      (∀ a, (system π α).replay inside s (as ++ [a]) = none) →
      Resting s' ∧ (s.mailbox.waiting ≠ [] → s'.reader = .idle)) ∧
    ∃ as s', (system π α).replay inside s as = some s' ∧ Resting s' ∧
      (s.mailbox.waiting ≠ [] → s'.reader = .idle) := by
  have hprogress := progress
    (J := fun s' : Synchronized π α => s.mailbox.waiting ≠ [] → s'.mailbox.waiting ≠ [])
    fun hj hc hs hw => waiting_inside hc hs (hj hw)
  have hidle : ∀ s' : Synchronized π α, Resting s' →
      (s.mailbox.waiting ≠ [] → s'.mailbox.waiting ≠ []) → s.mailbox.waiting ≠ [] → s'.reader = .idle := by
    intro s' hrest hkept hw
    rcases hrest.2.2 with hi | ⟨timed, -, -, hn⟩
    · exact hi
    · exact absurd hn (hkept hw)
  refine ⟨fun tr s' h => ?_, fun as s' h hst => ?_, ?_⟩
  · have hle := steps_amortised h
    have hpot := s.potential_le
    omega
  · obtain ⟨hrest, hkept⟩ := hprogress.goal_of_stuck ⟨hr, id⟩ h hst
    exact ⟨hrest, hidle s' hrest hkept⟩
  · obtain ⟨as, s', h, hrest, hkept⟩ := hprogress.reaches ⟨hr, id⟩
    exact ⟨as, s', h, hrest, hidle s' hrest hkept⟩

/-- The reader is parked when an element is pushed: it returns. -/
theorem access_returns_one : ∃ s : Synchronized (Fin 1) ℕ,
    s.reader = .parked false ∧ s.mailbox.waiting = [7] ∧
      ∃ as s', (system (Fin 1) ℕ).replay inside s as = some s' ∧ Resting s' ∧ s'.reader = .idle := by
  obtain ⟨s, hs, hp, hw⟩ : ∃ s, (system (Fin 1) ℕ).replay (fun _ _ => true) {}
      [.await false, .step false, .step false, .step false, .step false, .step false, .step false,
        .call 0 7, .send 0, .send 0] = some s ∧ s.reader = .parked false ∧ s.mailbox.waiting = [7] :=
    ⟨_, rfl, rfl, rfl⟩
  obtain ⟨-, -, as, s', h, hrest, hidle⟩ :=
    access_returns (System.Reachable.of_replay ⟨⟨[], rfl⟩, rfl, rfl, fun _ => rfl⟩ hs)
  exact ⟨s, hp, hw, as, s', h, hrest, hidle (by rw [hw]; exact List.cons_ne_nil 7 [])⟩

end Returns

end Synchronized

end ActorsFramework.Detail
