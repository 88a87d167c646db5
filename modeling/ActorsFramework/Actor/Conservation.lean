import ActorsFramework.Actor.History
import ActorsFramework.Lib.Transition

/-!
# Which messages are consumed

Actors under an executor that defers: messages are sent from outside, and jobs
are run and released, in any order. As long as the cache of an actor is empty
whenever its `run` begins, what it has consumed followed by what its mailbox
holds is what was enqueued, in that order. A run that begins with messages in
the cache, which an earlier run left there when its throughput was used up,
takes them with `next_message` but hands none to `consume`: its first loop
consumes from the second part of the cache, where nothing ever is. Every such
run loses at least one message (`Ledger.drop`), so the two conditions are
equivalent (`fifo_iff_cache_empty`).
-/

namespace ActorsFramework.Actor

open Detail Lib

variable {ι σ α : Type*} [DecidableEq ι]

/-- The books of all actors: of the actors in `P` no message is lost, and of an actor `b` at
least `D b` messages are. -/
structure Ledger (P : ι → Prop) (D : ι → ℕ) (w : World ι σ α) : Prop where
  /-- The mailboxes are open. -/
  isOpen : ∀ b, (w.mailbox b).Open
  /-- Nothing is ever put in the second part of a cache. -/
  second : ∀ b, (w.mailbox b).cache.second = []
  /-- What was consumed and what is left is what was enqueued. -/
  kept : ∀ b, P b → w.consumed b ++ (w.mailbox b).contents = w.enqueued b
  /-- So much is neither consumed nor left. -/
  lost : ∀ b, (w.consumed b).length + (w.mailbox b).contents.length + D b ≤ (w.enqueued b).length

namespace Ledger

variable {P : ι → Prop} {D : ι → ℕ} {w w' : World ι σ α} {a : ι}

theorem init (h : w.actor = fun _ => {}) (hl : w.log = []) : Ledger P (fun _ => 0) w := by
  have hm : ∀ b, w.mailbox b = {} := fun b => by rw [World.mailbox, h]
  refine ⟨fun b => ?_, fun b => ?_, fun b _ => ?_, fun b => ?_⟩
  · rw [hm]; exact ⟨[], rfl⟩
  · rw [hm]
  · rw [hm]; simp [World.consumed, World.enqueued, hl, Mailbox.contents, Mailbox.waiting]
  · rw [hm]; simp [World.consumed, World.enqueued, hl, Mailbox.contents, Mailbox.waiting]

/-- The books depend only on what is in the mailboxes and on the messages of the log. -/
theorem same (h : Ledger P D w) (ho : ∀ b, (w'.mailbox b).Open)
    (hs : ∀ b, (w'.mailbox b).cache.second = (w.mailbox b).cache.second)
    (hc : ∀ b, (w'.mailbox b).contents = (w.mailbox b).contents)
    (hco : ∀ b, w'.consumed b = w.consumed b) (hen : ∀ b, w'.enqueued b = w.enqueued b) :
    Ledger P D w' where
  isOpen := ho
  second b := (hs b).trans (h.second b)
  kept b hb := by rw [hco, hc, hen, h.kept b hb]
  lost b := by rw [hco, hc, hen]; exact h.lost b

theorem received (h : Ledger P D w) (hr : ∀ b, ∃ l, Received b l w w') : Ledger P D w' where
  isOpen b := by
    obtain ⟨l, hl⟩ := hr b
    exact hl.isOpen (h.isOpen b)
  second b := by
    obtain ⟨l, hl⟩ := hr b
    rw [hl.cache, h.second]
  kept b hb := by
    obtain ⟨l, hl⟩ := hr b
    rw [hl.consumed, hl.contents, hl.enqueued, ← h.kept b hb, List.append_assoc]
  lost b := by
    obtain ⟨l, hl⟩ := hr b
    have := h.lost b
    rw [hl.consumed, hl.contents, hl.enqueued, List.length_append, List.length_append]
    omega

/-- The oldest message moves from the mailbox to `consume`. -/
theorem take (h : Ledger P D w) {m : α} {l : List α} (hc : (w.mailbox a).contents = m :: l) :
    Ledger P D ((w.setMailbox a ((w.mailbox a).fetched l)).emit (.consume a m)) := by
  refine ⟨fun b => World.open_setMailbox_fetched h.isOpen a b l,
    fun b => World.second_setMailbox_fetched h.second a b l, fun b hb => ?_, fun b => ?_⟩ <;>
    by_cases hba : b = a
  · subst hba
    simp [← h.kept b hb, hc]
  · simp [hba, Ne.symm hba, h.kept b hb]
  · subst hba
    have := h.lost b
    rw [hc] at this
    simp only [World.consumed_consume_self, World.consumed_setMailbox, World.mailbox_emit,
      World.mailbox_setMailbox_self, Mailbox.contents_fetched, World.enqueued_consume,
      World.enqueued_setMailbox, List.length_append, List.length_cons, List.length_nil] at this ⊢
    omega
  · simpa [hba, Ne.symm hba] using h.lost b

/-- The oldest message is taken out and not consumed. -/
theorem drop (h : Ledger P D w) {m : α} {l : List α} (hc : (w.mailbox a).contents = m :: l) :
    Ledger (fun b => P b ∧ b ≠ a) (fun b => D b + if b = a then 1 else 0)
      (w.setMailbox a ((w.mailbox a).fetched l)) := by
  refine ⟨fun b => World.open_setMailbox_fetched h.isOpen a b l,
    fun b => World.second_setMailbox_fetched h.second a b l, fun b hb => ?_, fun b => ?_⟩ <;>
    by_cases hba : b = a
  · exact absurd hba hb.2
  · simp [hba, h.kept b hb.1]
  · subst hba
    have := h.lost b
    rw [hc, List.length_cons] at this
    simp only [World.consumed_setMailbox, World.mailbox_setMailbox_self, Mailbox.contents_fetched,
      World.enqueued_setMailbox, if_true]
    omega
  · simpa [hba] using h.lost b

/-- Fewer promises. -/
theorem weaken (h : Ledger P D w) {P' : ι → Prop} {D' : ι → ℕ} (hP : ∀ b, P' b → P b)
    (hD : ∀ b, D' b ≤ D b) : Ledger P' D' w where
  isOpen := h.isOpen
  second := h.second
  kept b hb := h.kept b (hP b hb)
  lost b := by
    have := h.lost b
    have := hD b
    omega

theorem enter (h : Ledger P D w) : Ledger P D (w.emit (.enter a)) :=
  h.same h.isOpen (fun _ => rfl) (fun _ => rfl) (World.consumed_enter w a) (World.enqueued_enter w a)

theorem release (h : Ledger P D w) (n : ℕ) : Ledger P D ((w.leave a n).release a) := by
  have hm : ∀ b, ((w.leave a n).release a).mailbox b =
      if b = a then (w.mailbox b).tryUnblock.1 else w.mailbox b := by
    intro b
    by_cases hb : b = a
    · subst hb; simp
    · simp [hb]
  refine h.same (fun b => ?_) (fun b => ?_) (fun b => ?_) (fun b => ?_) (fun b => ?_)
  · rw [hm]
    split_ifs
    · exact Mailbox.open_tryUnblock (h.isOpen b).ne_closed
    · exact h.isOpen b
  · rw [hm]
    split_ifs
    · rw [Mailbox.cache_tryUnblock]
    · rfl
  · rw [hm]
    split_ifs
    · unfold Mailbox.contents
      rw [Mailbox.cache_tryUnblock, Mailbox.waiting_tryUnblock]
    · rfl
  · exact World.consumed_leave w a n b
  · exact World.enqueued_leave w a n b

/-- A mailbox blocked at the end of a run is unblocked by the release. -/
theorem release_block (h : Ledger P D w) (hc : (w.mailbox a).contents = []) (n : ℕ) :
    Ledger P D (((w.block a).leave a n).release a) := by
  have hm : ∀ b, (((w.block a).leave a n).release a).mailbox b =
      if b = a then (w.mailbox b).fetched [] else w.mailbox b := by
    intro b
    by_cases hb : b = a
    · subst hb
      rw [if_pos rfl]
      exact World.mailbox_release_block w b
    · simp [hb]
  refine h.same (fun b => ?_) (fun b => ?_) (fun b => ?_) (fun b => ?_) (fun b => ?_)
  · rw [hm]
    split_ifs
    · exact Mailbox.open_fetched _ _
    · exact h.isOpen b
  · rw [hm]
    split_ifs <;> rfl
  · rw [hm]
    split_ifs with hb
    · rw [hb, hc, Mailbox.contents_fetched]
    · rfl
  · exact World.consumed_leave (w.block a) a n b
  · exact World.enqueued_leave (w.block a) a n b

end Ledger

section Run

variable {handler : Handler ι σ α} {maxThroughput : ℕ} {P : ι → Prop} {D : ι → ℕ}
  {w : World ι σ α}

/-- With nothing in the second part of the cache, `consume_from_cache` does nothing. -/
theorem consumeFromCache_nil {a : ι} (hs : (w.mailbox a).cache.second = []) (l : List α) :
    consumeFromCache deferred handler a (w.setMailbox a ((w.mailbox a).fetched l)) =
      .ok (w.setMailbox a ((w.mailbox a).fetched l)) := by
  simp [consumeFromCache, hs]

/-- Then an actor with nothing to read has an empty cache. -/
theorem Ledger.cache_empty (h : Ledger P D w) {a : ι} (hc : (w.mailbox a).contents = []) :
    (w.mailbox a).cache.empty = true := by
  simp only [Mailbox.contents, List.append_eq_nil_iff] at hc
  simp [Cache.empty, hc.1, h.second a]

theorem ledger_send (h : Ledger P D w) (a : ι) (m : α) :
    ∃ w', enqueueBase deferred a m w = .ok w' ∧ Ledger P D w' := by
  obtain ⟨w', hw, -, hr⟩ := enqueueBase_deferred (h.isOpen a) m
  exact ⟨w', hw, h.received fun b => ⟨_, hr b⟩⟩

/-- One round of the second loop keeps the books. -/
theorem ledger_consume (h : Ledger P D w) {a : ι} {m : α} {l : List α}
    (hc : (w.mailbox a).contents = m :: l) :
    ∃ w', consume deferred handler a m (w.setMailbox a ((w.mailbox a).fetched l)) = .ok w' ∧
      Ledger P D w' := by
  have ht := h.take hc
  obtain ⟨w', hw, -, hr⟩ := consume_deferred handler (a := a) (m := m)
    (w := w.setMailbox a ((w.mailbox a).fetched l)) fun p _ => ht.isOpen p.1
  exact ⟨w', hw, ht.received fun b => ⟨_, hr b⟩⟩

variable (handler) in
/-- A run that begins with an empty cache keeps the books: its first loop is not entered. -/
theorem ledger_run_empty (hmax : 0 < maxThroughput) (h : Ledger P D w) {a : ι}
    (he : (w.mailbox a).cache.first = []) :
    ∃ w', run deferred handler maxThroughput a w = .ok (w', .awaiting) ∧
      Ledger P D (w'.release a) := by
  have hempty : (w.mailbox a).cache.empty = true := by simp [Cache.empty, he, h.second a]
  exact run_rule hmax (w := w)
    (I := fun n w' => n = maxThroughput ∧ w' = w.emit (.enter a)) (J := fun _ w' => Ledger P D w')
    (Q := fun w' => Ledger P D (w'.release a))
    (fun n w' hw => by rw [hw.2]; exact h.isOpen a) (fun n w' hw => hw.isOpen a)
    (fun n w' m l hw hne => by rw [hw.2, World.mailbox_emit, hempty] at hne; cases hne)
    (fun n w' m l hw hc => ledger_consume hw hc) ⟨rfl, rfl⟩
    (fun n w' hw _ => by rw [hw.2]; exact h.enter)
    (fun n w' _ hw hne => by rw [hw.2, World.mailbox_emit, hempty] at hne; cases hne)
    (fun n w' _ hw hc => hw.release_block hc _) (fun w' hw _ => hw.release _)

variable (handler) in
/-- A run that does not loses a message of its actor: each round of its first loop drops one. -/
theorem ledger_run_left (hmax : 0 < maxThroughput) (h : Ledger P D w) {a : ι}
    (he : (w.mailbox a).cache.first ≠ []) :
    ∃ w', run deferred handler maxThroughput a w = .ok (w', .awaiting) ∧
      Ledger (fun b => P b ∧ b ≠ a) (fun b => D b + if b = a then 1 else 0) (w'.release a) := by
  refine run_rule hmax (w := w)
    (I := fun n w' => (n = maxThroughput ∧ w' = w.emit (.enter a)) ∨
      Ledger (fun b => P b ∧ b ≠ a) (fun b => D b + if b = a then 1 else 0) w')
    (J := fun _ w' => Ledger (fun b => P b ∧ b ≠ a) (fun b => D b + if b = a then 1 else 0) w')
    (Q := fun w' => Ledger (fun b => P b ∧ b ≠ a) (fun b => D b + if b = a then 1 else 0)
      (w'.release a))
    ?_ (fun n w' hw => hw.isOpen a) ?_ (fun n w' m l hw hc => ledger_consume hw hc)
    (.inl ⟨rfl, rfl⟩) ?_ ?_ (fun n w' _ hw hc => hw.release_block hc _)
    (fun w' hw _ => hw.release _)
  · rintro n w' (⟨-, rfl⟩ | hw)
    · exact h.isOpen a
    · exact hw.isOpen a
  · rintro n w' m l (⟨-, rfl⟩ | hw) - hc
    · exact ⟨_, consumeFromCache_nil (h.enter.second a) l, .inr (h.enter.drop hc)⟩
    · refine ⟨_, consumeFromCache_nil (hw.second a) l, .inr ((hw.drop hc).weaken ?_ ?_)⟩
      · exact fun b hb => ⟨hb, hb.2⟩
      · exact fun b => Nat.le_add_right _ _
  · rintro n w' (⟨rfl, rfl⟩ | hw) hn
    · rcases hn with hn | hn
      · omega
      · simp [Cache.empty, he] at hn
    · exact hw
  · rintro n w' - (⟨-, rfl⟩ | hw) hne hc
    · rw [h.enter.cache_empty hc] at hne
      cases hne
    · rw [hw.cache_empty hc] at hne
      cases hne

variable (handler) in
/-- What a run does to the books, in either case. -/
theorem ledger_run (hmax : 0 < maxThroughput) (h : Ledger P D w) (a : ι) :
    ∃ w', run deferred handler maxThroughput a w = .ok (w', .awaiting) ∧
      Ledger (fun b => P b ∧ (b = a → (w.mailbox a).cache.first = []))
        (fun b => D b + if b = a ∧ (w.mailbox a).cache.first ≠ [] then 1 else 0) (w'.release a) := by
  by_cases he : (w.mailbox a).cache.first = []
  · obtain ⟨w', hr, hQ⟩ := ledger_run_empty handler hmax h he
    exact ⟨w', hr, hQ.weaken (fun b hb => hb.1) (fun b => by simp [he])⟩
  · obtain ⟨w', hr, hQ⟩ := ledger_run_left handler hmax h he
    refine ⟨w', hr, hQ.weaken (fun b hb => ⟨hb.1, fun hba => he (hb.2 hba)⟩) (fun b => ?_)⟩
    by_cases hb : b = a <;> simp [hb, he]

end Run

/-! ### Sends and runs in any order -/

/-- What happens to the actors from outside. -/
inductive Call (ι α : Type*) where
  /-- A thread calls `enqueue_base`. -/
  | send (a : ι) (m : α)
  /-- A complete `run`, and the release its caller performs. -/
  | run (a : ι)
  deriving DecidableEq

/-- The call is a run of `a`. -/
def Call.runs (a : ι) : Call ι α → Bool
  | .run b => b = a
  | .send _ _ => false

/-- Actors under an executor that defers, one call after the other. -/
def deferredSystem (handler : Handler ι σ α) (maxThroughput : ℕ) :
    System (World ι σ α) (Call ι α) where
  Init w := w.actor = (fun _ => {}) ∧ w.log = []
  step w
    | .send a m => (enqueueBase deferred a m w).toOption
    | .run a =>
      match run deferred handler maxThroughput a w with
      | .ok (w, _) => some (w.release a)
      | .error _ => none

/-- How many runs of `a` began with a message in the cache. -/
def lossyRuns (a : ι) (tr : List (World ι σ α × Call ι α)) : ℕ :=
  tr.countP fun p => p.2.runs a && !(p.1.mailbox a).cache.first.isEmpty

theorem lossyRuns_concat (a : ι) (tr : List (World ι σ α × Call ι α)) (w : World ι σ α) (c : Call ι α) :
    lossyRuns a (tr ++ [(w, c)]) =
      lossyRuns a tr + if c.runs a ∧ (w.mailbox a).cache.first ≠ [] then 1 else 0 := by
  unfold lossyRuns
  rw [List.countP_append, List.countP_singleton]
  cases c.runs a <;> cases (w.mailbox a).cache.first <;> simp

theorem lossyRuns_eq_zero {a : ι} {tr : List (World ι σ α × Call ι α)} :
    lossyRuns a tr = 0 ↔ ∀ p ∈ tr, p.2 = .run a → (p.1.mailbox a).cache.first = [] := by
  unfold lossyRuns
  rw [List.countP_eq_zero]
  refine forall₂_congr fun p _ => ?_
  obtain ⟨w, _ | b⟩ := p
  · simp [Call.runs]
  · cases (w.mailbox a).cache.first <;> simp [Call.runs]

section System

variable {handler : Handler ι σ α} {maxThroughput : ℕ}

/-- Every call returns, and the books hold with the lossy runs counted. -/
theorem ledger_of_run (hmax : 0 < maxThroughput) {tr : List (World ι σ α × Call ι α)} {w : World ι σ α}
    (h : (deferredSystem handler maxThroughput).Run tr w) :
    Ledger (fun b => lossyRuns b tr = 0) (fun b => lossyRuns b tr) w := by
  induction h with
  | init h => exact .init h.1 h.2
  | @step tr w w' c _ hs ih =>
    cases c with
    | send a m =>
      obtain ⟨w₁, hw₁, hl⟩ := ledger_send ih a m
      obtain rfl : w₁ = w' := by
        simpa [deferredSystem, hw₁, Except.toOption] using hs
      refine hl.weaken (fun b hb => ?_) (fun b => ?_)
      · rw [lossyRuns_concat] at hb
        omega
      · rw [lossyRuns_concat]
        simp [Call.runs]
    | run a =>
      obtain ⟨w₁, hw₁, hl⟩ := ledger_run handler hmax ih a
      obtain rfl : w₁.release a = w' := by
        simpa [deferredSystem, hw₁] using hs
      refine hl.weaken (fun b hb => ?_) (fun b => ?_)
      · rw [lossyRuns_concat] at hb
        refine ⟨by omega, ?_⟩
        rintro rfl
        by_contra hne
        rw [if_pos ⟨by simp [Call.runs], hne⟩] at hb
        omega
      · rw [lossyRuns_concat]
        by_cases hb : b = a
        · subst hb; simp [Call.runs]
        · simp [Call.runs, hb, Ne.symm hb]

/-- No call fails: every run is a complete one. -/
theorem step_ne_none (hmax : 0 < maxThroughput) {w : World ι σ α}
    (h : (deferredSystem handler maxThroughput).Reachable w) (c : Call ι α) :
    (deferredSystem handler maxThroughput).step w c ≠ none := by
  obtain ⟨tr, hr⟩ := h
  have hl := ledger_of_run hmax hr
  cases c with
  | send a m =>
    obtain ⟨w', hw, -⟩ := ledger_send hl a m
    simp [deferredSystem, hw, Except.toOption]
  | run a =>
    obtain ⟨w', hw, -⟩ := ledger_run handler hmax hl a
    simp [deferredSystem, hw]

/-- **Conservation and order, exactly**: after any sequence of sends and runs, the messages
an actor consumed followed by those in its mailbox are the messages enqueued to it, in
order, if and only if each of its runs began with no message in the cache. -/
theorem fifo_iff_cache_empty (hmax : 0 < maxThroughput) {tr : List (World ι σ α × Call ι α)}
    {w : World ι σ α} (h : (deferredSystem handler maxThroughput).Run tr w) (a : ι) :
    w.consumed a ++ (w.mailbox a).contents = w.enqueued a ↔
      ∀ p ∈ tr, p.2 = .run a → (p.1.mailbox a).cache.first = [] := by
  have hl := ledger_of_run hmax h
  rw [← lossyRuns_eq_zero]
  constructor
  · intro heq
    have := hl.lost a
    rw [← heq, List.length_append] at this
    omega
  · exact hl.kept a

/-- Two messages and a throughput of two: nothing is lost. -/
theorem fifo_iff_cache_empty_two : ∃ w : World Unit Unit ℕ,
    w.enqueued () = [1, 2] ∧ w.consumed () ++ (w.mailbox ()).contents = w.enqueued () := by
  have h := (((System.Run.init (T := deferredSystem (fun _ _ u => ([], u)) 2) (s := { user := () })
    ⟨rfl, rfl⟩).step (a := .send () 1) rfl).step (a := .send () 2) rfl).step (a := .run ()) rfl
  exact ⟨_, rfl, (fifo_iff_cache_empty (by decide) h ()).mpr (by simp; rfl)⟩

/-- Two messages and a throughput of one: the second run takes the second message, which the
first run left in the cache, and does not consume it. -/
theorem second_message_lost : ¬ ∀ (maxThroughput : ℕ) (handler : Handler Unit Unit ℕ)
    (tr : List (World Unit Unit ℕ × Call Unit ℕ)) (w : World Unit Unit ℕ), 0 < maxThroughput →
    (deferredSystem handler maxThroughput).Run tr w →
    w.consumed () ++ (w.mailbox ()).contents = w.enqueued () := by
  intro hall
  have h := ((((System.Run.init (T := deferredSystem (fun _ _ u => ([], u)) 1)
    (s := { user := () }) ⟨rfl, rfl⟩).step (a := .send () 1) rfl).step (a := .send () 2) rfl).step
    (a := .run ()) rfl).step (a := .run ()) rfl
  have := hall 1 _ _ _ (by decide) h
  revert this
  decide

end System

end ActorsFramework.Actor
