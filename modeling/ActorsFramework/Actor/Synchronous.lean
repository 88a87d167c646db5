import ActorsFramework.Actor.History
import ActorsFramework.Lib.Tally
import Mathlib.Algebra.Order.Group.Multiset
import Mathlib.Data.Multiset.Bind

/-!
# Run to completion

Actors on an executor that runs a job in place and then releases it. A send to
an idle actor runs the actor before the send returns; in that run the handlers
send to further actors, which run in turn, while a send to an actor that is
already running only leaves a message for it. So runs nest, but never two of one
actor (`NeverNested`).

A message carries the finite tree of sends that handling it sets off (`Sends`).
The mass of the messages that are not handled, counted with their trees,
decreases with every message that is taken, and bounds how deep runs can nest;
this is the fuel of `synchronous`, and `run_to_completion` shows that it
suffices: from an idle system the outermost send returns, and if no run met more
messages than its throughput allows, everything has been handled.
-/

namespace ActorsFramework.Actor

open Detail Executor Lib

/-- Sends, one after the other: to whom, the message's label, and the sends that handling it
makes. -/
inductive Sends (ι β : Type*) where
  /-- No more sends. -/
  | nil
  /-- A send, and those after it. -/
  | cons (receiver : ι) (label : β) (sends rest : Sends ι β)
  deriving DecidableEq

/-- A message, with the sends that handling it makes. -/
structure Message (ι β : Type*) where
  /-- What tells messages apart. -/
  label : β
  /-- The sends of its handler. -/
  sends : Sends ι β
  deriving DecidableEq

variable {ι β σ : Type*}

namespace Sends

/-- The messages sent, each with its receiver. -/
def messages : Sends ι β → List (ι × Message ι β)
  | nil => []
  | cons a l s rest => (a, ⟨l, s⟩) :: rest.messages

/-- All messages of the tree. -/
def nodes : Sends ι β → List (ι × Message ι β)
  | nil => []
  | cons a l s rest => (a, ⟨l, s⟩) :: (s.nodes ++ rest.nodes)

end Sends

/-- A message to `a` and all messages that follow from it. -/
def Message.tree (a : ι) (m : Message ι β) : Multiset (ι × Message ι β) := (a, m) ::ₘ m.sends.nodes

/-- The trees of a list of messages, each with its receiver. -/
def trees (ms : List (ι × Message ι β)) : Multiset (ι × Message ι β) :=
  (ms.map fun p => p.2.tree p.1).sum

/-- The trees of the messages in one mailbox. -/
def mass (a : ι) (ms : List (Message ι β)) : Multiset (ι × Message ι β) := (ms.map (Message.tree a)).sum

theorem trees_messages (s : Sends ι β) : trees s.messages = s.nodes := by
  induction s with
  | nil => rfl
  | cons a l s rest _ ih =>
    rw [Sends.messages, trees, List.map_cons, List.sum_cons]
    change Message.tree a ⟨l, s⟩ + trees rest.messages = _
    rw [ih, Message.tree, Multiset.cons_add]
    rfl

theorem trees_cons (a : ι) (m : Message ι β) (ms : List (ι × Message ι β)) :
    trees ((a, m) :: ms) = m.tree a + trees ms := by
  simp [trees]

@[simp] theorem mass_nil (a : ι) : mass a ([] : List (Message ι β)) = 0 := rfl

theorem mass_cons (a : ι) (m : Message ι β) (ms : List (Message ι β)) :
    mass a (m :: ms) = m.tree a + mass a ms := by
  simp [mass]

theorem mass_append (a : ι) (ms ms' : List (Message ι β)) :
    mass a (ms ++ ms') = mass a ms + mass a ms' := by
  simp [mass]

theorem card_tree (a : ι) (m : Message ι β) : (m.tree a).card = m.sends.nodes.length + 1 := by
  simp [Message.tree]

/-- Handlers that send what the message carries. -/
def carried : Handler ι σ (Message ι β) := fun _ m s => (m.sends.messages, s)

variable [DecidableEq ι]

/-- `dummy_executor::execute`: the job is run and released. The fuel bounds how deep such calls
may nest. -/
def synchronous (maxThroughput : ℕ) : ℕ → Execute ι σ (Message ι β)
  | 0, _, _ => .error .diverges
  | n + 1, a, w => (run (synchronous maxThroughput n) carried maxThroughput a w).map fun p => p.1.release a

/-- `run` of `a` is called. -/
def Event.enters (a : ι) : Event ι (Message ι β) → Bool
  | .enter b => b = a
  | _ => false

/-- `run` of `a` returns. -/
def Event.leaves (a : ι) : Event ι (Message ι β) → Bool
  | .leave b _ _ => b = a
  | _ => false

/-- How often `run` of `a` was called. -/
def enters (a : ι) (log : List (Event ι (Message ι β))) : ℕ := log.countP (Event.enters a)

/-- How often it returned. -/
def leaves (a : ι) (log : List (Event ι (Message ι β))) : ℕ := log.countP (Event.leaves a)

/-- At no time was an actor in two runs. -/
def NeverNested (log : List (Event ι (Message ι β))) : Prop :=
  ∀ l, l <+: log → ∀ a, enters a l ≤ leaves a l + 1

omit [DecidableEq ι] in
/-- No run met more messages than its throughput allows. -/
def Within (maxThroughput : ℕ) (log : List (Event ι (Message ι β))) : Prop :=
  ∀ a handled left, .leave a handled left ∈ log → handled + left ≤ maxThroughput

omit [DecidableEq ι] in
theorem within_iff_all {maxThroughput : ℕ} {log : List (Event ι (Message ι β))} :
    (log.all fun | .leave _ handled left => handled + left ≤ maxThroughput | _ => true) = true ↔
      Within maxThroughput log := by
  rw [List.all_eq_true]
  constructor
  · intro h a n k hm
    simpa using h _ hm
  · intro h e he
    cases e with
    | leave a n k => simpa using h a n k he
    | _ => rfl

instance (maxThroughput : ℕ) (log : List (Event ι (Message ι β))) :
    Decidable (Within maxThroughput log) :=
  decidable_of_iff _ within_iff_all

/-- The messages handled so far, each with its actor. -/
def World.executed (w : World ι σ (Message ι β)) : List (ι × Message ι β) :=
  w.log.filterMap fun
    | .consume a m => some (a, m)
    | _ => none

theorem neverNested_concat {log : List (Event ι (Message ι β))} {e : Event ι (Message ι β)} :
    NeverNested (log ++ [e]) ↔
      NeverNested log ∧ ∀ a, enters a (log ++ [e]) ≤ leaves a (log ++ [e]) + 1 := by
  constructor
  · intro h
    exact ⟨fun l hl => h l (hl.trans (List.prefix_append _ _)), h _ (List.prefix_refl _)⟩
  · rintro ⟨h, he⟩ l hl
    rcases List.prefix_concat_iff.mp hl with rfl | hl
    · exact he
    · exact h l hl

theorem enters_concat (a : ι) (log : List (Event ι (Message ι β))) (e : Event ι (Message ι β)) :
    enters a (log ++ [e]) = enters a log + (e.enters a).toNat := by
  simp only [enters, List.countP_append, List.countP_singleton]
  cases e.enters a <;> rfl

theorem leaves_concat (a : ι) (log : List (Event ι (Message ι β))) (e : Event ι (Message ι β)) :
    leaves a (log ++ [e]) = leaves a log + (e.leaves a).toNat := by
  simp only [leaves, List.countP_append, List.countP_singleton]
  cases e.leaves a <;> rfl

omit [DecidableEq ι] in
theorem Within.mono {maxThroughput : ℕ} {l l' : List (Event ι (Message ι β))} (h : l <+: l')
    (hw : Within maxThroughput l') : Within maxThroughput l :=
  fun a n k hm => hw a n k (h.subset hm)

section Mass

variable [Fintype ι]

/-- The messages in all mailboxes, with their trees. -/
def World.pending (w : World ι σ (Message ι β)) : Multiset (ι × Message ι β) :=
  ∑ a, mass a (w.mailbox a).contents

/-- One mailbox changes. -/
theorem pending_replace (w w' : World ι σ (Message ι β)) (a : ι)
    (h : ∀ b, b ≠ a → (w'.mailbox b).contents = (w.mailbox b).contents) :
    w'.pending + mass a (w.mailbox a).contents = w.pending + mass a (w'.mailbox a).contents :=
  sum_replace (f := fun b => mass b (w'.mailbox b).contents)
    (g := fun b => mass b (w.mailbox b).contents) a fun b hb => by rw [h b hb]

omit [DecidableEq ι] in
theorem pending_congr {w w' : World ι σ (Message ι β)}
    (h : ∀ b, (w'.mailbox b).contents = (w.mailbox b).contents) : w'.pending = w.pending :=
  Finset.sum_congr rfl fun b _ => by rw [h b]

end Mass

/-- What holds of the system whenever a handler sends, at every depth. -/
structure Sound (maxThroughput : ℕ) (w : World ι σ (Message ι β)) : Prop where
  /-- No mailbox is blocked. -/
  isOpen : ∀ a, (w.mailbox a).Open
  /-- Nothing is ever put in the second part of a cache. -/
  second : ∀ a, (w.mailbox a).cache.second = []
  /-- An idle actor is in no run. -/
  idle : ∀ a, (w.actor a).flags = .empty → enters a w.log = leaves a w.log
  /-- No actor was ever in two. -/
  nested : NeverNested w.log
  /-- If no run met too many messages, nothing is left for an idle actor. -/
  settled : Within maxThroughput w.log → ∀ a, (w.actor a).flags = .empty →
    (w.mailbox a).contents = []
  /-- And messages are consumed in the order they were enqueued. -/
  fifo : Within maxThroughput w.log → ∀ a,
    w.consumed a ++ (w.mailbox a).contents = w.enqueued a

section Effect

variable [Fintype ι]

/-- What a piece of execution does: of the actors in `keep`, those that are idle are idle again,
and those that are running go on running; the mass of what is pending grows by no more than
that of the messages sent from outside, `sent`, and if no run met too many messages, all
that is gone was executed. -/
structure Effect (maxThroughput : ℕ) (keep : ι → Prop) (sent : Multiset (ι × Message ι β))
    (w w' : World ι σ (Message ι β)) : Prop where
  /-- The log only grows. -/
  log : w.log <+: w'.log
  /-- Whoever was idle is idle again. -/
  flags : ∀ a, keep a → (w'.actor a).flags = (w.actor a).flags
  /-- Actors that run are not run again. -/
  busy : ∀ a, keep a → (w.actor a).flags = .busy →
    enters a w'.log = enters a w.log ∧ leaves a w'.log = leaves a w.log
  /-- The mass. -/
  mass : w'.pending.card ≤ w.pending.card + sent.card
  /-- Nothing is lost. -/
  exact : Within maxThroughput w'.log →
    (w'.executed : Multiset (ι × Message ι β)) + w'.pending = w.executed + w.pending + sent

variable {maxThroughput : ℕ} {keep : ι → Prop} {w w₁ w₂ w₃ : World ι σ (Message ι β)}

theorem Effect.refl (w : World ι σ (Message ι β)) : Effect maxThroughput keep 0 w w where
  log := List.prefix_refl _
  flags _ _ := rfl
  busy _ _ _ := ⟨rfl, rfl⟩
  mass := by simp
  exact _ := by simp

theorem Effect.trans {s s' : Multiset (ι × Message ι β)} (h : Effect maxThroughput keep s w₁ w₂)
    (h' : Effect maxThroughput keep s' w₂ w₃) : Effect maxThroughput keep (s + s') w₁ w₃ where
  log := h.log.trans h'.log
  flags a ha := (h'.flags a ha).trans (h.flags a ha)
  busy a ha hb := by
    obtain ⟨he₂, hl₂⟩ := h.busy a ha hb
    obtain ⟨he₃, hl₃⟩ := h'.busy a ha ((h.flags a ha).trans hb)
    exact ⟨he₃.trans he₂, hl₃.trans hl₂⟩
  mass := by
    have := h.mass
    have := h'.mass
    rw [Multiset.card_add]
    omega
  exact hw := by rw [h'.exact hw, h.exact (hw.mono h'.log), add_assoc]

theorem Effect.mono {keep' : ι → Prop} {s : Multiset (ι × Message ι β)}
    (h : Effect maxThroughput keep s w₁ w₂) (hk : ∀ a, keep' a → keep a) :
    Effect maxThroughput keep' s w₁ w₂ where
  log := h.log
  flags a ha := h.flags a (hk a ha)
  busy a ha := h.busy a (hk a ha)
  mass := h.mass
  exact := h.exact

end Effect

/-! ### The single steps -/

section Steps

variable {maxThroughput : ℕ} {w w' : World ι σ (Message ι β)} {a : ι} {m : Message ι β}
  {l : List (Message ι β)}

omit [DecidableEq ι] in
theorem executed_emit (w : World ι σ (Message ι β)) (e : Event ι (Message ι β))
    (he : ∀ a m, e ≠ .consume a m) : (w.emit e).executed = w.executed := by
  simp only [World.executed, World.log_emit, List.filterMap_append]
  cases e with
  | consume a m => exact absurd rfl (he a m)
  | _ => simp

omit [DecidableEq ι] in
theorem executed_consume (w : World ι σ (Message ι β)) (a : ι) (m : Message ι β) :
    (w.emit (.consume a m)).executed = w.executed ++ [(a, m)] := by
  simp [World.executed]

/-- A message arrives at an actor that is running, or that is about to run. -/
theorem Sound.arrive (h : Sound maxThroughput w) (hm : w'.mailbox = (w.enqueue a m).mailbox)
    (hl : w'.log = (w.enqueue a m).log) (hf : (w'.actor a).flags = .busy)
    (hne : ∀ b, b ≠ a → (w'.actor b).flags = (w.actor b).flags) : Sound maxThroughput w' := by
  have hr := received_enqueue (h.isOpen a) m
  have hlog : w'.log = w.log ++ [.enqueue a m] := hl
  have hcount : ∀ b, enters b w'.log = enters b w.log ∧ leaves b w'.log = leaves b w.log := by
    intro b
    rw [hlog, enters_concat, leaves_concat]
    exact ⟨rfl, rfl⟩
  have hflag : ∀ b, (w'.actor b).flags = .empty → b ≠ a := by
    rintro b hb rfl
    rw [hf] at hb
    cases hb
  have hcons : ∀ b, w'.consumed b = (w.enqueue a m).consumed b := by
    intro b
    unfold World.consumed
    rw [hl]
  have henq : ∀ b, w'.enqueued b = (w.enqueue a m).enqueued b := by
    intro b
    unfold World.enqueued
    rw [hl]
  refine ⟨fun b => ?_, fun b => ?_, fun b hb => ?_, ?_, fun hw b hb => ?_, fun hw b => ?_⟩
  · rw [hm]; exact (hr b).isOpen (h.isOpen b)
  · rw [hm, (hr b).cache]; exact h.second b
  · rw [(hcount b).1, (hcount b).2]
    exact h.idle b (hne b (hflag b hb) ▸ hb)
  · rw [hlog, neverNested_concat]
    refine ⟨h.nested, fun b => ?_⟩
    rw [← hlog, (hcount b).1, (hcount b).2]
    exact h.nested _ (List.prefix_refl _) b
  · have hb' := hflag b hb
    rw [hm, (hr b).contents, if_neg (Ne.symm hb'), List.append_nil]
    exact h.settled (hw.mono (hlog ▸ List.prefix_append _ _)) b (hne b hb' ▸ hb)
  · rw [hm, hcons, henq, (hr b).contents, (hr b).consumed, (hr b).enqueued, ← List.append_assoc,
      h.fifo (hw.mono (hlog ▸ List.prefix_append _ _)) b]

/-- The oldest message is taken and handed to `consume`. -/
theorem Sound.take (h : Sound maxThroughput w) (hf : (w.actor a).flags = .busy)
    (hc : (w.mailbox a).contents = m :: l) :
    Sound maxThroughput ((w.setMailbox a ((w.mailbox a).fetched l)).emit (.consume a m)) := by
  have hcount : ∀ b, enters b (w.log ++ [.consume a m]) = enters b w.log ∧
      leaves b (w.log ++ [.consume a m]) = leaves b w.log := by
    intro b
    rw [enters_concat, leaves_concat]
    exact ⟨rfl, rfl⟩
  have hpre : ∀ hw : Within maxThroughput (w.log ++ [.consume a m]), Within maxThroughput w.log :=
    fun hw => hw.mono (List.prefix_append _ _)
  refine ⟨fun b => World.open_setMailbox_fetched h.isOpen a b l,
    fun b => World.second_setMailbox_fetched h.second a b l, fun b hb => ?_, ?_, fun hw b hb => ?_,
    fun hw b => ?_⟩
  · change enters b (w.log ++ _) = leaves b (w.log ++ _)
    rw [(hcount b).1, (hcount b).2]
    exact h.idle b (by simpa using hb)
  · change NeverNested (w.log ++ _)
    rw [neverNested_concat]
    refine ⟨h.nested, fun b => ?_⟩
    rw [(hcount b).1, (hcount b).2]
    exact h.nested _ (List.prefix_refl _) b
  · have hb' : (w.actor b).flags = .empty := by simpa using hb
    have hba : b ≠ a := by
      rintro rfl
      rw [hf] at hb'
      cases hb'
    simpa [hba] using h.settled (hpre hw) b hb'
  · by_cases hba : b = a
    · subst hba
      simp [← h.fifo (hpre hw) b, hc]
    · simp [hba, Ne.symm hba, h.fifo (hpre hw) b]

/-- A run that began with messages in the cache drops one; some run met too many before. -/
theorem Sound.drop (h : Sound maxThroughput w) (hw : ¬ Within maxThroughput w.log)
    (l : List (Message ι β)) : Sound maxThroughput (w.setMailbox a ((w.mailbox a).fetched l)) := by
  refine ⟨fun b => World.open_setMailbox_fetched h.isOpen a b l,
    fun b => World.second_setMailbox_fetched h.second a b l, fun b hb => ?_, h.nested,
    fun hw' => absurd hw' hw, fun hw' => absurd hw' hw⟩
  exact h.idle b (by simpa using hb)

/-- `run` is called. -/
theorem Sound.enter (h : Sound maxThroughput w) (hf : (w.actor a).flags = .busy)
    (he : enters a w.log = leaves a w.log) : Sound maxThroughput (w.emit (.enter a)) := by
  have hpre : ∀ hw : Within maxThroughput (w.log ++ [.enter a]), Within maxThroughput w.log :=
    fun hw => hw.mono (List.prefix_append _ _)
  refine ⟨h.isOpen, h.second, fun b hb => ?_, ?_, fun hw => h.settled (hpre hw), fun hw b => ?_⟩
  · have hba : b ≠ a := by
      rintro rfl
      rw [World.actor_emit, hf] at hb
      cases hb
    rw [World.log_emit, enters_concat, leaves_concat]
    simpa [Event.enters, Event.leaves, Ne.symm hba] using h.idle b hb
  · rw [World.log_emit, neverNested_concat]
    refine ⟨h.nested, fun b => ?_⟩
    rw [enters_concat, leaves_concat]
    by_cases hba : b = a
    · subst hba
      simp [Event.enters, Event.leaves, he]
    · have := h.nested _ (List.prefix_refl _) b
      simpa [Event.enters, Event.leaves, Ne.symm hba] using this
  · rw [World.consumed_enter, World.enqueued_enter]
    exact h.fifo (hpre hw) b

/-- `run` returns and the job is released; unless a run met too many messages, nothing is left. -/
theorem Sound.leave (h : Sound maxThroughput w) {n k : ℕ}
    (hw₀ : ∀ b, b ≠ a → w'.mailbox b = w.mailbox b) (ho : (w'.mailbox a).Open)
    (hs : (w'.mailbox a).cache.second = []) (hf : ∀ b, b ≠ a → (w'.actor b).flags = (w.actor b).flags)
    (hl : w'.log = w.log ++ [.leave a n k]) (he : enters a w.log = leaves a w.log + 1)
    (hc : n + k ≤ maxThroughput → (w.mailbox a).contents = [] ∧ (w'.mailbox a).contents = []) :
    Sound maxThroughput w' := by
  have hpre : ∀ hw : Within maxThroughput w'.log, Within maxThroughput w.log :=
    fun hw => hw.mono (hl ▸ List.prefix_append _ _)
  have hlast : ∀ hw : Within maxThroughput w'.log,
      (w.mailbox a).contents = [] ∧ (w'.mailbox a).contents = [] :=
    fun hw => hc (hw a n k (by simp [hl]))
  have hcount : ∀ b, b ≠ a → enters b w'.log = enters b w.log ∧ leaves b w'.log = leaves b w.log := by
    intro b hb
    rw [hl, enters_concat, leaves_concat]
    simp [Event.enters, Event.leaves, Ne.symm hb]
  have hself : enters a w'.log = leaves a w'.log := by
    rw [hl, enters_concat, leaves_concat]
    simp [Event.enters, Event.leaves, he]
  have hcons : w'.consumed = w.consumed := by
    funext b
    simp [World.consumed, hl, Event.consumedAt]
  have henq : w'.enqueued = w.enqueued := by
    funext b
    simp [World.enqueued, hl, Event.enqueuedAt]
  refine ⟨fun b => ?_, fun b => ?_, fun b hb => ?_, ?_, fun hw b hb => ?_, fun hw b => ?_⟩
  · by_cases hba : b = a
    · subst hba; exact ho
    · rw [hw₀ b hba]; exact h.isOpen b
  · by_cases hba : b = a
    · subst hba; exact hs
    · rw [hw₀ b hba]; exact h.second b
  · by_cases hba : b = a
    · subst hba; exact hself
    · rw [(hcount b hba).1, (hcount b hba).2]
      exact h.idle b (hf b hba ▸ hb)
  · rw [hl, neverNested_concat, ← hl]
    refine ⟨h.nested, fun b => ?_⟩
    by_cases hba : b = a
    · subst hba
      omega
    · rw [(hcount b hba).1, (hcount b hba).2]
      exact h.nested _ (List.prefix_refl _) b
  · by_cases hba : b = a
    · subst hba; exact (hlast hw).2
    · rw [hw₀ b hba]
      exact h.settled (hpre hw) b (hf b hba ▸ hb)
  · rw [hcons, henq, ← h.fifo (hpre hw) b]
    by_cases hba : b = a
    · subst hba
      rw [(hlast hw).1, (hlast hw).2]
    · rw [hw₀ b hba]

end Steps

/-! ### What the single steps do -/

section StepEffects

variable [Fintype ι] {maxThroughput : ℕ} {keep : ι → Prop} {w w' : World ι σ (Message ι β)} {a : ι}
  {m : Message ι β} {l : List (Message ι β)}

theorem Effect.arrive (h : Sound maxThroughput w) (hm : w'.mailbox = (w.enqueue a m).mailbox)
    (hl : w'.log = (w.enqueue a m).log)
    (hf : ∀ b, keep b → (w'.actor b).flags = (w.actor b).flags) :
    Effect maxThroughput keep (m.tree a) w w' := by
  have hr := received_enqueue (h.isOpen a) m
  have hlog : w'.log = w.log ++ [.enqueue a m] := hl
  have hp : w'.pending = w.pending + m.tree a := by
    have := pending_replace w w' a fun b hb => by
      rw [hm, (hr b).contents, if_neg (Ne.symm hb), List.append_nil]
    rw [hm, (hr a).contents, if_pos rfl, mass_append, mass_cons, ← add_assoc, add_right_comm] at this
    simpa using add_right_cancel this
  refine ⟨hlog ▸ List.prefix_append _ _, hf, fun b _ _ => ⟨?_, ?_⟩, ?_, fun _ => ?_⟩
  · rw [hlog, enters_concat]; rfl
  · rw [hlog, leaves_concat]; rfl
  · rw [hp, Multiset.card_add]
  · have hex : w'.executed = w.executed := by
      unfold World.executed
      rw [hlog, List.filterMap_append]
      exact List.append_nil _
    rw [hex, hp, add_assoc]

/-- A message that is taken is gone with its tree; the rest of the tree is then sent. -/
theorem Effect.take (hc : (w.mailbox a).contents = m :: l)
    (h : Effect maxThroughput keep m.sends.nodes
      ((w.setMailbox a ((w.mailbox a).fetched l)).emit (.consume a m)) w') :
    Effect maxThroughput keep 0 w w' ∧ w'.pending.card < w.pending.card := by
  generalize hw₁ : (w.setMailbox a ((w.mailbox a).fetched l)).emit (.consume a m) = w₁ at h
  have hlog : w₁.log = w.log ++ [.consume a m] := by rw [← hw₁]; rfl
  have hp : w₁.pending + m.tree a = w.pending := by
    have := pending_replace w w₁ a fun b hb => by rw [← hw₁]; simp [hb]
    rw [hc, mass_cons, ← hw₁, World.mailbox_emit, World.mailbox_setMailbox_self,
      Mailbox.contents_fetched, ← add_assoc, hw₁] at this
    exact add_right_cancel this
  have hcard := congrArg Multiset.card hp
  rw [Multiset.card_add, card_tree] at hcard
  have hmass := h.mass
  rw [Multiset.coe_card] at hmass
  have hfl : ∀ b, (w₁.actor b).flags = (w.actor b).flags := fun b => by rw [← hw₁]; simp
  refine ⟨⟨?_, fun b hk => (h.flags b hk).trans (hfl b), fun b hk hb => ?_,
    by rw [Multiset.card_zero]; omega, fun hw => ?_⟩, by omega⟩
  · exact (hlog ▸ List.prefix_append _ _ : w.log <+: w₁.log).trans h.log
  · obtain ⟨he, hl⟩ := h.busy b hk ((hfl b).trans hb)
    rw [hlog, enters_concat] at he
    rw [hlog, leaves_concat] at hl
    exact ⟨he, hl⟩
  · have hex : w₁.executed = w.executed ++ [(a, m)] := by
      rw [← hw₁]
      exact executed_consume _ a m
    rw [h.exact hw, hex, ← hp, Message.tree, ← Multiset.coe_add, ← Multiset.singleton_add,
      Multiset.coe_singleton]
    abel

theorem Effect.drop (hw : ¬ Within maxThroughput w.log) (hc : (w.mailbox a).contents = m :: l) :
    Effect maxThroughput keep 0 w (w.setMailbox a ((w.mailbox a).fetched l)) := by
  refine ⟨List.prefix_refl _, fun b _ => by simp, fun _ _ _ => ⟨rfl, rfl⟩, ?_, fun hw' => absurd hw' hw⟩
  have := pending_replace w (w.setMailbox a ((w.mailbox a).fetched l)) a
    fun b hb => by simp [hb]
  rw [hc, mass_cons, World.mailbox_setMailbox_self, Mailbox.contents_fetched] at this
  have hcard := congrArg Multiset.card this
  simp only [Multiset.card_add] at hcard
  rw [Multiset.card_zero]
  omega

theorem Effect.enter (w : World ι σ (Message ι β)) (a : ι) :
    Effect maxThroughput (· ≠ a) 0 w (w.emit (.enter a)) where
  log := List.prefix_append _ _
  flags _ _ := rfl
  busy b hba hb := by
    refine ⟨?_, ?_⟩
    · rw [World.log_emit, enters_concat]
      simp [Event.enters, Ne.symm hba]
    · rw [World.log_emit, leaves_concat]
      rfl
  mass := le_of_eq (by rw [Multiset.card_zero]; rfl)
  exact _ := by
    rw [executed_emit _ _ (by nofun), add_zero]
    rfl

theorem Effect.leave {n k : ℕ} (hw : ∀ b, (w'.mailbox b).contents = (w.mailbox b).contents)
    (hf : ∀ b, b ≠ a → (w'.actor b).flags = (w.actor b).flags)
    (hl : w'.log = w.log ++ [.leave a n k]) : Effect maxThroughput (· ≠ a) 0 w w' where
  log := hl ▸ List.prefix_append _ _
  flags := hf
  busy b hba _ := by
    refine ⟨?_, ?_⟩
    · rw [hl, enters_concat]
      rfl
    · rw [hl, leaves_concat]
      simp [Event.leaves, Ne.symm hba]
  mass := by rw [pending_congr hw, Multiset.card_zero, add_zero]
  exact _ := by
    have hex : w'.executed = w.executed := by simp [World.executed, hl]
    rw [pending_congr hw, hex, add_zero]

/-- An actor with something to read has mass. -/
theorem pending_pos (h : (w.mailbox a).contents ≠ []) : 0 < w.pending.card := by
  obtain ⟨m, l, hc⟩ := List.exists_cons_of_ne_nil h
  have := pending_replace w (w.setMailbox a ((w.mailbox a).fetched [])) a
    fun b hb => by simp [hb]
  rw [hc, mass_cons, World.mailbox_setMailbox_self, Mailbox.contents_fetched, mass_nil, add_zero] at this
  rw [← this, Multiset.card_add, Multiset.card_add, card_tree]
  omega

/-- An actor that is idle before and after can be kept as well. -/
theorem Effect.of_idle {s : Multiset (ι × Message ι β)} (h : Effect maxThroughput (· ≠ a) s w w')
    (hf : (w.actor a).flags = .empty) (hf' : (w'.actor a).flags = .empty) :
    Effect maxThroughput keep s w w' where
  log := h.log
  flags b _ := by
    by_cases hba : b = a
    · rw [hba, hf, hf']
    · exact h.flags b hba
  busy b _ hb := by
    refine h.busy b ?_ hb
    rintro rfl
    rw [hf] at hb
    cases hb
  mass := h.mass
  exact := h.exact

end StepEffects

/-! ### Runs, by induction on the mass -/

section Runs

variable [Fintype ι] {maxThroughput n : ℕ} {keep : ι → Prop} {w : World ι σ (Message ι β)} {a : ι}
  {execute : Execute ι σ (Message ι β)}

/-- An executor that runs to completion any actor just handed to it, where no more than the
mass `n` is pending. -/
def Completes (maxThroughput n : ℕ) (execute : Execute ι σ (Message ι β)) : Prop :=
  ∀ a w, Sound maxThroughput w → (w.actor a).flags = .busy → enters a w.log = leaves a w.log →
    (w.mailbox a).contents ≠ [] → (Within maxThroughput w.log → (w.mailbox a).cache.first = []) →
    w.pending.card ≤ n →
    ∃ w', execute a w = .ok w' ∧ Sound maxThroughput w' ∧ (w'.actor a).flags = .empty ∧
      Effect maxThroughput (· ≠ a) 0 w w'

variable (keep) in
/-- A send from anywhere in the system. -/
theorem Completes.enqueueBase (hx : Completes maxThroughput n execute) (h : Sound maxThroughput w)
    (m : Message ι β) (hn : w.pending.card + (m.tree a).card ≤ n) :
    ∃ w', enqueueBase execute a m w = .ok w' ∧ Sound maxThroughput w' ∧
      Effect maxThroughput keep (m.tree a) w w' := by
  unfold Actor.enqueueBase
  cases hf : (w.actor a).flags with
  | busy =>
    have hbusy : ((w.enqueue a m).actor a).flags = .busy := (World.flags_enqueue w a a m).trans hf
    refine ⟨w.enqueue a m, by simp [hf], ?_, .arrive h rfl rfl fun b _ => World.flags_enqueue w a b m⟩
    exact h.arrive rfl rfl hbusy fun b _ => World.flags_enqueue w a b m
  | empty =>
    have hm := mailbox_addRef_enqueue (h.isOpen a) m
    have hother : ∀ b, b ≠ a → (((w.enqueue a m).addRef a).actor b).flags = (w.actor b).flags :=
      fun b hb => by simp [hb]
    have hself := World.flags_addRef_self (w.enqueue a m) a
    have hs : Sound maxThroughput ((w.enqueue a m).addRef a) := h.arrive hm rfl hself hother
    have he : Effect maxThroughput (· ≠ a) (m.tree a) w ((w.enqueue a m).addRef a) :=
      .arrive h hm rfl hother
    have hr := received_enqueue (h.isOpen a) m a
    have hlog : ((w.enqueue a m).addRef a).log = w.log ++ [.enqueue a m] := rfl
    have heq : enters a ((w.enqueue a m).addRef a).log = leaves a ((w.enqueue a m).addRef a).log := by
      rw [hlog, enters_concat, leaves_concat]
      exact h.idle a hf
    have hne : (((w.enqueue a m).addRef a).mailbox a).contents ≠ [] := by
      rw [hm, hr.contents]
      simp
    have hfirst : Within maxThroughput ((w.enqueue a m).addRef a).log →
        (((w.enqueue a m).addRef a).mailbox a).cache.first = [] := by
      intro hw
      have hc := h.settled (hw.mono he.log) a hf
      rw [hm, hr.cache]
      simp only [Mailbox.contents, List.append_eq_nil_iff] at hc
      exact hc.1
    obtain ⟨w', hw', hs', hf', he'⟩ := hx a _ hs hself heq hne hfirst (le_trans he.mass hn)
    refine ⟨w', by simpa [hf] using hw', hs', .of_idle ?_ hf hf'⟩
    have := he.trans he'
    rwa [add_zero] at this

variable (keep) in
/-- The sends of a handler. -/
theorem Completes.sendAll (hx : Completes maxThroughput n execute) (h : Sound maxThroughput w)
    (ms : List (ι × Message ι β)) (hn : w.pending.card + (trees ms).card ≤ n) :
    ∃ w', sendAll execute ms w = .ok w' ∧ Sound maxThroughput w' ∧
      Effect maxThroughput keep (trees ms) w w' := by
  induction ms generalizing w with
  | nil => exact ⟨w, rfl, h, .refl w⟩
  | cons p ms ih =>
    obtain ⟨b, m⟩ := p
    rw [trees_cons, Multiset.card_add] at hn
    obtain ⟨w₁, hw₁, h₁, he₁⟩ := hx.enqueueBase keep h (a := b) m (by omega)
    have hmass := he₁.mass
    obtain ⟨w₂, hw₂, h₂, he₂⟩ := ih h₁ (by omega)
    refine ⟨w₂, ?_, h₂, ?_⟩
    · rw [Actor.sendAll, hw₁]
      exact hw₂
    · rw [trees_cons]
      exact he₁.trans he₂

variable (keep) in
/-- One round of the second loop of a run: a message is taken and consumed, and the runs that
this sets off are nested in it. -/
theorem Completes.round (hx : Completes maxThroughput n execute) (h : Sound maxThroughput w)
    (hf : (w.actor a).flags = .busy) {m : Message ι β} {l : List (Message ι β)}
    (hc : (w.mailbox a).contents = m :: l) (hn : w.pending.card ≤ n + 1) :
    ∃ w', consume execute carried a m (w.setMailbox a ((w.mailbox a).fetched l)) = .ok w' ∧
      Sound maxThroughput w' ∧ Effect maxThroughput keep 0 w w' := by
  have hs := h.take hf hc
  have hp := pending_replace w
    ((w.setMailbox a ((w.mailbox a).fetched l)).emit (.consume a m)) a fun b hb => by simp [hb]
  rw [hc, mass_cons, World.mailbox_emit, World.mailbox_setMailbox_self, Mailbox.contents_fetched] at hp
  have hcard := congrArg Multiset.card hp
  simp only [Multiset.card_add, card_tree] at hcard
  have hle : (trees m.sends.messages).card = m.sends.nodes.length := by
    rw [trees_messages, Multiset.coe_card]
  obtain ⟨w', hw', h', he'⟩ := hx.sendAll keep hs m.sends.messages (by omega)
  rw [trees_messages] at he'
  exact ⟨w', hw', h', (Effect.take hc he').1⟩

/-- A run of `a` that began in `w` and has come to `w'`, at the head of one of its loops. -/
structure InRun (maxThroughput : ℕ) (a : ι) (w w' : World ι σ (Message ι β)) : Prop where
  /-- The system is sound. -/
  sound : Sound maxThroughput w'
  /-- The actor runs. -/
  busy : (w'.actor a).flags = .busy
  /-- It is in one run. -/
  entered : enters a w'.log = leaves a w'.log + 1
  /-- What has been done. -/
  effect : Effect maxThroughput (· ≠ a) 0 w w'

theorem InRun.start (h : Sound maxThroughput w) (hf : (w.actor a).flags = .busy)
    (he : enters a w.log = leaves a w.log) : InRun maxThroughput a w (w.emit (.enter a)) where
  sound := h.enter hf he
  busy := hf
  entered := by
    rw [World.log_emit, enters_concat, leaves_concat]
    simp [Event.enters, Event.leaves, he]
  effect := .enter w a

variable {w' w'' : World ι σ (Message ι β)}

theorem InRun.next (h : InRun maxThroughput a w w') (hs : Sound maxThroughput w'')
    (he : Effect maxThroughput (fun _ => True) 0 w' w'') : InRun maxThroughput a w w'' := by
  obtain ⟨hen, hle⟩ := he.busy a trivial h.busy
  refine ⟨hs, (he.flags a trivial).trans h.busy, by rw [hen, hle]; exact h.entered, ?_⟩
  have := h.effect.trans (he.mono fun _ _ => trivial)
  rwa [add_zero] at this

theorem InRun.mass_le (h : InRun maxThroughput a w w') : w'.pending.card ≤ w.pending.card := by
  have := h.effect.mass
  rwa [Multiset.card_zero, add_zero] at this

theorem InRun.cache_empty (h : InRun maxThroughput a w w') (hc : (w'.mailbox a).contents = []) :
    (w'.mailbox a).cache.empty = true := by
  simp only [Mailbox.contents, List.append_eq_nil_iff] at hc
  simp [Cache.empty, hc.1, h.sound.second a]

/-- The run returns with nothing left. -/
theorem InRun.done (h : InRun maxThroughput a w w') (hc : (w'.mailbox a).contents = []) (k : ℕ) :
    Sound maxThroughput (((w'.block a).leave a k).release a) ∧
      Effect maxThroughput (· ≠ a) 0 w (((w'.block a).leave a k).release a) := by
  have hm : (((w'.block a).leave a k).release a).mailbox a = (w'.mailbox a).fetched [] :=
    World.mailbox_release_block w' a
  have hne : ∀ b, b ≠ a → (((w'.block a).leave a k).release a).mailbox b = w'.mailbox b :=
    fun b hb => by simp [hb]
  have hfl : ∀ b, b ≠ a → ((((w'.block a).leave a k).release a).actor b).flags = (w'.actor b).flags :=
    fun b hb => by simp [hb]
  have hcont : ∀ b, ((((w'.block a).leave a k).release a).mailbox b).contents =
      (w'.mailbox b).contents := by
    intro b
    by_cases hb : b = a
    · subst hb; rw [hm, hc, Mailbox.contents_fetched]
    · rw [hne b hb]
  refine ⟨h.sound.leave hne ?_ ?_ hfl rfl h.entered fun _ => ⟨hc, (hcont a).trans hc⟩, ?_⟩
  · rw [hm]; exact Mailbox.open_fetched _ _
  · rw [hm]; exact h.sound.second a
  · have := h.effect.trans (.leave hcont hfl rfl)
    rwa [add_zero] at this

/-- The run returns with its throughput used up and something left. -/
theorem InRun.exhausted (h : InRun maxThroughput a w w') (hc : (w'.mailbox a).contents ≠ []) :
    Sound maxThroughput ((w'.leave a maxThroughput).release a) ∧
      Effect maxThroughput (· ≠ a) 0 w ((w'.leave a maxThroughput).release a) := by
  have ho := h.sound.isOpen a
  have hne : ∀ b, b ≠ a → ((w'.leave a maxThroughput).release a).mailbox b = w'.mailbox b :=
    fun b hb => by simp [hb]
  have hfl : ∀ b, b ≠ a →
      (((w'.leave a maxThroughput).release a).actor b).flags = (w'.actor b).flags :=
    fun b hb => by simp [hb]
  have hcont : ∀ b, (((w'.leave a maxThroughput).release a).mailbox b).contents =
      (w'.mailbox b).contents := by
    intro b
    by_cases hb : b = a
    · subst hb
      simp only [World.mailbox_release_self, World.mailbox_leave, Mailbox.contents,
        Mailbox.cache_tryUnblock, Mailbox.waiting_tryUnblock]
    · rw [hne b hb]
  have hlen := List.length_pos_iff.mpr hc
  refine ⟨h.sound.leave hne ?_ ?_ hfl rfl h.entered fun hle => ?_, ?_⟩
  · simpa using Mailbox.open_tryUnblock ho.ne_closed
  · simpa [Mailbox.cache_tryUnblock] using h.sound.second a
  · simp only [World.left, List.length_append] at hle
    omega
  · have := h.effect.trans (.leave hcont hfl rfl)
    rwa [add_zero] at this

/-- A run on an executor that completes with one unit of mass less. -/
theorem Completes.run (hmax : 0 < maxThroughput) (hx : Completes maxThroughput n execute)
    (h : Sound maxThroughput w) (hf : (w.actor a).flags = .busy)
    (he : enters a w.log = leaves a w.log)
    (hfirst : Within maxThroughput w.log → (w.mailbox a).cache.first = [])
    (hn : w.pending.card ≤ n + 1) :
    ∃ w', run execute carried maxThroughput a w = .ok (w', .awaiting) ∧
      Sound maxThroughput (w'.release a) ∧ Effect maxThroughput (· ≠ a) 0 w (w'.release a) := by
  -- a run that does not begin with an empty cache comes after one that met too many messages
  refine run_rule hmax
    (I := fun k w' => InRun maxThroughput a w w' ∧
      ((k = maxThroughput ∧ w' = w.emit (.enter a)) ∨ ¬ Within maxThroughput w'.log))
    (J := fun _ w' => InRun maxThroughput a w w')
    (Q := fun w' => Sound maxThroughput (w'.release a) ∧
      Effect maxThroughput (· ≠ a) 0 w (w'.release a))
    (fun k w' hJ => hJ.1.sound.isOpen a) (fun k w' hJ => hJ.sound.isOpen a)
    ?_ ?_ ⟨.start h hf he, .inl ⟨rfl, rfl⟩⟩ (fun k w' hJ _ => hJ.1) ?_ (fun k w' _ hJ hc => hJ.done hc _)
    (fun w' hJ hc => hJ.exhausted hc)
  · rintro k w' m l ⟨hJ, hk⟩ hne hc
    have hw : ¬ Within maxThroughput w'.log := by
      rcases hk with ⟨-, rfl⟩ | hw
      · intro hw
        have := hfirst (hw.mono (List.prefix_append _ _))
        simp [Cache.empty, this, h.second a] at hne
      · exact hw
    exact ⟨w'.setMailbox a ((w'.mailbox a).fetched l), by simp [consumeFromCache, hJ.sound.second a],
      hJ.next (hJ.sound.drop hw l) (.drop hw hc), .inr hw⟩
  · rintro k w' m l hJ hc
    have hmass := hJ.mass_le
    obtain ⟨w'', hw'', hs, heff⟩ := hx.round (fun _ => True) hJ.sound hJ.busy hc (by omega)
    exact ⟨w'', hw'', hJ.next hs heff⟩
  · rintro k w' - ⟨hJ, -⟩ hne hc
    rw [hJ.cache_empty hc] at hne
    cases hne

/-- The synchronous executor runs to completion what its fuel covers. -/
theorem completes_synchronous (hmax : 0 < maxThroughput) (n : ℕ) :
    Completes maxThroughput n (synchronous (σ := σ) (ι := ι) (β := β) maxThroughput n) := by
  induction n with
  | zero =>
    intro a w _ _ _ hne _ hn
    have := pending_pos hne
    omega
  | succ n ih =>
    intro a w hs hf he _ hfirst hn
    obtain ⟨w', hw', hs', heff⟩ := ih.run hmax hs hf he hfirst hn
    refine ⟨w'.release a, ?_, hs', World.flags_release_self w' a, heff⟩
    rw [synchronous, hw']
    rfl

/-- Nothing is going on: all actors are idle, their mailboxes empty and unblocked. -/
structure Idle (w : World ι σ (Message ι β)) : Prop where
  /-- `flags_`. -/
  flags : ∀ a, (w.actor a).flags = .empty
  /-- The mailboxes. -/
  mailbox : ∀ a, w.mailbox a = {}

omit [Fintype ι] in
theorem Idle.sound (h : Idle w) (hl : w.log = []) : Sound maxThroughput w where
  isOpen a := by rw [h.mailbox]; exact ⟨[], rfl⟩
  second a := by rw [h.mailbox]
  idle a _ := by rw [hl]; rfl
  nested := by
    rw [hl]
    intro l hl' a
    rw [List.prefix_nil.mp hl']
    exact Nat.zero_le _
  settled _ a _ := by rw [h.mailbox]; rfl
  fifo _ a := by
    rw [h.mailbox]
    simp [World.consumed, World.enqueued, hl, Mailbox.contents, Mailbox.waiting]

omit [DecidableEq ι] in
theorem Idle.pending (h : Idle w) : w.pending = 0 :=
  Finset.sum_eq_zero fun a _ => by
    rw [h.mailbox]
    rfl

/-- **Run to completion**: on an idle system, with fuel for the size of the tree, the outermost
send returns. No run was ever nested in a run of the same actor, and if no run met more
messages than `max_throughput`, the system is idle again, every message of the tree was
executed exactly once, and each actor executed its messages in the order they were
enqueued to it. -/
theorem run_to_completion (hmax : 0 < maxThroughput) (h : Idle w) (hl : w.log = [])
    (m : Message ι β) (hn : m.sends.nodes.length < n) :
    ∃ w', enqueueBase (synchronous maxThroughput n) a m w = .ok w' ∧ NeverNested w'.log ∧
      (Within maxThroughput w'.log → Idle w' ∧ w'.executed.Perm ((a, m) :: m.sends.nodes) ∧
        ∀ b, w'.consumed b = w'.enqueued b) := by
  have hp := h.pending
  have hcard : w.pending.card + (m.tree a).card ≤ n := by
    rw [hp, Multiset.card_zero, card_tree]
    omega
  obtain ⟨w', hw', hs, he⟩ := (completes_synchronous hmax n).enqueueBase (fun _ => True)
    (h.sound hl) (a := a) m hcard
  refine ⟨w', hw', hs.nested, fun hwithin => ?_⟩
  have hfl : ∀ b, (w'.actor b).flags = .empty := fun b => (he.flags b trivial).trans (h.flags b)
  have hc : ∀ b, (w'.mailbox b).contents = [] := fun b => hs.settled hwithin b (hfl b)
  refine ⟨⟨hfl, fun b => ?_⟩, ?_, fun b => ?_⟩
  · exact Mailbox.eq_empty (hs.isOpen b) (hc b) (hs.second b)
  · have hex := he.exact hwithin
    have hp' : w'.pending = 0 := Finset.sum_eq_zero fun b _ => by rw [hc b, mass_nil]
    have hw : w.executed = [] := by rw [World.executed, hl]; rfl
    rw [hp, hp', hw, add_zero, add_zero, Multiset.coe_nil, zero_add, Message.tree,
      Multiset.cons_coe] at hex
    exact Multiset.coe_eq_coe.mp hex
  · have := hs.fifo hwithin b
    rwa [hc b, List.append_nil] at this

end Runs

/-- Two actors: the first sends to the second, which answers, and to itself. -/
theorem run_to_completion_two : ∃ w' : World (Fin 2) Unit (Message (Fin 2) ℕ),
    enqueueBase (synchronous 5 4) 0 ⟨0, .cons 1 1 (.cons 0 2 .nil .nil) (.cons 0 3 .nil .nil)⟩
      { user := () } = .ok w' ∧ (∀ a, w'.consumed a = w'.enqueued a) ∧
      (w'.consumed 0).map Message.label = [0, 2, 3] := by
  obtain ⟨w', hw', -, h⟩ := run_to_completion (n := 4) (a := 0)
    (w := { actor := fun _ : Fin 2 => {}, user := () }) (show 0 < 5 by decide) ⟨fun _ => rfl, fun _ => rfl⟩ rfl
    (⟨0, .cons 1 1 (.cons 0 2 .nil .nil) (.cons 0 3 .nil .nil)⟩ : Message (Fin 2) ℕ) (by decide)
  obtain ⟨w₁, hw₁, hwithin, hcons⟩ : ∃ w₁, enqueueBase (synchronous 5 4) (0 : Fin 2)
      (⟨0, .cons 1 1 (.cons 0 2 .nil .nil) (.cons 0 3 .nil .nil)⟩ : Message (Fin 2) ℕ)
      { user := () } = .ok w₁ ∧ Within 5 w₁.log ∧ (w₁.consumed 0).map Message.label = [0, 2, 3] :=
    ⟨_, rfl, by decide, by decide⟩
  rw [hw₁] at hw'
  cases hw'
  exact ⟨w', hw₁, (h hwithin).2.2, hcons⟩

end ActorsFramework.Actor
