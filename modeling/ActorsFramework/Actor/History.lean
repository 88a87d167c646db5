import ActorsFramework.Actor.CooperativeActor

/-!
# What reaches a mailbox, and what is consumed

The log of a `World` projected to one actor: the messages enqueued to it and the
messages it consumed, in order. `Received a l w w'` says what a piece of
execution outside the actor's own `run` does to the actor `a`: the messages `l`
arrive, behind those that wait, and nothing else changes. Under an executor that
defers the jobs it is given, this is all that the sends of a handler do
(`consume_deferred`).
-/

namespace ActorsFramework.Actor

open Detail

variable {ι σ α : Type*} [DecidableEq ι]

/-- The message an event puts in the mailbox of `a`. -/
def Event.enqueuedAt (a : ι) : Event ι α → Option α
  | .enqueue b m => if b = a then some m else none
  | _ => none

/-- The message an event has `a` consume. -/
def Event.consumedAt (a : ι) : Event ι α → Option α
  | .consume b m => if b = a then some m else none
  | _ => none

namespace World

/-- The messages enqueued to `a` so far, in order. -/
def enqueued (w : World ι σ α) (a : ι) : List α := w.log.filterMap (Event.enqueuedAt a)

/-- The messages consumed by `a` so far, in order. -/
def consumed (w : World ι σ α) (a : ι) : List α := w.log.filterMap (Event.consumedAt a)

theorem enqueued_emit (w : World ι σ α) (e : Event ι α) (a : ι) :
    (w.emit e).enqueued a = w.enqueued a ++ (e.enqueuedAt a).toList := by
  simp only [enqueued, log_emit, List.filterMap_append]
  cases h : e.enqueuedAt a <;> simp [h]

theorem consumed_emit (w : World ι σ α) (e : Event ι α) (a : ι) :
    (w.emit e).consumed a = w.consumed a ++ (e.consumedAt a).toList := by
  simp only [consumed, log_emit, List.filterMap_append]
  cases h : e.consumedAt a <;> simp [h]

@[simp] theorem enqueued_modify (w : World ι σ α) (b : ι) (f : CooperativeActor α → CooperativeActor α) :
    (w.modify b f).enqueued = w.enqueued := rfl
@[simp] theorem consumed_modify (w : World ι σ α) (b : ι) (f : CooperativeActor α → CooperativeActor α) :
    (w.modify b f).consumed = w.consumed := rfl
@[simp] theorem enqueued_setMailbox (w : World ι σ α) (b : ι) (q : Mailbox α) :
    (w.setMailbox b q).enqueued = w.enqueued := rfl
@[simp] theorem consumed_setMailbox (w : World ι σ α) (b : ι) (q : Mailbox α) :
    (w.setMailbox b q).consumed = w.consumed := rfl
@[simp] theorem enqueued_block (w : World ι σ α) (b : ι) : (w.block b).enqueued = w.enqueued := rfl
@[simp] theorem consumed_block (w : World ι σ α) (b : ι) : (w.block b).consumed = w.consumed := rfl

@[simp] theorem enqueued_enter (w : World ι σ α) (b a : ι) :
    (w.emit (.enter b)).enqueued a = w.enqueued a := by
  simp [enqueued_emit, Event.enqueuedAt]
@[simp] theorem consumed_enter (w : World ι σ α) (b a : ι) :
    (w.emit (.enter b)).consumed a = w.consumed a := by
  simp [consumed_emit, Event.consumedAt]
@[simp] theorem enqueued_leave (w : World ι σ α) (b : ι) (n : ℕ) (a : ι) :
    (w.leave b n).enqueued a = w.enqueued a := by
  simp [leave, enqueued_emit, Event.enqueuedAt]
@[simp] theorem consumed_leave (w : World ι σ α) (b : ι) (n : ℕ) (a : ι) :
    (w.leave b n).consumed a = w.consumed a := by
  simp [leave, consumed_emit, Event.consumedAt]
@[simp] theorem enqueued_consume (w : World ι σ α) (b : ι) (m : α) (a : ι) :
    (w.emit (.consume b m)).enqueued a = w.enqueued a := by
  simp [enqueued_emit, Event.enqueuedAt]
@[simp] theorem consumed_consume_self (w : World ι σ α) (a : ι) (m : α) :
    (w.emit (.consume a m)).consumed a = w.consumed a ++ [m] := by
  simp [consumed_emit, Event.consumedAt]
@[simp] theorem consumed_consume_ne (w : World ι σ α) {a b : ι} (h : a ≠ b) (m : α) :
    (w.emit (.consume a m)).consumed b = w.consumed b := by
  simp [consumed_emit, Event.consumedAt, h]

end World

/-- The messages `l` have arrived in the mailbox of `a`, and that is all. -/
structure Received (a : ι) (l : List α) (w w' : World ι σ α) : Prop where
  /-- They wait behind the others. -/
  waiting : (w'.mailbox a).waiting = (w.mailbox a).waiting ++ l
  /-- The cache is the reader's. -/
  cache : (w'.mailbox a).cache = (w.mailbox a).cache
  /-- An open mailbox stays open. -/
  isOpen : (w.mailbox a).Open → (w'.mailbox a).Open
  /-- The arrivals are on record. -/
  enqueued : w'.enqueued a = w.enqueued a ++ l
  /-- The actor has consumed nothing. -/
  consumed : w'.consumed a = w.consumed a

theorem Received.refl (a : ι) (w : World ι σ α) : Received a [] w w where
  waiting := (List.append_nil _).symm
  cache := rfl
  isOpen := id
  enqueued := (List.append_nil _).symm
  consumed := rfl

theorem Received.trans {a : ι} {l l' : List α} {w₁ w₂ w₃ : World ι σ α} (h : Received a l w₁ w₂)
    (h' : Received a l' w₂ w₃) : Received a (l ++ l') w₁ w₃ where
  waiting := by rw [h'.waiting, h.waiting, List.append_assoc]
  cache := h'.cache.trans h.cache
  isOpen := h'.isOpen ∘ h.isOpen
  enqueued := by rw [h'.enqueued, h.enqueued, List.append_assoc]
  consumed := h'.consumed.trans h.consumed

theorem Received.contents {a : ι} {l : List α} {w w' : World ι σ α} (h : Received a l w w') :
    (w'.mailbox a).contents = (w.mailbox a).contents ++ l := by
  unfold Mailbox.contents
  rw [h.waiting, h.cache, List.append_assoc]

/-- `mailbox().enqueue` on an open mailbox. -/
theorem received_enqueue {w : World ι σ α} {b : ι} (ho : (w.mailbox b).Open) (m : α) (a : ι) :
    Received a (if b = a then [m] else []) w (w.enqueue b m) := by
  by_cases h : b = a
  · subst h
    rw [if_pos rfl]
    refine ⟨?_, ?_, fun _ => ?_, ?_, ?_⟩
    · simp [World.enqueue, Mailbox.waiting_enqueue ho.ne_closed]
    · simp [World.enqueue, Mailbox.cache_enqueue]
    · simpa [World.enqueue] using Mailbox.open_enqueue ho.ne_closed m
    · simp [World.enqueue, World.enqueued_emit, Event.enqueuedAt]
    · simp [World.enqueue, World.consumed_emit, Event.consumedAt]
  · rw [if_neg h]
    have hm : (w.enqueue b m).mailbox a = w.mailbox a := by simp [World.enqueue, Ne.symm h]
    refine ⟨?_, ?_, fun ho => ?_, ?_, ?_⟩
    · rw [hm, List.append_nil]
    · rw [hm]
    · rwa [hm]
    · simp [World.enqueue, World.enqueued_emit, Event.enqueuedAt, h]
    · simp [World.enqueue, World.consumed_emit, Event.consumedAt]

/-- The messages of a list of sends that go to `a`. -/
def sentTo (a : ι) (ms : List (ι × α)) : List α :=
  ms.filterMap fun p => if p.1 = a then some p.2 else none

theorem sentTo_cons (a b : ι) (m : α) (ms : List (ι × α)) :
    sentTo a ((b, m) :: ms) = (if b = a then [m] else []) ++ sentTo a ms := by
  by_cases h : b = a <;> simp [sentTo, h]

theorem sentTo_map (a : ι) (l : List α) : sentTo a (l.map fun m => (a, m)) = l := by
  induction l with
  | nil => rfl
  | cons m l ih => rw [List.map_cons, sentTo_cons, ih]; simp

/-- After a push the hook of a new reference cannot block the queue. -/
theorem mailbox_addRef_enqueue {w : World ι σ α} {b : ι} (ho : (w.mailbox b).Open) (m : α) :
    ((w.enqueue b m).addRef b).mailbox = (w.enqueue b m).mailbox := by
  funext a
  by_cases h : a = b
  · subst h
    have := Mailbox.tryBlock_enqueue ho.ne_closed m
    simp only [World.mailbox] at this
    simp [World.mailbox, World.addRef, World.enqueue, World.setMailbox, this]
  · simp [World.mailbox, World.addRef, h]

/-! ### An executor that defers -/

/-- An executor that keeps the job for later. -/
def deferred : Execute ι σ α := fun a w => .ok (w.emit (.execute a))

variable {handler : Handler ι σ α}

theorem enqueueBase_deferred {w : World ι σ α} {b : ι} (ho : (w.mailbox b).Open) (m : α) :
    ∃ w', enqueueBase deferred b m w = .ok w' ∧ w'.user = w.user ∧
      ∀ a, Received a (if b = a then [m] else []) w w' := by
  unfold enqueueBase
  by_cases hf : ((w.enqueue b m).actor b).flags = .empty
  · refine ⟨((w.enqueue b m).addRef b).emit (.execute b), by rw [if_pos hf]; rfl, rfl, fun a => ?_⟩
    have h := received_enqueue ho m a
    refine ⟨?_, ?_, ?_, ?_, ?_⟩
    · rw [World.mailbox_emit, mailbox_addRef_enqueue ho, h.waiting]
    · rw [World.mailbox_emit, mailbox_addRef_enqueue ho, h.cache]
    · rw [World.mailbox_emit, mailbox_addRef_enqueue ho]
      exact h.isOpen
    · rw [World.enqueued_emit, World.addRef, World.enqueued_modify, h.enqueued]
      exact List.append_nil _
    · rw [World.consumed_emit, World.addRef, World.consumed_modify, h.consumed]
      exact List.append_nil _
  · exact ⟨w.enqueue b m, by rw [if_neg hf], rfl, fun a => received_enqueue ho m a⟩

theorem sendAll_deferred (ms : List (ι × α)) {w : World ι σ α} (ho : ∀ p ∈ ms, (w.mailbox p.1).Open) :
    ∃ w', sendAll deferred ms w = .ok w' ∧ w'.user = w.user ∧
      ∀ a, Received a (sentTo a ms) w w' := by
  induction ms generalizing w with
  | nil => exact ⟨w, rfl, rfl, fun a => .refl a w⟩
  | cons p ms ih =>
    obtain ⟨b, m⟩ := p
    obtain ⟨w₁, h₁, hu₁, hr₁⟩ := enqueueBase_deferred (ho (b, m) (by simp)) m
    obtain ⟨w₂, h₂, hu₂, hr₂⟩ := ih (w := w₁) fun p hp => (hr₁ p.1).isOpen (ho p (by simp [hp]))
    refine ⟨w₂, ?_, hu₂.trans hu₁, fun a => ?_⟩
    · rw [sendAll, h₁]
      exact h₂
    · rw [sentTo_cons]
      exact (hr₁ a).trans (hr₂ a)

variable (handler) in
/-- What `consume` does under an executor that defers: the handler's messages arrive. -/
theorem consume_deferred {a : ι} {m : α} {w : World ι σ α}
    (ho : ∀ p ∈ (handler a m w.user).1, (w.mailbox p.1).Open) :
    ∃ w', consume deferred handler a m w = .ok w' ∧ w'.user = (handler a m w.user).2 ∧
      ∀ b, Received b (sentTo b (handler a m w.user).1) (w.emit (.consume a m)) w' := by
  obtain ⟨w', hs, hu, hr⟩ := sendAll_deferred (handler a m w.user).1
    (w := { w.emit (.consume a m) with user := (handler a m w.user).2 }) ho
  refine ⟨w', hs, hu, fun b => ?_⟩
  exact ⟨(hr b).waiting, (hr b).cache, (hr b).isOpen, (hr b).enqueued, (hr b).consumed⟩

end ActorsFramework.Actor
