import ActorsFramework.Actor.History
import ActorsFramework.Actor.SingleRun
import Mathlib.Logic.Relation

/-!
# `run` as a function and as steps

`run` has been written down twice: as a function of all actors, with handlers that send
and an executor that may run what it is handed (`ActorsFramework.Actor.CooperativeActor`),
and as the steps of one thread among others (`ActorsFramework.Actor.Scheduling`). Here the
first is a course of the second: while a handler is at work other things happen to the
mailbox, as they would with other threads, and between handlers nothing does.

* `Arrives` — what may happen to a mailbox from outside; `ArrivesBy` keeps the messages.
* `worldMarks`, `marks` — which messages handlers begin with and which arrive, in order, by the
  log of the function and by the steps.
* `Leads` — a run that is at one place comes to another, and what is marked on the way.
* `fetchLoop_leads`, `cacheLoop_leads`, `mainLoop_leads` — a loop of the function is a
  course of the steps.
* `run_takes_steps` — so is a call of `run`, and it counts the same messages and hands the same
  to the handlers.
-/

namespace ActorsFramework.Scheduling

open Detail Lib Relation
open Actor (World Execute Handler Event LoopExit isHighPriority isHighPriority_eq)
open Executor (ExecutableResult)

/-- Messages arrive, and others try to block and unblock the mailbox. -/
def Arrives {α : Type*} : Mailbox α → Mailbox α → Prop :=
  ReflTransGen fun q q' => (∃ m, q' = (q.enqueue m).1) ∨ q' = q.tryBlock.1 ∨ q' = q.tryUnblock.1

/-- The same, and these are the messages. -/
inductive ArrivesBy {α : Type*} (q : Mailbox α) : List α → Mailbox α → Prop where
  /-- Nothing. -/
  | refl : ArrivesBy q [] q
  /-- A message. -/
  | enqueue {l : List α} {q' : Mailbox α} (m : α) :
      ArrivesBy q l q' → ArrivesBy q (l ++ [m]) (q'.enqueue m).1
  /-- A `try_block`. -/
  | tryBlock {l : List α} {q' : Mailbox α} : ArrivesBy q l q' → ArrivesBy q l q'.tryBlock.1
  /-- A `try_unblock`. -/
  | tryUnblock {l : List α} {q' : Mailbox α} : ArrivesBy q l q' → ArrivesBy q l q'.tryUnblock.1

theorem ArrivesBy.trans {α : Type*} {q q' q'' : Mailbox α} {l l' : List α} (h : ArrivesBy q l q')
    (h' : ArrivesBy q' l' q'') : ArrivesBy q (l ++ l') q'' := by
  induction h' with
  | refl =>
    rw [List.append_nil]
    exact h
  | enqueue m _ ih =>
    rw [← List.append_assoc]
    exact ih.enqueue m
  | tryBlock _ ih => exact ih.tryBlock
  | tryUnblock _ ih => exact ih.tryUnblock

theorem Arrives.exists_by {α : Type*} {q q' : Mailbox α} (h : Arrives q q') : ∃ l, ArrivesBy q l q' := by
  induction h with
  | refl => exact ⟨[], .refl⟩
  | tail _ hlast ih =>
    obtain ⟨l, hl⟩ := ih
    rcases hlast with ⟨m, rfl⟩ | rfl | rfl
    · exact ⟨_, hl.enqueue m⟩
    · exact ⟨l, hl.tryBlock⟩
    · exact ⟨l, hl.tryUnblock⟩

/-! ### What happens to the messages -/

/-- A message of one actor: a handler begins with it, or it arrives. -/
inductive Mark (α : Type*) where
  /-- A handler is called with it. -/
  | begins (m : α)
  /-- It is put in the mailbox. -/
  | arrives (m : α)
  deriving DecidableEq

variable {ι σ α : Type*}

section Marks

variable [DecidableEq ι]

/-- What an event means to the messages of `a`. -/
def eventMark (a : ι) : Event ι α → Option (Mark α)
  | .consume b m => if b = a then some (.begins m) else none
  | .enqueue b m => if b = a then some (.arrives m) else none
  | _ => none

/-- What has happened to the messages of `a`, by the log. -/
def worldMarks (a : ι) (w : World ι σ α) : List (Mark α) := w.log.filterMap (eventMark a)

@[simp] theorem worldMarks_setMailbox (a b : ι) (w : World ι σ α) (q : Mailbox α) :
    worldMarks a (w.setMailbox b q) = worldMarks a w := rfl

@[simp] theorem worldMarks_addRef (a b : ι) (w : World ι σ α) :
    worldMarks a (w.addRef b) = worldMarks a w := rfl

theorem worldMarks_emit (a : ι) (w : World ι σ α) (e : Event ι α) :
    worldMarks a (w.emit e) = worldMarks a w ++ (eventMark a e).toList := by
  simp only [worldMarks, World.log_emit, List.filterMap_append]
  cases h : eventMark a e <;> simp [h]

theorem worldMarks_enqueue (a b : ι) (w : World ι σ α) (m : α) :
    worldMarks a (w.enqueue b m) = worldMarks a w ++ if b = a then [.arrives m] else [] := by
  rw [World.enqueue, worldMarks_emit, worldMarks_setMailbox, eventMark]
  split_ifs <;> rfl

@[simp] theorem worldMarks_enter (a b : ι) (w : World ι σ α) :
    worldMarks a (w.emit (.enter b)) = worldMarks a w := by
  simp [worldMarks_emit, eventMark]

@[simp] theorem worldMarks_leave (a b : ι) (w : World ι σ α) (n : ℕ) :
    worldMarks a (w.leave b n) = worldMarks a w := by
  simp [World.leave, worldMarks_emit, eventMark]

theorem worldMarks_consume (a : ι) (w : World ι σ α) (m : α) :
    worldMarks a (w.emit (.consume a m)) = worldMarks a w ++ [.begins m] := by
  simp [worldMarks_emit, eventMark]

/-- What is done for another actor is on record: the messages `a` is sent meanwhile, and no
handler of it is called. -/
def Records (a : ι) (w w' : World ι σ α) : Prop :=
  ∃ l, ArrivesBy (w.mailbox a) l (w'.mailbox a) ∧ worldMarks a w' = worldMarks a w ++ l.map .arrives

/-- What happens to the mailbox of `a` is what other threads may do; and it is on record, if `P`
holds. -/
def Delivers (P : Prop) (a : ι) (w w' : World ι σ α) : Prop :=
  ∃ l, ArrivesBy (w.mailbox a) l (w'.mailbox a) ∧
    (P → worldMarks a w' = worldMarks a w ++ l.map .arrives)

theorem Delivers.refl (P : Prop) (a : ι) (w : World ι σ α) : Delivers P a w w :=
  ⟨[], .refl, fun _ => (List.append_nil _).symm⟩

theorem Delivers.trans {P : Prop} {a : ι} {w w₁ w' : World ι σ α} (h : Delivers P a w w₁)
    (h' : Delivers P a w₁ w') : Delivers P a w w' := by
  obtain ⟨l₁, hl₁, hmarks₁⟩ := h
  obtain ⟨l₂, hl₂, hmarks₂⟩ := h'
  refine ⟨_, hl₁.trans hl₂, fun hP => ?_⟩
  rw [hmarks₂ hP, hmarks₁ hP, List.map_append, List.append_assoc]

end Marks

variable [DecidableEq α] {maxThroughput : ℕ}

omit [DecidableEq α] in
/-- The message of the handler that a worker has come to: in the first loop `consume_from_cache`
takes it from the second part of the cache. -/
def WorkPc.begins (q : Mailbox α) : WorkPc α → Option α
  | .handler ⟨.cache, _⟩ _ => q.cache.second.head?
  | .handler _ m => some m
  | _ => none

variable (maxThroughput) in
/-- What a step means to the messages. -/
def stepMark (s : RunState α) : RunAct α → Option (Mark α)
  | .run => (runStep maxThroughput s.mailbox s.pc).bind fun r => (r.2.begins r.1).map .begins
  | .enqueue m => some (.arrives m)
  | .tryBlock | .tryUnblock => none

variable (maxThroughput) in
/-- What has happened to the messages, by the steps. -/
def marks (tr : List (RunState α × RunAct α)) : List (Mark α) :=
  tr.filterMap fun p => stepMark maxThroughput p.1 p.2

theorem marks_append (tr tr' : List (RunState α × RunAct α)) :
    marks maxThroughput (tr ++ tr') = marks maxThroughput tr ++ marks maxThroughput tr' :=
  List.filterMap_append

theorem marks_singleton (s : RunState α) (a : RunAct α) :
    marks maxThroughput [(s, a)] = (stepMark maxThroughput s a).toList := by
  cases h : stepMark maxThroughput s a <;> simp [marks, h]

/-! ### Courses -/

/-- A run that works on the mailbox `q` and is at `pc` may come to work on `q'` and be at `pc'`,
and `ms` is what happens to the messages on the way. -/
def Leads (maxThroughput : ℕ) (q : Mailbox α) (pc : WorkPc α) (ms : List (Mark α)) (q' : Mailbox α)
    (pc' : WorkPc α) : Prop :=
  ∀ (q₀ : Mailbox α) tr (s : RunState α), (singleRun maxThroughput q₀).Run tr s → s.mailbox = q →
    s.pc = pc → ∃ tr' s', (singleRun maxThroughput q₀).Run (tr ++ tr') s' ∧
      s'.mailbox = q' ∧ s'.pc = pc' ∧ marks maxThroughput tr' = ms

namespace Leads

variable {q q' q'' : Mailbox α} {pc pc' pc'' : WorkPc α} {ms ms' : List (Mark α)}

theorem refl (q : Mailbox α) (pc : WorkPc α) : Leads maxThroughput q pc [] q pc := by
  intro q₀ tr s hr hq hpc
  exact ⟨[], s, by rwa [List.append_nil], hq, hpc, rfl⟩

theorem trans (h : Leads maxThroughput q pc ms q' pc') (h' : Leads maxThroughput q' pc' ms' q'' pc'') :
    Leads maxThroughput q pc (ms ++ ms') q'' pc'' := by
  intro q₀ tr s hr hq hpc
  obtain ⟨tr₁, s₁, hr₁, hq₁, hpc₁, rfl⟩ := h q₀ tr s hr hq hpc
  obtain ⟨tr₂, s₂, hr₂, hq₂, hpc₂, rfl⟩ := h' q₀ _ s₁ hr₁ hq₁ hpc₁
  exact ⟨tr₁ ++ tr₂, s₂, by rwa [← List.append_assoc], hq₂, hpc₂, marks_append tr₁ tr₂⟩

/-- One action. -/
theorem single {a : RunAct α} (h : ∀ (q₀ : Mailbox α) (s : RunState α), s.mailbox = q → s.pc = pc →
    ∃ s', (singleRun maxThroughput q₀).step s a = some s' ∧ s'.mailbox = q' ∧ s'.pc = pc' ∧
      (stepMark maxThroughput s a).toList = ms) : Leads maxThroughput q pc ms q' pc' := by
  intro q₀ tr s hr hq hpc
  obtain ⟨s', hs, hq', hpc', hms⟩ := h q₀ s hq hpc
  exact ⟨[(s, a)], s', hr.step hs, hq', hpc', by rw [marks_singleton, hms]⟩

/-- A step of the run. -/
theorem step (h : runStep maxThroughput q pc = some (q', pc')) :
    Leads maxThroughput q pc ((pc'.begins q').map Mark.begins).toList q' pc' := by
  refine single (a := .run) ?_
  rintro q₀ s rfl rfl
  refine ⟨⟨q', pc', handledAfter s.handled pc', s.executed + executes s.pc⟩, ?_, rfl, rfl, ?_⟩
  · simp [singleRun, h]
  · simp [stepMark, h]

/-- A step with which no handler begins. -/
theorem silent (h : runStep maxThroughput q pc = some (q', pc')) (hb : pc'.begins q' = none) :
    Leads maxThroughput q pc [] q' pc' := by
  have hstep := step h
  rwa [hb] at hstep

/-- Something happens to the mailbox from outside. -/
theorem arrives {l : List α} (h : ArrivesBy q l q') (pc : WorkPc α) :
    Leads maxThroughput q pc (l.map .arrives) q' pc := by
  induction h with
  | refl => exact refl q pc
  | @enqueue l q' m _ ih =>
    rw [List.map_append]
    refine ih.trans (single (a := .enqueue m) ?_)
    rintro q₀ s rfl rfl
    exact ⟨{ s with mailbox := (s.mailbox.enqueue m).1 }, rfl, rfl, rfl, rfl⟩
  | @tryBlock l q' _ ih =>
    rw [← List.append_nil (l.map _)]
    refine ih.trans (single (a := .tryBlock) ?_)
    rintro q₀ s rfl rfl
    exact ⟨{ s with mailbox := s.mailbox.tryBlock.1 }, rfl, rfl, rfl, rfl⟩
  | @tryUnblock l q' _ ih =>
    rw [← List.append_nil (l.map _)]
    refine ih.trans (single (a := .tryUnblock) ?_)
    rintro q₀ s rfl rfl
    exact ⟨{ s with mailbox := s.mailbox.tryUnblock.1 }, rfl, rfl, rfl, rfl⟩

end Leads

/-! ### Reading the mailbox -/

section Reading

variable {q q' : Mailbox α} {pt : Point}

/-- The mailbox with these messages in the first part of its cache. -/
def withFirst (q : Mailbox α) (l : List α) : Mailbox α :=
  { q with cache := { q.cache with first := l } }

omit [DecidableEq α] in
/-- `try_pop` returns null: it has read `stack_` as empty. -/
theorem of_tryPop_none (h : q.tryPop = .ok (q', none)) : q' = q ∧ q.head = [] ∧ q.stack = .list [] := by
  obtain ⟨stack, head, cache⟩ := q
  cases head with
  | cons x head => cases h
  | nil =>
    cases stack with
    | closed => cases h
    | blocked => cases h
    | list l =>
      cases l with
      | nil =>
        cases h
        exact ⟨rfl, rfl, rfl⟩
      | cons e es =>
        change Mailbox.popHead _ = _ at h
        unfold Mailbox.popHead at h
        split at h <;> cases h

/-- One round of `next_message`'s loop takes an element from the mailbox to the cache. -/
theorem tryPop_leads (l : List α) {m : α} (h : q.tryPop = .ok (q', some m)) :
    Leads maxThroughput (withFirst q l) (.tryPop pt) [] (withFirst q' (l ++ [m])) (.tryPop pt) := by
  obtain ⟨stack, head, cache⟩ := q
  cases head with
  | cons x head =>
    cases h
    exact .silent rfl rfl
  | nil =>
    cases stack with
    | closed => cases h
    | blocked => cases h
    | list es =>
      cases es with
      | nil => cases h
      | cons e es =>
        -- the stack is read, and then taken off
        have hread : Leads maxThroughput (withFirst ⟨.list (e :: es), [], cache⟩ l) (.tryPop pt) []
            (withFirst ⟨.list (e :: es), [], cache⟩ l) (.exchange pt (.elem e)) := .silent rfl rfl
        refine hread.trans (.silent ?_ rfl)
        cases hr : Mailbox.relink (e :: es) [] with
        | nil =>
          simp only [Mailbox.tryPop, Mailbox.fetchNewData, Mailbox.popHead, hr] at h
          cases h
        | cons x head =>
          simp only [Mailbox.tryPop, Mailbox.fetchNewData, Mailbox.popHead, hr] at h
          cases h
          simp only [runStep, withFirst, Stack.top_cons, Stack.elems_list, if_true, reduceCtorEq,
            if_false, hr]
          rfl

variable (maxThroughput)

omit [DecidableEq α] in
/-- What happens to the messages at the end of `next_message`: a handler may begin. -/
def takenMarks (q : Mailbox α) (pt : Point) : List (Mark α) :=
  (((taken maxThroughput q pt).2.begins (taken maxThroughput q pt).1).map Mark.begins).toList

/-- **The loop of `next_message`**, up to where `try_pop` returns null. -/
theorem fetchLoop_leads (pt : Point) {n : ℕ} {l l' : List α}
    (h : Mailbox.fetchLoop isHighPriority n [] l q = .ok (q', l')) :
    Leads maxThroughput (withFirst q l) (.tryPop pt) (takenMarks maxThroughput (withFirst q' l') pt)
      (taken maxThroughput (withFirst q' l') pt).1 (taken maxThroughput (withFirst q' l') pt).2 := by
  induction n generalizing l q with
  | zero => cases h
  | succ n ih =>
    rw [Mailbox.fetchLoop] at h
    split at h
    next => cases h
    next q₁ hpop =>
      cases h
      obtain ⟨rfl, hh, hs⟩ := of_tryPop_none hpop
      refine .step ?_
      simp [runStep, withFirst, hh, hs]
    next q₁ m hpop =>
      rw [isHighPriority_eq, if_neg (by simp)] at h
      exact (tryPop_leads l hpop).trans (ih h)

/-- `next_message`: what it returns was the first message of the cache. -/
theorem nextMessage_leads (pt : Point) {o : Option α} (h : q.nextMessage isHighPriority = .ok (q', o)) :
    Leads maxThroughput q (.tryPop pt)
        (takenMarks maxThroughput (withFirst q' (o.toList ++ q'.cache.first)) pt)
        (taken maxThroughput (withFirst q' (o.toList ++ q'.cache.first)) pt).1
        (taken maxThroughput (withFirst q' (o.toList ++ q'.cache.first)) pt).2 ∧
      (o = none → q'.cache.first = []) := by
  have hany : q.cache.first.head?.any isHighPriority = false := by
    cases q.cache.first <;> rfl
  rw [Mailbox.nextMessage, Mailbox.fetchAll, hany, if_neg (by simp)] at h
  cases hl : Mailbox.fetchLoop isHighPriority (q.waiting.length + 1) [] q.cache.first q with
  | error f =>
    rw [hl] at h
    cases h
  | ok r =>
    obtain ⟨q₁, l⟩ := r
    have hleads := fetchLoop_leads maxThroughput pt hl
    rw [hl] at h
    cases l with
    | nil =>
      cases h
      exact ⟨hleads, fun _ => rfl⟩
    | cons m ms =>
      cases h
      exact ⟨hleads, fun hn => by cases hn⟩

/-- The inner loop of `run` ends with a message. -/
theorem awaitMessage_some (pt : Point) {m : α} (h : q.awaitMessage isHighPriority = .ok (q', some m)) :
    Leads maxThroughput q (.tryPop pt)
      (takenMarks maxThroughput (withFirst q' (m :: q'.cache.first)) pt)
      (taken maxThroughput (withFirst q' (m :: q'.cache.first)) pt).1
      (taken maxThroughput (withFirst q' (m :: q'.cache.first)) pt).2 := by
  unfold Mailbox.awaitMessage at h
  split at h
  next => cases h
  next q₁ m₁ hm =>
    cases h
    exact (nextMessage_leads maxThroughput pt hm).1
  next q₁ hm => split at h <;> cases h

/-- It ends with the mailbox blocked. -/
theorem awaitMessage_none {pt : Point} (hpt : pt.loop ≠ .tail)
    (h : q.awaitMessage isHighPriority = .ok (q', none)) :
    ∃ q₁, q₁.tryBlock = (q', true) ∧ Leads maxThroughput q (.tryPop pt) [] q₁ (.tryBlock pt) := by
  unfold Mailbox.awaitMessage at h
  split at h
  next => cases h
  next => cases h
  next q₁ hm =>
    split at h
    next q₂ hb =>
      cases h
      obtain ⟨hleads, hnil⟩ := nextMessage_leads maxThroughput pt hm
      have htaken : taken maxThroughput (withFirst q₁ (none.toList ++ q₁.cache.first)) pt =
          (q₁, .tryBlock pt) := by
        obtain ⟨stack, head, ⟨first, second⟩⟩ := q₁
        obtain rfl : first = [] := hnil rfl
        simp [taken, withFirst, hpt]
      rw [takenMarks, htaken] at hleads
      exact ⟨q₁, hb, hleads⟩
    next => cases h

omit [DecidableEq α] in
/-- At the head of a loop no handler begins. -/
theorem begins_mainHead (q : Mailbox α) (n : ℕ) (ptr : Option α) :
    (mainHead maxThroughput n ptr).begins q = none := by
  unfold mainHead
  split_ifs
  · rfl
  · cases ptr <;> rfl

omit [DecidableEq α] in
theorem begins_cacheHead (q q' : Mailbox α) (n : ℕ) (ptr : Option α) :
    (cacheHead maxThroughput q' n ptr).begins q = none := by
  unfold cacheHead
  split_ifs
  · rfl
  · exact begins_mainHead maxThroughput q n ptr

omit [DecidableEq α] in
/-- What `run` does with a message in its first loop. -/
theorem taken_cache (q : Mailbox α) (n : ℕ) (m : α) :
    taken maxThroughput (withFirst q (m :: q.cache.first)) ⟨.cache, n⟩ =
      if q.cache.second.isEmpty then (q, cacheHead maxThroughput q (n + 1) (some m))
      else (q, .handler ⟨.cache, n⟩ m) := rfl

omit [DecidableEq α] in
/-- And in its second. -/
theorem taken_loop (q : Mailbox α) (n : ℕ) (m : α) :
    taken maxThroughput (withFirst q (m :: q.cache.first)) ⟨.main, n⟩ = (q, .handler ⟨.main, n⟩ m) := rfl

end Reading

/-! ### Handlers -/

section Handlers

variable [DecidableEq ι] {execute : Execute ι σ α} {handler : Handler ι σ α} {P : Prop} {a : ι}
  {w w' : World ι σ α}

omit [DecidableEq α] in
/-- The executor delivers, and records it where it records everything. -/
theorem delivers_of_arrives
    (hexec : ∀ b w w', execute b w = .ok w' → Arrives (w.mailbox a) (w'.mailbox a)) {b : ι}
    (h : execute b w = .ok w') :
    Delivers (∀ b w w', execute b w = .ok w' → Records a w w') a w w' := by
  by_cases hrec : Records a w w'
  · obtain ⟨l, hl, hmarks⟩ := hrec
    exact ⟨l, hl, fun _ => hmarks⟩
  · obtain ⟨l, hl⟩ := (hexec b w w' h).exists_by
    exact ⟨l, hl, fun hP => absurd (hP b w w' h) hrec⟩

omit [DecidableEq α] in
/-- A message is put in the mailbox of this actor, or of another. -/
theorem delivers_enqueue (P : Prop) (a b : ι) (w : World ι σ α) (m : α) :
    Delivers P a w (w.enqueue b m) := by
  refine ⟨if b = a then [m] else [], ?_, fun _ => ?_⟩
  · by_cases hba : b = a
    · subst hba
      have hbox : (w.enqueue b m).mailbox b = ((w.mailbox b).enqueue m).1 := by
        simp [World.enqueue]
      rw [if_pos rfl, hbox]
      exact .enqueue (l := []) m .refl
    · have hbox : (w.enqueue b m).mailbox a = w.mailbox a := by
        simp [World.enqueue, World.mailbox_setMailbox_ne w (Ne.symm hba)]
      rw [if_neg hba, hbox]
      exact .refl
  · rw [worldMarks_enqueue]
    split_ifs <;> rfl

omit [DecidableEq α] in
/-- The `try_block` of `intrusive_ptr_add_ref_impl`. -/
theorem delivers_addRef (P : Prop) (a b : ι) (w : World ι σ α) : Delivers P a w (w.addRef b) := by
  refine ⟨[], ?_, fun _ => (List.append_nil _).symm⟩
  by_cases hba : b = a
  · subst hba
    have hbox : (w.addRef b).mailbox b = (w.mailbox b).tryBlock.1 := by
      simp [World.addRef, World.mailbox]
    rw [hbox]
    exact .tryBlock .refl
  · have hbox : (w.addRef b).mailbox a = w.mailbox a := by
      simp [World.addRef, World.mailbox, World.actor_modify_ne _ (Ne.symm hba)]
    rw [hbox]
    exact .refl

omit [DecidableEq α] in
/-- A call of `enqueue_base`, of this actor or another. -/
theorem delivers_enqueueBase (hexec : ∀ b w w', execute b w = .ok w' → Delivers P a w w') {b : ι} {m : α}
    (h : Actor.enqueueBase execute b m w = .ok w') : Delivers P a w w' := by
  unfold Actor.enqueueBase at h
  dsimp only at h
  split_ifs at h
  · exact (delivers_enqueue P a b w m).trans ((delivers_addRef P a b _).trans (hexec _ _ _ h))
  · cases h
    exact delivers_enqueue P a b w m

omit [DecidableEq α] in
theorem delivers_sendAll (hexec : ∀ b w w', execute b w = .ok w' → Delivers P a w w') {ms : List (ι × α)}
    (h : Actor.sendAll execute ms w = .ok w') : Delivers P a w w' := by
  induction ms generalizing w with
  | nil =>
    cases h
    exact .refl P a _
  | cons p ms ih =>
    obtain ⟨b, m⟩ := p
    cases he : Actor.enqueueBase execute b m w with
    | error f =>
      rw [Actor.sendAll, he] at h
      cases h
    | ok w₁ =>
      rw [Actor.sendAll, he] at h
      exact (delivers_enqueueBase hexec he).trans (ih h)

omit [DecidableEq α] in
/-- A handler begins, and while it is at work nothing else happens to the mailbox than from other
threads. -/
theorem arrives_consume (hexec : ∀ b w w', execute b w = .ok w' → Delivers P a w w') {m : α}
    (h : Actor.consume execute handler a m w = .ok w') :
    ∃ l, ArrivesBy (w.mailbox a) l (w'.mailbox a) ∧
      (P → worldMarks a w' = worldMarks a w ++ .begins m :: l.map .arrives) := by
  obtain ⟨l, hl, hmarks⟩ :=
    delivers_sendAll (w := { w.emit (.consume a m) with user := (handler a m w.user).2 }) hexec h
  refine ⟨l, hl, fun hP => (hmarks hP).trans ?_⟩
  rw [← List.singleton_append, ← List.append_assoc, ← worldMarks_consume]
  rfl

end Handlers

/-! ### The loops -/

section Loops

variable [DecidableEq ι] {execute : Execute ι σ α} {handler : Handler ι σ α} {P : Prop} {a : ι}
  {w w' : World ι σ α}

/-- A loop that ends so, with the mailbox `q'`, is a course from `pc`: to the `try_block` that
succeeds, or to what comes `next`. -/
def Exits (maxThroughput : ℕ) (q : Mailbox α) (pc : WorkPc α) (next : ℕ → Option α → WorkPc α)
    (ms : List (Mark α)) (q' : Mailbox α) : LoopExit α → Prop
  | .awaiting k => ∃ q₁ pt, q₁.tryBlock = (q', true) ∧ pt.handled = maxThroughput - k ∧
      Leads maxThroughput q pc ms q₁ (.tryBlock pt)
  | .left k ptr => k ≤ maxThroughput ∧ Leads maxThroughput q pc ms q' (next (maxThroughput - k) ptr)

theorem Leads.exits {q q₁ q' : Mailbox α} {pc pc₁ : WorkPc α} {next : ℕ → Option α → WorkPc α}
    {ms ms' : List (Mark α)} {e : LoopExit α} (h : Leads maxThroughput q pc ms q₁ pc₁)
    (he : Exits maxThroughput q₁ pc₁ next ms' q' e) :
    Exits maxThroughput q pc next (ms ++ ms') q' e := by
  cases e with
  | awaiting k =>
    obtain ⟨q₂, pt, hb, hpt, hleads⟩ := he
    exact ⟨q₂, pt, hb, hpt, h.trans hleads⟩
  | left k ptr => exact ⟨he.1, h.trans he.2⟩

/-- A round of a loop, from the mailbox of `w` to that of `w'`: what it does to the messages is
on record, if `P` holds. -/
def Round (maxThroughput : ℕ) (P : Prop) (a : ι) (w : World ι σ α) (pc : WorkPc α) (w' : World ι σ α)
    (pc' : WorkPc α) : Prop :=
  ∃ ms, Leads maxThroughput (w.mailbox a) pc ms (w'.mailbox a) pc' ∧
    (P → worldMarks a w' = worldMarks a w ++ ms)

variable (maxThroughput) in
/-- A round of the second loop: the message that `next_message` returned is consumed. -/
theorem mainRound (hexec : ∀ b w w', execute b w = .ok w' → Delivers P a w w') {q : Mailbox α} {m : α}
    (hq : (w.mailbox a).awaitMessage isHighPriority = .ok (q, some m))
    (h : Actor.consume execute handler a m (w.setMailbox a q) = .ok w') (n : ℕ) :
    Round maxThroughput P a w (.tryPop ⟨.main, n⟩) w' (mainHead maxThroughput (n + 1) (some m)) := by
  have hleads := awaitMessage_some maxThroughput ⟨.main, n⟩ hq
  rw [takenMarks, taken_loop] at hleads
  obtain ⟨l, hl, hmarks⟩ := arrives_consume hexec h
  rw [World.mailbox_setMailbox_self] at hl
  have hstep : Leads maxThroughput (w'.mailbox a) (.handler ⟨.main, n⟩ m) [] (w'.mailbox a)
      (mainHead maxThroughput (n + 1) (some m)) :=
    .silent rfl (begins_mainHead _ _ _ _)
  refine ⟨_, (hleads.trans (.arrives hl _)).trans hstep, fun hP => ?_⟩
  rw [hmarks hP, worldMarks_setMailbox]
  simp [WorkPc.begins]

variable (maxThroughput) in
/-- A round of the first loop: the first message of the second part of the cache is consumed, and
then erased; where there is none, nothing is done with what `next_message` returned. -/
theorem cacheRound (hexec : ∀ b w w', execute b w = .ok w' → Delivers P a w w') {q : Mailbox α} {m : α}
    (hq : (w.mailbox a).awaitMessage isHighPriority = .ok (q, some m))
    (h : Actor.consumeFromCache execute handler a (w.setMailbox a q) = .ok w') (n : ℕ) :
    Round maxThroughput P a w (.tryPop ⟨.cache, n⟩) w'
      (cacheHead maxThroughput (w'.mailbox a) (n + 1) (some m)) := by
  have hleads := awaitMessage_some maxThroughput ⟨.cache, n⟩ hq
  rw [takenMarks, taken_cache] at hleads
  have hbox : (w.setMailbox a q).mailbox a = q := World.mailbox_setMailbox_self w a q
  unfold Actor.consumeFromCache at h
  rw [hbox] at h
  split at h
  next hnil =>
    cases h
    rw [hnil, List.isEmpty_nil, if_pos rfl, begins_cacheHead] at hleads
    rw [← hbox] at hleads
    exact ⟨[], hleads, fun _ => (List.append_nil _).symm⟩
  next m' ms hcons =>
    cases hc : Actor.consume execute handler a m' (w.setMailbox a q) with
    | error f =>
      rw [hc] at h
      cases h
    | ok w₁ =>
      rw [hc] at h
      cases h
      rw [hcons, List.isEmpty_cons, if_neg (by simp)] at hleads
      obtain ⟨l, hl, hmarks⟩ := arrives_consume hexec hc
      rw [hbox] at hl
      have hbegins : WorkPc.begins q (.handler ⟨.cache, n⟩ m) = some m' := by
        rw [WorkPc.begins, hcons]
        rfl
      rw [hbegins] at hleads
      rw [Round, World.mailbox_setMailbox_self]
      refine ⟨_, (hleads.trans (.arrives hl _)).trans (.silent rfl (begins_cacheHead _ _ _ _ _)),
        fun hP => ?_⟩
      rw [worldMarks_setMailbox, hmarks hP, worldMarks_setMailbox]
      simp

/-- **The first loop of `run`**. -/
theorem cacheLoop_leads (hexec : ∀ b w w', execute b w = .ok w' → Delivers P a w w') {n : ℕ}
    (hn : n ≤ maxThroughput) {ptr : Option α} {e : LoopExit α}
    (h : Actor.cacheLoop execute handler a n ptr w = .ok (w', e)) :
    ∃ ms, Exits maxThroughput (w.mailbox a)
        (cacheHead maxThroughput (w.mailbox a) (maxThroughput - n) ptr) (mainHead maxThroughput) ms
        (w'.mailbox a) e ∧
      (P → worldMarks a w' = worldMarks a w ++ ms) := by
  induction n generalizing w ptr with
  | zero =>
    cases h
    refine ⟨[], ⟨Nat.zero_le _, ?_⟩, fun _ => (List.append_nil _).symm⟩
    rw [cacheHead, if_neg (by omega)]
    exact .refl _ _
  | succ n ih =>
    unfold Actor.cacheLoop at h
    split at h
    next hempty =>
      cases h
      refine ⟨[], ⟨hn, ?_⟩, fun _ => (List.append_nil _).symm⟩
      rw [cacheHead, if_neg (by simp [hempty])]
      exact .refl _ _
    next hempty =>
      have hhead : cacheHead maxThroughput (w.mailbox a) (maxThroughput - (n + 1)) ptr =
          .tryPop ⟨.cache, maxThroughput - (n + 1)⟩ := by
        rw [cacheHead, if_pos ⟨by omega, by simpa using hempty⟩]
      have hnext : maxThroughput - n = maxThroughput - (n + 1) + 1 := by omega
      rw [hhead]
      split at h
      next => cases h
      next q hq =>
        cases h
        have hpt : (⟨.cache, maxThroughput - (n + 1)⟩ : Point).loop ≠ .tail := by simp
        obtain ⟨q₁, hb, hleads⟩ := awaitMessage_none maxThroughput hpt hq
        rw [World.mailbox_setMailbox_self]
        exact ⟨[], ⟨q₁, _, hb, rfl, hleads⟩, fun _ => (List.append_nil _).symm⟩
      next q m hq =>
        cases hc : Actor.consumeFromCache execute handler a (w.setMailbox a q) with
        | error f =>
          rw [hc] at h
          cases h
        | ok w₁ =>
          rw [hc] at h
          obtain ⟨ms₁, hround, hmarks₁⟩ :=
            cacheRound maxThroughput hexec hq hc (maxThroughput - (n + 1))
          obtain ⟨ms₂, hrest, hmarks₂⟩ := ih (by omega) h
          rw [hnext] at hrest
          refine ⟨_, hround.exits hrest, fun hP => ?_⟩
          rw [hmarks₂ hP, hmarks₁ hP, List.append_assoc]

/-- **The second loop of `run`**. -/
theorem mainLoop_leads (hexec : ∀ b w w', execute b w = .ok w' → Delivers P a w w') {n : ℕ}
    (hn : n ≤ maxThroughput) {ptr : Option α} {e : LoopExit α}
    (h : Actor.mainLoop execute handler a n ptr w = .ok (w', e)) :
    ∃ ms, Exits maxThroughput (w.mailbox a) (mainHead maxThroughput (maxThroughput - n) ptr) tailHead
        ms (w'.mailbox a) e ∧
      (P → worldMarks a w' = worldMarks a w ++ ms) := by
  induction n generalizing w ptr with
  | zero =>
    cases h
    refine ⟨[], ⟨Nat.zero_le _, ?_⟩, fun _ => (List.append_nil _).symm⟩
    rw [mainHead, if_neg (by omega)]
    exact .refl _ _
  | succ n ih =>
    have hhead : mainHead maxThroughput (maxThroughput - (n + 1)) ptr =
        .tryPop ⟨.main, maxThroughput - (n + 1)⟩ := by
      rw [mainHead, if_pos (by omega)]
    have hnext : maxThroughput - n = maxThroughput - (n + 1) + 1 := by omega
    rw [hhead]
    unfold Actor.mainLoop at h
    split at h
    next => cases h
    next q hq =>
      cases h
      have hpt : (⟨.main, maxThroughput - (n + 1)⟩ : Point).loop ≠ .tail := by simp
      obtain ⟨q₁, hb, hleads⟩ := awaitMessage_none maxThroughput hpt hq
      rw [World.mailbox_setMailbox_self]
      exact ⟨[], ⟨q₁, _, hb, rfl, hleads⟩, fun _ => (List.append_nil _).symm⟩
    next q m hq =>
      cases hc : Actor.consume execute handler a m (w.setMailbox a q) with
      | error f =>
        rw [hc] at h
        cases h
      | ok w₁ =>
        rw [hc] at h
        obtain ⟨ms₁, hround, hmarks₁⟩ :=
          mainRound maxThroughput hexec hq hc (maxThroughput - (n + 1))
        obtain ⟨ms₂, hrest, hmarks₂⟩ := ih (by omega) h
        rw [hnext] at hrest
        refine ⟨_, hround.exits hrest, fun hP => ?_⟩
        rw [hmarks₂ hP, hmarks₁ hP, List.append_assoc]

omit [DecidableEq α] in
/-- The second loop is left when the throughput is used up. -/
theorem mainLoop_left {n k : ℕ} {ptr ptr' : Option α}
    (h : Actor.mainLoop execute handler a n ptr w = .ok (w', .left k ptr')) : k = 0 := by
  induction n generalizing w ptr with
  | zero =>
    cases h
    rfl
  | succ n ih =>
    unfold Actor.mainLoop at h
    split at h
    next => cases h
    next => cases h
    next q m hq =>
      cases hc : Actor.consume execute handler a m (w.setMailbox a q) with
      | error f =>
        rw [hc] at h
        cases h
      | ok w₁ =>
        rw [hc] at h
        exact ih h

omit [DecidableEq α] in
/-- The third loop does not end. -/
theorem tailLoop_ne_ok (n : ℕ) : Actor.tailLoop a n w ≠ .ok w' := by
  induction n generalizing w with
  | zero => simp [Actor.tailLoop]
  | succ n ih =>
    unfold Actor.tailLoop
    split
    next => simp
    next => simp
    next => exact ih

/-! ### The whole -/

/-- Some course of the steps of `run` begins with the mailbox `q₀` and ends with `q'`, after `n`
rounds of its loops, and `ms` is what happens to the messages. -/
def Ends (maxThroughput : ℕ) (q₀ : Mailbox α) (ms : List (Mark α)) (q' : Mailbox α) (n : ℕ) : Prop :=
  ∃ tr s, (singleRun maxThroughput q₀).Run tr s ∧ s.pc = .store ∧ s.mailbox = q' ∧ s.handled = n ∧
    marks maxThroughput tr = ms

/-- The last step of a course. -/
theorem Ends.of_step {q₀ q₁ q' : Mailbox α} {pc₁ : WorkPc α} {ms : List (Mark α)} {n : ℕ}
    (hleads : Leads maxThroughput q₀ (cacheHead maxThroughput q₀ 0 none) ms q₁ pc₁)
    (hstep : runStep maxThroughput q₁ pc₁ = some (q', .store))
    (hn : ∀ k, RunState.Place maxThroughput q₁ k pc₁ → k = n) : Ends maxThroughput q₀ ms q' n := by
  obtain ⟨tr, s, hr, rfl, rfl, rfl⟩ := hleads q₀ [] _ (.init rfl) rfl rfl
  have hhandled := hn _ (RunState.within_of_reachable ⟨_, hr⟩).place
  refine ⟨_, ⟨q', .store, s.handled, s.executed + executes s.pc⟩,
    hr.step (a := .run) (by simp [singleRun, hstep, handledAfter]), rfl, rfl, hhandled, ?_⟩
  rw [List.nil_append, marks_append, marks_singleton]
  simp [stepMark, hstep, WorkPc.begins]

/-- A loop returns because `try_block` has succeeded. -/
theorem Ends.of_awaiting {q₀ q' : Mailbox α} {k : ℕ} {next : ℕ → Option α → WorkPc α}
    {ms : List (Mark α)}
    (h : Exits maxThroughput q₀ (cacheHead maxThroughput q₀ 0 none) next ms q' (.awaiting k)) :
    Ends maxThroughput q₀ ms q' (maxThroughput - k) := by
  obtain ⟨q₁, pt, hb, hpt, hleads⟩ := h
  refine .of_step hleads (by simp [runStep, hb]) fun n hplace => ?_
  rw [← hpt]
  exact hplace.1.1.symm

/-- The end of `run`. -/
theorem Ends.of_lastBlock {q₀ : Mailbox α} {ms : List (Mark α)} {r : ExecutableResult}
    (hleads : Leads maxThroughput q₀ (cacheHead maxThroughput q₀ 0 none) ms (w.mailbox a) .hasNext)
    (h : Actor.lastBlock a w = .ok (w', r)) :
    Ends maxThroughput q₀ ms (w'.mailbox a) maxThroughput ∧ worldMarks a w' = worldMarks a w := by
  unfold Actor.lastBlock at h
  split at h
  next => cases h
  next hn =>
    cases h
    exact ⟨.of_step hleads (by simp [runStep, hn]) fun _ hplace => hplace, rfl⟩
  next hn =>
    have hlast : Leads maxThroughput (w.mailbox a) .hasNext [] (w.mailbox a) .lastBlock :=
      .silent (by simp [runStep, hn]) rfl
    have hstep : runStep maxThroughput (w.mailbox a) .lastBlock = some (w'.mailbox a, .store) ∧
        worldMarks a w' = worldMarks a w := by
      split at h
      next hb =>
        cases h
        exact ⟨by simp [runStep, hb], rfl⟩
      next hb =>
        cases h
        exact ⟨by simp [runStep, hb], rfl⟩
    have hall := hleads.trans hlast
    rw [List.append_nil] at hall
    exact ⟨.of_step hall hstep.1 fun _ hplace => hplace.1, hstep.2⟩

omit [DecidableEq α] [DecidableEq ι] in
theorem getLast_leave (w : World ι σ α) (a : ι) (n : ℕ) :
    (w.leave a n).log.getLast? = some (.leave a n ((w.leave a n).left a).length) := by
  rw [World.left_leave]
  simp [World.leave]

/-- A call of `run` that returns is a course of the steps. -/
theorem ends_of_run (hexec : ∀ b w w', execute b w = .ok w' → Delivers P a w w') {r : ExecutableResult}
    (h : Actor.run execute handler maxThroughput a w = .ok (w', r)) :
    ∃ n ms, Ends maxThroughput (w.mailbox a) ms (w'.mailbox a) n ∧
      w'.log.getLast? = some (.leave a n (w'.left a).length) ∧
      (P → worldMarks a w' = worldMarks a w ++ ms) := by
  unfold Actor.run at h
  cases hc : Actor.cacheLoop execute handler a maxThroughput none (w.emit (.enter a)) with
  | error f =>
    rw [hc] at h
    cases h
  | ok p =>
    obtain ⟨w₁, e₁⟩ := p
    obtain ⟨ms₁, hcache, hmarks₁⟩ := cacheLoop_leads hexec le_rfl hc
    rw [Nat.sub_self] at hcache
    rw [worldMarks_enter] at hmarks₁
    rw [hc] at h
    cases e₁ with
    | awaiting k =>
      cases h
      exact ⟨_, ms₁, .of_awaiting hcache, getLast_leave w₁ a _,
        fun hP => (worldMarks_leave a a w₁ _).trans (hmarks₁ hP)⟩
    | left k ptr =>
      obtain ⟨hk, hleads⟩ := hcache
      cases hm : Actor.mainLoop execute handler a k ptr w₁ with
      | error f =>
        simp only [Except.bind, hm] at h
        cases h
      | ok p =>
        obtain ⟨w₂, e₂⟩ := p
        obtain ⟨ms₂, hmain, hmarks₂⟩ := mainLoop_leads hexec hk hm
        have hboth := hleads.exits hmain
        have hmarks : P → worldMarks a w₂ = worldMarks a w ++ (ms₁ ++ ms₂) := by
          intro hP
          rw [hmarks₂ hP, hmarks₁ hP, List.append_assoc]
        simp only [Except.bind, hm] at h
        cases e₂ with
        | awaiting j =>
          cases h
          exact ⟨_, _, .of_awaiting hboth, getLast_leave w₂ a _,
            fun hP => (worldMarks_leave a a w₂ _).trans (hmarks hP)⟩
        | left j ptr' =>
          obtain rfl : j = 0 := mainLoop_left hm
          obtain ⟨-, hlast⟩ := hboth
          cases ptr' with
          | none =>
            -- the third loop does not end
            cases ht : Actor.tailLoop a ((w₂.mailbox a).contents.length + 1) w₂ with
            | error f =>
              simp only [Actor.finish, ht, Except.bind] at h
              cases h
            | ok w₃ => exact absurd ht (tailLoop_ne_ok _)
          | some m =>
            cases hb : Actor.lastBlock a w₂ with
            | error f =>
              simp only [Actor.finish, hb] at h
              cases h
            | ok p =>
              obtain ⟨w₃, r₃⟩ := p
              simp only [Actor.finish, hb] at h
              cases h
              obtain ⟨hends, hsame⟩ := Ends.of_lastBlock hlast hb
              refine ⟨_, _, hends, getLast_leave w₃ a _, fun hP => ?_⟩
              rw [Nat.sub_zero, worldMarks_leave, hsame, hmarks hP]

/-- **`run` is a course of its steps**. Let nothing happen to the mailbox of an actor, while
one of its handlers waits for the executor, but what other threads may do to it. Then a call
of `run` that returns is a course of the steps of one thread, from the mailbox as it was to the
mailbox as it is, and the messages it has counted are the rounds of the loops there. Where the
executor puts on record what arrives meanwhile, and runs no handler of this actor, its handlers
begin with the same messages in both, and between them the same messages arrive. -/
theorem run_takes_steps
    (hexec : ∀ b w w', execute b w = .ok w' → Arrives (w.mailbox a) (w'.mailbox a)) {r : ExecutableResult}
    (h : Actor.run execute handler maxThroughput a w = .ok (w', r)) :
    ∃ tr s, (singleRun maxThroughput (w.mailbox a)).Run tr s ∧ s.pc = .store ∧
      s.mailbox = w'.mailbox a ∧ w'.log.getLast? = some (.leave a s.handled (w'.left a).length) ∧
      ((∀ b w w', execute b w = .ok w' → Records a w w') →
        worldMarks a w' = worldMarks a w ++ marks maxThroughput tr) := by
  obtain ⟨n, ms, hends, hlog, hmarks⟩ := ends_of_run (fun _ _ _ => delivers_of_arrives hexec) h
  obtain ⟨tr, s, hr, hpc, hbox, rfl, rfl⟩ := hends
  exact ⟨tr, s, hr, hpc, hbox, hlog, hmarks⟩

end Loops

/-- A handler that sends to its own actor: the run takes both messages. -/
theorem run_takes_steps_two : ∃ (w' : World Unit Unit ℕ) (tr : List (RunState ℕ × RunAct ℕ))
    (s : RunState ℕ), (singleRun 3 (⟨.list [1], [], {}⟩ : Mailbox ℕ)).Run tr s ∧ s.pc = .store ∧
      s.handled = 2 ∧ s.mailbox = w'.mailbox () ∧
      marks 3 tr = [.begins 1, .arrives 2, .begins 2] := by
  obtain ⟨w', hw', hlast, hmarks⟩ : ∃ w', Actor.run Actor.deferred
      (fun _ m u => (if m = 1 then [((), 2)] else [], u)) 3 ()
        (⟨fun _ => ⟨⟨.list [1], [], {}⟩, .busy, 2⟩, (), []⟩ : World Unit Unit ℕ) = .ok (w', .awaiting) ∧
      w'.log.getLast? = some (.leave () 2 0) ∧
      worldMarks () w' = [.begins 1, .arrives 2, .begins 2] := ⟨_, rfl, rfl, rfl⟩
  have hexec : ∀ b (w w' : World Unit Unit ℕ), Actor.deferred b w = .ok w' →
      Arrives (w.mailbox ()) (w'.mailbox ()) := by
    intro b w w' h
    cases h
    exact .refl
  have hrecords : ∀ b (w w' : World Unit Unit ℕ), Actor.deferred b w = .ok w' → Records () w w' := by
    intro b w w' h
    cases h
    exact ⟨[], .refl, by simp [worldMarks_emit, eventMark]⟩
  obtain ⟨tr, s, hr, hpc, hbox, hlog, hsame⟩ := run_takes_steps hexec hw'
  refine ⟨w', tr, s, hr, hpc, ?_, hbox, ?_⟩
  · rw [hlast] at hlog
    exact (Event.leave.inj (Option.some.inj hlog)).2.1.symm
  · exact (hsame hrecords).symm.trans hmarks

end ActorsFramework.Scheduling
