import ActorsFramework.Actor.Ensemble

/-!
# What one actor sends to another

Between two actors messages stay in order, although the handlers of the sender may run
on any worker, one after another: a handler sends while its actor is run by nobody else,
and `enqueue_base` has put the message on the stack before it returns.

* `calledTo`, `pushedTo` — the messages sent to an actor, by the calls and by the
  exchanges, each with the one that sent it: an actor, or a thread outside every `run`.
* `Spoken` — what an actor was sent by one source is what came from there, and what
  the one thread now sending for this source carries.
* `pairwise_order` — handlers receive what one source sent in the order it was sent.
-/

namespace ActorsFramework.Scheduling

open Detail Lib

/-- Who sends a message. -/
inductive Source (ι τ : Type*) where
  /-- A handler of this actor. -/
  | actor (i : ι)
  /-- A thread that runs no actor. -/
  | thread (t : τ)
  deriving DecidableEq

/-- The thread that takes a step. -/
def Act.by {τ α : Type*} : Act τ α → τ
  | .call t _ | .send t | .dequeue t | .work t => t

/-- A thread that may be inside `enqueue_base`: it runs no actor, or is in a handler. -/
def Task.speaks {ι α : Type*} (b : Task ι α) : Bool :=
  match b.work with
  | none | some (_, .handler _ _) => true
  | _ => false

/-! ### A step around one actor -/

section Step

variable {τ α : Type*} [DecidableEq τ] [DecidableEq α] {maxThroughput : ℕ} {b b' : State τ α} {a : Act τ α}

/-- A thread carries what it is called with until it puts it on the stack. -/
theorem carried_step (ho : b.mailbox.stack ≠ .closed) (hl : ∀ t m, (b.thread t).send ≠ .exchange m .null)
    (h : step maxThroughput b a = some b') :
    ∃ l o : Option α, b.calls a = l.map (fun m => (a.by, m)) ∧ b.sends a = o.map (fun m => (a.by, m)) ∧
      (b.thread a.by).send.carried ++ l.toList = o.toList ++ (b'.thread a.by).send.carried ∧
      ∀ u, u ≠ a.by → (b'.thread u).send = (b.thread u).send := by
  cases a with
  | call t m =>
    cases moves_of_step h with
    | call hp =>
      refine ⟨some m, none, rfl, rfl, ?_, fun u hu => ?_⟩
      · simp [Act.by, hp, State.sent, SendPc.carried]
      · exact congrArg Thread.send (Function.update_of_ne hu _ _)
  | send t =>
    obtain ⟨r, hr, rfl⟩ := Option.map_eq_some_iff.mp h
    obtain ⟨-, -, -, -, -, hcar⟩ := contents_sendStep ho (hl t) hr
    refine ⟨none, pushes b.mailbox (b.thread t).send, rfl, rfl, ?_, fun u hu => ?_⟩
    · simpa [Act.by, State.sent] using hcar
    · exact congrArg Thread.send (Function.update_of_ne hu _ _)
  | dequeue t =>
    cases moves_of_step h with
    | dequeue _ _ =>
      refine ⟨none, none, rfl, rfl, ?_, fun u _ => send_worked b t u _ _⟩
      rw [send_worked]
      simp
  | work t =>
    have hsend : ∀ u, (b'.thread u).send = (b.thread u).send := by
      intro u
      cases moves_of_step h <;> exact send_worked b t u _ _
    refine ⟨none, none, rfl, rfl, ?_, fun u _ => hsend u⟩
    rw [hsend]
    simp

end Step

namespace Ensemble

variable {ι τ α : Type*} [DecidableEq ι] [DecidableEq τ] [DecidableEq α]

/-- Whom a thread sends for. -/
def source (s : Ensemble ι τ α) (t : τ) : Source ι τ :=
  match (s.thread t).work with
  | some (i, _) => .actor i
  | none => .thread t

/-- What is written on a message that a thread sends. -/
def named (s : Ensemble ι τ α) (p : τ × α) : Source ι τ × α := (s.source p.1, p.2)

/-- The messages that `enqueue_base` of the actor `j` was called with. -/
def calledTo (j : ι) (tr : List (Ensemble ι τ α × EnsembleAct ι τ α)) : List (Source ι τ × α) :=
  tr.filterMap fun p => (p.1.part j p.2).bind fun b => ((p.1.view j).calls b).map p.1.named

/-- The messages put on the stack of the actor `j`. -/
def pushedTo (j : ι) (tr : List (Ensemble ι τ α × EnsembleAct ι τ α)) : List (Source ι τ × α) :=
  tr.filterMap fun p => (p.1.part j p.2).bind fun b => ((p.1.view j).sends b).map p.1.named

/-- The message a thread is sending to the actor `j` and has not put on its stack yet. -/
def carried (s : Ensemble ι τ α) (t : τ) (j : ι) : List α := ((s.view j).thread t).send.carried

section Record

variable {s : Ensemble ι τ α} {tr : List (Ensemble ι τ α × EnsembleAct ι τ α)}

omit [DecidableEq τ] in
/-- They are those of the actor's history. -/
theorem messages_pushedTo (j : ι) (tr : List (Ensemble ι τ α × EnsembleAct ι τ α)) :
    (pushedTo j tr).map Prod.snd = (pushed (history j tr)).map Prod.snd := by
  rw [pushed, history, filterMap_project, pushedTo, List.map_filterMap, List.map_filterMap]
  congr 1
  funext p
  cases p.1.part j p.2 with
  | none => rfl
  | some b =>
    change (((p.1.view j).sends b).map p.1.named).map Prod.snd = ((p.1.view j).sends b).map Prod.snd
    rw [Option.map_map]
    rfl

end Record

/-! ### Who speaks -/

section Speakers

variable [Fintype τ] {maxThroughput : ℕ} {s s' : Ensemble ι τ α} {a : EnsembleAct ι τ α}
  {tr : List (Ensemble ι τ α × EnsembleAct ι τ α)} {src : Source ι τ} {j : ι}

omit [DecidableEq ι] [DecidableEq τ] [DecidableEq α] [Fintype τ] in
/-- A thread that speaks for an actor is running it. -/
theorem running_of_source {t : τ} {i : ι} (hs : s.source t = .actor i)
    (h : (s.thread t).speaks = true) : (s.thread t).running = some i := by
  unfold source at hs
  split at hs
  next k pc hw =>
    obtain rfl : k = i := Source.actor.inj hs
    unfold Task.speaks at h
    rw [hw] at h
    split at h
    next hn => cases hn
    next pt m hh =>
      cases hh
      simp [Task.running, hw, WorkPc.active, WorkPc.inRun]
    next => cases h
  next => cases hs

omit [DecidableEq ι] [DecidableEq τ] [DecidableEq α] [Fintype τ] in
/-- A source that is a thread is that thread. -/
theorem eq_of_source {t u : τ} (hs : s.source t = .thread u) : t = u := by
  unfold source at hs
  split at hs
  next => cases hs
  next => exact Source.thread.inj hs

/-- One thread at most speaks for the source. -/
def Distinct (s : Ensemble ι τ α) (src : Source ι τ) : Prop :=
  ∀ t u, s.source t = src → s.source u = src → (s.thread t).speaks = true →
    (s.thread u).speaks = true → u = t

omit [DecidableEq α] in
theorem distinct_of_single (h : ∀ i, src = .actor i → Single (s.view i)) : s.Distinct src := by
  intro t u ht hu hts hus
  cases src with
  | actor i => exact running_unique (h i rfl) (running_of_source ht hts) (running_of_source hu hus)
  | thread v => rw [eq_of_source ht, eq_of_source hu]

/-- Only threads that may be in `enqueue_base` are. -/
def Talks (s : Ensemble ι τ α) : Prop := ∀ t, (s.thread t).send ≠ none → (s.thread t).speaks = true

omit [Fintype τ] in
/-- **The threads in a step**: one acts. It speaks, and goes on running what it was running, or
it is in no call of `enqueue_base` and begins none. -/
theorem thread_step (hs : step maxThroughput s a = some s') :
    (∀ u, u ≠ a.own.by → s'.thread u = s.thread u) ∧
    ((s'.thread a.own.by).work = (s.thread a.own.by).work ∧
        ((s.thread a.own.by).send = none → (s.thread a.own.by).speaks = true) ∨
      ((s.thread a.own.by).send = none ∧ (s'.thread a.own.by).send = none) ∧
        ∀ b : State τ α, b.calls a.own = none ∧ b.sends a.own = none) := by
  cases a with
  | call t i m =>
    obtain ⟨-, rfl, hw⟩ := call_view hs
    refine ⟨fun u hu => Function.update_of_ne hu _ _, .inl ⟨?_, fun _ => ?_⟩⟩
    · simp [EnsembleAct.own, Act.by, sent]
    · change (s.thread t).speaks = true
      unfold Task.speaks
      rcases hw with hw | ⟨k, pt, m', hw⟩ <;> rw [hw]
  | send t =>
    obtain ⟨i, pc, hi, ⟨-, rfl⟩ | ⟨-, r, -, rfl⟩⟩ := send_view hs
    · refine ⟨fun u hu => Function.update_of_ne hu _ _, .inl ⟨?_, fun hn => ?_⟩⟩
      · simp [EnsembleAct.own, Act.by, sent, setQueue]
      · exact absurd (hi.symm.trans hn) (by simp)
    · refine ⟨fun u hu => Function.update_of_ne hu _ _, .inl ⟨?_, fun hn => ?_⟩⟩
      · simp [EnsembleAct.own, Act.by, sent]
      · exact absurd (hi.symm.trans hn) (by simp)
  | dequeue t =>
    obtain ⟨i, queue, ht, -, rfl⟩ := dequeue_view hs
    refine ⟨fun u hu => Function.update_of_ne hu _ _, .inr ⟨⟨?_, ?_⟩, fun _ => ⟨rfl, rfl⟩⟩⟩
    · change (s.thread t).send = none
      rw [ht]
    · simp [EnsembleAct.own, Act.by, worked, setQueue, ht]
  | work t =>
    obtain ⟨i, pc, r, ht, -, rfl⟩ := work_view hs
    refine ⟨fun u hu => Function.update_of_ne hu _ _, .inr ⟨⟨?_, ?_⟩, fun _ => ⟨rfl, rfl⟩⟩⟩
    · change (s.thread t).send = none
      rw [ht]
    · simp [EnsembleAct.own, Act.by, worked, ht]

omit [DecidableEq ι] [DecidableEq τ] [DecidableEq α] [Fintype τ] in
theorem speaks_congr {b b' : Task ι α} (h : b'.work = b.work) : b'.speaks = b.speaks := by
  unfold Task.speaks
  rw [h]

omit [Fintype τ] in
theorem talks_step (h : s.Talks) (hs : step maxThroughput s a = some s') : s'.Talks := by
  obtain ⟨hothers, hact⟩ := thread_step hs
  intro u hu
  by_cases hut : u = a.own.by
  · subst hut
    rcases hact with ⟨hw, hsp⟩ | ⟨⟨-, hn⟩, -⟩
    · rw [speaks_congr hw]
      by_cases hn : (s.thread a.own.by).send = none
      · exact hsp hn
      · exact h _ hn
    · exact absurd hn hu
  · rw [hothers u hut] at hu ⊢
    exact h u hu

omit [DecidableEq τ] [DecidableEq α] [Fintype τ] in
theorem carried_of_none {t : τ} (h : (s.thread t).send = none) (j : ι) : s.carried t j = [] := by
  simp [carried, view, h, SendPc.carried]

omit [DecidableEq τ] [DecidableEq α] [Fintype τ] in
theorem Talks.of_carried (h : s.Talks) {t : τ} (hc : s.carried t j ≠ []) :
    (s.thread t).speaks = true :=
  h t fun hn => hc (carried_of_none hn j)

/-! ### What a source has sent -/

omit [Fintype τ] in
/-- What was sent to `j` by this source is what was put on the stack of `j`, and then what the
thread that speaks for the source carries. -/
structure Spoken (src : Source ι τ) (j : ι) (tr : List (Ensemble ι τ α × EnsembleAct ι τ α))
    (s : Ensemble ι τ α) : Prop where
  /-- Nobody carries anything. -/
  quiet : (∀ t, s.source t = src → s.carried t j = []) →
    (calledTo j tr).filter (fun p => p.1 = src) = (pushedTo j tr).filter (fun p => p.1 = src)
  /-- A thread carries a message. -/
  carrying : ∀ t, s.source t = src → s.carried t j ≠ [] →
    (calledTo j tr).filter (fun p => p.1 = src) =
      (pushedTo j tr).filter (fun p => p.1 = src) ++ (s.carried t j).map fun m => (src, m)

omit [Fintype τ] in
theorem spoken_init (src : Source ι τ) (j : ι) : Spoken src j [] ({} : Ensemble ι τ α) where
  quiet _ := rfl
  carrying _ _ hc := absurd (carried_of_none rfl j) hc

omit [Fintype τ] in
/-- A step that sends nothing to `j`. -/
theorem Spoken.frame (h : Spoken src j tr s) (hl : calledTo j (tr ++ [(s, a)]) = calledTo j tr)
    (ho : pushedTo j (tr ++ [(s, a)]) = pushedTo j tr)
    (hw : ∀ u, s'.source u = s.source u ∧ s'.carried u j = s.carried u j ∨
      s.carried u j = [] ∧ s'.carried u j = []) :
    Spoken src j (tr ++ [(s, a)]) s' := by
  constructor
  · intro hq
    rw [hl, ho]
    apply h.quiet
    intro u hu
    rcases hw u with ⟨hs, hc⟩ | ⟨hc, -⟩
    · rw [← hc]
      exact hq u (hs.trans hu)
    · exact hc
  · intro u hu hne
    rcases hw u with ⟨hs, hc⟩ | ⟨-, hc⟩
    · rw [hl, ho, hc]
      exact h.carrying u (hs.symm.trans hu) (by rwa [← hc])
    · exact absurd hc hne

omit [DecidableEq α] [Fintype τ] in
theorem filter_named {x : Source ι τ} (o : Option α) :
    (o.map fun m => (x, m)).toList.filter (fun p => p.1 = src) =
      if x = src then o.toList.map fun m => (src, m) else [] := by
  split_ifs with hx
  · subst hx
    cases o <;> simp
  · cases o <;> simp [hx]

omit [Fintype τ] in
/-- A step of the thread `t` inside `enqueue_base` of `j`, called with `l`, that puts `o` on
the stack. -/
theorem Spoken.act (h : Spoken src j tr s) (hd : s.Distinct src) (hT : s.Talks) {t : τ}
    (ht : (s.thread t).speaks = true) {l o : Option α}
    (hl : calledTo j (tr ++ [(s, a)]) = calledTo j tr ++ (l.map fun m => (s.source t, m)).toList)
    (ho : pushedTo j (tr ++ [(s, a)]) = pushedTo j tr ++ (o.map fun m => (s.source t, m)).toList)
    (hcar : s.carried t j ++ l.toList = o.toList ++ s'.carried t j)
    (hsrc : ∀ u, s'.source u = s.source u) (hoth : ∀ u, u ≠ t → s'.carried u j = s.carried u j) :
    Spoken src j (tr ++ [(s, a)]) s' := by
  by_cases hst : s.source t = src
  · -- it speaks for this source, and nobody else does
    have halone : ∀ u, s.source u = src → s.carried u j ≠ [] → u = t := fun u hu hc =>
      hd t u hst hu ht (hT.of_carried hc)
    have hkey : (calledTo j tr).filter (fun p => p.1 = src) =
        (pushedTo j tr).filter (fun p => p.1 = src) ++ (s.carried t j).map fun m => (src, m) := by
      by_cases hc : s.carried t j = []
      · rw [hc, List.map_nil, List.append_nil]
        apply h.quiet
        intro u hu
        by_contra hne
        exact hne (halone u hu hne ▸ hc)
      · exact h.carrying t hst hc
    have hnew : (calledTo j (tr ++ [(s, a)])).filter (fun p => p.1 = src) =
        (pushedTo j (tr ++ [(s, a)])).filter (fun p => p.1 = src) ++
          (s'.carried t j).map fun m => (src, m) := by
      rw [hl, ho, List.filter_append, List.filter_append, filter_named, filter_named, if_pos hst,
        if_pos hst, hkey, List.append_assoc, List.append_assoc, ← List.map_append, ← List.map_append,
        hcar]
    constructor
    · intro hq
      rw [hnew, hq t ((hsrc t).trans hst), List.map_nil, List.append_nil]
    · intro u hu hne
      by_cases hut : u = t
      · subst hut
        exact hnew
      · rw [hoth u hut] at hne
        exact absurd (halone u ((hsrc u).symm.trans hu) hne) hut
  · -- it speaks for another
    have hne : ∀ u, s'.source u = src → u ≠ t := by
      rintro u hu rfl
      exact hst ((hsrc u).symm.trans hu)
    have hl' : (calledTo j (tr ++ [(s, a)])).filter (fun p => p.1 = src) =
        (calledTo j tr).filter (fun p => p.1 = src) := by
      rw [hl, List.filter_append, filter_named, if_neg hst, List.append_nil]
    have ho' : (pushedTo j (tr ++ [(s, a)])).filter (fun p => p.1 = src) =
        (pushedTo j tr).filter (fun p => p.1 = src) := by
      rw [ho, List.filter_append, filter_named, if_neg hst, List.append_nil]
    constructor
    · intro hq
      rw [hl', ho']
      apply h.quiet
      intro u hu
      have hu' := (hsrc u).trans hu
      rw [← hoth u (hne u hu')]
      exact hq u hu'
    · intro u hu hc
      rw [hl', ho', hoth u (hne u hu)]
      rw [hoth u (hne u hu)] at hc
      exact h.carrying u ((hsrc u).symm.trans hu) hc

omit [DecidableEq ι] [DecidableEq τ] [DecidableEq α] [Fintype τ] in
theorem source_congr {t : τ} (h : (s'.thread t).work = (s.thread t).work) :
    s'.source t = s.source t := by
  unfold source
  rw [h]

omit [Fintype τ] in
theorem Spoken.step (h : Spoken src j tr s) (hd : s.Distinct src) (hT : s.Talks)
    (hsend : Sending (history j tr) (s.view j)) (hs : step maxThroughput s a = some s') :
    Spoken src j (tr ++ [(s, a)]) s' := by
  obtain ⟨hothers, hact⟩ := thread_step hs
  cases hp : s.part j a with
  | none =>
    -- it is about another actor
    have hview : s'.view j = s.view j := (projection maxThroughput j).frame hs hp
    have hcar : ∀ u, s'.carried u j = s.carried u j := by
      intro u
      rw [carried, hview, carried]
    apply h.frame
    · rw [calledTo, filterMap_concat, hp]
      exact List.append_nil _
    · rw [pushedTo, filterMap_concat, hp]
      exact List.append_nil _
    · intro u
      by_cases hu : u = a.own.by
      · subst hu
        rcases hact with ⟨hw, -⟩ | ⟨⟨hn, hn'⟩, -⟩
        · exact .inl ⟨source_congr hw, hcar _⟩
        · exact .inr ⟨carried_of_none hn j, carried_of_none hn' j⟩
      · exact .inl ⟨source_congr (by rw [hothers u hu]), hcar u⟩
  | some b =>
    obtain ⟨-, rfl⟩ := part_eq_some.mp hp
    have hstep := (projection maxThroughput j).step hs hp
    rcases hact with ⟨hw, hsp⟩ | ⟨⟨hn, hn'⟩, hno⟩
    · -- a step of `enqueue_base`
      obtain ⟨l, o, hl, ho, hcar, hoth⟩ := carried_step hsend.live hsend.read hstep
      have ht : (s.thread a.own.by).speaks = true := by
        by_cases hn : (s.thread a.own.by).send = none
        · exact hsp hn
        · exact hT _ hn
      refine h.act hd hT ht (l := l) (o := o) ?_ ?_ hcar (fun u => ?_) fun u hu => ?_
      · rw [calledTo, filterMap_concat, hp, Option.bind_some, hl, Option.map_map]
        rfl
      · rw [pushedTo, filterMap_concat, hp, Option.bind_some, ho, Option.map_map]
        rfl
      · by_cases hu : u = a.own.by
        · subst hu
          exact source_congr hw
        · exact source_congr (by rw [hothers u hu])
      · rw [carried, hoth u hu, carried]
    · -- a step of a worker
      obtain ⟨hcall, hpush⟩ := hno (s.view j)
      apply h.frame
      · rw [calledTo, filterMap_concat, hp, Option.bind_some, hcall]
        exact List.append_nil _
      · rw [pushedTo, filterMap_concat, hp, Option.bind_some, hpush]
        exact List.append_nil _
      · intro u
        by_cases hu : u = a.own.by
        · subst hu
          exact .inr ⟨carried_of_none hn j, carried_of_none hn' j⟩
        · refine .inl ⟨source_congr (by rw [hothers u hu]), ?_⟩
          simp only [carried, view, hothers u hu]

theorem spoken_of_run (h : (system ι τ α maxThroughput).Run tr s) (src : Source ι τ) (j : ι)
    (hC : ∀ i, src = .actor i → System.Meets Undisputed (history i tr)) :
    Spoken src j tr s ∧ s.Talks := by
  induction h with
  | init h₀ =>
    cases h₀
    exact ⟨spoken_init src j, fun t ht => absurd rfl ht⟩
  | @step tr s s' a hr hs ih =>
    have hC' : ∀ i, src = .actor i → System.Meets Undisputed (history i tr) := by
      intro i hi p hp
      apply hC i hi
      rw [history, project_concat]
      exact List.mem_append_left _ hp
    obtain ⟨hspoken, hT⟩ := ih hC'
    have hd : s.Distinct src := distinct_of_single fun i hi =>
      single_of_reachableBy ⟨_, history_run hr i, hC' i hi⟩
    exact ⟨hspoken.step hd hT (sending_of_run (history_run hr j)) hs, talks_step hT hs⟩

/-- No job is waiting, and no thread is in a call. -/
def Quiescent (s : Ensemble ι τ α) : Prop := s.queue = [] ∧ ∀ t, s.thread t = {}

instance (s : Ensemble ι τ α) : Decidable s.Quiescent :=
  inferInstanceAs (Decidable (s.queue = [] ∧ ∀ t, s.thread t = {}))

omit [DecidableEq τ] [DecidableEq α] [Fintype τ] in
theorem Quiescent.view (h : s.Quiescent) (j : ι) : (s.view j).Quiescent := by
  constructor
  · change s.queue.count j = 0
    rw [h.1]
    rfl
  · intro t
    simp [Ensemble.view, h.2 t]

/-- **Pairwise order**. Where no two senders find the actor `j` unmarked at once, and no run of
`j` begins with messages in its cache, its handlers receive a first part of what was put on
its stack, and what one source sent is there in the order it was sent: for a thread outside
every `run` without more, and for an actor that is scheduled by one sender at a time, although
its handlers run on any worker. Where besides no message for `j` is left to nobody, all of it
has been received when nothing is under way. -/
theorem pairwise_order (hmax : 0 < maxThroughput) (h : (system ι τ α maxThroughput).Run tr s) (j : ι)
    (hj : System.Meets Orderly (history j tr)) :
    ∃ done waiting, pushedTo j tr = done ++ waiting ∧
      done.map Prod.snd = delivered maxThroughput (history j tr) ∧
      waiting.map Prod.snd = (s.actor j).mailbox.contents ∧
      ∀ src, (∀ i, src = .actor i → System.Meets Undisputed (history i tr)) →
        done.filter (fun p => p.1 = src) <+: (calledTo j tr).filter (fun p => p.1 = src) ∧
        (System.Meets Served (history j tr) → s.Quiescent →
          done.filter (fun p => p.1 = src) = (calledTo j tr).filter (fun p => p.1 = src)) := by
  have hrun := history_run h j
  have hord := (ordered_of_run hmax hrun hj).order
  rw [← messages_pushedTo] at hord
  obtain ⟨done, waiting, hpush, hdone, hwait⟩ := List.map_eq_append_iff.mp hord
  refine ⟨done, waiting, hpush, hdone, hwait, fun src hC => ?_⟩
  obtain ⟨hspoken, -⟩ := spoken_of_run h src j hC
  have hprefix : done.filter (fun p => p.1 = src) <+: (pushedTo j tr).filter fun p => p.1 = src := by
    rw [hpush, List.filter_append]
    exact List.prefix_append _ _
  constructor
  · by_cases hc : ∀ t, s.source t = src → s.carried t j = []
    · rw [hspoken.quiet hc]
      exact hprefix
    · push Not at hc
      obtain ⟨t, ht, hne⟩ := hc
      rw [hspoken.carrying t ht hne]
      exact hprefix.trans (List.prefix_append _ _)
  · intro hserved hq
    have hheld := (watched_of_reachableBy ⟨_, hrun, hserved⟩).held_eq_nil (hq.view j)
    have hnil : waiting = [] := by
      rw [← List.map_eq_nil_iff (f := Prod.snd), hwait]
      exact (List.append_eq_nil_iff.mp hheld).2
    rw [hspoken.quiet fun t _ => carried_of_none (by rw [hq.2 t]) j, hpush, hnil, List.append_nil]

/-- The handlers of one actor send on two workers, the second time while the receiver is running. -/
theorem pairwise_order_two : ∃ (tr : List (Ensemble (Fin 2) (Fin 3) ℕ × EnsembleAct (Fin 2) (Fin 3) ℕ))
    (s : Ensemble (Fin 2) (Fin 3) ℕ) (done : List (Source (Fin 2) (Fin 3) × ℕ)),
    (system (Fin 2) (Fin 3) ℕ 10).Run tr s ∧ s.Quiescent ∧
    done.map Prod.snd = delivered 10 (history 1 tr) ∧
    done.filter (fun p => p.1 = .actor 0) = (calledTo 1 tr).filter (fun p => p.1 = .actor 0) := by
  have hreplay : ((system (Fin 2) (Fin 3) ℕ 10).replay
      (fun s a => decide (∀ i, ∀ b ∈ s.part i a, Orderly (s.view i) b ∧ Served (s.view i) b)) {}
      [[.call 0 0 7], List.replicate 7 (.send 0), [.dequeue 1], List.replicate 3 (.work 1),
        [.call 1 1 8], List.replicate 7 (.send 1), List.replicate 6 (.work 1),
        [.call 0 0 6], List.replicate 7 (.send 0), [.dequeue 1, .dequeue 2],
        List.replicate 3 (.work 2), List.replicate 3 (.work 1),
        [.call 2 1 9], List.replicate 3 (.send 2), List.replicate 10 (.work 1),
        List.replicate 6 (.work 2)].flatten).any (fun s => decide s.Quiescent) = true := by decide +kernel
  obtain ⟨s, hs, hq⟩ := (Option.any_eq_true _ _).mp hreplay
  have hq := of_decide_eq_true hq
  obtain ⟨tr, h, hC⟩ := System.ReachableBy.of_replay
    (C := fun (s : Ensemble (Fin 2) (Fin 3) ℕ) a =>
      ∀ i, ∀ b ∈ s.part i a, Orderly (s.view i) b ∧ Served (s.view i) b)
    (fun _ _ hc => of_decide_eq_true hc) ⟨[], .init rfl, System.meets_nil _⟩ hs
  have horderly : ∀ i, System.Meets Orderly (history i tr) := fun i =>
    meets_project fun p hp b hb => (hC p hp i b hb).1
  have hserved : System.Meets Served (history 1 tr) :=
    meets_project fun p hp b hb => (hC p hp 1 b hb).2
  obtain ⟨done, -, -, hdone, -, hall⟩ := pairwise_order (by decide) h 1 (horderly 1)
  have hundisputed : ∀ i, (Source.actor 0 : Source (Fin 2) (Fin 3)) = .actor i →
      System.Meets Undisputed (history i tr) := fun i _ p hp => (horderly i p hp).1
  exact ⟨tr, s, done, h, hq, hdone, (hall (.actor 0) hundisputed).2 hserved hq⟩

end Speakers

end Ensemble

end ActorsFramework.Scheduling
