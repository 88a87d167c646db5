import ActorsFramework.Actor.EnsembleTermination
import ActorsFramework.Actor.Runtime
import ActorsFramework.Executor.Termination
import Mathlib.Data.Fintype.Sum

/-!
# The end of it all

`stop` waits for the workers, the workers for the actors they run, and these for nobody but
the other threads at their stacks. So the whole runtime comes to an end: without further calls
of `enqueue_base` there are only so many steps left, `Runtime.remaining`, and as long as `stop`
has not returned somebody can take one, unless a worker has stopped at a failed assertion. To
these come the failures of `compare_exchange_weak` for no reason, each a step that changes
nothing.

As in `ActorsFramework.Actor.Runtime`, nobody calls `execute` once the workers are joined: a sender that
has come so far is left out of account, and what is said of the end is said of `stop` and the
workers.

* `remaining_step`, `remaining_call` — what a step takes from the bound, and what a call adds.
* `worker_enabled`, `stop_possible` — who can go on.
* `weakSystem` — the runtime with the exchanges that fail for no reason.
* `runtime_stops` — the whole.
-/

namespace ActorsFramework.Scheduling

open Detail Lib Lib.System
open Actor (CooperativeActor)
open Executor (StopPc)

variable {ι ω υ α : Type*}

/-- The action is a call of `enqueue_base`. -/
def RuntimeAct.isCall : RuntimeAct ι ω υ α → Bool
  | .call _ _ _ => true
  | _ => false

/-- The steps left of a worker with the helper. -/
def HelperPc.due : HelperPc → ℕ
  | .outside | .exited => 0
  | .running => 2
  | .returned => 1

namespace Runtime

variable [DecidableEq ι] [DecidableEq ω] [DecidableEq υ] [DecidableEq α] [Fintype ω]
  {maxThroughput : ℕ} {s s' : Runtime ι ω υ α} {a : RuntimeAct ι ω υ α} {e : Executor.State ω}

section Bound

variable [Fintype ι] [Fintype υ]

/-- The steps left of `stop`, those with the helpers it pushes included. -/
def stopDue (s : Runtime ι ω υ α) : ℕ :=
  match s.stop with
  | .notCalled => 7 * Fintype.card ω + 4
  | stop => stop.remaining s.alive.card

/-- The steps left of the release that the drain is at. -/
def drainDue (maxThroughput : ℕ) (s : Runtime ι ω υ α) : ℕ :=
  s.drained.elim 0 fun p => p.2.due (crowd (ω ⊕ υ)) maxThroughput (s.actor p.1).mailbox

/-- A bound on the steps left, if there is no further call. -/
def remaining (maxThroughput : ℕ) (s : Runtime ι ω υ α) : ℕ :=
  s.base.due maxThroughput + 3 * s.queue.countP Option.isNone + tally HelperPc.due s.helper +
    s.drainDue maxThroughput + s.stopDue

/-! ### The steps of the threads -/

omit [DecidableEq ι] [DecidableEq ω] [DecidableEq υ] [Fintype ι] in
/-- A release costs the same at any mailbox. -/
theorem drainDue_congr (hh : Handed s) (hd : s'.drained = s.drained) :
    s'.drainDue maxThroughput = s.drainDue maxThroughput := by
  unfold drainDue
  rw [hd]
  cases hdr : s.drained with
  | none => rfl
  | some p =>
    obtain ⟨i, pc⟩ := p
    rcases hh.released i pc hdr with rfl | rfl | rfl <;> rfl

/-- A step with an actor changes nothing else. -/
theorem remaining_base (hh : Handed s) {b : EnsembleAct ι (ω ⊕ υ) α} (hb : s.part a = some b)
    (h : s.step maxThroughput a = some s') :
    s'.remaining maxThroughput + s.base.due maxThroughput =
      s.remaining maxThroughput + s'.base.due maxThroughput := by
  have hrest : s'.queue.countP Option.isNone = s.queue.countP Option.isNone ∧ s'.helper = s.helper ∧
      s'.drained = s.drained ∧ s'.stopDue = s.stopDue := by
    cases moves_of_step h with
    | call => exact ⟨rfl, rfl, rfl, rfl⟩
    | send => exact ⟨rfl, rfl, rfl, rfl⟩
    | work => exact ⟨rfl, rfl, rfl, rfl⟩
    | execute => exact ⟨by simp, rfl, rfl, rfl⟩
    | enter _ hq => exact ⟨by simp [hq], rfl, rfl, rfl⟩
    | takeHelper _ hq => simp [part, hq] at hb
    | ack => cases hb
    | exit => cases hb
    | stop => cases hb
  obtain ⟨hq, hhelper, hdrained, hstop⟩ := hrest
  unfold remaining
  rw [hq, hhelper, drainDue_congr hh hdrained, hstop]
  omega

/-- **A call** adds what it costs. -/
theorem remaining_call (hh : Handed s) {t : ω ⊕ υ} {i : ι} {m : α}
    (h : s.step maxThroughput (.call t i m) = some s') :
    s'.remaining maxThroughput ≤ s.remaining maxThroughput + callDue (crowd (ω ⊕ υ)) maxThroughput := by
  have hbase := remaining_base hh rfl h
  have hcall := Ensemble.due_call (base_step h rfl)
  omega

/-! ### The steps of `stop` -/

omit [DecidableEq ι] [DecidableEq ω] [DecidableEq υ] [DecidableEq α] [Fintype ι] [Fintype υ] in
theorem stopDue_of_called (h : s.stop ≠ .notCalled) : s.stopDue = s.stop.remaining s.alive.card := by
  unfold stopDue
  split
  next hst => exact absurd hst h
  next => rfl

omit [DecidableEq υ] [Fintype ι] [Fintype υ] in
/-- What a step of `stop` saves pays for the helper it pushes. -/
theorem stopDue_step (hm : Matches s e) (he : (Executor.system ω).Reachable e) (hd : s.stop ≠ .drain)
    (h : s.stopStep maxThroughput = some s') :
    s'.stopDue + 3 * s'.queue.length + 1 ≤ s.stopDue + 3 * s.queue.length := by
  by_cases hs : s.stop = .notCalled
  · rw [stopStep, hs] at h
    cases h
    simp only [stopDue, hs, StopPc.remaining, Finset.card_univ]
    omega
  · obtain ⟨e', hstep, hm', hlen⟩ := hm.stopStep hd h
    have hlt := Executor.remaining_stopStep (Executor.handshake_of_reachable he)
      (by rw [hm.stop]; exact hs) hstep
    have hworker := Executor.worker_stopStep hstep
    have hcalled : s'.stop ≠ .notCalled := by
      rw [← hm'.stop]
      exact (Executor.moves_of_stopStep hstep).called (by rw [hm.stop]; exact hs)
    rw [stopDue_of_called hs, stopDue_of_called hcalled, ← hm.stop, ← hm'.stop, ← hm.alive, ← hm'.alive]
    simp only [Executor.State.remaining, hworker] at hlt
    omega

omit [DecidableEq ω] [DecidableEq υ] in
/-- A step of the drain: a job is released, in three steps, or it is over. -/
theorem remaining_drainStep (hlive : ∀ i, (s.actor i).mailbox.stack ≠ .closed)
    (hd : s.stop = .drain) (h : s.drainStep maxThroughput = some s') :
    s'.remaining maxThroughput + 1 ≤ s.remaining maxThroughput := by
  unfold drainStep at h
  split at h
  next i pc hdr =>
    obtain ⟨r, hr, rfl⟩ := Option.map_eq_some_iff.mp h
    have hstep := due_workStep (d := crowd (ω ⊕ υ)) (c := s.base.shared i) (hlive i) hr
    have htouch := Ensemble.due_touch maxThroughput (s := s.base) (i := i)
      (c := r.1.toCooperativeActor)
      (m := r.2.due (crowd (ω ⊕ υ)) maxThroughput r.1.mailbox + 1)
      (n := pc.due (crowd (ω ⊕ υ)) maxThroughput (s.base.shared i).mailbox) (by
        change _ + spread (crowd (ω ⊕ υ)) (s.base.shared i).mailbox _ + _ ≤
          weightBy _ 3 (s.base.shared i).mailbox + _
        omega)
    have hdue : s.drainDue maxThroughput =
        pc.due (crowd (ω ⊕ υ)) maxThroughput (s.base.shared i).mailbox := by
      rw [drainDue, hdr]
      rfl
    have hdue' : drainDue maxThroughput
        { s with actor := Function.update s.actor i r.1.toCooperativeActor, drained := placed .idle i r.2 } =
        r.2.due (crowd (ω ⊕ υ)) maxThroughput r.1.mailbox := by
      unfold drainDue placed
      split_ifs with hidle
      · rw [hidle]
        rfl
      · simp
    unfold remaining
    rw [hdue, hdue']
    change Ensemble.due maxThroughput
      { actor := Function.update s.base.actor i r.1.toCooperativeActor
        queue := s.base.queue
        thread := s.base.thread } +
      3 * s.queue.countP Option.isNone + tally HelperPc.due s.helper + _ + s.stopDue + 1 ≤ _
    omega
  next i queue hdr hq =>
    -- the job is exchanged for its release
    cases h
    have hqueue : s.base.queue = i :: queue.reduceOption := by
      rw [base, hq, List.reduceOption_cons_of_some]
    have hbase := Ensemble.due_setQueue maxThroughput s.base queue.reduceOption
    have hdue : s.drainDue maxThroughput = 0 := by
      rw [drainDue, hdr]
      rfl
    rw [hqueue, List.length_cons, Nat.mul_succ] at hbase
    unfold remaining
    rw [hdue, hq]
    change Ensemble.due maxThroughput (s.base.setQueue queue.reduceOption) + _ + _ +
      (crowd (ω ⊕ υ) + 3) + s.stopDue + 1 ≤ _
    simp only [List.countP_cons, Option.isNone_some, jobDue] at hbase ⊢
    omega
  next queue hdr hq =>
    cases h
    unfold remaining
    rw [hq, show s.base = base { s with queue } by simp [base, hq, List.reduceOption_cons_of_none]]
    change _ + _ + _ + s.drainDue maxThroughput + s.stopDue + 1 ≤ _
    simp only [List.countP_cons, Option.isNone_none, if_true]
    omega
  next hdr hq =>
    cases h
    have hdue : s.stopDue = 1 := by
      rw [stopDue, hd]
      rfl
    unfold remaining
    rw [hdue]
    change s.base.due maxThroughput + 3 * s.queue.countP Option.isNone + tally HelperPc.due s.helper +
      s.drainDue maxThroughput + 0 + 1 ≤ _
    omega

/-- **Any other step** takes one from the bound. -/
theorem remaining_step (hm : Matches s e) (he : (Executor.system ω).Reachable e) (hh : Handed s)
    (hsound : s.base.Sound) (ha : a.isCall = false) (h : s.step maxThroughput a = some s') :
    s'.remaining maxThroughput + 1 ≤ s.remaining maxThroughput := by
  cases hb : s.part a with
  | some b =>
    have hbase := remaining_base hh hb h
    have hcall : ∀ t i m, b ≠ .call t i m := by
      rintro t i m rfl
      cases a with
      | call => cases ha
      | send => cases hb
      | dequeue w =>
        simp only [part] at hb
        split_ifs at hb
        cases hb
      | work => cases hb
      | ack => cases hb
      | exit => cases hb
      | stop => cases hb
    have hstep := Ensemble.due_step hsound.live hcall (base_step h hb)
    omega
  | none =>
    cases moves_of_step h with
    | call => cases hb
    | execute => cases hb
    | send => cases hb
    | work => cases hb
    | enter _ hq => simp [part, hq] at hb
    | @takeHelper w queue hw hq =>
      have hbase := base_frame h hb (by simp)
      have htally := tally_update HelperPc.due s.helper w .running
      rw [hw] at htally
      unfold remaining
      rw [hbase, hq]
      change _ + _ + tally HelperPc.due (Function.update s.helper w .running) +
        s.drainDue maxThroughput + s.stopDue + 1 ≤ _
      simp only [List.countP_cons, Option.isNone_none, if_true, HelperPc.due] at htally ⊢
      omega
    | @ack w hw =>
      have htally := tally_update HelperPc.due s.helper w .returned
      rw [hw] at htally
      unfold remaining
      change s.base.due maxThroughput + 3 * s.queue.countP Option.isNone +
        tally HelperPc.due (Function.update s.helper w .returned) +
        s.drainDue maxThroughput + s.stopDue + 1 ≤ _
      simp only [HelperPc.due] at htally
      omega
    | @exit w hw =>
      have htally := tally_update HelperPc.due s.helper w .exited
      rw [hw] at htally
      unfold remaining
      change s.base.due maxThroughput + 3 * s.queue.countP Option.isNone +
        tally HelperPc.due (Function.update s.helper w .exited) +
        s.drainDue maxThroughput + s.stopDue + 1 ≤ _
      simp only [HelperPc.due] at htally
      omega
    | stop hs =>
      by_cases hd : s.stop = .drain
      · refine remaining_drainStep hsound.live hd ?_
        rw [← hs, stopStep, hd]
      · have hbase := base_stopStep hd hs
        have hstop := stopDue_step hm he hd hs
        obtain ⟨-, queue, stop, alive, lastWorker, hq, rfl⟩ := stopStep_cases hd hs
        unfold remaining
        rw [hbase]
        change _ + 3 * queue.countP Option.isNone + _ + s.drainDue maxThroughput + _ + 1 ≤ _
        rcases hq with rfl | rfl
        · dsimp only at hstop ⊢
          omega
        · simp only [List.length_append, List.length_singleton] at hstop
          simp only [List.countP_append, List.countP_singleton, Option.isNone_none, if_true]
          omega

end Bound

/-! ### Who can go on -/

omit [DecidableEq ω] [DecidableEq υ] [Fintype ω] in
/-- The drain releases what it pops; it closes no mailbox. -/
theorem sound_drainStep (hs : s.base.Sound) (h : s.drainStep maxThroughput = some s') :
    s'.base.Sound := by
  unfold drainStep at h
  split at h
  next i pc _ =>
    obtain ⟨r, hr, rfl⟩ := Option.map_eq_some_iff.mp h
    exact ⟨Ensemble.live_update (s := s.base) hs.live (live_workStep (hs.live i) hr), hs.send, hs.work⟩
  next => cases h; exact ⟨hs.live, hs.send, hs.work⟩
  next => cases h; exact ⟨hs.live, hs.send, hs.work⟩
  next => cases h; exact hs

theorem sound_step (hs : s.base.Sound) (h : s.step maxThroughput a = some s') : s'.base.Sound := by
  cases hb : s.part a with
  | some b => exact hs.step (base_step h hb)
  | none =>
    by_cases ha : a = .stop
    · subst ha
      by_cases hd : s.stop = .drain
      · have hdrain : s.drainStep maxThroughput = some s' := by
          rw [← h, step, stopStep, hd]
        exact sound_drainStep hs hdrain
      · rw [base_stopStep hd h]
        exact hs
    · rw [base_frame h hb ha]
      exact hs

theorem sound_of_reachable (h : (system ι ω υ α maxThroughput).Reachable s) : s.base.Sound := by
  refine System.Reachable.invariant (I := fun s => s.base.Sound) ?_ ?_ h
  · rintro _ rfl
    refine ⟨?_, ?_, ?_⟩
    · intro i
      simp [base]
    · intro t i
      simp [base]
    · intro t i
      simp [base]
  · intro s a s' hs hstep
    exact sound_step hs hstep

/-- A thread in a call can go on, as long as the workers are there. -/
theorem send_enabled (maxThroughput : ℕ) (hs : s.base.Sound) {t : ω ⊕ υ} (ht : (s.thread t).send ≠ none)
    (hj : s.stop.joined = false) : ∃ s', s.step maxThroughput (.send t) = some s' := by
  obtain ⟨b, hb⟩ := hs.send_enabled maxThroughput (t := t) ht
  simp only [step]
  split
  next i hi => exact ⟨_, by rw [if_neg (by rw [hj]; simp), hb]; rfl⟩
  next => exact ⟨_, by rw [hb]; rfl⟩

/-- A worker that has not ended can go on, unless an assertion has failed; when it waits, there
has to be something in the queue. -/
theorem worker_enabled (maxThroughput : ℕ) (hm : Matches s e) (hs : s.base.Sound)
    (hf : ∀ w i f, (s.thread (.inl w)).work ≠ some (i, .failed f)) {w : ω} (hw : e.worker w ≠ .exited)
    (hq : e.worker w = .dequeue → e.queue ≠ []) :
    ∃ a s', RuntimeAct.isCall a = false ∧ s.step maxThroughput a = some s' := by
  have hx : s.helper w ≠ .exited := by
    intro hx
    exact hw (hm.exited hx)
  have hj : s.stop.joined = false := by
    by_contra hj
    exact hx (hm.joined (by simpa using hj) w)
  by_cases hsend : (s.thread (.inl w)).send = none
  swap
  · obtain ⟨s', h⟩ := send_enabled maxThroughput hs hsend hj
    exact ⟨_, s', rfl, h⟩
  have hholds := hm.worker w
  cases hwork : (s.thread (.inl w)).work with
  | some p =>
    obtain ⟨i, pc⟩ := p
    have ht : s.base.thread (.inl w) = ⟨none, some (i, pc)⟩ := by
      change s.thread (.inl w) = _
      rw [← hsend, ← hwork]
    obtain ⟨b, hb⟩ := hs.work_enabled maxThroughput ht fun f hpc => hf w i f (by rw [hwork, hpc])
    exact ⟨.work w, _, rfl, by rw [step, hb]; rfl⟩
  | none =>
    cases hh : s.helper w with
    | exited => exact absurd hh hx
    | running => exact ⟨.ack w, _, rfl, by rw [step, hh]⟩
    | returned => exact ⟨.exit w, _, rfl, by rw [step, hh]⟩
    | outside =>
      -- it waits, and takes the first entry
      have hne : s.queue ≠ [] := by
        obtain ⟨popped, hforall, hp⟩ := hm.queue
        intro hnil
        have hd : s.stop ≠ .drain := by
          intro hd
          rw [hd] at hj
          cases hj
        rw [hp hd, hnil] at hforall
        exact hq (hm.dequeue hwork hh) (List.forall₂_nil_left_iff.mp hforall)
      obtain ⟨x, queue, hcons⟩ := List.exists_cons_of_ne_nil hne
      have ht : s.base.thread (.inl w) = ⟨none, none⟩ := by
        change s.thread (.inl w) = _
        rw [← hsend, ← hwork]
      cases x with
      | none =>
        have hstep : s.step maxThroughput (.dequeue w) =
            some { s with queue, helper := Function.update s.helper w .running } := by
          rw [step, hh, hcons]
          exact if_pos (by rw [hsend, hwork]; simp)
        exact ⟨.dequeue w, _, rfl, hstep⟩
      | some i =>
        have hqueue : s.base.queue = i :: queue.reduceOption := by
          rw [base, hcons, List.reduceOption_cons_of_some]
        obtain ⟨b, hb⟩ : ∃ b, s.base.step maxThroughput (.dequeue (.inl w)) = some b :=
          ⟨_, by simp only [Ensemble.step, ht, hqueue]; rfl⟩
        exact ⟨.dequeue w, _, rfl, by rw [step, hh, hcons, hb]; rfl⟩

omit [DecidableEq υ] in
/-- `stop` can go on where it can in the executor. -/
theorem stop_possible (maxThroughput : ℕ) (hm : Matches s e) (hd : s.stop ≠ .drain)
    {e' : Executor.State ω} (h : Executor.stopStep e = some e') : ∃ s', s.stopStep maxThroughput = some s' := by
  have hst := hm.stop
  unfold stopStep
  cases hs : s.stop with
  | notCalled => exact ⟨_, rfl⟩
  | head =>
    by_cases ha : s.alive = ∅
    · exact ⟨_, if_pos ha⟩
    · exact ⟨_, if_neg ha⟩
  | wait =>
    simp only [Executor.stopStep, hst, hs] at h
    split_ifs at h with hl
    exact ⟨_, if_pos (by rw [← hm.lastWorker]; exact hl)⟩
  | erase => exact ⟨_, rfl⟩
  | reset => exact ⟨_, rfl⟩
  | join =>
    simp only [Executor.stopStep, hst, hs] at h
    split_ifs at h with hx
    refine ⟨_, if_pos fun w => ?_⟩
    have hholds := hm.worker w
    rw [hx w] at hholds
    generalize (s.thread (.inl w)).work = work at hholds
    generalize s.helper w = pc at hholds
    cases hholds
    rfl
  | drain => exact absurd hs hd
  | returned =>
    rw [Executor.stopStep, hst, hs] at h
    cases h

omit [DecidableEq ω] [DecidableEq υ] [Fintype ω] in
/-- The drain can go on. -/
theorem drain_enabled (maxThroughput : ℕ) (hh : Handed s) :
    ∃ s', s.drainStep maxThroughput = some s' := by
  unfold drainStep
  cases hdr : s.drained with
  | some p =>
    obtain ⟨i, pc⟩ := p
    rcases hh.released i pc hdr with rfl | rfl | rfl <;> exact ⟨_, rfl⟩
  | none =>
    cases hq : s.queue with
    | nil => exact ⟨_, rfl⟩
    | cons x queue => cases x <;> exact ⟨_, rfl⟩

/-- `stop` has returned, or a worker has stopped at a failed assertion. -/
def Over (s : Runtime ι ω υ α) : Prop :=
  s.stop = .returned ∨ ∃ w i f, (s.thread (.inl w)).work = some (i, .failed f)

/-- **Until it is over, somebody can take a step** that is not a call. -/
theorem enabled (maxThroughput : ℕ) (hm : Matches s e) (he : (Executor.system ω).Reachable e)
    (hh : Handed s) (hs : s.base.Sound) (ho : ¬ s.Over) :
    ∃ a s', RuntimeAct.isCall a = false ∧ s.step maxThroughput a = some s' := by
  unfold Over at ho
  push Not at ho
  obtain ⟨hret, hf⟩ := ho
  by_cases hd : s.stop = .drain
  · obtain ⟨s', h⟩ := drain_enabled maxThroughput hh
    exact ⟨.stop, s', rfl, by rw [step, stopStep, hd]; exact h⟩
  by_cases hn : s.stop = .notCalled
  · exact ⟨.stop, _, rfl, by rw [step, stopStep, hn]⟩
  rcases Executor.stop_or_worker (Executor.handshake_of_reachable he) (by rw [hm.stop]; exact hn)
    (by rw [hm.stop]; exact hret) with ⟨e', h⟩ | ⟨w, hw, hq⟩
  · obtain ⟨s', h'⟩ := stop_possible maxThroughput hm hd h
    exact ⟨.stop, s', rfl, h'⟩
  · exact worker_enabled maxThroughput hm hs hf hw hq

/-! ### Runs -/

/-- The worker is at a `compare_exchange_weak` that may fail for no reason. -/
def mayFail (s : Runtime ι ω υ α) (w : ω) : Bool :=
  (s.thread (.inl w)).work.elim false fun p => p.2.mayFail (s.actor p.1).mailbox

/-- The whole, where an exchange of a worker may also fail for no reason: it has read again what
it had read before, and nothing else has changed. -/
def weakSystem (ι ω υ α : Type*) [DecidableEq ι] [DecidableEq ω] [DecidableEq υ] [DecidableEq α]
    [Fintype ω] (maxThroughput : ℕ) : System (Runtime ι ω υ α) (RuntimeAct ι ω υ α ⊕ ω) :=
  (system ι ω υ α maxThroughput).stutter mayFail

section Runs

variable [Fintype ι] [Fintype υ]

/-- The calls. -/
def calls (_ : Runtime ι ω υ α) (a : RuntimeAct ι ω υ α) : ℕ := a.isCall.toNat

/-- The other steps. -/
def others (_ : Runtime ι ω υ α) (a : RuntimeAct ι ω υ α) : ℕ := (!a.isCall).toNat

/-- What a step costs, and what it brings. -/
theorem remaining_amortised (h : (system ι ω υ α maxThroughput).Reachable s)
    (hs : s.step maxThroughput a = some s') :
    s'.remaining maxThroughput + others s a ≤
      s.remaining maxThroughput + callDue (crowd (ω ⊕ υ)) maxThroughput * calls s a := by
  obtain ⟨tr, hr⟩ := h
  obtain ⟨⟨e, he, hm⟩, hh⟩ := matches_of_run hr
  cases ha : a.isCall with
  | true =>
    cases a with
    | call t i m =>
      have hle := remaining_call hh hs
      simp only [others, calls, ha, Bool.not_true, Bool.toNat_false, Bool.toNat_true]
      omega
    | send => cases ha
    | dequeue => cases ha
    | work => cases ha
    | ack => cases ha
    | exit => cases ha
    | stop => cases ha
  | false =>
    have hle := remaining_step hm he hh (sound_of_reachable ⟨tr, hr⟩) ha hs
    simp only [others, calls, ha, Bool.not_false, Bool.toNat_false, Bool.toNat_true]
    omega

/-- The steps that are no calls lead to the end. -/
theorem progress (maxThroughput : ℕ) : Progress (system ι ω υ α maxThroughput) (fun _ a => !a.isCall)
    (system ι ω υ α maxThroughput).Reachable (remaining maxThroughput) Over where
  keep := by
    rintro s a s' ⟨tr, hr⟩ - hs
    exact ⟨_, hr.step hs⟩
  lower := by
    intro s a s' h hc hs
    have hle := remaining_amortised h hs
    have ha : a.isCall = false := by simpa using hc
    simp only [others, calls, ha, Bool.not_false, Bool.toNat_false, Bool.toNat_true] at hle
    omega
  enabled := by
    rintro s ⟨tr, hr⟩ ho
    obtain ⟨⟨e, he, hm⟩, hh⟩ := matches_of_run hr
    obtain ⟨a, s', ha, h⟩ := enabled maxThroughput hm he hh (sound_of_reachable ⟨tr, hr⟩) ho
    exact ⟨a, s', by rw [ha]; rfl, h⟩

/-- The bound holds over any stretch of a run. -/
theorem others_amortised (h : (system ι ω υ α maxThroughput).Reachable s)
    {tr : List (Runtime ι ω υ α × RuntimeAct ι ω υ α)}
    (hp : (system ι ω υ α maxThroughput).Path s tr s') :
    total others tr + s'.remaining maxThroughput ≤
      s.remaining maxThroughput + callDue (crowd (ω ⊕ υ)) maxThroughput * total calls tr := by
  have hle := Path.amortised_reachable (p := remaining maxThroughput) others
    (fun s a => callDue (crowd (ω ⊕ υ)) maxThroughput * calls s a)
    (fun _ _ _ hr hs => remaining_amortised hr hs) h hp
  rwa [total_mul, Nat.add_comm (s'.remaining maxThroughput)] at hle

/-- **Everything comes to an end**. From any state that a run reaches, and however the steps of the
senders, the workers and `stop` fall from there, with nobody at `execute` after the workers are
joined: those that are no calls of `enqueue_base` are no more than `remaining`, `callDue` for each
call, and one for each `compare_exchange_weak` that fails for no reason; where none of them is
possible any more `stop` has returned or a worker has stopped at a failed assertion; and without
further calls that is always reached. -/
theorem runtime_stops (h : (system ι ω υ α maxThroughput).Reachable s)
    {tr : List (Runtime ι ω υ α × (RuntimeAct ι ω υ α ⊕ ω))}
    (hp : (weakSystem ι ω υ α maxThroughput).Path s tr s') :
    total (withStutters others) tr + s'.remaining maxThroughput ≤
      s.remaining maxThroughput + callDue (crowd (ω ⊕ υ)) maxThroughput * total (proper calls) tr +
        total stutters tr ∧
    ((∀ a, RuntimeAct.isCall a = false →
      (weakSystem ι ω υ α maxThroughput).step s' (.inl a) = none) → s'.Over) ∧
    ∃ as s'', (system ι ω υ α maxThroughput).replay (fun _ a => !a.isCall) s' as = some s'' ∧
      s''.Over := by
  obtain ⟨tr', hp', htotal⟩ := Path.of_stutter hp
  have hreach := hp'.reachable h
  refine ⟨?_, ?_, (progress maxThroughput).reaches hreach⟩
  · have hle := others_amortised h hp'
    rw [total_withStutters, ← htotal others, ← htotal calls]
    omega
  · intro hstuck
    by_contra ho
    obtain ⟨a, s'', hc, hs⟩ := (progress maxThroughput).enabled hreach ho
    have hnone := hstuck a (by simpa using hc)
    rw [show (weakSystem ι ω υ α maxThroughput).step s' (.inl a) = some s'' from hs] at hnone
    cases hnone

/-- A worker runs an actor, its exchange has failed once for no reason, another actor is in the job
queue, and `stop` waits. -/
theorem runtime_stops_busy :
    ∃ (tr : List (Runtime (Fin 2) (Fin 1) (Fin 1) ℕ × (RuntimeAct (Fin 2) (Fin 1) (Fin 1) ℕ ⊕ Fin 1)))
      (s : Runtime (Fin 2) (Fin 1) (Fin 1) ℕ), (weakSystem (Fin 2) (Fin 1) (Fin 1) ℕ 10).Path {} tr s ∧
    (s.thread (.inl 0)).running = some 0 ∧ s.queue = [some 1, none] ∧ s.stop = .wait ∧
    total (withStutters others) tr + s.remaining 10 ≤
      remaining 10 ({} : Runtime (Fin 2) (Fin 1) (Fin 1) ℕ) +
        callDue (crowd (Fin 1 ⊕ Fin 1)) 10 * total (proper calls) tr + total stutters tr ∧
    ∃ as s', (system (Fin 2) (Fin 1) (Fin 1) ℕ 10).replay (fun _ a => !a.isCall) s as = some s' ∧
      s'.Over := by
  have hreplay : ((weakSystem (Fin 2) (Fin 1) (Fin 1) ℕ 10).replay (fun _ _ => true) {}
      [[.inl (.call (.inr 0) 0 7)], List.replicate 7 (.inl (.send (.inr 0))),
        [.inl (.dequeue 0), .inl (.work 0), .inr 0, .inl (.call (.inr 0) 1 8)],
        List.replicate 7 (.inl (.send (.inr 0))), [.inl .stop, .inl .stop]].flatten).any
      (fun s => decide ((s.thread (.inl 0)).running = some 0 ∧ s.queue = [some 1, none] ∧
        s.stop = .wait)) = true := by
    decide +kernel
  obtain ⟨s, hs, hend⟩ := (Option.any_eq_true _ _).mp hreplay
  obtain ⟨hrunning, hqueue, hstop⟩ := of_decide_eq_true hend
  have hp := path_of_replay hs
  obtain ⟨hle, -, hover⟩ := runtime_stops ⟨[], .init rfl⟩ hp
  exact ⟨_, s, hp, hrunning, hqueue, hstop, hle, hover⟩

end Runs

end Runtime

end ActorsFramework.Scheduling
