import ActorsFramework.Actor.Ensemble
import ActorsFramework.Actor.RunTermination

/-!
# How much the threads may do

A handler sends, what it sends may schedule an actor, and the run of that actor disturbs
whoever is at the same stack. All the same, without further calls of `enqueue_base` the threads
come to an end: `Ensemble.due` bounds the steps that are left.

* `due_workStep`, `due_sendStep` — what a step saves its own thread pays for the step, for
  the element or the job that is passed on, and for those it disturbs.
* `Task.due_le` — a thread at a stack that somebody else has changed loses three steps at most.
* `Ensemble.due_step`, `Ensemble.due_call` — so the sum falls with every step, and grows with
  a call by no more than the call costs.
-/

namespace ActorsFramework.Scheduling

open Detail Lib
open Actor (CooperativeActor)

variable {ι τ α : Type*} [DecidableEq α]

/-- A change of the stack, where it costs `k`. -/
def spread (k : ℕ) (q q' : Mailbox α) : ℕ := if q'.stack = q.stack then 0 else k

/-- The steps that an entry of the job queue leads to, with what they cost others. -/
def jobDue (d maxThroughput : ℕ) : ℕ := 2 * maxThroughput + 2 * d + 7

/-- The steps that a call of `enqueue_base` leads to. -/
def callDue (d maxThroughput : ℕ) : ℕ := 3 * d + jobDue d maxThroughput + 10

/-- The steps left in `enqueue_base`. -/
def SendPc.due (d maxThroughput : ℕ) (q : Mailbox α) : SendPc α → ℕ
  | .idle => 0
  | .load _ => callDue d maxThroughput
  | .exchange _ e => 3 * d + jobDue d maxThroughput + if q.stack.top = e then 9 else 10
  | .flags => d + jobDue d maxThroughput + 5
  | .busy => d + jobDue d maxThroughput + 4
  | .block => d + jobDue d maxThroughput + 3
  | .ref => jobDue d maxThroughput + 2
  | .execute => jobDue d maxThroughput + 1

/-- The steps left of `run` and of the release. -/
def WorkPc.due (d maxThroughput : ℕ) (q : Mailbox α) : WorkPc α → ℕ
  | .idle | .failed _ => 0
  | .store => d + 3
  | .unblock => d + 2
  | .deref => 1
  | pc => pc.left maxThroughput q + (2 * d + 3)

section Steps

variable {d maxThroughput k : ℕ} {q q' : Mailbox α}

theorem spread_of_eq (h : q'.stack = q.stack) : spread k q q' = 0 := if_pos h

theorem spread_le (k : ℕ) (q q' : Mailbox α) : spread k q q' ≤ k := by
  unfold spread
  split_ifs
  · exact Nat.zero_le k
  · exact le_rfl

theorem spread_mono {k l : ℕ} (h : k ≤ l) (q q' : Mailbox α) : spread k q q' ≤ spread l q q' := by
  unfold spread
  split_ifs
  · exact le_rfl
  · exact h

/-- Inside `run`. -/
theorem due_of_inRun {pc : WorkPc α} (hin : pc.inRun = true) (hf : ∀ f, pc ≠ .failed f) :
    pc.due d maxThroughput q = pc.left maxThroughput q + (2 * d + 3) := by
  cases pc with
  | idle => cases hin
  | store => cases hin
  | unblock => cases hin
  | deref => cases hin
  | failed f => exact absurd rfl (hf f)
  | _ => rfl

theorem due_le_left (d maxThroughput : ℕ) (q : Mailbox α) (pc : WorkPc α) (hpc : pc.inRun = true) :
    pc.due d maxThroughput q ≤ pc.left maxThroughput q + (2 * d + 3) := by
  cases pc with
  | idle => cases hpc
  | store => cases hpc
  | unblock => cases hpc
  | deref => cases hpc
  | failed f => exact Nat.zero_le _
  | _ => exact le_rfl

/-- A worker that enters `run`. -/
theorem due_cacheHead (d maxThroughput : ℕ) (q q' : Mailbox α) :
    (cacheHead maxThroughput q' 0 none).due d maxThroughput q + 1 ≤ jobDue d maxThroughput := by
  have hleft := left_start maxThroughput q q'
  have hdue := due_le_left d maxThroughput q (cacheHead maxThroughput q' 0 none)
    (inRun_of_reading (reading_cacheHead q' 0 none).1)
  unfold jobDue
  omega

theorem spread_of_not_over {r : Mailbox α × WorkPc α} (h : r.2.over = false) :
    spread d q r.1 = disturbs d q r := by
  unfold spread disturbs
  simp [h]

/-- **A step of a worker** pays for itself, and for those it disturbs. -/
theorem due_workStep {c : Shared α} {pc : WorkPc α} {r : Shared α × WorkPc α}
    (hlive : c.mailbox.stack ≠ .closed) (h : workStep maxThroughput c pc = some r) :
    r.2.due d maxThroughput r.1.mailbox + weightBy (d + 3) 3 r.1.mailbox +
        spread d c.mailbox r.1.mailbox + 1 ≤
      pc.due d maxThroughput c.mailbox + weightBy (d + 3) 3 c.mailbox := by
  unfold workStep at h
  split at h
  next =>
    cases h
    rw [spread_of_eq (by rfl)]
    simp only [WorkPc.due]
    omega
  next =>
    cases h
    have hle := spread_le d c.mailbox c.mailbox.tryUnblock.1
    rw [weight_congr c.mailbox.elems_tryUnblock c.mailbox.head_tryUnblock c.mailbox.cache_tryUnblock]
    simp only [WorkPc.due]
    omega
  next =>
    cases h
    rw [spread_of_eq (by rfl)]
    simp only [WorkPc.due]
    omega
  next =>
    obtain ⟨⟨q', pc'⟩, hr, rfl⟩ := Option.map_eq_some_iff.mp h
    have hm := runMoves_of_runStep hr
    have hleft := left_runStep (d := d) le_rfl (Nat.le_add_left 3 d) (by decide) (.inl hlive)
      (fun _ _ _ => .inr le_rfl) hr
    have hdue : pc.due d maxThroughput c.mailbox = pc.left maxThroughput c.mailbox + (2 * d + 3) := by
      refine due_of_inRun hm.inRun ?_
      intro f hf
      rw [hf] at hr
      cases hr
    cases ho : pc'.over with
    | true =>
      -- the run is over: what is kept for its end pays for the others
      have hend : pc'.due d maxThroughput q' ≤ d + 3 := by
        cases pc' with
        | store => exact le_rfl
        | failed f => exact Nat.zero_le _
        | _ => cases ho
      have hle := spread_le d c.mailbox q'
      dsimp only at hleft ⊢
      omega
    | false =>
      have hin : pc'.inRun = true := by
        rcases hm.stays with hin | rfl
        · exact hin
        · cases ho
      have hend := due_le_left d maxThroughput q' pc' hin
      have hspread : spread d c.mailbox q' = _ := spread_of_not_over (r := (q', pc')) ho
      dsimp only at hleft ⊢
      omega

/-- **A step of a sender** pays for itself, for the element it puts on the stack, and for those
it disturbs. -/
theorem due_sendStep (d maxThroughput : ℕ) {c : Shared α} {pc : SendPc α} {r : Shared α × SendPc α}
    (hpc : pc ≠ .execute) (h : sendStep c pc = some r) :
    r.2.due d maxThroughput r.1.mailbox + weightBy (d + 3) 3 r.1.mailbox +
        spread d c.mailbox r.1.mailbox + 1 ≤
      pc.due d maxThroughput c.mailbox + weightBy (d + 3) 3 c.mailbox := by
  cases pc with
  | idle => cases h
  | load m =>
    cases h
    rw [spread_of_eq (by rfl)]
    simp only [SendPc.due, callDue, if_true]
    omega
  | exchange m e =>
    simp only [sendStep] at h
    split_ifs at h with hn he
    · cases h
      rw [spread_of_eq (by rfl)]
      simp only [SendPc.due]
      split_ifs <;> omega
    · cases h
      have hle := spread_le d c.mailbox (c.mailbox.enqueue m).1
      have hw := weight_enqueue (x := d + 3) (y := 3) c.mailbox m
      simp only [SendPc.due, if_pos he]
      omega
    · cases h
      rw [spread_of_eq (by rfl)]
      simp only [SendPc.due, if_neg he, if_true]
      omega
  | flags =>
    simp only [sendStep] at h
    split_ifs at h
    · cases h
      rw [spread_of_eq (by rfl)]
      simp only [SendPc.due]
      omega
    · cases h
      rw [spread_of_eq (by rfl)]
      simp only [SendPc.due]
      omega
  | busy =>
    cases h
    rw [spread_of_eq (by rfl)]
    simp only [SendPc.due]
    omega
  | block =>
    cases h
    obtain ⟨he, hh, hc⟩ := keeps_tryBlock c.mailbox
    have hle := spread_le d c.mailbox c.mailbox.tryBlock.1
    rw [weight_congr he hh hc]
    simp only [SendPc.due]
    omega
  | ref =>
    cases h
    rw [spread_of_eq (by rfl)]
    simp only [SendPc.due]
    omega
  | execute => exact absurd rfl hpc

/-! ### The mailbox stays open -/

theorem live_sendStep {c : Shared α} {pc : SendPc α} {r : Shared α × SendPc α}
    (hlive : c.mailbox.stack ≠ .closed) (h : sendStep c pc = some r) : r.1.mailbox.stack ≠ .closed := by
  cases pc with
  | exchange m e =>
    simp only [sendStep] at h
    split_ifs at h <;> cases h
    · exact hlive
    · exact (Mailbox.open_enqueue hlive m).ne_closed
    · exact hlive
  | flags =>
    simp only [sendStep] at h
    split_ifs at h <;> cases h <;> exact hlive
  | block =>
    cases h
    exact (tryBlock_frame hlive).2.2.2
  | idle => cases h
  | _ =>
    cases h
    exact hlive

theorem live_workStep {c : Shared α} {pc : WorkPc α} {r : Shared α × WorkPc α}
    (hlive : c.mailbox.stack ≠ .closed) (h : workStep maxThroughput c pc = some r) :
    r.1.mailbox.stack ≠ .closed := by
  unfold workStep at h
  split at h
  next => cases h; exact hlive
  next => cases h; exact (Mailbox.open_tryUnblock hlive).ne_closed
  next => cases h; exact hlive
  next =>
    obtain ⟨r', hr, rfl⟩ := Option.map_eq_some_iff.mp h
    exact (runMoves_of_runStep hr).ne_closed hlive

/-! ### Those who are disturbed -/

theorem SendPc.due_le (pc : SendPc α) (q q' : Mailbox α) :
    pc.due d maxThroughput q' ≤ pc.due d maxThroughput q + spread 1 q q' := by
  by_cases h : q'.stack = q.stack
  · cases pc <;> simp only [SendPc.due, h] <;> exact Nat.le_add_right _ _
  · rw [spread, if_neg h]
    cases pc with
    | exchange m e =>
      simp only [SendPc.due]
      split_ifs <;> omega
    | _ => exact Nat.le_add_right _ _

theorem WorkPc.due_le (pc : WorkPc α) (q q' : Mailbox α) :
    pc.due d maxThroughput q' ≤ pc.due d maxThroughput q + spread 2 q q' := by
  have hleft : pc.left maxThroughput q' ≤ pc.left maxThroughput q + spread 2 q q' := by
    unfold spread
    split_ifs with h
    · exact (left_congr h pc).le
    · exact left_le maxThroughput q q' pc
  cases pc with
  | idle | failed | store | unblock | deref => exact Nat.le_add_right _ _
  | _ =>
    simp only [WorkPc.due]
    omega

end Steps

/-! ### All of them -/

section Tasks

variable (d maxThroughput : ℕ) (box : ι → Mailbox α)

/-- The steps left in the call that a thread is in. -/
def Task.sendDue (b : Task ι α) : ℕ := b.send.elim 0 fun p => p.2.due d maxThroughput (box p.1)

/-- The steps left with the actor that a worker has. -/
def Task.workDue (b : Task ι α) : ℕ := b.work.elim 0 fun p => p.2.due d maxThroughput (box p.1)

/-- The steps left of a thread. -/
def Task.due (b : Task ι α) : ℕ := b.sendDue d maxThroughput box + b.workDue d maxThroughput box

variable {d maxThroughput box} [DecidableEq ι]

variable (d maxThroughput box) in
theorem Task.sendDue_le (b : Task ι α) (i : ι) (q : Mailbox α) :
    b.sendDue d maxThroughput (Function.update box i q) ≤
      b.sendDue d maxThroughput box + spread 1 (box i) q := by
  unfold Task.sendDue
  cases b.send with
  | none => exact Nat.zero_le _
  | some p =>
    obtain ⟨j, pc⟩ := p
    by_cases hj : j = i
    · subst hj
      simpa using pc.due_le (box j) q
    · simp [hj]

variable (d maxThroughput box) in
theorem Task.workDue_le (b : Task ι α) (i : ι) (q : Mailbox α) :
    b.workDue d maxThroughput (Function.update box i q) ≤
      b.workDue d maxThroughput box + spread 2 (box i) q := by
  unfold Task.workDue
  cases b.work with
  | none => exact Nat.zero_le _
  | some p =>
    obtain ⟨j, pc⟩ := p
    by_cases hj : j = i
    · subst hj
      simpa using pc.due_le (box j) q
    · simp [hj]

/-- **A thread at a stack that changes** loses three steps at most. -/
theorem Task.due_le (b : Task ι α) (i : ι) (q : Mailbox α) :
    b.due d maxThroughput (Function.update box i q) ≤ b.due d maxThroughput box + spread 3 (box i) q := by
  calc b.due d maxThroughput (Function.update box i q)
      ≤ b.sendDue d maxThroughput box + spread 1 (box i) q +
          (b.workDue d maxThroughput box + spread 2 (box i) q) := 
          Nat.add_le_add (b.sendDue_le d maxThroughput box i q) (b.workDue_le d maxThroughput box i q)
    _ = b.due d maxThroughput box + spread 3 (box i) q := by
        unfold Task.due spread
        split_ifs <;> omega

omit [DecidableEq ι] in
theorem Task.sendDue_placed (d maxThroughput : ℕ) (box : ι → Mailbox α) (b : Task ι α) (i : ι)
    (pc : SendPc α) :
    Task.sendDue d maxThroughput box { b with send := placed .idle i pc } =
      pc.due d maxThroughput (box i) := by
  unfold placed
  split_ifs with h
  · rw [h]
    rfl
  · rfl

omit [DecidableEq ι] in
theorem Task.workDue_placed (d maxThroughput : ℕ) (box : ι → Mailbox α) (b : Task ι α) (i : ι)
    (pc : WorkPc α) :
    Task.workDue d maxThroughput box { b with work := placed .idle i pc } =
      pc.due d maxThroughput (box i) := by
  unfold placed
  split_ifs with h
  · rw [h]
    rfl
  · rfl

end Tasks

/-- What a change of a stack may cost all the threads. -/
def crowd (τ : Type*) [Fintype τ] : ℕ := Fintype.card τ * 3

theorem card_mul_spread (τ : Type*) [Fintype τ] (q q' : Mailbox α) :
    Fintype.card τ * spread 3 q q' = spread (crowd τ) q q' := by
  unfold spread
  split_ifs
  · exact Nat.mul_zero _
  · rfl

namespace Ensemble

variable [DecidableEq ι] [DecidableEq τ] [Fintype ι] [Fintype τ] {maxThroughput : ℕ}
  {s s' : Ensemble ι τ α} {a : EnsembleAct ι τ α}

/-- The mailboxes. -/
def box (s : Ensemble ι τ α) (i : ι) : Mailbox α := (s.actor i).mailbox

/-- A bound on the steps left, if there is no further call. -/
def due (maxThroughput : ℕ) (s : Ensemble ι τ α) : ℕ :=
  tally (fun c : CooperativeActor α => weightBy (crowd τ + 3) 3 c.mailbox) s.actor +
    tally (Task.due (crowd τ) maxThroughput s.box) s.thread +
    jobDue (crowd τ) maxThroughput * s.queue.length

omit [DecidableEq α] [DecidableEq τ] [Fintype ι] [Fintype τ] in
theorem box_update (s : Ensemble ι τ α) (i : ι) (c : CooperativeActor α) (queue : List ι)
    (thread : τ → Task ι α) :
    box { actor := Function.update s.actor i c, queue, thread } = Function.update s.box i c.mailbox := by
  funext j
  by_cases hj : j = i
  · subst hj
    simp [box]
  · simp [box, hj]

/-- A thread's step with the actor `i`. -/
theorem due_replace {t : τ} {i : ι} {c : CooperativeActor α} {b : Task ι α} {queue : List ι} {m n : ℕ}
    (h : b.due (crowd τ) maxThroughput (Function.update s.box i c.mailbox) +
        weightBy (crowd τ + 3) 3 c.mailbox + spread (crowd τ) (s.box i) c.mailbox +
        jobDue (crowd τ) maxThroughput * queue.length + m ≤
      (s.thread t).due (crowd τ) maxThroughput s.box + spread 3 (s.box i) c.mailbox +
        weightBy (crowd τ + 3) 3 (s.box i) + jobDue (crowd τ) maxThroughput * s.queue.length + n) :
    due maxThroughput
      { actor := Function.update s.actor i c, queue, thread := Function.update s.thread t b } + m ≤
        s.due maxThroughput + n := by
  have hactors := tally_update (fun c : CooperativeActor α => weightBy (crowd τ + 3) 3 c.mailbox)
    s.actor i c
  have hthreads := tally_replace_le (g := s.thread) (t := t)
    (f := Task.due (crowd τ) maxThroughput s.box) (fun u _ => (s.thread u).due_le i c.mailbox) b
  have hspread := card_mul_spread τ (s.box i) c.mailbox
  have hbox : weightBy (crowd τ + 3) 3 (s.box i) = weightBy (crowd τ + 3) 3 (s.actor i).mailbox := rfl
  unfold due
  rw [box_update]
  dsimp only
  omega

omit [DecidableEq ι] [DecidableEq τ] in
theorem due_setQueue (maxThroughput : ℕ) (s : Ensemble ι τ α) (queue : List ι) :
    (s.setQueue queue).due maxThroughput + jobDue (crowd τ) maxThroughput * s.queue.length =
      s.due maxThroughput + jobDue (crowd τ) maxThroughput * queue.length := by
  unfold due
  rw [show (s.setQueue queue).box = s.box from rfl]
  simp only [setQueue]
  omega

omit [DecidableEq τ] in
/-- A change of a mailbox by somebody else. -/
theorem due_touch (maxThroughput : ℕ) {i : ι} {c : CooperativeActor α} {m n : ℕ}
    (h : weightBy (crowd τ + 3) 3 c.mailbox + spread (crowd τ) (s.box i) c.mailbox + m ≤
      weightBy (crowd τ + 3) 3 (s.box i) + n) :
    due maxThroughput { s with actor := Function.update s.actor i c } + m ≤ s.due maxThroughput + n := by
  have hactors := tally_update (fun c : CooperativeActor α => weightBy (crowd τ + 3) 3 c.mailbox)
    s.actor i c
  have hthreads : tally (Task.due (crowd τ) maxThroughput (Function.update s.box i c.mailbox)) s.thread ≤
      tally (Task.due (crowd τ) maxThroughput s.box) s.thread +
        Fintype.card τ * spread 3 (s.box i) c.mailbox :=
    tally_le_add_mul (fun b => b.due_le i c.mailbox) s.thread
  have hspread := card_mul_spread τ (s.box i) c.mailbox
  have hbox : weightBy (crowd τ + 3) 3 (s.box i) = weightBy (crowd τ + 3) 3 (s.actor i).mailbox := rfl
  unfold due
  rw [box_update]
  dsimp only
  omega

/-- A step of a call to the actor `i`. -/
theorem due_sent {t : τ} {i : ι} {c : CooperativeActor α} {pc : SendPc α} (queue : List ι) {m n : ℕ}
    (h : pc.due (crowd τ) maxThroughput c.mailbox + weightBy (crowd τ + 3) 3 c.mailbox +
        spread (crowd τ) (s.box i) c.mailbox + jobDue (crowd τ) maxThroughput * queue.length + m ≤
      (s.thread t).sendDue (crowd τ) maxThroughput s.box + weightBy (crowd τ + 3) 3 (s.box i) +
        jobDue (crowd τ) maxThroughput * s.queue.length + n) :
    ((s.sent t i c pc).setQueue queue).due maxThroughput + m ≤ s.due maxThroughput + n := by
  refine due_replace ?_
  have hw := (s.thread t).workDue_le (crowd τ) maxThroughput s.box i c.mailbox
  have hspread := spread_mono (show 2 ≤ 3 by decide) (s.box i) c.mailbox
  have hs := Task.sendDue_placed (crowd τ) maxThroughput (Function.update s.box i c.mailbox)
    (s.thread t) i pc
  rw [Function.update_self] at hs
  have hw' : Task.workDue (crowd τ) maxThroughput (Function.update s.box i c.mailbox)
      { s.thread t with send := placed .idle i pc } =
    (s.thread t).workDue (crowd τ) maxThroughput (Function.update s.box i c.mailbox) := rfl
  rw [Task.due, Task.due, hs, hw']
  omega

/-- A step of a worker with the actor `i`. -/
theorem due_worked {t : τ} {i : ι} {c : CooperativeActor α} {pc : WorkPc α} (queue : List ι) {m n : ℕ}
    (h : pc.due (crowd τ) maxThroughput c.mailbox + weightBy (crowd τ + 3) 3 c.mailbox +
        spread (crowd τ) (s.box i) c.mailbox + jobDue (crowd τ) maxThroughput * queue.length + m ≤
      (s.thread t).workDue (crowd τ) maxThroughput s.box + weightBy (crowd τ + 3) 3 (s.box i) +
        jobDue (crowd τ) maxThroughput * s.queue.length + n) :
    ((s.worked t i c pc).setQueue queue).due maxThroughput + m ≤ s.due maxThroughput + n := by
  refine due_replace ?_
  have hs := (s.thread t).sendDue_le (crowd τ) maxThroughput s.box i c.mailbox
  have hspread := spread_mono (show 1 ≤ 3 by decide) (s.box i) c.mailbox
  have hw := Task.workDue_placed (crowd τ) maxThroughput (Function.update s.box i c.mailbox)
    (s.thread t) i pc
  rw [Function.update_self] at hw
  have hs' : Task.sendDue (crowd τ) maxThroughput (Function.update s.box i c.mailbox)
      { s.thread t with work := placed .idle i pc } =
    (s.thread t).sendDue (crowd τ) maxThroughput (Function.update s.box i c.mailbox) := rfl
  rw [Task.due, Task.due, hw, hs']
  omega

/-- A call. -/
theorem due_call {t : τ} {i : ι} {m : α} (h : step maxThroughput s (.call t i m) = some s') :
    s'.due maxThroughput ≤ s.due maxThroughput + callDue (crowd τ) maxThroughput := by
  obtain ⟨-, rfl, -⟩ := call_view h
  refine due_sent (c := s.actor i) (m := 0) s.queue ?_
  have hbox : s.box i = (s.actor i).mailbox := rfl
  rw [hbox, spread_of_eq (by rfl)]
  simp only [SendPc.due]
  omega

/-- **Every other step** brings the threads nearer to their end. -/
theorem due_step (hlive : ∀ i, (s.actor i).mailbox.stack ≠ .closed) (ha : ∀ t i m, a ≠ .call t i m)
    (h : step maxThroughput s a = some s') : s'.due maxThroughput + 1 ≤ s.due maxThroughput := by
  cases a with
  | call t i m => exact absurd rfl (ha t i m)
  | send t =>
    obtain ⟨i, pc, hi, ⟨rfl, rfl⟩ | ⟨hpc, r, hr, rfl⟩⟩ := send_view h
    · -- the job is paid for
      have hdue : (s.thread t).sendDue (crowd τ) maxThroughput s.box =
          jobDue (crowd τ) maxThroughput + 1 := by
        simp [Task.sendDue, hi, SendPc.due]
      refine due_sent (c := s.actor i) (n := 0) _ ?_
      have hbox : s.box i = (s.actor i).mailbox := rfl
      rw [hdue, hbox, spread_of_eq (by rfl), List.length_append, List.length_singleton, Nat.mul_succ]
      simp only [SendPc.due]
      omega
    · have hdue : (s.thread t).sendDue (crowd τ) maxThroughput s.box =
          pc.due (crowd τ) maxThroughput (s.box i) := by
        simp [Task.sendDue, hi]
      have hstep := due_sendStep (crowd τ) maxThroughput hpc hr
      refine due_sent (n := 0) s.queue ?_
      rw [hdue]
      change _ ≤ pc.due (crowd τ) maxThroughput (s.shared i).mailbox +
        weightBy (crowd τ + 3) 3 (s.shared i).mailbox + _ + _
      change _ + spread (crowd τ) (s.shared i).mailbox _ + _ + _ ≤ _
      omega
  | dequeue t =>
    obtain ⟨i, queue, ht, hq, rfl⟩ := dequeue_view h
    refine due_worked (n := 0) _ ?_
    have hcost := due_cacheHead (crowd τ) maxThroughput (s.actor i).mailbox
      (s.actor i).mailbox
    have hbox : s.box i = (s.actor i).mailbox := rfl
    rw [hbox, spread_of_eq (by rfl), hq, List.length_cons, Nat.mul_succ]
    omega
  | work t =>
    obtain ⟨i, pc, r, ht, hr, rfl⟩ := work_view h
    have hdue : (s.thread t).workDue (crowd τ) maxThroughput s.box =
        pc.due (crowd τ) maxThroughput (s.box i) := by
      simp [Task.workDue, ht]
    have hstep := due_workStep (d := crowd τ) (c := s.shared i) (hlive i) hr
    refine due_worked (n := 0) s.queue ?_
    rw [hdue]
    change _ ≤ pc.due (crowd τ) maxThroughput (s.shared i).mailbox +
      weightBy (crowd τ + 3) 3 (s.shared i).mailbox + _ + _
    change _ + spread (crowd τ) (s.shared i).mailbox _ + _ + _ ≤ _
    omega

end Ensemble

/-! ### Who can go on -/

section Enabled

theorem sendStep_ne_none {pc : SendPc α} (h : pc ≠ .idle) (c : Shared α) : sendStep c pc ≠ none := by
  cases pc with
  | idle => exact absurd rfl h
  | exchange m e =>
    simp only [sendStep]
    split_ifs <;> simp
  | flags =>
    simp only [sendStep]
    split_ifs <;> simp
  | _ => simp [sendStep]

theorem workStep_ne_none (maxThroughput : ℕ) {pc : WorkPc α} (h : pc ≠ .idle)
    (hf : ∀ f, pc ≠ .failed f) (c : Shared α) : workStep maxThroughput c pc ≠ none := by
  by_cases hin : pc.inRun = true
  · unfold workStep
    split
    next => simp
    next => simp
    next => simp
    next => exact mt Option.map_eq_none_iff.mp (runStep_ne_none hin hf)
  · cases pc with
    | idle => exact absurd rfl h
    | store => simp [workStep]
    | unblock => simp [workStep]
    | deref => simp [workStep]
    | _ => exact absurd rfl hin

omit [DecidableEq α] in
theorem placed_ne_idle {P : Type*} [DecidableEq P] (idle : P) (i j : ι) (pc : P) :
    placed idle i pc ≠ some (j, idle) := by
  unfold placed
  split_ifs with h
  · simp
  · intro heq
    exact h (Prod.mk.inj (Option.some.inj heq)).2

end Enabled

namespace Ensemble

/-- The mailboxes are open or blocked, and a thread that has returned is not kept as a caller. -/
structure Sound (s : Ensemble ι τ α) : Prop where
  /-- No mailbox is closed. -/
  live : ∀ i, (s.actor i).mailbox.stack ≠ .closed
  /-- Who is in a call has not returned. -/
  send : ∀ t i, (s.thread t).send ≠ some (i, .idle)
  /-- Who has an actor has not released it. -/
  work : ∀ t i, (s.thread t).work ≠ some (i, .idle)

variable [DecidableEq ι] [DecidableEq τ] {maxThroughput : ℕ} {s s' : Ensemble ι τ α}
  {a : EnsembleAct ι τ α}

omit [DecidableEq τ] [DecidableEq α] in
theorem live_update (hlive : ∀ i, (s.actor i).mailbox.stack ≠ .closed) {i : ι} {c : CooperativeActor α}
    (hc : c.mailbox.stack ≠ .closed) (j : ι) :
    (Function.update s.actor i c j).mailbox.stack ≠ .closed := by
  by_cases hj : j = i
  · subst hj
    rwa [Function.update_self]
  · rw [Function.update_of_ne hj]
    exact hlive j

theorem Sound.sent (h : Sound s) (t : τ) (i : ι) {c : CooperativeActor α}
    (hc : c.mailbox.stack ≠ .closed) (pc : SendPc α) : Sound (s.sent t i c pc) where
  live := live_update h.live hc
  send u j := by
    by_cases hu : u = t
    · subst hu
      simpa [Ensemble.sent] using placed_ne_idle _ i j pc
    · simpa [Ensemble.sent, hu] using h.send u j
  work u j := by
    by_cases hu : u = t
    · subst hu
      simpa [Ensemble.sent] using h.work u j
    · simpa [Ensemble.sent, hu] using h.work u j

theorem Sound.worked (h : Sound s) (t : τ) (i : ι) {c : CooperativeActor α}
    (hc : c.mailbox.stack ≠ .closed) (pc : WorkPc α) : Sound (s.worked t i c pc) where
  live := live_update h.live hc
  send u j := by
    by_cases hu : u = t
    · subst hu
      simpa [Ensemble.worked] using h.send u j
    · simpa [Ensemble.worked, hu] using h.send u j
  work u j := by
    by_cases hu : u = t
    · subst hu
      simpa [Ensemble.worked] using placed_ne_idle _ i j pc
    · simpa [Ensemble.worked, hu] using h.work u j

omit [DecidableEq α] [DecidableEq ι] [DecidableEq τ] in
/-- The job queue does not matter. -/
theorem Sound.setQueue (h : Sound s) (queue : List ι) : Sound (s.setQueue queue) :=
  ⟨h.live, h.send, h.work⟩

theorem Sound.step (hs : Sound s) (h : step maxThroughput s a = some s') : Sound s' := by
  cases a with
  | call t i m =>
    obtain ⟨-, rfl, -⟩ := call_view h
    exact hs.sent t i (hs.live i) _
  | send t =>
    obtain ⟨i, pc, -, ⟨-, rfl⟩ | ⟨-, r, hr, rfl⟩⟩ := send_view h
    · exact (hs.sent t i (hs.live i) _).setQueue _
    · exact hs.sent t i (live_sendStep (hs.live i) hr) _
  | dequeue t =>
    obtain ⟨i, queue, -, -, rfl⟩ := dequeue_view h
    exact (hs.worked t i (hs.live i) _).setQueue _
  | work t =>
    obtain ⟨i, pc, r, -, hr, rfl⟩ := work_view h
    exact hs.worked t i (live_workStep (hs.live i) hr) _

/-- A thread in a call can go on. -/
theorem Sound.send_enabled (hs : Sound s) (maxThroughput : ℕ) {t : τ} (ht : (s.thread t).send ≠ none) :
    ∃ s', Ensemble.step maxThroughput s (.send t) = some s' := by
  obtain ⟨⟨i, pc⟩, hi⟩ := Option.ne_none_iff_exists'.mp ht
  have hpc : pc ≠ .idle := by
    rintro rfl
    exact hs.send t i hi
  obtain ⟨r, hr⟩ := Option.ne_none_iff_exists'.mp (sendStep_ne_none hpc (s.shared i))
  simp only [Ensemble.step, hi]
  split
  next hn => cases hn
  next => exact ⟨_, rfl⟩
  next i' pc' _ heq =>
    obtain ⟨rfl, rfl⟩ := Prod.mk.inj (Option.some.inj heq)
    exact ⟨_, by rw [hr]; rfl⟩

/-- A worker with an actor can go on, unless an assertion has failed. -/
theorem Sound.work_enabled (hs : Sound s) (maxThroughput : ℕ) {t : τ} {i : ι} {pc : WorkPc α}
    (ht : s.thread t = ⟨none, some (i, pc)⟩) (hf : ∀ f, pc ≠ .failed f) :
    ∃ s', Ensemble.step maxThroughput s (.work t) = some s' := by
  have hpc : pc ≠ .idle := by
    rintro rfl
    exact hs.work t i (by rw [ht])
  obtain ⟨r, hr⟩ := Option.ne_none_iff_exists'.mp
    (workStep_ne_none maxThroughput hpc hf (s.shared i))
  refine ⟨s.worked t i r.1.toCooperativeActor r.2, ?_⟩
  simp only [Ensemble.step, ht]
  rw [hr]
  rfl

end Ensemble

end ActorsFramework.Scheduling
