import ActorsFramework.Actor.Scheduling
import Mathlib.Data.Fintype.Card

/-!
# How often an actor is active

An activation of an actor begins where a sender has read `flags_` as empty, goes
on as a job and as a worker in `run`, and ends where the worker stores empty in
`flags_`. A sender decides by a load and marks the actor busy by a later store,
so that two senders can both decide to schedule it (`two_jobs`). Where that does
not happen there is at most one activation, hence at most one job or worker in
`run` (`single_activation`).
-/

namespace ActorsFramework.Scheduling

open Detail Lib

variable {τ α : Type*}

/-- A sender has marked the actor busy and not yet pushed the job. -/
def SendPc.marking : SendPc α → Bool
  | .block | .ref | .execute => true
  | _ => false

/-- A sender has decided to schedule the actor and not yet pushed the job. -/
def SendPc.scheduling : SendPc α → Bool
  | .busy => true
  | pc => pc.marking

/-- A worker has the actor, and has not yet marked it empty. -/
def WorkPc.active : WorkPc α → Bool
  | .store => true
  | pc => pc.inRun

namespace Thread

/-- The activations a thread is part of, other than jobs. -/
def activations (b : Thread α) : ℕ := b.send.scheduling.toNat + b.work.active.toNat

/-- The thread is part of an activation that has marked the actor busy. -/
def marks (b : Thread α) : Bool := b.send.marking || b.work.active

end Thread

theorem active_of_inRun {pc : WorkPc α} (h : pc.inRun = true) : pc.active = true := by
  cases pc with
  | store => rfl
  | _ => exact h

/-- A thread that is part of no activation marks none. -/
theorem marks_of_activations {b : Thread α} (h : b.activations = 0) : b.marks = false := by
  obtain ⟨hs, hw⟩ := Nat.add_eq_zero_iff.mp h
  have hw' : b.work.active = false := by
    cases hb : b.work.active with
    | false => rfl
    | true => rw [hb] at hw; cases hw
  have hs' : b.send.marking = false := by
    cases hp : b.send with
    | block | ref | execute => rw [hp] at hs; cases hs
    | _ => rfl
  simp [Thread.marks, hs', hw']

variable [Fintype τ]

/-- At most one activation is under way, and none while `flags_` is empty but those of
senders that have not stored busy yet. -/
structure Single (s : State τ α) : Prop where
  /-- At most one activation. -/
  one : tally Thread.activations s.thread + s.jobs ≤ 1
  /-- While `flags_` is empty there is no job. -/
  idle : s.flags = .empty → s.jobs = 0
  /-- Nor a worker in `run`, nor a sender behind its store. -/
  unmarked : s.flags = .empty → ∀ t, (s.thread t).marks = false

section Condition

variable [DecidableEq α]

/-- No sender reads `flags_` as empty while another one is between reading it as empty and
storing busy. -/
def Undisputed (s : State τ α) : Act τ α → Prop
  | .send t => (s.thread t).send = .flags → s.flags = .empty → ∀ u, (s.thread u).send ≠ .busy
  | _ => True

instance (s : State τ α) (a : Act τ α) : Decidable (Undisputed s a) :=
  match a with
  | .send t => inferInstanceAs
      (Decidable ((s.thread t).send = .flags → s.flags = .empty → ∀ u, (s.thread u).send ≠ .busy))
  | .call _ _ => isTrue trivial
  | .dequeue _ => isTrue trivial
  | .work _ => isTrue trivial

end Condition

variable {s : State τ α}

theorem single_init : Single ({} : State τ α) where
  one := by
    have h0 : tally Thread.activations ({} : State τ α).thread = 0 := tally_const_zero fun _ => rfl
    rw [h0]
    exact Nat.zero_le 1
  idle := fun _ => rfl
  unmarked := fun _ _ => rfl

variable [DecidableEq τ]

/-- A step that adds no activation, and takes away the mark of none that goes on. -/
theorem Single.set (h : Single s) {t : τ} {b : Thread α} {c : Shared α}
    (hone : b.activations + c.jobs ≤ (s.thread t).activations + s.jobs)
    (hidle : c.flags = .empty → s.flags = .empty)
    (hmarks : c.flags = .empty → s.jobs = 0 → (s.thread t).marks = false →
      c.jobs = 0 ∧ b.marks = false) :
    Single { toShared := c, thread := Function.update s.thread t b } where
  one := by
    have hu := tally_update Thread.activations s.thread t b
    have h1 := h.one
    change tally Thread.activations (Function.update s.thread t b) + c.jobs ≤ 1
    omega
  idle := fun hf => (hmarks hf (h.idle (hidle hf)) (h.unmarked (hidle hf) t)).1
  unmarked := fun hf => by
    have hu := h.unmarked (hidle hf)
    exact (Function.forall_update_iff s.thread fun _ b => b.marks = false).mpr
      ⟨(hmarks hf (h.idle (hidle hf)) (hu t)).2, fun u _ => hu u⟩

/-- A step of a call of `enqueue_base` before it has decided, or of one that decides not to. -/
theorem Single.sent (h : Single s) {t : τ} {c : Shared α} {pc : SendPc α}
    (hs : (s.thread t).send.scheduling = false) (hpc : pc.scheduling = false)
    (hf : c.flags = s.flags) (hj : c.jobs = s.jobs) : Single (s.sent t c pc) := by
  have hm : pc.marking = false := by
    cases pc with
    | block | ref | execute => cases hpc
    | _ => rfl
  refine h.set ?_ (fun hc => hf.symm.trans hc) fun _ hj0 hw => ⟨hj.trans hj0, ?_⟩
  · simp only [Thread.activations, hpc, hs, hj]
    exact le_rfl
  · have hw' : (s.thread t).work.active = false := (Bool.or_eq_false_iff.mp hw).2
    simp only [Thread.marks, hm, hw', Bool.or_false]

/-- A step of a sender behind its store. -/
theorem Single.marked (h : Single s) {t : τ} {c : Shared α} {pc : SendPc α}
    (hs : (s.thread t).send.marking = true) (hf : c.flags = s.flags)
    (hone : pc.scheduling.toNat + c.jobs ≤ 1 + s.jobs) : Single (s.sent t c pc) := by
  have hsch : (s.thread t).send.scheduling = true := by
    cases hp : (s.thread t).send with
    | busy => rfl
    | _ => rw [hp] at hs; exact hs
  refine h.set ?_ (fun hc => hf.symm.trans hc) fun _ _ hm => ?_
  · simp only [Thread.activations, hsch, Bool.toNat_true]
    omega
  · rw [Thread.marks, hs] at hm
    cases hm

/-- A step of a worker that keeps it active. -/
theorem Single.worked (h : Single s) {t : τ} {c : Shared α} {pc : WorkPc α}
    (hs : (s.thread t).work.active = true) (hpc : pc.active = true) (hf : c.flags = s.flags)
    (hj : c.jobs = s.jobs) : Single (s.worked t c pc) := by
  refine h.set ?_ (fun hc => hf.symm.trans hc) fun _ _ hm => ?_
  · simp only [Thread.activations, hs, hpc, hj]
    exact le_rfl
  · rw [Thread.marks, hs, Bool.or_true] at hm
    cases hm

/-- A step of a worker that has marked the actor empty. -/
theorem Single.left (h : Single s) {t : τ} {c : Shared α} {pc : WorkPc α}
    (hs : s.thread t = ⟨.idle, pc⟩) {pc' : WorkPc α} (hpc' : pc'.active = false)
    (hf : c.flags = s.flags) (hj : c.jobs = s.jobs) : Single (s.worked t c pc') := by
  refine h.set ?_ (fun hc => hf.symm.trans hc) fun _ hj0 _ => ⟨hj.trans hj0, ?_⟩
  · simp only [Thread.activations, hpc', hj, hs]
    simp [SendPc.scheduling, SendPc.marking]
  · simp [Thread.marks, hs, hpc', SendPc.marking]

variable [DecidableEq α] {s' : State τ α} {a : Act τ α} {maxThroughput : ℕ}

omit [DecidableEq α] in
/-- A sender that reads `flags_` as empty begins the only activation. -/
theorem Single.schedule (h : Single s) {t : τ} (hf : s.flags = .empty) (hu : ∀ u, (s.thread u).send ≠ .busy) :
    Single (s.sent t s.toShared .busy) := by
  have hm := fun u => Bool.or_eq_false_iff.mp (h.unmarked hf u)
  have hsch : ∀ u, (s.thread u).send.scheduling = false := by
    intro u
    cases hp : (s.thread u).send with
    | busy => exact absurd hp (hu u)
    | _ => rw [← (hm u).1, hp]; rfl
  have h0 : tally Thread.activations s.thread = 0 :=
    tally_eq_zero.mpr fun u => by simp [Thread.activations, hsch, (hm u).2]
  have hb : ({ s.thread t with send := .busy } : Thread α).activations = 1 := by
    simp [Thread.activations, (hm t).2, SendPc.scheduling]
  have hupd := tally_update Thread.activations s.thread t { s.thread t with send := .busy }
  refine ⟨?_, h.idle, fun _ => ?_⟩
  · have hj := h.idle hf
    change tally Thread.activations (Function.update s.thread t _) + s.jobs ≤ 1
    omega
  · refine (Function.forall_update_iff s.thread fun _ b => b.marks = false).mpr
      ⟨?_, fun u _ => h.unmarked hf u⟩
    simp [Thread.marks, (hm t).2, SendPc.marking]

omit [DecidableEq α] in
/-- The worker's store ends the only activation. -/
theorem Single.store (h : Single s) {t : τ} (hs : s.thread t = ⟨.idle, .store⟩) :
    Single (s.worked t { s.toShared with flags := .empty } .unblock) := by
  have hupd := tally_update Thread.activations s.thread t { s.thread t with work := .unblock }
  have hb : ({ s.thread t with work := .unblock } : Thread α).activations = 0 := by rw [hs]; rfl
  have ht : (s.thread t).activations = 1 := by rw [hs]; rfl
  have h1 := h.one
  have h0 : tally Thread.activations
      (Function.update s.thread t { s.thread t with work := .unblock }) = 0 := by omega
  have hj : s.jobs = 0 := by omega
  refine ⟨?_, fun _ => hj, fun _ u => marks_of_activations (tally_eq_zero.mp h0 u)⟩
  change tally Thread.activations (Function.update s.thread t _) + s.jobs ≤ 1
  omega

theorem Single.move (h : Single s) (hC : Undisputed s a) (hm : Moves maxThroughput s a s') :
    Single s' := by
  cases hm with
  | call hp => exact h.sent (by rw [hp]; rfl) rfl rfl rfl
  | load hp => exact h.sent (by rw [hp]; rfl) rfl rfl rfl
  | closed hp => exact h.sent (by rw [hp]; rfl) rfl rfl rfl
  | push hp _ => exact h.sent (by rw [hp]; rfl) rfl rfl rfl
  | retry hp => exact h.sent (by rw [hp]; rfl) rfl rfl rfl
  | skip hp _ => exact h.sent (by rw [hp]; rfl) rfl rfl rfl
  | schedule hp hf => exact h.schedule hf (hC hp hf)
  | busy hp =>
    refine h.set ?_ nofun nofun
    simp only [Thread.activations, hp]
    exact le_rfl
  | block hp => exact h.marked (by rw [hp]; rfl) rfl le_rfl
  | ref hp => exact h.marked (by rw [hp]; rfl) rfl le_rfl
  | execute hp => exact h.marked (by rw [hp]; rfl) rfl (by simp [SendPc.scheduling, SendPc.marking, Nat.add_comm])
  | @dequeue t n ht hj =>
    refine h.set ?_ id fun _ hj0 => ?_
    · rw [ht, hj]
      simp only [Thread.activations,
        active_of_inRun (inRun_of_reading (reading_cacheHead _ _ _).1)]
      change 0 + 1 + n ≤ 0 + 0 + (n + 1)
      omega
    · rw [hj] at hj0
      cases hj0
  | run hi hr =>
    have hm := runMoves_of_runStep hr
    refine h.worked (active_of_inRun hm.inRun) ?_ rfl rfl
    rcases hm.stays with hin | rfl
    · exact active_of_inRun hin
    · rfl
  | store ht => exact h.store ht
  | unblock ht => exact h.left ht rfl rfl rfl
  | deref ht => exact h.left ht rfl rfl rfl

theorem single_of_reachableBy (h : (system τ α maxThroughput).ReachableBy Undisputed s) : Single s :=
  ReachableBy.of_moves single_init (fun _ _ _ hI hC hm => hI.move hC hm) h

/-- **At most one activation**: in every state that a run reaches in which no sender read
`flags_` as empty while another one had done so and not yet stored busy, the jobs for the
actor and the workers inside its `run` are together at most one. -/
theorem single_activation (h : (system τ α maxThroughput).ReachableBy Undisputed s) :
    s.jobs + (Finset.univ.filter fun t => (s.thread t).work.inRun = true).card ≤ 1 := by
  have h1 := (single_of_reachableBy h).one
  have hle : tally (fun b : Thread α => b.work.inRun.toNat) s.thread ≤
      tally Thread.activations s.thread := by
    refine tally_mono (fun b => ?_) _
    cases hb : b.work.inRun with
    | false => exact Nat.zero_le _
    | true =>
      rw [Thread.activations, active_of_inRun hb]
      exact Nat.le_add_left _ _
  rw [card_filter_eq_tally fun b : Thread α => b.work.inRun]
  omega

/-- The second sender finds the actor marked busy. -/
theorem single_activation_one : ∃ s : State (Fin 3) ℕ,
    s.jobs = 1 ∧ s.jobs + (Finset.univ.filter fun t => (s.thread t).work.inRun = true).card ≤ 1 := by
  obtain ⟨s, hs, hj⟩ : ∃ s, (system (Fin 3) ℕ 1).replay (fun s a => decide (Undisputed s a)) {}
      [.call 0 7, .send 0, .send 0, .send 0, .send 0, .call 1 8, .send 1, .send 1, .send 1, .send 0,
        .send 0, .send 0] = some s ∧ s.jobs = 1 := ⟨_, rfl, rfl⟩
  exact ⟨s, hj, single_activation
    (.of_replay (fun _ _ hc => of_decide_eq_true hc) ⟨[], .init rfl, System.meets_nil _⟩ hs)⟩

/-- Two senders both read `flags_` as empty, and both push the job. -/
theorem two_jobs : ∃ s, (system (Fin 2) ℕ 1).Reachable s ∧
    ¬ s.jobs + (Finset.univ.filter fun t => (s.thread t).work.inRun = true).card ≤ 1 := by
  obtain ⟨s, hs, hj⟩ : ∃ s, (system (Fin 2) ℕ 1).replay (fun _ _ => true) {}
      [.call 0 7, .send 0, .send 0, .call 1 8, .send 1, .send 1, .send 0, .send 1, .send 0, .send 0,
        .send 0, .send 0, .send 1, .send 1, .send 1, .send 1] = some s ∧ s.jobs = 2 := ⟨_, rfl, rfl⟩
  exact ⟨s, .of_replay rfl hs, by omega⟩

end ActorsFramework.Scheduling
