import ActorsFramework.Executor.WorkSharing

/-!
# The shutdown handshake

`executor_t::stop` sends shutdown entries through the central queue one at a
time and strikes off the worker that answers. Any worker may take an entry, and
ordinary jobs may stand before it; still each round removes exactly one worker
(`stop_handshake`). The invariant `Handshake` counts the shutdown entry that a
round has under way: it is in the queue, or held by a worker that has not run it
yet, or answered in `last_worker`, and between rounds it is nowhere.
-/

namespace ActorsFramework.Executor

open Lib

variable {ω : Type*}

/-- The entry is `stop`'s. -/
def Entry.isShutdown (e : Entry) : Bool := e.task = .shutdown

/-- `1` for a worker that has taken a shutdown entry and not yet run it. -/
def WorkerPc.unacked : WorkerPc → ℕ
  | .running e => e.isShutdown.toNat
  | _ => 0

/-- The worker has run a shutdown entry. -/
def WorkerPc.acked : WorkerPc → Bool
  | .exited => true
  | .returned _ .shutdown => true
  | _ => false

/-- `stop` is between pushing a shutdown entry and forgetting the answer. -/
def StopPc.inRound : StopPc → Bool
  | .wait | .erase | .reset => true
  | _ => false

/-- `stop` has left its loop. -/
def StopPc.left : StopPc → Bool
  | .join | .drain | .returned => true
  | _ => false

section Count

variable [Fintype ω]

/-- How many shutdown entries are in the queue or held by a worker that has not run them. -/
def State.pending (s : State ω) : ℕ :=
  s.queue.countP Entry.isShutdown + tally WorkerPc.unacked s.worker

/-- What `stop` and the workers keep true of the shutdown entries. -/
structure Handshake (s : State ω) : Prop where
  /-- The round under way has one entry, pending or answered. -/
  one : s.pending + s.lastWorker.toList.length = s.stop.inRound.toNat
  /-- After the wait, `last_worker` is set. -/
  answered : s.stop = .erase ∨ s.stop = .reset → s.lastWorker ≠ none
  /-- The workers that have run a shutdown entry are recorded. -/
  acked : ∀ w, (s.worker w).acked = true ↔ w ∈ s.acks
  /-- Only a shutdown entry's `run` returns `shutdown`. -/
  result : ∀ w e r, s.worker w = .returned e r → (e.isShutdown = true ↔ r = .shutdown)
  /-- No worker ran two. -/
  nodup : s.acks.Nodup
  /-- `last_worker` has run one. -/
  last : ∀ w, s.lastWorker = some w → w ∈ s.acks
  /-- Before `stop` is called nobody has. -/
  fresh : s.stop = .notCalled → s.acks = []
  /-- `alive_workers` are those that have not, and the one whose answer is not yet used. -/
  alive : s.stop ≠ .notCalled → ∀ w, w ∈ s.alive ↔
    w ∉ s.acks ∨ (s.stop = .wait ∨ s.stop = .erase) ∧ s.lastWorker = some w
  /-- A round begins with somebody alive. -/
  somebody : s.stop = .wait → s.alive ≠ ∅
  /-- After the loop nobody is. -/
  nobody : s.stop.left = true → s.alive = ∅
  /-- Each round is answered or under way. -/
  rounds : s.rounds = s.acks.length + s.pending

/-- A push of a job is no shutdown entry. -/
theorem pending_execute (s : State ω) : s.execute.pending = s.pending := by
  simp [State.pending, State.execute, State.enqueue, Entry.isShutdown]

theorem handshake_init : Handshake ({} : State ω) where
  one := by simp [State.pending, StopPc.inRound, tally, WorkerPc.unacked]
  answered := by simp
  acked := by simp [WorkerPc.acked]
  result := by simp
  nodup := List.nodup_nil
  last := by simp
  fresh := by simp
  alive := by simp
  somebody := by simp
  nobody := by simp [StopPc.left]
  rounds := by simp [State.pending, tally, WorkerPc.unacked]

/-- A step that leaves `stop`'s variables alone and moves no shutdown entry keeps the handshake. -/
theorem Handshake.frame {s s' : State ω} (h : Handshake s) (hst : s'.stop = s.stop)
    (hal : s'.alive = s.alive) (hlw : s'.lastWorker = s.lastWorker) (hac : s'.acks = s.acks)
    (hro : s'.rounds = s.rounds) (hpe : s'.pending = s.pending)
    (hwo : ∀ w, (s'.worker w).acked = (s.worker w).acked)
    (hre : ∀ w e r, s'.worker w = .returned e r → (e.isShutdown = true ↔ r = .shutdown)) :
    Handshake s' where
  one := by rw [hpe, hlw, hst]; exact h.one
  answered := by rw [hst, hlw]; exact h.answered
  acked w := by rw [hwo, hac]; exact h.acked w
  result := hre
  nodup := by rw [hac]; exact h.nodup
  last := by rw [hlw, hac]; exact h.last
  fresh := by rw [hst, hac]; exact h.fresh
  alive := by rw [hst, hal, hac, hlw]; exact h.alive
  somebody := by rw [hst, hal]; exact h.somebody
  nobody := by rw [hst, hal]; exact h.nobody
  rounds := by rw [hro, hac, hpe]; exact h.rounds

/-- A worker that is about to run a shutdown entry has the only one. -/
theorem Handshake.of_running {s : State ω} (h : Handshake s) {w : ω} {n : ℕ}
    (hw : s.worker w = .running ⟨n, .shutdown⟩) :
    s.stop = .wait ∧ s.lastWorker = none ∧ w ∉ s.acks := by
  have hle := le_tally WorkerPc.unacked s.worker w
  have hone := h.one
  have hu : (s.worker w).unacked = 1 := by rw [hw]; rfl
  have hp : 1 ≤ s.pending := by unfold State.pending; omega
  have hr : s.stop.inRound.toNat ≤ 1 := Bool.toNat_le _
  have hl : s.lastWorker = none := by
    cases hlw : s.lastWorker with
    | none => rfl
    | some u =>
      rw [hlw, Option.toList_some, List.length_singleton] at hone
      omega
  refine ⟨?_, hl, ?_⟩
  · have hans := h.answered
    cases hs : s.stop with
    | wait => rfl
    | erase | reset => exact absurd hl (hans (by simp [hs]))
    | _ =>
      rw [hs] at hone
      simp only [StopPc.inRound, Bool.toNat_false] at hone
      omega
  · rw [← h.acked, hw]
    simp [WorkerPc.acked]

/-- The round that begins pushes one shutdown entry. -/
theorem pending_push (s : State ω) (st : StopPc) (n : ℕ) :
    { s.enqueue .shutdown with stop := st, rounds := n }.pending = s.pending + 1 := by
  simp only [State.pending, State.enqueue, List.countP_append, Entry.isShutdown, List.countP_singleton]
  simp
  omega

/-- Between rounds nothing is pending. -/
theorem Handshake.quiet {s : State ω} (h : Handshake s) (hs : s.stop.inRound = false) :
    s.pending = 0 ∧ s.lastWorker = none := by
  have hone := h.one
  rw [hs, Bool.toNat_false] at hone
  refine ⟨by omega, ?_⟩
  cases hl : s.lastWorker with
  | none => rfl
  | some u =>
    rw [hl, Option.toList_some, List.length_singleton] at hone
    omega

/-- Once the round is answered nothing is pending. -/
theorem Handshake.pending_of_answer {s : State ω} (h : Handshake s) {w : ω} (hl : s.lastWorker = some w) :
    s.pending = 0 := by
  have hone := h.one
  rw [hl, Option.toList_some, List.length_singleton] at hone
  have := Bool.toNat_le s.stop.inRound
  omega

/-- Workers that have run a shutdown entry, each once, are at most all of them. -/
theorem Handshake.rounds_le {s : State ω} (h : Handshake s) : s.rounds ≤ Fintype.card ω := by
  have hr := h.rounds
  have hle : s.acks.length ≤ Fintype.card ω := h.nodup.length_le_card
  by_cases hp : s.pending = 0
  · omega
  · have hone := h.one
    have hrd := Bool.toNat_le s.stop.inRound
    have hl : s.lastWorker = none := by
      by_contra hne
      obtain ⟨w, hw⟩ := Option.ne_none_iff_exists'.mp hne
      exact hp (h.pending_of_answer hw)
    have hin : s.stop.inRound = true := by
      by_contra hin
      exact hp (h.quiet (by simpa using hin)).1
    have hst : s.stop = .wait := by
      have hans := h.answered
      cases hs : s.stop <;> simp_all [StopPc.inRound]
    obtain ⟨w, hw⟩ := Finset.nonempty_iff_ne_empty.mpr (h.somebody hst)
    have hna : w ∉ s.acks := by
      rcases (h.alive (by rw [hst]; nofun) w).mp hw with hw | ⟨_, hw⟩
      · exact hw
      · rw [hl] at hw
        cases hw
    have hlt : (w :: s.acks).length ≤ Fintype.card ω :=
      List.Nodup.length_le_card (List.nodup_cons.mpr ⟨hna, h.nodup⟩)
    rw [List.length_cons] at hlt
    omega

end Count

/-! ### What the workers take -/

/-- Nothing is taken by a worker after its shutdown entry. -/
structure ShutdownLast (s : State ω) : Prop where
  /-- In the order of taking, a worker's shutdown entry is its last. -/
  last : s.taken.Pairwise fun x y => x.2.task = .shutdown → ∀ w, x.1 = some w → y.1 ≠ some w
  /-- A worker that took a shutdown entry is no longer waiting for entries. -/
  busy : ∀ w e, (some w, e) ∈ s.taken → e.task = .shutdown →
    s.worker w = .running e ∨ (s.worker w).acked = true

theorem ShutdownLast.frame {s s' : State ω} (h : ShutdownLast s) (ht : s'.taken = s.taken)
    (hw : ∀ w e, e.task = .shutdown → s.worker w = .running e ∨ (s.worker w).acked = true →
      s'.worker w = .running e ∨ (s'.worker w).acked = true) : ShutdownLast s' where
  last := by rw [ht]; exact h.last
  busy w e hm he := by rw [ht] at hm; exact hw w e he (h.busy w e hm he)

section Worker

variable [DecidableEq ω]

theorem acked_update {g : ω → WorkerPc} {w : ω} {pc : WorkerPc} (h : pc.acked = (g w).acked) (u : ω) :
    (Function.update g w pc u).acked = (g u).acked := by
  by_cases hu : u = w
  · subst hu; rw [Function.update_self, h]
  · rw [Function.update_of_ne hu]

theorem result_update {g : ω → WorkerPc} {w : ω} {pc : WorkerPc}
    (hg : ∀ w e r, g w = .returned e r → (e.isShutdown = true ↔ r = .shutdown))
    (hp : ∀ e r, pc = .returned e r → (e.isShutdown = true ↔ r = .shutdown)) (u : ω) (e : Entry)
    (r : ExecutableResult) (hu : Function.update g w pc u = .returned e r) :
    e.isShutdown = true ↔ r = .shutdown := by
  by_cases huw : u = w
  · subst huw
    rw [Function.update_self] at hu
    exact hp e r hu
  · rw [Function.update_of_ne huw] at hu
    exact hg u e r hu

theorem busy_update {g : ω → WorkerPc} {w : ω} {pc : WorkerPc}
    (hw : ∀ e, e.task = .shutdown → g w = .running e → pc.acked = true)
    (ha : (g w).acked = true → pc.acked = true) (u : ω) (e : Entry) (he : e.task = .shutdown)
    (hu : g u = .running e ∨ (g u).acked = true) :
    Function.update g w pc u = .running e ∨ (Function.update g w pc u).acked = true := by
  by_cases huw : u = w
  · subst huw
    rw [Function.update_self]
    rcases hu with hu | hu
    · exact .inr (hw e he hu)
    · exact .inr (ha hu)
  · rwa [Function.update_of_ne huw]

variable [Fintype ω]

/-- A worker that moves on without running a shutdown entry moves none. -/
theorem pending_setWorker {s : State ω} {w : ω} {pc : WorkerPc} (h : pc.unacked = (s.worker w).unacked) :
    (s.setWorker w pc).pending = s.pending := by
  have := tally_update WorkerPc.unacked s.worker w pc
  simp only [State.pending, State.setWorker]
  omega

/-- A worker whose job has returned holds no shutdown entry it has yet to run. -/
theorem pending_settle {s : State ω} {w : ω} {e : Entry} {r : ExecutableResult} {pc : WorkerPc}
    (hw : s.worker w = .returned e r) (hpc : pc.unacked = 0) :
    (s.setWorker w pc).pending = s.pending :=
  pending_setWorker (by rw [hpc, hw]; rfl)

/-- A shutdown entry that a worker takes is still pending. -/
theorem pending_take {s : State ω} {w : ω} {e : Entry} {q : List Entry} (hw : s.worker w = .dequeue)
    (hq : s.queue = e :: q) (t : List (Option ω × Entry)) :
    { s.setWorker w (.running e) with queue := q, taken := t }.pending = s.pending := by
  have := tally_update WorkerPc.unacked s.worker w (.running e)
  rw [hw] at this
  simp only [State.pending, State.setWorker, hq, List.countP_cons]
  simp only [WorkerPc.unacked] at this ⊢
  cases he : e.isShutdown <;> simp [he] at this ⊢ <;> omega

/-- Running a shutdown entry uses it up. -/
theorem pending_ack {s : State ω} {w : ω} {n : ℕ} (hw : s.worker w = .running ⟨n, .shutdown⟩) :
    (s.setWorker w (.returned ⟨n, .shutdown⟩ .shutdown)).pending + 1 = s.pending := by
  have := tally_update WorkerPc.unacked s.worker w (.returned ⟨n, .shutdown⟩ .shutdown)
  rw [hw] at this
  simp only [State.pending, State.setWorker]
  simp only [WorkerPc.unacked, Entry.isShutdown, decide_true, Bool.toNat_true] at this
  omega

/-- A worker that runs the shutdown entry answers the round. -/
theorem Handshake.ack {s : State ω} (h : Handshake s) {w : ω} {n : ℕ}
    (hw : s.worker w = .running ⟨n, .shutdown⟩) :
    Handshake { s.setWorker w (.returned ⟨n, .shutdown⟩ .shutdown) with
                lastWorker := some w, acks := s.acks ++ [w] } := by
  obtain ⟨hst, hlw, hna⟩ := h.of_running hw
  have hpe : { s.setWorker w (.returned ⟨n, .shutdown⟩ .shutdown) with
      lastWorker := some w, acks := s.acks ++ [w] }.pending + 1 = s.pending := pending_ack hw
  constructor
  · have := h.one
    rw [hlw] at this
    simp only [Option.toList_none, List.length_nil] at this
    change _ + 1 = s.stop.inRound.toNat
    omega
  · simp
  · intro u
    by_cases hu : u = w
    · subst hu
      simp [State.setWorker, WorkerPc.acked]
    · simp only [State.setWorker, Function.update_of_ne hu, List.mem_append, List.mem_singleton]
      rw [h.acked u]
      simp [hu]
  · refine result_update h.result ?_
    rintro e r he
    cases he
    simp [Entry.isShutdown]
  · refine List.nodup_append.mpr ⟨h.nodup, by simp, ?_⟩
    intro u hu v hv huv
    rw [List.mem_singleton] at hv
    exact hna (hv ▸ huv ▸ hu)
  · intro u hu
    cases hu
    simp
  · intro hs
    exact absurd (hst.symm.trans hs) nofun
  · intro _ u
    have hal := h.alive (by rw [hst]; nofun) u
    rw [hlw] at hal
    change u ∈ s.alive ↔ u ∉ s.acks ++ [w] ∨ (s.stop = .wait ∨ s.stop = .erase) ∧ some w = some u
    rw [hal, hst]
    by_cases hu : u = w
    · subst hu; simp [hna]
    · simp [hu, Ne.symm hu]
  · exact h.somebody
  · exact h.nobody
  · have := h.rounds
    change s.rounds = (s.acks ++ [w]).length + _
    rw [List.length_append, List.length_singleton]
    omega

/-- A worker that puts its job back sends no shutdown entry. -/
theorem pending_resume {s : State ω} {w : ω} {e : Entry} {r : ExecutableResult} {l : List Entry}
    (hw : s.worker w = .returned e r) (he : e.isShutdown = false) :
    (({ s with finished := l }.enqueue e.task).setWorker w .dequeue).pending = s.pending := by
  have := tally_update WorkerPc.unacked s.worker w .dequeue
  rw [hw] at this
  simp only [WorkerPc.unacked, Nat.add_zero] at this
  simp only [Entry.isShutdown, decide_eq_false_iff_not] at he
  simp [State.pending, State.setWorker, State.enqueue, Entry.isShutdown, he, this]

omit [DecidableEq ω] in
/-- Between rounds `stop` moves on, or begins. -/
theorem Handshake.quietly {s : State ω} (h : Handshake s) {stop : StopPc} {alive : Finset ω}
    (hs : s.stop.inRound = false) (hs' : stop.inRound = false) (hne : stop ≠ .notCalled)
    (hal : ∀ w, w ∈ alive ↔ w ∉ s.acks) (hno : stop.left = true → alive = ∅) :
    Handshake { s with stop := stop, alive := alive } := by
  obtain ⟨hp, hl⟩ := h.quiet hs
  refine ⟨?_, fun ho => ?_, h.acked, h.result, h.nodup, h.last, fun hst => absurd hst hne, ?_,
    fun hst => ?_, hno, h.rounds⟩
  · change s.pending + s.lastWorker.toList.length = stop.inRound.toNat
    rw [hp, hl, hs']
    rfl
  · have ho' : stop = .erase ∨ stop = .reset := ho
    rcases ho' with rfl | rfl <;> cases hs'
  · intro _ w
    simpa [hl] using hal w
  · have hst' : stop = .wait := hst
    rw [hst'] at hs'
    cases hs'

omit [DecidableEq ω] in
/-- Between rounds `alive_workers` are those that have not run a shutdown entry. -/
theorem Handshake.alive_iff {s : State ω} (h : Handshake s) (hs : s.stop.inRound = false)
    (hne : s.stop ≠ .notCalled) (w : ω) : w ∈ s.alive ↔ w ∉ s.acks := by
  have hal := h.alive hne w
  rw [(h.quiet hs).2] at hal
  simpa using hal

omit [DecidableEq ω] in
/-- A round begins. -/
theorem Handshake.push {s : State ω} (h : Handshake s) (hs : s.stop = .head) (ha : s.alive ≠ ∅) :
    Handshake { s.enqueue .shutdown with stop := .wait, rounds := s.rounds + 1 } := by
  obtain ⟨hp, hl⟩ := h.quiet (by rw [hs]; rfl)
  refine ⟨?_, by simp, h.acked, h.result, h.nodup, h.last, by simp, ?_, fun _ => ha,
    by simp [StopPc.left], ?_⟩
  · rw [pending_push, hp]
    simp [State.enqueue, hl, StopPc.inRound]
  · intro _ w
    have := h.alive (by simp [hs]) w
    simpa [State.enqueue, hl] using this
  · rw [pending_push]
    have := h.rounds
    change s.rounds + 1 = s.acks.length + (s.pending + 1)
    omega

omit [DecidableEq ω] in
/-- The wait returns: the round is answered. -/
theorem Handshake.wake {s : State ω} (h : Handshake s) {w : ω} (hs : s.stop = .wait)
    (hl : s.lastWorker = some w) : Handshake { s with stop := .erase } := by
  have hp := h.pending_of_answer hl
  refine ⟨?_, fun _ => by simp [hl], h.acked, h.result, h.nodup, h.last, by simp, ?_, by simp,
    by simp [StopPc.left], h.rounds⟩
  · change s.pending + s.lastWorker.toList.length = 1
    simp [hp, hl]
  · intro _ u
    have := h.alive (by simp [hs]) u
    simpa [hs] using this

/-- The worker that answered is erased. -/
theorem Handshake.erase {s : State ω} (h : Handshake s) (hs : s.stop = .erase) :
    Handshake { s with stop := .reset, alive := s.alive \ s.lastWorker.toFinset } := by
  obtain ⟨w, hl⟩ := Option.ne_none_iff_exists'.mp (h.answered (.inl hs))
  have hp := h.pending_of_answer hl
  refine ⟨?_, fun _ => by simp [hl], h.acked, h.result, h.nodup, h.last, by simp, ?_, by simp,
    by simp [StopPc.left], h.rounds⟩
  · change s.pending + s.lastWorker.toList.length = 1
    simp [hp, hl]
  · intro _ u
    have hal := h.alive (by simp [hs]) u
    rw [hl] at hal
    simp only [hl, Option.toFinset_some, Finset.mem_sdiff, Finset.mem_singleton, hal]
    by_cases hu : u = w
    · subst hu
      simp [h.last u hl]
    · simp [hu, Ne.symm hu]

omit [DecidableEq ω] in
/-- The round is over. -/
theorem Handshake.reset {s : State ω} (h : Handshake s) (hs : s.stop = .reset) :
    Handshake { s with stop := .head, lastWorker := none } := by
  obtain ⟨w, hl⟩ := Option.ne_none_iff_exists'.mp (h.answered (.inr hs))
  have hp := h.pending_of_answer hl
  refine ⟨?_, by simp, h.acked, h.result, h.nodup, by simp, by simp, ?_, by simp,
    by simp [StopPc.left], h.rounds⟩
  · change s.pending + 0 = 0
    omega
  · intro _ u
    have hal := h.alive (by simp [hs]) u
    simpa [hs] using hal

omit [DecidableEq ω] in
/-- The final drain takes no shutdown entry. -/
theorem Handshake.drain {s : State ω} (h : Handshake s) (hs : s.stop = .drain) :
    Handshake { s.drain s.queue with stop := .returned } := by
  have hp := (h.quiet (by rw [hs]; rfl)).1
  have hd : Handshake (s.drain s.queue) := by
    rw [s.drain_eq rfl]
    refine h.frame rfl rfl rfl rfl rfl ?_ (fun _ => rfl) h.result
    rw [hp]
    simp only [State.pending, List.countP_nil] at hp ⊢
    omega
  have hst : (s.drain s.queue).stop = .drain := by rw [s.drain_eq rfl, hs]
  exact hd.quietly (by rw [hst]; rfl) rfl (by simp) (hd.alive_iff (by rw [hst]; rfl) (by simp [hst]))
    fun _ => hd.nobody (by rw [hst]; rfl)

/-- The handshake is kept by every move. -/
theorem Handshake.moves {s s' : State ω} (h : Handshake s) (hm : Moves s s') : Handshake s' := by
  cases hm with
  | execute _ => exact h.frame rfl rfl rfl rfl rfl (pending_execute s) (fun _ => rfl) h.result
  | spawn _ => exact h.frame rfl rfl rfl rfl rfl (pending_execute s) (fun _ => rfl) h.result
  | take hw hq =>
    exact h.frame rfl rfl rfl rfl rfl (pending_take hw hq _) (acked_update (by rw [hw]; rfl))
      (result_update h.result nofun)
  | @finish w n j r hw hr =>
    refine h.frame rfl rfl rfl rfl rfl (pending_setWorker (by rw [hw]; rfl))
      (acked_update ?_) (result_update h.result ?_)
    · rw [hw]
      cases r <;> first | rfl | exact absurd rfl hr
    · rintro e r' he
      cases he
      simp [Entry.isShutdown, hr]
  | ack hw => exact h.ack hw
  | @resume w e hw =>
    have he : e.isShutdown = false := by
      have := h.result w e _ hw
      simpa using this
    exact h.frame rfl rfl rfl rfl rfl (pending_resume hw he)
      (acked_update (g := s.worker) (by rw [hw]; rfl))
      (result_update h.result nofun)
  | @release w e r hw hr =>
    refine h.frame rfl rfl rfl rfl rfl (pending_settle hw rfl) (acked_update (g := s.worker) ?_)
      (result_update h.result nofun)
    rw [hw]
    cases r <;> first | rfl | cases hr
  | exit hw =>
    exact h.frame rfl rfl rfl rfl rfl (pending_settle hw rfl)
      (acked_update (g := s.worker) (by rw [hw]; rfl)) (result_update h.result nofun)
  | call hs =>
    exact h.quietly (by rw [hs]; rfl) rfl nofun (fun w => by simp [h.fresh hs]) nofun
  | push hs ha => exact h.push hs ha
  | leave hs ha =>
    exact h.quietly (by rw [hs]; rfl) rfl nofun (h.alive_iff (by rw [hs]; rfl) (by rw [hs]; nofun))
      fun _ => ha
  | wake hs hl => exact h.wake hs hl
  | erase hs => exact h.erase hs
  | reset hs => exact h.reset hs
  | join hs _ =>
    exact h.quietly (by rw [hs]; rfl) rfl nofun (h.alive_iff (by rw [hs]; rfl) (by rw [hs]; nofun))
      fun _ => h.nobody (by rw [hs]; rfl)
  | drain hs => exact h.drain hs

/-- The handshake holds of every state reached. -/
theorem handshake_of_reachable {s : State ω} (h : (system ω).Reachable s) : Handshake s :=
  Reachable.of_moves handshake_init (fun _ _ hs hm => hs.moves hm) h

omit [Fintype ω] in
/-- A worker that has run a shutdown entry takes no other. -/
theorem ShutdownLast.take {s : State ω} (h : ShutdownLast s) {w : ω} {e : Entry} {q : List Entry}
    (hw : s.worker w = .dequeue) :
    ShutdownLast { s.setWorker w (.running e) with queue := q, taken := s.taken ++ [(some w, e)] } := by
  constructor
  · refine List.pairwise_append.mpr ⟨h.last, by simp, ?_⟩
    intro x hx y hy hsh u hu hyu
    rw [List.mem_singleton] at hy
    subst hy
    cases hyu
    have hb := h.busy w x.2 (by rw [← hu]; exact hx) hsh
    rw [hw] at hb
    simp [WorkerPc.acked] at hb
  · intro u e' hm he'
    simp only [List.mem_append, List.mem_singleton, Prod.mk.injEq, Option.some.injEq] at hm
    rcases hm with hm | ⟨rfl, rfl⟩
    · refine busy_update (g := s.worker) ?_ ?_ u e' he' (h.busy u e' hm he')
      · intro e'' _ h'
        rw [hw] at h'
        cases h'
      · intro h'
        rw [hw] at h'
        cases h'
    · exact .inl (by simp [State.setWorker])

omit [DecidableEq ω] [Fintype ω] in
/-- The final drain is no worker's. -/
theorem ShutdownLast.drain {s : State ω} (h : ShutdownLast s) :
    ShutdownLast { s.drain s.queue with stop := .returned } := by
  rw [s.drain_eq rfl]
  constructor
  · refine List.pairwise_append.mpr ⟨h.last, ?_, ?_⟩
    · exact List.pairwise_map.mpr (List.pairwise_of_forall fun _ _ _ _ hu => nomatch hu)
    · intro x _ y hy _ u _ hyu
      obtain ⟨e, _, rfl⟩ := List.mem_map.mp hy
      cases hyu
  · intro w e hm he
    rcases List.mem_append.mp hm with hm | hm
    · exact h.busy w e hm he
    · obtain ⟨e', _, he'⟩ := List.mem_map.mp hm
      cases he'

theorem ShutdownLast.moves {s s' : State ω} (h : ShutdownLast s) (hm : Moves s s') :
    ShutdownLast s' := by
  cases hm with
  | take hw _ => exact h.take hw
  | finish hw hr =>
    refine h.frame rfl (busy_update ?_ ?_)
    · intro e he h'
      rw [hw] at h'
      cases h'
      cases he
    · intro h'
      rw [hw] at h'
      cases h'
  | ack hw => exact h.frame rfl (busy_update (fun _ _ _ => rfl) fun _ => rfl)
  | resume hw =>
    refine h.frame rfl (busy_update ?_ ?_)
    · intro e he h'
      rw [hw] at h'
      cases h'
    · intro h'
      rw [hw] at h'
      cases h'
  | @release w e r hw hr =>
    refine h.frame rfl (busy_update ?_ ?_)
    · intro e he h'
      rw [hw] at h'
      cases h'
    · intro h'
      rw [hw] at h'
      cases r with
      | shutdown => cases hr
      | _ => cases h'
  | exit hw => exact h.frame rfl (busy_update (fun _ _ _ => rfl) fun _ => rfl)
  | drain _ => exact h.drain
  | _ => exact h.frame rfl fun _ _ _ hu => hu

theorem shutdownLast_of_reachable {s : State ω} (h : (system ω).Reachable s) : ShutdownLast s :=
  Reachable.of_moves ⟨List.Pairwise.nil, by simp⟩ (fun _ _ hs hm => hs.moves hm) h

/-- **The shutdown handshake**, over every interleaving: at the head of `stop`'s loop
`alive_workers` is the set of workers that have not run a shutdown entry, no shutdown
entry is queued or held unrun, and `last_worker` is null. So `erase` finds its element,
no worker takes anything after its shutdown entry, the body is entered at most as often
as there are workers, and after the loop every worker has run exactly one. -/
theorem stop_handshake {s : State ω} (h : (system ω).Reachable s) :
    (s.stop = .head → (∀ w, w ∈ s.alive ↔ w ∉ s.acks) ∧ s.queue.countP Entry.isShutdown = 0 ∧
      (∀ w n, s.worker w ≠ .running ⟨n, .shutdown⟩) ∧ s.lastWorker = none) ∧
    (s.stop = .erase → ∃ w ∈ s.alive, s.lastWorker = some w) ∧
    (s.taken.Pairwise fun x y => x.2.task = .shutdown → ∀ w, x.1 = some w → y.1 ≠ some w) ∧
    s.rounds ≤ Fintype.card ω ∧
    (s.stop.left = true → ∀ w, s.acks.count w = 1) := by
  have hh := handshake_of_reachable h
  refine ⟨?_, ?_, (shutdownLast_of_reachable h).last, hh.rounds_le, ?_⟩
  · intro hs
    obtain ⟨hp, hl⟩ := hh.quiet (by rw [hs]; rfl)
    refine ⟨?_, ?_, ?_, hl⟩
    · intro w
      have := hh.alive (by rw [hs]; nofun) w
      simpa [hl] using this
    · unfold State.pending at hp
      omega
    · intro w n hw
      have := le_tally WorkerPc.unacked s.worker w
      rw [hw] at this
      simp only [WorkerPc.unacked, Entry.isShutdown, decide_true, Bool.toNat_true] at this
      unfold State.pending at hp
      omega
  · intro hs
    obtain ⟨w, hl⟩ := Option.ne_none_iff_exists'.mp (hh.answered (.inl hs))
    exact ⟨w, (hh.alive (by rw [hs]; nofun) w).mpr (.inr ⟨.inr hs, hl⟩), hl⟩
  · intro hs w
    have hl : s.stop ≠ .notCalled := by
      intro h'
      rw [h'] at hs
      cases hs
    have hna := hh.nobody hs
    refine List.count_eq_one_of_mem hh.nodup ?_
    by_contra hw
    have := (hh.alive hl w).mpr (.inl hw)
    rw [hna] at this
    simp at this

/-- Two workers, a job in the backlog: `stop` shuts both down. -/
theorem stop_handshake_two : ∃ s : State (Fin 2), s.stop = .join ∧ ∀ w, s.acks.count w = 1 := by
  obtain ⟨s, hs, hst⟩ : ∃ s, (system (Fin 2)).replay (fun _ _ => true) {}
      [.execute, .stop, .stop, .take 0, .take 1, .ack 1, .finish 0 .resume, .stop, .stop, .stop,
        .settle 0, .stop, .take 0, .finish 0 .done, .settle 0, .take 0, .ack 0, .stop, .stop, .stop,
        .stop] = some s ∧ s.stop = .join := ⟨_, rfl, rfl⟩
  exact ⟨s, hst, (stop_handshake (.of_replay rfl hs)).2.2.2.2 (by rw [hst]; rfl)⟩

end Worker

end ActorsFramework.Executor
