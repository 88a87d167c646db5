import ActorsFramework.Executor.Accounting

/-!
# Jobs that return `shutdown`

`worker::run` leaves its loop when a job's `run` returns `shutdown`, whichever job
it is: nothing distinguishes `stop`'s `shutdown_helper` from a job that an
`executable` of the user returned this result for. `fullStep` admits that. Such a
worker is not there any more to answer `stop`, which goes on waiting for as many
answers as there were workers, and the job's reference is not released. So `stop`
gets past its loop only in runs in which no job has returned `shutdown`
(`shutdown_stays_unanswered`).
-/

namespace ActorsFramework.Executor

open Lib

variable {ω : Type*}

section Quits

/-- A job's `run` returns `shutdown`: the worker, and the job's activation. -/
def State.quits (s : State ω) : Act ω → Option (ω × ℕ)
  | .finish w .shutdown =>
    match s.worker w with
    | .running ⟨_, .job j⟩ => some (w, j)
    | _ => none
  | _ => none

/-- The jobs of a run that returned `shutdown`, each with its worker. -/
def quits (tr : List (State ω × Act ω)) : List (ω × ℕ) := tr.filterMap fun p => p.1.quits p.2

theorem mem_quits_concat {tr : List (State ω × Act ω)} {s : State ω} {a : Act ω} {p : ω × ℕ} :
    p ∈ quits (tr ++ [(s, a)]) ↔ p ∈ quits tr ∨ s.quits a = some p := by
  simp [quits]

variable [DecidableEq ω] [Fintype ω]

/-- The step function of the executor, with jobs whose `run` returns any result. -/
def fullStep (s : State ω) : Act ω → Option (State ω)
  | .finish w r =>
    match s.worker w with
    | .running ⟨n, .job j⟩ => some (s.setWorker w (.returned ⟨n, .job j⟩ r))
    | _ => none
  | a => step s a

/-- The executor, with jobs whose `run` returns any result. -/
def fullSystem (ω : Type*) [DecidableEq ω] [Fintype ω] : System (State ω) (Act ω) where
  Init s := s = {}
  step := fullStep

/-- A step is one of the moves, or a job returns `shutdown`. -/
theorem fullStep_cases {s s' : State ω} {a : Act ω} (h : fullStep s a = some s') :
    (Moves s s' ∧ s.quits a = none) ∨
    ∃ w n j, s.quits a = some (w, j) ∧ s.worker w = .running ⟨n, .job j⟩ ∧
      s' = s.setWorker w (.returned ⟨n, .job j⟩ .shutdown) := by
  cases a with
  | finish w r =>
    simp only [fullStep] at h
    split at h
    next n j hw =>
      cases h
      cases r with
      | shutdown => exact .inr ⟨w, n, j, by rw [State.quits, hw], hw, rfl⟩
      | _ => exact .inl ⟨.finish hw (by simp), rfl⟩
    next => cases h
  | execute => exact .inl ⟨moves_of_step (a := .execute) h, rfl⟩
  | take w => exact .inl ⟨moves_of_step (a := .take w) h, rfl⟩
  | spawn w => exact .inl ⟨moves_of_step (a := .spawn w) h, rfl⟩
  | ack w => exact .inl ⟨moves_of_step (a := .ack w) h, rfl⟩
  | settle w => exact .inl ⟨moves_of_step (a := .settle w) h, rfl⟩
  | stop => exact .inl ⟨moves_of_step (a := .stop) h, rfl⟩

end Quits

section Count

variable [Fintype ω]

/-- In how many places an activation is: entries of the queue, workers, releases. -/
def State.places (s : State ω) (j : ℕ) : ℕ :=
  s.queue.countP (Entry.isJob j) + tally (WorkerPc.holdsJob j) s.worker +
    (s.released.map Prod.snd).count j

theorem holdsJob_le_places (s : State ω) (w : ω) (j : ℕ) : (s.worker w).holdsJob j ≤ s.places j := by
  have := le_tally (WorkerPc.holdsJob j) s.worker w
  unfold State.places
  omega

variable [DecidableEq ω]

/-- One worker's step: the places change with what it holds, queues and releases. -/
theorem places_worker {s s' : State ω} {w : ω} {pc : WorkerPc} (j : ℕ)
    (hw : s'.worker = Function.update s.worker w pc) :
    s'.places j + (s.queue.countP (Entry.isJob j) + (s.worker w).holdsJob j +
      (s.released.map Prod.snd).count j) = s.places j + (s'.queue.countP (Entry.isJob j) +
      pc.holdsJob j + (s'.released.map Prod.snd).count j) := by
  have := tally_update (WorkerPc.holdsJob j) s.worker w pc
  unfold State.places
  rw [hw]
  omega

/-- One worker's step that duplicates nothing. -/
theorem places_le_of_worker {s s' : State ω} {w : ω} (pc : WorkerPc) {j : ℕ}
    (hw : s'.worker = Function.update s.worker w pc)
    (h : s'.queue.countP (Entry.isJob j) + pc.holdsJob j + (s'.released.map Prod.snd).count j ≤
      s.queue.countP (Entry.isJob j) + (s.worker w).holdsJob j + (s.released.map Prod.snd).count j) :
    s'.places j ≤ s.places j := by
  have := places_worker j hw
  omega

/-- A worker goes on with the entry it holds. -/
theorem places_setWorker {s : State ω} {w : ω} (pc : WorkerPc) (h : pc.held = (s.worker w).held)
    (j : ℕ) : (s.setWorker w pc).places j = s.places j := by
  have ht := tally_update (WorkerPc.holdsJob j) s.worker w pc
  have hj : pc.holdsJob j = (s.worker w).holdsJob j := by
    rw [WorkerPc.holdsJob, WorkerPc.holdsJob, h]
  simp only [State.places, State.setWorker]
  omega

/-- No move adds a place to an activation but the one that begins it. -/
theorem Moves.places_le {s s' : State ω} (hm : Moves s s') (j : ℕ) :
    s'.activations = s.activations ∧ s'.places j ≤ s.places j ∨
    s'.activations = s.activations + 1 ∧
      s'.places j ≤ s.places j + if s.activations = j then 1 else 0 := by
  cases hm with
  | execute | spawn =>
    refine .inr ⟨rfl, ?_⟩
    simp only [State.places, State.execute, State.enqueue, List.countP_append, List.countP_singleton,
      isJob_job, decide_eq_true_eq]
    omega
  | @take w e q hw hq =>
    refine .inl ⟨rfl, places_le_of_worker (w := w) (.running e) rfl ?_⟩
    simp only [State.setWorker, hq, hw, List.countP_cons, WorkerPc.holdsJob, WorkerPc.held]
    cases he : e.isJob j <;> simp [he]
  | finish hw => exact .inl ⟨rfl, places_le_of_worker _ rfl (by rw [hw]; exact le_rfl)⟩
  | ack hw => exact .inl ⟨rfl, places_le_of_worker _ rfl (by rw [hw]; exact le_rfl)⟩
  | @resume w e hw =>
    refine .inl ⟨rfl, places_le_of_worker (w := w) .dequeue rfl ?_⟩
    simp only [State.setWorker, State.enqueue, hw, List.countP_append, List.countP_singleton,
      WorkerPc.holdsJob, WorkerPc.held, Entry.isJob]
    by_cases he : e.task = .job j <;> simp [he]
  | @release w e r hw hr =>
    refine .inl ⟨rfl, places_le_of_worker (w := w) .dequeue rfl ?_⟩
    simp only [State.setWorker, State.release, hw, List.map_append, List.count_append, count_releases,
      WorkerPc.holdsJob, WorkerPc.held, Option.map_some, Option.getD_some, Option.map_none,
      Option.getD_none]
    omega
  | @exit w e hw =>
    refine .inl ⟨rfl, places_le_of_worker (w := w) .exited rfl ?_⟩
    simp [State.setWorker, WorkerPc.holdsJob, WorkerPc.held]
  | push => exact .inl ⟨rfl, by simp [State.places, State.enqueue, Entry.isJob]⟩
  | drain =>
    rw [s.drain_eq rfl]
    refine .inl ⟨rfl, ?_⟩
    simp only [State.places, List.map_append, List.count_append, count_releases_drain, List.countP_nil]
    omega
  | _ => exact .inl ⟨rfl, le_rfl⟩

/-- A worker that is done with its loop does nothing but end, and loses what it holds. -/
theorem Moves.acked_worker {s s' : State ω} (hm : Moves s s') {w : ω} (hw : (s.worker w).acked = true) :
    s'.worker w = s.worker w ∨ s'.worker w = .exited ∧ s'.queue = s.queue ∧ s'.released = s.released ∧
      s'.worker = Function.update s.worker w .exited := by
  have hne : ∀ {u : ω} {pc pc' : WorkerPc}, s.worker u = pc → pc.acked = false →
      Function.update s.worker u pc' w = s.worker w := by
    rintro u pc pc' rfl hu
    rw [Function.update_of_ne]
    rintro rfl
    rw [hu] at hw
    cases hw
  cases hm with
  | take h => exact .inl (hne h rfl)
  | @finish u n j r h hr => exact .inl (hne h rfl)
  | ack h => exact .inl (hne h rfl)
  | resume h => exact .inl (hne h rfl)
  | @release u e r h hr => exact .inl (hne h (by cases r <;> first | rfl | cases hr))
  | @exit u e h =>
    by_cases hu : w = u
    · subst hu
      exact .inr ⟨Function.update_self .., rfl, rfl, rfl⟩
    · exact .inl (Function.update_of_ne hu ..)
  | drain => rw [s.drain_eq rfl]; exact .inl rfl
  | _ => exact .inl rfl

end Count

/-! ### What a job that returns `shutdown` leaves behind -/

section Wedged

variable [Fintype ω] [DecidableEq ω]

/-- The worker has run the job, which returned `shutdown`, and its thread is about to end. -/
def State.Quit (s : State ω) (w : ω) (j : ℕ) : Prop :=
  (∃ n, s.worker w = .returned ⟨n, .job j⟩ .shutdown) ∨ s.worker w = .exited

omit [Fintype ω] [DecidableEq ω] in
theorem State.Quit.acked {s : State ω} {w : ω} {j : ℕ} (h : s.Quit w j) : (s.worker w).acked = true := by
  rcases h with ⟨n, h⟩ | h <;> rw [h] <;> rfl

/-- The invariant of a run. -/
structure Wedged (tr : List (State ω × Act ω)) (s : State ω) : Prop where
  /-- `last_worker` has answered. -/
  last : ∀ w, s.lastWorker = some w → w ∈ s.acks
  /-- Nobody else is struck off. -/
  struck : s.stop ≠ .notCalled → ∀ w, w ∉ s.alive → w ∈ s.acks
  /-- The loop ends when all are. -/
  nobody : s.stop.left = true → s.alive = ∅
  /-- Who has answered is done with its loop. -/
  acked : ∀ w ∈ s.acks, (s.worker w).acked = true
  /-- An activation is in one place at most, and in none before it begins. -/
  place : ∀ j, s.places j ≤ if j < s.activations then 1 else 0
  /-- Who has run a job that returned `shutdown` is done with its loop and does not answer. -/
  quit : ∀ p ∈ quits tr, s.Quit p.1 p.2 ∧ p.1 ∉ s.acks
  /-- Nobody but this worker has the job. -/
  lost : ∀ p ∈ quits tr, p.2 < s.activations ∧ s.places p.2 = (s.worker p.1).holdsJob p.2

omit [DecidableEq ω] in
theorem wedged_init : Wedged [] ({} : State ω) where
  last := by simp
  struck h := absurd rfl h
  nobody := by simp [StopPc.left]
  acked := by simp
  place j := by simp [State.places, tally, WorkerPc.holdsJob, WorkerPc.held]
  quit := by simp [quits]
  lost := by simp [quits]

/-- Only a worker that runs a shutdown entry answers. -/
theorem Moves.acks {s s' : State ω} (hm : Moves s s') :
    s'.acks = s.acks ∨ ∃ w n, s.worker w = .running ⟨n, .shutdown⟩ ∧ s'.acks = s.acks ++ [w] ∧
      (s'.worker w).acked = true := by
  cases hm with
  | ack hw => exact .inr ⟨_, _, hw, rfl, by simp [State.setWorker, WorkerPc.acked]⟩
  | drain => rw [s.drain_eq rfl]; exact .inl rfl
  | _ => exact .inl rfl

/-- What `stop` keeps true of its variables. -/
theorem Moves.stop {tr : List (State ω × Act ω)} {s s' : State ω} (h : Wedged tr s) (hm : Moves s s') :
    (∀ w, s'.lastWorker = some w → w ∈ s'.acks) ∧
    (s'.stop ≠ .notCalled → ∀ w, w ∉ s'.alive → w ∈ s'.acks) ∧
    (s'.stop.left = true → s'.alive = ∅) := by
  cases hm with
  | ack hw =>
    refine ⟨?_, fun hs w hal => List.mem_append_left _ (h.struck hs w hal), h.nobody⟩
    intro w hl
    obtain rfl := Option.some.inj hl
    simp
  | call => exact ⟨h.last, fun _ w hw => absurd (Finset.mem_univ w) hw, by simp [StopPc.left]⟩
  | push hs _ =>
    exact ⟨h.last, fun _ => h.struck (by simp [hs]), by simp [StopPc.left]⟩
  | leave hs ha => exact ⟨h.last, fun _ => h.struck (by simp [hs]), fun _ => ha⟩
  | wake hs _ => exact ⟨h.last, fun _ => h.struck (by simp [hs]), by simp [StopPc.left]⟩
  | erase hs =>
    refine ⟨h.last, fun _ w hw => ?_, by simp [StopPc.left]⟩
    by_cases hal : w ∈ s.alive
    · refine h.last w ?_
      simpa [hal] using hw
    · exact h.struck (by simp [hs]) w hal
  | reset hs => exact ⟨by simp, fun _ => h.struck (by simp [hs]), by simp [StopPc.left]⟩
  | join hs _ =>
    exact ⟨h.last, fun _ => h.struck (by simp [hs]), fun _ => h.nobody (by rw [hs]; rfl)⟩
  | drain hs =>
    rw [s.drain_eq rfl]
    exact ⟨h.last, fun _ => h.struck (by simp [hs]), fun _ => h.nobody (by rw [hs]; rfl)⟩
  | _ => exact ⟨h.last, h.struck, h.nobody⟩

/-- A move keeps the invariant. -/
theorem Wedged.moves {tr : List (State ω × Act ω)} {s s' : State ω} {a : Act ω} (h : Wedged tr s)
    (hm : Moves s s') (hq : s.quits a = none) : Wedged (tr ++ [(s, a)]) s' := by
  have hold : ∀ p ∈ quits (tr ++ [(s, a)]), p ∈ quits tr := by
    intro p hp
    rcases mem_quits_concat.mp hp with hp | hp
    · exact hp
    · rw [hq] at hp
      cases hp
  have hacked : ∀ w, (s.worker w).acked = true → (s'.worker w).acked = true := by
    intro w hw
    rcases hm.acked_worker hw with heq | ⟨heq, -⟩
    · rwa [heq]
    · rw [heq]
      rfl
  obtain ⟨hlast, hstruck, hnobody⟩ := hm.stop h
  refine ⟨hlast, hstruck, hnobody, ?_, fun j => ?_, fun p hp => ?_, fun p hp => ?_⟩
  · intro w hw
    rcases hm.acks with heq | ⟨u, n, -, heq, hu⟩
    · exact hacked w (h.acked w (heq ▸ hw))
    · rw [heq, List.mem_append, List.mem_singleton] at hw
      rcases hw with hw | rfl
      · exact hacked w (h.acked w hw)
      · exact hu
  · have hp := h.place j
    rcases hm.places_le j with ⟨ha, hle⟩ | ⟨ha, hle⟩
    · rw [ha]
      omega
    · rw [ha]
      split_ifs at hp hle ⊢ <;> omega
  · obtain ⟨hw, hna⟩ := h.quit p (hold p hp)
    constructor
    · rcases hm.acked_worker hw.acked with heq | ⟨heq, -⟩
      · rwa [State.Quit, heq]
      · exact .inr heq
    · rcases hm.acks with heq | ⟨u, n, hu, heq, -⟩
      · rwa [heq]
      · rw [heq, List.mem_append, List.mem_singleton]
        rintro (hp' | rfl)
        · exact hna hp'
        · have := hw.acked
          rw [hu] at this
          cases this
  · obtain ⟨hlt, hpl⟩ := h.lost p (hold p hp)
    have hle := holdsJob_le_places s' p.1 p.2
    rcases hm.acked_worker (h.quit p (hold p hp)).1.acked with heq | ⟨heq, hqu, hre, hwo⟩
    · rw [heq] at hle ⊢
      rcases hm.places_le p.2 with ⟨ha, hle'⟩ | ⟨ha, hle'⟩
      · exact ⟨by omega, by omega⟩
      · rw [if_neg (by omega)] at hle'
        exact ⟨by omega, by omega⟩
    · have hpw := places_worker (s := s) p.2 hwo
      rw [hqu, hre] at hpw
      rw [heq]
      have hact : s.activations ≤ s'.activations := by
        rcases hm.places_le p.2 with ⟨ha, -⟩ | ⟨ha, -⟩ <;> omega
      have h0 : WorkerPc.exited.holdsJob p.2 = 0 := rfl
      rw [h0] at hpw ⊢
      exact ⟨by omega, by omega⟩

/-- A job returns `shutdown`. -/
theorem Wedged.quits {tr : List (State ω × Act ω)} {s : State ω} {a : Act ω} (h : Wedged tr s) {w : ω}
    {n j : ℕ} (hq : s.quits a = some (w, j)) (hw : s.worker w = .running ⟨n, .job j⟩) :
    Wedged (tr ++ [(s, a)]) (s.setWorker w (.returned ⟨n, .job j⟩ .shutdown)) := by
  have hout : ∀ u, (s.worker u).acked = true → u ≠ w := by
    rintro u hu rfl
    rw [hw] at hu
    cases hu
  have hother : ∀ u, u ≠ w →
      (s.setWorker w (.returned ⟨n, .job j⟩ .shutdown)).worker u = s.worker u := fun u hu =>
    Function.update_of_ne hu ..
  have hself : (s.setWorker w (.returned ⟨n, .job j⟩ .shutdown)).worker w =
      .returned ⟨n, .job j⟩ .shutdown := Function.update_self ..
  have hplaces := places_setWorker (s := s) (w := w) (.returned ⟨n, .job j⟩ .shutdown)
    (by rw [hw]; rfl)
  have hheld : 1 ≤ s.places j := by
    have := holdsJob_le_places s w j
    rw [hw] at this
    simpa [WorkerPc.holdsJob, WorkerPc.held, Entry.isJob] using this
  have hcard := h.place j
  refine ⟨h.last, h.struck, h.nobody, fun u hu => ?_, fun i => ?_, fun p hp => ?_, fun p hp => ?_⟩
  · rw [hother u (hout u (h.acked u hu))]
    exact h.acked u hu
  · rw [hplaces]
    exact h.place i
  · rcases mem_quits_concat.mp hp with hp | hp
    · obtain ⟨hu, hna⟩ := h.quit p hp
      rw [State.Quit, hother _ (hout _ hu.acked)]
      exact ⟨hu, hna⟩
    · obtain rfl := Option.some.inj (hq.symm.trans hp)
      exact ⟨.inl ⟨n, hself⟩, fun hu => hout w (h.acked w hu) rfl⟩
  · rw [hplaces]
    rcases mem_quits_concat.mp hp with hp | hp
    · rw [hother _ (hout _ (h.quit p hp).1.acked)]
      exact h.lost p hp
    · obtain rfl := Option.some.inj (hq.symm.trans hp)
      have hone : (WorkerPc.returned ⟨n, .job j⟩ .shutdown).holdsJob j = 1 := by
        simp [WorkerPc.holdsJob, WorkerPc.held, Entry.isJob]
      rw [hself, hone]
      change j < s.activations ∧ s.places j = 1
      split_ifs at hcard with hlt
      · exact ⟨hlt, by omega⟩
      · omega

theorem wedged_of_run {tr : List (State ω × Act ω)} {s : State ω} (h : (fullSystem ω).Run tr s) :
    Wedged tr s := by
  induction h with
  | init h₀ => cases h₀; exact wedged_init
  | step _ hs ih =>
    rcases fullStep_cases hs with ⟨hm, hq⟩ | ⟨w, n, j, hq, hw, rfl⟩
    · exact ih.moves hm hq
    · exact ih.quits hq hw

/-- **A job that returns `shutdown` leaves `stop` waiting**, over every interleaving: from then
on its worker does nothing but end its thread and never answers `stop`, `stop` does not get
past its loop, and the job is never released. So `stop` returns only in runs in which no job
has returned `shutdown`. -/
theorem shutdown_stays_unanswered {tr : List (State ω × Act ω)} {s : State ω}
    (h : (fullSystem ω).Run tr s) :
    (∀ w j, (w, j) ∈ quits tr → s.Quit w j ∧ w ∉ s.acks ∧ s.stop.left = false ∧
      j ∉ s.released.map Prod.snd) ∧
    (s.stop = .returned → quits tr = []) := by
  have hi := wedged_of_run h
  have hleft : ∀ w j, (w, j) ∈ quits tr → s.stop.left = false := by
    intro w j hq
    by_contra hl
    have hl : s.stop.left = true := by simpa using hl
    have hne : s.stop ≠ .notCalled := by
      intro hst
      rw [hst] at hl
      cases hl
    refine (hi.quit _ hq).2 (hi.struck hne w ?_)
    rw [hi.nobody hl]
    exact Finset.notMem_empty w
  refine ⟨fun w j hq => ⟨(hi.quit _ hq).1, (hi.quit _ hq).2, hleft w j hq, ?_⟩, fun hs => ?_⟩
  · have hlost := (hi.lost _ hq).2
    have hle := le_tally (WorkerPc.holdsJob j) s.worker w
    rw [← List.count_eq_zero]
    unfold State.places at hlost
    simp only at hlost
    omega
  · by_contra hne
    obtain ⟨⟨w, j⟩, hp⟩ := List.exists_mem_of_ne_nil _ hne
    have := hleft w j hp
    rw [hs] at this
    cases this

/-- One of two workers runs a job that returns `shutdown`: the other one answers `stop`, which
then waits for an answer of the first. -/
theorem shutdown_stays_unanswered_two : ∃ (tr : List (State (Fin 2) × Act (Fin 2))) (s : State (Fin 2)),
    (fullSystem (Fin 2)).Run tr s ∧ quits tr = [(0, 0)] ∧ s.stop = .wait ∧ s.acks = [1] ∧
    (∀ w, s.worker w = .exited) ∧ (0 : ℕ) ∉ s.released.map Prod.snd := by
  have h := (((((((((((((((System.Run.init (T := fullSystem (Fin 2)) (s := {}) rfl).step
    (a := .execute) rfl).step (a := .take 0) rfl).step (a := .finish 0 .shutdown) rfl).step
    (a := .settle 0) rfl).step (a := .stop) rfl).step (a := .stop) rfl).step (a := .take 1) rfl).step
    (a := .ack 1) rfl).step (a := .settle 1) rfl).step (a := .stop) rfl).step (a := .stop) rfl).step
    (a := .stop) rfl).step (a := .stop) rfl))
  exact ⟨_, _, h, rfl, rfl, rfl, by decide,
    ((shutdown_stays_unanswered h).1 0 0 (List.mem_singleton.mpr rfl)).2.2.2⟩

end Wedged

end ActorsFramework.Executor
