import ActorsFramework.Executor.Shutdown
import ActorsFramework.Lib.Progress

/-!
# The end of `stop`

`executor_t::stop` waits: on its condition variable for a worker's answer, on the
workers' threads for their ends. Here it is shown that it never waits in vain.
Once it is called, and as long as it has not returned, some thread can take a step
that hands no further job to the executor; and there are only so many such steps.
`State.remaining` counts them: three for an entry of the queue, what is left of a
worker's turn of its loop, and seven for each worker that has not answered.
-/

namespace ActorsFramework.Executor

open Lib

variable {ω : Type*}

/-- The action hands no job to the executor, and no job asks for another run. -/
def Act.closing : Act ω → Bool
  | .execute => false
  | .spawn _ => false
  | .finish _ r => r ≠ .resume
  | _ => true

/-- The steps left of a turn of a worker's loop, those of the entry it puts back included. -/
def WorkerPc.remaining : WorkerPc → ℕ
  | .dequeue => 0
  | .running _ => 2
  | .returned _ .resume => 4
  | .returned _ _ => 1
  | .exited => 0

/-- The steps left of `stop` with `n` workers alive, those of the entries it pushes included. -/
def StopPc.remaining (n : ℕ) : StopPc → ℕ
  | .notCalled => 7 * n + 4
  | .head => 7 * n + 3
  | .wait => 7 * n - 1
  | .erase => 7 * n - 2
  | .reset => 7 * n + 4
  | .join => 2
  | .drain => 1
  | .returned => 0

/-- A bound on the steps left, if no job is handed to the executor. -/
def State.remaining [Fintype ω] (s : State ω) : ℕ :=
  3 * s.queue.length + tally WorkerPc.remaining s.worker + s.stop.remaining s.alive.card

section Steps

variable [DecidableEq ω] [Fintype ω] {s s' : State ω}

/-- One worker's step. -/
theorem remaining_worker {w : ω} {pc : WorkerPc} {s₁ : State ω} {n : ℕ} (hst : s₁.stop = s.stop)
    (hal : s₁.alive = s.alive) (hw : s₁.worker = Function.update s.worker w pc)
    (hq : s₁.queue.length = n)
    (hlt : 3 * n + pc.remaining < 3 * s.queue.length + (s.worker w).remaining) :
    s₁.remaining < s.remaining := by
  have := tally_update WorkerPc.remaining s.worker w pc
  unfold State.remaining
  rw [hst, hal, hw, hq]
  omega

/-- `stop`, once called, goes on. -/
theorem Moves.called (h : Moves s s') (hs : s.stop ≠ .notCalled) : s'.stop ≠ .notCalled := by
  cases h with
  | call h => exact absurd h hs
  | push | leave | wake | erase | reset | join | drain => simp
  | _ => exact hs

/-- A step of `stop` brings it nearer to its end. -/
theorem remaining_stopStep (hh : Handshake s) (hs : s.stop ≠ .notCalled)
    (h : stopStep s = some s') : s'.remaining < s.remaining := by
  unfold stopStep at h
  split at h
  next hst => exact absurd hst hs
  next hst =>
    split_ifs at h with ha
    · cases h
      simp only [State.remaining, hst, StopPc.remaining]
      omega
    · cases h
      have hpos := Finset.card_pos.mpr (Finset.nonempty_iff_ne_empty.mpr ha)
      simp only [State.remaining, State.enqueue, hst, StopPc.remaining, List.length_append,
        List.length_singleton]
      omega
  next hst =>
    split_ifs at h with hl
    cases h
    have hpos := Finset.card_pos.mpr (Finset.nonempty_iff_ne_empty.mpr (hh.somebody hst))
    simp only [State.remaining, hst, StopPc.remaining]
    omega
  next hst =>
    cases h
    obtain ⟨w, hl⟩ := Option.ne_none_iff_exists'.mp (hh.answered (.inl hst))
    have hw : w ∈ s.alive := (hh.alive hs w).mpr (.inr ⟨.inr hst, hl⟩)
    have hcard : (s.alive \ {w}).card = s.alive.card - 1 := by
      rw [Finset.sdiff_singleton_eq_erase, Finset.card_erase_of_mem hw]
    have hpos := Finset.card_pos.mpr ⟨w, hw⟩
    simp only [State.remaining, hst, StopPc.remaining, hl, Option.toFinset_some, hcard]
    omega
  next hst =>
    cases h
    simp only [State.remaining, hst, StopPc.remaining]
    omega
  next hst =>
    split_ifs at h
    cases h
    simp only [State.remaining, hst, StopPc.remaining]
    omega
  next hst =>
    cases h
    rw [s.drain_eq rfl]
    simp only [State.remaining, hst, StopPc.remaining, List.length_nil]
    omega
  next => cases h

/-- `stop` moves no worker. -/
theorem worker_stopStep (h : stopStep s = some s') : s'.worker = s.worker := by
  unfold stopStep at h
  split at h
  next => cases h; rfl
  next => split_ifs at h <;> cases h <;> rfl
  next =>
    split_ifs at h
    cases h
    rfl
  next => cases h; rfl
  next => cases h; rfl
  next =>
    split_ifs at h
    cases h
    rfl
  next =>
    cases h
    rw [s.drain_eq rfl]
  next => cases h

/-- Every step that hands no job to the executor brings `stop` nearer to its end. -/
theorem remaining_step (hh : Handshake s) (hs : s.stop ≠ .notCalled) {a : Act ω}
    (ha : a.closing = true) (h : step s a = some s') : s'.remaining < s.remaining := by
  cases a with
  | execute => cases ha
  | spawn w => cases ha
  | take w =>
    simp only [step] at h
    split at h
    next hw hq =>
      cases h
      refine remaining_worker rfl rfl rfl rfl ?_
      rw [hw, hq, List.length_cons]
      simp only [WorkerPc.remaining]
      omega
    next => cases h
  | finish w r =>
    have hne : r ≠ .resume := by simpa [Act.closing] using ha
    simp only [step] at h
    split at h
    next hw =>
      split_ifs at h with hr
      cases h
      refine remaining_worker rfl rfl rfl rfl ?_
      rw [hw]
      cases r with
      | resume => exact absurd rfl hne
      | _ => simp [State.setWorker, WorkerPc.remaining]
    next => cases h
  | ack w =>
    simp only [step] at h
    split at h
    next hw =>
      cases h
      refine remaining_worker rfl rfl rfl rfl ?_
      rw [hw]
      simp [State.setWorker, WorkerPc.remaining]
    next => cases h
  | settle w =>
    simp only [step] at h
    split at h
    next e r hw =>
      cases r with
      | resume =>
        cases h
        refine remaining_worker rfl rfl rfl rfl ?_
        rw [hw]
        simp only [State.setWorker, State.enqueue, List.length_append, List.length_singleton,
          WorkerPc.remaining]
        omega
      | awaiting | done | shutdown =>
        cases h
        refine remaining_worker rfl rfl rfl rfl ?_
        rw [hw]
        simp [State.setWorker, State.release, WorkerPc.remaining]
    next => cases h
  | stop => exact remaining_stopStep hh hs h

/-- A worker that has not ended, with an entry in the queue if it is waiting for one, can
take a step. -/
theorem worker_enabled {w : ω} (hw : s.worker w ≠ .exited) (hq : s.worker w = .dequeue → s.queue ≠ []) :
    ∃ a s', Act.closing a = true ∧ step s a = some s' := by
  cases hpc : s.worker w with
  | dequeue =>
    obtain ⟨e, q, he⟩ := List.exists_cons_of_ne_nil (hq hpc)
    exact ⟨.take w, _, rfl, by rw [step, hpc, he]⟩
  | running e =>
    obtain ⟨n, task⟩ := e
    cases task with
    | job j => exact ⟨.finish w .done, _, rfl, by rw [step, hpc]; rfl⟩
    | shutdown => exact ⟨.ack w, _, rfl, by rw [step, hpc]⟩
  | returned e r => cases r <;> exact ⟨.settle w, _, rfl, by rw [step, hpc]; rfl⟩
  | exited => exact absurd hpc hw

/-- Until `stop` has returned, it can take a step, or there is a worker that can. -/
theorem stop_or_worker (hh : Handshake s) (hs : s.stop ≠ .notCalled) (hr : s.stop ≠ .returned) :
    (∃ s', stopStep s = some s') ∨ ∃ w, s.worker w ≠ .exited ∧ (s.worker w = .dequeue → s.queue ≠ []) := by
  cases hst : s.stop with
  | notCalled => exact absurd hst hs
  | head =>
    by_cases ha : s.alive = ∅
    · exact .inl ⟨_, by rw [stopStep, hst]; exact if_pos ha⟩
    · exact .inl ⟨_, by rw [stopStep, hst]; exact if_neg ha⟩
  | wait =>
    cases hl : s.lastWorker with
    | some w => exact .inl ⟨_, by rw [stopStep, hst, hl]; rfl⟩
    | none =>
      -- the round's entry is in the queue, or a worker is about to run it
      have hone := hh.one
      rw [hl, hst] at hone
      simp only [Option.toList_none, List.length_nil, StopPc.inRound, Bool.toNat_true] at hone
      by_cases hu : tally WorkerPc.unacked s.worker = 0
      · obtain ⟨w, hw⟩ := Finset.nonempty_iff_ne_empty.mpr (hh.somebody hst)
        have hna : w ∉ s.acks := by
          have := (hh.alive hs w).mp hw
          simpa [hl] using this
        refine .inr ⟨w, ?_, ?_⟩
        · intro hx
          exact hna ((hh.acked w).mp (by rw [hx]; rfl))
        · intro _ hq
          unfold State.pending at hone
          rw [hq, hu] at hone
          simp at hone
      · obtain ⟨w, hw⟩ := not_forall.mp (mt tally_eq_zero.mpr hu)
        refine .inr ⟨w, ?_, ?_⟩
        · intro hx
          rw [hx] at hw
          exact hw rfl
        · intro hx
          rw [hx] at hw
          exact absurd rfl hw
  | erase => exact .inl ⟨_, by rw [stopStep, hst]⟩
  | reset => exact .inl ⟨_, by rw [stopStep, hst]⟩
  | join =>
    by_cases hx : ∀ w, s.worker w = .exited
    · exact .inl ⟨_, by rw [stopStep, hst]; exact if_pos hx⟩
    · -- everybody has answered: whoever has not ended yet is about to
      obtain ⟨w, hw⟩ := not_forall.mp hx
      refine .inr ⟨w, hw, fun hd => ?_⟩
      have hal := (hh.alive hs w).mpr
      rw [hh.nobody (by rw [hst]; rfl)] at hal
      have hack : w ∈ s.acks := by
        by_contra hna
        exact absurd (hal (.inl hna)) (Finset.notMem_empty w)
      rw [← hh.acked, hd] at hack
      cases hack
  | drain => exact .inl ⟨_, by rw [stopStep, hst]⟩
  | returned => exact absurd hst hr

/-- Until `stop` has returned, somebody can take a step. -/
theorem stop_enabled (hh : Handshake s) (hs : s.stop ≠ .notCalled) (hr : s.stop ≠ .returned) :
    ∃ a s', Act.closing a = true ∧ step s a = some s' := by
  rcases stop_or_worker hh hs hr with ⟨s', h⟩ | ⟨w, hw, hq⟩
  · exact ⟨.stop, s', rfl, h⟩
  · exact worker_enabled hw hq

/-- The steps that hand no job to the executor lead to the end of `stop`. -/
theorem stop_progress : Progress (system ω) (fun _ a => a.closing)
    (fun s => (system ω).Reachable s ∧ s.stop ≠ .notCalled) State.remaining
    (fun s => s.stop = .returned) where
  keep := by
    rintro s a s' ⟨⟨tr, hr⟩, hs⟩ _ h
    exact ⟨⟨_, hr.step h⟩, (moves_of_step h).called hs⟩
  lower hI hc h := remaining_step (handshake_of_reachable hI.1) hI.2 hc h
  enabled hI hG := stop_enabled (handshake_of_reachable hI.1) hI.2 hG

/-- **`stop` returns**, whatever the interleaving: from every reachable state in which it has
been called, a run in which no job is handed to the executor and none asks to be resumed has
at most `s.remaining` steps, and where it cannot go on `stop` has returned; such a run exists.
So no thread ever waits for something that cannot happen any more. -/
theorem stop_returns (h : (system ω).Reachable s) (hs : s.stop ≠ .notCalled) :
    (∀ as s', (system ω).replay (fun _ a => a.closing) s as = some s' →
      as.length ≤ s.remaining ∧
      ((∀ a, (system ω).replay (fun _ a => a.closing) s (as ++ [a]) = none) → s'.stop = .returned)) ∧
    ∃ as s', (system ω).replay (fun _ a => a.closing) s as = some s' ∧ s'.stop = .returned := by
  refine ⟨fun as s' hr => ⟨?_, ?_⟩, stop_progress.reaches ⟨h, hs⟩⟩
  · have hle := (stop_progress.length_le ⟨h, hs⟩ hr).2
    omega
  · exact stop_progress.goal_of_stuck ⟨h, hs⟩ hr

/-- Two workers, one of them with a job, another job queued, when `stop` is called. -/
theorem stop_returns_two : ∃ s : State (Fin 2), s.remaining = 22 ∧ s.stop = .head ∧
    ∃ as s', (system (Fin 2)).replay (fun _ a => a.closing) s as = some s' ∧ s'.stop = .returned := by
  obtain ⟨s, hs, hr, hst⟩ : ∃ s, (system (Fin 2)).replay (fun _ _ => true) {}
      [.execute, .execute, .take 0, .stop] = some s ∧ s.remaining = 22 ∧ s.stop = .head :=
    ⟨_, rfl, rfl, rfl⟩
  exact ⟨s, hr, hst, (stop_returns (.of_replay rfl hs) (by rw [hst]; simp)).2⟩

end Steps

end ActorsFramework.Executor
