import ActorsFramework.Executor.Shutdown

/-!
# What becomes of the jobs

Every entry ever pushed is in exactly one place: in the central queue, held by
one worker, or done with; and every activation of a job is under way in exactly
one entry, or has been released exactly once. Both are counting invariants over
all interleavings of the threads that push, the workers and the stopping thread
(`Accounting`). When `stop` returns the queue is empty and no worker holds
anything, so every activation has been released (`job_accounting`).
-/

namespace ActorsFramework.Executor

open Lib

variable {ω : Type*}

/-- The entry is one of the given activation. -/
def Entry.isJob (j : ℕ) (e : Entry) : Bool := e.task = .job j

/-- The worker holds the entry. -/
def WorkerPc.holds (e : Entry) (pc : WorkerPc) : Bool := pc.held = some e

/-- `1` for a worker that holds an entry of the given activation. -/
def WorkerPc.holdsJob (j : ℕ) (pc : WorkerPc) : ℕ := (pc.held.map fun e => (e.isJob j).toNat).getD 0

/-- What an entry's release adds, by activation. -/
theorem count_releases (e : Entry) (o : Option (ω × ExecutableResult)) (j : ℕ) :
    ((e.releases o).map Prod.snd).count j = (e.isJob j).toNat := by
  obtain ⟨n, t⟩ := e
  cases t with
  | shutdown => simp [Entry.releases, Entry.isJob]
  | job i => by_cases h : i = j <;> simp [Entry.releases, Entry.isJob, h]

theorem count_releases_drain (es : List Entry) (j : ℕ) :
    ((es.flatMap fun e => e.releases (none : Option (ω × ExecutableResult))).map Prod.snd).count j =
      es.countP (Entry.isJob j) := by
  induction es with
  | nil => rfl
  | cons e es ih =>
    rw [List.flatMap_cons, List.map_append, List.count_append, ih, count_releases, List.countP_cons]
    cases e.isJob j <;> simp [Nat.add_comm]

/-- A release is recorded under who made it. -/
theorem eq_of_mem_releases {e : Entry} {o o' : Option (ω × ExecutableResult)} {j : ℕ}
    (h : (o', j) ∈ e.releases o) : o' = o := by
  obtain ⟨n, t⟩ := e
  cases t with
  | shutdown => simp [Entry.releases] at h
  | job i =>
    simp only [Entry.releases, List.mem_singleton, Prod.mk.injEq] at h
    exact h.1

theorem result_of_release {r : ExecutableResult} (h : r.disposition = .release) :
    r = .done ∨ r = .awaiting := by
  cases r with
  | resume => cases h
  | awaiting => exact .inr rfl
  | done => exact .inl rfl
  | shutdown => cases h

section Count

variable [Fintype ω]

/-- What is true of entries and activations at each moment. -/
structure Accounting (s : State ω) : Prop where
  /-- Entries are taken in the order they were pushed. -/
  fifo : s.taken.map Prod.snd ++ s.queue = s.pushed
  /-- The pushes are numbered. -/
  numbered : s.pushed.map Entry.seq = List.range s.pushed.length
  /-- Every entry is in one place. -/
  place : ∀ e, s.queue.count e + tally (fun pc => (pc.holds e).toNat) s.worker + s.finished.count e =
    s.pushed.count e
  /-- Every activation is in one entry or released. -/
  job : ∀ j, s.queue.countP (Entry.isJob j) + tally (WorkerPc.holdsJob j) s.worker +
    (s.released.map Prod.snd).count j = if j < s.activations then 1 else 0
  /-- A worker that releases a job does so because its `run` has returned `done` or `awaiting`. -/
  result : ∀ w r j, (some (w, r), j) ∈ s.released → r = .done ∨ r = .awaiting
  /-- Once joined, the workers have ended. -/
  joined : s.stop.joined = true → ∀ w, s.worker w = .exited
  /-- `stop` returns with an empty queue. -/
  drained : s.stop = .returned → s.queue = []

theorem accounting_init : Accounting ({} : State ω) where
  fifo := rfl
  numbered := rfl
  place e := by simp [tally, WorkerPc.holds, WorkerPc.held]
  job j := by simp [tally, WorkerPc.holdsJob, WorkerPc.held]
  result := by simp
  joined := by simp [StopPc.joined]
  drained := by simp

/-- A step of `stop` that touches only its own variables. -/
theorem Accounting.frame {s s' : State ω} (h : Accounting s) (hq : s'.queue = s.queue)
    (hw : s'.worker = s.worker) (hp : s'.pushed = s.pushed) (ht : s'.taken = s.taken)
    (hf : s'.finished = s.finished) (hr : s'.released = s.released)
    (ha : s'.activations = s.activations)
    (hj : s'.stop.joined = true → ∀ w, s.worker w = .exited) (hd : s'.stop ≠ .returned) :
    Accounting s' where
  fifo := by rw [ht, hq, hp]; exact h.fifo
  numbered := by rw [hp]; exact h.numbered
  place := by rw [hq, hw, hf, hp]; exact h.place
  job := by rw [hq, hw, hr, ha]; exact h.job
  result := by rw [hr]; exact h.result
  joined := by rw [hw]; exact hj
  drained hs := absurd hs hd

theorem numbered_concat {l : List Entry} (h : l.map Entry.seq = List.range l.length) (t : Task) :
    (l ++ [Entry.mk l.length t]).map Entry.seq = List.range (l ++ [Entry.mk l.length t]).length := by
  rw [List.map_append, h, List.length_append, List.length_singleton, List.range_succ]
  rfl

/-- Numbered pushes are different entries. -/
theorem nodup_of_numbered {l : List Entry} (h : l.map Entry.seq = List.range l.length) : l.Nodup :=
  List.Nodup.of_map Entry.seq (h ▸ List.nodup_range)

theorem isJob_job (i j n : ℕ) : Entry.isJob j ⟨n, .job i⟩ = decide (i = j) := by
  simp [Entry.isJob]

theorem Accounting.fifo_enqueue {s : State ω} (h : Accounting s) (t : Task) :
    s.taken.map Prod.snd ++ (s.enqueue t).queue = (s.enqueue t).pushed := by
  unfold State.enqueue
  rw [← List.append_assoc, h.fifo]

theorem Accounting.place_enqueue {s : State ω} (h : Accounting s) (t : Task) (e : Entry) :
    (s.enqueue t).queue.count e + tally (fun pc => (pc.holds e).toNat) s.worker + s.finished.count e =
      (s.enqueue t).pushed.count e := by
  have := h.place e
  simp only [State.enqueue, List.count_append]
  omega

/-- A worker that has not ended has not been joined. -/
theorem Accounting.not_joined {s : State ω} (h : Accounting s) {w : ω} (hw : s.worker w ≠ .exited) :
    s.stop.joined = false := by
  by_contra hj
  exact hw (h.joined (by simpa using hj) w)

/-- A push of a job begins an activation. -/
theorem Accounting.execute {s : State ω} (h : Accounting s) (hl : s.stop.joined = false) :
    Accounting s.execute where
  fifo := h.fifo_enqueue _
  numbered := numbered_concat h.numbered _
  place := h.place_enqueue _
  job j := by
    have := h.job j
    change (s.queue ++ [Entry.mk s.pushed.length (.job s.activations)]).countP (Entry.isJob j) +
      tally (WorkerPc.holdsJob j) s.worker + (s.released.map Prod.snd).count j =
      if j < s.activations + 1 then 1 else 0
    rw [List.countP_append, List.countP_singleton, isJob_job]
    rcases lt_trichotomy j s.activations with hlt | rfl | hgt
    · rw [if_pos hlt] at this
      rw [if_pos (by omega : j < s.activations + 1), if_neg (by simp; omega)]
      omega
    · rw [if_neg (lt_irrefl _)] at this
      rw [if_pos (Nat.lt_succ_self _), if_pos (by simp)]
      omega
    · rw [if_neg (by omega)] at this
      rw [if_neg (by omega : ¬ j < s.activations + 1), if_neg (by simp; omega)]
      omega
  result := h.result
  joined hj := by
    change s.stop.joined = true at hj
    rw [hl] at hj
    cases hj
  drained hs := by
    change s.stop = .returned at hs
    rw [hs] at hl
    cases hl

/-- A push of a shutdown entry begins none. -/
theorem Accounting.push {s : State ω} (h : Accounting s) (n : ℕ) :
    Accounting { s.enqueue .shutdown with stop := .wait, rounds := n } where
  fifo := h.fifo_enqueue _
  numbered := numbered_concat h.numbered _
  place := h.place_enqueue _
  job j := by
    have hq : (s.enqueue .shutdown).queue.countP (Entry.isJob j) = s.queue.countP (Entry.isJob j) := by
      simp [State.enqueue, Entry.isJob]
    have := h.job j
    rw [← hq] at this
    exact this
  result := h.result
  joined := nofun
  drained := nofun

/-- The drain finishes what is in the queue and releases its jobs. -/
theorem Accounting.drain {s : State ω} (h : Accounting s) (hs : s.stop = .drain) :
    Accounting { s.drain s.queue with stop := .returned } := by
  rw [State.drain_eq s rfl]
  refine ⟨?_, h.numbered, fun e => ?_, fun j => ?_, fun w r j hm => ?_, fun _ => ?_, fun _ => rfl⟩
  · have : (s.queue.map fun e => ((none : Option ω), e)).map Prod.snd = s.queue := by
      rw [List.map_map]
      exact List.map_id _
    rw [List.map_append, this, List.append_nil, h.fifo]
  · have := h.place e
    simp only [List.count_nil, List.count_append]
    omega
  · have := h.job j
    simp only [List.countP_nil, List.map_append, List.count_append, count_releases_drain]
    omega
  · rcases List.mem_append.mp hm with hm | hm
    · exact h.result w r j hm
    · obtain ⟨e, -, he⟩ := List.mem_flatMap.mp hm
      cases eq_of_mem_releases he
  · exact h.joined (by rw [hs]; rfl)

/-- With no worker left and nothing queued, every activation has been released. -/
theorem Accounting.released_once {s : State ω} (h : Accounting s) (hs : s.stop = .returned) {j : ℕ}
    (hj : j < s.activations) : (s.released.map Prod.snd).count j = 1 := by
  have hex := h.joined (by rw [hs]; rfl)
  have hw : tally (WorkerPc.holdsJob j) s.worker = 0 := tally_eq_zero.mpr fun w => by rw [hex w]; rfl
  have := h.job j
  rw [h.drained hs, hw, if_pos hj] at this
  simpa using this

end Count

section Worker

variable [DecidableEq ω] [Fintype ω]

/-- What a move of one worker must account for. -/
theorem Accounting.worker {s s' : State ω} (h : Accounting s) {w : ω} (pc : WorkerPc)
    (hst : s'.stop = s.stop) (hwo : s'.worker = Function.update s.worker w pc)
    (hne : s.worker w ≠ .exited) (ha : s'.activations = s.activations)
    (hfifo : s'.taken.map Prod.snd ++ s'.queue = s'.pushed)
    (hnum : s'.pushed.map Entry.seq = List.range s'.pushed.length)
    (hplace : ∀ e, s'.queue.count e + (pc.holds e).toNat + s'.finished.count e + s.pushed.count e =
      s.queue.count e + ((s.worker w).holds e).toNat + s.finished.count e + s'.pushed.count e)
    (hjob : ∀ j, s'.queue.countP (Entry.isJob j) + pc.holdsJob j + (s'.released.map Prod.snd).count j =
      s.queue.countP (Entry.isJob j) + (s.worker w).holdsJob j + (s.released.map Prod.snd).count j)
    (hres : ∀ w r j, (some (w, r), j) ∈ s'.released → r = .done ∨ r = .awaiting) : Accounting s' := by
  have hjoin := h.not_joined hne
  refine ⟨hfifo, hnum, fun e => ?_, fun j => ?_, hres, fun hj => ?_, fun hs => ?_⟩
  · have hp := h.place e
    have ht := tally_update (fun pc => (pc.holds e).toNat) s.worker w pc
    have := hplace e
    rw [hwo]
    omega
  · have hp := h.job j
    have ht := tally_update (WorkerPc.holdsJob j) s.worker w pc
    have := hjob j
    rw [hwo, ha]
    omega
  · rw [hst, hjoin] at hj
    cases hj
  · rw [hst] at hs
    rw [hs] at hjoin
    cases hjoin

/-- A worker takes the first entry. -/
theorem Accounting.take {s : State ω} (h : Accounting s) {w : ω} {e : Entry} {q : List Entry}
    (hw : s.worker w = .dequeue) (hq : s.queue = e :: q) :
    Accounting { s.setWorker w (.running e) with queue := q, taken := s.taken ++ [(some w, e)] } := by
  refine h.worker (.running e) rfl rfl (by simp [hw]) rfl ?_ h.numbered ?_ ?_ h.result
  · change (s.taken ++ [(some w, e)]).map Prod.snd ++ q = s.pushed
    rw [← h.fifo, hq, List.map_append, List.append_assoc]
    rfl
  · intro e'
    simp only [State.setWorker, hq, hw, List.count_cons, WorkerPc.holds, WorkerPc.held]
    by_cases he : e = e' <;> simp [he]
  · intro j
    simp only [State.setWorker, hq, hw, List.countP_cons, WorkerPc.holdsJob, WorkerPc.held]
    cases he : e.isJob j <;> simp [he]

/-- A job that returned `resume` is put back, as another entry of the same activation. -/
theorem Accounting.resume {s : State ω} (h : Accounting s) {w : ω} {e : Entry}
    (hw : s.worker w = .returned e .resume) :
    Accounting (({ s with finished := s.finished ++ [e] }.enqueue e.task).setWorker w .dequeue) := by
  refine h.worker _ rfl rfl (by simp [hw]) rfl ?_ (numbered_concat h.numbered _) ?_ ?_ h.result
  · have := h.fifo
    simp only [State.setWorker, State.enqueue]
    rw [← List.append_assoc, this]
  · intro e'
    simp only [State.setWorker, State.enqueue, hw, List.count_append, WorkerPc.holds, WorkerPc.held]
    by_cases he : e = e' <;> simp [he] <;> omega
  · intro j
    simp only [State.setWorker, State.enqueue, hw, List.countP_append, List.countP_singleton,
      WorkerPc.holdsJob, WorkerPc.held]
    cases he : e.isJob j <;> simp_all [Entry.isJob]

/-- A job that returned `done` or `awaiting` is released. -/
theorem Accounting.release {s : State ω} (h : Accounting s) {w : ω} {e : Entry} {r : ExecutableResult}
    (hw : s.worker w = .returned e r) (hr : r.disposition = .release) :
    Accounting (({ s with finished := s.finished ++ [e] }.release (some (w, r)) e).setWorker w
      .dequeue) := by
  refine h.worker _ rfl rfl (by simp [hw]) rfl h.fifo h.numbered ?_ ?_ ?_
  · intro e'
    simp only [State.setWorker, State.release, hw, List.count_append, WorkerPc.holds, WorkerPc.held]
    by_cases he : e = e'
    · simp [he]; omega
    · simp [he]
  · intro j
    simp only [State.setWorker, State.release, hw, List.map_append, List.count_append, count_releases,
      WorkerPc.holdsJob, WorkerPc.held]
    simp
    omega
  · intro v r' j hmem
    rcases List.mem_append.mp hmem with hmem | hmem
    · exact h.result v r' j hmem
    · cases eq_of_mem_releases hmem
      exact result_of_release hr

/-- A worker that has run a shutdown entry exits, and finishes it. -/
theorem Accounting.exit {s : State ω} (h : Accounting s) {w : ω} {e : Entry}
    (hw : s.worker w = .returned e .shutdown) (hsh : e.isShutdown = true) :
    Accounting ({ s with finished := s.finished ++ [e] }.setWorker w .exited) := by
  refine h.worker _ rfl rfl (by simp [hw]) rfl h.fifo h.numbered ?_ ?_ h.result
  · intro e'
    simp only [State.setWorker, hw, List.count_append, WorkerPc.holds, WorkerPc.held]
    by_cases he : e = e'
    · simp [he]; omega
    · simp [he]
  · intro j
    simp only [Entry.isShutdown, decide_eq_true_eq] at hsh
    simp [State.setWorker, hw, WorkerPc.holdsJob, WorkerPc.held, Entry.isJob, hsh]

/-- A worker whose entry stays with it. -/
theorem Accounting.keep {s s' : State ω} (h : Accounting s) {w : ω} {pc : WorkerPc}
    (hw' : s'.worker = Function.update s.worker w pc) (hne : s.worker w ≠ .exited)
    (hheld : pc.held = (s.worker w).held) (hq : s'.queue = s.queue) (hp : s'.pushed = s.pushed)
    (ht : s'.taken = s.taken) (hf : s'.finished = s.finished) (hr : s'.released = s.released)
    (hst : s'.stop = s.stop) (ha : s'.activations = s.activations) : Accounting s' := by
  refine h.worker pc hst hw' hne ha ?_ ?_ (fun e => ?_) (fun j => ?_) (by rw [hr]; exact h.result)
  · rw [ht, hq, hp]
    exact h.fifo
  · rw [hp]
    exact h.numbered
  · rw [hq, hf, hp, WorkerPc.holds, WorkerPc.holds, hheld]
  · rw [hq, hr, WorkerPc.holdsJob, WorkerPc.holdsJob, hheld]

/-- The accounting is kept by every move. -/
theorem Accounting.moves {s s' : State ω} (h : Accounting s) (hh : Handshake s) (hm : Moves s s') :
    Accounting s' := by
  cases hm with
  | execute hj => exact h.execute hj
  | spawn hw => exact h.execute (h.not_joined (by rw [hw]; nofun))
  | take hw hq => exact h.take hw hq
  | finish hw _ => exact h.keep rfl (by rw [hw]; nofun) (by rw [hw]; rfl) rfl rfl rfl rfl rfl rfl rfl
  | ack hw => exact h.keep rfl (by rw [hw]; nofun) (by rw [hw]; rfl) rfl rfl rfl rfl rfl rfl rfl
  | resume hw => exact h.resume hw
  | release hw hr => exact h.release hw hr
  | exit hw => exact h.exit hw ((hh.result _ _ _ hw).mpr rfl)
  | drain hs => exact h.drain hs
  | call => exact h.frame rfl rfl rfl rfl rfl rfl rfl nofun nofun
  | push => exact h.push _
  | leave => exact h.frame rfl rfl rfl rfl rfl rfl rfl nofun nofun
  | wake => exact h.frame rfl rfl rfl rfl rfl rfl rfl nofun nofun
  | erase => exact h.frame rfl rfl rfl rfl rfl rfl rfl nofun nofun
  | reset => exact h.frame rfl rfl rfl rfl rfl rfl rfl nofun nofun
  | join _ hw => exact h.frame rfl rfl rfl rfl rfl rfl rfl (fun _ => hw) nofun

theorem accounting_of_reachable {s : State ω} (h : (system ω).Reachable s) : Accounting s :=
  (Reachable.of_moves (I := fun s => Handshake s ∧ Accounting s) ⟨handshake_init, accounting_init⟩
    (fun _ _ hs hm => ⟨hs.1.moves hm, hs.2.moves hs.1 hm⟩) h).2

/-- **Job accounting**, over every interleaving: the pushes are distinct, and each is in
exactly one of the queue, one worker and the finished; entries are taken in the order
they were pushed; a worker releases a job only on `done` or `awaiting`, and nothing is
ever released twice. When `stop` has returned the queue is empty and every activation
has been released exactly once. -/
theorem job_accounting {s : State ω} (h : (system ω).Reachable s) :
    s.pushed.Nodup ∧
    (∀ e ∈ s.pushed, s.queue.count e + (Finset.univ.filter fun w => (s.worker w).holds e).card +
      s.finished.count e = 1) ∧
    s.taken.map Prod.snd ++ s.queue = s.pushed ∧
    (∀ w r j, (some (w, r), j) ∈ s.released → r = .done ∨ r = .awaiting) ∧
    (∀ j, (s.released.map Prod.snd).count j ≤ 1) ∧
    (s.stop = .returned →
      s.queue = [] ∧ ∀ j < s.activations, (s.released.map Prod.snd).count j = 1) := by
  have ha := accounting_of_reachable h
  have hn := nodup_of_numbered ha.numbered
  refine ⟨hn, ?_, ha.fifo, ha.result, ?_, ?_⟩
  · intro e he
    rw [card_filter_eq_tally, ha.place e]
    exact List.count_eq_one_of_mem hn he
  · intro j
    have := ha.job j
    split_ifs at this <;> omega
  · intro hs
    exact ⟨ha.drained hs, fun j hj => ha.released_once hs hj⟩

/-- One worker, a job it resumes and releases, and a job left to the drain. -/
theorem job_accounting_one : ∃ s : State (Fin 1), s.stop = .returned ∧
    ∀ j < 2, (s.released.map Prod.snd).count j = 1 := by
  obtain ⟨s, hs, hst, hn⟩ : ∃ s, (system (Fin 1)).replay (fun _ _ => true) {}
      [.execute, .take 0, .finish 0 .resume, .settle 0, .take 0, .finish 0 .awaiting, .settle 0,
        .stop, .stop, .execute, .take 0, .ack 0, .stop, .stop, .stop, .settle 0, .stop, .stop, .stop] =
        some s ∧ s.stop = .returned ∧ s.activations = 2 := ⟨_, rfl, rfl, rfl⟩
  obtain ⟨-, -, -, -, -, h⟩ := job_accounting (.of_replay rfl hs)
  exact ⟨s, hst, fun j hj => (h hst).2 j (by rw [hn]; exact hj)⟩

end Worker

end ActorsFramework.Executor
