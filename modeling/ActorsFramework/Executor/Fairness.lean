import ActorsFramework.Executor.Accounting

/-!
# First come, first served

All workers take from one queue, and a job that asks for another run goes to the
end of it. Hence an entry with `k` others in front of it is taken by the take
number `k + 1` from now on, whatever the threads do in between, and until then no
job is served twice (`served_in_turn`): the jobs of the executor take turns.
-/

namespace ActorsFramework.Executor

open Lib

variable {ω : Type*}

/-- The activation of a job's entry. -/
def Entry.activation (e : Entry) : Option ℕ :=
  match e.task with
  | .job j => some j
  | .shutdown => none

theorem count_activation (l : List Entry) (j : ℕ) :
    (l.filterMap Entry.activation).count j = l.countP (Entry.isJob j) := by
  induction l with
  | nil => rfl
  | cons e l ih =>
    obtain ⟨n, task⟩ := e
    cases task with
    | job i => simp [Entry.activation, Entry.isJob, List.count_cons, List.countP_cons, ih]
    | shutdown => simp [Entry.activation, Entry.isJob, List.filterMap_cons, ih]

variable [DecidableEq ω] [Fintype ω] {s s' : State ω}

/-- What has been pushed and taken stays pushed and taken. -/
theorem Moves.grows (h : Moves s s') :
    ∃ more later, s'.taken = s.taken ++ more ∧ s'.pushed = s.pushed ++ later := by
  cases h with
  | take => exact ⟨_, [], rfl, (List.append_nil _).symm⟩
  | execute | spawn | resume | push => exact ⟨[], _, (List.append_nil _).symm, rfl⟩
  | drain =>
    rw [s.drain_eq rfl]
    exact ⟨_, [], rfl, (List.append_nil _).symm⟩
  | _ => exact ⟨[], [], (List.append_nil _).symm, (List.append_nil _).symm⟩

theorem replay_grows {as : List (Act ω)} (h : (system ω).replay (fun _ _ => true) s as = some s') :
    ∃ more later, s'.taken = s.taken ++ more ∧ s'.pushed = s.pushed ++ later := by
  induction as generalizing s with
  | nil => cases h; exact ⟨[], [], (List.append_nil _).symm, (List.append_nil _).symm⟩
  | cons a as ih =>
    rw [System.replay, if_pos rfl] at h
    obtain ⟨s₁, h₁, h⟩ := Option.bind_eq_some_iff.mp h
    obtain ⟨more₁, later₁, ht₁, hp₁⟩ := (moves_of_step h₁).grows
    obtain ⟨more₂, later₂, ht₂, hp₂⟩ := ih h
    exact ⟨more₁ ++ more₂, later₁ ++ later₂, by rw [ht₂, ht₁, List.append_assoc],
      by rw [hp₂, hp₁, List.append_assoc]⟩

omit [DecidableEq ω] in
/-- The queue, then and now: what was taken in between and what is left are what was in it and
what was pushed in between. -/
theorem queue_between (h : Accounting s) (h' : Accounting s') {more : List (Option ω × Entry)}
    {later : List Entry} (ht : s'.taken = s.taken ++ more) (hp : s'.pushed = s.pushed ++ later) :
    more.map Prod.snd ++ s'.queue = s.queue ++ later := by
  have hf := h'.fifo
  rw [ht, hp, ← h.fifo, List.map_append, List.append_assoc, List.append_assoc] at hf
  exact List.append_cancel_left hf

omit [DecidableEq ω] in
/-- No job is in the queue twice. -/
theorem Accounting.nodup_queue (h : Accounting s) : (s.queue.filterMap Entry.activation).Nodup := by
  rw [List.nodup_iff_count_le_one]
  intro j
  rw [count_activation]
  have hj := h.job j
  split_ifs at hj <;> omega

/-- **First come, first served**, over every interleaving: whatever happens from a reachable
state on in which the entry `e` waits behind the entries `l`, the entries taken are those of
`l` in order and then `e`; as long as there have not been more takes than `l` has entries,
`e` waits with so many fewer in front of it. Up to the take of `e` no job is taken twice. -/
theorem served_in_turn (h : (system ω).Reachable s) {as : List (Act ω)}
    (hr : (system ω).replay (fun _ _ => true) s as = some s') {l r : List Entry} {e : Entry}
    (hq : s.queue = l ++ e :: r) :
    ∃ more, s'.taken = s.taken ++ more ∧
      (more.length ≤ l.length → ∃ r', s'.queue = l.drop more.length ++ e :: r' ∧
        more.map Prod.snd = l.take more.length) ∧
      (l.length < more.length → (more.take (l.length + 1)).map Prod.snd = l ++ [e]) ∧
      ((more.take (l.length + 1)).filterMap fun x => x.2.activation).Nodup := by
  obtain ⟨tr, htr⟩ := h
  have ha := accounting_of_reachable ⟨tr, htr⟩
  have ha' : Accounting s' := by
    obtain ⟨tr', htr', -⟩ := System.ReachableBy.of_replay (C := fun _ _ => True)
      (fun _ _ _ => trivial) ⟨tr, htr, fun _ _ => trivial⟩ hr
    exact accounting_of_reachable ⟨tr', htr'⟩
  obtain ⟨more, later, ht, hp⟩ := replay_grows hr
  have hb := queue_between ha ha' ht hp
  rw [hq, List.append_assoc, List.cons_append] at hb
  have hlen : (more.map Prod.snd).length = more.length := List.length_map _
  have hfront : (l ++ e :: (r ++ later)).take (l.length + 1) = l ++ [e] := by
    rw [List.take_append, List.take_of_length_le (Nat.le_succ _), Nat.add_sub_cancel_left]
    rfl
  refine ⟨more, ht, ?_, ?_, ?_⟩
  · intro hle
    refine ⟨r ++ later, ?_, ?_⟩
    · have hd := congrArg (List.drop (more.map Prod.snd).length) hb
      rwa [List.drop_left, hlen, List.drop_append_of_le_length hle] at hd
    · have htk := congrArg (List.take (more.map Prod.snd).length) hb
      rwa [List.take_left, hlen, List.take_append_of_le_length hle] at htk
  · intro hlt
    have htk := congrArg (List.take (l.length + 1)) hb
    rwa [hfront, List.take_append_of_le_length (by omega), ← List.map_take] at htk
  · have hpre : (more.map Prod.snd).take (l.length + 1) <+: l ++ [e] := by
      rw [← hfront, ← hb]
      exact (List.prefix_append _ _).take _
    have hsub : ((more.take (l.length + 1)).map Prod.snd).Sublist s.queue := by
      rw [List.map_take, hq, List.append_cons]
      exact hpre.sublist.trans (List.sublist_append_left _ _)
    have hn := ha.nodup_queue.sublist (hsub.filterMap Entry.activation)
    rwa [List.filterMap_map] at hn

/-- A job that asks for another run goes behind the two that are waiting: these are taken
before it is taken again. -/
theorem served_in_turn_three : ∃ (s s' : State (Fin 1)) (more : List (Option (Fin 1) × Entry)),
    s.queue = [⟨1, .job 1⟩, ⟨2, .job 2⟩] ∧ s'.taken = s.taken ++ more ∧
    (more.take 2).map Prod.snd = [⟨1, .job 1⟩, ⟨2, .job 2⟩] := by
  obtain ⟨s, hs, hq, s', hs', hl, hl'⟩ : ∃ s, (system (Fin 1)).replay (fun _ _ => true) {}
      [.execute, .execute, .execute, .take 0] = some s ∧ s.queue = [⟨1, .job 1⟩, ⟨2, .job 2⟩] ∧
      ∃ s', (system (Fin 1)).replay (fun _ _ => true) s [.finish 0 .resume, .settle 0, .take 0,
        .finish 0 .resume, .settle 0, .take 0, .finish 0 .done, .settle 0, .take 0] = some s' ∧
      s.taken.length = 1 ∧ s'.taken.length = 4 := ⟨_, rfl, rfl, _, rfl, rfl, rfl⟩
  obtain ⟨more, ht, -, h, -⟩ := served_in_turn (l := [⟨1, .job 1⟩]) (r := []) (.of_replay rfl hs) hs' hq
  refine ⟨s, s', more, hq, ht, h ?_⟩
  rw [ht, List.length_append, hl] at hl'
  rw [List.length_singleton]
  omega

end ActorsFramework.Executor
