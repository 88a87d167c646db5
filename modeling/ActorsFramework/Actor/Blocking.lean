import ActorsFramework.Actor.Scheduling

/-!
# Reading a blocked mailbox

Two places block the mailbox: a worker at the end of `run`, and the sender that
schedules the actor, in `intrusive_ptr_add_ref_impl`. A job that is pushed or
waiting while the mailbox is blocked will read it, and `fetch_new_data` asserts
that nobody does. A sender whose message a running worker has already consumed
finds `flags_` empty later, blocks the empty mailbox and schedules the actor
(`read_while_blocked`). Where no `try_block` succeeds in front of a job, no
assertion of `fetch_new_data` fails (`never_read_blocked`).
-/

namespace ActorsFramework.Scheduling

open Detail Lib

variable {τ α : Type*}

/-- A sender is behind the `try_block` of `intrusive_ptr_add_ref_impl`. -/
def SendPc.pushing : SendPc α → Bool
  | .ref | .execute => true
  | _ => false

/-- At a `try_block` of `run`. -/
def WorkPc.blocking : WorkPc α → Bool
  | .tryBlock _ | .lastBlock => true
  | _ => false

/-- The thread reads the mailbox, or brings about that a worker does. -/
def Thread.expects (b : Thread α) : Bool := b.send.pushing || b.work.inRun

/-- The mailbox is never closed; it is blocked only while nobody is going to read it, and
nobody has read it blocked. -/
structure Readable (s : State τ α) : Prop where
  /-- The mailbox is not closed. -/
  notClosed : s.mailbox.stack ≠ .closed
  /-- While it is blocked there is no job. -/
  idle : s.mailbox.stack = .blocked → s.jobs = 0
  /-- Nor a worker in `run`, nor a sender about to push the job. -/
  unread : s.mailbox.stack = .blocked → ∀ t, (s.thread t).expects = false
  /-- No assertion of `fetch_new_data` has failed. -/
  sound : ∀ t, (s.thread t).work.misread = false

/-- Every `try_block` of `intrusive_ptr_add_ref_impl` meets an element, and one of `run`
succeeds only when no job is waiting, no other worker is in `run` and no sender is behind
the `try_block` of `intrusive_ptr_add_ref_impl`. -/
def Unobstructed (s : State τ α) : Act τ α → Prop
  | .send t => (s.thread t).send = .block → s.mailbox.stack.elems ≠ []
  | .work t => (s.thread t).work.blocking = true → s.mailbox.stack = .list [] →
      s.jobs = 0 ∧ ∀ u, u ≠ t → (s.thread u).expects = false
  | _ => True

instance [Fintype τ] [DecidableEq τ] [DecidableEq α] (s : State τ α) (a : Act τ α) :
    Decidable (Unobstructed s a) :=
  match a with
  | .send t => inferInstanceAs
      (Decidable ((s.thread t).send = .block → s.mailbox.stack.elems ≠ []))
  | .work t => inferInstanceAs (Decidable ((s.thread t).work.blocking = true →
      s.mailbox.stack = .list [] → s.jobs = 0 ∧ ∀ u, u ≠ t → (s.thread u).expects = false))
  | .call _ _ => isTrue trivial
  | .dequeue _ => isTrue trivial

theorem Private.readable {q q' : Mailbox α} {pc' : WorkPc α} {P : Prop} (h : Private q q' pc')
    (hc : q.stack ≠ .closed) (hb : q.stack ≠ .blocked) :
    q'.stack ≠ .closed ∧ pc'.misread = false ∧ (q'.stack = .blocked → P) := by
  rw [h.stack]
  exact ⟨hc, h.sound, fun hb' => absurd hb' hb⟩

/-- A step inside `run` on a mailbox that is neither blocked nor closed fails no assertion
of `fetch_new_data`, and leaves the mailbox blocked only by a `try_block`. -/
theorem RunMoves.readable {maxThroughput : ℕ} {q q' : Mailbox α} {pc pc' : WorkPc α}
    (h : RunMoves maxThroughput q pc q' pc') (hc : q.stack ≠ .closed) (hb : q.stack ≠ .blocked) :
    q'.stack ≠ .closed ∧ pc'.misread = false ∧
      (q'.stack = .blocked → q.stack = .list [] ∧ pc.blocking = true ∧ pc' = .store) := by
  cases h with
  | drained => exact (private_taken q _).readable hc hb
  | emptied => exact (private_taken q _).readable hc hb
  | handled => exact (private_handled q _ _).readable hc hb
  | fetch => exact ⟨nofun, rfl, nofun⟩
  | block hs => exact ⟨nofun, rfl, fun _ => ⟨hs, rfl, rfl⟩⟩
  | lastBlock =>
    rcases q.tryBlock_fst with hq | ⟨hs, hq⟩
    · rw [hq]
      exact ⟨hc, rfl, fun h => absurd h hb⟩
    · rw [hq]
      exact ⟨nofun, rfl, fun _ => ⟨hs, rfl, rfl⟩⟩
  | @fail _ _ f _ hq hfb hfc =>
    refine ⟨?_, ?_, fun hb' => ?_⟩
    · rcases hq with rfl | rfl
      · exact hc
      · nofun
    · cases f with
      | fetchBlocked => exact absurd (hfb rfl) hb
      | fetchClosed => exact absurd (hfc rfl) hc
      | _ => rfl
    · rcases hq with rfl | rfl
      · exact absurd hb' hb
      · cases hb'
  | pop | read | retry | again | hasNext | hasNone => exact ⟨hc, rfl, fun h => absurd h hb⟩

variable {s s' : State τ α}

theorem readable_init : Readable ({} : State τ α) where
  notClosed := nofun
  idle := fun _ => rfl
  unread := fun _ _ => rfl
  sound := fun _ => rfl

/-- While somebody expects to read the mailbox it is not blocked. -/
theorem Readable.ne_blocked (h : Readable s) {t : τ} (ht : (s.thread t).expects = true) :
    s.mailbox.stack ≠ .blocked := by
  intro hb
  rw [h.unread hb t] at ht
  cases ht

variable [DecidableEq τ]

/-- A step that does not block the mailbox, of a thread that does not come to expect
anything of a blocked one. -/
theorem Readable.set (h : Readable s) {t : τ} {b : Thread α} {c : Shared α}
    (hc : c.mailbox.stack ≠ .closed) (hsound : b.work.misread = false)
    (hb : c.mailbox.stack = .blocked →
      s.mailbox.stack = .blocked ∧ c.jobs = s.jobs ∧ b.expects = false) :
    Readable { toShared := c, thread := Function.update s.thread t b } where
  notClosed := hc
  idle := fun hb' => by
    obtain ⟨hsb, hj, -⟩ := hb hb'
    exact hj.trans (h.idle hsb)
  unread := fun hb' => by
    obtain ⟨hsb, -, he⟩ := hb hb'
    exact (Function.forall_update_iff s.thread fun _ b => b.expects = false).mpr
      ⟨he, fun u _ => h.unread hsb u⟩
  sound := (Function.forall_update_iff s.thread fun _ b => b.work.misread = false).mpr
    ⟨hsound, fun u _ => h.sound u⟩

/-- A step of `enqueue_base` that neither blocks the mailbox nor comes closer to the push. -/
theorem Readable.sent (h : Readable s) {t : τ} {c : Shared α} {pc : SendPc α}
    (hpc : pc.pushing = false) (hm : c.mailbox = s.mailbox) (hj : c.jobs = s.jobs) :
    Readable (s.sent t c pc) := by
  refine h.set ?_ (h.sound t) fun hb => ?_
  · rw [hm]
    exact h.notClosed
  · rw [hm] at hb
    have hw := (Bool.or_eq_false_iff.mp (h.unread hb t)).2
    refine ⟨hb, hj, ?_⟩
    simp only [Thread.expects, hpc, hw, Bool.or_false]

/-- A step on a mailbox that is open before and after it. -/
theorem Readable.opened (h : Readable s) {t : τ} {b : Thread α} {c : Shared α}
    (hc : c.mailbox.stack ≠ .closed) (hb : c.mailbox.stack ≠ .blocked)
    (hsound : b.work.misread = false) :
    Readable { toShared := c, thread := Function.update s.thread t b } :=
  h.set hc hsound fun hb' => absurd hb' hb

variable [DecidableEq α] {a : Act τ α} {maxThroughput : ℕ}

/-- A step inside `run`. -/
theorem Readable.run (h : Readable s) {t : τ} (hC : Unobstructed s (.work t))
    (hi : (s.thread t).send = .idle) {q : Mailbox α} {pc : WorkPc α}
    (hm : RunMoves maxThroughput s.mailbox (s.thread t).work q pc) :
    Readable (s.worked t { s.toShared with mailbox := q } pc) := by
  have hex : (s.thread t).expects = true := by
    rw [Thread.expects, hm.inRun, Bool.or_true]
  obtain ⟨hc, hsound, hblk⟩ := hm.readable h.notClosed (h.ne_blocked hex)
  by_cases hb : q.stack = .blocked
  · obtain ⟨hs, hpc, rfl⟩ := hblk hb
    obtain ⟨hj, hu⟩ := hC hpc hs
    refine ⟨hc, fun _ => hj, fun _ => ?_, ?_⟩
    · refine (Function.forall_update_iff s.thread fun _ b => b.expects = false).mpr ⟨?_, hu⟩
      simp [Thread.expects, hi, SendPc.pushing, WorkPc.inRun]
    · exact (Function.forall_update_iff s.thread fun _ b => b.work.misread = false).mpr
        ⟨rfl, fun u _ => h.sound u⟩
  · exact h.opened hc hb hsound

theorem Readable.move (h : Readable s) (hC : Unobstructed s a) (hm : Moves maxThroughput s a s') :
    Readable s' := by
  cases hm with
  | call hp => exact h.sent rfl rfl rfl
  | load hp => exact h.sent rfl rfl rfl
  | closed hp => exact h.sent rfl rfl rfl
  | retry hp => exact h.sent rfl rfl rfl
  | schedule hp => exact h.sent rfl rfl rfl
  | skip hp => exact h.sent rfl rfl rfl
  | busy hp => exact h.sent rfl rfl rfl
  | @push t m hp hc =>
    obtain ⟨l, hl⟩ := Mailbox.open_enqueue hc m
    exact h.opened (by rw [hl]; nofun) (by rw [hl]; nofun) (h.sound t)
  | @block t hp =>
    have hne := hC hp
    have hb : s.mailbox.stack ≠ .blocked := fun hb => hne (by rw [hb]; rfl)
    have hq : s.mailbox.tryBlock.1 = s.mailbox := by
      rcases s.mailbox.tryBlock_fst with hq | ⟨hs, -⟩
      · exact hq
      · rw [hs] at hne
        exact absurd rfl hne
    refine h.opened ?_ ?_ (h.sound t)
    · rw [hq]
      exact h.notClosed
    · rw [hq]
      exact hb
  | @ref t hp =>
    have hex : (s.thread t).expects = true := by
      rw [Thread.expects, hp]
      rfl
    exact h.opened h.notClosed (h.ne_blocked hex) (h.sound t)
  | @execute t hp =>
    have hex : (s.thread t).expects = true := by
      rw [Thread.expects, hp]
      rfl
    exact h.opened h.notClosed (h.ne_blocked hex) (h.sound t)
  | dequeue ht hj =>
    refine h.opened h.notClosed (fun hb => ?_) (reading_cacheHead _ _ _).2
    rw [h.idle hb] at hj
    cases hj
  | run hi hr => exact h.run hC hi (runMoves_of_runStep hr)
  | store ht => exact h.set h.notClosed rfl fun hb => ⟨hb, rfl, by rw [ht]; rfl⟩
  | unblock ht =>
    obtain ⟨l, hl⟩ := Mailbox.open_tryUnblock h.notClosed
    exact h.opened (by rw [hl]; nofun) (by rw [hl]; nofun) rfl
  | deref ht => exact h.set h.notClosed rfl fun hb => ⟨hb, rfl, by rw [ht]; rfl⟩

theorem readable_of_reachableBy (h : (system τ α maxThroughput).ReachableBy Unobstructed s) :
    Readable s :=
  ReachableBy.of_moves readable_init (fun _ _ _ hI hC hm => hI.move hC hm) h

/-- **The mailbox is not read while blocked**: in every run in which each `try_block` of
`intrusive_ptr_add_ref_impl` meets an element and no `try_block` of `run` succeeds in front
of another activation, no assertion of `fetch_new_data` fails, and while a worker is in
`run` the mailbox is neither blocked nor closed. -/
theorem never_read_blocked (h : (system τ α maxThroughput).ReachableBy Unobstructed s) (t : τ) :
    (s.thread t).work ≠ .failed .fetchBlocked ∧ (s.thread t).work ≠ .failed .fetchClosed ∧
      ((s.thread t).work.inRun = true → s.mailbox.stack ≠ .blocked ∧ s.mailbox.stack ≠ .closed) := by
  have hI := readable_of_reachableBy h
  refine ⟨fun hw => ?_, fun hw => ?_, fun hw => ⟨hI.ne_blocked (t := t) ?_, hI.notClosed⟩⟩
  · have hs := hI.sound t
    rw [hw] at hs
    cases hs
  · have hs := hI.sound t
    rw [hw] at hs
    cases hs
  · rw [Thread.expects, hw, Bool.or_true]

/-- A worker blocks the mailbox when it is done, and unblocks it before the next message. -/
theorem never_read_blocked_two : ∃ s : State (Fin 2) ℕ, s.mailbox.stack = .list [8] ∧
    ((s.thread 1).work ≠ .failed .fetchBlocked ∧ (s.thread 1).work ≠ .failed .fetchClosed ∧
      ((s.thread 1).work.inRun = true → s.mailbox.stack ≠ .blocked ∧ s.mailbox.stack ≠ .closed)) := by
  obtain ⟨s, hs, hl⟩ : ∃ s, (system (Fin 2) ℕ 5).replay (fun s a => decide (Unobstructed s a)) {}
      [.call 0 7, .send 0, .send 0, .send 0, .send 0, .send 0, .send 0, .send 0, .dequeue 1, .work 1,
        .work 1, .work 1, .work 1, .work 1, .work 1, .work 1, .work 1, .work 1, .call 0 8, .send 0,
        .send 0, .send 0, .send 0, .send 0, .send 0, .send 0, .dequeue 1] = some s ∧
      s.mailbox.stack = .list [8] := ⟨_, rfl, rfl⟩
  exact ⟨s, hl, never_read_blocked
    (.of_replay (fun _ _ hc => of_decide_eq_true hc) ⟨[], .init rfl, System.meets_nil _⟩ hs) 1⟩

/-- The message of the second sender is consumed before it reads `flags_`: it blocks the empty
mailbox and schedules the actor, and the worker that takes the job fails. -/
theorem read_while_blocked : ∃ s, (system (Fin 3) ℕ 5).Reachable s ∧
    ∃ t, (s.thread t).work = .failed .fetchBlocked := by
  obtain ⟨s, hs, hw⟩ : ∃ s, (system (Fin 3) ℕ 5).replay (fun _ _ => true) {}
      [.call 0 7, .send 0, .send 0, .send 0, .send 0, .send 0, .send 0, .send 0, .call 1 8, .send 1,
        .send 1, .dequeue 2, .work 2, .work 2, .work 2, .work 2, .work 2, .work 2, .work 2, .work 2,
        .work 2, .work 2, .work 2, .work 2, .send 1, .send 1, .send 1, .send 1, .send 1, .dequeue 2,
        .work 2] = some s ∧ (s.thread 2).work = .failed .fetchBlocked := ⟨_, rfl, rfl⟩
  exact ⟨s, .of_replay rfl hs, 2, hw⟩

end ActorsFramework.Scheduling
